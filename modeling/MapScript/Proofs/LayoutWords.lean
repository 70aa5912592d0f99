import MapScript.Proofs.Positions
import MapScript.Proofs.Trees
import MapScript.Proofs.Writing

/-! The words of a layout, whatever is wrong with the script: those of its atoms in order, and closing words
for what is not closed. Only a stray word may be joined to what is written after it. -/

namespace MapScript

open Text (Inked StartsBlank EndsBlank)

/-- The words of an atom when it is laid out; those of a comment with its marks and the stars before its
lines. -/
def Atom.spoken : Atom → List Text
  | .comment _ content _ _ =>
    Item.openMark :: (Word.texts ((Text.feedLines content).headD [])
      ++ ((Layout.Job.dropBlankEnd (Text.feedLines content).tail).flatMap fun line =>
        Word.texts (Layout.Job.commentLine line)) ++ [Item.closeMark])
  | a => a.normalTexts

def Atom.IsRead (a : Atom) : Prop :=
  ∃ source w rest item used, Item.Reading source w rest item used ∧ (∀ v ∈ w :: rest, v.text.Inked) ∧
    item.atom = a

theorem Atom.isRead_of_mem_parse {file : Int} {source : Text} {a : Atom} (h : a ∈ Atom.parse file source) :
    a.IsRead := by
  obtain ⟨item, hi, rfl⟩ := List.mem_map.1 h
  obtain ⟨before, w, rest, used, hs, -, hr⟩ := Item.reading_of_mem (fun _ => True) trivial
    (fun _ _ _ => .inl trivial) hi
  have hsub : ∀ v ∈ w :: rest, v ∈ Word.scan file source := fun v hv => hs ▸ List.mem_append_right before hv
  exact ⟨source, w, rest, item, used, hr, fun v hv => Word.inked_of_mem_scan (hsub v hv), rfl⟩

theorem Atom.IsRead.inked {a : Atom} (h : a.IsRead) (hk : a.kind ≠ .comment) : ∀ v ∈ a.words, v.text.Inked := by
  obtain ⟨source, w, rest, item, used, hr, hink, rfl⟩ := h
  suffices hsub : item.atom.words ⊆ w :: rest from fun v hv => hink v (hsub hv)
  cases hr with
  | mark | starved | nameless | unknown => exact List.cons_subset_cons w (List.nil_subset rest)
  | alone _ hb =>
    rw [Item.sound, (Keyword.words_of_alone? hb w).2]
    exact List.cons_subset_cons w (List.nil_subset rest)
  | @unary _ _ _ arg more _ hb _ =>
    rw [Item.sound, (Keyword.words_of_unary? hb w arg).2]
    exact List.cons_subset_cons w (List.cons_subset_cons arg (List.nil_subset more))
  | @const name value more => exact List.subset_append_left [w, name, value] more
  | @valueless name more => exact List.subset_append_left [w, name] more
  | @command _ args more | @short _ args more => exact List.subset_append_left (w :: args) more
  | closed | unclosed | inline => exact absurd rfl hk

theorem Atom.spoken_eq_normalTexts {a : Atom} (h : a.kind ≠ .comment) : a.spoken = a.normalTexts := by
  cases a with
  | comment => exact absurd rfl h
  | _ => rfl

namespace Layout

section Phrases

variable {o : Options} {place : Place}

theorem texts_phrase_comment (ho : o.Usual) (opener : Word) (content : Text) (closer : Option Word) (stop : Nat) :
    Word.texts (phrase o place (.comment opener content closer stop))
      = (Atom.comment opener content closer stop).spoken := by
  have hopen : Item.openMark.Inked := ⟨by decide, by decide⟩
  have hclose : Item.closeMark.Inked := ⟨by decide, by decide⟩
  have hlines : ∀ lines : List Text,
      Word.texts (lines.flatMap fun line => o.lineEnding ++ (o.indentation place.indent ++ Job.commentLine line))
        = lines.flatMap fun line => Word.texts (Job.commentLine line) := by
    intro lines
    induction lines with
    | nil => rfl
    | cons line lines ih =>
      rw [List.flatMap_cons, Word.texts_append (.inr (startsBlank_lines ho place.indent lines)),
        texts_newline_append ho, ih, List.flatMap_cons]
  have hfirst : ∀ first : Text,
      Word.texts (if first.isEmpty then [] else (" " : Text) ++ first) = Word.texts first := by
    intro first
    split
    · next he => rw [List.isEmpty_iff.1 he]
    · exact Word.texts_blank_append isBlank_space.1 first
  have hinner : ∀ first rest, Word.texts (commentInner o place.indent first rest)
      = Word.texts first ++ rest.flatMap fun line => Word.texts (Job.commentLine line) := by
    intro first rest
    rw [commentInner, Word.texts_append_blank (isBlank_commentEnd ho place.indent rest),
      Word.texts_append (.inr (startsBlank_lines ho place.indent rest)), hlines, hfirst]
  rw [phrase, Atom.spoken]
  generalize Text.feedLines content = lines
  have hstart := startsBlank_commentInner ho place.indent (Text.trim (lines.headD [])) (Job.dropBlankEnd lines.tail)
  have hend := endsBlank_commentInner ho place.indent (Text.trim (lines.headD [])) (Job.dropBlankEnd lines.tail)
  have hne : commentInner o place.indent (Text.trim (lines.headD [])) (Job.dropBlankEnd lines.tail) ≠ [] := by
    rw [commentInner]
    simp [isBlank_space.2]
  rw [Word.texts_append (.inr (Text.startsBlank_append hstart (.inl hne))), Word.texts_append (.inl hend),
    Word.texts_inked hopen, Word.texts_inked hclose, hinner, Word.texts_trim]
  rfl

theorem texts_phrase_command {w : Word} {args : List Word} (hw : w.text.Inked)
    (ha : ∀ arg ∈ args, arg.text.Inked) :
    Word.texts (phrase o place (.command w args)) = (Atom.command w args).normalTexts := by
  obtain ⟨ps, hphrase, hps, hblank⟩ := @phrase_command o place w args
  have hpi : ∀ p ∈ ps, p.2.Inked := by
    intro p hp
    have hmem : p.2 ∈ args.map Word.text := hps ▸ List.mem_map_of_mem hp
    obtain ⟨arg, harg, ht⟩ := List.mem_map.1 hmem
    exact ht ▸ ha arg harg
  rw [hphrase, Word.texts_spread hw hblank hpi, hps]
  rfl

theorem texts_phrase (ho : o.Usual) {a : Atom} (h : a.IsRead) : Word.texts (phrase o place a) = a.spoken := by
  obtain ⟨source, w, rest, item, used, hr, hink, rfl⟩ := h
  have hw := hink w (by simp)
  cases hr with
  | mark | starved | nameless | unknown => exact Word.texts_inked hw
  | @alone _ k build hlead hk =>
    have hkind := (Keyword.words_of_alone? hk w).1
    change Word.texts (phrase o place (build w)) = (build w).spoken
    rw [phrase_alone hk, Word.texts_inked k.inked_spelling, Atom.spoken_eq_normalTexts hkind,
      normal_head hlead hk]
  | @unary k build missing arg more hlead hk ha =>
    have hkind := (Keyword.words_of_unary? hk w arg).1
    have hlower := Lead.lower_of_keyword hlead
    change Word.texts (phrase o place (build w arg)) = (build w arg).spoken
    rw [phrase_unary hk, Word.texts_spread k.inked_spelling (by simpa using isBlank_space)
      (by simpa using hink arg (by simp)), Atom.spoken_eq_normalTexts hkind]
    cases k <;> simp only [Keyword.unary?, Option.some.injEq, Prod.mk.injEq, reduceCtorEq] at hk <;>
      obtain ⟨rfl, rfl⟩ := hk <;>
      simp [Atom.head, Atom.tail, Atom.normalTexts, Atom.kind, Atom.Kind.isKeyword, hlower]
  | @const name value more hlead hn hv =>
    have hlower := Lead.lower_of_keyword hlead
    have hname := hink name (by simp)
    have hvalue := hink value (by simp)
    change Word.texts (phrase o place (.const w name (some value))) = _
    rw [phrase_const, Word.texts_spread Keyword.const.inked_spelling (by simpa using isBlank_space)
      (by simp [hname, hvalue])]
    simp [Item.sound, Atom.spoken, Atom.head, Atom.tail, Atom.normalTexts, Atom.kind, Atom.Kind.isKeyword, hlower]
  | @valueless name more hlead hn hnext =>
    have hlower := Lead.lower_of_keyword hlead
    have hphrase : phrase o place (.const w name none)
        = Keyword.const.spelling ++ Word.spread [(" ", name.text)] := by
      simp [phrase, Text.join, Word.spread, Keyword.spelling]
    change Word.texts (phrase o place (.const w name none)) = _
    rw [hphrase, Word.texts_spread Keyword.const.inked_spelling (by simpa using isBlank_space)
      (by simpa using hink name (by simp))]
    simp [Item.flawed, Atom.spoken, Atom.head, Atom.tail, Atom.normalTexts, Atom.kind, Atom.Kind.isKeyword, hlower]
  | closed | unclosed | inline => exact texts_phrase_comment ho _ _ _ _
  | command | short => exact texts_phrase_command hw fun arg harg => hink arg (by simp [harg])

end Phrases

/-- The words that have been written, of which a stray one may be open at the end. -/
structure Trail where
  words : List Text := []
  /-- The stray word that nothing has been written after. -/
  stray : Option Text := none
  /-- The stray words that something was joined to. -/
  glued : List Text := []

namespace Trail

def all (t : Trail) : List Text := t.words ++ t.stray.toList

def say (t : Trail) (words : List Text) : Trail := ⟨t.all ++ words, none, t.glued⟩

def leave (t : Trail) (word : Text) : Trail := ⟨t.all, some word, t.glued⟩

def join (t : Trail) (word : Text) (words : List Text) : Trail :=
  ⟨t.words ++ (t.stray.getD [] ++ word) :: words, none, t.glued ++ t.stray.toList⟩

def tell (t : Trail) (a : Atom) : Trail := if a.kind = .other then t.leave a.head.text else t.say a.spoken

mutual
def node (t : Trail) : Node → Trail
  | .single a => t.tell a
  | .block opener body _ => (nodes (t.tell opener) body).say ["\x7d"]
  | .condition opener body closer => closer.elim id (fun c t => t.tell c) (nodes (t.tell opener) body)
  | .random opener leading chanceNodes _ =>
    (chances (nodes (t.tell opener) leading) chanceNodes).join "end_random" []
  | .chance head body => nodes (t.tell head) body

def nodes (t : Trail) : List Node → Trail
  | [] => t
  | n :: rest => nodes (node t n) rest

def chances (t : Trail) : List Node → Trail
  | [] => t
  | .chance head body :: rest => chances (nodes (t.join "percent_chance" (head.tail.map Word.text)) body) rest
  | _ :: rest => chances t rest
end

end Trail

structure Reads (out : Output) (t : Trail) : Prop where
  text : ∃ s, out.text = s ++ t.stray.getD [] ∧ s.EndsBlank ∧ Word.texts s = t.words
  stray : ∀ w ∈ t.stray, w.Inked ∧ out.atLineStart = false ∧ ∃ last ∈ out.last, last.kind = .other

namespace Reads

variable {out out' : Output} {t : Trail}

theorem texts_eq (h : Reads out t) : Word.texts out.text = t.all := by
  obtain ⟨s, htext, hs, hwords⟩ := h.text
  rw [htext, Word.texts_append (.inl hs), hwords, Trail.all]
  cases hstray : t.stray with
  | none => rfl
  | some w => exact congrArg _ (Word.texts_inked (h.stray w hstray).1)

theorem endsBlank (h : Reads out t) (ht : t.stray = none) : out.text.EndsBlank := by
  obtain ⟨s, htext, hs, -⟩ := h.text
  rw [htext, ht]
  simpa using hs

theorem of_endsBlank (he : out.text.EndsBlank) (ht : Word.texts out.text = t.words) (hs : t.stray = none) :
    Reads out t :=
  ⟨⟨out.text, by simp [hs], he, ht⟩, by simp [hs]⟩

theorem say {s x b : Text} (htext : out'.text = s ++ (x ++ b)) (hs : s.EndsBlank)
    (hall : Word.texts s = t.all) (hb : b.isBlank = true ∧ b ≠ []) : Reads out' (t.say (Word.texts x)) := by
  refine of_endsBlank ?_ ?_ rfl
  · rw [htext, ← List.append_assoc]
    exact Text.endsBlank_append (Text.endsBlank_of_isBlank hb.1) (.inl hb.2)
  · rw [htext, Word.texts_append (.inl hs), Word.texts_append_blank hb.1, hall]
    rfl

theorem join (h : Reads out t) (o : Options) (indent : Nat) {w x b : Text}
    (htext : out'.text = out.text ++ (out.lead o indent ++ (w ++ (x ++ b)))) (hw : w.Inked)
    (hx : x.StartsBlank) (hb : b.isBlank = true ∧ b ≠ []) : Reads out' (t.join w (Word.texts x)) := by
  have hxb : StartsBlank (x ++ b) := Text.startsBlank_append hx (.inr (Text.startsBlank_of_isBlank hb.1))
  have hends : EndsBlank (w ++ (x ++ b)) := by
    rw [← List.append_assoc]
    exact Text.endsBlank_append (Text.endsBlank_of_isBlank hb.1) (.inl hb.2)
  have hne : w ++ (x ++ b) ≠ [] := by simp [hw.1]
  refine of_endsBlank ?_ ?_ rfl
  · rw [htext, ← List.append_assoc]
    exact Text.endsBlank_append hends (.inl hne)
  · obtain ⟨s, hs, hblank, hwords⟩ := h.text
    cases hstray : t.stray with
    | none =>
      have hout := h.endsBlank hstray
      have hall := h.texts_eq
      rw [htext, Word.texts_append (.inl hout), Word.texts_blank_append (Output.isBlank_lead o indent out),
        Word.texts_append (.inr hxb), Word.texts_inked hw, Word.texts_append_blank hb.1, hall]
      simp [Trail.join, Trail.all, hstray]
    | some g =>
      obtain ⟨hg, hline, -⟩ := h.stray g hstray
      have hlead : out.lead o indent = [] := by simp [Output.lead, hline]
      -- A stray word has not ended its line, so nothing comes between it and what is joined to it.
      have hgw : Inked (g ++ w) := by
        refine ⟨by simp [hg.1], fun c hc => ?_⟩
        cases List.mem_append.1 hc with
        | inl hc => exact hg.2 c hc
        | inr hc => exact hw.2 c hc
      have hassoc : out'.text = s ++ ((g ++ w) ++ (x ++ b)) := by
        rw [htext, hs, hlead, hstray]
        simp
      rw [hassoc, Word.texts_append (.inl hblank), Word.texts_append (.inr hxb), Word.texts_inked hgw,
        Word.texts_append_blank hb.1, hwords]
      simp [Trail.join, hstray]

theorem newline (h : Reads out t) {o : Options} (ho : o.Usual) (ht : t.stray = none) :
    Reads (out.newline o) t := by
  refine of_endsBlank ?_ ?_ ht
  · exact (Spaced.newline ho out).ends (h.endsBlank ht)
  · rw [Output.text_newline, Word.texts_append_blank ho.blank.1, h.texts_eq, Trail.all, ht]
    simp

end Reads

theorem Spaced.texts_eq {out out' : Output} (h : Spaced out out') : Word.texts out'.text = Word.texts out.text := by
  rw [← Word.texts_trimRight, h.trimmed, Word.texts_trimRight]

section Steps

variable {job : Job} (ho : job.options.Usual) {out : Output} {t : Trail} (h : Reads out t)

include ho h

theorem endRun_endsBlank {a : Atom} (hk : a.kind ≠ .other) : (job.endRun out a).text.EndsBlank := by
  cases ht : t.stray with
  | none => exact (endRun_spaced ho out a).ends (h.endsBlank ht)
  | some w =>
    obtain ⟨-, -, last, hlast, hother⟩ := h.stray w ht
    have hrun : job.endRun out a = out.newline job.options := by
      simp [Job.endRun, Option.mem_def.1 hlast, hother, hk]
    rw [hrun, Output.text_newline]
    exact Text.endsBlank_append (Text.endsBlank_of_isBlank ho.blank.1) (.inl ho.blank.2)

omit ho in
/-- Before a stray word nothing changes, or a line ends. -/
theorem before_other (indent : Nat) (w : Word) (ht : t.stray.isSome) :
    job.before indent out (.other w) = out ∨ job.before indent out (.other w) = out.newline job.options := by
  obtain ⟨g, hg⟩ := Option.isSome_iff_exists.1 ht
  obtain ⟨-, -, last, hlast, hother⟩ := h.stray g hg
  have hkind : (Atom.other w).kind = .other := rfl
  have hrun : job.endRun out (.other w) = out := by
    simp [Job.endRun, Option.mem_def.1 hlast, hother, hkind]
  rw [Job.before, hrun, Job.makeSpace, Option.mem_def.1 hlast]
  dsimp only
  split
  · unfold Output.separate
    split
    · exact .inl rfl
    · exact .inr rfl
  · exact .inl (by simp [Job.isTrailing, Atom.kind])

theorem Reads.other {w : Word} (hw : w.text.Inked) (place : Place) (beforeBlock : Bool) :
    Reads (job.atom place beforeBlock out (.other w)) (t.leave w.text) := by
  have hspaced := before_spaced ho place.indent out (.other w)
  generalize hout : job.before place.indent out (.other w) = out' at hspaced
  obtain ⟨front, hatom, hends, htexts⟩ : ∃ front : Output,
      job.other place.indent out' w = front.write job.options place.indent w.text ∧
        front.text.EndsBlank ∧ Word.texts front.text = Word.texts out'.text := by
    simp only [Job.other]
    split
    · refine ⟨out'.raw " ", rfl, ?_, ?_⟩
      · rw [Output.text_raw]
        exact Text.endsBlank_append (Text.endsBlank_of_isBlank isBlank_space.1) (.inl isBlank_space.2)
      · rw [Output.text_raw, Word.texts_append_blank isBlank_space.1]
    · next hfollows =>
      refine ⟨out', rfl, ?_, rfl⟩
      cases ht : t.stray with
      | none => exact hspaced.ends (h.endsBlank ht)
      | some g =>
        obtain ⟨-, hline, last, hlast, hother⟩ := h.stray g ht
        cases before_other h place.indent w (by simp [ht]) with
        -- The stray word before this one is still on its line, so it is followed there.
        | inl he =>
          rw [← hout, he] at hfollows
          exact absurd (by simp [Option.mem_def.1 hlast, hother, hline]) hfollows
        | inr he =>
          rw [← hout, he, Output.text_newline]
          exact Text.endsBlank_append (Text.endsBlank_of_isBlank ho.blank.1) (.inl ho.blank.2)
  have hwrite : job.atom place beforeBlock out (.other w)
      = (front.write job.options place.indent w.text).setLast (some (.other w)) := by
    rw [Job.atom, hout, Job.atomBody, hatom]
  have hlead := Output.isBlank_lead job.options place.indent front
  rw [hwrite]
  refine ⟨⟨front.text ++ front.lead job.options place.indent, by simp [Trail.leave], ?_, ?_⟩, fun x hx => ?_⟩
  · exact Text.endsBlank_append (Text.endsBlank_of_isBlank hlead) (.inr hends)
  · rw [Word.texts_append_blank hlead, htexts, hspaced.texts_eq, h.texts_eq]
    rfl
  · obtain rfl : w.text = x := Option.some.inj hx
    refine ⟨hw, ?_, .other w, rfl, rfl⟩
    simp only [Output.setLast, Output.write]
    split
    · rfl
    · next hline => exact Bool.eq_false_iff.2 hline

theorem Reads.written {a : Atom} (ha : a.IsRead) (hk : a.kind ≠ .other) (place : Place) (beforeBlock : Bool) :
    Reads (job.atom place beforeBlock out a) (t.say a.spoken) := by
  have hwrite : Stroke.write job out ⟨place, a, .written beforeBlock false⟩ = job.atom place beforeBlock out a := by
    simp [Stroke.write]
  have hready := ready_spaced ho out ⟨place, a, .written beforeBlock false⟩
  have hends : (Stroke.ready job out ⟨place, a, .written beforeBlock false⟩).text.EndsBlank := by
    have hbefore := (makeSpace_spaced ho place.indent (job.endRun out a) a).ends (endRun_endsBlank ho h hk)
    simp only [Stroke.ready]
    split
    · exact (Spaced.separate ho _).ends hbefore
    · exact hbefore
  have hlead := Output.isBlank_lead job.options place.indent
    (Stroke.ready job out ⟨place, a, .written beforeBlock false⟩)
  have htext := @Stroke.text_write job out ⟨place, a, .written beforeBlock false⟩ hk
  rw [hwrite] at htext
  rw [← @texts_phrase job.options place ho a ha]
  refine .say htext ?_ ?_ (back_blank ho _)
  · exact Text.endsBlank_append (Text.endsBlank_of_isBlank hlead) (.inr hends)
  · rw [Stroke.front, Word.texts_append_blank hlead, hready.texts_eq, h.texts_eq]

theorem Reads.atom {a : Atom} (ha : a.IsRead) (place : Place) (beforeBlock : Bool) :
    Reads (job.atom place beforeBlock out a) (t.tell a) := by
  by_cases hk : a.kind = .other
  · cases a <;> simp [Atom.kind] at hk
    exact h.other ho (ha.inked (by simp [Atom.kind]) _ (by simp [Atom.words, Atom.head])) place beforeBlock
  · rw [Trail.tell, if_neg hk]
    exact h.written ho ha hk place beforeBlock

theorem Reads.endStray : (job.endStray out).text.EndsBlank ∧ Word.texts (job.endStray out).text = t.all := by
  have hspaced := endStray_spaced ho out
  refine ⟨?_, by rw [hspaced.texts_eq, h.texts_eq]⟩
  cases ht : t.stray with
  | none => exact hspaced.ends (h.endsBlank ht)
  | some w =>
    obtain ⟨-, -, last, hlast, hother⟩ := h.stray w ht
    have hend : job.endStray out = out.newline job.options := by
      simp [Job.endStray, Option.mem_def.1 hlast, hother]
    rw [hend, Output.text_newline]
    exact Text.endsBlank_append (Text.endsBlank_of_isBlank ho.blank.1) (.inl ho.blank.2)

theorem Reads.closeBlock (indent : Nat) :
    Reads ((job.endStray out).statement job.options indent ["\x7d"]) (t.say ["\x7d"]) := by
  obtain ⟨hends, htexts⟩ := h.endStray ho
  have hlead := Output.isBlank_lead job.options indent (job.endStray out)
  have hbrace : Word.texts (Text.ofString "\x7d") = [Text.ofString "\x7d"] := by decide
  have hsay : Reads ((job.endStray out).statement job.options indent ["\x7d"])
      (t.say (Word.texts (Text.ofString "\x7d"))) := by
    refine .say (s := (job.endStray out).text ++ (job.endStray out).lead job.options indent) ?_ ?_ ?_ ho.blank
    · rw [Output.text_statement, List.append_assoc]
      rfl
    · exact Text.endsBlank_append (Text.endsBlank_of_isBlank hlead) (.inr hends)
    · rw [Word.texts_append_blank hlead, htexts]
  rwa [hbrace] at hsay

theorem Reads.endRandom (indent : Nat) :
    Reads (out.statement job.options indent ["end_random"]) (t.join "end_random" []) := by
  refine h.join (x := []) job.options indent (Output.text_statement job.options indent out _)
    ⟨by decide, by decide⟩ Text.startsBlank_nil ho.blank

end Steps

theorem chanceText_eq {head : Atom} (hr : head.IsRead) (hk : head.kind = .percentChance) :
    ∃ x, Job.chanceText head = "percent_chance" ++ x ∧ StartsBlank x ∧ Word.texts x = head.tail.map Word.text := by
  cases head <;> simp [Atom.kind] at hk
  next w v =>
    have hv : v.text.Inked := hr.inked (by simp [Atom.kind]) v (by simp [Atom.words, Atom.tail])
    refine ⟨(" " : Text) ++ v.text, by simp [Job.chanceText, Text.join, Atom.tail], ?_, ?_⟩
    · exact Text.startsBlank_append (Text.startsBlank_of_isBlank isBlank_space.1) (.inl isBlank_space.2)
    · rw [Word.texts_blank_append isBlank_space.1, Word.texts_inked hv]
      rfl

theorem Reads.chance {out out' : Output} {t : Trail} (h : Reads out t) {head : Atom} (hr : head.IsRead)
    (hk : head.kind = .percentChance) (o : Options) (indent : Nat) {b : Text} (hb : b.isBlank = true ∧ b ≠ [])
    (htext : out'.text = out.text ++ (out.lead o indent ++ (Job.chanceText head ++ b))) :
    Reads out' (t.join "percent_chance" (head.tail.map Word.text)) := by
  obtain ⟨x, hx, hstart, htexts⟩ := chanceText_eq hr hk
  rw [hx, List.append_assoc] at htext
  rw [← htexts]
  exact h.join o indent htext ⟨by decide, by decide⟩ hstart hb

theorem Reads.chances {job : Job} (ho : job.options.Usual) {ps : List (Atom × List Node)}
    (hk : ∀ p ∈ ps, p.1.kind = .percentChance) (hr : ∀ p ∈ ps, p.1.IsRead)
    (hp : ∀ p ∈ ps, ∀ place out t, Reads out t → Reads (job.nodes place out p.2) (t.nodes p.2))
    {out : Output} {t : Trail} (h : Reads out t) (place : Place) (short : Bool) (length : Nat) :
    Reads (job.chances place short length out (ps.map fun p => .chance p.1 p.2))
      (t.chances (ps.map fun p => .chance p.1 p.2)) := by
  induction ps generalizing out t with
  | nil => exact h
  | cons p ps ih =>
    have hhead := fun {out'} => @Reads.chance out out' t h p.1 (hr p (by simp)) (hk p (by simp))
      job.options place.indent
    have hpad : ∀ {b : Text}, b.isBlank = true ∧ b ≠ [] →
        Text.isBlank (Text.ofChars (length - (Job.chanceText p.1).length) ' ' ++ b) = true ∧
          Text.ofChars (length - (Job.chanceText p.1).length) ' ' ++ b ≠ [] := by
      intro b hb
      have hspaces : ∀ n : Nat, (Text.ofChars n ' ').isBlank = true := fun n => isBlank_spaces n
      exact ⟨by rw [Text.isBlank_append, hspaces, hb.1]; rfl, by simp [hb.2]⟩
    rw [List.map_cons, Job.chances, Trail.chances]
    refine ih (fun q hq => hk q (by simp [hq])) (fun q hq => hr q (by simp [hq]))
      (fun q hq => hp q (by simp [hq])) ?_
    split
    · split
      · next he =>
        rw [List.isEmpty_iff.1 he]
        exact hhead (hpad ho.blank) (by simp [Text.padRight])
      · exact hp p (by simp) _ _ _ (hhead (hpad isBlank_space) (by simp [Text.padRight]))
    · exact hp p (by simp) _ _ _ (hhead ho.blank (by simp [Output.text_statement, Text.join]))

theorem reads_nodes {job : Job} (ho : job.options.Usual) {ns : List Node} (hg : Grown ns)
    (hr : ∀ a ∈ Node.allAtoms ns, a.IsRead) (place : Place) (out : Output) (t : Trail) (h : Reads out t) :
    Reads (job.nodes place out ns) (t.nodes ns) := by
  induction hg generalizing place out t with
  | nil => exact h
  | single _ ih =>
    simp only [Node.allAtoms, Node.atoms, List.forall_mem_append, List.forall_mem_singleton] at hr
    exact ih hr.2 place _ _ (h.atom ho hr.1 _ _)
  | @block opener body closer rest hk _ _ _ ihb ihr =>
    simp only [Node.allAtoms, Node.atoms, List.forall_mem_append, List.forall_mem_cons] at hr
    obtain ⟨⟨hopener, hbody, -⟩, hrest⟩ := hr
    refine ihr hrest place _ _ ?_
    exact (ihb hbody _ _ _ (h.atom ho hopener place false)).closeBlock ho place.indent
  | @condition opener body closer rest hk _ hc _ ihb ihr =>
    simp only [Node.allAtoms, Node.atoms, List.forall_mem_append, List.forall_mem_cons] at hr
    obtain ⟨⟨hopener, hbody, hcloser⟩, hrest⟩ := hr
    refine ihr hrest place _ _ ?_
    have hin := ihb hbody (job.conditionPlace place) _ _ (h.atom ho hopener place false)
    cases closer with
    | none => exact hin
    | some c =>
      have hend := hin.atom ho (hcloser c (by simp)) place false
      have hplain : c.kind ≠ .other := by simp [hc c rfl]
      rw [Job.node, closeCondition_eq]
      split
      · refine hend.newline ho ?_
        rw [Trail.tell, if_neg hplain, Trail.say]
      · exact hend
  | @random opener leading closer rest chances hk _ hkc _ _ _ ihl ihp ihr =>
    simp only [Node.allAtoms, Node.atoms, Node.allAtoms_chances, List.forall_mem_append, List.forall_mem_cons] at hr
    obtain ⟨⟨hopener, hleading, hchances, -⟩, hrest⟩ := hr
    refine ihr hrest place _ _ ?_
    have hin := ihl hleading (Job.randomPlace place) _ _ (h.atom ho hopener place false)
    refine (hin.chances ho hkc (fun p hp => ?_) (fun p hp => ihp p hp fun a ha => ?_) _ _ _).endRandom ho place.indent
    · exact hchances _ (List.mem_flatMap.2 ⟨p, hp, by simp⟩)
    · exact hchances _ (List.mem_flatMap.2 ⟨p, hp, by simp [ha]⟩)

theorem texts_format {o : Options} (ho : o.Usual) (source : Text) :
    Word.texts (format o source) = (Trail.nodes {} (Node.group (Atom.parse 0 source))).all := by
  have hread : ∀ a ∈ Node.allAtoms (Node.group (Atom.parse 0 source)), a.IsRead := by
    rw [Node.allAtoms_group]
    exact fun a => Atom.isRead_of_mem_parse
  have hempty : Reads {} {} := .of_endsBlank Text.endsBlank_nil rfl rfl
  exact (@reads_nodes ⟨o, source⟩ ho _ (Node.grown_group _) hread {} {} {} hempty).texts_eq

end Layout

end MapScript
