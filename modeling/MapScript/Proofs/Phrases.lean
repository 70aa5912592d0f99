import MapScript.Proofs.Likeness
import MapScript.Proofs.Texts

/-! The text of an atom reads back as an atom that layout cannot tell from the first one. -/

namespace MapScript

open Text (Inked StartsBlank EndsBlank)

/-- A text that is an atom from its first glyph to its last one. -/
structure Atom.Spells (t : Text) (a : Atom) : Prop where
  parse : Item.parse 0 t = [Item.sound a]
  start : a.start = 0
  stop : a.stop = t.length
  starts : ¬ t.StartsBlank
  ends : ¬ t.EndsBlank

open Item in
theorem Atom.Spells.of_reading {t : Text} {a : Atom} {w : Word} {rest : List Word}
    (hs : Word.scan 0 t = w :: rest) (hr : Reading t w rest (sound a) rest.length)
    (hstart : ¬ t.StartsBlank) (hend : ¬ t.EndsBlank) : Spells t a := by
  have hfile : ∀ v ∈ w :: rest, v.file = 0 := fun v hv => Word.scanFrom_file (by rw [← hs] at hv; exact hv)
  obtain ⟨⟨first, hf, last, hl, hspan⟩, -⟩ := hr.over hfile
  rw [List.take_length] at hf hl
  obtain rfl : w = first := by simpa using hf
  obtain ⟨before, hb⟩ := List.getLast?_eq_some_iff.1 hl
  rw [Atom.span, Span.mk.injEq] at hspan
  obtain ⟨-, hfirst, hlast⟩ := hspan
  refine ⟨?_, ?_, ?_, hstart, hend⟩
  · rw [Item.parse, hs, readFrom_cons hr, List.drop_length]
    rfl
  · exact (Int.ofNat.inj hfirst).trans (Word.scan_head hstart hs)
  · exact (Int.ofNat.inj hlast).trans (Word.scan_getLast hend (hs.trans hb))

theorem Keyword.inked_spelling (k : Keyword) : k.spelling.Inked := by
  cases k <;> exact ⟨by decide, by decide⟩

def Atom.Kind.isKeyword : Atom.Kind → Bool
  | .const => true
  | .define => true
  | .undefine => true
  | .ifThen => true
  | .elseIf => true
  | .elseThen => true
  | .endIf => true
  | .startRandom => true
  | .percentChance => true
  | .endRandom => true
  | _ => false

def Atom.normalTexts (a : Atom) : List Text :=
  (if a.kind.isKeyword then Text.lower a.head.text else a.head.text) :: a.tail.map Word.text

namespace Layout

open Atom (Spells)

section Spelling

variable {o : Options} {place : Place}

theorem phrase_alone {k : Keyword} {build : Word → Atom} (hk : k.alone? = some build) (w : Word) :
    phrase o place (build w) = k.spelling := by
  cases k <;> simp only [Keyword.alone?, Option.some.injEq, reduceCtorEq] at hk <;> subst hk <;> rfl

theorem phrase_unary {k : Keyword} {build : Word → Word → Atom} {missing : Flaw.Kind}
    (hk : k.unary? = some (build, missing)) (w arg : Word) :
    phrase o place (build w arg) = k.spelling ++ Word.spread [(" ", arg.text)] := by
  cases k <;> simp only [Keyword.unary?, Option.some.injEq, Prod.mk.injEq, reduceCtorEq] at hk <;>
    obtain ⟨rfl, rfl⟩ := hk <;> simp [phrase, Text.join, Word.spread, Keyword.spelling]

theorem phrase_const (w name value : Word) :
    phrase o place (.const w name (some value))
      = Keyword.const.spelling ++ Word.spread [(" ", name.text), (" ", value.text)] := by
  simp [phrase, Text.join, Word.spread, Keyword.spelling]

theorem isBlank_spaces (n : Int) : (spaces n).isBlank = true := by
  simp only [spaces, Text.ofChars, Text.isBlank, List.all_replicate]
  split
  · rfl
  · decide

theorem phrase_command (name : Word) (args : List Word) :
    ∃ ps, phrase o place (.command name args) = name.text ++ Word.spread ps ∧
      ps.map Prod.snd = args.map Word.text ∧ ∀ p ∈ ps, p.1.isBlank = true ∧ p.1 ≠ [] := by
  have hspace : Text.isBlank " " = true := by decide
  have hne : Text.ofString " " ≠ [] := by decide
  have hpad : ∀ n : Int, Text.isBlank (spaces n ++ (" " : Text)) = true := by
    intro n
    rw [Text.isBlank_append, isBlank_spaces, hspace]
    rfl
  have hplain : ∀ words : List Word, (words.map fun w => (" " : Text) ++ w.text).flatten
      = Word.spread (words.map fun w => ((" " : Text), w.text)) := by
    intro words
    simp [Word.spread, List.flatMap_def, Function.comp_def]
  by_cases ha : o.alignArgs = true
  · cases args with
    | nil => exact ⟨[], by simp [phrase, Job.arguments, Word.spread], rfl, by simp⟩
    | cons first rest =>
      cases rest with
      | nil =>
        refine ⟨[(spaces (place.width.command - name.text.length) ++ (" " : Text), first.text)], ?_, rfl, ?_⟩
        · simp [phrase, Job.arguments, ha, Word.spread]
        · simp [hpad, hne]
      | cons second rest =>
        refine ⟨(spaces (place.width.command - name.text.length) ++ (" " : Text), first.text)
          :: (spaces (place.width.arg - first.text.length) ++ (" " : Text), second.text)
          :: rest.map fun w => ((" " : Text), w.text), ?_, ?_, ?_⟩
        · simp [phrase, Job.arguments, ha, hplain, Word.spread]
        · simp [Function.comp_def]
        · simp [hpad, hspace, hne]
  · refine ⟨args.map fun w => ((" " : Text), w.text), ?_, by simp [Function.comp_def], ?_⟩
    · cases args with
      | nil => simp [phrase, Job.arguments, Word.spread]
      | cons first rest => simp [phrase, Job.arguments, ha, hplain, Word.spread]
    · simp [hspace, hne]

end Spelling

end Layout

namespace Layout

/-- Lines end as in files of one of the two usual sorts. -/
def Options.Usual (o : Options) : Prop := o.lineEnding = "\r\n" ∨ o.lineEnding = "\n"

theorem Options.Usual.blank {o : Options} (h : o.Usual) :
    o.lineEnding.isBlank = true ∧ o.lineEnding ≠ [] := by
  rcases h with h | h <;> rw [h] <;> exact ⟨by decide, by decide⟩

theorem isBlank_indentation (o : Options) (indent : Nat) : (o.indentation indent).isBlank = true := by
  unfold Options.indentation
  split
  · exact isBlank_spaces _
  · simp only [Text.ofChars, Text.isBlank, List.all_replicate]
    split
    · rfl
    · decide

section Comments

open Text Word Job

theorem mem_texts_commentLine {line x : Text} (hx : x ∈ texts (commentLine line)) :
    x = ofString "*" ∨ x ∈ texts line := by
  have hspace : isBlank (ofString " ") = true := by decide
  simp only [commentLine] at hx
  split at hx
  · rw [texts_blank_append hspace, texts_trim] at hx
    exact .inr hx
  · have hstar : texts (ofString " * ") = [ofString "*"] := by decide
    have hend : EndsBlank (ofString " * ") := by
      intro g hg
      obtain rfl : Glyph.char ' ' = g := by simpa [ofString] using hg
      decide
    rw [texts_append (.inl hend), hstar, texts_trimRight] at hx
    simpa using hx

variable {o : Options} (ho : o.Usual) (indent : Nat)

include ho

theorem texts_newline_append (t : Text) : texts (o.lineEnding ++ (o.indentation indent ++ t)) = texts t := by
  rw [texts_blank_append ho.blank.1, texts_blank_append (isBlank_indentation o indent)]

theorem startsBlank_newline_append (t : Text) : StartsBlank (o.lineEnding ++ t) :=
  startsBlank_append (startsBlank_of_isBlank ho.blank.1) (.inl ho.blank.2)

theorem startsBlank_lines (lines : List Text) :
    StartsBlank (lines.flatMap fun line => o.lineEnding ++ (o.indentation indent ++ commentLine line)) := by
  cases lines with
  | nil => exact startsBlank_nil
  | cons line lines =>
    rw [List.flatMap_cons, List.append_assoc]
    exact startsBlank_newline_append ho _

theorem mem_texts_lines {lines : List Text} {x : Text}
    (hx : x ∈ texts (lines.flatMap fun line => o.lineEnding ++ (o.indentation indent ++ commentLine line))) :
    x = ofString "*" ∨ ∃ line ∈ lines, x ∈ texts line := by
  induction lines with
  | nil => simp [texts, Word.scan, scanFrom, ofRun] at hx
  | cons line lines ih =>
    rw [List.flatMap_cons, texts_append (.inr (startsBlank_lines ho indent lines)),
      texts_newline_append ho, List.mem_append] at hx
    rcases hx with hx | hx
    · exact (mem_texts_commentLine hx).imp_right fun h => ⟨line, by simp, h⟩
    · refine (ih hx).imp_right fun hl => ?_
      obtain ⟨l, hl, h⟩ := hl
      exact ⟨l, by simp [hl], h⟩

theorem isBlank_commentEnd (rest : List Text) :
    isBlank ((if rest.isEmpty then [] else o.lineEnding ++ o.indentation indent) ++ (" " : Text)) = true := by
  have hspace : isBlank (ofString " ") = true := by decide
  rw [isBlank_append, hspace]
  split
  · rfl
  · rw [isBlank_append, ho.blank.1, isBlank_indentation]
    rfl

theorem mem_texts_commentInner {first : Text} {rest : List Text} {x : Text}
    (hx : x ∈ texts (commentInner o indent first rest)) :
    x = ofString "*" ∨ x ∈ texts first ∨ ∃ line ∈ rest, x ∈ texts line := by
  have hspace : isBlank (ofString " ") = true := by decide
  rw [commentInner, texts_append_blank (isBlank_commentEnd ho indent rest),
    texts_append (.inr (startsBlank_lines ho indent rest)), List.mem_append] at hx
  rcases hx with hx | hx
  · split at hx
    · simp [texts, Word.scan, scanFrom, ofRun] at hx
    · rw [texts_blank_append hspace] at hx
      exact .inr (.inl hx)
  · exact (mem_texts_lines ho indent hx).imp_right .inr

theorem startsBlank_commentInner (first : Text) (rest : List Text) :
    StartsBlank (commentInner o indent first rest) := by
  have hspace : StartsBlank (ofString " ") := startsBlank_of_isBlank (by decide)
  have hne : ofString " " ≠ [] := by decide
  rw [commentInner, List.append_assoc]
  split
  · rw [List.nil_append]
    exact startsBlank_append (startsBlank_lines ho indent rest)
      (.inr (startsBlank_of_isBlank (isBlank_commentEnd ho indent rest)))
  · exact startsBlank_append (startsBlank_append hspace (.inl hne)) (.inl (by simp [hne]))

theorem endsBlank_commentInner (first : Text) (rest : List Text) :
    EndsBlank (commentInner o indent first rest) := by
  have hne : ofString " " ≠ [] := by decide
  rw [commentInner]
  exact endsBlank_append (endsBlank_of_isBlank (isBlank_commentEnd ho indent rest)) (.inl (by simp [hne]))

end Comments

end Layout

theorem Lead.lower_of_keyword {t : Text} {k : Keyword} (h : Lead.of t = .keyword k) :
    Text.lower t = k.spelling := by
  have hf := Lead.of_fits t
  rw [h] at hf
  exact Keyword.ofText?_eq_some.1 hf

theorem Text.eq_of_lower_eq_singleton {t : Text} {c : Char} (hc : c < 'a' ∨ 'z' < c)
    (h : Text.lower t = [.char c]) : t = [.char c] := by
  obtain ⟨g, rfl, hg⟩ := List.map_eq_singleton_iff.1 h
  rw [Glyph.eq_of_lower_eq hc hg]

namespace Layout

open Item (sound Reading isArgument)
open Atom (Spells)

/-- An atom that stands for another one after it was written: layout makes no difference between them, the
words are the same, and a comment holds what was written between its marks. -/
structure Rewritten (o : Options) (place : Place) (a b : Atom) : Prop where
  bare : b.bare = a.bare
  texts : a.kind ≠ .comment → b.words.map Word.text = a.normalTexts
  content : ∀ {opener content closer stop}, a = .comment opener content closer stop →
    ∃ opener' closer' stop', b = .comment opener'
      (commentInner o place.indent (Text.trim ((Text.feedLines content).headD []))
        (Job.dropBlankEnd (Text.feedLines content).tail)) (some closer') stop'

theorem Rewritten.kind {o : Options} {place : Place} {a b : Atom} (h : Rewritten o place a b) : b.kind = a.kind :=
  kind_eq_of_bare h.bare

section Spelling

variable {o : Options} {place : Place}

theorem spells_of_spread {w : Text} {ps : List (Text × Text)} (hw : w.Inked)
    (hb : ∀ p ∈ ps, p.1.isBlank = true ∧ p.1 ≠ []) (hp : ∀ p ∈ ps, p.2.Inked)
    {good : Atom → Prop}
    (hr : ∀ (t : Text) (v : Word) (vs : List Word), v.text = w → vs.map Word.text = ps.map Prod.snd →
      ∃ b, Reading t v vs (sound b) vs.length ∧ good b) :
    ∃ b, Spells (w ++ Word.spread ps) b ∧ good b := by
  obtain ⟨v, vs, hscan, hv, hvs⟩ := List.map_eq_cons_iff.1 (Word.texts_spread hw hb hp)
  obtain ⟨b, hread, hgood⟩ := hr (w ++ Word.spread ps) v vs hv hvs
  exact ⟨b, .of_reading hscan hread (Text.not_startsBlank_inked hw _) (Word.not_endsBlank_spread hw hp),
    hgood⟩

theorem isBlank_space : (Text.ofString " ").isBlank = true ∧ Text.ofString " " ≠ [] :=
  ⟨by decide, by decide⟩

theorem normal_head {w : Word} {k : Keyword} {build : Word → Atom} (hw : Lead.of w.text = .keyword k)
    (hk : k.alone? = some build) : (build w).normalTexts = [k.spelling] := by
  have hlower := Lead.lower_of_keyword hw
  have hbrace : ∀ c : Char, 'z' < c → k.spelling = [.char c] → w.text = k.spelling := by
    intro c hc hs
    rw [hs] at hlower ⊢
    exact Text.eq_of_lower_eq_singleton (.inr hc) hlower
  cases k with
  | openBrace =>
    obtain rfl := Option.some.inj hk
    exact congrArg (fun t => [t]) (hbrace '\x7b' (by decide) rfl)
  | closeBrace =>
    obtain rfl := Option.some.inj hk
    exact congrArg (fun t => [t]) (hbrace '\x7d' (by decide) rfl)
  | elseWord =>
    obtain rfl := Option.some.inj hk
    exact congrArg (fun t => [t]) hlower
  | endIfWord =>
    obtain rfl := Option.some.inj hk
    exact congrArg (fun t => [t]) hlower
  | startRandom =>
    obtain rfl := Option.some.inj hk
    exact congrArg (fun t => [t]) hlower
  | endRandom =>
    obtain rfl := Option.some.inj hk
    exact congrArg (fun t => [t]) hlower
  | _ => simp [Keyword.alone?] at hk

theorem exists_spells_mark {w : Word} (hw : Lead.of w.text = .mark) (hi : w.text.Inked) :
    ∃ b, Spells (phrase o place (.sectionMark w)) b ∧ Rewritten o place (.sectionMark w) b := by
  have hphrase : phrase o place (.sectionMark w) = w.text ++ Word.spread [] := by simp [phrase, Word.spread]
  rw [hphrase]
  refine spells_of_spread hi (by simp) (by simp) fun t v vs hv hvs => ?_
  obtain rfl : vs = [] := by simpa using hvs
  refine ⟨.sectionMark v, .mark (hv ▸ hw), ?_, fun _ => ?_, by simp⟩
  · simp [Atom.bare, Word.bare, hv]
  · simp [Atom.words, Atom.head, Atom.tail, Atom.normalTexts, Atom.kind, Atom.Kind.isKeyword, hv]

theorem exists_spells_alone {w : Word} {k : Keyword} {build : Word → Atom}
    (hw : Lead.of w.text = .keyword k) (hk : k.alone? = some build) :
    ∃ b, Spells (phrase o place (build w)) b ∧ Rewritten o place (build w) b := by
  have hphrase : phrase o place (build w) = k.spelling ++ Word.spread [] := by
    simp [phrase_alone hk, Word.spread]
  rw [hphrase]
  refine spells_of_spread k.inked_spelling (by simp) (by simp) fun t v vs hv hvs => ?_
  obtain rfl : vs = [] := by simpa using hvs
  refine ⟨build v, .alone (hv ▸ Lead.of_spelling k) hk, ?_, fun _ => ?_, fun h => ?_⟩
  · cases k <;> simp only [Keyword.alone?, Option.some.injEq, reduceCtorEq] at hk <;> subst hk <;> rfl
  · rw [normal_head hw hk, (Keyword.words_of_alone? hk v).2, List.map_singleton, hv]
  · exact absurd (congrArg Atom.kind h) (Keyword.words_of_alone? hk w).1

theorem exists_spells_unary {w arg : Word} {k : Keyword} {build : Word → Word → Atom}
    {missing : Flaw.Kind} (hw : Lead.of w.text = .keyword k) (hk : k.unary? = some (build, missing))
    (ha : isArgument arg.text = true) (hi : arg.text.Inked) :
    ∃ b, Spells (phrase o place (build w arg)) b ∧ Rewritten o place (build w arg) b := by
  have hlower := Lead.lower_of_keyword hw
  rw [phrase_unary hk]
  refine spells_of_spread k.inked_spelling (by simpa using isBlank_space) (by simpa using hi)
    fun t v vs hv hvs => ?_
  obtain ⟨u, rfl, hu⟩ : ∃ u, vs = [u] ∧ u.text = arg.text := by simpa [List.map_eq_singleton_iff] using hvs
  refine ⟨build v u, .unary (hv ▸ Lead.of_spelling k) hk (hu ▸ ha), ?_, fun _ => ?_, fun h => ?_⟩
  · cases k <;> simp only [Keyword.unary?, Option.some.injEq, Prod.mk.injEq, reduceCtorEq] at hk <;>
      obtain ⟨rfl, rfl⟩ := hk <;> simp [Atom.bare, Word.bare, hu]
  · cases k <;> simp only [Keyword.unary?, Option.some.injEq, Prod.mk.injEq, reduceCtorEq] at hk <;>
      obtain ⟨rfl, rfl⟩ := hk <;>
      simp [Atom.words, Atom.head, Atom.tail, Atom.normalTexts, Atom.kind, Atom.Kind.isKeyword, hv, hu, hlower]
  · exact absurd (congrArg Atom.kind h) (Keyword.words_of_unary? hk w arg).1

theorem exists_spells_const {w name value : Word} (hw : Lead.of w.text = .keyword .const)
    (hn : isArgument name.text = true) (hni : name.text.Inked) (hv : isArgument value.text = true)
    (hvi : value.text.Inked) :
    ∃ b, Spells (phrase o place (.const w name (some value))) b ∧
      Rewritten o place (.const w name (some value)) b := by
  have hlower := Lead.lower_of_keyword hw
  rw [phrase_const]
  refine spells_of_spread Keyword.const.inked_spelling (by simpa using isBlank_space) (by simp [hni, hvi])
    fun t u us hu hus => ?_
  obtain ⟨m, us, rfl, hm, hus⟩ := List.map_eq_cons_iff.1 hus
  obtain ⟨x, rfl, hx⟩ := List.map_eq_singleton_iff.1 hus
  refine ⟨.const u m (some x), .const (hu ▸ Lead.of_spelling .const) (hm ▸ hn) (hx ▸ hv), ?_, fun _ => ?_,
    by simp⟩
  · simp [Atom.bare, Word.bare, hm, hx]
  · simp [Atom.words, Atom.head, Atom.tail, Atom.normalTexts, Atom.kind, Atom.Kind.isKeyword, hu, hm, hx,
      hlower]

theorem exists_spells_command {w : Word} {entry : Entry} {args : List Word} (hw : Lead.of w.text = .name entry)
    (hi : w.text.Inked) (hl : args.length = entry.arity) (ha : ∀ arg ∈ args, isArgument arg.text = true)
    (hai : ∀ arg ∈ args, arg.text.Inked) :
    ∃ b, Spells (phrase o place (.command w args)) b ∧ Rewritten o place (.command w args) b := by
  obtain ⟨ps, hphrase, hps, hblank⟩ := @phrase_command o place w args
  have hmem : ∀ {x : Text}, x ∈ ps.map Prod.snd → ∃ arg ∈ args, arg.text = x := by
    intro x hx
    rw [hps] at hx
    exact List.mem_map.1 hx
  have hpi : ∀ p ∈ ps, p.2.Inked := by
    intro p hp
    obtain ⟨arg, harg, ht⟩ := hmem (List.mem_map_of_mem hp)
    exact ht ▸ hai arg harg
  rw [hphrase]
  refine spells_of_spread hi hblank hpi fun t v vs hv hvs => ?_
  have hread : Reading t v (vs ++ []) (sound (.command v vs)) vs.length := by
    refine .command (hv ▸ hw) ?_ fun u hu => ?_
    · have hlen := congrArg List.length (hvs.trans hps)
      rw [List.length_map, List.length_map] at hlen
      exact hlen.trans hl
    · obtain ⟨arg, harg, ht⟩ := hmem (hvs ▸ List.mem_map_of_mem hu)
      exact ht ▸ ha arg harg
  rw [List.append_nil] at hread
  refine ⟨.command v vs, hread, ?_, fun _ => ?_, by simp⟩
  · have hbare : vs.map Word.bare = args.map Word.bare := by
      have hfun : ∀ ws : List Word, ws.map Word.bare = (ws.map Word.text).map fun t => ⟨t, 0, 0⟩ := by
        intro ws
        simp [Word.bare, Function.comp_def]
      rw [hfun, hfun, hvs, hps]
    simp [Atom.bare, Word.bare, hv, hbare]
  · simp [Atom.words, Atom.head, Atom.tail, Atom.normalTexts, Atom.kind, Atom.Kind.isKeyword, hv, hvs, hps]

theorem mem_of_mem_dropBlankEnd {lines : List Text} {line : Text} (h : line ∈ Job.dropBlankEnd lines) :
    line ∈ lines :=
  List.mem_reverse.1 ((List.dropWhile_sublist _).subset (List.mem_reverse.1 h))

/-- The words of a comment are still words of it when it is written, and only stars are new. -/
theorem mem_texts_written (ho : o.Usual) {content x : Text}
    (hx : x ∈ Word.texts (commentInner o place.indent (Text.trim ((Text.feedLines content).headD []))
      (Job.dropBlankEnd (Text.feedLines content).tail))) :
    x = Text.ofString "*" ∨ x ∈ Word.texts content := by
  rcases mem_texts_commentInner ho _ hx with h | h | ⟨line, hl, h⟩
  · exact .inl h
  · rw [Word.texts_trim] at h
    cases hlines : Text.feedLines content with
    | nil => simp [hlines, Word.texts, Word.scan, Word.scanFrom, Word.ofRun] at h
    | cons line lines =>
      rw [hlines] at h
      exact .inr (Word.mem_texts_of_line (by simp [hlines]) h)
  · exact .inr (Word.mem_texts_of_line (List.mem_of_mem_tail (mem_of_mem_dropBlankEnd hl)) h)

theorem exists_spells_comment (ho : o.Usual) {opener closer : Word} {content : Text} {stop : Nat}
    (hw : ∀ v ∈ Word.scan 0 content, v.text ≠ Item.closeMark) :
    ∃ b, Spells (phrase o place (.comment opener content (some closer) stop)) b ∧
      Rewritten o place (.comment opener content (some closer) stop) b := by
  rw [phrase]
  generalize hinner : commentInner o place.indent _ _ = inner
  have hopen : Item.openMark.Inked := ⟨by decide, by decide⟩
  have hclose : Item.closeMark.Inked := ⟨by decide, by decide⟩
  have hstarts : StartsBlank inner := hinner ▸ startsBlank_commentInner ho _ _ _
  have hends : EndsBlank inner := hinner ▸ endsBlank_commentInner ho _ _ _
  have hne : inner ≠ [] := by
    rw [← hinner, commentInner]
    simp [isBlank_space.2]
  have hmarks : ∀ v ∈ Word.scan 0 inner, v.text ≠ Item.closeMark := by
    intro v hv hc
    have hx : Item.closeMark ∈ Word.texts inner := hc ▸ List.mem_map_of_mem hv
    rw [← hinner] at hx
    rcases mem_texts_written ho hx with h | h
    · exact absurd h (by decide)
    · obtain ⟨u, hu, ht⟩ := List.mem_map.1 h
      exact hw u hu ht
  have hscan : Word.scan 0 (Item.openMark ++ (inner ++ Item.closeMark))
      = ⟨Item.openMark, 0, 0⟩ :: ((Word.scan 0 inner).map (fun v => v.shift 2)
        ++ ⟨Item.closeMark, 0, inner.length + 2⟩ :: []) := by
    rw [Word.scan_append 0 _ _ (.inr (Text.startsBlank_append hstarts (.inl hne))), Word.scan_inked 0 hopen,
      Word.scan_append 0 _ _ (.inl hends), Word.scan_inked 0 hclose]
    have hlen : Item.openMark.length = 2 := rfl
    simp [Word.shift, hlen]
  have hread := @Reading.closed (Item.openMark ++ (inner ++ Item.closeMark)) ⟨Item.openMark, 0, 0⟩
    ((Word.scan 0 inner).map fun v => v.shift 2) ⟨Item.closeMark, 0, inner.length + 2⟩ []
    (Lead.of_spelling .openComment) (by simpa using hmarks) rfl
  have hslice : Text.slice (Item.openMark ++ (inner ++ Item.closeMark)) (0 + Item.openMark.length)
      (inner.length + Item.openMark.length) = inner := by
    rw [Text.slice_shift, Text.slice, List.take_left, List.drop_zero]
  have hused : ∀ (ws : List Word) (c : Word), ws.length + 1 = (ws ++ [c]).length := by simp
  rw [hused _ ⟨Item.closeMark, 0, inner.length + 2⟩] at hread
  refine ⟨_, .of_reading hscan hread (Text.not_startsBlank_inked hopen _) ?_, rfl, fun h => absurd rfl h,
    fun h => ?_⟩
  · rw [← List.append_assoc]
    exact Text.not_endsBlank_inked hclose _
  · obtain ⟨-, rfl, -, -⟩ := Atom.comment.inj h
    rw [hinner]
    exact ⟨_, _, _, congrArg (fun t => Atom.comment _ t _ _) hslice⟩

theorem exists_spells (ho : o.Usual) {a : Atom} (h : a.Legible) :
    ∃ b, Spells (phrase o place a) b ∧ Rewritten o place a b := by
  cases h with
  | mark hw hi => exact exists_spells_mark hw hi
  | alone hw hk => exact exists_spells_alone hw hk
  | unary hw hk ha hi => exact exists_spells_unary hw hk ha hi
  | const hw hn hni hv hvi => exact exists_spells_const hw hn hni hv hvi
  | command hw hi hl ha hai => exact exists_spells_command hw hi hl ha hai
  | comment hw => exact exists_spells_comment ho hw

end Spelling
end Layout
end MapScript
