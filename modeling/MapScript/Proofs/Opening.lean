import MapScript.Proofs.Headers
import MapScript.Proofs.Marks
import MapScript.Proofs.Separation

/-! The comments that a script opens with open its layout too, and ask for the same version. -/

namespace MapScript

theorem Text.trimRight_prefix_append (s t : Text) : trimRight s <+: trimRight (s ++ t) := by
  cases h : t.isBlank with
  | true => exact ⟨[], by rw [List.append_nil, trimRight_append_blank h]⟩
  | false =>
    obtain ⟨b, -, hs⟩ := trimRight_blank s
    rw [trimRight_append h]
    conv_rhs => rw [hs]
    simp

namespace Layout

open Node (group allAtoms)

/-- What was written is still there, up to the blanks at its end. -/
def Onward (out out' : Output) : Prop := Text.trimRight out.text <+: Text.trimRight out'.text

namespace Onward

theorem refl (out : Output) : Onward out out := List.prefix_refl _

theorem trans {a b c : Output} (h : Onward a b) (h' : Onward b c) : Onward a c := List.IsPrefix.trans h h'

theorem of_spaced {out out' : Output} (h : Spaced out out') : Onward out out' :=
  ⟨[], by rw [List.append_nil, h.trimmed]⟩

theorem of_append {out out' : Output} {t : Text} (h : out'.text = out.text ++ t) : Onward out out' := by
  rw [Onward, h]
  exact Text.trimRight_prefix_append out.text t

theorem statement (o : Options) (indent : Nat) (out : Output) (words : List Text) :
    Onward out (out.statement o indent words) :=
  of_append (out.text_statement o indent words)

end Onward

theorem exists_text_atom {job : Job} (ho : job.options.Usual) (place : Place) (beforeBlock : Bool) (out : Output)
    (a : Atom) :
    ∃ b x, Text.isBlank b = true ∧ (job.atom place beforeBlock out a).text
      = (job.before place.indent out a).text ++ (b ++ (phrase job.options place a ++ x)) := by
  by_cases hk : a.kind = .other
  · cases a <;> simp [Atom.kind] at hk
    next w =>
    have hlead := Output.isBlank_lead job.options place.indent (job.before place.indent out (.other w))
    simp only [Job.atom, Job.atomBody, Job.other, phrase]
    split
    · refine ⟨(" " : Text) ++ Output.lead job.options place.indent (job.before place.indent out (.other w)), [], ?_, ?_⟩
      · rw [Text.isBlank_append, isBlank_space.1, hlead]
        rfl
      · simp
    · exact ⟨_, [], hlead, by simp⟩
  · obtain ⟨b, hb, hready⟩ : ∃ b, Text.isBlank b = true ∧
        (Stroke.ready job out ⟨place, a, .written beforeBlock false⟩).text
          = (job.before place.indent out a).text ++ b := by
      simp only [Stroke.ready]
      split
      · unfold Output.separate
        split
        · exact ⟨[], rfl, by simp⟩
        · exact ⟨_, ho.blank.1, Output.text_newline _ _⟩
      · exact ⟨[], rfl, by simp⟩
    have hlead := Output.isBlank_lead job.options place.indent
      (Stroke.ready job out ⟨place, a, .written beforeBlock false⟩)
    have htext := @Stroke.text_write job out ⟨place, a, .written beforeBlock false⟩ hk
    rw [Stroke.front, hready, List.append_assoc, List.append_assoc, ← List.append_assoc b] at htext
    exact ⟨_, _, by rw [Text.isBlank_append, hb, hlead]; rfl, htext⟩

theorem Onward.atom {job : Job} (ho : job.options.Usual) (place : Place) (beforeBlock : Bool) (out : Output)
    (a : Atom) : Onward out (job.atom place beforeBlock out a) := by
  obtain ⟨b, x, -, h⟩ := exists_text_atom ho place beforeBlock out a
  exact (of_spaced (before_spaced ho place.indent out a)).trans (of_append h)

theorem Onward.chances {job : Job} {ps : List (Atom × List Node)}
    (hp : ∀ p ∈ ps, ∀ place out, Onward out (job.nodes place out p.2)) (place : Place) (short : Bool) (length : Nat)
    (out : Output) : Onward out (job.chances place short length out (ps.map fun p => .chance p.1 p.2)) := by
  induction ps generalizing out with
  | nil => exact .refl out
  | cons p ps ih =>
    rw [List.map_cons, Job.chances]
    refine Onward.trans ?_ (ih (fun q hq => hp q (by simp [hq])) _)
    split
    · split
      · exact .of_append (by simp; rfl)
      · exact Onward.trans (.of_append (by simp; rfl)) (hp p (by simp) _ _)
    · exact (Onward.statement _ _ _ _).trans (hp p (by simp) _ _)

theorem Onward.of_first {job : Job} (ho : job.options.Usual) {place : Place} {beforeBlock : Bool} {out final : Output}
    {a : Atom} (h : Onward (job.atom place beforeBlock out a) final) (atoms : List Atom) :
    Onward out final ∧ ∀ b ∈ (a :: atoms).head?, ∃ place beforeBlock,
      Onward (job.atom place beforeBlock out b) final := by
  refine ⟨(Onward.atom ho place beforeBlock out a).trans h, fun b hb => ⟨place, beforeBlock, ?_⟩⟩
  obtain rfl : a = b := by simpa using hb
  exact h

theorem onward_nodes {job : Job} (ho : job.options.Usual) {ns : List Node} (hg : Grown ns) (place : Place)
    (out : Output) :
    Onward out (job.nodes place out ns) ∧ ∀ a ∈ (allAtoms ns).head?, ∃ inner beforeBlock,
      Onward (job.atom inner beforeBlock out a) (job.nodes place out ns) := by
  induction hg generalizing place out with
  | nil => exact ⟨.refl out, by simp [allAtoms]⟩
  | single _ ih => exact Onward.of_first ho (ih _ _).1 _
  | @block opener body _ rest _ _ _ _ ihb ih =>
    have hbody := (ihb (job.blockPlace place body) (job.atom place false out opener)).1
    have hnode := (hbody.trans (.of_spaced (endStray_spaced ho _))).trans
      (.statement job.options place.indent _ ["\x7d"])
    exact Onward.of_first ho (hnode.trans (ih place _).1) _
  | @condition opener body closer rest _ _ _ _ ihb ih =>
    have hbody := (ihb (job.conditionPlace place) (job.atom place false out opener)).1
    have hnode : Onward (job.atom place false out opener)
        (job.node place rest.head? out (.condition opener body closer)) := by
      cases closer with
      | none => exact hbody
      | some c =>
        rw [Job.node, closeCondition_eq]
        split
        · exact (hbody.trans (.atom ho _ _ _ _)).trans (.of_spaced (.newline ho _))
        · exact hbody.trans (.atom ho _ _ _ _)
    exact Onward.of_first ho (hnode.trans (ih place _).1) _
  | @random opener leading closer rest chances _ _ _ _ _ _ ihl ihp ih =>
    have hleading := (ihl (Job.randomPlace place) (job.atom place false out opener)).1
    have hnode : Onward (job.atom place false out opener)
        (job.node place rest.head? out (.random opener leading (chances.map fun p => .chance p.1 p.2) closer)) :=
      (hleading.trans (.chances (fun p hp place out => (ihp p hp place out).1) _ _ _ _)).trans (.statement _ _ _ _)
    exact Onward.of_first ho (hnode.trans (ih place _).1) _

namespace Trail

section Words

variable (t : Trail)

theorem words_prefix_all : t.words <+: t.all := List.prefix_append _ _

theorem words_prefix_say (words : List Text) : t.words <+: (t.say words).words :=
  t.words_prefix_all.trans (List.prefix_append _ _)

theorem words_prefix_join (w : Text) (words : List Text) : t.words <+: (t.join w words).words :=
  List.prefix_append _ _

theorem words_prefix_tell (a : Atom) : t.words <+: (t.tell a).words := by
  unfold tell
  split
  · exact t.words_prefix_all
  · exact t.words_prefix_say _

theorem all_prefix_tell (a : Atom) : t.all <+: (t.tell a).all := by
  rw [all_tell]
  exact List.prefix_append _ _

end Words

theorem words_prefix_chances {ps : List (Atom × List Node)}
    (hp : ∀ p ∈ ps, ∀ t : Trail, t.words <+: (t.nodes p.2).words) (t : Trail) :
    t.words <+: (t.chances (ps.map fun p => .chance p.1 p.2)).words := by
  induction ps generalizing t with
  | nil => exact List.prefix_refl _
  | cons p ps ih =>
    rw [List.map_cons, chances]
    refine List.IsPrefix.trans ?_ (ih (fun q hq => hp q (by simp [hq])) _)
    exact (t.words_prefix_join _ _).trans (hp p (by simp) _)

theorem words_prefix_nodes {ns : List Node} (hg : Grown ns) (t : Trail) : t.words <+: (t.nodes ns).words := by
  induction hg generalizing t with
  | nil => exact List.prefix_refl _
  | single _ ih => exact (words_prefix_tell t _).trans (ih _)
  | block _ _ _ _ ihb ih =>
    refine List.IsPrefix.trans ?_ (ih _)
    exact ((words_prefix_tell t _).trans (ihb _)).trans (words_prefix_say _ _)
  | @condition opener body closer rest _ _ _ _ ihb ih =>
    refine List.IsPrefix.trans ?_ (ih _)
    have hbody := (words_prefix_tell t opener).trans (ihb _)
    cases closer with
    | none => exact hbody
    | some c => exact hbody.trans (words_prefix_tell _ c)
  | random _ _ _ _ _ _ ihl ihp ih =>
    refine List.IsPrefix.trans ?_ (ih _)
    exact (((words_prefix_tell t _).trans (ihl _)).trans (words_prefix_chances ihp _)).trans (words_prefix_join _ _ _)

/-- Before a tree nothing is joined, so all words stay as they are; and those of its first atom come next. -/
theorem all_prefix_nodes {ns : List Node} (hg : Grown ns) (t : Trail) :
    t.all <+: (t.nodes ns).all ∧ ∀ a ∈ (allAtoms ns).head?, (t.tell a).all <+: (t.nodes ns).all := by
  -- As for the text: what comes after the first atom comes after all before it.
  have hfirst : ∀ {t final : Trail} {a : Atom} (atoms : List Atom), (t.tell a).all <+: final.all →
      t.all <+: final.all ∧ ∀ b ∈ (a :: atoms).head?, (t.tell b).all <+: final.all := by
    intro t final a atoms h
    refine ⟨(t.all_prefix_tell a).trans h, fun b hb => ?_⟩
    obtain rfl : a = b := by simpa using hb
    exact h
  induction hg generalizing t with
  | nil => exact ⟨List.prefix_refl _, by simp [allAtoms]⟩
  | single _ ih => exact hfirst _ (ih _).1
  | block _ _ _ _ ihb ih =>
    refine hfirst _ (List.IsPrefix.trans ?_ (ih _).1)
    rw [node, all_say]
    exact (ihb _).1.trans (List.prefix_append _ _)
  | @condition opener body closer rest _ _ _ _ ihb ih =>
    refine hfirst _ (List.IsPrefix.trans ?_ (ih _).1)
    cases closer with
    | none => exact (ihb _).1
    | some c => exact (ihb _).1.trans (all_prefix_tell _ c)
  | @random opener leading closer rest chances ho hl _ hp _ hr _ _ ih =>
    refine hfirst _ (List.IsPrefix.trans ?_ (ih _).1)
    have hopener : (t.tell opener).all = (t.tell opener).words := by simp [tell, ho, all]
    have hchances := words_prefix_chances (fun p hm => words_prefix_nodes (hp p hm)) (nodes (t.tell opener) leading)
    rw [hopener, node]
    exact ((words_prefix_nodes hl _).trans hchances).trans ((words_prefix_join _ _ _).trans (words_prefix_all _))

end Trail

end Layout

def Lead.opensComment : Lead → Bool
  | .keyword .openComment => true
  | .inline => true
  | _ => false

namespace Item.Reading

variable {source : Text} {w : Word} {rest : List Word} {item : Item} {used : Nat}

theorem kind_eq_comment_iff (h : Reading source w rest item used) :
    item.atom.kind = .comment ↔ (Lead.of w.text).opensComment = true := by
  cases h with
  | mark hw | command hw | short hw | unknown hw => simp [hw, Lead.opensComment, sound, flawed, Atom.kind]
  | const hw | valueless hw | nameless hw => simp [hw, Lead.opensComment, sound, flawed, Atom.kind]
  | closed hw | unclosed hw | inline hw => simp [hw, Lead.opensComment, sound, flawed, inlineComment, Atom.kind]
  | @alone _ k build hw hk =>
    have hc : k ≠ .openComment := by rintro rfl; simp [Keyword.alone?] at hk
    simp [hw, Lead.opensComment, sound, (Keyword.words_of_alone? hk w).1, hc]
  | @unary k build missing arg more hw hk ha =>
    have hc : k ≠ .openComment := by rintro rfl; simp [Keyword.unary?] at hk
    simp [hw, Lead.opensComment, sound, (Keyword.words_of_unary? hk w arg).1, hc]
  | @starved _ k build missing hw hk hr =>
    have hc : k ≠ .openComment := by rintro rfl; simp [Keyword.unary?] at hk
    simp [hw, Lead.opensComment, flawed, Atom.kind, hc]

theorem head_eq (h : Reading source w rest item used) (hk : item.atom.kind ≠ .comment) : item.atom.head = w := by
  cases h with
  | alone _ hb => exact (List.cons.inj (Keyword.words_of_alone? hb w).2).1
  | @unary _ _ _ arg _ _ hb _ => exact (List.cons.inj (Keyword.words_of_unary? hb w arg).2).1
  | closed | unclosed | inline => exact absurd rfl hk
  | _ => rfl

theorem lead_of_isKeyword (h : Reading source w rest item used) (hk : item.atom.kind.isKeyword = true) :
    ∃ k, Lead.of w.text = .keyword k := by
  cases h with
  | @alone _ k _ hw | @unary k _ _ _ _ hw => exact ⟨k, hw⟩
  | const hw | valueless hw => exact ⟨.const, hw⟩
  | _ => simp [sound, flawed, inlineComment, Atom.kind, Atom.Kind.isKeyword] at hk

end Item.Reading

/-- The words of an atom other than a comment start no comment when they have been written. -/
theorem Atom.IsRead.exists_spoken {a : Atom} (h : a.IsRead) (hk : a.kind ≠ .comment) :
    ∃ x xs, a.spoken = x :: xs ∧ (Lead.of x).opensComment = false := by
  refine ⟨_, _, spoken_eq_normalTexts hk, ?_⟩
  obtain ⟨source, w, rest, item, used, hr, -, rfl⟩ := h
  have hopens : (Lead.of w.text).opensComment = false := by
    rw [Bool.eq_false_iff, ne_eq, ← hr.kind_eq_comment_iff]
    exact hk
  rw [hr.head_eq hk]
  split
  · next hword =>
    obtain ⟨k, hlead⟩ := hr.lead_of_isKeyword hword
    rw [Lead.lower_of_keyword hlead, Lead.of_spelling, ← hlead]
    exact hopens
  · exact hopens

def Atom.asks : Atom → List Level
  | .comment _ content _ _ => Scope.asked content
  | _ => []

theorem Item.exists_content {source : Text} (hm : Marks.Apart (Word.scan 0 source)) {item : Item}
    (hi : item ∈ Item.parse 0 source) (hk : item.atom.kind = .comment) :
    ∃ content, item.atom.content? = some content ∧ ∀ v ∈ Word.scan 0 content, v.text ≠ Item.closeMark := by
  obtain ⟨before, w, rest, used, hs, -, hr⟩ := Item.exists_reading_of_mem hm hi
  cases hr with
  | @closed inner closer more hw hinner hc =>
    refine ⟨_, rfl, fun v hv he => ?_⟩
    obtain ⟨u, hu, ht⟩ := List.mem_map.1 (Word.scan_between hs ▸ List.mem_map_of_mem hv)
    exact hinner u hu (ht.trans he)
  | unclosed hw hinner =>
    refine ⟨_, rfl, fun v hv he => ?_⟩
    obtain ⟨u, hu, ht⟩ := List.mem_map.1 (Word.scan_after hs ▸ List.mem_map_of_mem hv)
    exact hinner u hu (ht.trans he)
  | inline hw => exact absurd hw (hm.lead_ne_inline (by simp [hs]))
  | alone _ hb => exact absurd hk (Keyword.words_of_alone? hb w).1
  | unary _ hb => exact absurd hk (Keyword.words_of_unary? hb w _).1
  | _ => simp [sound, flawed, Atom.kind] at hk

namespace Layout

open Item (sound)
open Node (group allAtoms)

section Comments

variable {job : Job} (ho : job.options.Usual) {out : Output} {bs : List Atom} (h : Holds out bs)

include ho h

theorem Holds.exists_front {a : Atom} (ha : a.IsRead) (place : Place) (beforeBlock : Bool) :
    ∃ front, Item.parse 0 front = bs.map sound ∧ front.EndsBlank ∧ Word.texts front = Word.texts out.text ∧
      front <+: Text.trimRight (job.atom place beforeBlock out a).text := by
  obtain ⟨b, x, hb, htext⟩ := exists_text_atom ho place beforeBlock out a
  have hspaced := before_spaced ho place.indent out a
  refine ⟨(job.before place.indent out a).text ++ b, ?_, ?_, ?_, ?_⟩
  · obtain ⟨blank, hblank, ht⟩ := Text.trimRight_blank (job.before place.indent out a).text
    rw [ht, hspaced.trimmed]
    exact Item.parse_append_blank (Item.parse_append_blank h.parse hblank) hb
  · exact Text.endsBlank_append (Text.endsBlank_of_isBlank hb) (.inr (hspaced.ends h.ends))
  · rw [Word.texts_append_blank hb, hspaced.texts_eq]
  · have hink : Text.isBlank (phrase job.options place a ++ x) = false := by
      rw [Text.isBlank_append, Bool.and_eq_false_iff]
      refine .inl (Bool.eq_false_iff.2 fun hblank => ?_)
      have hspoken := @texts_phrase job.options place ho a ha
      rw [Word.texts_of_isBlank hblank] at hspoken
      cases a <;> simp [Atom.spoken, Atom.normalTexts] at hspoken
    rw [htext, ← List.append_assoc, Text.trimRight_append hink]
    exact List.prefix_append _ _

theorem Holds.comment {a : Atom} {content : Text} (ha : a.content? = some content)
    (hw : ∀ v ∈ Word.scan 0 content, v.text ≠ Item.closeMark) (place : Place) (beforeBlock : Bool) :
    ∃ c : Atom, c.kind = .comment ∧ c.asks = a.asks ∧ Holds (job.atom place beforeBlock out a) (bs ++ [c]) := by
  cases a with
  | comment opener text closer stop =>
    obtain rfl := Option.some.inj ha
    -- The closing mark is written whether the comment has one or not.
    obtain ⟨c, -, -, hsame, hholds⟩ := h.write ho
      (s := ⟨place, .comment opener text (some opener) stop, .written beforeBlock false⟩) (.comment hw)
    have htext : (job.atom place beforeBlock out (.comment opener text closer stop)).text
        = (Stroke.write job out ⟨place, .comment opener text (some opener) stop, .written beforeBlock false⟩).text :=
      rfl
    obtain ⟨opener', closer', stop', rfl⟩ := hsame.content rfl
    refine ⟨_, rfl, ?_, ⟨htext ▸ hholds.parse, htext ▸ hholds.ends⟩⟩
    exact asked_commentInner ho place.indent text
  | _ => simp [Atom.content?] at ha

theorem Holds.comments {heads : List Atom}
    (hc : ∀ a ∈ heads, ∃ content, a.content? = some content ∧ ∀ v ∈ Word.scan 0 content, v.text ≠ Item.closeMark)
    (rest : List Atom) (place : Place) :
    ∃ cs out', job.nodes place out (group (heads ++ rest)) = job.nodes place out' (group rest) ∧
      Holds out' (bs ++ cs) ∧ (∀ c ∈ cs, c.kind = .comment) ∧ cs.flatMap Atom.asks = heads.flatMap Atom.asks := by
  induction heads generalizing out bs with
  | nil => exact ⟨[], out, rfl, by simpa using h, by simp, rfl⟩
  | cons a heads ih =>
    obtain ⟨content, ha, hw⟩ := hc a (by simp)
    have hsingle : a.kind.isSingle = true := by
      cases a <;> simp [Atom.content?] at ha
      rfl
    obtain ⟨c, hk, hasks, hnext⟩ := h.comment ho ha hw (Job.placeOf place a)
      ((group (heads ++ rest)).head?.any Node.isBlock)
    obtain ⟨cs, out', hnodes, hholds, hkinds, hall⟩ := ih hnext fun b hb => hc b (by simp [hb])
    refine ⟨c :: cs, out', ?_, by simpa using hholds, by simpa using ⟨hk, hkinds⟩, ?_⟩
    · rw [List.cons_append, Node.group_single hsingle, Job.nodes, ← hnodes]
      rfl
    · rw [List.flatMap_cons, List.flatMap_cons, hasks, hall]

end Comments

theorem Holds.exists_later {job : Job} (ho : job.options.Usual) {out : Output} {bs : List Atom} (h : Holds out bs)
    {a : Atom} {rest : List Atom} (hr : ∀ b ∈ a :: rest, b.IsRead) (hk : a.kind ≠ .comment) (place : Place) :
    ∃ later, Atom.parse 0 (job.nodes place out (group (a :: rest))).text = bs ++ later ∧
      ∀ b ∈ later.head?, b.kind ≠ .comment := by
  have hgrown := Node.grown_group (a :: rest)
  have hfirst : a ∈ (allAtoms (group (a :: rest))).head? := by simp [Node.allAtoms_group]
  obtain ⟨inner, beforeBlock, hon⟩ := (onward_nodes ho hgrown place out).2 a hfirst
  obtain ⟨front, hparse, hends, htexts, hfront⟩ := h.exists_front ho (hr a (by simp)) inner beforeBlock
  have hreads : Reads (job.nodes place out (group (a :: rest)))
      (Trail.nodes ⟨Word.texts out.text, none, []⟩ (group (a :: rest))) :=
    reads_nodes ho hgrown (by rwa [Node.allAtoms_group]) place out _ (.of_endsBlank h.ends rfl rfl)
  have hwords := (Trail.all_prefix_nodes hgrown ⟨Word.texts out.text, none, []⟩).2 a hfirst
  obtain ⟨x, xs, hspoken, hopens⟩ := (hr a (by simp)).exists_spoken hk
  rw [Trail.all_tell, hspoken, ← hreads.texts_eq, Trail.all, Option.toList_none, List.append_nil, ← htexts] at hwords
  obtain ⟨blank, -, htrim⟩ := Text.trimRight_blank (job.nodes place out (group (a :: rest))).text
  obtain ⟨back, hback⟩ : front <+: (job.nodes place out (group (a :: rest))).text :=
    (hfront.trans hon).trans ⟨blank, htrim.symm⟩
  rw [← hback] at hwords ⊢
  rw [Word.texts_append (.inl hends), List.prefix_append_right_inj] at hwords
  -- What is left starts with the first word of the atom.
  obtain ⟨more, hmore⟩ := hwords
  obtain ⟨w, ws, hscan, rfl, -⟩ := List.map_eq_cons_iff.1 hmore.symm
  have hread := Item.reading back w ws
  refine ⟨(Item.parse 0 back).map fun item => item.atom.shift front.length, ?_, fun b hb => ?_⟩
  · rw [Atom.parse, Item.parse_append 0 (.inl hends) (hparse ▸ Item.complete_getLast_sound bs), hparse]
    simp [sound, Item.shift, Function.comp_def]
  · rw [Item.parse, hscan, Item.readFrom_cons hread] at hb
    obtain rfl := Option.some.inj hb
    rw [Atom.kind_shift, ne_eq, hread.kind_eq_comment_iff, hopens]
    exact Bool.false_ne_true

/-- The layout of a script opens with comments that ask for the same versions as those that the script opens
with. -/
theorem exists_opening {o : Options} (ho : o.Usual) {source : Text} (hm : Marks.Apart (Word.scan 0 source)) :
    ∃ cs later, Atom.parse 0 (format o source) = cs ++ later ∧ (∀ c ∈ cs, c.kind = .comment) ∧
      (∀ b ∈ later.head?, b.kind ≠ .comment) ∧
      cs.flatMap Atom.asks = ((Atom.parse 0 source).takeWhile fun a => a.kind == .comment).flatMap Atom.asks := by
  have hsplit := @List.takeWhile_append_dropWhile _ (fun a : Atom => a.kind == .comment) (Atom.parse 0 source)
  have hnext := List.head?_dropWhile_not (fun a : Atom => a.kind == .comment) (Atom.parse 0 source)
  have hheads : ∀ a ∈ (Atom.parse 0 source).takeWhile fun a => a.kind == .comment, a.kind = .comment :=
    fun a ha => by simpa using List.mem_takeWhile_imp ha
  generalize (Atom.parse 0 source).takeWhile (fun a => a.kind == .comment) = heads at *
  generalize (Atom.parse 0 source).dropWhile (fun a => a.kind == .comment) = rest at *
  have hcontent : ∀ a ∈ heads, ∃ content, a.content? = some content ∧
      ∀ v ∈ Word.scan 0 content, v.text ≠ Item.closeMark := by
    intro a ha
    obtain ⟨item, hi, rfl⟩ := List.mem_map.1 (hsplit ▸ List.mem_append_left rest ha)
    exact Item.exists_content hm hi (hheads _ ha)
  obtain ⟨cs, out, hnodes, hholds, hcs, hasks⟩ :=
    @Holds.comments ⟨o, source⟩ ho {} [] ⟨rfl, Text.endsBlank_nil⟩ heads hcontent rest {}
  rw [List.nil_append] at hholds
  have hformat : format o source = (Job.nodes ⟨o, source⟩ {} out (group rest)).text := by
    rw [format, ← hsplit, hnodes]
  rw [hformat]
  cases rest with
  | nil =>
    obtain ⟨blank, hblank, ht⟩ := Text.trimRight_blank out.text
    have hparse := Item.parse_append_blank hholds.parse hblank
    refine ⟨cs, [], ?_, hcs, by simp, hasks⟩
    rw [Node.group, Job.nodes, ht, Atom.parse_eq_of_sound hparse, List.append_nil]
  | cons a rest =>
    have hread : ∀ b ∈ a :: rest, b.IsRead := fun b hb =>
      Atom.isRead_of_mem_parse (hsplit ▸ List.mem_append_right heads hb)
    obtain ⟨later, hparse, hlater⟩ :=
      @Holds.exists_later ⟨o, source⟩ ho out cs hholds a rest hread (by simpa using hnext) {}
    exact ⟨cs, later, hparse, hcs, hlater, hasks⟩

end Layout

namespace Scope

theorem levelOf_eq_asks (level : Level) (atoms : List Atom) :
    levelOf level atoms = ((atoms.takeWhile fun a => a.kind == .comment).flatMap Atom.asks).getLast?.getD level := by
  have hlines : ∀ heads : List Atom,
      ((heads.filterMap Atom.content?).flatMap Text.anyLines).filterMap headerLevel? = heads.flatMap Atom.asks := by
    intro heads
    induction heads with
    | nil => rfl
    | cons a heads ih =>
      cases a with
      | comment => simp [Atom.content?, Atom.asks, asked, ih]
      | _ => exact ih
  rw [levelOf, headerLines, hlines]

end Scope

namespace Layout

/-- Layout never changes the version that a script is for, as long as marks are words of their own: it may write
the first comments in other lines, but these ask for the same. -/
theorem format_keeps_level (level : Level) {o : Options} (ho : o.Usual) {source : Text}
    (hm : Marks.Apart (Word.scan 0 source)) :
    ((Atom.parse 0 (format o source)).foldl Scope.update (.initial level)).level
      = ((Atom.parse 0 source).foldl Scope.update (.initial level)).level := by
  obtain ⟨cs, later, hparse, hcs, hlater, hasks⟩ := exists_opening ho hm
  have hopening : (cs ++ later).takeWhile (fun a => a.kind == .comment) = cs := by
    rw [List.takeWhile_append_of_pos (by simpa using hcs)]
    cases later with
    | nil => simp
    | cons b later => simp [hlater b rfl]
  have hpast : (Scope.initial level).pastHeader = false := rfl
  rw [Scope.level_foldl, Scope.level_foldl, hpast, hparse, Scope.levelOf_eq_asks, Scope.levelOf_eq_asks, hopening,
    hasks]

def oddHeader : Text :=
  "/* a\x0b compatibility: hd\r\n\r\n b: c */ /*\u2028 * COMPATIBILITY :  UP 1.5 \x1c*\n  compatibility: WK\u0085 d"

theorem oddHeader_keeps_level :
    Options.Usual {} ∧ Marks.Apart (Word.scan 0 oddHeader) ∧
      ((Atom.parse 0 (format {} oddHeader)).foldl Scope.update (.initial .conquerors)).level
        = ((Atom.parse 0 oddHeader).foldl Scope.update (.initial .conquerors)).level ∧
      ((Atom.parse 0 oddHeader).foldl Scope.update (.initial .conquerors)).level = .wololoKingdoms := by
  have husual : Options.Usual {} := .inl rfl
  obtain ⟨hm, hlevel⟩ : Marks.Apart (Word.scan 0 oddHeader) ∧
      ((Atom.parse 0 oddHeader).foldl Scope.update (.initial .conquerors)).level = .wololoKingdoms := by
    decide +kernel
  exact ⟨husual, hm, format_keeps_level .conquerors husual hm, hlevel⟩

end Layout

end MapScript
