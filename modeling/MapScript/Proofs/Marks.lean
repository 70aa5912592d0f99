import MapScript.Proofs.Positions
import MapScript.Proofs.WordPass

/-! Where comments are. The pass over the words keeps a flag that it changes at each word, and the reader takes
a comment as a whole; where marks are words of their own the two agree at every word. -/

namespace MapScript

namespace Catalog

def isInitial : Glyph → Bool
  | .char c => c.isLower || c == '#' || c == '<'
  | .stray _ => false

theorem entries_isInitial : entries.all (fun e => e.name.head?.any isInitial) = true := by
  decide +kernel

theorem find?_eq_none {t : Text} (h : t.head?.any isInitial = false) : find? t = none := by
  refine List.find?_eq_none.2 fun e he hname => ?_
  have hinitial := List.all_eq_true.1 entries_isInitial e he
  rw [eq_of_beq hname, h] at hinitial
  exact Bool.false_ne_true hinitial

end Catalog

def Atom.closer? : Atom → Option Word
  | .comment _ _ closer _ => closer
  | _ => none

/-- A word stands in a comment that goes on after it. -/
def Atom.InComment (atoms : List Atom) (w : Word) : Prop :=
  ∃ a ∈ atoms, a.kind = .comment ∧ a.span.Covers w.span ∧ a.closer? ≠ some w

namespace Marks

open Item (openMark closeMark isArgument)

def Apart (words : List Word) : Prop :=
  ∀ w ∈ words, (w.text.startsWith openMark = true → w.text = openMark) ∧
    (w.text.endsWith closeMark = true → w.text = closeMark)

instance (words : List Word) : Decidable (Apart words) := List.decidableBAll _ words

theorem Apart.lead_ne_inline {words : List Word} (h : Apart words) {w : Word} (hw : w ∈ words) :
    Lead.of w.text ≠ .inline := by
  intro hl
  have hi := Lead.of_fits w.text
  rw [hl] at hi
  have ht : w.text = openMark := (h w hw).1 (by simp_all [Lead.Fits, Item.isInlineComment])
  simp [Lead.Fits, ht, Item.isInlineComment, openMark, Text.ofString] at hi

theorem goesOnAfter_outside {words : List Word} (h : ∀ w ∈ words, w.text.startsWith openMark = false) :
    goesOnAfter false words = false := by
  induction words with
  | nil => rfl
  | cons w words ih =>
    have hw : goesOn false w.text = false := by simp [goesOn, inside, h w (by simp)]
    rw [goesOnAfter, List.foldl_cons, hw]
    exact ih fun v hv => h v (by simp [hv])

theorem goesOnAfter_inside {words : List Word} (h : ∀ w ∈ words, w.text.endsWith closeMark = false) :
    goesOnAfter true words = true := by
  induction words with
  | nil => rfl
  | cons w words ih =>
    have hw : goesOn true w.text = true := by simp [goesOn, inside, h w (by simp)]
    rw [goesOnAfter, List.foldl_cons, hw]
    exact ih fun v hv => h v (by simp [hv])

theorem goesOnAfter_comment {opener : Word} {inner before after : List Word} (hm : Apart (opener :: inner))
    (ho : opener.text = openMark) (hi : ∀ v ∈ inner, v.text ≠ closeMark)
    (hs : opener :: inner = before ++ after) (hb : before ≠ []) : goesOnAfter false before = true := by
  cases before with
  | nil => exact absurd rfl hb
  | cons u before =>
    obtain ⟨rfl, rfl⟩ := List.cons.inj hs
    have hfirst : goesOn false opener.text = true := by rw [ho]; decide
    rw [goesOnAfter, List.foldl_cons, hfirst]
    refine goesOnAfter_inside fun v hv => ?_
    have hmem : v ∈ before ++ after := List.mem_append_left after hv
    by_contra he
    exact hi v hmem ((hm v (by simp [hmem])).2 (by simpa using he))

theorem find?_closeMark : Catalog.find? closeMark = none := Catalog.find?_eq_none (by decide)

theorem lead_eq_unknown {t : Text} (hs : Catalog.isSectionShaped t = false) (hk : Keyword.ofText? t = none)
    (hn : Catalog.find? t = none) (hi : Item.isInlineComment t = false) : Lead.of t = .unknown := by
  simp [Lead.of, hs, hk, hn, hi]

theorem lead_closeMark : Lead.of closeMark = .unknown :=
  lead_eq_unknown (by decide) (by decide) find?_closeMark (by decide)

end Marks

namespace Item

open Marks

/-- The words of an item as the pass over the words sees them, when no comment goes on before it. -/
structure InStep (item : Item) (group : List Word) : Prop where
  /-- After a word of it a comment goes on exactly if the item is a comment and the word does not close it. -/
  goesOn : ∀ {before after w}, group = before ++ w :: after →
    (goesOnAfter false (before ++ [w]) = true ↔ item.atom.kind = .comment ∧ item.atom.closer? ≠ some w)
  /-- A closing mark of it that comes outside of comments is all of it. -/
  stray : ∀ {before after w}, group = before ++ w :: after → w.text = closeMark →
    (goesOnAfter false before = false ↔ item.atom = .other w)

/-- The ways to read an item where marks stand apart: a statement without any marks, a closed comment, or one
that takes all the rest. -/
theorem Reading.sorts {source : Text} {w : Word} {rest : List Word} {item : Item} {used : Nat}
    (h : Reading source w rest item used) (hm : Apart (w :: rest)) :
    (item.atom.kind ≠ .comment ∧ w.text.startsWith openMark = false ∧
        ∀ v ∈ rest.take used, isArgument v.text = true) ∨
      (∃ inner closer more, rest = inner ++ closer :: more ∧ used = inner.length + 1 ∧ w.text = openMark ∧
        (∀ v ∈ inner, v.text ≠ closeMark) ∧ closer.text = closeMark ∧ item.atom.kind = .comment ∧
        item.atom.closer? = some closer) ∨
      (used = rest.length ∧ w.text = openMark ∧ (∀ v ∈ rest, v.text ≠ closeMark) ∧
        item.atom.kind = .comment ∧ item.atom.closer? = none) := by
  have hopen : Lead.of w.text ≠ .keyword .openComment → w.text.startsWith openMark = false := by
    intro hw
    -- Where marks stand apart, what starts with one is one, and then a comment is read.
    by_contra ho
    have ht : w.text = openMark := (hm w (by simp)).1 (by simpa using ho)
    exact hw (by rw [ht]; exact Lead.of_spelling .openComment)
  cases h with
  | mark hw => exact .inl ⟨by simp [sound, Atom.kind], hopen (by simp [hw]), by simp⟩
  | @alone _ k build hw hk =>
    have hc : k ≠ .openComment := by rintro rfl; simp [Keyword.alone?] at hk
    exact .inl ⟨(Keyword.words_of_alone? hk w).1, hopen (by simp [hw, hc]), by simp⟩
  | @unary k build missing arg more hw hk ha =>
    have hc : k ≠ .openComment := by rintro rfl; simp [Keyword.unary?] at hk
    exact .inl ⟨(Keyword.words_of_unary? hk w arg).1, hopen (by simp [hw, hc]), by simpa using ha⟩
  | @starved _ k build missing hw hk hr =>
    have hc : k ≠ .openComment := by rintro rfl; simp [Keyword.unary?] at hk
    exact .inl ⟨by simp [flawed, Atom.kind], hopen (by simp [hw, hc]), by simp⟩
  | const hw hn hv => exact .inl ⟨by simp [sound, Atom.kind], hopen (by simp [hw]), by simp [hn, hv]⟩
  | valueless hw hn hr => exact .inl ⟨by simp [flawed, Atom.kind], hopen (by simp [hw]), by simp [hn]⟩
  | nameless hw hr => exact .inl ⟨by simp [flawed, Atom.kind], hopen (by simp [hw]), by simp⟩
  | @closed inner closer more hw hi hc =>
    exact .inr (.inl ⟨inner, closer, more, rfl, rfl, Lead.text_of_openComment hw, hi, hc, rfl, rfl⟩)
  | unclosed hw hi => exact .inr (.inr ⟨rfl, Lead.text_of_openComment hw, hi, rfl, rfl⟩)
  | command hw hl ha => exact .inl ⟨by simp [sound, Atom.kind], hopen (by simp [hw]), by simpa using ha⟩
  | short hw hl ha hr => exact .inl ⟨by simp [flawed, Atom.kind], hopen (by simp [hw]), by simpa using ha⟩
  | inline hw => exact absurd hw (hm.lead_ne_inline (by simp))
  | unknown hw => exact .inl ⟨by simp [flawed, Atom.kind], hopen (by simp [hw]), by simp⟩

theorem Reading.of_closeMark {source : Text} {w : Word} {rest : List Word} {item : Item} {used : Nat}
    (h : Reading source w rest item used) (hw : w.text = closeMark) : item.atom = .other w := by
  have hread := h.read_eq
  rw [read_eq_readAs, hw, lead_closeMark, readAs, Prod.mk.injEq] at hread
  rw [← hread.1]
  rfl

theorem ne_closeMark_of_isArgument {t : Text} (h : isArgument t = true) : t ≠ closeMark := by
  rintro rfl
  have he : Text.endsWith closeMark closeMark = true := by decide
  simp [isArgument, he] at h

theorem inStep_plain {item : Item} {w : Word} {args : List Word} (hk : item.atom.kind ≠ .comment)
    (ho : w.text.startsWith openMark = false) (ha : ∀ v ∈ args, isArgument v.text = true)
    (hw : w.text = closeMark → item.atom = .other w) :
    InStep item (w :: args) ∧ goesOnAfter false (w :: args) = false := by
  have hout : ∀ v ∈ w :: args, v.text.startsWith openMark = false :=
    List.forall_mem_cons.2 ⟨ho, fun v hv => not_openMark_of_isArgument (ha v hv)⟩
  have hoff : ∀ {before after : List Word}, w :: args = before ++ after → goesOnAfter false before = false :=
    fun hg => goesOnAfter_outside fun u hu => hout u (hg ▸ List.mem_append_left _ hu)
  refine ⟨⟨fun {before after v} hg => ?_, fun {before after v} hg hv => ?_⟩, goesOnAfter_outside hout⟩
  · simp [@hoff (before ++ [v]) after (by simpa using hg), hk]
  · refine ⟨fun _ => ?_, fun _ => hoff hg⟩
    cases before with
    | nil =>
      obtain ⟨rfl, -⟩ := List.cons.inj hg
      exact hw hv
    | cons u before =>
      have hmem : v ∈ args := by
        rw [(List.cons.inj hg).2]
        simp
      exact absurd hv (ne_closeMark_of_isArgument (ha v hmem))

theorem inStep_unclosed {item : Item} {w : Word} {inner : List Word} (hm : Apart (w :: inner))
    (ho : w.text = openMark) (hi : ∀ v ∈ inner, v.text ≠ closeMark) (hk : item.atom.kind = .comment)
    (hc : item.atom.closer? = none) : InStep item (w :: inner) := by
  refine ⟨fun {before after v} hg => ?_, fun {before after v} hg hv => ?_⟩
  · have hon := @goesOnAfter_comment w inner (before ++ [v]) after hm ho hi (by simpa using hg) (by simp)
    simp [hon, hk, hc]
  · have hmem : v ∈ w :: inner := by simp [hg]
    rcases List.mem_cons.1 hmem with rfl | hmem
    · exact absurd (hv.symm.trans ho) (by decide)
    · exact absurd hv (hi v hmem)

theorem inStep_closed {item : Item} {w closer : Word} {inner : List Word} (hm : Apart (w :: inner))
    (ho : w.text = openMark) (hi : ∀ v ∈ inner, v.text ≠ closeMark) (hc : closer.text = closeMark)
    (hk : item.atom.kind = .comment) (hcloser : item.atom.closer? = some closer) :
    InStep item (w :: (inner ++ [closer])) ∧ goesOnAfter false (w :: (inner ++ [closer])) = false := by
  have hne : ∀ v ∈ w :: inner, v.text ≠ closeMark :=
    List.forall_mem_cons.2 ⟨by rw [ho]; decide, hi⟩
  have hon := @goesOnAfter_comment w inner (w :: inner) [] hm ho hi (by simp) (by simp)
  have hoff : goesOnAfter false (w :: (inner ++ [closer])) = false := by
    rw [← List.cons_append, goesOnAfter_append, hon, goesOnAfter, List.foldl_cons, hc]
    decide
  -- The words of the comment are those before its closing mark, or the mark itself.
  have hcut : ∀ {before after : List Word} {v : Word}, w :: (inner ++ [closer]) = before ++ v :: after →
      (before = w :: inner ∧ v = closer) ∨ ∃ more, w :: inner = before ++ v :: more := by
    intro before after v hg
    rcases List.eq_nil_or_concat' after with rfl | ⟨more, x, rfl⟩
    · obtain ⟨hb, hv⟩ := List.append_inj' (show (w :: inner) ++ [closer] = before ++ [v] from hg) rfl
      exact .inl ⟨hb.symm, (List.singleton_inj.1 hv).symm⟩
    · have hg' : (w :: inner) ++ [closer] = (before ++ v :: more) ++ [x] := by simpa using hg
      exact .inr ⟨more, (List.append_inj' hg' rfl).1⟩
  refine ⟨⟨fun {before after v} hg => ?_, fun {before after v} hg hv => ?_⟩, hoff⟩
  · obtain ⟨rfl, rfl⟩ | ⟨more, hs⟩ := hcut hg
    · rw [List.cons_append, hoff]
      simp [hcloser]
    · have hon := @goesOnAfter_comment w inner (before ++ [v]) more hm ho hi (by simpa using hs) (by simp)
      have hvc : closer ≠ v := by
        rintro rfl
        exact hne closer (by simp [hs]) hc
      simp [hon, hk, hcloser, hvc]
  · obtain ⟨rfl, rfl⟩ | ⟨more, hs⟩ := hcut hg
    · rw [hon]
      refine ⟨by simp, fun ha => ?_⟩
      rw [ha] at hk
      simp [Atom.kind] at hk
    · exact absurd hv (hne v (by simp [hs]))

theorem Reading.inStep {source : Text} {w : Word} {rest : List Word} {item : Item} {used : Nat}
    (h : Reading source w rest item used) (hm : Apart (w :: rest)) :
    InStep item (w :: rest.take used) ∧
      (goesOnAfter false (w :: rest.take used) = false ∨ rest.drop used = []) := by
  obtain ⟨hk, ho, ha⟩ | ⟨inner, closer, more, rfl, rfl, ho, hi, hc, hk, hcloser⟩ | ⟨rfl, ho, hi, hk, hcloser⟩ :=
    h.sorts hm
  · obtain ⟨hstep, hoff⟩ := inStep_plain hk ho ha h.of_closeMark
    exact ⟨hstep, .inl hoff⟩
  · have htake : (inner ++ closer :: more).take (inner.length + 1) = inner ++ [closer] := by
      simp [List.take_append, List.take_of_length_le]
    have hmi : Apart (w :: inner) := fun v hv => hm v (by
      cases List.mem_cons.1 hv with
      | inl he => simp [he]
      | inr hv => simp [hv])
    obtain ⟨hstep, hoff⟩ := inStep_closed hmi ho hi hc hk hcloser
    rw [htake]
    exact ⟨hstep, .inl hoff⟩
  · rw [List.take_length, List.drop_length]
    exact ⟨inStep_unclosed hm ho hi hk hcloser, .inr rfl⟩

theorem exists_reading_of_mem {source : Text} {words : List Word} (hm : Apart words) {item : Item}
    (hi : item ∈ readFrom source 0 words) :
    ∃ before w rest used, words = before ++ w :: rest ∧ goesOnAfter false before = false ∧
      Reading source w rest item used := by
  refine reading_of_mem (fun before => goesOnAfter false before = false) rfl
    (fun {before w rest item used} hs hb hr => ?_) hi
  have hsub : ∀ v ∈ w :: rest, v ∈ words := fun v hv => hs ▸ List.mem_append_right before hv
  rw [goesOnAfter_append, hb]
  exact (hr.inStep fun v hv => hm v (hsub v hv)).2

/-- Where the pass over the words and the items that are read agree about a word: on whether a comment goes on
after it, and on whether it is a closing mark outside of comments. -/
structure Agree (items : List Item) (before : List Word) (w : Word) : Prop where
  goesOn : goesOnAfter false (before ++ [w]) = true ↔ Atom.InComment (items.map Item.atom) w
  stray : w.text = closeMark → (goesOnAfter false before = false ↔ Atom.other w ∈ items.map Item.atom)

theorem agree_readFrom {file : Int} {source : Text} {words before after : List Word} {w : Word}
    (hm : Apart words) (hf : ∀ v ∈ words, v.file = file) (hink : ∀ v ∈ words, v.text.Inked)
    (ho : Word.Ordered words) (hs : words = before ++ w :: after) : Agree (readFrom source 0 words) before w := by
  -- On the number of words left: the word is one of the first item, or comes later.
  induction hn : words.length using Nat.strong_induction_on generalizing words before with
  | _ n ih =>
    cases words with
    | nil => simp at hs
    | cons u rest =>
      have hr := reading source u rest
      obtain ⟨hstep, hoff⟩ := hr.inStep hm
      obtain ⟨first, hfirst, last, hlast, hspan⟩ := (hr.over hf).located
      rw [readFrom_cons hr]
      generalize (read source u rest).1 = item at *
      generalize (read source u rest).2 = used at *
      have hcut : u :: rest = (u :: rest.take used) ++ rest.drop used := by simp
      have hgroup : ∀ v ∈ u :: rest.take used, v ∈ u :: rest :=
        fun v hv => hcut ▸ List.mem_append_left _ hv
      have hmore : ∀ v ∈ rest.drop used, v ∈ u :: rest :=
        fun v hv => hcut ▸ List.mem_append_right _ hv
      obtain ⟨inner, hg⟩ | ⟨earlier, rfl, hd⟩ := Word.split_cases (hcut.symm.trans hs)
      · have hw : w ∈ u :: rest.take used := by simp [hg]
        have hcovers : item.atom.span.Covers w.span := by
          rw [hspan]
          exact (ho.parts hcut).1.covers (fun v hv => hink v (hgroup v hv)) hfirst hlast hw (hf w (hgroup w hw))
        have hlater : ∀ a ∈ (readFrom source 0 (rest.drop used)).map Item.atom, ¬ a.span.Covers w.span := by
          intro a ha
          obtain ⟨later, hl, rfl⟩ := List.mem_map.1 ha
          obtain ⟨v, hv, _, _, he⟩ := exists_span_eq (fun v hv => hf v (hmore v hv)) hl
          exact ho.not_covers hink hcut (.inl ⟨hv, by rw [he], hw⟩)
        refine ⟨(hstep.goesOn hg).trans ⟨fun h => ?_, fun h => ?_⟩, fun hc => (hstep.stray hg hc).trans ?_⟩
        · exact ⟨item.atom, by simp, h.1, hcovers, h.2⟩
        · obtain ⟨a, ha, hk, hcov, hcl⟩ := h
          cases List.mem_cons.1 ha with
          | inl he => exact he ▸ ⟨hk, hcl⟩
          | inr ha => exact absurd hcov (hlater a ha)
        · rw [List.map_cons, List.mem_cons]
          refine ⟨fun h => .inl h.symm, fun h => h.elim Eq.symm fun ha => ?_⟩
          exact absurd ⟨rfl, Int.le_refl _, Int.le_refl _⟩ (hlater _ ha)
      · have hw : w ∈ rest.drop used := by simp [hd]
        have hfar : ¬ item.atom.span.Covers w.span :=
          ho.not_covers hink hcut (.inr ⟨List.mem_of_mem_getLast? hlast, by rw [hspan], hw⟩)
        have hout : goesOnAfter false (u :: rest.take used) = false :=
          hoff.resolve_right fun h => by simp [h] at hw
        have hrest := ih _ (by simp only [← hn, List.length_cons, List.length_drop]; omega)
          (fun v hv => hm v (hmore v hv)) (fun v hv => hf v (hmore v hv)) (fun v hv => hink v (hmore v hv))
          (ho.parts hcut).2 hd rfl
        refine ⟨?_, fun hc => ?_⟩
        · rw [List.append_assoc, goesOnAfter_append, hout, hrest.goesOn, List.map_cons]
          refine ⟨fun h => ?_, fun h => ?_⟩
          · obtain ⟨a, ha, h⟩ := h
            exact ⟨a, List.mem_cons_of_mem _ ha, h⟩
          · obtain ⟨a, ha, hk, hcov, hcl⟩ := h
            cases List.mem_cons.1 ha with
            | inl he => exact absurd (he ▸ hcov) hfar
            | inr ha => exact ⟨a, ha, hk, hcov, hcl⟩
        · rw [goesOnAfter_append, hout, hrest.stray hc, List.map_cons, List.mem_cons]
          refine ⟨.inr, fun h => h.resolve_left fun he => ?_⟩
          exact hfar (he ▸ ⟨rfl, Int.le_refl _, Int.le_refl _⟩)

end Item

namespace Marks

open Item (openMark closeMark)

theorem exists_eq_of_openingProblem {w : Word} {d : Diagnostic} (h : d ∈ openingProblem w) :
    ∃ message replacement, d = (Diagnostic.error w.span
      "Incorrect comment: there must be a space after the opening /*").suggest w.span message replacement := by
  simp only [openingProblem] at h
  split at h
  · split at h
    · exact ⟨_, _, (Option.some.inj h).symm⟩
    · exact ⟨_, _, (Option.some.inj h).symm⟩
  · simp at h

theorem exists_eq_of_closingProblem {w : Word} {d : Diagnostic} (h : d ∈ closingProblem w) :
    ∃ message replacement, d = (Diagnostic.warning w.span
      "Possibly unclosed comment, */ must be preceded by whitespace").suggest w.span message replacement := by
  simp only [closingProblem] at h
  split at h
  · exact ⟨_, _, (Option.some.inj h).symm⟩
  · simp at h

theorem exists_unexpected_problem {inComment : Bool} {w : Word} :
    (∃ d ∈ problem inComment w, d.message = "Unexpected closing `*/`") ↔
      inComment = false ∧ w.text.endsWith closeMark = true := by
  have hopening : ∀ d ∈ openingProblem w, d.message ≠ "Unexpected closing `*/`" := by
    intro d hd
    obtain ⟨message, replacement, rfl⟩ := exists_eq_of_openingProblem hd
    exact show Text.ofString "Incorrect comment: there must be a space after the opening /*" ≠ _ by decide
  have hclosing : ∀ d ∈ closingProblem w, d.message ≠ "Unexpected closing `*/`" := by
    intro d hd
    obtain ⟨message, replacement, rfl⟩ := exists_eq_of_closingProblem hd
    exact show Text.ofString "Possibly unclosed comment, */ must be preceded by whitespace" ≠ _ by decide
  by_cases he : w.text.endsWith closeMark = true
  · cases inComment with
    | false => exact ⟨fun _ => ⟨rfl, he⟩, fun _ => ⟨_, by simp [problem, he]; rfl, rfl⟩⟩
    | true =>
      refine ⟨fun h => ?_, by simp⟩
      obtain ⟨d, hd, hmsg⟩ := h
      simp only [problem, he, if_true, Option.orElse_apply, Option.orElse_eq_or, Option.mem_def,
        Option.or_eq_some_iff] at hd
      cases hd with
      | inl hd => exact absurd hmsg (hopening d hd)
      | inr hd => exact absurd hmsg (hclosing d hd.2)
  · refine ⟨fun h => ?_, fun h => absurd h.2 he⟩
    obtain ⟨d, hd, hmsg⟩ := h
    simp only [problem, he, Bool.false_eq_true, if_false] at hd
    split at hd
    · obtain rfl := Option.some.inj hd
      simp [Diagnostic.error, Text.ofString] at hmsg
    · exact absurd hmsg (hopening d hd)

end Marks

namespace Checker

open Marks

theorem exists_unexpected_writeWord {c : Checker} {w : Word} :
    (∃ d ∈ (c.writeWord w).2, d.message = "Unexpected closing `*/`") ↔
      inside c.tracker.cursor.inComment w.text = false ∧ w.text.endsWith Item.closeMark = true := by
  rw [← exists_unexpected_problem, snd_writeWord]
  cases hp : problem (inside c.tracker.cursor.inComment w.text) w with
  | some d => simp [Diagnostic.withCode]
  | none =>
    simp only [Option.map_none, Option.none_or, Option.mem_def]
    refine ⟨fun h => ?_, by simp⟩
    obtain ⟨d, hd, hmsg⟩ := h
    split at hd
    · simp at hd
    · obtain ⟨first, -, rfl⟩ := Option.map_eq_some_iff.1 hd
      exact absurd hmsg (show Text.ofString "Incorrect rnd() call" ≠ _ by decide)

/-- Where marks are words of their own, the pass over the words and the reader agree on comments: after a word
the pass is inside of a comment exactly if the word stands in a comment that is read and does not close it, and
it finds fault with exactly those closing marks that are read as stray words. -/
theorem words_agree_with_atoms (rules : List Rule) (level : Level) (builtinMap : Bool) {file : Int} {source : Text}
    (hm : Apart (Word.scan file source)) {before after : List Word} {w : Word}
    (hs : Word.scan file source = before ++ w :: after) :
    ((((initial rules level builtinMap).writeWords before).1.writeWord w).1.tracker.cursor.inComment = true ↔
        Atom.InComment (Atom.parse file source) w) ∧
      ((∃ d ∈ (((initial rules level builtinMap).writeWords before).1.writeWord w).2,
          d.message = "Unexpected closing `*/`") ↔
        w.text = Item.closeMark ∧ Atom.other w ∈ Atom.parse file source) := by
  have hagree := @Item.agree_readFrom file source _ before after w hm (fun _ => Word.scanFrom_file)
    (fun _ => Word.inked_of_mem_scan) (Word.ordered_scan file source) hs
  have hstart : (initial rules level builtinMap).tracker.cursor.inComment = false := rfl
  have hbefore := inComment_writeWords (initial rules level builtinMap) before
  rw [hstart] at hbefore
  constructor
  · rw [inComment_writeWord, hbefore]
    have hafter : goesOnAfter false (before ++ [w]) = goesOn (goesOnAfter false before) w.text := by
      rw [goesOnAfter_append]
      rfl
    rw [← hafter]
    exact hagree.goesOn
  · rw [exists_unexpected_writeWord, hbefore]
    have hw := hm w (by rw [hs]; simp)
    constructor
    · rintro ⟨hi, he⟩
      have hb : goesOnAfter false before = false := by
        rw [inside, Bool.or_eq_false_iff] at hi
        exact hi.1
      exact ⟨hw.2 he, (hagree.stray (hw.2 he)).1 hb⟩
    · rintro ⟨hc, ho⟩
      rw [inside, (hagree.stray hc).2 ho, hc]
      decide

def marked : Text := "*/ /* a /* b */ create_elevation */ if /* c"

def innerMark : Word := ⟨"/*", 0, 8⟩

theorem marked_agrees_with_atoms :
    Apart (Word.scan 0 marked) ∧
      Word.scan 0 marked = (Word.scan 0 marked).take 3 ++ innerMark :: (Word.scan 0 marked).drop 4 ∧
      (((((initial Rule.defaults .conquerors false).writeWords ((Word.scan 0 marked).take 3)).1.writeWord
            innerMark).1.tracker.cursor.inComment = true ↔ Atom.InComment (Atom.parse 0 marked) innerMark) ∧
        ((∃ d ∈ (((initial Rule.defaults .conquerors false).writeWords ((Word.scan 0 marked).take 3)).1.writeWord
            innerMark).2, d.message = "Unexpected closing `*/`") ↔
          innerMark.text = Item.closeMark ∧ Atom.other innerMark ∈ Atom.parse 0 marked)) := by
  have hm : Apart (Word.scan 0 marked) := by decide +kernel
  have hs : Word.scan 0 marked
      = (Word.scan 0 marked).take 3 ++ innerMark :: (Word.scan 0 marked).drop 4 := by decide +kernel
  exact ⟨hm, hs, words_agree_with_atoms Rule.defaults .conquerors false hm hs⟩

end Checker

end MapScript
