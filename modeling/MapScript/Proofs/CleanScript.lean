import MapScript.Check
import MapScript.Proofs.Balance
import MapScript.Proofs.Coverage
import MapScript.Proofs.Joining

/-! Scripts that a check without rules has nothing to say about: every item is whole, comment marks stand by
themselves, and what is opened is closed. -/

namespace MapScript

def Check.plain (level : Level) (source : Text) : Check :=
  { level, rules := [], sources := [⟨0, "<source>", source⟩] }

def Nesting.inBlock (stack : List Nesting) : Bool := stack.any fun n => n.opener == .brace

def Nesting.flat (stack : List Nesting) : List Atom → Bool
  | [] => true
  | a :: rest => (a.kind != .openBlock || !inBlock stack) && flat (step stack a).1 rest

/-- A script without problems in which all is closed at the end and no block stands inside of another. -/
structure Clean (source : Text) : Prop where
  /-- A check against no rule finds nothing; which version of the game it is for makes no difference then. -/
  silent : ∃ level report, (Check.plain level source).run = .ok report ∧ report.diagnostics = []
  closed : Nesting.after [] (Atom.parse 0 source) = []
  flat : Nesting.flat [] (Atom.parse 0 source) = true

namespace Marks

open Item (openMark closeMark)

/-- Whether a word is inside of a comment, when the word before it was or was not; the marks are part of the
comment. -/
def inside (before : Bool) (t : Text) : Bool := before || t.startsWith openMark

def goesOn (before : Bool) (t : Text) : Bool := inside before t && !t.endsWith closeMark

def Quiet (before : Bool) : List Word → Prop
  | [] => True
  | w :: rest => problem (inside before w.text) w = none ∧ Quiet (goesOn before w.text) rest

theorem enter_inComment (c : Cursor) (t : Text) : (c.enter t).inComment = inside c.inComment t := by
  unfold Cursor.enter inside
  by_cases hd : (c.entry.any fun entry => entry.arity ≤ c.argIndex) = true <;>
    by_cases ht : t.startsWith openMark = true <;> simp [hd, ht]

theorem leave_inComment (c : Cursor) (t : Text) :
    (c.leave t).inComment = (c.inComment && !t.endsWith closeMark) := by
  unfold Cursor.leave
  by_cases hc : c.inComment = true
  · simp [hc]
  · cases Catalog.find? t with
    | some entry => simp [hc]
    | none => by_cases he : c.entry.isSome = true <;> simp [hc, he]

theorem openingProblem_eq_none {w : Word} (h : openingProblem w = none)
    (ho : w.text.startsWith openMark = true) : w.text = openMark := by
  have hl : w.text.length ≤ 2 := by
    by_contra hlt
    rw [openingProblem, if_pos (by simp [ho]; omega)] at h
    split at h <;> simp at h
  obtain ⟨rest, hr⟩ : openMark <+: w.text := by simpa [Text.startsWith] using ho
  have hn : rest = [] := by
    have ht : openMark.length = 2 := rfl
    rw [← hr, List.length_append, ht] at hl
    exact List.length_eq_zero_iff.1 (by omega)
  rw [← hr, hn, List.append_nil]

theorem closingProblem_eq_none {w : Word} (h : closingProblem w = none)
    (hc : w.text.endsWith closeMark = true) : w.text = closeMark := by
  have hl : w.text.length ≤ 2 := by
    by_contra hlt
    rw [closingProblem, if_pos (by omega)] at h
    simp at h
  obtain ⟨front, hf⟩ : closeMark <:+ w.text := by simpa [Text.endsWith] using hc
  have hn : front = [] := by
    have ht : closeMark.length = 2 := rfl
    rw [← hf, List.length_append, ht] at hl
    exact List.length_eq_zero_iff.1 (by omega)
  rw [← hf, hn, List.nil_append]

/-- A word that is no problem outside of comments opens one only by a mark of its own. -/
theorem outside {w : Word} (h : problem (inside false w.text) w = none) :
    (w.text.startsWith openMark = true → w.text = openMark) ∧
      (Catalog.isSectionShaped w.text = true → w.text.startsWith openMark = false →
        Catalog.contains w.text = true) := by
  by_cases ho : w.text.startsWith openMark = true
  · have hp : openingProblem w = none := by
      simp only [problem, inside, ho, Bool.or_true, if_true, Bool.not_true, Bool.false_and,
        Bool.false_eq_true, if_false] at h
      split at h
      · rw [Option.orElse_apply, Option.orElse_eq_or, Option.or_eq_none_iff] at h
        exact h.1
      · exact h
    exact ⟨fun _ => openingProblem_eq_none hp ho, fun _ hn => by simp [ho] at hn⟩
  · refine ⟨fun h => absurd h ho, fun hs _ => ?_⟩
    by_contra hc
    rw [Bool.not_eq_true] at ho hc
    simp only [problem, inside, ho, hs, hc, Bool.or_self, Bool.not_false, Bool.and_self,
      if_true] at h
    split at h <;> simp at h

/-- A word that is no problem inside of a comment closes it only by a mark of its own. -/
theorem within {w : Word} (h : problem (inside true w.text) w = none)
    (hc : w.text.endsWith closeMark = true) : w.text = closeMark := by
  simp only [problem, inside, hc, Bool.true_or, if_true] at h
  rw [Option.orElse_apply, Option.orElse_eq_or, Option.or_eq_none_iff] at h
  exact closingProblem_eq_none h.2 hc

theorem Quiet.drop_words {words more : List Word} (h : Quiet false (words ++ more))
    (ho : ∀ w ∈ words, w.text.startsWith openMark = false) : Quiet false more := by
  induction words with
  | nil => exact h
  | cons w words ih =>
    have hw : goesOn false w.text = false := by simp [goesOn, inside, ho w (by simp)]
    exact ih (hw ▸ h.2) fun v hv => ho v (by simp [hv])

theorem Quiet.drop_comment {inner more : List Word} {closer : Word}
    (h : Quiet true (inner ++ closer :: more)) (hi : ∀ v ∈ inner, v.text ≠ closeMark)
    (hc : closer.text = closeMark) : Quiet false more := by
  induction inner with
  | nil =>
    have hg : goesOn true closer.text = false := by rw [hc]; decide
    exact hg ▸ h.2
  | cons v inner ih =>
    have hv : v.text.endsWith closeMark = false := by
      by_contra he
      exact hi v (by simp) (within h.1 (by simpa using he))
    have hg : goesOn true v.text = true := by simp [goesOn, inside, hv]
    exact ih (hg ▸ h.2) fun u hu => hi u (by simp [hu])

end Marks

namespace Checker

open Marks

theorem writeWord_nil {c : Checker} (hc : c.watches = []) (w : Word) :
    c.writeWord w =
      (⟨[], { c.tracker with cursor := (c.tracker.cursor.enter w.text).leave w.text }⟩,
        (problem (inside c.tracker.cursor.inComment w.text) w).map (·.withCode syntaxCode)) := by
  rw [← enter_inComment]
  simp [writeWord, hc, Watch.allOnWord]

theorem quiet_of_writeWords {c : Checker} {words : List Word} (hc : c.watches = [])
    (h : (c.writeWords words).2 = []) :
    Quiet c.tracker.cursor.inComment words ∧ (c.writeWords words).1.watches = [] ∧
      (c.writeWords words).1.tracker.nesting = c.tracker.nesting := by
  induction words generalizing c with
  | nil => exact ⟨trivial, hc, rfl⟩
  | cons w words ih =>
    simp only [writeWords, writeWord_nil hc, List.append_eq_nil_iff, Option.toList_eq_nil_iff,
      Option.map_eq_none_iff] at h ⊢
    obtain ⟨hq, hw, hn⟩ := ih rfl h.2
    refine ⟨⟨h.1, ?_⟩, hw, hn⟩
    simpa [goesOn, leave_inComment, enter_inComment] using hq

/-- Without rules, a flaw goes unreported only if it is that of a word shaped like the mark of a section. -/
theorem isCovered_nil {c : Checker} (hc : c.watches = []) {atom : Atom} {flaw : Flaw}
    (h : c.isCovered atom flaw = true) :
    flaw.kind = .unknownWord ∧ Catalog.isSectionShaped atom.head.text = true := by
  have hu : ∀ rule, c.uses rule = false := by simp [uses, rules, hc]
  unfold isCovered at h
  split at h
  · simp [hu] at h
  · next hk => exact ⟨hk, by simpa [hu] using h⟩
  · simp at h

theorem writeItem_nil {c : Checker} (hc : c.watches = []) (item : Item) :
    c.writeItem item =
      .ok (⟨[], (c.tracker.update item.atom).1⟩,
        ((c.tracker.update item.atom).2.map (·.withCode syntaxCode)).toList
          ++ Checker.writeFlaws ⟨[], (c.tracker.update item.atom).1⟩ item) := by
  simp [writeItem, writeAtom, hc, Watch.allOnAtom, bind, Except.bind, pure, Except.pure]

theorem update_nesting (t : Tracker) (a : Atom) :
    (t.update a).1.nesting = (Nesting.step t.nesting a).1 ∧
      (t.update a).2 = (Nesting.step t.nesting a).2 := ⟨rfl, rfl⟩

theorem silent_of_writeItems {c d : Checker} {items : List Item} (hc : c.watches = [])
    (h : c.writeItems items = .ok (d, [])) :
    Nesting.problems c.tracker.nesting (items.map Item.atom) = [] ∧
      ∀ item ∈ items, ∀ flaw ∈ item.flaws,
        flaw.kind = .unknownWord ∧ Catalog.isSectionShaped item.atom.head.text = true := by
  induction items generalizing c with
  | nil => exact ⟨rfl, by simp⟩
  | cons item items ih =>
    simp only [writeItems, writeItem_nil hc, bind, Except.bind, pure, Except.pure] at h
    split at h
    · simp at h
    · next rest hr =>
      simp only [Except.ok.injEq, Prod.mk.injEq, List.append_eq_nil_iff, Option.toList_eq_nil_iff,
        Option.map_eq_none_iff] at h
      obtain ⟨hd, ⟨hstep, hflaws⟩, hnil⟩ := h
      obtain ⟨hp, hall⟩ := ih rfl (hr.trans (by rw [← hd, ← hnil]))
      refine ⟨?_, ?_⟩
      · rw [List.map_cons, Nesting.problems, ← (update_nesting _ _).2, hstep, Option.toList_none,
          List.nil_append]
        exact hp
      · intro x hx
        rcases List.mem_cons.1 hx with rfl | hx
        · intro flaw hf
          by_cases hcov : Checker.isCovered ⟨[], (c.tracker.update x.atom).1⟩ x.atom flaw = true
          · exact isCovered_nil rfl hcov
          · have hm : flaw ∈ x.flaws.filter fun f =>
                !Checker.isCovered ⟨[], (c.tracker.update x.atom).1⟩ x.atom f := by
              simp [hf, hcov]
            rw [writeFlaws, List.map_eq_nil_iff] at hflaws
            simp [hflaws] at hm
        · exact hall x hx

end Checker

open Marks in
theorem Check.silent_plain {level : Level} {source : Text} {report : Report}
    (h : (Check.plain level source).run = .ok report) (hr : report.diagnostics = []) :
    Quiet false (Word.scan 0 source) ∧ Nesting.problems [] (Atom.parse 0 source) = [] ∧
      ∀ item ∈ Item.parse 0 source, ∀ flaw ∈ item.flaws,
        flaw.kind = .unknownWord ∧ Catalog.isSectionShaped item.atom.head.text = true := by
  have hwords : (Check.plain level source).words = Word.scan 0 source := by simp [Check.plain, words]
  have hitems : (Check.plain level source).items = Item.parse 0 source := by simp [Check.plain, items]
  simp only [run, problems, hwords, hitems, bind, Except.bind, pure, Except.pure] at h
  generalize hc : Checker.initial (Check.plain level source).rules _ _ = c at h
  have hcw : c.watches = [] := by rw [← hc]; rfl
  have hcn : c.tracker.nesting = [] := by rw [← hc]; rfl
  have hcc : c.tracker.cursor.inComment = false := by rw [← hc]; rfl
  cases hw : (c.writeWords (Word.scan 0 source)).1.writeItems (Item.parse 0 source) with
  | error e => simp [hw] at h
  | ok v =>
    obtain ⟨d, found⟩ := v
    simp only [hw, Except.ok.injEq] at h
    have hnil : (c.writeWords (Word.scan 0 source)).2 ++ found = [] := by
      rw [← h] at hr
      simpa using congrArg List.length hr
    obtain ⟨hn, rfl⟩ := List.append_eq_nil_iff.1 hnil
    obtain ⟨hq, hww, hwn⟩ := Checker.quiet_of_writeWords hcw hn
    obtain ⟨hp, hf⟩ := Checker.silent_of_writeItems hww hw
    rw [hcc] at hq
    rw [hwn, hcn] at hp
    exact ⟨hq, hp, hf⟩

inductive Atom.Legible : Atom → Prop
  | mark {w : Word} (hw : Lead.of w.text = .mark) (hi : w.text.Inked) : Legible (.sectionMark w)
  | alone {w : Word} {k : Keyword} {build : Word → Atom} (hw : Lead.of w.text = .keyword k)
      (hk : k.alone? = some build) : Legible (build w)
  | unary {w arg : Word} {k : Keyword} {build : Word → Word → Atom} {missing : Flaw.Kind}
      (hw : Lead.of w.text = .keyword k) (hk : k.unary? = some (build, missing))
      (ha : Item.isArgument arg.text = true) (hi : arg.text.Inked) : Legible (build w arg)
  | const {w name value : Word} (hw : Lead.of w.text = .keyword .const)
      (hn : Item.isArgument name.text = true) (hni : name.text.Inked)
      (hv : Item.isArgument value.text = true) (hvi : value.text.Inked) :
      Legible (.const w name (some value))
  | command {w : Word} {entry : Entry} {args : List Word} (hw : Lead.of w.text = .name entry)
      (hi : w.text.Inked) (hl : args.length = entry.arity)
      (ha : ∀ arg ∈ args, Item.isArgument arg.text = true) (hai : ∀ arg ∈ args, arg.text.Inked) :
      Legible (.command w args)
  | comment {opener closer : Word} {content : Text} {stop : Nat}
      (hw : ∀ v ∈ Word.scan 0 content, v.text ≠ Item.closeMark) :
      Legible (.comment opener content (some closer) stop)

theorem Atom.Legible.kind_ne_other {a : Atom} (h : a.Legible) : a.kind ≠ .other := by
  cases h with
  | @alone w k build hw hk =>
    cases k <;> simp only [Keyword.alone?, Option.some.injEq, reduceCtorEq] at hk <;> subst hk <;>
      simp [Atom.kind]
  | @unary w arg k build missing hw hk =>
    cases k <;> simp only [Keyword.unary?, Option.some.injEq, Prod.mk.injEq, reduceCtorEq] at hk <;>
      obtain ⟨rfl, rfl⟩ := hk <;> simp [Atom.kind]
  | mark | const | command | comment => simp [Atom.kind]

theorem Lead.of_spelling (k : Keyword) : Lead.of k.spelling = .keyword k := by
  cases k <;> rfl

namespace Item

open Marks

theorem not_openMark_of_isArgument {t : Text} (h : isArgument t = true) :
    t.startsWith openMark = false := by
  simp_all [isArgument]

theorem not_startsWith_openMark {w : Word} {rest : List Word} (hq : Quiet false (w :: rest))
    (hw : Lead.of w.text ≠ .keyword .openComment) : w.text.startsWith openMark = false := by
  by_contra ho
  have ht : w.text = openMark := (outside hq.1).1 (by simpa using ho)
  exact hw (by rw [ht]; exact Lead.of_spelling .openComment)

theorem Reading.legible {source : Text} {before : List Word} {w : Word} {rest : List Word} {item : Item}
    {used : Nat} (h : Reading source w rest item used) (hs : Word.scan 0 source = before ++ w :: rest)
    (hq : Quiet false (w :: rest))
    (hf : ∀ flaw ∈ item.flaws,
      flaw.kind = .unknownWord ∧ Catalog.isSectionShaped item.atom.head.text = true) :
    item = sound item.atom ∧ item.atom.Legible ∧ Quiet false (rest.drop used) := by
  have hink : ∀ v ∈ w :: rest, v.text.Inked := fun v hv =>
    Word.inked_of_mem_scan (by rw [hs]; exact List.mem_append_right _ hv)
  -- Words that an item takes besides a comment leave the marks of the others as they are.
  have hmore : ∀ {args more : List Word}, rest = args ++ more →
      Lead.of w.text ≠ .keyword .openComment → (∀ arg ∈ args, isArgument arg.text = true) →
      Quiet false more := by
    intro args more hr hw ha
    subst hr
    refine @Quiet.drop_words (w :: args) more hq fun v hv => ?_
    rcases List.mem_cons.1 hv with rfl | hv
    · exact not_startsWith_openMark hq hw
    · exact not_openMark_of_isArgument (ha v hv)
  have hflaw : ∀ {a : Atom} {kind : Flaw.Kind}, item = flawed a kind → kind = .unknownWord := by
    rintro a kind rfl
    exact (hf ⟨kind, a.span⟩ (by simp [flawed])).1
  cases h with
  | mark hw =>
    exact ⟨rfl, .mark hw (hink w (by simp)), @hmore [] rest rfl (by simp [hw]) (by simp)⟩
  | @alone _ k build hw hk =>
    have hc : k ≠ .openComment := by rintro rfl; simp [Keyword.alone?] at hk
    exact ⟨rfl, .alone hw hk, @hmore [] rest rfl (by simp [hw, hc]) (by simp)⟩
  | @unary k build missing arg more hw hk ha =>
    have hc : k ≠ .openComment := by rintro rfl; simp [Keyword.unary?] at hk
    exact ⟨rfl, .unary hw hk ha (hink arg (by simp)),
      @hmore [arg] more rfl (by simp [hw, hc]) (by simpa using ha)⟩
  | starved hw hk hr =>
    have hm := Keyword.wantsMore_of_unary? hk
    rw [hflaw rfl] at hm
    simp [Flaw.Kind.wantsMore] at hm
  | @const name value more hw hn hv =>
    exact ⟨rfl, .const hw hn (hink name (by simp)) hv (hink value (by simp)),
      @hmore [name, value] more rfl (by simp [hw]) (by simp [hn, hv])⟩
  | valueless => exact absurd (hflaw rfl) (by decide)
  | nameless => exact absurd (hflaw rfl) (by decide)
  | @closed inner closer more hw hi hc =>
    have ht : w.text = openMark := Lead.text_of_openComment hw
    have hg : goesOn false w.text = true := by rw [ht]; decide
    have hin : Quiet true (inner ++ closer :: more) := hg ▸ hq.2
    refine ⟨rfl, .comment fun v hv => ?_, ?_⟩
    · have hb := Word.scan_between hs
      have hm : v.text ∈ inner.map Word.text := by
        rw [← hb]
        exact List.mem_map_of_mem hv
      obtain ⟨u, hu, hut⟩ := List.mem_map.1 hm
      exact hut ▸ hi u hu
    · simpa using hin.drop_comment hi hc
  | unclosed => exact absurd (hflaw rfl) (by decide)
  | command hw hl ha =>
    exact ⟨rfl, .command hw (hink w (by simp)) hl ha (fun arg h => hink arg (by simp [h])),
      hmore (by simp) (by simp [hw]) ha⟩
  | short => exact absurd (hflaw rfl) (by decide)
  | inline hw =>
    have hi := Lead.of_fits w.text
    rw [hw] at hi
    have ht : w.text = openMark := (outside hq.1).1 (by simp_all [Lead.Fits, isInlineComment])
    simp [Lead.Fits, ht, isInlineComment, openMark, Text.ofString] at hi
  | unknown hw =>
    have hn := Lead.of_fits w.text
    rw [hw] at hn
    have hc := (outside hq.1).2 (hf _ (List.mem_singleton_self _)).2
      (not_startsWith_openMark hq (by simp [hw]))
    simp_all [Lead.Fits, Catalog.contains]

theorem readFrom_legible {source : Text} {before words : List Word}
    (hs : Word.scan 0 source = before ++ words) (hq : Quiet false words)
    (hf : ∀ item ∈ readFrom source 0 words, ∀ flaw ∈ item.flaws,
      flaw.kind = .unknownWord ∧ Catalog.isSectionShaped item.atom.head.text = true) :
    ∀ item ∈ readFrom source 0 words, item = sound item.atom ∧ item.atom.Legible := by
  induction hn : words.length using Nat.strong_induction_on generalizing before words with
  | _ n ih =>
    cases words with
    | nil => simp [readFrom]
    | cons w rest =>
      have hr := reading source w rest
      rw [readFrom_cons hr] at hf ⊢
      obtain ⟨hsound, hleg, hquiet⟩ := hr.legible hs hq (hf _ (by simp))
      have hlt : (rest.drop (read source w rest).2).length < n := by
        simp only [← hn, List.length_cons, List.length_drop]
        omega
      have hsplit : Word.scan 0 source
          = (before ++ w :: rest.take (read source w rest).2) ++ rest.drop (read source w rest).2 := by
        rw [hs, List.append_assoc, List.cons_append, List.take_append_drop]
      intro item hi
      rcases List.mem_cons.1 hi with rfl | hi
      · exact ⟨hsound, hleg⟩
      · exact ih _ hlt hsplit hquiet (fun item h => hf item (List.mem_cons_of_mem _ h)) rfl item hi

end Item

namespace Clean

variable {source : Text}

theorem items (h : Clean source) : Item.parse 0 source = (Atom.parse 0 source).map Item.sound ∧
    ∀ a ∈ Atom.parse 0 source, a.Legible := by
  obtain ⟨level, report, hrun, hnil⟩ := h.silent
  obtain ⟨hq, -, hf⟩ := Check.silent_plain hrun hnil
  have hall := @Item.readFrom_legible source [] _ rfl hq hf
  constructor
  · rw [Atom.parse, List.map_map]
    have hid := List.map_congr_left fun item hi => (hall item hi).1
    rw [List.map_id'] at hid
    exact hid
  · intro a ha
    obtain ⟨item, hi, rfl⟩ := List.mem_map.1 ha
    exact (hall item hi).2

theorem balanced (h : Clean source) : Balanced (Atom.parse 0 source) := by
  obtain ⟨level, report, hrun, hnil⟩ := h.silent
  obtain ⟨-, hp, -⟩ := Check.silent_plain hrun hnil
  exact Nesting.passes_nil_iff_balanced.1 (Nesting.passes_iff.2 ⟨hp, h.closed⟩)

def test (level : Level) (source : Text) : Bool :=
  (match (Check.plain level source).problems with
    | .ok found => found.isEmpty
    | .error _ => false)
    && (Nesting.after [] (Atom.parse 0 source)).isEmpty && Nesting.flat [] (Atom.parse 0 source)

theorem of_test {level : Level} (h : test level source = true) : Clean source := by
  rw [test, Bool.and_eq_true, Bool.and_eq_true, List.isEmpty_iff] at h
  obtain ⟨⟨hp, hc⟩, hf⟩ := h
  cases hfound : (Check.plain level source).problems with
  | error e => simp [hfound] at hp
  | ok found =>
    obtain rfl : found = [] := by simpa [hfound] using hp
    refine ⟨⟨level, ⟨(Check.plain level source).sources, []⟩, ?_, rfl⟩, hc, hf⟩
    simp [Check.run, hfound, bind, Except.bind, pure, Except.pure]

end Clean

end MapScript
