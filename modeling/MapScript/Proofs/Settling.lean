import MapScript.Proofs.Order
import MapScript.Proofs.StrokeGaps

/-! Which atoms are moved when a script is laid out a second time, from the atoms before them and the space in
the source. -/

namespace MapScript.Layout

def lastSpaced (before : List Atom) : Option Atom := (before.filter fun a => !a.kind.isImplied).getLast?

/-- Whether a line stands between the last atom that had its space made and what comes next: the line of an atom
without space, or an empty line after a condition at the top. -/
def hasLineAfter (before : List Atom) : Bool :=
  before.getLast?.any fun last =>
    last.kind.isImplied || (last.kind == .endIf && !Atom.inBlock false before)

/-- An atom that has other space before it when it is written again. -/
inductive Displaced (job : Job) (before : List Atom) (a : Atom) : Prop
  /-- The brace of a command, with an empty line before it. -/
  | parted {command : Atom} (hl : before.getLast? = some command) (hc : command.kind = .command)
      (ha : a.kind = .openBlock) (hs : job.isPadded command a = true)
  /-- A comment on the line of the last atom that had its space made, which is not the line before it. -/
  | drawnUp {last : Atom} (hb : hasLineAfter before = true) (hl : lastSpaced before = some last)
      (hs : job.isTrailing last a = true)

instance (job : Job) (before : List Atom) (a : Atom) : Decidable (Displaced job before a) :=
  decidable_of_iff
    ((∃ command ∈ before.getLast?, command.kind = .command ∧ a.kind = .openBlock ∧ job.isPadded command a = true) ∨
      hasLineAfter before = true ∧ ∃ last ∈ lastSpaced before, job.isTrailing last a = true)
    ⟨by
      rintro (⟨command, hl, hc, ha, hs⟩ | ⟨hb, last, hl, hs⟩)
      · exact .parted hl hc ha hs
      · exact .drawnUp hb hl hs, by
      rintro (⟨hl, hc, ha, hs⟩ | ⟨hb, hl, hs⟩)
      · exact .inl ⟨_, hl, hc, ha, hs⟩
      · exact .inr ⟨hb, _, hl, hs⟩⟩

theorem lastSpaced_concat (before : List Atom) (a : Atom) :
    lastSpaced (before ++ [a]) = if a.kind.isImplied then lastSpaced before else some a := by
  by_cases h : a.kind.isImplied = true <;> simp [lastSpaced, h]

theorem hasLineAfter_concat (before : List Atom) (a : Atom) :
    hasLineAfter (before ++ [a])
      = (a.kind.isImplied || (a.kind == .endIf && !a.kind.inBlock (Atom.inBlock false before))) := by
  simp [hasLineAfter, Atom.inBlock_append, Atom.inBlock]

def Fits (before : List Atom) (a : Atom) : Option Gap → Prop
  | none => a.kind.isImplied = false ∧ (before = [] ∨ Job.isShort a = true)
  | some (.line marks) =>
    (∀ last, before.getLast? = some last → last.kind = .command → a.kind ≠ .openBlock) ∧
      (a.kind = .comment → hasLineAfter before = !marks.isEmpty)
  | some .space => (∃ last, before.getLast? = some last ∧ last.kind = .command) ∧ a.kind = .openBlock
  | some .apart => hasLineAfter before = true ∧ a.kind.isCloser = false ∧ a.kind ≠ .openBlock

theorem kind_eq_of_isTrailing {job : Job} {last a : Atom} (h : job.isTrailing last a = true) :
    a.kind = .comment := by
  rw [Job.isTrailing, Bool.and_eq_true, beq_iff_eq] at h
  exact h.1

theorem Displaced.kind_eq {job : Job} {before : List Atom} {a : Atom} (h : Displaced job before a) :
    a.kind = .openBlock ∨ a.kind = .comment := by
  cases h with
  | parted _ _ ha => exact .inl ha
  | drawnUp _ _ hs => exact .inr (kind_eq_of_isTrailing hs)

theorem not_displaced_of_fits_none {job : Job} {before : List Atom} {a : Atom} (h : Fits before a none) :
    ¬ Displaced job before a := by
  intro hd
  obtain ⟨-, rfl | hs⟩ := h
  · cases hd with
    | parted hl => simp at hl
    | drawnUp hb => simp [hasLineAfter] at hb
  · rcases hd.kind_eq with hk | hk <;> simp [Job.isShort, hk] at hs

theorem keeps_eq_false_iff {job : Job} {before : List Atom} {a last : Atom} {gap : Gap}
    (hf : Fits before a (some gap)) (hl : lastSpaced before = some last) :
    gap.keeps (job.space last a) = false ↔ Displaced job before a := by
  cases gap with
  | line marks =>
    obtain ⟨hbrace, hmarks⟩ := hf
    constructor
    · intro hk
      cases hs : job.space last a with
      | sameLine =>
        have ht := space_eq_sameLine.1 hs
        rw [hs] at hk
        have hne : marks.isEmpty = false := hk
        exact .drawnUp (by rw [hmarks (kind_eq_of_isTrailing ht), hne]; rfl) hl ht
      | _ => simp [hs, Gap.keeps] at hk
    · intro hd
      cases hd with
      | parted hp hc ha => exact absurd ha (hbrace _ hp hc)
      | drawnUp hb hl' ht =>
        obtain rfl := Option.some.inj (hl.symm.trans hl')
        rw [space_eq_sameLine.2 ht]
        have hm := hmarks (kind_eq_of_isTrailing ht)
        rw [hb] at hm
        simpa [Gap.keeps] using hm
  | space =>
    -- A gap of one space is the one between a command and its brace.
    obtain ⟨⟨prev, hp, hc⟩, ha⟩ := hf
    obtain rfl : last = prev := by
      obtain ⟨init, rfl⟩ := List.getLast?_eq_some_iff.1 hp
      rw [lastSpaced_concat, hc] at hl
      exact (Option.some.inj hl).symm
    constructor
    · intro hk
      cases hs : job.space last a with
      | emptyLine => exact .parted hp hc ha (space_eq_emptyLine.1 hs)
      | _ => simp [hs, Gap.keeps] at hk
    · intro hd
      cases hd with
      | parted hp' _ _ hs =>
        obtain rfl := Option.some.inj (hp.symm.trans hp')
        rw [space_eq_emptyLine.2 hs]
        rfl
      | drawnUp _ _ ht => simp [kind_eq_of_isTrailing ht] at ha
  | apart =>
    obtain ⟨hb, -, hbrace⟩ := hf
    constructor
    · intro hk
      cases hs : job.space last a with
      | sameLine => exact .drawnUp hb hl (space_eq_sameLine.1 hs)
      | _ => simp [hs, Gap.keeps] at hk
    · intro hd
      cases hd with
      | parted _ _ ha => exact absurd ha hbrace
      | drawnUp _ hl' ht =>
        obtain rfl := Option.some.inj (hl.symm.trans hl')
        rw [space_eq_sameLine.2 ht]
        rfl

section Next

variable {before : List Atom} {s : Stroke} {next : Atom}

theorem fits_written {beforeBlock apart : Bool} (hf : s.form = .written beforeBlock apart)
    (hs : Suits (Atom.inBlock false before) s (some next)) :
    Fits (before ++ [s.atom]) next (some (Form.gap beforeBlock apart s.atom.kind)) := by
  simp only [Suits, hf, Option.any_some] at hs
  obtain ⟨himplied, hblock, hapart⟩ := hs
  by_cases hc : beforeBlock = true ∧ s.atom.kind = .command
  · rw [Form.gap, if_pos hc]
    refine ⟨⟨s.atom, by simp, hc.2⟩, ?_⟩
    simpa [hc.1] using hblock hc.2
  · rw [Form.gap, if_neg hc]
    by_cases ha : apart = true
    · rw [ha] at hapart
      simp only [Bool.true_eq, Bool.and_eq_true, beq_iff_eq, bne_iff_ne, Bool.not_eq_true'] at hapart
      rw [if_pos ha]
      refine ⟨?_, hapart.2.2.1, hapart.2.2.2⟩
      rw [hasLineAfter_concat, hapart.1]
      simp [Atom.Kind.inBlock, hapart.2.1]
    · rw [if_neg ha]
      refine ⟨fun last hl hk he => ?_, fun hk => ?_⟩
      · obtain rfl : s.atom = last := by simpa using hl
        exact hc ⟨by simpa [he] using hblock hk, hk⟩
      · -- A comment after the end of a condition at the top would stand apart from it.
        rw [hasLineAfter_concat, himplied]
        by_cases he : s.atom.kind = .endIf
        · rw [Bool.eq_false_iff.2 ha, he, hk] at hapart
          simpa [he, Atom.Kind.inBlock, Atom.Kind.isCloser, Atom.Kind.isImplied] using hapart
        · simp [he]

theorem fits_mark (hi : s.atom.kind.isImplied = true) (marks : List Mark) (mark : Mark) :
    Fits (before ++ [s.atom]) next (some (.line (marks ++ [mark]))) := by
  refine ⟨fun last hl hk => ?_, fun _ => ?_⟩
  · obtain rfl : s.atom = last := by simpa using hl
    rw [hk] at hi
    exact absurd hi (by decide)
  · rw [hasLineAfter_concat, hi]
    simp

end Next

end MapScript.Layout
