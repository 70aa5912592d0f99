import Mathlib.Data.List.Pairwise
import MapScript.Proofs.Folding
import MapScript.Proofs.LineStarts
import MapScript.Proofs.Positions

/-! How the ranges of a script lie to each other. What is closed last was opened first or comes later, so the places
where ranges start and end are nested or apart. Their lines are too, but for one case: a branch ends on the line before
the next one, and what is inside of it may end on the line of the next one. -/

namespace MapScript

/-- An atom that ends a branch on the line before its own. -/
def Atom.Kind.divides : Atom.Kind → Bool
  | .elseIf => true
  | .elseThen => true
  | .percentChance => true
  | .endRandom => true
  | _ => false

namespace Atom

def Precedes (a b : Atom) : Prop := ∀ w ∈ a.words, w.start ≤ b.start

theorem Precedes.start_le {a b : Atom} (h : a.Precedes b) : a.start ≤ b.start := h a.head List.mem_cons_self

theorem Over.start_le {file : Int} {source : Text} {a : Atom} {group rest : List Word}
    (h : Over file source a group rest) {w : Word} (hw : w ∈ a.words) : ∃ v ∈ group, w.start ≤ v.stop := by
  have hmade := h.made
  cases a with
  | comment opener content closer stop =>
    cases hmade with
    | closed inner last hg ho hl hc hi ht =>
      subst hg hc
      refine ⟨w, ?_, Nat.le_add_right _ _⟩
      have hw : w = opener ∨ w = last := by simpa [words, head, tail] using hw
      rcases hw with rfl | rfl <;> simp
    | unclosed inner hg ho hc hr hi ht =>
      subst hg hc
      have hw : w = opener := by simpa [words, head, tail] using hw
      exact ⟨w, by simp [hw], Nat.le_add_right _ _⟩
    | inline word last hg hlen ho hl hc hword hopen hclose =>
      subst hg hc
      refine ⟨word, List.mem_singleton_self word, ?_⟩
      simp only [Word.span, Span.mk.injEq, Word.stop] at hopen hclose ⊢
      have hw : w = opener ∨ w = last := by simpa [words, head, tail] using hw
      rcases hw with rfl | rfl <;> omega
  | _ =>
    simp only at hmade
    exact ⟨w, hmade ▸ hw, Nat.le_add_right _ _⟩

theorem AllOver.start_mem {file : Int} {source : Text} {items : List Item} {groups : List (List Word)}
    (h : AllOver file source items groups) {b : Atom} (hb : b ∈ items.map Item.atom) :
    ∃ first ∈ groups.flatten, b.start = first.start := by
  induction h with
  | nil => simp at hb
  | @cons item items group groups head tail ih =>
    rw [List.map_cons] at hb
    rcases List.mem_cons.1 hb with rfl | hb
    · obtain ⟨first, hfirst, last, -, hspan⟩ := head.located
      refine ⟨first, by simp [List.mem_of_mem_head? hfirst], ?_⟩
      exact Int.ofNat.inj (congrArg Span.start hspan)
    · obtain ⟨first, hfirst, hstart⟩ := ih hb
      exact ⟨first, List.mem_append_right group hfirst, hstart⟩

theorem AllOver.precedes {file : Int} {source : Text} {items : List Item} {groups : List (List Word)}
    (h : AllOver file source items groups) (hord : Word.Ordered groups.flatten) :
    (items.map Item.atom).Pairwise Precedes := by
  induction h with
  | nil => exact .nil
  | @cons item items group groups head tail ih =>
    refine .cons (fun b hb w hw => ?_) (ih (hord.parts List.flatten_cons).2)
    obtain ⟨v, hv, hle⟩ := head.start_le hw
    obtain ⟨first, hfirst, hstart⟩ := tail.start_mem hb
    have hafter := hord.append_le List.flatten_cons hv hfirst
    omega

theorem parse_precedes (file : Int) (source : Text) : (parse file source).Pairwise Precedes := by
  obtain ⟨groups, hwords, hover⟩ := Item.parse_covers_words file source
  exact hover.precedes (hwords ▸ Word.ordered_scan file source)

end Atom

namespace Fold

variable {source : Text}

theorem line_mono (source : Text) {i j : Nat} (h : i ≤ j) : line source i ≤ line source j :=
  Text.fst_position_mono source h

theorem line_lt (source : Text) (i : Nat) : line source i < (Text.lineStarts source).length := by
  rw [line, Text.position_eq_counted, Text.length_lineStarts]
  exact Nat.lt_succ_of_le (List.Sublist.count_le _ (List.take_sublist _ _))

theorem fst_close_sublist (source : Text) (kinds : List Atom.Kind) (last : Nat) (waiting : List Atom) :
    (close source kinds last waiting).1.Sublist waiting := by
  cases waiting with
  | nil => exact .slnil
  | cons top rest =>
    rw [close]
    split
    · exact List.sublist_cons_self top rest
    · exact List.Sublist.refl _

theorem mem_range {r : Range} {first last : Nat} : r ∈ range first last ↔ r = (first, last) ∧ first < last := by
  rw [range]
  split <;> simp [*]

theorem mem_close {kinds : List Atom.Kind} {last : Nat} {waiting : List Atom} {r : Range}
    (h : r ∈ (close source kinds last waiting).2) :
    ∃ top rest, waiting = top :: rest ∧ (close source kinds last waiting).1.Sublist rest ∧
      r = (line source top.start, last) ∧ r.1 < r.2 := by
  cases waiting with
  | nil => simp [close] at h
  | cons top rest =>
    rw [close] at h ⊢
    split at h
    · next hk =>
      obtain ⟨rfl, hlt⟩ := mem_range.1 h
      exact ⟨top, rest, rfl, by simp [List.contains_iff_mem.1 hk], rfl, hlt⟩
    · simp at h

/-- A branch ends the one before it as the end of a condition would, but on the line before, and takes its place. -/
theorem branch_eq_close (a : Atom) (waiting : List Atom) :
    (branch source a waiting).1.Sublist
        (a :: (close source [.ifThen, .elseIf] (line source a.start - 1) waiting).1) ∧
      (branch source a waiting).2 = (close source [.ifThen, .elseIf] (line source a.start - 1) waiting).2 := by
  cases waiting with
  | nil => exact ⟨List.nil_sublist _, rfl⟩
  | cons top rest => by_cases hk : top.kind = .ifThen ∨ top.kind = .elseIf <;> simp [branch, close, hk]

theorem fst_step_sublist (waiting : List Atom) (a : Atom) : (step source waiting a).1.Sublist (a :: waiting) := by
  have hself : waiting.Sublist (a :: waiting) := List.sublist_cons_self a waiting
  cases a with
  | comment opener content closer stop => cases closer <;> exact hself
  | openBlock | ifThen | startRandom => exact List.Sublist.refl _
  | closeBlock | endIf => exact (fst_close_sublist _ _ _ waiting).trans hself
  | elseIf | elseThen => exact (branch_eq_close _ waiting).1.trans ((fst_close_sublist _ _ _ waiting).cons_cons _)
  | percentChance => exact (fst_close_sublist _ _ _ waiting).cons_cons _
  | endRandom => exact ((fst_close_sublist _ _ _ _).trans (fst_close_sublist _ _ _ waiting)).trans hself
  | const | define | undefine | sectionMark | command | other => exact hself

/-- Where a range comes from that ends with an atom: it is that of a comment, or that of an atom that waited, and only
atoms that waited longer wait on. -/
inductive Ends (source : Text) (waiting : List Atom) (a : Atom) (r : Range) : Prop
  | own {closer : Word} (hc : closer ∈ a.words) (hr : r = (line source a.start, line source closer.start))
      (hw : (step source waiting a).1 = waiting)
  | popped {o : Atom} {kept : List Atom} (hs : (o :: kept).Sublist waiting)
      (hw : (step source waiting a).1.Sublist (a :: kept)) (hfirst : r.1 = line source o.start)
      (hlast : r.2 = line source a.start ∨ r.2 + 1 = line source a.start ∧ a.kind.divides = true)

theorem ends_of_mem_step {waiting : List Atom} {a : Atom} {r : Range} (h : r ∈ (step source waiting a).2) :
    r.1 < r.2 ∧ Ends source waiting a r := by
  cases a with
  | comment opener content closer stop =>
    cases closer with
    | none => simp [step] at h
    | some closer =>
      obtain ⟨rfl, hlt⟩ := mem_range.1 h
      exact ⟨hlt, .own (by simp [Atom.words, Atom.tail]) rfl rfl⟩
  | closeBlock | endIf =>
    obtain ⟨top, rest, rfl, hw, rfl, hlt⟩ := mem_close h
    exact ⟨hlt, .popped (List.Sublist.refl _) (hw.cons _) rfl (.inl rfl)⟩
  | elseIf | elseThen =>
    obtain ⟨hbranch, hranges⟩ := branch_eq_close _ waiting
    obtain ⟨top, rest, rfl, hw, rfl, hlt⟩ := mem_close (hranges ▸ h)
    refine ⟨hlt, .popped (List.Sublist.refl _) (hbranch.trans (hw.cons_cons _)) rfl (.inr ⟨?_, rfl⟩)⟩
    simp only at hlt ⊢
    omega
  | percentChance w v =>
    obtain ⟨top, rest, rfl, hw, rfl, hlt⟩ := mem_close h
    refine ⟨hlt, .popped (List.Sublist.refl _) (hw.cons_cons _) rfl (.inr ⟨?_, rfl⟩)⟩
    simp only at hlt ⊢
    omega
  | endRandom w =>
    rcases List.mem_append.1 h with h | h
    · obtain ⟨top, rest, rfl, hw, rfl, hlt⟩ := mem_close h
      -- The range of the last chance ends on the line before, and that of the group on this one.
      have hkept := (fst_close_sublist source [.startRandom] (line source w.start) _).trans hw
      refine ⟨hlt, .popped (List.Sublist.refl _) (hkept.cons _) rfl (.inr ⟨?_, rfl⟩)⟩
      simp only at hlt ⊢
      omega
    · obtain ⟨top, rest, hs, hw, rfl, hlt⟩ := mem_close h
      exact ⟨hlt, .popped (hs ▸ fst_close_sublist source [.percentChance] _ waiting) (hw.cons _) rfl (.inl rfl)⟩
  | _ => simp [step] at h

theorem Ends.exists_le {waiting : List Atom} {a : Atom} {r : Range} (h : Ends source waiting a r) :
    ∃ w ∈ a.words, r.2 ≤ line source w.start := by
  cases h with
  | own hc hr _ => exact ⟨_, hc, by rw [hr]⟩
  | popped _ _ _ hlast => exact ⟨a.head, List.mem_cons_self, by rw [Atom.start] at hlast; omega⟩

/-- The range of a branch that ends before the atom that divides it from the next: `atoms` are read while `waiting` wait
to be closed. -/
def CutShort (source : Text) (waiting atoms : List Atom) (r : Range) : Prop :=
  ∃ seen next ahead, atoms = seen ++ next :: ahead ∧ r ∈ (step source (waitingAfter source waiting seen) next).2 ∧
    next.kind.divides = true ∧ line source next.start = r.2 + 1

/-- How a range lies to one that ends later: before it, or inside of it, or inside but for the last line. -/
def Fits (source : Text) (waiting atoms : List Atom) (r r' : Range) : Prop :=
  r.2 ≤ r'.1 ∨ r'.1 ≤ r.1 ∧ (r.2 ≤ r'.2 ∨ r.2 = r'.2 + 1 ∧ CutShort source waiting atoms r')

theorem CutShort.cons {waiting rest : List Atom} {a : Atom} {r : Range}
    (h : CutShort source (step source waiting a).1 rest r) : CutShort source waiting (a :: rest) r := by
  obtain ⟨seen, next, ahead, rfl, hr⟩ := h
  exact ⟨a :: seen, next, ahead, rfl, hr⟩

theorem exists_step_of_mem_run {waiting atoms : List Atom} {r : Range} (h : r ∈ run source waiting atoms) :
    ∃ seen next ahead, atoms = seen ++ next :: ahead ∧ r ∈ (step source (waitingAfter source waiting seen) next).2 := by
  induction atoms generalizing waiting with
  | nil => simp [run] at h
  | cons a rest ih =>
    rcases List.mem_append.1 h with h | h
    · exact ⟨[], a, rest, rfl, h⟩
    · obtain ⟨seen, next, ahead, rfl, hr⟩ := ih h
      exact ⟨a :: seen, next, ahead, rfl, hr⟩

theorem waitingAfter_subset (waiting atoms : List Atom) : waitingAfter source waiting atoms ⊆ waiting ++ atoms := by
  induction atoms generalizing waiting with
  | nil => simp [waitingAfter]
  | cons a rest ih =>
    intro o ho
    rcases List.mem_append.1 (ih _ ho) with ho | ho
    · rcases List.mem_cons.1 ((fst_step_sublist waiting a).subset ho) with rfl | ho <;> simp [*]
    · simp [ho]

theorem pairwise_range (R : Range → Range → Prop) (first last : Nat) : (range first last).Pairwise R := by
  rw [range]
  split
  · exact List.pairwise_singleton R _
  · exact .nil

theorem pairwise_close (R : Range → Range → Prop) (kinds : List Atom.Kind) (last : Nat) (waiting : List Atom) :
    (close source kinds last waiting).2.Pairwise R := by
  cases waiting with
  | nil => exact .nil
  | cons top rest =>
    rw [close]
    split
    · exact pairwise_range R _ _
    · exact .nil

section Order

variable {waiting : List Atom} (hw : waiting.reverse.Pairwise Atom.Precedes)

include hw

theorem line_le_of_sublist {o x : Atom} {kept : List Atom} (hs : (o :: kept).Sublist waiting) (hx : x ∈ kept) :
    line source x.start ≤ line source o.start := by
  have hkept := (List.pairwise_reverse.1 hw).sublist hs
  exact line_mono source ((List.pairwise_cons.1 hkept).1 x hx).start_le

/-- An atom ends at most one range, but for the end of a random group, which ends that of the last chance and that of
the group around it. -/
theorem pairwise_step (atoms : List Atom) (a : Atom) :
    (step source waiting a).2.Pairwise (Fits source waiting atoms) := by
  cases a with
  | comment opener content closer stop =>
    cases closer with
    | none => exact .nil
    | some closer => exact pairwise_range _ _ _
  | closeBlock | endIf | percentChance => exact pairwise_close _ _ _ waiting
  | elseIf | elseThen => exact (branch_eq_close _ waiting).2 ▸ pairwise_close _ _ _ waiting
  | endRandom w =>
    refine List.pairwise_append.2 ⟨pairwise_close _ _ _ _, pairwise_close _ _ _ _, fun r hr r' hr' => ?_⟩
    obtain ⟨chance, rest, rfl, hrest, rfl, -⟩ := mem_close hr
    obtain ⟨group, kept, hs, -, rfl, -⟩ := mem_close hr'
    have hinner : (group :: kept).Sublist rest := by
      rw [← hs]
      exact hrest
    exact .inr ⟨line_le_of_sublist hw (List.Sublist.refl _) (hinner.subset List.mem_cons_self), .inl (Nat.sub_le _ 1)⟩
  | _ => exact .nil

/-- What waits on after a range has ended is further out, or starts where the range ends. -/
theorem Ends.le_or_le {a : Atom} {r : Range} (h : Ends source waiting a r) (ha : ∀ o ∈ waiting, o.Precedes a) {x : Atom}
    (hx : x ∈ (step source waiting a).1) : r.2 ≤ line source x.start ∨ line source x.start ≤ r.1 := by
  cases h with
  | own hc hr hstay =>
    rw [hstay] at hx
    rw [hr]
    exact .inr (line_mono source (ha x hx).start_le)
  | popped hs hstay hfirst hlast =>
    rcases List.mem_cons.1 (hstay.subset hx) with rfl | hx
    · exact .inl (by omega)
    · exact .inr (hfirst ▸ line_le_of_sublist hw hs hx)

end Order

theorem fits_later {waiting rest : List Atom} {a : Atom} (h : (waiting.reverse ++ a :: rest).Pairwise Atom.Precedes)
    {r r' : Range} (hr : r ∈ (step source waiting a).2) (hr' : r' ∈ run source (step source waiting a).1 rest) :
    Fits source waiting (a :: rest) r r' := by
  obtain ⟨hwaiting, hatoms, hbefore⟩ := List.pairwise_append.1 h
  have hends := (ends_of_mem_step hr).2
  obtain ⟨seen, next, ahead, hrest, hmem⟩ := exists_step_of_mem_run hr'
  have hlater : ∀ b ∈ rest, r.2 ≤ line source b.start := by
    intro b hb
    obtain ⟨w, hw, hle⟩ := hends.exists_le
    exact Nat.le_trans hle (line_mono source ((List.pairwise_cons.1 hatoms).1 b hb w hw))
  have hnext : r.2 ≤ line source next.start := hlater next (by simp [hrest])
  cases (ends_of_mem_step hmem).2 with
  | own _ he _ => exact .inl (by rw [he]; exact hnext)
  | @popped o kept hs _ hfirst hlast =>
    rcases List.mem_append.1 (waitingAfter_subset _ _ (hs.subset List.mem_cons_self)) with ho | ho
    · have ha : ∀ x ∈ waiting, x.Precedes a := fun x hx => hbefore x (List.mem_reverse.2 hx) a List.mem_cons_self
      rw [Fits, hfirst]
      refine (hends.le_or_le hwaiting ha ho).imp_right fun hle => ⟨hle, ?_⟩
      -- The later range ends with `next`, on its line or, if `next` divides, on the line before.
      rcases hlast with hlast | ⟨hlast, hdivides⟩
      · exact .inl (hlast ▸ hnext)
      · by_cases hcut : r.2 ≤ r'.2
        · exact .inl hcut
        · exact .inr ⟨by omega, a :: seen, next, ahead, by rw [hrest]; rfl, hmem, hdivides, hlast.symm⟩
    · exact .inl (hfirst ▸ hlater o (by simp [hrest, ho]))

theorem pairwise_run {waiting atoms : List Atom} (h : (waiting.reverse ++ atoms).Pairwise Atom.Precedes) :
    (run source waiting atoms).Pairwise (Fits source waiting atoms) := by
  induction atoms generalizing waiting with
  | nil => exact .nil
  | cons a rest ih =>
    have hkept : ((step source waiting a).1.reverse ++ rest).Sublist (waiting.reverse ++ a :: rest) := by
      simpa using (fst_step_sublist waiting a).reverse.append (List.Sublist.refl rest)
    have hrest : (run source (step source waiting a).1 rest).Pairwise (Fits source waiting (a :: rest)) :=
      (ih (h.sublist hkept)).imp fun hf =>
        hf.imp_right fun hf => ⟨hf.1, hf.2.imp_right fun hc => ⟨hc.1, hc.2.cons⟩⟩
    exact List.pairwise_append.2
      ⟨pairwise_step (List.pairwise_append.1 h).1 _ a, hrest, fun r hr r' hr' => fits_later h hr hr'⟩

def Inside (r r' : Range) : Prop := r'.1 ≤ r.1 ∧ r.2 ≤ r'.2

theorem fits_of_mem {r r' : Range} (hr : r ∈ ranges source) (hr' : r' ∈ ranges source) :
    r = r' ∨ Fits source [] (Atom.parse 0 source) r r' ∨ Fits source [] (Atom.parse 0 source) r' r := by
  let Either := fun r r' =>
    Fits source [] (Atom.parse 0 source) r r' ∨ Fits source [] (Atom.parse 0 source) r' r
  have hsymm : Std.Symm Either := ⟨fun _ _ => Or.symm⟩
  have hfits : (ranges source).Pairwise Either :=
    (pairwise_run (by simpa using Atom.parse_precedes 0 source)).imp Or.inl
  exact or_iff_not_imp_left.2 (hfits.forall hr hr')

/-- Ranges have more than one line, end within the text, and lie apart (up to a line in common) or one inside of the
other, but for one case: the range of a branch ends on the line before the atom that divides it from the next one, and
then the range of something inside of it may end on the line of that atom. -/
theorem ranges_nested_or_cut (source : Text) :
    (∀ r ∈ ranges source, r.1 < r.2 ∧ r.2 < (Text.lineStarts source).length) ∧
      ∀ r ∈ ranges source, ∀ r' ∈ ranges source, r.1 ≤ r'.1 →
        r.2 ≤ r'.1 ∨ Inside r' r ∨ Inside r r' ∨ r'.2 = r.2 + 1 ∧ CutShort source [] (Atom.parse 0 source) r := by
  have hends : ∀ r ∈ ranges source, r.1 < r.2 ∧ r.2 < (Text.lineStarts source).length := by
    intro r hr
    obtain ⟨seen, next, ahead, -, hmem⟩ := exists_step_of_mem_run hr
    obtain ⟨hlt, hends⟩ := ends_of_mem_step hmem
    obtain ⟨w, -, hle⟩ := hends.exists_le
    exact ⟨hlt, Nat.lt_of_le_of_lt hle (line_lt source w.start)⟩
  refine ⟨hends, fun r hr r' hr' hle => ?_⟩
  have hlt := (hends r' hr').1
  rcases fits_of_mem hr hr' with rfl | hfits | hfits
  · exact .inr (.inl ⟨Nat.le_refl _, Nat.le_refl _⟩)
  · rcases hfits with hapart | ⟨hstart, -⟩
    · exact .inl hapart
    · -- Both start on one line, so the longer one has the other inside.
      rcases Nat.le_total r'.2 r.2 with hstop | hstop
      · exact .inr (.inl ⟨hle, hstop⟩)
      · exact .inr (.inr (.inl ⟨hstart, hstop⟩))
  · rcases hfits with hapart | ⟨hstart, hstop | hcut⟩
    · omega
    · exact .inr (.inl ⟨hstart, hstop⟩)
    · exact .inr (.inr (.inr hcut))

def sharedLine : Text := "if A\n\x7b\nx\n\x7d else\nendif"

theorem sharedLine_ranges_cross : ∃ r ∈ ranges sharedLine, ∃ r' ∈ ranges sharedLine,
    r.1 ≤ r'.1 ∧ ¬ (r.2 ≤ r'.1 ∨ r'.2 ≤ r.2) ∧ ¬ Inside r r' := by
  have hranges : (0, 2) ∈ ranges sharedLine ∧ (1, 3) ∈ ranges sharedLine := by decide +kernel
  exact ⟨(0, 2), hranges.1, (1, 3), hranges.2, by decide, by decide, fun h => absurd h.1 (by decide)⟩

end Fold

end MapScript
