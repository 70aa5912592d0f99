import MapScript.Proofs.Separation
import MapScript.Proofs.Trees

/-! What a layout adds to the atoms of a script: an atom that closes for each block and each random group that has
none, and nothing else. -/

namespace MapScript

/-- A list with so many of one thing and so many of another put in. -/
inductive Filled {α : Type} (x y : α) : Nat → Nat → List α → List α → Prop
  | nil : Filled x y 0 0 [] []
  | keep {m n xs ys} (a : α) (h : Filled x y m n xs ys) : Filled x y m n (a :: xs) (a :: ys)
  | first {m n xs ys} (h : Filled x y m n xs ys) : Filled x y (m + 1) n xs (x :: ys)
  | second {m n xs ys} (h : Filled x y m n xs ys) : Filled x y m (n + 1) xs (y :: ys)

namespace Filled

variable {α β : Type} {x y : α} {m n m' n' : Nat} {xs ys xs' ys' : List α}

theorem refl (x y : α) (xs : List α) : Filled x y 0 0 xs xs := by
  induction xs with
  | nil => exact .nil
  | cons a xs ih => exact .keep a ih

theorem append (h : Filled x y m n xs ys) (h' : Filled x y m' n' xs' ys') :
    Filled x y (m + m') (n + n') (xs ++ xs') (ys ++ ys') := by
  induction h with
  | nil => simpa using h'
  | keep a _ ih => exact .keep a ih
  | @first m n _ _ _ ih =>
    rw [Nat.add_right_comm]
    exact .first ih
  | @second m n _ _ _ ih =>
    rw [Nat.add_right_comm n]
    exact .second ih

theorem mem (h : Filled x y m n xs ys) {a : α} (ha : a ∈ ys) : a = x ∨ a = y ∨ a ∈ xs := by
  induction h with
  | nil => simp at ha
  | keep b _ ih =>
    rcases List.mem_cons.1 ha with rfl | ha
    · simp
    · exact (ih ha).imp_right (Or.imp_right (List.mem_cons_of_mem b))
  | first _ ih =>
    rcases List.mem_cons.1 ha with rfl | ha
    · exact .inl rfl
    · exact ih ha
  | second _ ih =>
    rcases List.mem_cons.1 ha with rfl | ha
    · exact .inr (.inl rfl)
    · exact ih ha

theorem flatMap {f : α → List β} {u v : β} (hx : f x = [u]) (hy : f y = [v]) (h : Filled x y m n xs ys) :
    Filled u v m n (xs.flatMap f) (ys.flatMap f) := by
  induction h with
  | nil => exact .nil
  | keep a _ ih => simpa using (Filled.refl u v (f a)).append ih
  | first _ ih => simpa [hx] using Filled.first ih
  | second _ ih => simpa [hy] using Filled.second ih

theorem count [BEq α] [LawfulBEq α] (h : Filled x y m n xs ys) (a : α) :
    ys.count a = xs.count a + (if x == a then m else 0) + (if y == a then n else 0) := by
  induction h with
  | nil => simp
  | keep b _ ih =>
    rw [List.count_cons, List.count_cons, ih]
    omega
  | first _ ih =>
    rw [List.count_cons, ih]
    cases x == a with
    | false => rfl
    | true =>
      simp only [if_true]
      omega
  | second _ ih =>
    rw [List.count_cons, ih]
    cases y == a with
    | false => rfl
    | true => simp only [if_true, Nat.add_assoc]

end Filled

namespace Layout

def newBrace : Atom := .closeBlock ⟨"\x7d", 0, 0⟩

def newEnd : Atom := .endRandom ⟨"end_random", 0, 0⟩

section Closers

variable {closer : Option Atom} (hr : ∀ c ∈ closer, c.IsRead)

include hr

theorem spoken_brace (hk : ∀ c ∈ closer, c.kind = .closeBlock) :
    (closer.getD newBrace).spoken = [Text.ofString "\x7d"] := by
  cases closer with
  | none => decide
  | some c => exact Trail.spoken_closeBlock (hr c rfl) (hk c rfl)

theorem spoken_end (hk : ∀ c ∈ closer, c.kind = .endRandom) :
    (closer.getD newEnd).spoken = [Text.ofString "end_random"] := by
  cases closer with
  | none => decide
  | some c => exact Trail.spoken_endRandom (hr c rfl) (hk c rfl)

end Closers

namespace Node

mutual
/-- The atoms that are written for a construct: its own, and one that closes if it is a block or a random group and
is not closed. -/
def written : Node → List Atom
  | .single atom => [atom]
  | .block opener body closer => opener :: (allWritten body ++ [closer.getD newBrace])
  | .condition opener body closer => opener :: (allWritten body ++ closer.toList)
  | .random opener leading chances closer =>
    opener :: (allWritten leading ++ (allWritten chances ++ [closer.getD newEnd]))
  | .chance head body => head :: allWritten body

def allWritten : List Node → List Atom
  | [] => []
  | node :: rest => written node ++ allWritten rest
end

mutual
def lacking (k : Atom.Kind) : Node → Nat
  | .single _ => 0
  | .block _ body closer => allLacking k body + (if k = .closeBlock ∧ closer = none then 1 else 0)
  | .condition _ body _ => allLacking k body
  | .random _ leading chances closer =>
    allLacking k leading + (allLacking k chances + (if k = .endRandom ∧ closer = none then 1 else 0))
  | .chance _ body => allLacking k body

def allLacking (k : Atom.Kind) : List Node → Nat
  | [] => 0
  | node :: rest => lacking k node + allLacking k rest
end

theorem allWritten_chances (chances : List (Atom × List Node)) :
    allWritten (chances.map fun p => .chance p.1 p.2) = chances.flatMap fun p => p.1 :: allWritten p.2 := by
  induction chances with
  | nil => rfl
  | cons p chances ih => rw [List.map_cons, allWritten, ih, List.flatMap_cons, written]

theorem filled_closer (closer : Option Atom) :
    Filled newBrace newEnd (if closer = none then 1 else 0) 0 closer.toList [closer.getD newBrace] ∧
      Filled newBrace newEnd 0 (if closer = none then 1 else 0) closer.toList [closer.getD newEnd] := by
  cases closer with
  | none => exact ⟨.first .nil, .second .nil⟩
  | some c => exact ⟨.refl _ _ [c], .refl _ _ [c]⟩

theorem filled_chances {chances : List (Atom × List Node)}
    (h : ∀ p ∈ chances, Filled newBrace newEnd (allLacking .closeBlock p.2) (allLacking .endRandom p.2)
      (allAtoms p.2) (allWritten p.2)) :
    Filled newBrace newEnd (allLacking .closeBlock (chances.map fun p => .chance p.1 p.2))
      (allLacking .endRandom (chances.map fun p => .chance p.1 p.2))
      (allAtoms (chances.map fun p => .chance p.1 p.2)) (allWritten (chances.map fun p => .chance p.1 p.2)) := by
  induction chances with
  | nil => exact .nil
  | cons p chances ih =>
    exact (Filled.keep p.1 (h p (by simp))).append (ih fun q hq => h q (by simp [hq]))

/-- What is written are the atoms of the tree, with as many atoms put in that close as there are constructs that lack
one. -/
theorem filled_written {ns : List Node} (hg : Grown ns) :
    Filled newBrace newEnd (allLacking .closeBlock ns) (allLacking .endRandom ns) (allAtoms ns) (allWritten ns) := by
  induction hg with
  | nil => exact .nil
  | @single a rest _ ih => simpa [allLacking, lacking, allAtoms, atoms, allWritten, written] using Filled.keep a ih
  | @block opener body closer rest _ _ _ _ ihb ih =>
    have hclosed := (Filled.keep opener (ihb.append (filled_closer closer).1)).append ih
    simpa [allLacking, lacking, allAtoms, atoms, allWritten, written] using hclosed
  | @condition opener body closer rest _ _ _ _ ihb ih =>
    have hclosed := (Filled.keep opener (ihb.append (Filled.refl _ _ closer.toList))).append ih
    simpa [allLacking, lacking, allAtoms, atoms, allWritten, written] using hclosed
  | @random opener leading closer rest chances _ _ _ _ _ _ ihl ihp ih =>
    have hclosed := (Filled.keep opener (ihl.append ((filled_chances ihp).append (filled_closer closer).2))).append ih
    simpa [allLacking, lacking, allAtoms, atoms, allWritten, written] using hclosed

theorem lacking_chances_le {k opens : Atom.Kind} {chances : List (Atom × List Node)}
    (h : ∀ p ∈ chances, allLacking k p.2 ≤ (allAtoms p.2).countP (·.kind = opens)) :
    allLacking k (chances.map fun p => .chance p.1 p.2) ≤
      (allAtoms (chances.map fun p => .chance p.1 p.2)).countP (·.kind = opens) := by
  induction chances with
  | nil => exact Nat.le_refl 0
  | cons p chances ih =>
    have hp := h p (by simp)
    have hrest := ih fun q hq => h q (by simp [hq])
    simp only [List.map_cons, allLacking, lacking, allAtoms, atoms, List.countP_append, List.countP_cons]
    omega

/-- A construct that lacks an atom that closes has one that opens. -/
theorem allLacking_le {k opens : Atom.Kind}
    (hk : k = .closeBlock ∧ opens = .openBlock ∨ k = .endRandom ∧ opens = .startRandom) {ns : List Node}
    (hg : Grown ns) : allLacking k ns ≤ (allAtoms ns).countP (·.kind = opens) := by
  induction hg with
  | nil => exact Nat.le_refl 0
  | single _ ih =>
    simp only [allLacking, lacking, allAtoms, atoms, List.countP_append]
    omega
  | @block opener body closer rest ho _ _ _ ihb ih =>
    have hopener : (if k = .closeBlock ∧ closer = none then 1 else 0) ≤ if opener.kind = opens then 1 else 0 := by
      rcases hk with ⟨rfl, rfl⟩ | ⟨rfl, rfl⟩
      · rw [if_pos ho]
        split <;> decide
      · simp
    simp only [allLacking, lacking, allAtoms, atoms, List.countP_append, List.countP_cons, decide_eq_true_eq]
    omega
  | condition ho _ _ _ ihb ih =>
    simp only [allLacking, lacking, allAtoms, atoms, List.countP_append, List.countP_cons]
    omega
  | @random opener leading closer rest chances ho _ _ _ _ _ ihl ihp ih =>
    have hchances := lacking_chances_le ihp
    have hopener : (if k = .endRandom ∧ closer = none then 1 else 0) ≤ if opener.kind = opens then 1 else 0 := by
      rcases hk with ⟨rfl, rfl⟩ | ⟨rfl, rfl⟩
      · simp
      · rw [if_pos ho]
        split <;> decide
    simp only [allLacking, lacking, allAtoms, atoms, List.countP_append, List.countP_cons, decide_eq_true_eq]
    omega

end Node

end Layout

end MapScript
