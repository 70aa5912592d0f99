import Mathlib.Data.List.Basic
import Mathlib.Data.List.TakeWhile
import MapScript.Layout.Tree

/-! The tree of any list of atoms, closed or not: it has the same atoms in the same order, and each construct
has the openers and closers that it should have. -/

namespace MapScript.Layout

/-- Trees whose constructs are opened and closed by the right atoms, as far as they are closed. -/
inductive Grown : List Node → Prop
  | nil : Grown []
  | single {a rest} (hr : Grown rest) : Grown (.single a :: rest)
  | block {opener body closer rest} (ho : opener.kind = .openBlock) (hb : Grown body)
      (hc : ∀ c ∈ closer, Atom.kind c = .closeBlock) (hr : Grown rest) : Grown (.block opener body closer :: rest)
  | condition {opener body closer rest} (ho : opener.kind = .ifThen) (hb : Grown body)
      (hc : ∀ c ∈ closer, Atom.kind c = .endIf) (hr : Grown rest) :
      Grown (.condition opener body closer :: rest)
  | random {opener leading closer rest} {chances : List (Atom × List Node)} (ho : opener.kind = .startRandom)
      (hl : Grown leading) (hk : ∀ p ∈ chances, p.1.kind = .percentChance) (hp : ∀ p ∈ chances, Grown p.2)
      (hc : ∀ c ∈ closer, Atom.kind c = .endRandom) (hr : Grown rest) :
      Grown (.random opener leading (chances.map fun p => .chance p.1 p.2) closer :: rest)

theorem kind_of_untilBrace {atoms : List Atom} {c : Atom} (h : c ∈ (untilBrace atoms).2.head?) :
    c.kind = .closeBlock := by
  rw [untilBrace, Option.mem_def] at h
  have hn := List.head?_dropWhile_not (·.kind != Atom.Kind.closeBlock) atoms
  rw [h] at hn
  simpa using hn

theorem kind_of_untilMatch {opens closes : Atom.Kind} {depth : Nat} {atoms : List Atom} {c : Atom}
    (h : c ∈ (untilMatch opens closes depth atoms).2.head?) : c.kind = closes := by
  fun_induction untilMatch opens closes depth atoms <;> simp_all

theorem kind_of_cutChances {depth : Nat} {atoms : List Atom} {c : Atom × List Atom}
    (h : c ∈ (cutChances depth atoms).2) : c.1.kind = .percentChance := by
  fun_induction cutChances depth atoms with
  | case1 => simp at h
  | case2 depth a rest hk body chances he ih =>
    cases List.mem_cons.1 h with
    | inl h => rw [h]; exact hk.1
    | inr h => exact ih (by rwa [he])
  | case3 depth a rest hk next leading chances he ih => exact ih (by rwa [he])

namespace Node

theorem attach_chances (chances : List (Atom × List Atom)) :
    (chances.attach.map fun c => Node.chance c.1.1 (group c.1.2))
      = (chances.map fun c => (c.1, group c.2)).map fun p => .chance p.1 p.2 := by
  rw [List.map_map]
  exact List.attach_map_val (f := fun c : Atom × List Atom => Node.chance c.1 (group c.2))

theorem grown_group (atoms : List Atom) : Grown (group atoms) := by
  fun_induction group atoms with
  | case1 => exact .nil
  | case2 a rest hk ihb ihr => exact .block hk ihb (fun c => kind_of_untilBrace) ihr
  | case3 a rest hk ihb ihr => exact .condition hk ihb (fun c => kind_of_untilMatch) ihr
  | case4 a rest hk ihl ihc ihr =>
    rw [attach_chances]
    refine .random hk ihl (fun p hp => ?_) (fun p hp => ?_) (fun c => kind_of_untilMatch) ihr
    · obtain ⟨c, hc, rfl⟩ := List.mem_map.1 hp
      exact kind_of_cutChances hc
    · obtain ⟨c, hc, rfl⟩ := List.mem_map.1 hp
      exact ihc ⟨c, hc⟩
  | case5 a rest _ _ _ ih => exact .single ih

theorem allAtoms_chances (chances : List (Atom × List Node)) :
    allAtoms (chances.map fun p => .chance p.1 p.2) = chances.flatMap fun p => p.1 :: allAtoms p.2 := by
  induction chances with
  | nil => rfl
  | cons p chances ih => rw [List.map_cons, allAtoms, ih, List.flatMap_cons, Node.atoms]

theorem allAtoms_group (atoms : List Atom) : allAtoms (group atoms) = atoms := by
  have hcut : ∀ xs : List Atom, xs.head?.toList ++ xs.tail = xs := by
    intro xs
    cases xs <;> rfl
  fun_induction group atoms with
  | case1 => rfl
  | case2 a rest hk ihb ihr =>
    rw [allAtoms, Node.atoms, ihb, ihr, List.cons_append, List.append_assoc, hcut, untilBrace_append]
  | case3 a rest hk ihb ihr =>
    rw [allAtoms, Node.atoms, ihb, ihr, List.cons_append, List.append_assoc, hcut, untilMatch_append]
  | case4 a rest hk ihl ihc ihr =>
    have hchances : allAtoms (((cutChances 0 (untilMatch .startRandom .endRandom 0 rest).1).2.map fun c =>
          (c.1, group c.2)).map fun p => .chance p.1 p.2)
        = (cutChances 0 (untilMatch .startRandom .endRandom 0 rest).1).2.flatMap fun c => c.1 :: c.2 := by
      rw [allAtoms_chances, List.flatMap_map]
      exact List.flatMap_congr fun c hc => by rw [ihc ⟨c, hc⟩]
    rw [attach_chances, allAtoms, Node.atoms, ihl, hchances, ihr, List.cons_append, List.append_assoc,
      List.append_assoc, hcut, ← List.append_assoc, cutChances_append, untilMatch_append]
  | case5 a rest _ _ _ ih => rw [allAtoms, Node.atoms, ih, List.singleton_append]

end Node

end MapScript.Layout
