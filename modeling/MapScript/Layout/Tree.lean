import MapScript.Atom.Basic

/-! The constructs of a script as a tree. Every list of atoms has a tree, and the tree has the same atoms in
the same order: what is not closed goes on to the end of what it stands in. A block ends at the first closing
brace, whatever is open in it; a condition and a random group end where their nested ones are counted off. -/

namespace MapScript.Layout

inductive Node where
  | single (atom : Atom)
  | block (opener : Atom) (body : List Node) (closer : Option Atom)
  | condition (opener : Atom) (body : List Node) (closer : Option Atom)
  | random (opener : Atom) (leading chances : List Node) (closer : Option Atom)
  | chance (head : Atom) (body : List Node)

namespace Node

mutual
def atoms : Node → List Atom
  | .single atom => [atom]
  | .block opener body closer => opener :: (allAtoms body ++ closer.toList)
  | .condition opener body closer => opener :: (allAtoms body ++ closer.toList)
  | .random opener leading chances closer =>
    opener :: (allAtoms leading ++ (allAtoms chances ++ closer.toList))
  | .chance head body => head :: allAtoms body

def allAtoms : List Node → List Atom
  | [] => []
  | node :: rest => atoms node ++ allAtoms rest
end

def isBlock : Node → Bool
  | .block .. => true
  | _ => false

end Node

def untilBrace (atoms : List Atom) : List Atom × List Atom :=
  (atoms.takeWhile (·.kind != .closeBlock), atoms.dropWhile (·.kind != .closeBlock))

/-- Up to the closing atom that matches, and from there on; `depth` nested constructs are open. -/
def untilMatch (opens closes : Atom.Kind) : (depth : Nat) → List Atom → List Atom × List Atom
  | _, [] => ([], [])
  | 0, a :: rest =>
    if a.kind = closes then ([], a :: rest)
    else
      let (inner, after) := untilMatch opens closes (if a.kind = opens then 1 else 0) rest
      (a :: inner, after)
  | depth + 1, a :: rest =>
    let next :=
      if a.kind = closes then depth else if a.kind = opens then depth + 2 else depth + 1
    let (inner, after) := untilMatch opens closes next rest
    (a :: inner, after)

/-- The body of a random group cut at its own chances: what comes before them, and each with what comes
after it. Those of the `depth` nested groups that are open do not count. -/
def cutChances : (depth : Nat) → List Atom → List Atom × List (Atom × List Atom)
  | _, [] => ([], [])
  | depth, a :: rest =>
    if a.kind = .percentChance ∧ depth = 0 then
      let (body, chances) := cutChances depth rest
      ([], (a, body) :: chances)
    else
      let next :=
        if a.kind = .startRandom then depth + 1
        else if a.kind = .endRandom then depth - 1
        else depth
      let (leading, chances) := cutChances next rest
      (a :: leading, chances)

theorem untilBrace_append (atoms : List Atom) :
    (untilBrace atoms).1 ++ (untilBrace atoms).2 = atoms :=
  List.takeWhile_append_dropWhile

theorem untilMatch_append (opens closes : Atom.Kind) (depth : Nat) (atoms : List Atom) :
    (untilMatch opens closes depth atoms).1 ++ (untilMatch opens closes depth atoms).2 = atoms := by
  fun_induction untilMatch opens closes depth atoms <;> simp_all

theorem cutChances_append (depth : Nat) (atoms : List Atom) :
    (cutChances depth atoms).1 ++ (cutChances depth atoms).2.flatMap (fun c => c.1 :: c.2) = atoms := by
  fun_induction cutChances depth atoms <;> simp_all

theorem length_untilBrace (atoms : List Atom) :
    (untilBrace atoms).1.length + (untilBrace atoms).2.length = atoms.length := by
  simpa using congrArg List.length (untilBrace_append atoms)

theorem length_untilMatch (opens closes : Atom.Kind) (depth : Nat) (atoms : List Atom) :
    (untilMatch opens closes depth atoms).1.length + (untilMatch opens closes depth atoms).2.length
      = atoms.length := by
  simpa using congrArg List.length (untilMatch_append opens closes depth atoms)

theorem length_leading_le (depth : Nat) (atoms : List Atom) :
    (cutChances depth atoms).1.length ≤ atoms.length := by
  have h := congrArg List.length (cutChances_append depth atoms)
  rw [List.length_append] at h
  omega

theorem length_chance_le {depth : Nat} {atoms : List Atom} {c : Atom × List Atom}
    (h : c ∈ (cutChances depth atoms).2) : c.2.length ≤ atoms.length := by
  have hs : (c.1 :: c.2).Sublist ((cutChances depth atoms).2.flatMap fun c => c.1 :: c.2) := by
    rw [List.flatMap_def]
    exact List.sublist_flatten_of_mem (List.mem_map_of_mem h)
  have hl := congrArg List.length (cutChances_append depth atoms)
  have hc := hs.length_le
  rw [List.length_append] at hl
  rw [List.length_cons] at hc
  omega

namespace Node

def group : List Atom → List Node
  | [] => []
  | a :: rest =>
    match a.kind with
    | .openBlock =>
      .block a (group (untilBrace rest).1) (untilBrace rest).2.head?
        :: group (untilBrace rest).2.tail
    | .ifThen =>
      .condition a (group (untilMatch .ifThen .endIf 0 rest).1)
          (untilMatch .ifThen .endIf 0 rest).2.head?
        :: group (untilMatch .ifThen .endIf 0 rest).2.tail
    | .startRandom =>
      .random a (group (cutChances 0 (untilMatch .startRandom .endRandom 0 rest).1).1)
          ((cutChances 0 (untilMatch .startRandom .endRandom 0 rest).1).2.attach.map fun c =>
            .chance c.1.1 (group c.1.2))
          (untilMatch .startRandom .endRandom 0 rest).2.head?
        :: group (untilMatch .startRandom .endRandom 0 rest).2.tail
    | _ => .single a :: group rest
termination_by atoms => atoms.length
decreasing_by
  all_goals simp only [List.length_cons, List.length_tail]
  · have := length_untilBrace rest; omega
  · have := length_untilBrace rest; omega
  · have := length_untilMatch .ifThen .endIf 0 rest; omega
  · have := length_untilMatch .ifThen .endIf 0 rest; omega
  · have := length_untilMatch .startRandom .endRandom 0 rest
    have := length_leading_le 0 (untilMatch .startRandom .endRandom 0 rest).1
    omega
  · have := length_untilMatch .startRandom .endRandom 0 rest
    have := length_chance_le c.2
    omega
  · have := length_untilMatch .startRandom .endRandom 0 rest; omega
  · omega

end Node

end MapScript.Layout
