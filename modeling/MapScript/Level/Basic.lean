import MapScript.Text.Blank

/-! The versions of the game that a script can be written for. -/

namespace MapScript

inductive Level where
  /-- Every version; as good as the Conquerors. -/
  | all
  | conquerors
  | hdEdition
  | userPatch14
  | userPatch15
  /-- UserPatch 1.5 with the units and terrains of the HD Edition. -/
  | wololoKingdoms
  | definitiveEdition
deriving DecidableEq, Repr

namespace Level

def rank : Level → Nat
  | .all => 0
  | .conquerors => 1
  | .hdEdition => 2
  | .userPatch14 => 3
  | .userPatch15 => 4
  | .wololoKingdoms => 5
  | .definitiveEdition => 6

instance : LE Level := ⟨fun a b => a.rank ≤ b.rank⟩

instance (a b : Level) : Decidable (a ≤ b) := inferInstanceAs (Decidable (a.rank ≤ b.rank))

def names : List (Text × Level) :=
  [("hd edition", .hdEdition), ("hd", .hdEdition), ("conquerors", .conquerors), ("aoc", .conquerors),
   ("userpatch 1.5", .userPatch15), ("up 1.5", .userPatch15), ("userpatch 1.4", .userPatch14),
   ("up 1.4", .userPatch14), ("userpatch", .userPatch14), ("up", .userPatch14),
   ("wololokingdoms", .wololoKingdoms), ("wk", .wololoKingdoms),
   ("definitive edition", .definitiveEdition), ("de", .definitiveEdition), ("all", .all)]

def ofName? (name : Text) : Option Level := names.lookup (Text.lower (Text.trim name))

end Level

end MapScript
