import MapScript.Text.Basic

/-! How alike two texts are, and which of several candidates a text was most likely meant to be. The measure
takes the longest common stretch, then does the same on both sides of it, and adds up what it took. -/

namespace MapScript.Similar

structure Stretch where
  left : Nat
  right : Nat
  size : Nat

def common : Text → Text → Nat
  | a :: s, b :: t => if a = b then common s t + 1 else 0
  | _, _ => 0

/-- The lengths of the stretches that end at `a` and at each glyph of `right`, from those that end one glyph
earlier in both. A crowd glyph ends no stretch. -/
def endingAt (crowd : Text) (a : Glyph) (earlier : List Nat) (right : Text) : List Nat :=
  List.zipWith (fun size b => if b = a && !crowd.contains b then size + 1 else 0) (0 :: earlier) right

def longer (i : Nat) : Nat → List Nat → Stretch → Stretch
  | _, [], best => best
  | j, size :: rest, best =>
    longer i (j + 1) rest (if best.size < size then ⟨i + 1 - size, j + 1 - size, size⟩ else best)

def search (crowd right : Text) : Nat → List Nat → Stretch → Text → Stretch
  | _, _, best, [] => best
  | i, earlier, best, a :: rest =>
    let sizes := endingAt crowd a earlier right
    search crowd right (i + 1) sizes (longer i 0 sizes best) rest

/-- The first longest stretch, widened over crowd glyphs on both sides. -/
def longest (crowd left right : Text) : Stretch :=
  let s := search crowd right 0 (right.map fun _ => 0) ⟨0, 0, 0⟩ left
  let before := common (left.take s.left).reverse (right.take s.right).reverse
  let after := common (left.drop (s.left + s.size)) (right.drop (s.right + s.size))
  ⟨s.left - before, s.right - before, before + s.size + after⟩

def matched (crowd left right : Text) : Nat :=
  match longest crowd left right with
  | ⟨i, j, size⟩ =>
    if _h : 0 < size ∧ i < left.length then
      matched crowd (left.take i) (right.take j) + size
        + matched crowd (left.drop (i + size)) (right.drop (j + size))
    else 0
termination_by left.length
decreasing_by
  · simp only [List.length_take]; omega
  · simp only [List.length_drop]; omega

/-- In a text of 200 glyphs or more, the glyphs that make up more than about a hundredth of it. -/
def crowdOf (t : Text) : Text :=
  if t.length < 200 then [] else t.eraseDups.filter fun g => t.length / 100 + 1 < t.count g

structure Score where
  matched : Nat
  total : Nat

namespace Score

def between (crowd left right : Text) : Score :=
  if left.length + right.length = 0 then ⟨1, 1⟩
  else ⟨2 * Similar.matched crowd left right, left.length + right.length⟩

def isClose (s : Score) : Bool := 4 * s.total ≤ 5 * s.matched

def lt (s t : Score) : Bool := s.matched * t.total < t.matched * s.total

end Score

/-- The better of two candidates; of equally good ones the later in dictionary order. -/
def better (best : Option (Score × Text)) (score : Score) (candidate : Text) : Option (Score × Text) :=
  match best with
  | none => some (score, candidate)
  | some (top, name) =>
    if top.lt score || (!score.lt top && Text.le name candidate) then some (score, candidate) else best

def consider (text crowd : Text) (best : Option (Score × Text)) (candidate : Text) :
    Option (Score × Text) :=
  let bound : Score := ⟨2 * min candidate.length text.length, candidate.length + text.length⟩
  if bound.isClose then
    let score := Score.between crowd candidate text
    if score.isClose then better best score candidate else best
  else best

end MapScript.Similar

namespace MapScript.Text

def closest? (text : Text) (candidates : List Text) : Option Text :=
  (candidates.foldl (Similar.consider text (Similar.crowdOf text)) none).map (·.2)

end MapScript.Text
