import MapScript.Layout.Write
import MapScript.Proofs.Grouping
import MapScript.Proofs.Trees

/-! Layout as a run of strokes, one for each atom: the tree only says where and in which form an atom is
written. -/

namespace MapScript.Layout

inductive Form where
  /-- With the space before it. A command that is `beforeBlock` does not end its line, and what stands `apart`
  has an empty line after it. -/
  | written (beforeBlock apart : Bool)
  | line
  /-- As a chance filled up to a length, on one line with the statement after it unless it is `empty`. -/
  | short (length : Nat) (empty : Bool)
deriving DecidableEq

structure Stroke where
  place : Place
  atom : Atom
  form : Form

def commentInner (o : Options) (indent : Nat) (first : Text) (rest : List Text) : Text :=
  (if first.isEmpty then [] else (" " : Text) ++ first)
    ++ (rest.flatMap fun line => o.lineEnding ++ (o.indentation indent ++ Job.commentLine line))
    ++ ((if rest.isEmpty then [] else o.lineEnding ++ o.indentation indent) ++ (" " : Text))

/-- The text of an atom without the space around it. -/
def phrase (o : Options) (place : Place) : Atom → Text
  | .sectionMark name => name.text
  | .define _ name => Text.join " " ["#define", name.text]
  | .undefine _ name => Text.join " " ["#undefine", name.text]
  | .const _ name (some value) => Text.join " " ["#const", name.text, value.text]
  | .const _ name none => Text.join " " ["#const", name.text]
  | .command name args => name.text ++ (Job.arguments ⟨o, []⟩ place.width name args).flatten
  | .comment _ content _ _ =>
    Item.openMark ++ (commentInner o place.indent (Text.trim ((Text.feedLines content).headD []))
      (Job.dropBlankEnd (Text.feedLines content).tail) ++ Item.closeMark)
  | .other word => word.text
  | .ifThen _ condition => Text.join " " ["if", condition.text]
  | .elseIf _ condition => Text.join " " ["elseif", condition.text]
  | .elseThen _ => "else"
  | .endIf _ => "endif"
  | .startRandom _ => "start_random"
  | .percentChance _ chance => Text.join " " ["percent_chance", chance.text]
  | .endRandom _ => "end_random"
  | .openBlock _ => "\x7b"
  | .closeBlock _ => "\x7d"

namespace Stroke

def write (job : Job) (out : Output) (s : Stroke) : Output :=
  match s.form with
  | .written beforeBlock apart =>
    let out := job.atom s.place beforeBlock out s.atom
    if apart then out.newline job.options else out
  | .line =>
    (if s.atom.kind = .closeBlock then job.endStray out else out).statement job.options s.place.indent
      [phrase job.options s.place s.atom]
  | .short length empty =>
    let out := out.write job.options s.place.indent
      (Text.padRight (phrase job.options s.place s.atom) length)
    if empty then out.newline job.options else (out.raw " ").setLast none

def run (job : Job) (out : Output) (strokes : List Stroke) : Output := strokes.foldl (write job) out

theorem run_append (job : Job) (out : Output) (xs ys : List Stroke) :
    run job out (xs ++ ys) = run job (run job out xs) ys := List.foldl_append

end Stroke

def standsApart (place : Place) : Option Node → Bool
  | some next => !place.inBlock && !next.isBlock
  | none => false

mutual
def strokesOf (o : Options) (place : Place) (next : Option Node) : Node → List Stroke
  | .single a => [⟨Job.placeOf place a, a, .written (next.any Node.isBlock) false⟩]
  | .block opener body closer =>
    ⟨place, opener, .written false false⟩
      :: (strokes o (Job.blockPlace ⟨o, []⟩ place body) body
        ++ closer.toList.map fun c => ⟨place, c, .line⟩)
  | .condition opener body closer =>
    ⟨place, opener, .written false false⟩
      :: (strokes o (Job.conditionPlace ⟨o, []⟩ place) body
        ++ closer.toList.map fun c => ⟨place, c, .written false (standsApart place next)⟩)
  | .random opener leading chances closer =>
    ⟨place, opener, .written false false⟩
      :: (strokes o (Job.randomPlace place) leading
        ++ (chanceStrokes o (Job.randomPlace place) (chances.all Job.isShortChance)
            (Job.chanceLength chances) chances
          ++ closer.toList.map fun c => ⟨place, c, .line⟩))
  | .chance _ _ => []

def strokes (o : Options) (place : Place) : List Node → List Stroke
  | [] => []
  | n :: rest => strokesOf o place rest.head? n ++ strokes o place rest

def chanceStrokes (o : Options) (place : Place) (short : Bool) (length : Nat) :
    List Node → List Stroke
  | [] => []
  | .chance head body :: rest =>
    (if short then ⟨place, head, .short length body.isEmpty⟩ :: strokes o place body
      else ⟨place, head, .line⟩ :: strokes o (Job.chancePlace place) body)
      ++ chanceStrokes o place short length rest
  | _ :: rest => chanceStrokes o place short length rest
end

theorem phrase_closeBlock (o : Options) (place : Place) {a : Atom} (h : a.kind = .closeBlock) :
    phrase o place a = "\x7d" := by
  cases a <;> simp [Atom.kind] at h
  rfl

theorem phrase_endRandom (o : Options) (place : Place) {a : Atom} (h : a.kind = .endRandom) :
    phrase o place a = "end_random" := by
  cases a <;> simp [Atom.kind] at h
  rfl

theorem chanceText_eq_phrase (o : Options) (place : Place) {head : Atom} (h : head.kind = .percentChance) :
    Job.chanceText head = phrase o place head := by
  cases head <;> simp [Atom.kind] at h
  rfl

theorem closeCondition_eq (job : Job) (place : Place) (next : Option Node) (out : Output)
    (closer : Atom) :
    job.closeCondition place next out closer
      = if standsApart place next then (job.atom place false out closer).newline job.options
        else job.atom place false out closer := by
  cases next <;> rfl

open Node Stroke in
theorem chances_eq_run {job : Job} {ps : List (Atom × List Atom)}
    (hk : ∀ p ∈ ps, p.1.kind = .percentChance)
    (hp : ∀ p ∈ ps, ∀ place out,
      job.nodes place out (group p.2) = run job out (strokes job.options place (group p.2)))
    (place : Place) (short : Bool) (length : Nat) (out : Output) :
    job.chances place short length out (ps.map fun p => .chance p.1 (group p.2))
      = run job out (chanceStrokes job.options place short length
          (ps.map fun p => .chance p.1 (group p.2))) := by
  induction ps generalizing out with
  | nil => rfl
  | cons p ps ih =>
    have hrest := ih (fun q hq => hk q (by simp [hq])) (fun q hq => hp q (by simp [hq]))
    have hhead := chanceText_eq_phrase job.options place (hk p (by simp))
    have hbody := hp p (by simp)
    rw [List.map_cons, Job.chances, chanceStrokes, run_append, ← hrest]
    congr 1
    by_cases hs : short = true
    · by_cases he : group p.2 = []
      · simp [hs, he, strokes, run, write, hhead]
      · simp [hs, he, hbody, run, write, hhead]
    · simp [hs, hbody, run, write, hk p (by simp), hhead, Output.statement, Text.join]

open Node Stroke in
/-- Writing a tidy script is a run of its strokes. -/
theorem nodes_eq_run {b : Bool} {atoms : List Atom} (h : Tidy b atoms) (job : Job) (place : Place)
    (out : Output) :
    job.nodes place out (group atoms) = run job out (strokes job.options place (group atoms)) := by
  induction h generalizing place out with
  | nil => simp [group, Job.nodes, strokes, run]
  | single ha _ ih =>
    rw [group_single ha, Job.nodes, ih, strokes, run_append]
    rfl
  | block ho hb hc _ ihb ihr =>
    rw [group_block ho hb hc, Job.nodes, ihr, strokes, run_append, Job.node, ihb]
    congr 1
    simp only [strokesOf, run, write, List.foldl_cons, List.foldl_append, List.foldl_nil,
      Option.toList_some, List.map_cons, List.map_nil, hc, if_true, phrase_closeBlock _ _ hc]
    rfl
  | condition ho hb hc _ ihb ihr =>
    rw [group_condition ho hb hc, Job.nodes, ihr, strokes, run_append, Job.node, ihb]
    congr 1
    simp only [strokesOf, run, write, List.foldl_cons, List.foldl_append, List.foldl_nil,
      Option.toList_some, List.map_cons, List.map_nil]
    rw [closeCondition_eq]
    rfl
  | random ho hl hk hp hc _ ihl ihp ihr =>
    rw [group_random ho hl hk hp hc, Job.nodes, ihr, strokes, run_append, Job.node, ihl,
      chances_eq_run hk ihp]
    congr 1
    simp only [strokesOf, run, write, List.foldl_cons, List.foldl_append, List.foldl_nil,
      Option.toList_some, List.map_cons, List.map_nil, hc, phrase_endRandom _ _ hc]
    rfl

section Tidy

open Node

theorem group_cons (a : Atom) (rest : List Atom) :
    ∃ n ns, group (a :: rest) = n :: ns ∧ n.isBlock = (a.kind == .openBlock) := by
  rw [group]
  cases hk : a.kind <;> exact ⟨_, _, rfl, rfl⟩

def startsBlock (atoms : List Atom) : Bool := atoms.head?.any fun a => a.kind == .openBlock

theorem head?_group_isBlock (atoms : List Atom) : (group atoms).head?.any isBlock = startsBlock atoms := by
  cases atoms with
  | nil => simp [group, startsBlock]
  | cons a rest =>
    obtain ⟨n, ns, hg, hb⟩ := group_cons a rest
    simp [hg, hb, startsBlock]

theorem standsApart_group (place : Place) (atoms : List Atom) :
    standsApart place (group atoms).head?
      = (!atoms.isEmpty && (!place.inBlock && !startsBlock atoms)) := by
  cases atoms with
  | nil => simp [group, standsApart]
  | cons a rest =>
    obtain ⟨n, ns, hg, hb⟩ := group_cons a rest
    simp [hg, hb, standsApart, startsBlock]

def fitsOnLine : List Atom → Bool
  | [] => true
  | [a] => Job.isShort a
  | _ => false

theorem isShortChance_group (head : Atom) (atoms : List Atom) :
    Job.isShortChance (.chance head (group atoms)) = fitsOnLine atoms := by
  match atoms with
  | [] => simp [group, Job.isShortChance, fitsOnLine]
  | [a] =>
    rw [group]
    cases hk : a.kind <;> simp [group, Job.isShortChance, fitsOnLine, Job.isShort, hk]
  | a :: c :: rest =>
    obtain ⟨n, ns, hg, -⟩ := group_cons c rest
    rw [group]
    cases hk : a.kind <;> simp [hg, Job.isShortChance, fitsOnLine]

theorem isEmpty_group (atoms : List Atom) : (group atoms).isEmpty = atoms.isEmpty := by
  cases atoms with
  | nil => simp [group]
  | cons a rest =>
    obtain ⟨n, ns, hg, -⟩ := group_cons a rest
    simp [hg]

section Rules

variable {b : Bool} (o : Options) (place : Place) {opener closer : Atom} {body leading : List Atom}
  {ps : List (Atom × List Atom)} (rest : List Atom)

theorem strokes_single {a : Atom} (ha : a.kind.isSingle = true) :
    strokes o place (group (a :: rest))
      = ⟨Job.placeOf place a, a, .written (startsBlock rest) false⟩ :: strokes o place (group rest) := by
  rw [group_single ha, strokes, strokesOf, head?_group_isBlock]
  rfl

def inBlockPlace (body : List Atom) : Place :=
  { indent := place.indent + 1
    branchIndent := place.indent + 1
    width := Job.widthOf o.tabSize 0 {} body
    inBlock := true }

theorem strokes_block (ho : opener.kind = .openBlock) (hb : Tidy true body)
    (hc : closer.kind = .closeBlock) :
    strokes o place (group (opener :: (body ++ closer :: rest)))
      = ⟨place, opener, .written false false⟩
        :: (strokes o (inBlockPlace o place body) (group body)
          ++ ⟨place, closer, .line⟩ :: strokes o place (group rest)) := by
  rw [group_block ho hb hc, strokes, strokesOf, Job.blockPlace, allAtoms_group]
  simp [inBlockPlace]

theorem strokes_condition (ho : opener.kind = .ifThen) (hb : Tidy b body) (hc : closer.kind = .endIf) :
    strokes o place (group (opener :: (body ++ closer :: rest)))
      = ⟨place, opener, .written false false⟩
        :: (strokes o (Job.conditionPlace ⟨o, []⟩ place) (group body)
          ++ ⟨place, closer, .written false (!rest.isEmpty && (!place.inBlock && !startsBlock rest))⟩
            :: strokes o place (group rest)) := by
  rw [group_condition ho hb hc, strokes, strokesOf, standsApart_group]
  simp

def chanceOf (short : Bool) (length : Nat) (p : Atom × List Atom) : List Stroke :=
  if short then ⟨place, p.1, .short length p.2.isEmpty⟩ :: strokes o place (group p.2)
  else ⟨place, p.1, .line⟩ :: strokes o (Job.chancePlace place) (group p.2)

def longest (ps : List (Atom × List Atom)) : Nat :=
  ps.foldl (fun n p => max n (Job.chanceText p.1).length) 0

theorem strokes_random (ho : opener.kind = .startRandom) (hl : Tidy b leading)
    (hk : ∀ p ∈ ps, p.1.kind = .percentChance) (hp : ∀ p ∈ ps, Tidy b p.2)
    (hc : closer.kind = .endRandom) :
    strokes o place (group (opener :: (leading ++ (Atom.parts ps ++ closer :: rest))))
      = ⟨place, opener, .written false false⟩
        :: (strokes o (Job.randomPlace place) (group leading)
          ++ (ps.flatMap (chanceOf o (Job.randomPlace place) (ps.all fun p => fitsOnLine p.2) (longest ps))
            ++ ⟨place, closer, .line⟩ :: strokes o place (group rest))) := by
  have hchances : ∀ (inner : Place) (short : Bool) (length : Nat) (qs : List (Atom × List Atom)),
      chanceStrokes o inner short length (qs.map fun p => .chance p.1 (group p.2))
        = qs.flatMap (chanceOf o inner short length) := by
    intro inner short length qs
    induction qs with
    | nil => rfl
    | cons q qs ih =>
      rw [List.map_cons, chanceStrokes, ih, List.flatMap_cons, chanceOf, isEmpty_group]
  have hlength : Job.chanceLength (ps.map fun p => .chance p.1 (group p.2)) = longest ps := by
    rw [Job.chanceLength, List.foldl_map]
    rfl
  rw [group_random ho hl hk hp hc, strokes, strokesOf, hchances, hlength]
  simp [isShortChance_group, Function.comp_def]

end Rules

theorem map_atom_strokes {b : Bool} {atoms : List Atom} (h : Tidy b atoms) (o : Options) (place : Place) :
    (strokes o place (group atoms)).map Stroke.atom = atoms := by
  induction h generalizing place with
  | nil => simp [group, strokes]
  | single ha _ ih => simp [strokes_single _ _ _ ha, ih]
  | block ho hb hc _ ihb ihr => simp [strokes_block _ _ _ ho hb hc, ihb, ihr]
  | condition ho hb hc _ ihb ihr => simp [strokes_condition _ _ _ ho hb hc, ihb, ihr]
  | @random _ opener leading chances closer rest ho hl hk hp hc _ ihl ihp ihr =>
    have hparts : ∀ inner short length,
        (chances.flatMap (chanceOf o inner short length)).map Stroke.atom = Atom.parts chances := by
      intro inner short length
      rw [List.map_flatMap, Atom.parts, List.flatMap_congr]
      intro p hm
      cases short <;> simp [chanceOf, ihp p hm]
    simp [strokes_random _ _ _ ho hl hk hp hc, ihl, ihr, hparts]

end Tidy

end MapScript.Layout
