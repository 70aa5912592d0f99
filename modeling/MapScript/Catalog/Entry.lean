import MapScript.Text.Basic

/-! What the catalog knows about a name: where it may stand and which arguments it takes. -/

namespace MapScript

inductive ArgType where
  | word
  | number
  | token
  /-- A name that may be defined or not. -/
  | optionalToken
  | fileName
deriving DecidableEq, Repr

inductive Place where
  | flow
  | sectionMark
  | command
  | topAttribute
  | attribute
deriving DecidableEq, Repr

/-- A place, with the section or the command that it needs there, or a choice of such. -/
inductive Context where
  | one (place : Place) (target : Option Text)
  | anyOf (options : List Context)
deriving Inhabited

namespace Context

mutual
def places : Context → List (Place × Option Text)
  | .one place target => [(place, target)]
  | .anyOf options => allPlaces options

def allPlaces : List Context → List (Place × Option Text)
  | [] => []
  | c :: rest => places c ++ allPlaces rest
end

end Context

structure Entry where
  name : Text
  context : Context
  args : List ArgType
  args_le : args.length ≤ 4 := by decide

namespace Entry

def maxArgs : Nat := 4

def arity (e : Entry) : Nat := e.args.length

def argType? (e : Entry) (n : Int) : Option ArgType :=
  if n < 0 then none else e.args[n.toNat]?

def isSectionMark (e : Entry) : Bool :=
  match e.context with
  | .one .sectionMark _ => true
  | _ => false

def boundSection : Place × Option Text → Option Text
  | (.command, target) => target
  | (.topAttribute, target) => target
  | _ => none

/-- The one section that a name may stand in, unless it is free of sections or may stand in several. -/
def requiredSection (e : Entry) : Option Text :=
  match e.context.places.mapM boundSection with
  | some (first :: rest) => if rest.all (· == first) then some first else none
  | _ => none

inductive Fault where
  | tooMany (name : Text) (count : Nat)
  | sparse (name : Text)

def Fault.message : Fault → Text
  | .tooMany name count =>
    name ++ ": at most " ++ Text.ofNat maxArgs ++ " arguments, got " ++ Text.ofNat count
  | .sparse name => name ++ ": argument slots must not be sparse"

/-- The filled slots, when no filled one follows an empty one. -/
def dense? : List (Option ArgType) → Option (List ArgType)
  | [] => some []
  | some a :: rest => (dense? rest).map (a :: ·)
  | none :: rest => if rest.all Option.isNone then some [] else none

theorem length_dense?_le {slots : List (Option ArgType)} {args : List ArgType}
    (h : dense? slots = some args) : args.length ≤ slots.length := by
  fun_induction dense? slots generalizing args with
  | case1 => simp_all
  | case2 a rest ih =>
    obtain ⟨more, hm, rfl⟩ := Option.map_eq_some_iff.1 h
    simpa using ih hm
  | case3 => simp_all
  | case4 => simp_all

def ofSlots (name : Text) (context : Context) (slots : List (Option ArgType)) : Except Fault Entry :=
  if hc : slots.length ≤ maxArgs then
    match hd : dense? slots with
    | some args => .ok ⟨name, context, args, Nat.le_trans (length_dense?_le hd) hc⟩
    | none => .error (.sparse name)
  else .error (.tooMany name slots.length)

end Entry

end MapScript
