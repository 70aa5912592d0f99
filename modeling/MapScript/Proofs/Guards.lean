import MapScript.Proofs.Folding
import MapScript.Proofs.ItemPass

/-! The rule on versions keeps the conditions of the open branches by itself and looks at neither blocks nor random
groups. As long as every atom fits what is open, it has just the conditions of the branches that are open, so that a
command is guarded where an open branch guards it. -/

namespace MapScript

namespace Nesting

/-- What the branch opened by an atom is guarded by; the last branch of a condition has a blank. -/
def guard (n : Nesting) : Text :=
  match n.atom with
  | .ifThen _ condition => condition.text
  | .elseIf _ condition => condition.text
  | _ => " "

def guards (stack : List Nesting) : List Text := (stack.filter fun n => n.opener.isBranch).map guard

theorem guards_cons_of_isBranch {n : Nesting} (h : n.opener.isBranch = true) (stack : List Nesting) :
    guards (n :: stack) = n.guard :: guards stack := by
  simp [guards, h]

theorem isBranch_of_continues {opener : Opener} (h : opener.continues = true) : opener.isBranch = true := by
  cases opener <;> simp_all [Opener.continues, Opener.isBranch]

theorem guardsAfter_plain {a : Atom} (h : a.kind.isMarker = false) (gs : Rule.Compatibility.Guards) :
    Rule.Compatibility.guardsAfter gs a = gs := by
  cases a with
  | const | define | undefine | sectionMark | command | comment | other => rfl
  | _ => simp [Atom.kind, Atom.Kind.isMarker] at h

theorem Move.guardsAfter {s t : List Nesting} {a : Atom} (h : Move s a t) :
    Rule.Compatibility.guardsAfter (guards s) a = guards t := by
  cases h with
  | plain h => exact guardsAfter_plain h _
  | openBlock h | startRandom h | closeBlock h | firstChance h | nextChance h | endRandom h | endChance h =>
    cases a <;> simp [Atom.kind] at h
    rfl
  | ifThen h =>
    cases a <;> simp [Atom.kind] at h
    rfl
  | elseIf h hn | elseThen h hn =>
    cases a <;> simp [Atom.kind] at h
    rw [guards_cons_of_isBranch (isBranch_of_continues hn)]
    rfl
  | endIf h hn =>
    cases a <;> simp [Atom.kind] at h
    rw [guards_cons_of_isBranch hn]
    rfl

theorem mem_guards_iff {stack : List Nesting} (hs : ∀ n ∈ stack, n.Opened) {t : Text} (ht : t ≠ " ") :
    t ∈ guards stack ↔ ∃ n ∈ stack, n.opener.continues = true ∧ n.guard = t := by
  simp only [guards, List.mem_map, List.mem_filter, and_assoc]
  refine exists_congr fun n => and_congr_right fun hn => and_congr_left ?_
  rintro rfl
  have hkind := hs n hn
  obtain ⟨opener, a⟩ := n
  cases opener with
  | elseThen =>
    cases a <;> simp [Opened, Opener.kind, Atom.kind] at hkind
    exact absurd rfl ht
  | _ => simp [Opener.isBranch, Opener.continues]

theorem Passes.opened {s t : List Nesting} {atoms : List Atom} (h : Passes s atoms t) (hs : ∀ n ∈ s, n.Opened) :
    ∀ n ∈ t, n.Opened := by
  induction h with
  | nil => exact hs
  | cons head _ ih => exact ih (head.opened hs)

end Nesting

namespace Rule.Compatibility

variable {level : Level} {guards : Guards} {name : Text}

theorem hasExtension_iff (hl : ¬ .userPatch15 ≤ level) :
    hasExtension level guards = true ↔ Text.ofString "UP_EXTENSION" ∈ guards := by
  simp [hasExtension, hl]

theorem hasUserPatch_iff (hl : ¬ .userPatch14 ≤ level) :
    hasUserPatch level guards = true ↔ Text.ofString "UP_AVAILABLE" ∈ guards := by
  simp [hasUserPatch, hl]

theorem ite_some_eq_none {α : Type} {p : Prop} [Decidable p] {a : α} {rest : Option α} :
    (if p then some a else rest) = none ↔ ¬ p ∧ rest = none := by
  split <;> simp [*]

theorem lacking_eq_none_iff : lacking level guards name = none ↔
    (name ∈ effectCommands ∨ name = Text.ofString "direct_placement" → hasExtension level guards = true) ∧
      (name = Text.ofString "nomad_resources" → hasUserPatch level guards = true ∨ level = .hdEdition) ∧
      (name ∈ actorAreaCommands ∨ name ∈ zoneCommands ∨ name = Text.ofString "second_object" →
        level = .definitiveEdition) := by
  simp only [lacking, ite_some_eq_none, Bool.and_eq_true, List.contains_iff_mem, beq_iff_eq, bne_iff_ne,
    Bool.not_eq_true', ← Bool.not_eq_true]
  grind

theorem lacking_extension (h : name ∈ effectCommands ∨ name = Text.ofString "direct_placement") :
    lacking level guards name = none ↔ hasExtension level guards = true := by
  have hother : name ≠ Text.ofString "nomad_resources" ∧ name ∉ actorAreaCommands ∧ name ∉ zoneCommands ∧
      name ≠ Text.ofString "second_object" := by
    simp only [effectCommands, List.mem_cons, List.not_mem_nil, or_false] at h
    rcases h with (rfl | rfl) | rfl <;> decide
  simp [lacking_eq_none_iff, h, hother]

theorem lacking_userPatch : lacking level guards (Text.ofString "nomad_resources") = none ↔
    hasUserPatch level guards = true ∨ level = .hdEdition := by
  have hother : Text.ofString "nomad_resources" ∉ effectCommands ∧
      Text.ofString "nomad_resources" ≠ Text.ofString "direct_placement" ∧
      Text.ofString "nomad_resources" ∉ actorAreaCommands ∧ Text.ofString "nomad_resources" ∉ zoneCommands ∧
      Text.ofString "nomad_resources" ≠ Text.ofString "second_object" := by decide
  simp [lacking_eq_none_iff, hother]

end Rule.Compatibility

namespace Checker

def Accepts (c : Checker) (atom : Atom) : Prop := ∃ d, c.writeAtom atom = .ok (d, [])

def versions (memory : Memory) (tracker : Tracker) : Checker := ⟨[⟨.compatibility, memory⟩], tracker⟩

theorem accepts_command_iff {memory : Memory} {tracker : Tracker} {name : Word} {args : List Word} :
    (versions memory tracker).Accepts (.command name args) ↔
      Rule.Compatibility.lacking tracker.scope.level memory.guards name.text = none := by
  have hwrite : ∃ d, (versions memory tracker).writeAtom (.command name args)
      = .ok (d, (Rule.Compatibility.onAtom tracker.scope.level memory.guards (.command name args)).map
          (·.withCode Rule.compatibility.name)) := by
    refine ⟨_, congrArg Except.ok (Prod.ext rfl ?_)⟩
    simp [versions]
  obtain ⟨d, hd⟩ := hwrite
  rw [Accepts, hd]
  cases hl : Rule.Compatibility.lacking tracker.scope.level memory.guards name.text with
  | none => simp [Rule.Compatibility.onAtom, hl]
  | some need => simp [Rule.Compatibility.onAtom, hl]

/-- The check of versions never fails, and after items that fit it has the guards of the open branches. -/
theorem writeItems_versions {memory : Memory} {tracker : Tracker} {items : List Item} {t : List Nesting}
    (h : Nesting.Passes tracker.nesting (items.map Item.atom) t)
    (hg : memory.guards = Nesting.guards tracker.nesting) :
    ∃ memory' tracker' found, (versions memory tracker).writeItems items = .ok (versions memory' tracker', found) ∧
      tracker'.nesting = t ∧ memory'.guards = Nesting.guards t := by
  induction items generalizing memory tracker with
  | nil =>
    cases h
    exact ⟨memory, tracker, [], rfl, rfl, hg⟩
  | cons item rest ih =>
    cases h with
    | @cons _ s _ _ _ head tail =>
      let memory' : Memory := { memory with guards := Rule.Compatibility.guardsAfter memory.guards item.atom }
      have hnesting : (tracker.update item.atom).1.nesting = s := by
        rw [Tracker.update, head.step_eq]
      have hguards : memory'.guards = Nesting.guards (tracker.update item.atom).1.nesting := by
        rw [hnesting, ← head.guardsAfter, ← hg]
      obtain ⟨memory'', tracker'', more, hmore, hend⟩ := ih (hnesting ▸ tail) hguards
      have hitem : (versions memory tracker).writeItem item
          = .ok (versions memory' (tracker.update item.atom).1, _) := writeItem_eq_ok.2 ⟨_, _, rfl, rfl, rfl⟩
      exact ⟨memory'', tracker'', _, writeItems_cons.2 ⟨_, _, more, hitem, hmore, rfl⟩, hend⟩

def Guarded (c : Checker) (condition : Text) : Prop :=
  ∃ n ∈ c.tracker.nesting, n.opener.continues = true ∧ n.guard = condition

/-- The check of versions starts with nothing. As long as nothing is wrong with the nesting of the items that it has
seen, it has the guards of the open branches, blocks and random groups or not; so a command that needs UserPatch in a
script for a version without it is accepted where an open branch asks for it, and nowhere else. -/
theorem guards_eq_open_branches {tracker : Tracker} (hn : tracker.nesting = []) {items : List Item}
    (hp : Nesting.problems [] (items.map Item.atom) = []) :
    ∃ memory tracker' found, (versions {} tracker).writeItems items = .ok (versions memory tracker', found) ∧
      tracker'.nesting = Nesting.after [] (items.map Item.atom) ∧
      memory.guards = Nesting.guards tracker'.nesting ∧
      (∀ name args, name.text ∈ Rule.Compatibility.effectCommands ∨ name.text = Text.ofString "direct_placement" →
        ¬ .userPatch15 ≤ tracker'.scope.level →
        ((versions memory tracker').Accepts (.command name args) ↔
          (versions memory tracker').Guarded (Text.ofString "UP_EXTENSION"))) ∧
      ∀ name args, name.text = Text.ofString "nomad_resources" → ¬ .userPatch14 ≤ tracker'.scope.level →
        ((versions memory tracker').Accepts (.command name args) ↔
          (versions memory tracker').Guarded (Text.ofString "UP_AVAILABLE") ∨ tracker'.scope.level = .hdEdition) := by
  have hpasses : Nesting.Passes tracker.nesting (items.map Item.atom) (Nesting.after [] (items.map Item.atom)) := by
    rw [hn]
    exact Nesting.passes_iff.2 ⟨hp, rfl⟩
  obtain ⟨memory, tracker', found, hrun, hnesting, hguards⟩ :=
    writeItems_versions hpasses (by rw [hn]; rfl : ({} : Memory).guards = _)
  have hopened : ∀ n ∈ tracker'.nesting, n.Opened := by
    rw [hnesting]
    exact hpasses.opened (by simp [hn])
  refine ⟨memory, tracker', found, hrun, hnesting, by rw [hguards, hnesting], ?_, ?_⟩
  · intro name args hname hlevel
    rw [accepts_command_iff, Rule.Compatibility.lacking_extension hname, Rule.Compatibility.hasExtension_iff hlevel,
      hguards, ← hnesting]
    exact Nesting.mem_guards_iff hopened (by decide)
  · intro name args hname hlevel
    rw [accepts_command_iff, hname, Rule.Compatibility.lacking_userPatch, Rule.Compatibility.hasUserPatch_iff hlevel,
      hguards, ← hnesting]
    exact or_congr_left (Nesting.mem_guards_iff hopened (by decide))

def deepBranches : Text :=
  "if UP_EXTENSION start_random percent_chance 50 \x7b if A elseif UP_AVAILABLE if B endif if C else"

theorem deepBranches_guards : (Tracker.initial .conquerors false).nesting = [] ∧
    Nesting.problems [] ((Item.parse 0 deepBranches).map Item.atom) = [] ∧
    ∃ memory tracker found, (versions {} (.initial .conquerors false)).writeItems (Item.parse 0 deepBranches)
        = .ok (versions memory tracker, found) ∧
      memory.guards = [Text.ofString " ", Text.ofString "UP_AVAILABLE", Text.ofString "UP_EXTENSION"] := by
  have hclosed : Nesting.problems [] ((Item.parse 0 deepBranches).map Item.atom) = [] ∧
      Nesting.guards (Nesting.after [] ((Item.parse 0 deepBranches).map Item.atom))
        = [Text.ofString " ", Text.ofString "UP_AVAILABLE", Text.ofString "UP_EXTENSION"] := by decide +kernel
  have hn : (Tracker.initial .conquerors false).nesting = [] := rfl
  obtain ⟨memory, tracker, found, hrun, hnesting, hguards, -⟩ := guards_eq_open_branches hn hclosed.1
  exact ⟨hn, hclosed.1, memory, tracker, found, hrun, by rw [hguards, hnesting, hclosed.2]⟩

end Checker

end MapScript
