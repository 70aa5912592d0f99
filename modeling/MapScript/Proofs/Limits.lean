import MapScript.Proofs.Rewording
import MapScript.Proofs.LayoutWords

/-! Which scripts cannot be checked: those that have a number with too many digits where its value is looked at, and
no others. -/

namespace MapScript

def Fails {ε α : Type} (x : Except ε α) : Prop := ∃ e, x = .error e

section Fails

variable {ε α β : Type}

theorem not_fails_pure (a : α) : ¬ Fails (pure a : Except ε α) := by
  rintro ⟨e, he⟩
  cases he

/-- When it does not matter for what comes after how a step ends, the step fails or what comes after. -/
theorem fails_bind_iff_or {x : Except ε α} {f : α → Except ε β} {q : Prop}
    (hf : ∀ a, x = .ok a → (Fails (f a) ↔ q)) : Fails (x >>= f) ↔ Fails x ∨ q := by
  cases x with
  | error e => simp [Fails, bind, Except.bind]
  | ok a => simpa [Fails, bind, Except.bind] using hf a rfl

theorem fails_bind_pure_iff {x : Except ε α} {f : α → β} : Fails (x >>= fun a => pure (f a)) ↔ Fails x := by
  rw [fails_bind_iff_or fun a _ => iff_of_false (not_fails_pure (f a)) not_false, or_false]

theorem not_fails_iff {x : Except ε α} : ¬ Fails x ↔ ∃ a, x = .ok a := by
  cases x with
  | error e => simp [Fails]
  | ok a => simp [Fails]

end Fails

namespace Numeral

/-- Too long to be read: perhaps a sign, and then digits only, more than 4300 of them. -/
def IsOverlong (t : Text) : Prop :=
  ∃ sign digits : Text, t = sign ++ digits ∧ sign ∈ ([[], "+", "-"] : List Text) ∧
    (∀ g ∈ digits, ∃ c : Char, g = .char c ∧ '0' ≤ c ∧ c ≤ '9') ∧ 4300 < digits.length

theorem isDigit_iff {g : Glyph} : isDigit g = true ↔ ∃ c : Char, g = .char c ∧ '0' ≤ c ∧ c ≤ '9' := by
  cases g with
  | char c => simp [isDigit, Char.isDigit, Char.le_def]
  | stray b => simp [isDigit]

theorem snd_splitSign_append {sign digits : Text} (hs : sign ∈ ([[], "+", "-"] : List Text))
    (hd : ∀ g ∈ digits, isDigit g = true) : (splitSign (sign ++ digits)).2 = digits := by
  simp only [List.mem_cons, List.not_mem_nil, or_false] at hs
  rcases hs with rfl | rfl | rfl
  · rw [List.nil_append]
    unfold splitSign
    split
    · exact absurd (hd (.char '+') (by simp)) (by decide)
    · exact absurd (hd (.char '-') (by simp)) (by decide)
    · rfl
  · rfl
  · rfl

theorem exists_sign (t : Text) : ∃ sign ∈ ([[], "+", "-"] : List Text), t = sign ++ (splitSign t).2 := by
  unfold splitSign
  split
  · exact ⟨"+", by simp, rfl⟩
  · exact ⟨"-", by simp, rfl⟩
  · exact ⟨[], by simp, rfl⟩

theorem fails_value?_iff {t : Text} :
    Fails (value? t) ↔ (∀ g ∈ (splitSign t).2, isDigit g = true) ∧ 4300 < (splitSign t).2.length := by
  rw [← List.all_eq_true, value?, isNumeral]
  generalize (splitSign t).2 = digits
  by_cases hl : digits.length ≤ maxDigits
  · have hshort : ¬ 4300 < digits.length := Nat.not_lt.2 hl
    cases !digits.isEmpty && digits.all isDigit <;> simp [Fails, hl, hshort]
  · have hlong : 4300 < digits.length := Nat.lt_of_not_le hl
    have hsome : digits.isEmpty = false := by
      cases digits with
      | nil => simp at hlong
      | cons => rfl
    cases digits.all isDigit <;> simp [Fails, hl, hlong, hsome]

theorem fails_value?_iff_isOverlong {t : Text} : Fails (value? t) ↔ IsOverlong t := by
  rw [fails_value?_iff]
  constructor
  · rintro ⟨hd, hl⟩
    obtain ⟨sign, hs, ht⟩ := exists_sign t
    exact ⟨sign, _, ht, hs, fun g hg => isDigit_iff.1 (hd g hg), hl⟩
  · rintro ⟨sign, digits, rfl, hs, hd, hl⟩
    have hd' : ∀ g ∈ digits, isDigit g = true := fun g hg => isDigit_iff.2 (hd g hg)
    rw [snd_splitSign_append hs hd']
    exact ⟨hd', hl⟩

end Numeral

open Numeral (IsOverlong)

def OverlongAt (args : List Word) (i : Nat) : Prop := ∃ arg, args[i]? = some arg ∧ IsOverlong arg.text

def Rule.FailsAt : Rule → Word → List Word → Prop
  | .argTypes, name, args =>
    name.text = "base_elevation" ∧ OverlongAt args 0 ∨
    name.text = "land_position" ∧ (OverlongAt args 0 ∨ OverlongAt args 1) ∨
    name.text = "assign_to" ∧ (OverlongAt args 1 ∨ OverlongAt args 2 ∨ OverlongAt args 3)
  | .actorAreasMatch, _, args => OverlongAt args 0
  | _, _, _ => False

namespace Rule.ArgTypes

theorem fails_argValue_iff {args : List Word} {i : Nat} : Fails (argValue args i) ↔ OverlongAt args i := by
  unfold argValue OverlongAt
  cases args[i]? with
  | none => simp [not_fails_pure]
  | some arg =>
    simp only [Option.some.injEq, exists_eq_left']
    rw [fails_bind_pure_iff, Numeral.fails_value?_iff_isOverlong]

theorem fails_checkAssign_iff {args : List Word} :
    Fails (checkAssign args) ↔ OverlongAt args 1 ∨ OverlongAt args 2 ∨ OverlongAt args 3 := by
  unfold checkAssign
  rw [fails_bind_iff_or fun _ _ => fails_bind_iff_or fun _ _ => fails_bind_pure_iff]
  simp only [fails_argValue_iff]

theorem fails_checkRanges_iff {name : Word} {args : List Word} :
    Fails (checkRanges name args) ↔ Rule.argTypes.FailsAt name args := by
  have hnames : ("base_elevation" : Text) ≠ "land_position" ∧ ("base_elevation" : Text) ≠ "assign_to" ∧
      ("land_position" : Text) ≠ "assign_to" ∧ ("zone" : Text) ≠ "assign_to" := by
    decide
  unfold checkRanges FailsAt
  simp only [beq_iff_eq]
  split
  · next helevation =>
    rw [fails_bind_pure_iff, fails_argValue_iff]
    simp [helevation, hnames.1, hnames.2.1]
  · next helevation =>
    rw [or_iff_right fun h => helevation h.1]
    split
    · next hposition =>
      rw [fails_bind_iff_or fun _ _ => fails_bind_pure_iff, fails_argValue_iff, fails_argValue_iff]
      simp [hposition, hnames.2.2.1]
    · next hposition =>
      rw [or_iff_right fun h => hposition h.1]
      split
      · next hzone =>
        refine iff_of_false ?_ fun h => hnames.2.2.2 (hzone.symm.trans h.1)
        cases args <;> exact not_fails_pure _
      · split
        · next hassign => rw [fails_checkAssign_iff, and_iff_right hassign]
        · next hassign => exact iff_of_false (not_fails_pure _) fun h => hassign h.1

theorem fails_onAtom_iff {scope : Scope} {atom : Atom} :
    Fails (onAtom scope atom) ↔ ∃ name args, atom = .command name args ∧ Rule.argTypes.FailsAt name args := by
  cases atom with
  | command name args =>
    rw [onAtom, fails_bind_pure_iff, fails_checkRanges_iff]
    simp
  | _ => exact iff_of_false (not_fails_pure _) (by simp)

end Rule.ArgTypes

theorem Rule.ActorAreas.fails_onAtom_iff {known : List Int} {atom : Atom} :
    Fails (onAtom known atom) ↔ ∃ name args, atom = .command name args ∧ Rule.actorAreasMatch.FailsAt name args := by
  cases atom with
  | command name args =>
    cases args with
    | nil => exact iff_of_false (not_fails_pure _) (by simp [FailsAt, OverlongAt])
    | cons arg args =>
      rw [onAtom, fails_bind_iff_or (q := False) fun value _ => ?_, Numeral.fails_value?_iff_isOverlong]
      · simp [FailsAt, OverlongAt]
      · cases value with
        | none => exact iff_of_false (not_fails_pure _) not_false
        | some area =>
          dsimp only
          split
          · exact iff_of_false (not_fails_pure _) not_false
          · split <;> exact iff_of_false (not_fails_pure _) not_false
  | _ => exact iff_of_false (not_fails_pure _) (by simp)

namespace Watch

/-- Whether a rule fails at an atom depends neither on what is known nor on what it remembers. -/
theorem fails_onAtom_iff {watch : Watch} {tracker : Tracker} {atom : Atom} :
    Fails (watch.onAtom tracker atom) ↔ ∃ name args, atom = .command name args ∧ watch.rule.FailsAt name args := by
  obtain ⟨rule, memory⟩ := watch
  cases rule with
  | argTypes => rw [onAtom, fails_bind_pure_iff, Rule.ArgTypes.fails_onAtom_iff]
  | actorAreasMatch => rw [onAtom, fails_bind_pure_iff, Rule.ActorAreas.fails_onAtom_iff]
  | _ => exact iff_of_false (not_fails_pure _) (by simp [Rule.FailsAt])

theorem fails_allOnAtom_iff {tracker : Tracker} {atom : Atom} {watches : List Watch} :
    Fails (allOnAtom tracker atom watches) ↔ ∃ watch ∈ watches, Fails (watch.onAtom tracker atom) := by
  induction watches with
  | nil => exact iff_of_false (not_fails_pure _) (by simp)
  | cons watch rest ih =>
    rw [allOnAtom, fails_bind_iff_or fun _ _ => fails_bind_pure_iff, ih]
    simp

end Watch

namespace Checker

def FailsAt (rules : List Rule) (atom : Atom) : Prop :=
  ∃ rule ∈ rules, ∃ name args, atom = .command name args ∧ rule.FailsAt name args

theorem fails_writeItem_iff {c : Checker} {item : Item} :
    Fails (c.writeItem item) ↔ FailsAt c.rules item.atom := by
  rw [writeItem, fails_bind_pure_iff, writeAtom, fails_bind_pure_iff, Watch.fails_allOnAtom_iff]
  simp [Watch.fails_onAtom_iff, FailsAt, rules]

theorem fails_writeItems_iff {c : Checker} {items : List Item} :
    Fails (c.writeItems items) ↔ ∃ item ∈ items, FailsAt c.rules item.atom := by
  induction items generalizing c with
  | nil => exact iff_of_false (not_fails_pure _) (by simp)
  | cons item rest ih =>
    have hrest : ∀ step, c.writeItem item = .ok step →
        (Fails (step.1.writeItems rest >>= fun last => pure (last.1, step.2 ++ last.2)) ↔
          ∃ item ∈ rest, FailsAt c.rules item.atom) := by
      rintro ⟨c', problems⟩ hstep
      rw [fails_bind_pure_iff, ih, rules_of_writeItem hstep]
    rw [writeItems, fails_bind_iff_or hrest, fails_writeItem_iff]
    simp

end Checker

/-- A command with a number that is too long where its value is looked at: as its first argument, or as the second of
a position, or as the second, third or fourth of an assignment. -/
def Atom.IsOverlong : Atom → Prop
  | .command name args =>
    OverlongAt args 0 ∨ name.text = "land_position" ∧ OverlongAt args 1 ∨
      name.text = "assign_to" ∧ (OverlongAt args 1 ∨ OverlongAt args 2 ∨ OverlongAt args 3)
  | _ => False

/-- The rules in use by default fail at a first argument of any command, whatever its type. -/
theorem Checker.failsAt_defaults_iff {atom : Atom} : FailsAt Rule.defaults atom ↔ atom.IsOverlong := by
  cases atom with
  | command name args =>
    simp only [FailsAt, Rule.defaults, List.mem_cons, List.not_mem_nil, or_false, Atom.IsOverlong]
    constructor
    · rintro ⟨rule, hrule, _, _, ⟨⟩, hfails⟩
      rcases hrule with rfl | rfl | rfl | rfl | rfl | rfl | rfl | rfl
      · rcases hfails with h | ⟨hname, h | h⟩ | h
        · exact .inl h.2
        · exact .inl h
        · exact .inr (.inl ⟨hname, h⟩)
        · exact .inr (.inr h)
      any_goals exact hfails.elim
      exact .inl hfails
    · rintro (h | ⟨hname, h⟩ | h)
      · exact ⟨.actorAreasMatch, by simp, name, args, rfl, h⟩
      · exact ⟨.argTypes, by simp, name, args, rfl, .inr (.inl ⟨hname, .inr h⟩)⟩
      · exact ⟨.argTypes, by simp, name, args, rfl, .inr (.inr h)⟩
  | _ => simp [FailsAt, Atom.IsOverlong]

theorem Atom.find?_of_mem_parse {file : Int} {source : Text} {name : Word} {args : List Word}
    (h : .command name args ∈ Atom.parse file source) :
    ∃ entry, Catalog.find? name.text = some entry ∧ args.length ≤ entry.arity := by
  obtain ⟨_, w, _, item, _, hr, -, ha⟩ := Atom.isRead_of_mem_parse h
  cases hr with
  | command hw hl _ =>
    obtain ⟨rfl, rfl⟩ : w = name ∧ _ = args := by simpa [Item.sound] using ha
    have hfits := Lead.of_fits w.text
    rw [hw] at hfits
    exact ⟨_, hfits, Nat.le_of_eq hl⟩
  | short hw hl _ _ =>
    obtain ⟨rfl, rfl⟩ : w = name ∧ _ = args := by simpa [Item.flawed] using ha
    have hfits := Lead.of_fits w.text
    rw [hw] at hfits
    exact ⟨_, hfits, Nat.le_of_lt hl⟩
  | @alone _ k _ _ hk =>
    cases k <;> simp only [Keyword.alone?, Option.some.injEq, reduceCtorEq] at hk <;> subst hk <;>
      simp [Item.sound] at ha
  | @unary k _ _ _ _ _ hk =>
    cases k <;> simp only [Keyword.unary?, Option.some.injEq, Prod.mk.injEq, reduceCtorEq] at hk <;>
      obtain ⟨rfl, rfl⟩ := hk <;> simp [Item.sound] at ha
  | _ => simp [Item.sound, Item.flawed, Item.inlineComment] at ha

namespace Check

theorem fails_run_iff {c : Check} :
    Fails c.run ↔ ∃ s ∈ c.sources, ∃ atom ∈ Atom.parse s.file s.text, Checker.FailsAt c.rules atom := by
  have hrules : ((Checker.initial c.rules c.effectiveLevel c.builtinMap).writeWords c.words).1.rules = c.rules := by
    rw [(Checker.tracker_writeWords _ c.words).1, Checker.rules_initial]
  rw [run, fails_bind_pure_iff, problems, fails_bind_pure_iff, Checker.fails_writeItems_iff, hrules]
  simp only [items, List.mem_flatMap, Atom.parse, List.mem_map]
  constructor
  · rintro ⟨item, ⟨s, hs, hi⟩, hfails⟩
    exact ⟨s, hs, item.atom, ⟨item, hi, rfl⟩, hfails⟩
  · rintro ⟨s, hs, _, ⟨item, hi, rfl⟩, hfails⟩
    exact ⟨item, ⟨s, hs, hi⟩, hfails⟩

/-- A check against the default rules fails if and only if some command has a number that is too long where its value
is looked at; every other check gives a report. No command is looked up in vain. -/
theorem fails_iff_overlong (level : Level) (builtinMap : Bool) (sources : List Source) :
    ((∃ e, Check.run ⟨level, Rule.defaults, builtinMap, sources⟩ = .error e) ↔
      ∃ s ∈ sources, ∃ atom ∈ Atom.parse s.file s.text, atom.IsOverlong) ∧
    ((∃ report, Check.run ⟨level, Rule.defaults, builtinMap, sources⟩ = .ok report) ↔
      ∀ s ∈ sources, ∀ atom ∈ Atom.parse s.file s.text, ¬ atom.IsOverlong) ∧
    ∀ s ∈ sources, ∀ name args, .command name args ∈ Atom.parse s.file s.text →
      ∃ entry, Catalog.find? name.text = some entry ∧ args.length ≤ entry.arity := by
  have hiff := @fails_run_iff ⟨level, Rule.defaults, builtinMap, sources⟩
  simp only [Checker.failsAt_defaults_iff] at hiff
  refine ⟨hiff, ?_, fun s _ name args h => Atom.find?_of_mem_parse h⟩
  rw [← not_fails_iff, hiff]
  simp

end Check

end MapScript
