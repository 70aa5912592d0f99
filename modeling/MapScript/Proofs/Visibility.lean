import MapScript.Rule.Basic

/-! What a script makes known as its atoms come: the version it is for, which only the comments before
everything else can change, the names of the game, which are always those of that version, and the names of
the script, where the last definition of a name is the one that counts. -/

namespace MapScript

namespace Symbols

theorem find?_insert (s : Symbols) (d : Definition) (name : Text) :
    (s.insert d).find? name = if d.name = name then some d else s.find? name := by
  by_cases h : d.name = name
  · simp [find?, insert, h]
  · have hkeep : (fun e : Definition => decide ((e.name != d.name) = true ∧ (e.name == name) = true))
        = fun e => e.name == name := by
      funext e
      by_cases he : e.name = name
      · have hne : e.name ≠ d.name := fun heq => h (heq.symm.trans he)
        simp [he, he ▸ hne]
      · simp [he]
    rw [find?, insert, List.find?_cons_of_neg (by simpa using h), List.find?_filter, hkeep, if_neg h]
    rfl

end Symbols

namespace Atom

def content? : Atom → Option Text
  | .comment _ content _ _ => some content
  | _ => none

def constant? (a : Atom) : Option Definition :=
  match a with
  | .const _ name value => some ⟨name.text, a, value.map Word.text⟩
  | _ => none

def defined? (a : Atom) : Option Definition :=
  match a with
  | .define _ name => some ⟨name.text, a, none⟩
  | _ => none

end Atom

namespace Scope

def headerLines (atoms : List Atom) : List Text :=
  ((atoms.takeWhile fun a => a.kind == .comment).filterMap Atom.content?).flatMap Text.anyLines

/-- The version that a script is for: the last one that a line of its header names, or else the given one. -/
def levelOf (level : Level) (atoms : List Atom) : Level :=
  ((headerLines atoms).filterMap headerLevel?).getLast?.getD level

/-- The names of the game are those of the version. -/
structure InStep (s : Scope) : Prop where
  defines : s.gameDefines = s.level.defines
  consts : s.gameConsts = s.level.consts
  options : s.options = s.level.options

theorem inStep_initial (level : Level) : (initial level).InStep := ⟨rfl, rfl, rfl⟩

theorem inStep_setLevel (s : Scope) (level : Level) : (s.setLevel level).InStep := ⟨rfl, rfl, rfl⟩

structure SameNames (s t : Scope) : Prop where
  defines : t.defines = s.defines
  consts : t.consts = s.consts
  sectionMark : t.sectionMark = s.sectionMark
  pastHeader : t.pastHeader = s.pastHeader

theorem readHeaderLine_spec (s : Scope) (line : Text) :
    (s.readHeaderLine line).level = (headerLevel? line).getD s.level ∧ s.SameNames (s.readHeaderLine line) ∧
      (s.InStep → (s.readHeaderLine line).InStep) := by
  unfold readHeaderLine
  cases headerLevel? line with
  | none => exact ⟨rfl, ⟨rfl, rfl, rfl, rfl⟩, id⟩
  | some level => exact ⟨rfl, ⟨rfl, rfl, rfl, rfl⟩, fun _ => inStep_setLevel s level⟩

theorem foldl_readHeaderLine (s : Scope) (lines : List Text) :
    (lines.foldl readHeaderLine s).level = (lines.filterMap headerLevel?).getLast?.getD s.level ∧
      s.SameNames (lines.foldl readHeaderLine s) ∧ (s.InStep → (lines.foldl readHeaderLine s).InStep) := by
  induction lines generalizing s with
  | nil => exact ⟨rfl, ⟨rfl, rfl, rfl, rfl⟩, id⟩
  | cons line lines ih =>
    obtain ⟨hlevel, hsame, hstep⟩ := readHeaderLine_spec s line
    obtain ⟨hlevels, hsames, hsteps⟩ := ih (s.readHeaderLine line)
    rw [List.foldl_cons]
    refine ⟨?_, ⟨?_, ?_, ?_, ?_⟩, fun h => hsteps (hstep h)⟩
    · rw [hlevels, hlevel]
      cases h : headerLevel? line with
      | none => rw [List.filterMap_cons_none h, Option.getD_none]
      | some level => rw [List.filterMap_cons_some h, List.getLast?_cons, Option.getD_some, Option.getD_some]
    · rw [hsames.defines, hsame.defines]
    · rw [hsames.consts, hsame.consts]
    · rw [hsames.sectionMark, hsame.sectionMark]
    · rw [hsames.pastHeader, hsame.pastHeader]

theorem updateHeader_comment {s : Scope} (h : s.pastHeader = false) {a : Atom} {content : Text}
    (ha : a.content? = some content) : s.updateHeader a = s.readHeader content := by
  cases a with
  | comment opener text closer stop =>
    obtain rfl := Option.some.inj ha
    simp [updateHeader, h]
  | _ => simp [Atom.content?] at ha

theorem updateHeader_other {s : Scope} (h : s.pastHeader = false) {a : Atom} (ha : a.kind ≠ .comment) :
    s.updateHeader a = { s with pastHeader := true } := by
  cases a with
  | comment => exact absurd rfl ha
  | _ => simp [updateHeader, h]

theorem updateHeader_past {s : Scope} (h : s.pastHeader = true) (a : Atom) : s.updateHeader a = s := by
  simp [updateHeader, h]

theorem InStep.record {s : Scope} (h : s.InStep) (a : Atom) : (s.record a).InStep := by
  cases a <;> exact ⟨h.defines, h.consts, h.options⟩

structure Follows (s : Scope) (a : Atom) (t : Scope) : Prop where
  pastHeader : t.pastHeader = (s.pastHeader || a.kind != .comment)
  level : t.level = if s.pastHeader then s.level
    else ((a.content?.toList.flatMap Text.anyLines).filterMap headerLevel?).getLast?.getD s.level
  inStep : s.InStep → t.InStep
  defines : t.defines = a.defined?.elim s.defines s.defines.insert
  consts : t.consts = a.constant?.elim s.consts s.consts.insert

theorem follows_record {s t : Scope} {a : Atom} (hp : t.pastHeader = (s.pastHeader || a.kind != .comment))
    (hl : t.level = if s.pastHeader then s.level
      else ((a.content?.toList.flatMap Text.anyLines).filterMap headerLevel?).getLast?.getD s.level)
    (hi : s.InStep → t.InStep) (hd : t.defines = s.defines) (hc : t.consts = s.consts) :
    Follows s a (t.record a) := by
  have hi : s.InStep → (t.record a).InStep := fun h => (hi h).record a
  cases a with
  | define head name => exact ⟨hp, hl, hi, by rw [← hd]; rfl, hc⟩
  | const head name value => exact ⟨hp, hl, hi, hd, by rw [← hc]; rfl⟩
  | _ => exact ⟨hp, hl, hi, hd, hc⟩

theorem follows_update (s : Scope) (a : Atom) : Follows s a (s.update a) := by
  unfold update
  cases hp : s.pastHeader with
  | true =>
    rw [updateHeader_past hp]
    exact follows_record (by simp [hp]) (by simp [hp]) id rfl rfl
  | false =>
    cases ha : a.content? with
    | some content =>
      have hk : a.kind = .comment := by
        cases a <;> simp [Atom.content?, Atom.kind] at ha ⊢
      obtain ⟨hlevel, hsame, hstep⟩ := foldl_readHeaderLine s (Text.anyLines content)
      rw [updateHeader_comment hp ha, readHeader]
      exact follows_record (by simp [hsame.pastHeader, hk]) (by simp [hp, ha, hlevel]) hstep
        hsame.defines hsame.consts
    | none =>
      have hk : a.kind ≠ .comment := by
        rintro hk
        cases a <;> simp [Atom.content?, Atom.kind] at ha hk
      rw [updateHeader_other hp hk]
      exact follows_record (by simp [hk]) (by simp [hp, ha])
        (fun h => ⟨h.defines, h.consts, h.options⟩) rfl rfl

theorem levelOf_cons (level : Level) (a : Atom) (atoms : List Atom) :
    levelOf level (a :: atoms) =
      if a.kind = .comment then
        levelOf (((a.content?.toList.flatMap Text.anyLines).filterMap headerLevel?).getLast?.getD level) atoms
      else level := by
  by_cases hk : a.kind = .comment
  · have hlines : headerLines (a :: atoms) = a.content?.toList.flatMap Text.anyLines ++ headerLines atoms := by
      rw [headerLines, List.takeWhile_cons_of_pos (by simp [hk]), headerLines]
      cases h : a.content? <;> simp [h]
    rw [if_pos hk, levelOf, hlines, List.filterMap_append, List.getLast?_append, levelOf]
    cases ((headerLines atoms).filterMap headerLevel?).getLast? <;> simp
  · simp [levelOf, headerLines, hk]

theorem pastHeader_foldl (s : Scope) (atoms : List Atom) :
    (atoms.foldl update s).pastHeader = (s.pastHeader || atoms.any fun a => a.kind != .comment) := by
  induction atoms generalizing s with
  | nil => simp
  | cons a atoms ih => rw [List.foldl_cons, ih, (follows_update s a).pastHeader, List.any_cons, Bool.or_assoc]

/-- Only the comments before everything else can change the version. -/
theorem level_foldl (s : Scope) (atoms : List Atom) :
    (atoms.foldl update s).level = if s.pastHeader then s.level else levelOf s.level atoms := by
  induction atoms generalizing s with
  | nil => simp [levelOf, headerLines]
  | cons a atoms ih =>
    have ha := follows_update s a
    rw [List.foldl_cons, ih, ha.level, ha.pastHeader, levelOf_cons]
    by_cases hp : s.pastHeader = true
    · simp [hp]
    · by_cases hk : a.kind = .comment
      · simp [hp, hk]
      · have hn : a.content? = none := by cases a <;> simp [Atom.content?, Atom.kind] at hk ⊢
        simp [hp, hk, hn]

theorem inStep_foldl {s : Scope} (h : s.InStep) (atoms : List Atom) : (atoms.foldl update s).InStep := by
  induction atoms generalizing s with
  | nil => exact h
  | cons a atoms ih => exact ih ((follows_update s a).inStep h)

theorem find?_foldl_insert (table : Symbols) (found : List Definition) (name : Text) :
    (found.foldl Symbols.insert table).find? name
      = (found.filter fun d => d.name == name).getLast?.or (table.find? name) := by
  induction found generalizing table with
  | nil => simp
  | cons d found ih =>
    rw [List.foldl_cons, ih, Symbols.find?_insert]
    by_cases hd : d.name = name
    · rw [if_pos hd, List.filter_cons_of_pos (by simpa using hd), List.getLast?_cons]
      cases (found.filter fun d => d.name == name).getLast? <;> rfl
    · rw [if_neg hd, List.filter_cons_of_neg (by simpa using hd)]

theorem consts_foldl (s : Scope) (atoms : List Atom) :
    (atoms.foldl update s).consts = (atoms.filterMap Atom.constant?).foldl Symbols.insert s.consts := by
  induction atoms generalizing s with
  | nil => rfl
  | cons a atoms ih =>
    rw [List.foldl_cons, ih, (follows_update s a).consts]
    cases h : a.constant? with
    | none => rw [List.filterMap_cons_none h]; rfl
    | some d => rw [List.filterMap_cons_some h]; rfl

theorem defines_foldl (s : Scope) (atoms : List Atom) :
    (atoms.foldl update s).defines = (atoms.filterMap Atom.defined?).foldl Symbols.insert s.defines := by
  induction atoms generalizing s with
  | nil => rfl
  | cons a atoms ih =>
    rw [List.foldl_cons, ih, (follows_update s a).defines]
    cases h : a.defined? with
    | none => rw [List.filterMap_cons_none h]; rfl
    | some d => rw [List.filterMap_cons_some h]; rfl

def AsksFor (line : Text) (level : Level) : Prop :=
  ∃ key value, headerField? line = some (key, value) ∧ Text.lower (Text.trim key) = "compatibility" ∧
    (Text.lower (Text.trim value), level) ∈ Level.names

theorem mem_names_iff {name : Text} {level : Level} :
    (name, level) ∈ Level.names ↔ Level.names.lookup name = some level := by
  rw [List.lookup_eq_some_iff]
  constructor
  · intro h
    have hdistinct : Level.names.Pairwise fun p q => p.1 ≠ q.1 := by decide
    obtain ⟨before, after, hsplit⟩ := List.append_of_mem h
    rw [hsplit, List.pairwise_append] at hdistinct
    refine ⟨before, after, hsplit, fun p hp => ?_⟩
    simpa using (hdistinct.2.2 p hp _ List.mem_cons_self).symm
  · rintro ⟨before, after, hsplit, -⟩
    simp [hsplit]

theorem asksFor_iff {line : Text} {level : Level} : AsksFor line level ↔ headerLevel? line = some level := by
  unfold AsksFor headerLevel?
  cases headerField? line with
  | none => simp
  | some field =>
    obtain ⟨key, value⟩ := field
    simp only [Option.some.injEq, Prod.mk.injEq, beq_iff_eq]
    constructor
    · rintro ⟨k, v, ⟨rfl, rfl⟩, hkey, hname⟩
      rw [if_pos hkey, Level.ofName?, mem_names_iff.1 hname]
    · intro h
      split at h
      · next hkey => exact ⟨key, value, ⟨rfl, rfl⟩, hkey, mem_names_iff.2 h⟩
      · simp at h

theorem levelOf_spec (level : Level) (atoms : List Atom) :
    (∃ before line after, headerLines atoms = before ++ line :: after ∧ AsksFor line (levelOf level atoms) ∧
        ∀ l ∈ after, ∀ v, ¬ AsksFor l v) ∨
      (∀ l ∈ headerLines atoms, ∀ v, ¬ AsksFor l v) ∧ levelOf level atoms = level := by
  simp only [asksFor_iff, ← Option.eq_none_iff_forall_ne_some]
  cases h : ((headerLines atoms).filterMap headerLevel?).getLast? with
  | none =>
    rw [List.getLast?_eq_none_iff, List.filterMap_eq_nil_iff] at h
    exact .inr ⟨h, by simp [levelOf, List.filterMap_eq_nil_iff.2 h]⟩
  | some found =>
    have hl : levelOf level atoms = found := by rw [levelOf, h, Option.getD_some]
    rw [List.getLast?_filterMap, List.findSome?_eq_some_iff] at h
    obtain ⟨after, line, before, hsplit, hline, hafter⟩ := h
    refine .inl ⟨before.reverse, line, after.reverse, ?_, by rw [hl, hline], fun l hm => ?_⟩
    · simpa using congrArg List.reverse hsplit
    · exact hafter l (by simpa using hm)

structure Accounts (level : Level) (atoms : List Atom) (s : Scope) : Prop where
  level : (∃ before line after, headerLines atoms = before ++ line :: after ∧ AsksFor line s.level ∧
      ∀ l ∈ after, ∀ v, ¬ AsksFor l v) ∨
    (∀ l ∈ headerLines atoms, ∀ v, ¬ AsksFor l v) ∧ s.level = level
  gameDefines : s.gameDefines = s.level.defines
  gameConsts : s.gameConsts = s.level.consts
  options (name : Text) : name ∈ s.options ↔ name ∈ Builtin.sizeOptions ∨
    .userPatch15 ≤ s.level ∧ name ∈ Builtin.gameOptions ++ Builtin.playerOptions
  hasConst (name : Text) : s.hasConst name ↔
    name ∈ s.level.consts ∨ ∃ d ∈ atoms.filterMap Atom.constant?, d.name = name
  const? (name : Text) :
    s.consts.find? name = ((atoms.filterMap Atom.constant?).filter fun d => d.name == name).getLast?
  hasDefine (name : Text) : s.hasDefine name ↔
    name ∈ s.level.defines ∨ ∃ d ∈ atoms.filterMap Atom.defined?, d.name = name
  define? (name : Text) :
    s.defines.find? name = ((atoms.filterMap Atom.defined?).filter fun d => d.name == name).getLast?
  closed : (∃ a ∈ atoms, a.kind ≠ .comment) → ∀ a : Atom, a.kind = .comment → s.update a = s

theorem contains_foldl_insert (found : List Definition) (name : Text) :
    (found.foldl Symbols.insert []).contains name = true ↔ ∃ d ∈ found, d.name = name := by
  rw [Symbols.contains, find?_foldl_insert, Option.isSome_or, Bool.or_eq_true, List.getLast?_isSome]
  simp [Symbols.find?, List.filter_eq_nil_iff]

theorem update_of_pastHeader {s : Scope} (h : s.pastHeader = true) {a : Atom} (ha : a.kind = .comment) :
    s.update a = s := by
  rw [update, updateHeader_past h]
  cases a with
  | comment => rfl
  | _ => simp [Atom.kind] at ha

theorem accounts_foldl (level : Level) (atoms : List Atom) :
    Accounts level atoms (atoms.foldl update (initial level)) := by
  have hstep := inStep_foldl (inStep_initial level) atoms
  have hconsts := consts_foldl (initial level) atoms
  have hdefines := defines_foldl (initial level) atoms
  refine ⟨?_, hstep.defines, hstep.consts, fun name => ?_, fun name => ?_, fun name => ?_, fun name => ?_,
    fun name => ?_, fun hother a ha => ?_⟩
  · have hlevel := level_foldl (initial level) atoms
    rw [show (initial level).pastHeader = false from rfl, if_neg (by simp)] at hlevel
    rw [hlevel]
    exact levelOf_spec level atoms
  · rw [hstep.options, Level.options]
    split
    · next h => simp [h]
    · next h => simp [h]
  · rw [Scope.hasConst, hconsts, hstep.consts, Bool.or_eq_true, List.contains_iff_mem, Or.comm]
    exact or_congr_right (contains_foldl_insert _ name)
  · rw [hconsts, find?_foldl_insert]
    simp [initial, Symbols.find?]
  · rw [Scope.hasDefine, hdefines, hstep.defines, Bool.or_eq_true, List.contains_iff_mem, Or.comm]
    exact or_congr_right (contains_foldl_insert _ name)
  · rw [hdefines, find?_foldl_insert]
    simp [initial, Symbols.find?]
  · refine update_of_pastHeader ?_ ha
    rw [pastHeader_foldl]
    simpa [initial] using hother

end Scope

namespace Tracker

/-- One of the two ways in which an atom is taken into account. -/
inductive Turn where
  | scope (atom : Atom)
  | nesting (atom : Atom)

def Turn.atom? : Turn → Option Atom
  | .scope atom => some atom
  | .nesting _ => none

def turn (t : Tracker) : Turn → Tracker
  | .scope atom => { t with scope := t.scope.update atom }
  | .nesting atom => { t with nesting := (Nesting.step t.nesting atom).1 }

theorem fst_update (t : Tracker) (atom : Atom) :
    (t.update atom).1 = [Turn.nesting atom, .scope atom].foldl turn t := rfl

/-- A run of updates is a list of turns, which shows the scope every atom. -/
theorem foldl_update (t : Tracker) (atoms : List Atom) :
    ∃ turns : List Turn, turns.filterMap Turn.atom? = atoms ∧
      atoms.foldl (fun t atom => (t.update atom).1) t = turns.foldl turn t := by
  refine ⟨atoms.flatMap fun atom => [.nesting atom, .scope atom], ?_, ?_⟩
  · induction atoms with
    | nil => rfl
    | cons atom atoms ih => exact congrArg (List.cons atom) ih
  · induction atoms generalizing t with
    | nil => rfl
    | cons atom atoms ih => rw [List.foldl_cons, ih, fst_update, List.flatMap_cons, List.foldl_append]

theorem scope_foldl_turn (t : Tracker) (turns : List Turn) :
    (turns.foldl turn t).scope = (turns.filterMap Turn.atom?).foldl Scope.update t.scope := by
  induction turns generalizing t with
  | nil => rfl
  | cons first turns ih =>
    rw [List.foldl_cons, ih]
    cases first <;> rfl

/-- However the two kinds of turns are mixed, the scope accounts for the atoms it was shown. -/
theorem scope_accounts_for_turns (level : Level) (builtinMap : Bool) (turns : List Turn) :
    Scope.Accounts level (turns.filterMap Turn.atom?) (turns.foldl turn (initial level builtinMap)).scope := by
  rw [scope_foldl_turn]
  exact Scope.accounts_foldl level _

end Tracker

end MapScript
