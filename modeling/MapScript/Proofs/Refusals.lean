import MapScript.Settings.Load

/-! Settings that can be used, and how others are turned down. A check of settings refuses those that are not what they
should be. It stumbles over a list or map in place of the name of a rule, and over a wrong value with a number that is
too long to be shown. What an override sets stays whether it is refused or not, so that settings can be used as long
as the last override of them was made. -/

namespace MapScript.Settings

def Value.Overlong (v : Value) : Prop := ∃ n ∈ v.wholes, Numeral.maxDigits < (Text.ofNat n.natAbs).length

/-- Whether settings are turned down for what they are, rather than that the look at them failed. -/
def Fault.isRefusal : Fault → Bool
  | .nestedRule _ => false
  | .tooLong _ => false
  | _ => true

def LoadFault.isRefusal : LoadFault → Bool
  | .notFound _ => true
  | .malformed _ => true
  | .notMap _ => true
  | .unusable fault => fault.isRefusal
  | _ => false

theorem Value.mem_itemWholes_iff {values : List Value} {n : Int} :
    n ∈ itemWholes values ↔ ∃ v ∈ values, n ∈ v.wholes := by
  induction values with
  | nil => simp [itemWholes]
  | cons v values ih => simp [itemWholes, ih]

theorem tooLong?_eq_none_iff {n : Int} :
    Numeral.tooLong? n = none ↔ ¬ Numeral.maxDigits < (Text.ofNat n.natAbs).length := by
  rw [Numeral.tooLong?, Nat.not_lt]
  split <;> simp [*]

theorem Fault.showing_cases (values : List Value) (fault : Fault) :
    (∃ number, fault.showing values = .tooLong number) ∧ (∃ v ∈ values, v.Overlong) ∨
      fault.showing values = fault ∧ ¬ ∃ v ∈ values, v.Overlong := by
  have hnone : (Value.itemWholes values).findSome? Numeral.tooLong? = none ↔ ¬ ∃ v ∈ values, v.Overlong := by
    simp only [List.findSome?_eq_none_iff, Value.mem_itemWholes_iff, tooLong?_eq_none_iff]
    constructor
    · rintro h ⟨v, hv, n, hn, hlong⟩
      exact h n ⟨v, hv, hn⟩ hlong
    · rintro h n ⟨v, hv, hn⟩ hlong
      exact h ⟨v, hv, n, hn, hlong⟩
  unfold showing
  cases hs : (Value.itemWholes values).findSome? Numeral.tooLong? with
  | some number => exact .inl ⟨⟨number, rfl⟩, by simpa [hs] using hnone⟩
  | none => exact .inr ⟨rfl, hnone.1 hs⟩

/-- A check succeeds where what it looks at is good, and fails without a refusal exactly where it stumbles. -/
structure Judges {α : Type} (x : Except Fault α) (good stumbles : Prop) : Prop where
  ok_iff : (∃ a, x = .ok a) ↔ good
  stumbles_iff : (∃ fault, x = .error fault ∧ fault.isRefusal = false) ↔ stumbles

section Judges

variable {α β : Type}

theorem judges_ok {a : α} {good stumbles : Prop} (hg : good) (hs : ¬ stumbles) :
    Judges (.ok a : Except Fault α) good stumbles :=
  ⟨iff_of_true ⟨a, rfl⟩ hg, iff_of_false (by simp) hs⟩

theorem judges_error {fault : Fault} {good stumbles : Prop} (hg : ¬ good) (hs : fault.isRefusal = false ↔ stumbles) :
    Judges (.error fault : Except Fault α) good stumbles :=
  ⟨iff_of_false (by simp) hg, by simpa using hs⟩

theorem judges_showing (values : List Value) {fault : Fault} (hf : fault.isRefusal = true) {good : Prop}
    (hg : ¬ good) : Judges (.error (fault.showing values) : Except Fault α) good (∃ v ∈ values, v.Overlong) := by
  refine judges_error hg ?_
  rcases fault.showing_cases values with ⟨⟨number, hs⟩, hlong⟩ | ⟨hs, hshort⟩
  · exact iff_of_true (by rw [hs]; rfl) hlong
  · exact iff_of_false (by simp [hs, hf]) hshort

theorem Judges.bind {x : Except Fault α} {f : α → Except Fault β} {good stumbles good' stumbles' : Prop}
    (hx : Judges x good stumbles) (hf : ∀ a, x = .ok a → Judges (f a) good' stumbles') :
    Judges (x >>= f) (good ∧ good') (stumbles ∨ good ∧ stumbles') := by
  cases x with
  | error fault =>
    have hg : ¬ good := fun h => by simpa using hx.ok_iff.2 h
    exact judges_error (fun h => hg h.1) (by simpa [hg] using hx.stumbles_iff)
  | ok a =>
    have hg : good := hx.ok_iff.1 ⟨a, rfl⟩
    have hs : ¬ stumbles := fun h => by simpa using hx.stumbles_iff.2 h
    have hj : Judges (f a) (good ∧ good') (stumbles ∨ good ∧ stumbles') := by simpa [hg, hs] using hf a rfl
    exact hj

theorem Judges.refusal_iff {x : Except Fault α} {good stumbles : Prop} (h : Judges x good stumbles) :
    (∀ fault, x = .error fault → fault.isRefusal = true) ↔ ¬ stumbles := by
  rw [← h.stumbles_iff]
  simp

theorem Judges.map {x : Except Fault α} {good stumbles : Prop} (h : Judges x good stumbles) (f : α → β) :
    Judges (x >>= fun a => pure (f a)) good stumbles := by
  have hbind := h.bind fun a _ => @judges_ok β (f a) True False trivial id
  rwa [and_true, and_false, or_false] at hbind

end Judges

theorem rule?_eq_some_iff {v : Value} {r : Rule} : Draft.rule? v = some r ↔ v = .text r.name := by
  constructor
  · intro h
    cases v with
    | text name =>
      have hfound : Rule.all.find? (fun r => r.name == name) = some r := h
      have hname := List.find?_some hfound
      rw [← beq_iff_eq.1 hname]
    | _ => simp [Draft.rule?] at h
  · rintro rfl
    cases r <;> decide

theorem forall_rule?_ne_none_iff {items : List Value} :
    (∀ item ∈ items, Draft.rule? item ≠ none) ↔ ∃ rules : List Rule, items = rules.map fun r => .text r.name := by
  constructor
  · intro h
    induction items with
    | nil => exact ⟨[], rfl⟩
    | cons item items ih =>
      obtain ⟨hitem, hitems⟩ := List.forall_mem_cons.1 h
      obtain ⟨r, hr⟩ := Option.ne_none_iff_exists'.1 hitem
      obtain ⟨rules, rfl⟩ := ih hitems
      exact ⟨r :: rules, by rw [rule?_eq_some_iff.1 hr]; rfl⟩
  · rintro ⟨rules, rfl⟩ item hitem
    obtain ⟨r, -, rfl⟩ := List.mem_map.1 hitem
    simp [rule?_eq_some_iff.2 rfl]

namespace Draft

structure Valid (d : Draft) : Prop where
  level : d.level? ≠ none
  rules : ∃ rules : List Rule, d.rules = .list (rules.map fun r => .text r.name)
  tabSize : ∃ n : Nat, d.tabSize = .int n

/-- The first setting that is wrong is so in a way that cannot be told: a list or map stands where the name of a rule
should be, or the value to be shown has a number that is too long. -/
inductive Stumbles (d : Draft) : Prop
  | level (hlevel : d.level? = none) (hlong : d.level.Overlong)
  | rule {items : List Value} {item : Value} (hlevel : d.level? ≠ none) (hrules : d.rules = .list items)
      (hitem : item ∈ items) (hbad : item.isNested = true ∨ rule? item = none ∧ item.Overlong)
  | tabSize {rules : List Rule} (hlevel : d.level? ≠ none) (hrules : d.rules = .list (rules.map fun r => .text r.name))
      (htab : ¬ ∃ n : Nat, d.tabSize = .int n) (hlong : d.tabSize.Overlong)

theorem judges_checkLevel (d : Draft) :
    Judges d.checkLevel (d.level? ≠ none) (d.level? = none ∧ d.level.Overlong) := by
  unfold checkLevel
  cases hl : d.level? with
  | some level => exact judges_ok (by simp) (by simp)
  | none =>
    have hf : (Fault.unknownLevel d.level).isRefusal = true := rfl
    simpa using judges_showing [d.level] hf not_false

theorem judges_listed (v : Value) : Judges (listed v) (∃ items, v = .list items) False := by
  cases v with
  | list items => exact judges_ok ⟨items, rfl⟩ id
  | _ => exact judges_error (by simp) (by simp [Fault.isRefusal])

theorem judges_checkRules (items : List Value) :
    Judges (checkRules items) (∃ rules : List Rule, items = rules.map fun r => .text r.name)
      (∃ item ∈ items, item.isNested = true ∨ rule? item = none ∧ item.Overlong) := by
  have hmem : ∀ v, v ∈ items.filter (fun v => (rule? v).isNone) ↔ v ∈ items ∧ rule? v = none := by simp
  rw [← forall_rule?_ne_none_iff]
  unfold checkRules
  cases hn : items.find? Value.isNested with
  | some rule =>
    -- A list or map among the names stops the check, whatever else is wrong with them.
    have hrule : rule ∈ items := List.mem_of_find?_eq_some hn
    have hnested : rule.isNested = true := List.find?_some hn
    refine judges_error (fun h => h rule hrule ?_) (iff_of_true rfl ⟨rule, hrule, .inl hnested⟩)
    cases rule with
    | list items => rfl
    | map fields => rfl
    | _ => cases hnested
  | none =>
    have hflat : ∀ item ∈ items, ¬ item.isNested = true := by simpa using hn
    cases hu : items.filter (fun v => (rule? v).isNone) with
    | nil =>
      have hknown : ∀ item ∈ items, rule? item ≠ none := by
        intro item hitem hnone
        have := (hmem item).2 ⟨hitem, hnone⟩
        simp [hu] at this
      refine judges_ok hknown ?_
      rintro ⟨item, hitem, hnested | ⟨hnone, -⟩⟩
      · exact hflat item hitem hnested
      · exact hknown item hitem hnone
    | cons first more =>
      rw [hu] at hmem
      have hf : (Fault.unknownRules (first :: more)).isRefusal = true := rfl
      have hgood : ¬ ∀ item ∈ items, rule? item ≠ none := fun h =>
        h first ((hmem first).1 List.mem_cons_self).1 ((hmem first).1 List.mem_cons_self).2
      have hstumbles : (∃ v ∈ first :: more, v.Overlong) ↔
          ∃ item ∈ items, item.isNested = true ∨ rule? item = none ∧ item.Overlong := by
        constructor
        · rintro ⟨v, hv, hlong⟩
          exact ⟨v, ((hmem v).1 hv).1, .inr ⟨((hmem v).1 hv).2, hlong⟩⟩
        · rintro ⟨item, hitem, hnested | ⟨hnone, hlong⟩⟩
          · exact absurd hnested (hflat item hitem)
          · exact ⟨item, (hmem item).2 ⟨hitem, hnone⟩, hlong⟩
      rw [← hstumbles]
      exact judges_showing (first :: more) hf hgood

theorem judges_checkTabSize (v : Value) :
    Judges (checkTabSize v) (∃ n : Nat, v = .int n) ((¬ ∃ n : Nat, v = .int n) ∧ v.Overlong) := by
  have hbad : ∀ h : ¬ ∃ n : Nat, v = .int n, Judges (.error (.showing [v] (.badTabSize v)) : Except Fault Int)
      (∃ n : Nat, v = .int n) ((¬ ∃ n : Nat, v = .int n) ∧ v.Overlong) := by
    intro h
    have hf : (Fault.badTabSize v).isRefusal = true := rfl
    simpa [h] using judges_showing [v] hf h
  unfold checkTabSize
  split
  · next n =>
    split
    · next hn =>
      have hgood : ∃ m : Nat, Value.int n = .int m := ⟨n.toNat, by rw [Int.toNat_of_nonneg hn]⟩
      exact judges_ok hgood fun h => h.1 hgood
    · next hn => exact hbad (by rintro ⟨m, hm⟩; simp at hm; omega)
  · next hint => exact hbad (by rintro ⟨m, rfl⟩; exact hint m rfl)

theorem judges_check (d : Draft) : Judges d.check d.Valid d.Stumbles := by
  have hlisted : ∀ {items}, listed d.rules = .ok items → d.rules = .list items := by
    intro items h
    cases hv : d.rules with
    | list _ => simpa [listed, hv] using h
    | _ => simp [listed, hv] at h
  -- The names as conditions on the setting itself, since those on the items depend on what was listed.
  have hrules : ∀ items, listed d.rules = .ok items → Judges (checkRules items)
      (∃ rules : List Rule, d.rules = .list (rules.map fun r => .text r.name))
      (∃ items, d.rules = .list items ∧ ∃ item ∈ items, item.isNested = true ∨ rule? item = none ∧ item.Overlong) := by
    intro items h
    simpa [hlisted h] using judges_checkRules items
  have hcheck : Judges d.check _ _ :=
    d.judges_checkLevel.bind fun level _ => (judges_listed d.rules).bind fun items h =>
      (hrules items h).bind fun rules _ => (judges_checkTabSize d.tabSize).map _
  refine ⟨hcheck.ok_iff.trans ?_, hcheck.stumbles_iff.trans ?_⟩
  · constructor
    · rintro ⟨hlevel, -, hknown, htab⟩
      exact ⟨hlevel, hknown, htab⟩
    · rintro ⟨hlevel, ⟨rules, hknown⟩, htab⟩
      exact ⟨hlevel, ⟨_, hknown⟩, ⟨rules, hknown⟩, htab⟩
  · constructor
    · rintro (⟨hlevel, hlong⟩ | ⟨hlevel, hfalse | ⟨-, ⟨items, hi, item, hitem, hbad⟩ | ⟨⟨rules, hr⟩, htab, hlong⟩⟩⟩)
      · exact .level hlevel hlong
      · exact hfalse.elim
      · exact .rule hlevel hi hitem hbad
      · exact .tabSize hlevel hr htab hlong
    · rintro (⟨hlevel, hlong⟩ | ⟨hlevel, hi, hitem, hbad⟩ | ⟨hlevel, hr, htab, hlong⟩)
      · exact .inl ⟨hlevel, hlong⟩
      · exact .inr ⟨hlevel, .inr ⟨⟨_, hi⟩, .inl ⟨_, hi, _, hitem, hbad⟩⟩⟩
      · exact .inr ⟨hlevel, .inr ⟨⟨_, hr⟩, .inr ⟨⟨_, hr⟩, htab, hlong⟩⟩⟩

/-- There is a file of this path, and this is the value that is read from it. -/
structure Holds (read : Reader) (folder : Folder) (path : Path) (v : Value) : Prop where
  has_eq : folder.has path = .ok true
  value_eq : ∃ bytes, folder.read path = .ok bytes ∧ read bytes = .ok v

/-- What a folder has where settings come from: a file with some value, or no file. -/
inductive Found (read : Reader) (folder : Folder) : Origin → Option (Path × Value) → Prop
  | named {path : Path} {v : Value} (h : Holds read folder path v) : Found read folder (.named path) (some (path, v))
  | first {path : Path} {rest : List Path} {v : Value} (h : Holds read folder path v) :
      Found read folder (.search (path :: rest)) (some (path, v))
  | later {path : Path} {rest : List Path} {found : Option (Path × Value)} (hhas : folder.has path = .ok false)
      (h : Found read folder (.search rest) found) : Found read folder (.search (path :: rest)) found
  | nowhere : Found read folder (.search []) none

def ofFound : Option (Path × Value) → Except LoadFault Draft
  | none => .ok {}
  | some (path, v) => ofValue path v

def build (env : Environment) (found : Option (Path × Value)) : Except LoadFault (Draft × Settings) := do
  let d ← ofFound found
  let d := d.setEnvironment env
  return (d, ← d.check.mapError LoadFault.unusable)

variable {read : Reader} {folder : Folder}

theorem Holds.ofFile_eq {path : Path} {v : Value} (h : Holds read folder path v) :
    ofFile read folder path = ofValue path v := by
  obtain ⟨bytes, hread, hvalue⟩ := h.value_eq
  rw [ofFile, hread]
  change (read bytes).mapError (ReadFault.toLoad path) >>= ofValue path = _
  rw [hvalue]
  rfl

theorem Found.ofPaths_eq {paths : List Path} {found : Option (Path × Value)}
    (h : Found read folder (.search paths) found) : ofPaths read folder paths = ofFound found := by
  induction paths with
  | nil =>
    cases h
    rfl
  | cons path rest ih =>
    cases h with
    | first h =>
      rw [ofPaths, h.has_eq]
      exact h.ofFile_eq
    | later hhas h =>
      rw [ofPaths, hhas]
      exact ih h

theorem Found.loadWith_eq {origin : Origin} {found : Option (Path × Value)} (h : Found read folder origin found)
    (env : Environment) : loadWith read env folder origin = build env found := by
  cases origin with
  | named path =>
    cases h with
    | @named _ v h =>
      have hpath : ofPath read folder path = ofFound (some (path, v)) := by
        rw [ofPath, h.has_eq]
        exact h.ofFile_eq
      rw [loadWith, build, ← hpath]
  | search paths => rw [loadWith, build, ← h.ofPaths_eq]

theorem isRefusal_of_ofFound {found : Option (Path × Value)} {fault : LoadFault} (h : ofFound found = .error fault) :
    fault.isRefusal = true := by
  cases found with
  | none => cases h
  | some file =>
    obtain ⟨path, v⟩ := file
    simp only [ofFound, ofValue] at h
    split at h
    · cases h
    · cases h
    · cases h
      rfl

theorem build_of_ok {found : Option (Path × Value)} {d : Draft} (h : ofFound found = .ok d) (env : Environment) :
    build env found =
      ((d.setEnvironment env).check.mapError LoadFault.unusable).map fun s => (d.setEnvironment env, s) := by
  rw [build, h]
  change (d.setEnvironment env).check.mapError LoadFault.unusable >>= (fun s => pure (d.setEnvironment env, s)) = _
  cases (d.setEnvironment env).check <;> rfl

theorem check_of_build {env : Environment} {found : Option (Path × Value)} {d : Draft} {s : Settings}
    (h : build env found = .ok (d, s)) : d.check = .ok s := by
  cases hf : ofFound found with
  | error fault =>
    rw [build, hf] at h
    cases h
  | ok d₀ =>
    rw [build_of_ok hf] at h
    cases hc : (d₀.setEnvironment env).check with
    | error fault =>
      rw [hc] at h
      cases h
    | ok s₀ =>
      rw [hc] at h
      cases h
      exact hc

theorem build_refusal_iff (env : Environment) (found : Option (Path × Value)) :
    (∀ fault, build env found = .error fault → fault.isRefusal = true) ↔
      ∀ d, ofFound found = .ok d → ¬ (d.setEnvironment env).Stumbles := by
  cases hf : ofFound found with
  | error fault =>
    refine iff_of_true (fun other h => ?_) (by simp)
    rw [build, hf] at h
    cases h
    exact isRefusal_of_ofFound hf
  | ok d =>
    rw [build_of_ok hf]
    simp only [Except.ok.injEq, forall_eq']
    rw [← (judges_check _).refusal_iff]
    cases (d.setEnvironment env).check with
    | error fault =>
      constructor
      · intro h other hother
        cases hother
        exact h _ rfl
      · intro h other hother
        cases hother
        exact h fault rfl
    | ok s =>
      constructor
      · intro _ other hother
        cases hother
      · intro _ other hother
        cases hother

/-- Settings that can be reached by overrides, and whether the last of these was made. -/
inductive Reached (env : Environment) (found : Option (Path × Value)) : Draft → Bool → Prop
  | built {d : Draft} {s : Settings} (h : build env found = .ok (d, s)) : Reached env found d true
  | override {d : Draft} {made : Bool} (h : Reached env found d made) (name : Text) (v : Value) :
      Reached env found (d.override name v).1 (d.override name v).2.isOk

theorem valid_iff_isOk_check (d : Draft) : d.Valid ↔ d.check.isOk = true := by
  rw [← (judges_check d).ok_iff]
  cases d.check with
  | error fault => exact iff_of_false (by simp) Bool.false_ne_true
  | ok s => exact iff_of_true ⟨s, rfl⟩ rfl

theorem Reached.valid_iff {env : Environment} {found : Option (Path × Value)} {d : Draft} {made : Bool}
    (h : Reached env found d made) : d.Valid ↔ made = true := by
  cases h with
  | built h =>
    rw [valid_iff_isOk_check, check_of_build h]
    rfl
  | override h name v => exact valid_iff_isOk_check _

/-- Whatever reads the file, settings are built or refused, and an override is made or refused, except where the check
of them stumbles. What an override sets stays also when it fails, so that settings can be used exactly as long as the
last override was made, and an override that fails after one that was made changes them. -/
theorem refused_unless_stumbles (env : Environment) (found : Option (Path × Value)) :
    (∀ read folder origin, Found read folder origin found →
      loadWith read env folder origin = build env found) ∧
    ((∀ fault, build env found = .error fault → fault.isRefusal = true) ↔
      ∀ d, ofFound found = .ok d → ¬ (d.setEnvironment env).Stumbles) ∧
    ∀ d made, Reached env found d made → (d.Valid ↔ made = true) ∧ ∀ name v,
      ((∀ fault, (d.override name v).2 = .error fault → fault.isRefusal = true) ↔ ¬ (d.set name v).Stumbles) ∧
      ∀ fault, (d.override name v).2 = .error fault →
        ¬ (d.override name v).1.Valid ∧ (made = true → (d.override name v).1 ≠ d) := by
  refine ⟨fun read folder origin h => h.loadWith_eq env, build_refusal_iff env found, ?_⟩
  intro d made hd
  refine ⟨hd.valid_iff, fun name v => ⟨(judges_check (d.set name v)).refusal_iff, fun fault hfault => ?_⟩⟩
  have hinvalid : ¬ (d.override name v).1.Valid := by
    rw [(hd.override name v).valid_iff, hfault]
    exact Bool.false_ne_true
  refine ⟨hinvalid, fun hmade hsame => hinvalid ?_⟩
  rw [hsame]
  exact hd.valid_iff.2 hmade

def settingsPath : Path := Path.ofText ".rmscheck.yaml"

def oneFile : Folder := { files := [(settingsPath, [])] }

def wideTabs : Value := .map [(.text "tab_size", .int 4)]

def hdEnvironment : Environment := { level := some "hd" }

def hdDraft : Draft := { level := .text "hd", tabSize := .int 4, path := some settingsPath }

theorem valid_hdDraft : hdDraft.Valid :=
  ⟨by decide +kernel, ⟨Rule.defaults, rfl⟩, ⟨4, rfl⟩⟩

theorem wideTabs_refused_unless_stumbles :
    loadWith (fun _ => .ok wideTabs) hdEnvironment oneFile (.search [settingsPath])
      = build hdEnvironment (some (settingsPath, wideTabs)) ∧
    Reached hdEnvironment (some (settingsPath, wideTabs)) hdDraft true ∧ hdDraft.Valid ∧
    ∃ fault, (hdDraft.override "tab_size" (.int (-1))).2 = .error fault ∧
      ¬ (hdDraft.override "tab_size" (.int (-1))).1.Valid ∧ (hdDraft.override "tab_size" (.int (-1))).1 ≠ hdDraft := by
  have hfind : oneFile.find? settingsPath = .ok [] := by simp [Folder.find?, oneFile]
  have hfound : Found (fun _ => .ok wideTabs) oneFile (.search [settingsPath]) (some (settingsPath, wideTabs)) :=
    .first ⟨by rw [Folder.has, hfind], [], by rw [Folder.read, hfind]; rfl, rfl⟩
  have hreached : Reached hdEnvironment (some (settingsPath, wideTabs)) hdDraft true := by
    obtain ⟨s, hs⟩ := (judges_check hdDraft).ok_iff.2 valid_hdDraft
    refine .built (s := s) ?_
    have hvalue : ofFound (some (settingsPath, wideTabs)) = .ok { tabSize := .int 4, path := some settingsPath } := by
      simp +decide [ofFound, ofValue, wideTabs, Value.isTrue, setAll, set]
    have hdraft : setEnvironment hdEnvironment { tabSize := .int 4, path := some settingsPath } = hdDraft := rfl
    rw [build_of_ok hvalue, hdraft, hs]
    rfl
  have htab : (hdDraft.set "tab_size" (.int (-1))).tabSize = .int (-1) := by simp +decide [set]
  obtain ⟨fault, hfault⟩ : ∃ fault, (hdDraft.override "tab_size" (.int (-1))).2 = .error fault := by
    cases hc : (hdDraft.override "tab_size" (.int (-1))).2 with
    | error fault => exact ⟨fault, rfl⟩
    | ok s =>
      obtain ⟨n, hn⟩ := ((judges_check _).ok_iff.1 ⟨s, hc⟩).tabSize
      rw [htab, Value.int.injEq] at hn
      omega
  obtain ⟨hload, -, hall⟩ := refused_unless_stumbles hdEnvironment (some (settingsPath, wideTabs))
  obtain ⟨hvalid, hoverride⟩ := hall hdDraft true hreached
  obtain ⟨hinvalid, hne⟩ := (hoverride "tab_size" (.int (-1))).2 fault hfault
  exact ⟨hload _ _ _ hfound, hreached, hvalid.2 rfl, fault, hfault, hinvalid, hne rfl⟩

/-- A level that is refused stays, and then the settings have none. A list in place of the name of a rule is not even
refused. -/
theorem default_override_stays :
    ({} : Draft).check.isOk = true ∧
    (({} : Draft).override "compatibility" (.text "nonsense")).2 = .error (.unknownLevel (.text "nonsense")) ∧
    (({} : Draft).override "compatibility" (.text "nonsense")).1.level? = none ∧
    (({} : Draft).override "lints" (.list [.list []])).2 = .error (.nestedRule (.list [])) ∧
    (Fault.nestedRule (.list [])).isRefusal = false := by
  have hnone : ({ level := .text "nonsense" } : Draft).level? = none := by decide +kernel
  have hsome : ({ rules := .list [.list []] } : Draft).level? = some .conquerors := by decide +kernel
  have hlevel : ({} : Draft).set "compatibility" (.text "nonsense") = { level := .text "nonsense" } := rfl
  have hrules : ({} : Draft).set "lints" (.list [.list []]) = { rules := .list [.list []] } := by simp +decide [set]
  refine ⟨by decide +kernel, ?_, ?_, ?_, rfl⟩
  · rw [override, hlevel, check, checkLevel, hnone]
    rfl
  · rw [override, hlevel, hnone]
  · rw [override, hrules, check, checkLevel, hsome]
    rfl

end Draft

end MapScript.Settings
