import Mathlib.Data.List.TakeWhile
import MapScript.Atom.Reader
import MapScript.Proofs.Scanning

/-! What reading can make of a word and of the words after it, said once for all statements. -/

namespace MapScript

namespace Keyword

def alone? : Keyword → Option (Word → Atom)
  | .openBrace => some .openBlock
  | .closeBrace => some .closeBlock
  | .elseWord => some .elseThen
  | .endIfWord => some .endIf
  | .startRandom => some .startRandom
  | .endRandom => some .endRandom
  | _ => none

/-- The atom of a keyword that needs one more word, and the flaw if there is none. -/
def unary? : Keyword → Option ((Word → Word → Atom) × Flaw.Kind)
  | .ifWord => some (.ifThen, .missingIfCondition)
  | .elseIfWord => some (.elseIf, .missingIfCondition)
  | .percentChance => some (.percentChance, .missingPercentChance)
  | .define => some (.define, .missingDefineName)
  | .undefine => some (.undefine, .missingDefineName)
  | _ => none

theorem find?_spelling (k : Keyword) : all.find? (fun j => j.spelling == k.spelling) = some k := by
  cases k <;> decide

theorem ofText?_eq_some {t : Text} {k : Keyword} : ofText? t = some k ↔ Text.lower t = k.spelling := by
  constructor
  · intro h
    have hs := List.find?_some h
    simpa using (beq_iff_eq.1 hs).symm
  · intro h
    simp only [ofText?, h]
    exact find?_spelling k

end Keyword

theorem Atom.stop_eq_getLastD {a : Atom} (h : a.kind ≠ .comment) :
    a.stop = (a.tail.getLastD a.head).stop := by
  cases a with
  | comment => exact absurd rfl h
  | _ => rfl

/-- What a word is where a statement may start. -/
inductive Lead where
  | mark
  | keyword (k : Keyword)
  | name (entry : Entry)
  | inline
  | unknown

def Lead.of (t : Text) : Lead :=
  if Catalog.isSectionShaped t && Catalog.contains t then .mark
  else
    match Keyword.ofText? t with
    | some k => .keyword k
    | none =>
      match Catalog.find? t with
      | some entry => .name entry
      | none => if Item.isInlineComment t then .inline else .unknown

namespace Lead

def Fits (t : Text) : Lead → Prop
  | .mark => Catalog.isSectionShaped t = true ∧ Catalog.contains t = true
  | .keyword k => Keyword.ofText? t = some k
  | .name entry => Catalog.find? t = some entry
  | .inline => Item.isInlineComment t = true
  | .unknown => Catalog.find? t = none

theorem of_fits (t : Text) : (of t).Fits t := by
  unfold of
  split
  · next h => simpa [Fits] using h
  · split
    · next h => exact h
    · split
      · next h => exact h
      · split
        · next h => exact h
        · next h _ => exact h

end Lead

namespace Item

/-- How an item comes from a word and the `rest` of the words, with the number of words that it takes from
these. -/
inductive Reading (source : Text) (w : Word) : List Word → Item → Nat → Prop
  | mark {rest} (hw : Lead.of w.text = .mark) : Reading source w rest (sound (.sectionMark w)) 0
  | alone {rest k build} (hw : Lead.of w.text = .keyword k) (hk : k.alone? = some build) :
      Reading source w rest (sound (build w)) 0
  | unary {k build missing arg more} (hw : Lead.of w.text = .keyword k)
      (hk : k.unary? = some (build, missing)) (ha : isArgument arg.text = true) :
      Reading source w (arg :: more) (sound (build w arg)) 1
  | starved {rest k build missing} (hw : Lead.of w.text = .keyword k)
      (hk : k.unary? = some (build, missing)) (hr : ∀ next ∈ rest.head?, isArgument next.text = false) :
      Reading source w rest (flawed (.other w) missing) 0
  | const {name value more} (hw : Lead.of w.text = .keyword .const) (hn : isArgument name.text = true)
      (hv : isArgument value.text = true) :
      Reading source w (name :: value :: more) (sound (.const w name (some value))) 2
  | valueless {name more} (hw : Lead.of w.text = .keyword .const) (hn : isArgument name.text = true)
      (hr : ∀ next ∈ more.head?, isArgument next.text = false) :
      Reading source w (name :: more) (flawed (.const w name none) .missingConstValue) 1
  | nameless {rest} (hw : Lead.of w.text = .keyword .const)
      (hr : ∀ next ∈ rest.head?, isArgument next.text = false) :
      Reading source w rest (flawed (.other w) .missingConstName) 0
  | closed {inner closer more} (hw : Lead.of w.text = .keyword .openComment)
      (hi : ∀ v ∈ inner, v.text ≠ closeMark) (hc : closer.text = closeMark) :
      Reading source w (inner ++ closer :: more)
        (sound (.comment w (source.slice w.stop closer.start) (some closer) closer.stop)) (inner.length + 1)
  | unclosed {inner} (hw : Lead.of w.text = .keyword .openComment)
      (hi : ∀ v ∈ inner, v.text ≠ closeMark) :
      Reading source w inner
        (flawed (.comment w (source.drop w.stop) none (inner.getLastD w).stop) .unclosedComment) inner.length
  | command {entry args more} (hw : Lead.of w.text = .name entry) (hl : args.length = entry.arity)
      (ha : ∀ arg ∈ args, isArgument arg.text = true) :
      Reading source w (args ++ more) (sound (.command w args)) args.length
  | short {entry args more} (hw : Lead.of w.text = .name entry) (hl : args.length < entry.arity)
      (ha : ∀ arg ∈ args, isArgument arg.text = true)
      (hr : ∀ next ∈ more.head?, isArgument next.text = false) :
      Reading source w (args ++ more) (flawed (.command w args) .missingCommandArgs) args.length
  | inline {rest} (hw : Lead.of w.text = .inline) : Reading source w rest (sound (inlineComment w)) 0
  | unknown {rest} (hw : Lead.of w.text = .unknown) :
      Reading source w rest (flawed (.other w) .unknownWord) 0

theorem takeArgs_cases (n : Nat) (words : List Word) :
    ∃ args more, words = args ++ more ∧ takeArgs n words = args ∧
      (∀ arg ∈ args, isArgument arg.text = true) ∧
      (args.length = n ∨
        args.length < n ∧ ∀ next ∈ more.head?, isArgument next.text = false) := by
  induction n generalizing words with
  | zero => exact ⟨[], words, by simp [takeArgs]⟩
  | succ n ih =>
    cases words with
    | nil => exact ⟨[], [], by simp [takeArgs]⟩
    | cons w words =>
      by_cases hw : isArgument w.text = true
      · obtain ⟨args, more, hs, ht, ha, hl⟩ := ih words
        refine ⟨w :: args, more, by simp [hs], ?_, ?_, ?_⟩
        · rw [← ht]
          simp [takeArgs, hw]
        · simpa [hw] using ha
        · simpa using hl
      · exact ⟨[], w :: words, by simp [takeArgs, hw]⟩

theorem takeArgs_append {n : Nat} {args more : List Word} (ha : ∀ arg ∈ args, isArgument arg.text = true)
    (hl : args.length = n ∨
      args.length < n ∧ ∀ next ∈ more.head?, isArgument next.text = false) :
    takeArgs n (args ++ more) = args := by
  induction args generalizing n with
  | nil =>
    cases n with
    | zero => simp [takeArgs]
    | succ n =>
      cases more with
      | nil => simp [takeArgs]
      | cons w more =>
        have hw : isArgument w.text = false := by simpa using hl
        simp [takeArgs, hw]
  | cons arg args ih =>
    cases n with
    | zero => simp at hl
    | succ n =>
      have hi := ih (n := n) (fun a h => ha a (by simp [h])) (by simpa using hl)
      simpa [takeArgs, ha arg (by simp)] using hi

theorem readComment_closed (source : Text) (w : Word) {inner : List Word} {closer : Word} (more : List Word)
    (hi : ∀ v ∈ inner, v.text ≠ closeMark) (hc : closer.text = closeMark) :
    readComment source w (inner ++ closer :: more)
      = (sound (.comment w (source.slice w.stop closer.start) (some closer) closer.stop),
          inner.length + 1) := by
  have ht : (inner ++ closer :: more).takeWhile (fun v => v.text != closeMark) = inner := by
    rw [List.takeWhile_append_of_pos (by simpa using hi)]
    simp [hc]
  simp [readComment, ht]

theorem readComment_unclosed (source : Text) (w : Word) {inner : List Word}
    (hi : ∀ v ∈ inner, v.text ≠ closeMark) :
    readComment source w inner
      = (flawed (.comment w (source.drop w.stop) none (inner.getLastD w).stop) .unclosedComment,
          inner.length) := by
  have ht : inner.takeWhile (fun v => v.text != closeMark) = inner := by
    rw [List.takeWhile_eq_self_iff]
    simpa using hi
  simp [readComment, ht]

def readAs (source : Text) (w : Word) (rest : List Word) : Lead → Item × Nat
  | .mark => (sound (.sectionMark w), 0)
  | .keyword .openComment => readComment source w rest
  | .keyword .const => readConst w rest
  | .keyword k =>
    match k.alone?, k.unary? with
    | some build, _ => (sound (build w), 0)
    | none, some (build, missing) => readWithArg (build w) missing w rest
    | none, none => (flawed (.other w) .unknownWord, 0)
  | .name entry => readCommand entry w rest
  | .inline => (sound (inlineComment w), 0)
  | .unknown => (flawed (.other w) .unknownWord, 0)

theorem read_eq_readAs (source : Text) (w : Word) (rest : List Word) :
    read source w rest = readAs source w rest (Lead.of w.text) := by
  unfold read Lead.of
  by_cases hs : (Catalog.isSectionShaped w.text && Catalog.contains w.text) = true
  · simp [hs, readAs]
  · cases hk : Keyword.ofText? w.text with
    | some k => cases k <;> simp [hs, readAs, Keyword.alone?, Keyword.unary?]
    | none =>
      cases hf : Catalog.find? w.text with
      | some entry => simp [hs, readAs]
      | none => by_cases hi : isInlineComment w.text = true <;> simp [hs, hi, readAs]

theorem Reading.read_eq {source : Text} {w : Word} {rest : List Word} {item : Item} {used : Nat}
    (h : Reading source w rest item used) : read source w rest = (item, used) := by
  rw [read_eq_readAs]
  cases h with
  | mark hw => simp [hw, readAs]
  | @alone _ k build hw hk => cases k <;> simp_all [readAs, Keyword.alone?]
  | @unary k build missing arg more hw hk ha =>
    have ht : takeArgs 1 (arg :: more) = [arg] :=
      @takeArgs_append 1 [arg] more (by simpa using ha) (by simp)
    cases k <;> simp_all [readAs, Keyword.alone?, Keyword.unary?, readWithArg]
  | @starved _ k build missing hw hk hr =>
    have ht : takeArgs 1 rest = [] := @takeArgs_append 1 [] rest (by simp) (by simpa using hr)
    cases k <;> simp_all [readAs, Keyword.alone?, Keyword.unary?, readWithArg]
  | @const name value more hw hn hv =>
    have ht : takeArgs 2 (name :: value :: more) = [name, value] :=
      @takeArgs_append 2 [name, value] more (by simp [hn, hv]) (by simp)
    simp [hw, readAs, readConst, ht]
  | @valueless name more hw hn hr =>
    have ht : takeArgs 2 (name :: more) = [name] :=
      @takeArgs_append 2 [name] more (by simp [hn]) (by simpa using hr)
    simp [hw, readAs, readConst, ht]
  | nameless hw hr =>
    have ht : takeArgs 2 rest = [] := @takeArgs_append 2 [] rest (by simp) (by simpa using hr)
    simp [hw, readAs, readConst, ht]
  | closed hw hi hc => simp [hw, readAs, readComment_closed source w _ hi hc]
  | unclosed hw hi => simp [hw, readAs, readComment_unclosed source w hi]
  | command hw hl ha => simp [hw, readAs, readCommand, takeArgs_append ha (.inl hl), hl]
  | short hw hl ha hr =>
    simp [hw, readAs, readCommand, takeArgs_append ha (.inr ⟨hl, hr⟩), Nat.ne_of_lt hl]
  | inline hw => simp [hw, readAs]
  | unknown hw => simp [hw, readAs]

theorem exists_reading_comment (source : Text) {w : Word} (rest : List Word)
    (hw : Lead.of w.text = .keyword .openComment) :
    ∃ item used, Reading source w rest item used := by
  have hs := List.takeWhile_append_dropWhile (p := fun v : Word => v.text != closeMark) (l := rest)
  have hi : ∀ v ∈ rest.takeWhile (fun v => v.text != closeMark), v.text ≠ closeMark := by
    intro v hv
    simpa using List.mem_takeWhile_imp hv
  cases hd : rest.dropWhile (fun v => v.text != closeMark) with
  | nil =>
    rw [hd, List.append_nil] at hs
    rw [hs] at hi
    exact ⟨_, _, .unclosed hw hi⟩
  | cons closer more =>
    have hc : closer.text = closeMark := by
      have hh := List.head?_dropWhile_not (fun v : Word => v.text != closeMark) rest
      simpa [hd] using hh
    rw [← hs, hd]
    exact ⟨_, _, .closed hw hi hc⟩

theorem exists_reading_const (source : Text) {w : Word} (rest : List Word)
    (hw : Lead.of w.text = .keyword .const) : ∃ item used, Reading source w rest item used := by
  obtain ⟨args, more, rfl, _, ha, hl⟩ := takeArgs_cases 2 rest
  match args with
  | [] => exact ⟨_, _, .nameless hw (by simpa using hl)⟩
  | [name] => exact ⟨_, _, .valueless hw (ha name (by simp)) (by simpa using hl)⟩
  | [name, value] => exact ⟨_, _, .const hw (ha name (by simp)) (ha value (by simp))⟩
  | _ :: _ :: _ :: _ =>
    simp only [List.length_cons] at hl
    omega

theorem exists_reading_unary (source : Text) {w : Word} (rest : List Word) {k : Keyword}
    {build : Word → Word → Atom} {missing : Flaw.Kind} (hw : Lead.of w.text = .keyword k)
    (hk : k.unary? = some (build, missing)) : ∃ item used, Reading source w rest item used := by
  obtain ⟨args, more, rfl, _, ha, hl⟩ := takeArgs_cases 1 rest
  match args with
  | [] => exact ⟨_, _, .starved hw hk (by simpa using hl)⟩
  | [arg] => exact ⟨_, _, .unary hw hk (ha arg (by simp))⟩
  | _ :: _ :: _ => simp at hl

theorem exists_reading_name (source : Text) {w : Word} (rest : List Word) {entry : Entry}
    (hw : Lead.of w.text = .name entry) : ∃ item used, Reading source w rest item used := by
  obtain ⟨args, more, rfl, _, ha, hl | ⟨hl, hr⟩⟩ := takeArgs_cases entry.arity rest
  · exact ⟨_, _, .command hw hl ha⟩
  · exact ⟨_, _, .short hw hl ha hr⟩

theorem exists_reading (source : Text) (w : Word) (rest : List Word) :
    ∃ item used, Reading source w rest item used := by
  cases hw : Lead.of w.text with
  | mark => exact ⟨_, _, .mark hw⟩
  | keyword k =>
    by_cases hc : k = .openComment
    · exact exists_reading_comment source rest (by rw [hw, hc])
    · by_cases hn : k = .const
      · exact exists_reading_const source rest (by rw [hw, hn])
      · cases ha : k.alone? with
        | some build => exact ⟨_, _, .alone hw ha⟩
        | none =>
          cases hu : k.unary? with
          | some built => exact exists_reading_unary source rest hw hu
          | none => cases k <;> simp [Keyword.alone?, Keyword.unary?] at hc hn ha hu
  | name entry => exact exists_reading_name source rest hw
  | inline => exact ⟨_, _, .inline hw⟩
  | unknown => exact ⟨_, _, .unknown hw⟩

theorem reading (source : Text) (w : Word) (rest : List Word) :
    Reading source w rest (read source w rest).1 (read source w rest).2 := by
  obtain ⟨item, used, h⟩ := exists_reading source w rest
  simpa [h.read_eq] using h

theorem Reading.used_le {source : Text} {w : Word} {rest : List Word} {item : Item} {used : Nat}
    (h : Reading source w rest item used) : used ≤ rest.length := by
  cases h <;> simp

theorem readFrom_eq_drop (source : Text) (skip : Nat) (words : List Word) :
    readFrom source skip words = readFrom source 0 (words.drop skip) := by
  induction words generalizing skip with
  | nil => simp [readFrom]
  | cons w words ih =>
    cases skip with
    | zero => simp
    | succ skip => simpa [readFrom] using ih skip

theorem readFrom_cons {source : Text} {w : Word} {rest : List Word} {item : Item} {used : Nat}
    (h : Reading source w rest item used) :
    readFrom source 0 (w :: rest) = item :: readFrom source 0 (rest.drop used) := by
  rw [readFrom, h.read_eq]
  exact congrArg (item :: ·) (readFrom_eq_drop source used rest)

end Item

theorem Atom.parse_eq_of_sound {file : Int} {source : Text} {atoms : List Atom}
    (h : Item.parse file source = atoms.map Item.sound) : Atom.parse file source = atoms := by
  rw [Atom.parse, h, List.map_map]
  exact List.map_id atoms

end MapScript
