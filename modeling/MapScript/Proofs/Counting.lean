import MapScript.Proofs.Marks

/-! How far the pass over the words has got in the arguments of a name. The pass counts them word by word, and the
reader looks ahead and takes them all together; where marks are words of their own, the two number them alike. -/

namespace MapScript

open Item (openMark isArgument)

theorem Catalog.not_openMark_of_find? {t : Text} {entry : Entry} (h : find? t = some entry) :
    t.startsWith openMark = false := by
  rw [Bool.eq_false_iff]
  intro ho
  obtain ⟨rest, rfl⟩ := List.isPrefixOf_iff_prefix.1 ho
  have hnone : find? (openMark ++ rest) = none := find?_eq_none rfl
  exact Option.some_ne_none entry (h.symm.trans hnone)

namespace Cursor

/-- Either no name is being read, or no more arguments have been counted than it has. -/
def Bounded (c : Cursor) : Prop :=
  c.entry = none ∧ c.argIndex = 0 ∨ ∃ entry, c.entry = some entry ∧ c.argIndex ≤ entry.arity

def pass (c : Cursor) (w : Word) : Cursor := (c.enter w.text).leave w.text

def after (c : Cursor) (words : List Word) : Cursor := words.foldl pass c

theorem after_append (c : Cursor) (xs ys : List Word) : c.after (xs ++ ys) = (c.after xs).after ys :=
  List.foldl_append

/-- When a word comes, a name that is still being read has room for it. -/
theorem Bounded.enter {c : Cursor} (h : c.Bounded) (t : Text) :
    (c.enter t).entry = none ∧ (c.enter t).argIndex = 0 ∨
      ∃ entry, (c.enter t).entry = some entry ∧ (c.enter t).argIndex < entry.arity := by
  have hmark : ∀ d : Cursor, (if t.startsWith openMark then { d with inComment := true } else d).entry = d.entry ∧
      (if t.startsWith openMark then { d with inComment := true } else d).argIndex = d.argIndex := by
    intro d
    split <;> exact ⟨rfl, rfl⟩
  rw [Cursor.enter, (hmark _).1, (hmark _).2]
  obtain ⟨he, hi⟩ | ⟨entry, he, -⟩ := h
  · simp [he, hi]
  · by_cases hd : entry.arity ≤ c.argIndex
    · simp [he, hd]
    · exact .inr ⟨entry, by simp [he, hd], by simpa [he, hd] using Nat.lt_of_not_le hd⟩

theorem Bounded.pass {c : Cursor} (h : c.Bounded) (w : Word) : (c.pass w).Bounded := by
  have hroom := h.enter w.text
  rw [Cursor.pass]
  generalize c.enter w.text = d at hroom
  unfold leave
  split
  · exact hroom.imp_right fun ⟨entry, he, hi⟩ => ⟨entry, he, Nat.le_of_lt hi⟩
  · cases hf : Catalog.find? w.text with
    | some entry => exact .inr ⟨entry, rfl, Nat.zero_le _⟩
    | none =>
      obtain ⟨he, hi⟩ | ⟨entry, he, hi⟩ := hroom
      · exact .inl (by simp [he, hi])
      · exact .inr ⟨entry, by simp [he], by simpa [he] using Nat.succ_le_of_lt hi⟩

theorem Bounded.after {c : Cursor} (h : c.Bounded) (words : List Word) : (c.after words).Bounded := by
  induction words generalizing c with
  | nil => exact h
  | cons w words ih => exact ih (h.pass w)

theorem pass_name {c : Cursor} (hc : c.inComment = false) {w : Word} {entry : Entry}
    (hw : Catalog.find? w.text = some entry) : c.pass w = ⟨some entry, 0, false⟩ := by
  have hin : (c.enter w.text).inComment = false := by
    simp [Marks.enter_inComment, Marks.inside, hc, Catalog.not_openMark_of_find? hw]
  rw [pass, leave, hin, hw]
  simp

section Arguments

variable {entry : Entry} {i : Nat}

theorem enter_argument (hi : i < entry.arity) {t : Text} (ht : isArgument t = true) :
    enter ⟨some entry, i, false⟩ t = ⟨some entry, i, false⟩ := by
  have ho := Item.not_openMark_of_isArgument ht
  have hroom : ¬ entry.arity ≤ i := Nat.not_le_of_lt hi
  simp [enter, ho, hroom]

theorem pass_argument (hi : i < entry.arity) {w : Word} (hw : isArgument w.text = true) :
    pass ⟨some entry, i, false⟩ w = ⟨some entry, i + 1, false⟩ := by
  have hf : Catalog.find? w.text = none := by
    simp only [isArgument, Catalog.contains, Bool.and_eq_true] at hw
    simpa using hw.1.1.2
  rw [pass, enter_argument hi hw, leave, hf]
  rfl

theorem after_arguments {args : List Word} (hl : i + args.length ≤ entry.arity)
    (ha : ∀ arg ∈ args, isArgument arg.text = true) :
    after ⟨some entry, i, false⟩ args = ⟨some entry, i + args.length, false⟩ := by
  induction args generalizing i with
  | nil => rfl
  | cons arg args ih =>
    rw [List.length_cons] at hl
    rw [after, List.foldl_cons, pass_argument (by omega) (ha arg (by simp)), List.length_cons]
    have hrest := @ih (i + 1) (by omega) fun v hv => ha v (by simp [hv])
    rwa [Nat.add_right_comm, Nat.add_assoc] at hrest

theorem after_name {c : Cursor} (hc : c.inComment = false) {w : Word} (hw : Catalog.find? w.text = some entry)
    {args : List Word} (hl : args.length ≤ entry.arity) (ha : ∀ arg ∈ args, isArgument arg.text = true) :
    c.after (w :: args) = ⟨some entry, args.length, false⟩ := by
  have hcount := @after_arguments entry 0 args (by omega) ha
  rw [Nat.zero_add] at hcount
  rw [after, List.foldl_cons, pass_name hc hw]
  exact hcount

end Arguments

end Cursor

namespace Keyword

theorem arity_spelling_of_unary? {k : Keyword} {build : Word → Word → Atom} {missing : Flaw.Kind}
    (hk : k.unary? = some (build, missing)) : (Catalog.find? k.spelling).map Entry.arity = some 1 := by
  have hall : ∀ j ∈ [Keyword.ifWord, .elseIfWord, .percentChance, .define, .undefine],
      (Catalog.find? j.spelling).map Entry.arity = some 1 := by decide +kernel
  refine hall k ?_
  cases k <;> simp_all [unary?]

theorem arity_spelling_const : (Catalog.find? Keyword.const.spelling).map Entry.arity = some 2 := by
  decide +kernel

end Keyword

/-- The atoms whose words after the first are counted as arguments: commands, and statements with a keyword that
is spelled as in the catalog. -/
def Atom.IsCounted (a : Atom) : Prop :=
  a.kind = .command ∨
    a.kind ∈ [Kind.const, .define, .undefine, .ifThen, .elseIf, .percentChance] ∧
      Text.lower a.head.text = a.head.text

instance (a : Atom) : Decidable a.IsCounted := inferInstanceAs (Decidable (_ ∨ _))

namespace Keyword

theorem not_isCounted_of_alone? {k : Keyword} {build : Word → Atom} (hk : k.alone? = some build) (w : Word) :
    ¬ (build w).IsCounted := by
  cases k <;> simp only [alone?, Option.some.injEq, reduceCtorEq] at hk <;> subst hk <;>
    simp [Atom.IsCounted, Atom.kind]

theorem lower_eq_of_isCounted {k : Keyword} {build : Word → Word → Atom} {missing : Flaw.Kind}
    (hk : k.unary? = some (build, missing)) {w arg : Word} (hc : (build w arg).IsCounted) :
    Text.lower w.text = w.text := by
  cases k <;> simp only [unary?, Option.some.injEq, Prod.mk.injEq, reduceCtorEq] at hk <;>
    obtain ⟨rfl, rfl⟩ := hk <;> simpa [Atom.IsCounted, Atom.kind, Atom.head] using hc

end Keyword

theorem Item.Reading.counted {source : Text} {w : Word} {rest : List Word} {item : Item} {used : Nat}
    (h : Item.Reading source w rest item used) (hc : item.atom.IsCounted) :
    item.atom.words = w :: rest.take used ∧ (∀ arg ∈ rest.take used, isArgument arg.text = true) ∧
      ∃ entry, Catalog.find? w.text = some entry ∧ (rest.take used).length ≤ entry.arity := by
  have hfits := Lead.of_fits w.text
  have hkeyword : ∀ {k n}, Lead.of w.text = .keyword k → Text.lower w.text = w.text →
      (Catalog.find? k.spelling).map Entry.arity = some n →
      ∃ entry, Catalog.find? w.text = some entry ∧ entry.arity = n := by
    intro k n hw hl hk
    rw [hw] at hfits
    rw [← Keyword.ofText?_eq_some.1 hfits, hl] at hk
    exact Option.map_eq_some_iff.1 hk
  cases h with
  | mark | starved | nameless | closed | unclosed | inline | unknown =>
    simp [Atom.IsCounted, sound, flawed, inlineComment, Atom.kind] at hc
  | alone hw hk => exact absurd hc (Keyword.not_isCounted_of_alone? hk w)
  | @unary _ _ _ arg _ hw hk ha =>
    obtain ⟨entry, hf, hn⟩ := hkeyword hw (Keyword.lower_eq_of_isCounted hk hc) (Keyword.arity_spelling_of_unary? hk)
    exact ⟨(Keyword.words_of_unary? hk w arg).2, by simpa using ha, entry, hf, by simp [hn]⟩
  | const hw hn hv =>
    have hl : Text.lower w.text = w.text := by simpa [Atom.IsCounted, sound, Atom.kind, Atom.head] using hc
    obtain ⟨entry, hf, ha⟩ := hkeyword hw hl Keyword.arity_spelling_const
    exact ⟨rfl, by simp [hn, hv], entry, hf, by simp [ha]⟩
  | valueless hw hn hr =>
    have hl : Text.lower w.text = w.text := by simpa [Atom.IsCounted, flawed, Atom.kind, Atom.head] using hc
    obtain ⟨entry, hf, ha⟩ := hkeyword hw hl Keyword.arity_spelling_const
    exact ⟨rfl, by simp [hn], entry, hf, by simp [ha]⟩
  | @command entry args more hw hl ha =>
    rw [hw] at hfits
    rw [List.take_left]
    exact ⟨rfl, ha, entry, hfits, Nat.le_of_eq hl⟩
  | @short entry args more hw hl ha hr =>
    rw [hw] at hfits
    rw [List.take_left]
    exact ⟨rfl, ha, entry, hfits, Nat.le_of_lt hl⟩

/-- A word of a text comes after the same words wherever it is found. -/
theorem Word.Ordered.before_unique {words before after before' after' : List Word} {w : Word}
    (ho : Word.Ordered words) (hw : w.text.Inked) (h : words = before ++ w :: after)
    (h' : words = before' ++ w :: after') : before = before' := by
  have hlong : ¬ w.stop ≤ w.start := Nat.not_le_of_lt (start_lt_stop hw)
  obtain ⟨inner, hb⟩ | ⟨earlier, hb, hr⟩ := split_cases (h.symm.trans h')
  · exact absurd (ho.append_le h (by simp [hb]) (by simp)) hlong
  · cases earlier with
    | nil => simpa using hb.symm
    | cons v earlier =>
      have hmem : w ∈ after := by simp [(List.cons.inj hr).2]
      exact absurd ((List.pairwise_cons.1 (ho.parts h).2).1 w hmem) hlong

namespace Checker

theorem cursor_writeWords (c : Checker) (words : List Word) :
    (c.writeWords words).1.tracker.cursor = c.tracker.cursor.after words := by
  induction words generalizing c with
  | nil => rfl
  | cons w words ih =>
    rw [writeWords, ih]
    rfl

structure Shows (c : Checker) (w : Word) (cursor : Cursor) : Prop where
  entered : c.tracker.cursor.enter w.text = cursor
  watched : (c.writeWord w).1.watches = (Watch.allOnWord { c.tracker with cursor } w c.watches).1

theorem shows_enter (c : Checker) (w : Word) : c.Shows w (c.tracker.cursor.enter w.text) := ⟨rfl, rfl⟩

open Marks

/-- The pass over the words and the reader number the arguments of a name alike: where marks are words of their
own, the rules are shown each argument of a command, or of a statement with a keyword that is spelled as in the
catalog, with the entry of its first word and with its place among the arguments. And whatever the words, no
more arguments are counted than the name has. -/
theorem arguments_numbered_as_read (rules : List Rule) (level : Level) (builtinMap : Bool) :
    (∀ {file : Int} {source : Text}, Apart (Word.scan file source) →
      ∀ a ∈ Atom.parse file source, a.IsCounted → ∀ {i : Nat} {arg : Word}, a.tail[i]? = some arg →
        arg ∈ Word.scan file source ∧
          ∀ {before after : List Word}, Word.scan file source = before ++ arg :: after →
            ∃ entry, Catalog.find? a.head.text = some entry ∧
              ((initial rules level builtinMap).writeWords before).1.Shows arg ⟨some entry, i, false⟩) ∧
      ∀ words : List Word, ((initial rules level builtinMap).writeWords words).1.tracker.cursor.Bounded := by
  constructor
  · intro file source hm a ha hc i arg hi
    obtain ⟨item, hitem, rfl⟩ := List.mem_map.1 ha
    obtain ⟨first, w, rest, used, hs, hout, hr⟩ := Item.exists_reading_of_mem hm hitem
    obtain ⟨hwords, hargs, entry, hf, hl⟩ := hr.counted hc
    obtain ⟨hhead, htail⟩ := List.cons.inj hwords
    rw [hhead]
    rw [htail] at hi
    obtain ⟨hlt, rfl⟩ := List.getElem?_eq_some_iff.1 hi
    generalize hg : rest.take used = args at *
    have hsplit : Word.scan file source
        = (first ++ w :: args.take i) ++ args[i] :: (args.drop (i + 1) ++ rest.drop used) := by
      calc Word.scan file source
          = first ++ w :: (args ++ rest.drop used) := by rw [hs, ← hg, List.take_append_drop]
        _ = first ++ w :: ((args.take i ++ args.drop i) ++ rest.drop used) := by rw [List.take_append_drop]
        _ = _ := by simp only [List.drop_eq_getElem_cons hlt, List.append_assoc, List.cons_append]
    refine ⟨by simp [hsplit], fun {before after} hb => ⟨entry, hf, ?_⟩⟩
    -- The words before the argument are those before the atom, its first word and the earlier arguments.
    have hbefore : before = first ++ w :: args.take i :=
      (Word.ordered_scan file source).before_unique (Word.inked_of_mem_scan (by rw [hb]; simp)) hb hsplit
    have houtside : ((initial rules level builtinMap).tracker.cursor.after first).inComment = false := by
      rw [← cursor_writeWords, inComment_writeWords]
      exact hout
    have hlength : (args.take i).length = i := List.length_take_of_le (Nat.le_of_lt hlt)
    have hcursor : ((initial rules level builtinMap).writeWords before).1.tracker.cursor = ⟨some entry, i, false⟩ := by
      rw [hbefore, cursor_writeWords, Cursor.after_append,
        Cursor.after_name houtside hf (by omega) fun v hv => hargs v (List.mem_of_mem_take hv), hlength]
    have hshown := shows_enter ((initial rules level builtinMap).writeWords before).1 args[i]
    rwa [hcursor, Cursor.enter_argument (by omega) (hargs _ (List.getElem_mem hlt))] at hshown
  · intro words
    rw [cursor_writeWords]
    exact Cursor.Bounded.after (.inl ⟨rfl, rfl⟩) words

def counted : Text := "/* if A */ #CONST B 1 #const C 2 land_percent rnd(1,2) terrain_cost GRASS if"

theorem counted_numbered_as_read :
    Apart (Word.scan 0 counted) ∧
      Atom.const ⟨"#const", 0, 22⟩ ⟨"C", 0, 29⟩ (some ⟨"2", 0, 31⟩) ∈ Atom.parse 0 counted ∧
      ∃ before after entry, Word.scan 0 counted = before ++ ⟨"2", 0, 31⟩ :: after ∧
        Catalog.find? "#const" = some entry ∧
        ((initial Rule.defaults .conquerors false).writeWords before).1.Shows ⟨"2", 0, 31⟩
          ⟨some entry, 1, false⟩ := by
  have hm : Apart (Word.scan 0 counted) ∧
      Atom.const ⟨"#const", 0, 22⟩ ⟨"C", 0, 29⟩ (some ⟨"2", 0, 31⟩) ∈ Atom.parse 0 counted ∧
      Atom.IsCounted (.const ⟨"#const", 0, 22⟩ ⟨"C", 0, 29⟩ (some ⟨"2", 0, 31⟩)) := by decide +kernel
  obtain ⟨hmem, hall⟩ :=
    (arguments_numbered_as_read Rule.defaults .conquerors false).1 hm.1 _ hm.2.1 hm.2.2 (i := 1) rfl
  obtain ⟨before, after, hs⟩ := List.append_of_mem hmem
  obtain ⟨entry, hf, hshown⟩ := hall hs
  exact ⟨hm.1, hm.2.1, before, after, entry, hs, hf, hshown⟩

end Checker

end MapScript
