import MapScript.Proofs.Reading

/-! Every word goes into exactly one atom, and an atom lies over exactly the words it was read from. -/

namespace MapScript

theorem Glyph.eq_of_lower_eq {g : Glyph} {c : Char} (hc : c < 'a' ∨ 'z' < c)
    (h : g.lower = .char c) : g = .char c := by
  cases g with
  | stray b => simp [Glyph.lower] at h
  | char d =>
    by_cases hk : d = '\u212a'
    · rw [Glyph.lower, if_pos hk, Glyph.char.injEq] at h
      subst h
      simp at hc
    · rw [Glyph.lower, if_neg hk, Glyph.char.injEq] at h
      unfold Char.toLower at h
      split at h
      · next hd =>
        have hv : c.val = d.val + 32 := by rw [← h]; rfl
        have hlo : (65 : UInt32) ≤ d.val := hd.1
        have hhi : d.val ≤ (90 : UInt32) := hd.2
        have hlt : c.val < (97 : UInt32) ∨ (122 : UInt32) < c.val := hc
        grind
      · rw [h]

theorem Text.eq_openMark_of_lower {t : Text} (h : Text.lower t = Item.openMark) : t = Item.openMark := by
  match t with
  | [] => simp [Text.lower, Item.openMark, Text.ofString] at h
  | [a] => simp [Text.lower, Item.openMark, Text.ofString] at h
  | [a, b] =>
    have hl : a.lower = .char '/' ∧ b.lower = .char '*' := by
      simpa [Text.lower, Item.openMark, Text.ofString] using h
    rw [Glyph.eq_of_lower_eq (by decide) hl.1, Glyph.eq_of_lower_eq (by decide) hl.2]
    rfl
  | _ :: _ :: _ :: _ => simp [Text.lower, Item.openMark, Text.ofString] at h

theorem Lead.text_of_openComment {t : Text} (h : Lead.of t = .keyword .openComment) :
    t = Item.openMark := by
  have hf := Lead.of_fits t
  rw [h] at hf
  exact Text.eq_openMark_of_lower (Keyword.ofText?_eq_some.1 hf)

theorem Word.scanFrom_file {file : Int} {run : Text} {pos : Nat} {t : Text} {w : Word}
    (h : w ∈ scanFrom file run pos t) : w.file = file := by
  have hrun : ∀ {run : Text} {pos : Nat}, w ∈ ofRun file pos run → w.file = file := by
    intro run pos hw
    unfold ofRun at hw
    split at hw
    · simp at hw
    · simp only [List.mem_singleton] at hw
      rw [hw]
  induction t generalizing run pos with
  | nil => exact hrun h
  | cons g t ih =>
    rw [scanFrom] at h
    split at h
    · rcases List.mem_append.1 h with hr | hr
      · exact hrun hr
      · exact ih hr
    · exact ih h

namespace Atom

/-- The ways in which a comment lies over the words `group`, when `rest` are the words after these. -/
inductive CommentOver (source : Text) (opener : Word) (content : Text) (closer : Option Word)
    (group rest : List Word) : Prop
  | closed (inner : List Word) (last : Word) (hg : group = opener :: (inner ++ [last]))
      (ho : opener.text = Item.openMark) (hl : last.text = Item.closeMark) (hc : closer = some last)
      (hi : ∀ w ∈ inner, w.text ≠ Item.closeMark)
      (ht : content = source.slice opener.stop last.start)
  | unclosed (inner : List Word) (hg : group = opener :: inner) (ho : opener.text = Item.openMark)
      (hc : closer = none) (hr : rest = []) (hi : ∀ w ∈ inner, w.text ≠ Item.closeMark)
      (ht : content = source.drop opener.stop)
  | inline (word last : Word) (hg : group = [word]) (hlen : 4 ≤ word.text.length)
      (ho : opener.text = Item.openMark) (hl : last.text = Item.closeMark) (hc : closer = some last)
      (hw : word.text = opener.text ++ content ++ last.text)
      (hopen : opener.span = ⟨word.file, word.start, word.start + 2⟩)
      (hclose : last.span = ⟨word.file, word.stop - 2, word.stop⟩)

/-- An atom lies over the words `group`, when `rest` are the words after these. -/
structure Over (file : Int) (source : Text) (a : Atom) (group rest : List Word) : Prop where
  located : ∃ first ∈ group.head?, ∃ last ∈ group.getLast?, a.span = ⟨file, first.start, last.stop⟩
  made : match a with
    | .comment opener content closer _ => CommentOver source opener content closer group rest
    | a => a.words = group

inductive AllOver (file : Int) (source : Text) : List Item → List (List Word) → Prop
  | nil : AllOver file source [] []
  | cons {item items group groups} (head : Over file source item.atom group groups.flatten)
      (tail : AllOver file source items groups) : AllOver file source (item :: items) (group :: groups)

theorem over_of_words {file : Int} (source : Text) {a : Atom} {first : Word} {more : List Word}
    (rest : List Word) (hk : a.kind ≠ .comment) (hw : a.words = first :: more) (hf : first.file = file) :
    Over file source a (first :: more) rest := by
  obtain ⟨rfl, rfl⟩ : a.head = first ∧ a.tail = more := by simpa [words] using hw
  refine ⟨⟨a.head, by simp, a.tail.getLastD a.head, by simp [List.getLast?_cons], ?_⟩, ?_⟩
  · rw [span, Atom.file, start, stop_eq_getLastD hk, hf]
  · cases a with
    | comment => exact absurd rfl hk
    | _ => exact hw

end Atom

theorem Keyword.words_of_alone? {k : Keyword} {build : Word → Atom} (h : k.alone? = some build)
    (w : Word) : (build w).kind ≠ .comment ∧ (build w).words = [w] := by
  cases k <;> simp only [alone?, Option.some.injEq, reduceCtorEq] at h <;> subst h <;>
    simp [Atom.kind, Atom.words, Atom.head, Atom.tail]

theorem Keyword.words_of_unary? {k : Keyword} {build : Word → Word → Atom} {missing : Flaw.Kind}
    (h : k.unary? = some (build, missing)) (w arg : Word) :
    (build w arg).kind ≠ .comment ∧ (build w arg).words = [w, arg] := by
  cases k <;> simp only [unary?, Option.some.injEq, Prod.mk.injEq, reduceCtorEq] at h <;>
    obtain ⟨rfl, rfl⟩ := h <;> simp [Atom.kind, Atom.words, Atom.head, Atom.tail]

namespace Item

open Atom

theorem inlineComment_over {file : Int} (source : Text) {w : Word} (rest : List Word)
    (h : isInlineComment w.text = true) (hf : w.file = file) :
    Over file source (inlineComment w) [w] rest := by
  have hlen : 4 ≤ w.text.length := by simp_all [isInlineComment]
  obtain ⟨after, ha⟩ : openMark <+: w.text := by simp_all [isInlineComment, Text.startsWith]
  obtain ⟨before, hb⟩ : closeMark <:+ w.text := by simp_all [isInlineComment, Text.endsWith]
  have ho : w.text.take 2 = openMark := by rw [← ha]; rfl
  have hc : w.text.drop (w.text.length - 2) = closeMark := by
    rw [← hb]
    have hl : (before ++ closeMark).length - 2 = before.length := by simp [closeMark, Text.ofString]
    rw [hl, List.drop_left]
  have hm : w.text.slice 2 (w.text.length - 2) = (w.text.take (w.text.length - 2)).drop 2 := rfl
  refine ⟨⟨w, by simp, w, by simp, ?_⟩, .inline w _ rfl hlen ho hc rfl ?_ ?_ ?_⟩
  · simp [inlineComment, span, Atom.file, start, head, stop, hf]
  · have ht : (w.text.take (w.text.length - 2)).take 2 = w.text.take 2 := by
      rw [List.take_take, Nat.min_eq_left (by omega)]
    rw [hm, ← ht, List.take_append_drop, List.take_append_drop]
  · simp [Word.span, Word.stop, ho, openMark, Text.ofString]
  · have hstop : w.stop - 2 + 2 = w.stop := by
      rw [Word.stop]
      omega
    simp only [Word.span, Word.stop] at hstop ⊢
    rw [hc]
    simp [closeMark, Text.ofString]
    omega

theorem Reading.over {file : Int} {source : Text} {w : Word} {rest : List Word} {item : Item} {used : Nat}
    (h : Reading source w rest item used) (hf : ∀ v ∈ w :: rest, v.file = file) :
    Over file source item.atom (w :: rest.take used) (rest.drop used) := by
  have hw : w.file = file := hf w (by simp)
  cases h with
  | mark => exact over_of_words source _ (by simp [sound, kind]) rfl hw
  | alone _ hk =>
    obtain ⟨hc, ht⟩ := Keyword.words_of_alone? hk w
    exact over_of_words source _ hc ht hw
  | @unary _ _ _ arg _ _ hk _ =>
    obtain ⟨hc, ht⟩ := Keyword.words_of_unary? hk w arg
    exact over_of_words source _ hc ht hw
  | starved => exact over_of_words source _ (by simp [flawed, kind]) rfl hw
  | const => exact over_of_words source _ (by simp [sound, kind]) rfl hw
  | valueless => exact over_of_words source _ (by simp [flawed, kind]) rfl hw
  | nameless => exact over_of_words source _ (by simp [flawed, kind]) rfl hw
  | @closed inner closer more hl hi hc =>
    have ht : (inner ++ closer :: more).take (inner.length + 1) = inner ++ [closer] := by
      simp [List.take_append, List.take_of_length_le]
    rw [ht]
    refine ⟨⟨w, by simp, closer, by simp [List.getLast?_cons], ?_⟩, ?_⟩
    · simp [sound, span, Atom.file, start, head, stop, hw]
    · exact .closed inner closer rfl (Lead.text_of_openComment hl) hc rfl hi rfl
  | unclosed hl hi =>
    rw [List.take_length, List.drop_length]
    refine ⟨⟨w, by simp, rest.getLastD w, by simp [List.getLast?_cons], ?_⟩, ?_⟩
    · simp [flawed, span, Atom.file, start, head, stop, hw]
    · exact .unclosed rest rfl (Lead.text_of_openComment hl) rfl rfl hi rfl
  | @command _ args more =>
    rw [List.take_left]
    exact over_of_words source _ (by simp [sound, kind]) rfl hw
  | @short _ args more =>
    rw [List.take_left]
    exact over_of_words source _ (by simp [flawed, kind]) rfl hw
  | inline hl =>
    have hi := Lead.of_fits w.text
    rw [hl] at hi
    exact inlineComment_over source _ hi hw
  | unknown => exact over_of_words source _ (by simp [flawed, kind]) rfl hw

theorem readFrom_allOver {file : Int} (source : Text) (words : List Word) (hf : ∀ v ∈ words, v.file = file) :
    ∃ groups, groups.flatten = words ∧ AllOver file source (readFrom source 0 words) groups := by
  -- On the number of words left: an item takes the first one and perhaps more of them.
  induction hn : words.length using Nat.strong_induction_on generalizing words with
  | _ n ih =>
    cases words with
    | nil => exact ⟨[], rfl, .nil⟩
    | cons w rest =>
      have hr := reading source w rest
      have hd : ∀ v ∈ rest.drop (read source w rest).2, v.file = file :=
        fun v hv => hf v (List.mem_cons_of_mem w (List.mem_of_mem_drop hv))
      obtain ⟨groups, hg, hall⟩ := ih _ (by simp only [← hn, List.length_cons, List.length_drop]; omega) _ hd rfl
      refine ⟨(w :: rest.take (read source w rest).2) :: groups, by simp [hg], ?_⟩
      rw [readFrom_cons hr]
      exact .cons (hg ▸ hr.over hf) hall

/-- Reading drops, doubles and moves no word: the words of a source fall into one group for each item, in
order, and each atom lies over its group. -/
theorem parse_covers_words (file : Int) (source : Text) :
    ∃ groups, groups.flatten = Word.scan file source ∧
      AllOver file source (parse file source) groups :=
  readFrom_allOver source (Word.scan file source) fun _ hv => Word.scanFrom_file hv

end Item

end MapScript
