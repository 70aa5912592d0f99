import MapScript.Proofs.Splicing
import MapScript.Proofs.Stranding

/-! Checking a text against no rule and making what is suggested, round after round. The suggestions set the marks of
comments apart from what touches them. That may make new words that start with a mark and may move the ends of
comments, but blanks are all that is added and every suggestion makes more words, of which there cannot be more than
characters. So the rounds come to an end, and then the marks stand apart. -/

namespace MapScript

open Text (removeBlanks removeBlanks_append removeBlanks_of_isBlank removeBlanks_of_inked removeBlanks_eq_self)

/-- The same text but for blanks, in more than one word. -/
def Text.Parted (t t' : Text) : Prop := removeBlanks t' = t ∧ 1 < (Word.texts t').length

theorem Text.parted_of_gap {front gap back : Text} (hf : front.Inked) (hb : back.Inked) (hne : gap ≠ [])
    (hs : gap.StartsBlank) (he : gap.EndsBlank) :
    Text.Parted (front ++ (removeBlanks gap ++ back)) (front ++ (gap ++ back)) := by
  constructor
  · rw [removeBlanks_append, removeBlanks_append, removeBlanks_of_inked hf, removeBlanks_of_inked hb]
  · rw [Word.texts_append (.inr (Text.startsBlank_append hs (.inl hne))), Word.texts_append (.inl he),
      Word.texts_inked hf, Word.texts_inked hb]
    simp only [List.length_append, List.length_singleton]
    omega

theorem Text.parted_of_space {front back : Text} (hf : front.Inked) (hb : back.Inked) :
    Text.Parted (front ++ back) (front ++ (" " ++ back)) := by
  have hblank : Text.isBlank " " = true := by decide
  have hparted := Text.parted_of_gap hf hb (by decide : Text.ofString " " ≠ []) (Text.startsBlank_of_isBlank hblank)
    (Text.endsBlank_of_isBlank hblank)
  rwa [removeBlanks_of_isBlank hblank, List.nil_append] at hparted

theorem Word.length_texts_le (t : Text) : (texts t).length ≤ (removeBlanks t).length := by
  have hinked : ∀ u ∈ texts t, u.Inked := by
    intro u hu
    obtain ⟨w, hw, rfl⟩ := List.mem_map.1 hu
    exact inked_of_mem_scan hw
  rw [← flatten_texts]
  generalize texts t = us at hinked
  induction us with
  | nil => exact Nat.le_refl 0
  | cons u us ih =>
    have hu : 0 < u.length := List.length_pos_iff.2 (hinked u List.mem_cons_self).1
    have hus := ih fun v hv => hinked v (List.mem_cons_of_mem u hv)
    rw [List.flatten_cons, List.length_append, List.length_cons]
    omega

namespace Edit

variable {edits : List Suggestion} {words : List Word} {texts : List Text}

theorem Puts.flatten_eq (h : Puts Text.Parted edits words texts) : texts.flatten = (words.map Word.text).flatten := by
  induction h with
  | nil => rfl
  | keep w _ ih => rw [List.flatten_cons, ih, List.map_cons, List.flatten_cons]
  | replace _ _ hw _ ih => rw [List.flatten_append, Word.flatten_texts, ih, hw.1, List.map_cons, List.flatten_cons]

theorem Puts.length_le (h : Puts Text.Parted edits words texts) : words.length + edits.length ≤ texts.length := by
  induction h with
  | nil => exact Nat.le_refl 0
  | keep w _ ih =>
    simp only [List.length_cons]
    omega
  | replace _ _ hw _ ih =>
    have hmore := hw.2
    simp only [List.length_cons, List.length_append]
    omega

end Edit

namespace Marks

open Edit (fixable)
open Item (openMark closeMark)

theorem inked_openMark : Text.Inked openMark := ⟨by decide, by decide⟩

theorem inked_closeMark : Text.Inked closeMark := ⟨by decide, by decide⟩

variable {w : Word}

def Parts (w : Word) (ds : List Diagnostic) : Prop :=
  ∃ s t, fixable false none ds = [s] ∧ s.span = w.span ∧ s.replacement = .safe t ∧ w.text.Parted t

theorem parted_open (hw : w.text.Inked) (ho : w.text.startsWith openMark = true) (hl : 2 < w.text.length) :
    w.text.Parted ("/* " ++ w.text.drop 2) := by
  obtain ⟨rest, hrest⟩ : openMark <+: w.text := by simpa [Text.startsWith] using ho
  rw [← hrest] at hw hl ⊢
  have hback : Text.Inked rest := by
    refine ⟨fun hnil => ?_, fun g hg => hw.2 g (List.mem_append_right _ hg)⟩
    simp [hnil, openMark, Text.ofString] at hl
  exact Text.parted_of_space inked_openMark hback

theorem parted_close (hw : w.text.Inked) (hc : w.text.endsWith closeMark = true) (hl : 2 < w.text.length) :
    w.text.Parted (w.text.take (w.text.length - 2) ++ " */") := by
  obtain ⟨front, hfront⟩ : closeMark <:+ w.text := by simpa [Text.endsWith] using hc
  rw [← hfront] at hw hl ⊢
  have hlen : (front ++ closeMark).length - 2 = front.length := by simp [closeMark, Text.ofString]
  have hinked : Text.Inked front := by
    refine ⟨fun hnil => ?_, fun g hg => hw.2 g (List.mem_append_left _ hg)⟩
    simp [hnil, closeMark, Text.ofString] at hl
  rw [hlen, List.take_left]
  exact Text.parted_of_space hinked inked_closeMark

theorem eq_of_isInlineComment (hi : Item.isInlineComment w.text = true) :
    w.text = openMark ++ (w.text.slice 2 (w.text.length - 2) ++ closeMark) := by
  cases (@Item.inlineComment_over w.file [] w [] hi rfl).made with
  | closed inner last hg => simp at hg
  | unclosed inner hg ho hc => simp at hc
  | inline word last hg hlen ho hl hc hword hopen hclose =>
    obtain rfl : w = word := by simpa using hg
    rw [ho, hl, List.append_assoc] at hword
    exact hword

theorem parted_inline (hw : w.text.Inked) (hi : Item.isInlineComment w.text = true) :
    w.text.Parted ("/* " ++ w.text.slice 2 (w.text.length - 2) ++ " */") := by
  have heq := eq_of_isInlineComment hi
  generalize w.text.slice 2 (w.text.length - 2) = inner at heq ⊢
  rw [heq] at hw ⊢
  have hblank : Text.isBlank " " = true := by decide
  have hinner : removeBlanks (" " ++ inner ++ " ") = inner := by
    have hink : ∀ g ∈ inner, g.isBlank = false := fun g hg => hw.2 g (by simp [hg])
    rw [removeBlanks_append, removeBlanks_append, removeBlanks_of_isBlank hblank, removeBlanks_eq_self hink,
      List.nil_append, List.append_nil]
  have hstarts : Text.StartsBlank (" " ++ inner ++ " ") := by
    rw [List.append_assoc]
    exact Text.startsBlank_append (Text.startsBlank_of_isBlank hblank) (.inl (by decide))
  have hends : Text.EndsBlank (" " ++ inner ++ " ") :=
    Text.endsBlank_append (Text.endsBlank_of_isBlank hblank) (.inl (by decide))
  have hparted := Text.parted_of_gap inked_openMark inked_closeMark (by simp [Text.ofString]) hstarts hends
  rw [hinner] at hparted
  simpa [openMark, closeMark, Text.ofString] using hparted

theorem opening_parts (hw : w.text.Inked) : openingProblem w = none ∨ Parts w (openingProblem w).toList := by
  simp only [openingProblem]
  split
  · next h =>
    simp only [Bool.and_eq_true, decide_eq_true_eq] at h
    split
    · next hi => exact .inr ⟨_, _, rfl, rfl, rfl, parted_inline hw hi⟩
    · exact .inr ⟨_, _, rfl, rfl, rfl, parted_open hw h.1 h.2⟩
  · exact .inl rfl

theorem closing_parts (hw : w.text.Inked) (hc : w.text.endsWith closeMark = true) :
    closingProblem w = none ∨ Parts w (closingProblem w).toList := by
  simp only [closingProblem]
  split
  · next hl => exact .inr ⟨_, _, rfl, rfl, rfl, parted_close hw hc hl⟩
  · exact .inl rfl

theorem Parts.orElse {d : Option Diagnostic} (h : Parts w d.toList) (d' : Option Diagnostic) :
    Parts w (d <|> d').toList := by
  cases d with
  | none =>
    obtain ⟨s, t, hs, -⟩ := h
    cases hs
  | some d => exact h

/-- The marks that a word starts or ends with are the whole word. -/
def Alone (inComment : Bool) (w : Word) : Prop :=
  (w.text.startsWith openMark = true → w.text = openMark) ∧
    (inComment = true → w.text.endsWith closeMark = true → w.text = closeMark)

theorem parts_or_alone (hw : w.text.Inked) (before : Bool) :
    Parts w (problem (inside before w.text) w).toList ∨
      fixable false none (problem (inside before w.text) w).toList = [] ∧ Alone (inside before w.text) w := by
  by_cases hin : inside before w.text = true
  · -- A word that is inside of a comment is a problem only by its marks.
    have hopen : openingProblem w = none → w.text.startsWith openMark = true → w.text = openMark :=
      openingProblem_eq_none
    rw [hin]
    by_cases hc : w.text.endsWith closeMark = true
    · have heq : problem true w = (openingProblem w <|> closingProblem w) := by simp [problem, hc]
      rw [heq]
      rcases opening_parts hw with ho | ho
      · rw [ho]
        rcases closing_parts hw hc with hn | hp
        · rw [hn]
          exact .inr ⟨rfl, hopen ho, fun _ => closingProblem_eq_none hn⟩
        · exact .inl hp
      · exact .inl (ho.orElse _)
    · have heq : problem true w = openingProblem w := by simp [problem, hc]
      rw [heq]
      rcases opening_parts hw with ho | ho
      · exact .inr ⟨by rw [ho]; rfl, hopen ho, fun _ hc' => absurd hc' hc⟩
      · exact .inl ho
  · have ho : w.text.startsWith openMark = false := by
      rw [inside, Bool.or_eq_true, not_or] at hin
      simpa using hin.2
    have hnone : openingProblem w = none := by simp [openingProblem, ho]
    refine .inr ⟨?_, fun hs => by simp [ho] at hs, fun hin' => absurd hin' hin⟩
    simp only [problem, hin, hnone]
    split
    · rfl
    · split <;> rfl

end Marks

namespace Nesting

theorem unbalanced_suggestions (name : Text) (atom : Atom) (stack : List Nesting) :
    (unbalanced name atom stack).suggestions = [] := by
  cases stack <;> rfl

end Nesting

namespace Checker

open Edit (fixable fixable_append fixable_withCode Puts)
open Marks

theorem exists_writeItems_nil {c : Checker} (hc : c.watches = []) (items : List Item) :
    ∃ d found, c.writeItems items = .ok (d, found) ∧ fixable false none found = [] := by
  induction items generalizing c with
  | nil => exact ⟨c, [], rfl, rfl⟩
  | cons item items ih =>
    obtain ⟨d, found, hrest, hnone⟩ := @ih ⟨[], (c.tracker.update item.atom).1⟩ rfl
    refine ⟨d, _, writeItems_cons.2 ⟨_, _, found, writeItem_nil hc item, hrest, rfl⟩, ?_⟩
    rw [fixable_append, hnone, List.append_nil]
    refine List.flatMap_eq_nil_iff.2 fun x hx => ?_
    have hsuggestions : x.suggestions = [] := by
      rcases List.mem_append.1 hx with hx | hx
      · obtain ⟨y, hy, rfl⟩ := Option.map_eq_some_iff.1 (Option.mem_toList.1 hx)
        obtain ⟨name, stack, rfl⟩ := Nesting.exists_unbalanced c.tracker.nesting item.atom y hy
        exact Nesting.unbalanced_suggestions name item.atom stack
      · obtain ⟨flaw, -, rfl⟩ := List.mem_map.1 hx
        rfl
    rw [hsuggestions]
    rfl

theorem watches_writeWords_nil {c : Checker} (hc : c.watches = []) (words : List Word) :
    (c.writeWords words).1.watches = [] := by
  induction words generalizing c with
  | nil => exact hc
  | cons w words ih =>
    have hnext : (c.writeWord w).1.watches = [] := by rw [writeWord_nil hc]
    exact ih hnext

theorem writeWords_parts {c : Checker} (hc : c.watches = []) {words : List Word} (hw : ∀ w ∈ words, w.text.Inked) :
    (∃ texts, Puts Text.Parted (fixable false none (c.writeWords words).2) words texts) ∧
      (fixable false none (c.writeWords words).2 = [] → ∀ before w after, words = before ++ w :: after →
        Alone (inside (goesOnAfter c.tracker.cursor.inComment before) w.text) w) := by
  induction words generalizing c with
  | nil => exact ⟨⟨[], .nil⟩, fun _ before w after h => by simp at h⟩
  | cons u words ih =>
    have hnext : (c.writeWord u).1.watches = [] := by rw [writeWord_nil hc]
    obtain ⟨⟨texts, hputs⟩, hrest⟩ := ih hnext fun v hv => hw v (List.mem_cons_of_mem u hv)
    have hfixes : fixable false none (c.writeWords (u :: words)).2
        = fixable false none (problem (inside c.tracker.cursor.inComment u.text) u).toList
          ++ fixable false none ((c.writeWord u).1.writeWords words).2 := by
      rw [writeWords, fixable_append, writeWord_nil hc, Option.toList_map, fixable_withCode]
    rw [hfixes]
    rcases parts_or_alone (hw u List.mem_cons_self) c.tracker.cursor.inComment with hparts | ⟨hnone, halone⟩
    · obtain ⟨s, t, hs, hspan, hr, hparted⟩ := hparts
      rw [hs]
      exact ⟨⟨_, .replace hspan hr hparted hputs⟩, fun hnil => by simp at hnil⟩
    · rw [hnone, List.nil_append]
      refine ⟨⟨_, .keep u hputs⟩, fun hnil before w after hsplit => ?_⟩
      cases before with
      | nil =>
        obtain ⟨rfl, -⟩ := List.cons.inj hsplit
        exact halone
      | cons v before =>
        obtain ⟨rfl, hrest'⟩ := List.cons.inj hsplit
        have hlater := hrest hnil before w after hrest'
        rwa [inComment_writeWord] at hlater

end Checker

namespace Edit

open Item (openMark closeMark)

/-- A text is checked against no rule, and all that is suggested without a risk is made. -/
def round (level : Level) (text : Text) : Except Numeral.TooLong (Text × List Suggestion) := do
  let report ← (Check.plain level text).run
  return apply text report.diagnostics false none

def rounds (level : Level) : Nat → Text → Except Numeral.TooLong Text
  | 0, text => return text
  | n + 1, text => do
    let (text, _) ← round level text
    rounds level n text

theorem exists_round (level : Level) (text : Text) :
    ∃ made, round level text = .ok (splice text 0 made, made) ∧
      (∃ texts, Puts Text.Parted made (Word.scan 0 text) texts) ∧
      (made = [] → ∀ before w after, Word.scan 0 text = before ++ w :: after →
        Marks.Alone (Marks.inside (Marks.goesOnAfter false before) w.text) w) := by
  let checker := Checker.initial [] (Check.plain level text).effectiveLevel false
  have hinked : ∀ w ∈ Word.scan 0 text, w.text.Inked := fun w hw => Word.inked_of_mem_scan hw
  obtain ⟨⟨texts, hputs⟩, halone⟩ := @Checker.writeWords_parts checker rfl _ hinked
  obtain ⟨d, found, hitems, hnone⟩ :=
    Checker.exists_writeItems_nil (@Checker.watches_writeWords_nil checker rfl (Word.scan 0 text)) (Item.parse 0 text)
  have hproblems : (Check.plain level text).problems = .ok ((checker.writeWords (Word.scan 0 text)).2 ++ found) :=
    Check.problems_single.2 ⟨d, found, hitems, rfl⟩
  obtain ⟨report, hrun, hperm, -⟩ := Check.exists_run hproblems
  have hfixes : fixable false none ((checker.writeWords (Word.scan 0 text)).2 ++ found)
      = fixable false none (checker.writeWords (Word.scan 0 text)).2 := by
    rw [fixable_append, hnone, List.append_nil]
  rw [← hfixes] at hputs halone
  refine ⟨_, ?_, ⟨texts, hputs⟩, halone⟩
  rw [round, hrun, ← applicable_eq_of_puts hperm hputs]
  rfl

theorem round_parts (level : Level) (text : Text) :
    ∃ fixed made, round level text = .ok (fixed, made) ∧ removeBlanks fixed = removeBlanks text ∧
      (Word.texts text).length + made.length ≤ (Word.texts fixed).length ∧
      (∀ s ∈ made, ∃ w ∈ Word.scan 0 text, s.span = w.span ∧ w.text.Parted (fresh s)) ∧
      (made = [] → fixed = text ∧ ∀ before w after, Word.scan 0 text = before ++ w :: after →
        Marks.Alone (Marks.inside (Marks.goesOnAfter false before) w.text) w) := by
  obtain ⟨made, hround, ⟨texts, hputs⟩, halone⟩ := exists_round level text
  have htexts : Word.texts (splice text 0 made) = texts :=
    (@Puts.texts_splice text Text.Parted 0 0 made texts (by simpa [Word.shift] using hputs) (Nat.zero_le _)).1
  refine ⟨_, made, hround, ?_, ?_, fun s hs => ?_, fun hnil => ⟨?_, halone hnil⟩⟩
  · rw [← Word.flatten_texts, ← Word.flatten_texts, htexts, hputs.flatten_eq]
    rfl
  · have hle := hputs.length_le
    rwa [htexts, Word.texts, List.length_map]
  · obtain ⟨w, hw, hspan, t, hr, hparted⟩ := hputs.exists_word hs
    exact ⟨w, hw, hspan, by rwa [fresh, hr]⟩
  · rw [hnil]
    exact List.drop_zero

/-- As long as there is room for more words, a round makes more of them or makes nothing. -/
theorem exists_last_round (level : Level) {room : Nat} {text : Text}
    (h : (removeBlanks text).length ≤ (Word.texts text).length + room) :
    ∃ n ≤ room, ∃ final, rounds level n text = .ok final ∧ round level final = .ok (final, []) := by
  -- The number of problems may grow from round to round; the room for words does not.
  induction room generalizing text with
  | zero =>
    obtain ⟨fixed, made, hround, hink, hmore, -, hlast⟩ := round_parts level text
    have hwords := Word.length_texts_le fixed
    rw [hink] at hwords
    obtain rfl : made = [] := List.length_eq_zero_iff.1 (by omega)
    obtain ⟨rfl, -⟩ := hlast rfl
    exact ⟨0, Nat.le_refl 0, fixed, rfl, hround⟩
  | succ room ih =>
    obtain ⟨fixed, made, hround, hink, hmore, -, hlast⟩ := round_parts level text
    cases made with
    | nil =>
      obtain ⟨rfl, -⟩ := hlast rfl
      exact ⟨0, Nat.zero_le _, fixed, rfl, hround⟩
    | cons s made =>
      rw [List.length_cons] at hmore
      obtain ⟨n, hn, final, hrounds, hfinal⟩ := @ih fixed (by rw [hink]; omega)
      exact ⟨n + 1, Nat.succ_le_succ hn, final, by rw [rounds, hround]; exact hrounds, hfinal⟩

/-- Every round keeps all but the blanks and makes more words with each suggestion; so after no more rounds than there
are characters that are not blank a round makes nothing, and in the text that is left every word that starts with the
opening mark of a comment is that mark, and so is, for the closing mark, every word that ends with it where the pass
over the words is inside of a comment. -/
theorem rounds_settle (level : Level) (source : Text) :
    (∀ text, ∃ fixed made, round level text = .ok (fixed, made) ∧ removeBlanks fixed = removeBlanks text ∧
      (Word.texts text).length + made.length ≤ (Word.texts fixed).length ∧
      ∀ s ∈ made, ∃ w ∈ Word.scan 0 text, s.span = w.span ∧ w.text.Parted (fresh s)) ∧
    ∃ n ≤ (removeBlanks source).length, ∃ final, rounds level n source = .ok final ∧
      round level final = .ok (final, []) ∧
      (∀ w ∈ Word.scan 0 final, w.text.startsWith openMark = true → w.text = openMark) ∧
      ∀ before w after, Word.scan 0 final = before ++ w :: after →
        (((Checker.initial [] level false).writeWords before).1.tracker.cursor.enter w.text).inComment = true →
        w.text.endsWith closeMark = true → w.text.length ≤ 2 := by
  refine ⟨fun text => ?_, ?_⟩
  · obtain ⟨fixed, made, hround, hink, hmore, hparted, -⟩ := round_parts level text
    exact ⟨fixed, made, hround, hink, hmore, hparted⟩
  · obtain ⟨n, hn, final, hrounds, hfinal⟩ := exists_last_round level (Nat.le_add_left (removeBlanks source).length _)
    have halone : ∀ before w after, Word.scan 0 final = before ++ w :: after →
        Marks.Alone (Marks.inside (Marks.goesOnAfter false before) w.text) w := by
      obtain ⟨fixed, made, hround, -, -, -, hlast⟩ := round_parts level final
      obtain ⟨-, rfl⟩ := Prod.mk.inj (Except.ok.inj (hround.symm.trans hfinal))
      exact (hlast rfl).2
    refine ⟨n, hn, final, hrounds, hfinal, fun w hw => ?_, fun before w after hsplit hin hclose => ?_⟩
    · obtain ⟨before, after, hsplit⟩ := List.append_of_mem hw
      exact (halone before w after hsplit).1
    · rw [Marks.enter_inComment, Checker.inComment_writeWords] at hin
      rw [(halone before w after hsplit).2 hin hclose]
      decide

end Edit

end MapScript
