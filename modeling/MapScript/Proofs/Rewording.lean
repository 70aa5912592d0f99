import MapScript.Proofs.Respelling
import MapScript.Proofs.Severity

/-! The pass over the words of a script, made once more when words were put in place of words: where nothing was
said the first time, nothing is said now. -/

namespace MapScript

open Item (isArgument openMark closeMark)

theorem Item.isArgument_iff {t : Text} :
    isArgument t = true ↔ nonArguments.contains t = false ∧ Catalog.find? t = none ∧
      t.startsWith openMark = false ∧ t.endsWith closeMark = false := by
  simp [isArgument, Catalog.contains, and_assoc]

namespace Text.Respelt

variable {t t' : Text} (h : t.Respelt t')

include h

theorem startsWith_openMark : t'.startsWith openMark = t.startsWith openMark := by
  rcases h with rfl | ⟨ht, ht', -, -⟩
  · rfl
  · rw [(Item.isArgument_iff.1 ht).2.2.1, (Item.isArgument_iff.1 ht').2.2.1]

theorem endsWith_closeMark : t'.endsWith closeMark = t.endsWith closeMark := by
  rcases h with rfl | ⟨ht, ht', -, -⟩
  · rfl
  · rw [(Item.isArgument_iff.1 ht).2.2.2, (Item.isArgument_iff.1 ht').2.2.2]

theorem find? : Catalog.find? t' = Catalog.find? t := by
  rcases h with rfl | ⟨ht, ht', -, -⟩
  · rfl
  · rw [(Item.isArgument_iff.1 ht).2.1, (Item.isArgument_iff.1 ht').2.1]

theorem isUnfinished (ht : Rnd.isUnfinished t = false) : Rnd.isUnfinished t' = false := by
  rcases h with rfl | h
  · exact ht
  · exact h.2.2.1

theorem enter (c : Cursor) : c.enter t' = c.enter t := by simp only [Cursor.enter, h.startsWith_openMark]

theorem leave (c : Cursor) : c.leave t' = c.leave t := by simp only [Cursor.leave, h.endsWith_closeMark, h.find?]

end Text.Respelt

namespace Marks

theorem openingProblem_eq_none_iff {w : Word} :
    openingProblem w = none ↔ (w.text.startsWith openMark = true → w.text.length ≤ 2) := by
  unfold openingProblem
  dsimp only
  split
  · next h => split <;> simp_all
  · next h => simp_all

/-- A word is no problem as a mark: the marks of comments stand alone, one that closes has one to close, and a section
is known. -/
theorem problem_eq_none_iff {inComment : Bool} {w : Word} :
    problem inComment w = none ↔
      (w.text.startsWith openMark = true → w.text.length ≤ 2) ∧
        (w.text.endsWith closeMark = true → inComment = true ∧ w.text.length ≤ 2) ∧
        (w.text.endsWith closeMark = false → inComment = false → Catalog.isSectionShaped w.text = true →
          Catalog.contains w.text = true) := by
  unfold problem
  dsimp only
  split
  · next hc =>
    split
    · next hin =>
      simp only [Option.orElse_apply, Option.orElse_eq_or, Option.or_eq_none_iff, openingProblem_eq_none_iff,
        closingProblem]
      simp [hc, hin]
    · next hin => simp [hc, hin]
  · next hc =>
    split
    · next hs => simp_all
    · next hs => simp_all [openingProblem_eq_none_iff]

theorem problem_respelt {inComment : Bool} {w w' : Word} (h : w.text.Respelt w'.text)
    (hw : problem inComment w = none) : problem inComment w' = none := by
  rw [problem_eq_none_iff] at hw ⊢
  rcases h with htext | ⟨ha, ha', -, hshaped⟩
  · rwa [htext]
  · obtain ⟨-, hfind, -, hclose⟩ := Item.isArgument_iff.1 ha
    obtain ⟨-, -, hopen', hclose'⟩ := Item.isArgument_iff.1 ha'
    refine ⟨by simp [hopen'], by simp [hclose'], fun _ hin hs => ?_⟩
    simpa [Catalog.contains, hfind] using hw.2.2 hclose hin (hshaped hs)

/-- A word is a problem as a mark by an error, except when it ends a comment without a blank before the mark. -/
theorem problem_isError {inComment : Bool} {w : Word} (hm : w.text.endsWith closeMark = true → w.text = closeMark) :
    ∀ d ∈ problem inComment w, d.isError = true := by
  have hopening : ∀ d ∈ openingProblem w, d.isError = true := by
    intro d hd
    obtain ⟨message, replacement, rfl⟩ := exists_eq_of_openingProblem hd
    rfl
  unfold problem
  dsimp only
  split
  · next hc =>
    have hclosing : closingProblem w = none := by
      rw [closingProblem, hm hc]
      rfl
    split
    · simpa [hclosing] using hopening
    · simp
  · split
    · simp
    · exact hopening

end Marks

namespace Watch

/-- The same rule at work, which waits for the rest of a call only if the other one does. -/
@[mk_iff]
structure Quieter (watch watch' : Watch) : Prop where
  rule : watch'.rule = watch.rule
  unfinished : watch.memory.unfinished = none → watch'.memory.unfinished = none

variable {t t' : Tracker} (ht : t'.cursor = t.cursor) {word word' : Word} (hword : word.text.Respelt word'.text)

include ht hword

theorem Quieter.onWord {watch watch' : Watch} (h : Quieter watch watch') (hs : (watch.onWord t word).2 = none) :
    (watch'.onWord t' word').2 = none ∧ Quieter (watch.onWord t word).1 (watch'.onWord t' word').1 := by
  have hrule := h.rule
  by_cases hr : watch.rule = .argTypes
  · rw [hr] at hrule
    cases hu : watch.memory.unfinished with
    | some first => simp [Watch.onWord, hr, hu, Rule.ArgTypes.onWord] at hs
    | none =>
      have hu' := h.unfinished hu
      simp only [Watch.onWord, hr, hrule, hu, hu', Rule.ArgTypes.onWord, ht]
      cases t.cursor.entry with
      | none => exact ⟨rfl, rfl, fun _ => rfl⟩
      | some entry =>
        cases hfinished : Rnd.isUnfinished word.text with
        | false => simp [hword.isUnfinished hfinished, quieter_iff]
        | true =>
          by_cases hn : entry.argType? t.cursor.argIndex = some .number
          · cases Rnd.isUnfinished word'.text <;> simp [hn, quieter_iff]
          · simp [hn, quieter_iff]
  · have hsame : ∀ {u : Watch} {tracker v}, u.rule ≠ .argTypes → u.onWord tracker v = (u, none) := by
      intro u tracker v hu
      unfold Watch.onWord
      split
      · contradiction
      · rfl
    rw [hsame hr, hsame (hrule ▸ hr)]
    exact ⟨rfl, h⟩

omit ht hword in
theorem rules_allOnWord (tracker : Tracker) (v : Word) (watches : List Watch) :
    (allOnWord tracker v watches).1.map Watch.rule = watches.map Watch.rule := by
  have hone : ∀ watch : Watch, (watch.onWord tracker v).1.rule = watch.rule := by
    intro watch
    unfold onWord
    split <;> rfl
  induction watches with
  | nil => rfl
  | cons watch rest ih =>
    obtain ⟨watch', rest', heq, hwatch, hrest⟩ := allOnWord_cons tracker v watch rest
    rw [heq, List.map_cons, List.map_cons]
    congr 1
    · rcases hwatch with rfl | rfl
      · rfl
      · exact hone watch
    · rcases hrest with rfl | rfl
      · rfl
      · exact ih

theorem allOnWord_quieter {watches watches' : List Watch} (h : List.Forall₂ Quieter watches watches')
    (hs : (allOnWord t word watches).2 = none) :
    (allOnWord t' word' watches').2 = none ∧
      List.Forall₂ Quieter (allOnWord t word watches).1 (allOnWord t' word' watches').1 := by
  induction h with
  | nil => exact ⟨rfl, .nil⟩
  | @cons watch watch' rest rest' hwatch _ ih =>
    simp only [allOnWord, ht, hwatch.rule] at hs ⊢
    split at hs
    · next hskip =>
      obtain ⟨hnone, hrest⟩ := ih hs
      rw [if_pos hskip, if_pos hskip]
      exact ⟨hnone, .cons hwatch hrest⟩
    · next hskip =>
      rw [if_neg hskip, if_neg hskip]
      cases hfirst : watch.onWord t word with
      | mk u problem =>
        cases problem with
        | some d => simp [hfirst] at hs
        | none =>
          have hquieter := hwatch.onWord ht hword (by rw [hfirst])
          rw [hfirst] at hs hquieter
          cases hfirst' : watch'.onWord t' word' with
          | mk u' problem' =>
            rw [hfirst'] at hquieter
            obtain ⟨hnone, hrest⟩ := ih hs
            cases hquieter.1
            exact ⟨hnone, .cons hquieter.2 hrest⟩

end Watch

namespace Checker

structure Quieter (c c' : Checker) : Prop where
  watches : List.Forall₂ Watch.Quieter c.watches c'.watches
  cursor : c'.tracker.cursor = c.tracker.cursor

theorem Quieter.writeWord {c c' : Checker} (h : Quieter c c') {w w' : Word} (hw : w.text.Respelt w'.text)
    (hs : (c.writeWord w).2 = none) :
    (c'.writeWord w').2 = none ∧ Quieter (c.writeWord w).1 (c'.writeWord w').1 := by
  simp only [Checker.writeWord, Option.orElse_apply, Option.orElse_eq_or, Option.or_eq_none_iff,
    Option.map_eq_none_iff, h.cursor, hw.enter] at hs ⊢
  obtain ⟨hmark, hrules⟩ := hs
  have hcursor : ({ c'.tracker with cursor := c.tracker.cursor.enter w.text } : Tracker).cursor =
    ({ c.tracker with cursor := c.tracker.cursor.enter w.text } : Tracker).cursor := rfl
  obtain ⟨hnone, hwatches⟩ := Watch.allOnWord_quieter hcursor hw h.watches hrules
  exact ⟨⟨Marks.problem_respelt hw hmark, hnone⟩, hwatches, hw.leave _⟩

theorem Quieter.writeWords {c c' : Checker} (h : Quieter c c') {words words' : List Word}
    (hw : List.Forall₂ (fun w w' : Word => w.text.Respelt w'.text) words words')
    (hs : (c.writeWords words).2 = []) : (c'.writeWords words').2 = [] := by
  induction hw generalizing c c' with
  | nil => rfl
  | @cons w w' words words' hw _ ih =>
    simp only [Checker.writeWords, List.append_eq_nil_iff, Option.toList_eq_nil_iff] at hs ⊢
    obtain ⟨hnone, hnext⟩ := h.writeWord hw hs.1
    exact ⟨hnone, ih hnext hs.2⟩

theorem quiet_of_snd_writeWords {c : Checker} {words : List Word} (h : (c.writeWords words).2 = []) :
    Marks.Quiet c.tracker.cursor.inComment words := by
  induction words generalizing c with
  | nil => trivial
  | cons w words ih =>
    simp only [writeWords, List.append_eq_nil_iff, Option.toList_eq_nil_iff, snd_writeWord, Option.or_eq_none_iff,
      Option.map_eq_none_iff] at h
    exact ⟨h.1.1, inComment_writeWord c w ▸ ih h.2⟩

theorem writeWords_isError {c : Checker} {words : List Word}
    (hm : ∀ w ∈ words, w.text.endsWith closeMark = true → w.text = closeMark) :
    ∀ d ∈ (c.writeWords words).2, d.isError = true := by
  intro d hd
  obtain ⟨before, w, after, rfl, hw⟩ := mem_snd_writeWords.1 hd
  rw [snd_writeWord, Option.mem_def, Option.or_eq_some_iff] at hw
  rcases hw with hw | ⟨-, hw⟩
  · obtain ⟨e, he, rfl⟩ := Option.map_eq_some_iff.1 hw
    exact Marks.problem_isError (hm w (by simp)) e he
  · split at hw
    · simp at hw
    · obtain ⟨first, -, rfl⟩ := Option.map_eq_some_iff.1 hw
      rfl

theorem tracker_writeWords (c : Checker) (words : List Word) :
    (c.writeWords words).1.rules = c.rules ∧
      (c.writeWords words).1.tracker = { c.tracker with cursor := (c.writeWords words).1.tracker.cursor } := by
  induction words generalizing c with
  | nil => exact ⟨rfl, rfl⟩
  | cons w words ih =>
    obtain ⟨hrules, htracker⟩ := ih (c.writeWord w).1
    rw [writeWords]
    exact ⟨hrules.trans (Watch.rules_allOnWord _ w c.watches), htracker⟩

theorem rules_initial (rules : List Rule) (level : Level) (builtinMap : Bool) :
    (initial rules level builtinMap).rules = rules := by
  simp [Checker.rules, initial, Function.comp_def]

end Checker

end MapScript
