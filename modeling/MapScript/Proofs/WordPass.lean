import MapScript.Proofs.CleanScript

/-! The pass over the words: what it knows after some words, and what it says about the next one. -/

namespace MapScript

namespace Marks

open Item (openMark closeMark)

def goesOnAfter (before : Bool) (words : List Word) : Bool := words.foldl (fun b w => goesOn b w.text) before

theorem goesOnAfter_append (before : Bool) (xs ys : List Word) :
    goesOnAfter before (xs ++ ys) = goesOnAfter (goesOnAfter before xs) ys := List.foldl_append

end Marks

namespace Watch

/-- The start of a call that one of the rules waits to see the end of. -/
def pending? (watches : List Watch) : Option Word :=
  watches.findSome? fun watch => if watch.rule = .argTypes then watch.memory.unfinished else none

/-- Of all rules, only the one for the types of arguments says something about a word: that it is the rest of a
call. -/
theorem snd_allOnWord (tracker : Tracker) (word : Word) (watches : List Watch) :
    (allOnWord tracker word watches).2 =
      if tracker.cursor.inComment then none
      else (pending? watches).map fun first =>
        (Rule.ArgTypes.splitCall first word).withCode Rule.argTypes.name := by
  induction watches with
  | nil => simp [allOnWord, pending?]
  | cons watch rest ih =>
    obtain ⟨rule, unfinished, guards, areas⟩ := watch
    by_cases hc : tracker.cursor.inComment = true
    · cases rule <;> simp_all [allOnWord, Rule.seesComments, onWord]
    · cases rule with
      | argTypes =>
        cases unfinished with
        | some first => simp [allOnWord, hc, onWord, Rule.ArgTypes.onWord, pending?]
        | none =>
          have hquiet : (Rule.ArgTypes.onWord tracker.cursor none word).1 = none := by
            unfold Rule.ArgTypes.onWord
            cases tracker.cursor.entry with
            | none => rfl
            | some entry => dsimp only; split <;> rfl
          simp_all [allOnWord, onWord, pending?]
      | _ => simp_all [allOnWord, onWord, pending?]

theorem allOnWord_cons (tracker : Tracker) (word : Word) (watch : Watch) (rest : List Watch) :
    ∃ watch' rest', (allOnWord tracker word (watch :: rest)).1 = watch' :: rest' ∧
      (watch' = watch ∨ watch' = (watch.onWord tracker word).1) ∧
      (rest' = rest ∨ rest' = (allOnWord tracker word rest).1) := by
  rw [allOnWord]
  split
  · exact ⟨_, _, rfl, .inl rfl, .inr rfl⟩
  · split
    · next he => exact ⟨_, _, rfl, .inr (by rw [he]), .inl rfl⟩
    · next he => exact ⟨_, _, rfl, .inr (by rw [he]), .inr rfl⟩

theorem unfinished_allOnWord {tracker : Tracker} {word first : Word} {watches : List Watch} {watch : Watch}
    (hm : watch ∈ (allOnWord tracker word watches).1) (hf : first ∈ watch.memory.unfinished) :
    first = word ∨ ∃ earlier ∈ watches, first ∈ earlier.memory.unfinished := by
  have hone : ∀ {w : Watch}, first ∈ (w.onWord tracker word).1.memory.unfinished →
      first = word ∨ first ∈ w.memory.unfinished := by
    rintro ⟨rule, unfinished, guards, areas⟩ h
    cases rule with
    | argTypes =>
      simp only [onWord, Rule.ArgTypes.onWord] at h
      split at h
      · simp at h
      · split at h
        · split at h
          · exact .inl (Option.some.inj h).symm
          · simp at h
        · simp at h
    | _ => exact .inr h
  induction watches with
  | nil => simp [allOnWord] at hm
  | cons old rest ih =>
    obtain ⟨watch', rest', he, hw, hr⟩ := allOnWord_cons tracker word old rest
    rw [he] at hm
    cases List.mem_cons.1 hm with
    | inl hm =>
      subst hm
      have hold : first = word ∨ first ∈ old.memory.unfinished := by
        cases hw with
        | inl hw => exact .inr (hw ▸ hf)
        | inr hw => exact hone (hw ▸ hf)
      exact hold.imp_right fun h => ⟨old, by simp, h⟩
    | inr hm =>
      have hrest : first = word ∨ ∃ earlier ∈ rest, first ∈ earlier.memory.unfinished := by
        cases hr with
        | inl hr => exact .inr ⟨watch, hr ▸ hm, hf⟩
        | inr hr => exact ih (hr ▸ hm)
      exact hrest.imp_right fun h => h.imp fun earlier he => ⟨List.mem_cons_of_mem old he.1, he.2⟩

end Watch

namespace Checker

open Marks

theorem inComment_writeWord (c : Checker) (w : Word) :
    (c.writeWord w).1.tracker.cursor.inComment = goesOn c.tracker.cursor.inComment w.text := by
  simp only [writeWord, leave_inComment, enter_inComment, goesOn]

theorem inComment_writeWords (c : Checker) (words : List Word) :
    (c.writeWords words).1.tracker.cursor.inComment = goesOnAfter c.tracker.cursor.inComment words := by
  induction words generalizing c with
  | nil => rfl
  | cons w words ih => rw [writeWords, ih, inComment_writeWord, goesOnAfter, goesOnAfter, List.foldl_cons]

theorem snd_writeWord (c : Checker) (w : Word) :
    (c.writeWord w).2 =
      ((problem (inside c.tracker.cursor.inComment w.text) w).map (·.withCode syntaxCode)).or
        (if inside c.tracker.cursor.inComment w.text then none
          else (Watch.pending? c.watches).map fun first =>
            (Rule.ArgTypes.splitCall first w).withCode Rule.argTypes.name) := by
  simp only [writeWord, Watch.snd_allOnWord, enter_inComment, Option.orElse_apply, Option.orElse_eq_or]

theorem unfinished_writeWords {c : Checker} {seen : List Word} (words : List Word)
    (hc : ∀ watch ∈ c.watches, ∀ w ∈ watch.memory.unfinished, w ∈ seen) :
    ∀ watch ∈ (c.writeWords words).1.watches, ∀ w ∈ watch.memory.unfinished, w ∈ seen ++ words := by
  induction words generalizing c seen with
  | nil => simpa [writeWords] using hc
  | cons u words ih =>
    rw [writeWords, List.append_cons]
    refine ih fun watch hm w hw => ?_
    obtain rfl | ⟨earlier, hm, hw⟩ := Watch.unfinished_allOnWord hm hw
    · simp
    · exact List.mem_append_left _ (hc earlier hm w hw)

theorem pending?_writeWords {c : Checker} (hc : ∀ watch ∈ c.watches, watch.memory.unfinished = none)
    {words : List Word} {first : Word} (h : Watch.pending? (c.writeWords words).1.watches = some first) :
    first ∈ words := by
  obtain ⟨watch, hm, hw⟩ := List.exists_of_findSome?_eq_some h
  have hnone : ∀ watch ∈ c.watches, ∀ w ∈ watch.memory.unfinished, w ∈ ([] : List Word) := by
    intro watch hm w hw
    simp [hc watch hm] at hw
  split at hw
  · exact unfinished_writeWords words hnone watch hm first hw
  · simp at hw

theorem mem_snd_writeWords {c : Checker} {words : List Word} {d : Diagnostic} :
    d ∈ (c.writeWords words).2 ↔
      ∃ before w after, words = before ++ w :: after ∧ d ∈ ((c.writeWords before).1.writeWord w).2 := by
  induction words generalizing c with
  | nil => simp [writeWords]
  | cons u words ih =>
    rw [writeWords, List.mem_append, Option.mem_toList, ih]
    constructor
    · rintro (h | ⟨before, w, after, rfl, h⟩)
      · exact ⟨[], u, words, rfl, h⟩
      · exact ⟨u :: before, w, after, rfl, h⟩
    · rintro ⟨before, w, after, hs, h⟩
      cases before with
      | nil =>
        obtain ⟨rfl, -⟩ := List.cons.inj hs
        exact .inl h
      | cons v before =>
        obtain ⟨rfl, rfl⟩ := List.cons.inj hs
        exact .inr ⟨before, w, after, rfl, h⟩

end Checker

end MapScript
