import MapScript.Proofs.Coverage

/-! Where words and atoms stand: words follow one another, and an atom reaches from one of its words to
another. -/

namespace MapScript

structure Span.Covers (s t : Span) : Prop where
  file : s.file = t.file
  start : s.start ≤ t.start
  stop : t.stop ≤ s.stop

namespace Word

theorem split_cases {group more before after : List Word} {w : Word}
    (h : group ++ more = before ++ w :: after) :
    (∃ inner, group = before ++ w :: inner) ∨
      ∃ earlier, before = group ++ earlier ∧ more = earlier ++ w :: after := by
  obtain ⟨earlier, hb, hm⟩ | ⟨inner, hg, hm⟩ := List.append_eq_append_iff.1 h
  · exact .inr ⟨earlier, hb, hm⟩
  · cases inner with
    | nil => exact .inr ⟨[], by simpa using hg.symm, by simpa using hm.symm⟩
    | cons v inner =>
      obtain ⟨rfl, -⟩ := List.cons.inj hm
      exact .inl ⟨inner, hg⟩

theorem start_lt_stop {w : Word} (h : w.text.Inked) : w.start < w.stop := by
  have hl : 0 < w.text.length := List.length_pos_iff.2 h.1
  rw [stop]
  omega

def Ordered (words : List Word) : Prop := words.Pairwise fun u v => u.stop ≤ v.start

theorem ordered_of_scan {file : Int} {source : Text} {before words : List Word}
    (h : scan file source = before ++ words) : Ordered words := by
  induction words generalizing before with
  | nil => exact .nil
  | cons w words ih =>
    refine .cons (fun v hv => ?_) (@ih (before ++ [w]) (by simpa using h))
    obtain ⟨_, t, _, _, _, _, _, _, rfl⟩ := scan_split h
    obtain ⟨u, _, rfl⟩ := List.mem_map.1 hv
    rw [shift_start]
    omega

theorem ordered_scan (file : Int) (source : Text) : Ordered (scan file source) :=
  @ordered_of_scan file source [] _ rfl

section Ordered

variable {words : List Word} (h : Ordered words) (hink : ∀ v ∈ words, v.text.Inked)

include h

theorem Ordered.parts {xs ys : List Word} (hs : words = xs ++ ys) : Ordered xs ∧ Ordered ys := by
  subst hs
  exact ⟨(List.pairwise_append.1 h).1, (List.pairwise_append.1 h).2.1⟩

theorem Ordered.append_le {xs ys : List Word} (hs : words = xs ++ ys) {u v : Word} (hu : u ∈ xs) (hv : v ∈ ys) :
    u.stop ≤ v.start := by
  subst hs
  exact (List.pairwise_append.1 h).2.2 u hu v hv

include hink

theorem Ordered.covers {file : Int} {first last w : Word} (hf : first ∈ words.head?) (hl : last ∈ words.getLast?)
    (hw : w ∈ words) (hfile : w.file = file) : Span.Covers ⟨file, first.start, last.stop⟩ w.span := by
  refine ⟨hfile.symm, ?_, ?_⟩
  · obtain ⟨rest, rfl⟩ := List.head?_eq_some_iff.1 hf
    rcases List.mem_cons.1 hw with rfl | hw
    · exact Int.le_refl _
    · have hle := (List.pairwise_cons.1 h).1 w hw
      have hlt := start_lt_stop (hink first (by simp))
      simp only [span]
      omega
  · obtain ⟨front, rfl⟩ := List.getLast?_eq_some_iff.1 hl
    rcases List.mem_append.1 hw with hw | hw
    · have hle := h.append_le rfl hw (List.mem_singleton_self last)
      have hlt := start_lt_stop (hink last (by simp))
      simp only [span]
      omega
    · rw [List.mem_singleton.1 hw]
      exact Int.le_refl _

/-- A range that starts at a later word, or ends with an earlier one, does not reach around a word. -/
theorem Ordered.not_covers {xs ys : List Word} (hs : words = xs ++ ys) {s : Span} {u w : Word}
    (hu : u ∈ ys ∧ s.start = u.start ∧ w ∈ xs ∨ u ∈ xs ∧ s.stop = u.stop ∧ w ∈ ys) : ¬ s.Covers w.span := by
  intro hc
  have hstart := hc.start
  have hstop := hc.stop
  have hlt : w.start < w.stop := by
    refine start_lt_stop (hink w ?_)
    rw [hs]
    rcases hu with ⟨-, -, hw⟩ | ⟨-, -, hw⟩ <;> simp [hw]
  simp only [span] at hstart hstop
  rcases hu with ⟨hu, he, hw⟩ | ⟨hu, he, hw⟩
  · have hle := h.append_le hs hw hu
    omega
  · have hle := h.append_le hs hu hw
    omega

end Ordered

end Word

namespace Item

/-- Every item comes from a reading, and `Q` holds of the words before it if each item before keeps it or is
the last one. -/
theorem reading_of_mem {source : Text} {words : List Word} (Q : List Word → Prop) (hnil : Q [])
    (hstep : ∀ {before w rest item used}, words = before ++ w :: rest → Q before →
      Reading source w rest item used → Q (before ++ w :: rest.take used) ∨ rest.drop used = [])
    {item : Item} (h : item ∈ readFrom source 0 words) :
    ∃ before w rest used, words = before ++ w :: rest ∧ Q before ∧ Reading source w rest item used := by
  -- On the number of words that are left after those of `before`.
  have hall : ∀ n {before more : List Word}, more.length = n → words = before ++ more → Q before →
      item ∈ readFrom source 0 more →
      ∃ before w rest used, words = before ++ w :: rest ∧ Q before ∧ Reading source w rest item used := by
    intro n
    induction n using Nat.strong_induction_on with
    | _ n ih =>
      intro before more hn hs hq hi
      cases more with
      | nil => simp [readFrom] at hi
      | cons w rest =>
        have hr := reading source w rest
        rw [readFrom_cons hr] at hi
        cases List.mem_cons.1 hi with
        | inl he => exact ⟨before, w, rest, _, hs, hq, he ▸ hr⟩
        | inr hi =>
          have hlen : (rest.drop (read source w rest).2).length < n := by
            simp only [← hn, List.length_cons, List.length_drop]
            omega
          refine ih _ hlen rfl ?_ ((hstep hs hq hr).resolve_right fun he => ?_) hi
          · rw [hs, List.append_assoc, List.cons_append, List.take_append_drop]
          · simp [he, readFrom] at hi
  exact hall _ rfl (List.nil_append words).symm hnil h

theorem exists_span_eq {file : Int} {source : Text} {words : List Word} (hf : ∀ v ∈ words, v.file = file)
    {item : Item} (h : item ∈ readFrom source 0 words) :
    ∃ first ∈ words, ∃ last ∈ words, item.atom.span = ⟨file, first.start, last.stop⟩ := by
  obtain ⟨before, w, rest, used, rfl, -, hr⟩ := reading_of_mem (fun _ => True) trivial
    (fun _ _ _ => .inl trivial) h
  obtain ⟨first, hfirst, last, hlast, hs⟩ := (hr.over fun v hv => hf v (List.mem_append_right before hv)).located
  have hsub : w :: rest.take used ⊆ before ++ w :: rest := fun v hv =>
    List.mem_append_right before (List.cons_subset_cons w (List.take_subset used rest) hv)
  exact ⟨first, hsub (List.mem_of_mem_head? hfirst), last, hsub (List.mem_of_mem_getLast? hlast), hs⟩

end Item

end MapScript
