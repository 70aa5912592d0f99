import Mathlib.Algebra.Order.Ring.Int
import MapScript.Proofs.Respelling

/-! Making suggestions, for suggestions of any origin: which of them are made, what the text is then, and that the order
in which they were found plays no part. -/

namespace MapScript

theorem Text.length_slice {t : Text} {i j : Nat} (h : j ≤ t.length) : (t.slice i j).length = j - i := by
  rw [slice, List.length_drop, List.length_take, Nat.min_eq_left h]

namespace Edit

def fresh (s : Suggestion) : Text := s.replacement.text?.getD []

def growth (s : Suggestion) : Int := (fresh s).length - (s.span.stop - s.span.start)

/-- A text that starts at an offset, with the ranges of some suggestions exchanged for their texts: what stands between
the ranges is kept as it is. -/
inductive Exchanged : Nat → Text → List Suggestion → Text → Prop
  | nil {pos : Nat} {rest : Text} : Exchanged pos rest [] rest
  | cons {pos : Nat} {kept gone rest out : Text} {s : Suggestion} {edits : List Suggestion}
      (start : s.span.start = (pos + kept.length : Nat)) (stop : s.span.stop = (pos + kept.length + gone.length : Nat))
      (more : Exchanged (pos + kept.length + gone.length) rest edits out) :
      Exchanged pos (kept ++ gone ++ rest) (s :: edits) (kept ++ fresh s ++ out)

theorem Exchanged.length_eq {pos : Nat} {text out : Text} {edits : List Suggestion}
    (h : Exchanged pos text edits out) : (out.length : Int) = text.length + (edits.map growth).sum := by
  induction h with
  | nil => simp
  | cons start stop _ ih =>
    simp only [List.length_append, List.map_cons, List.sum_cons, growth]
    omega

theorem exchanged_splice {source : Text} {edits : List Suggestion} {pos : Nat} (hpos : pos ≤ source.length)
    (hfirst : ∀ s ∈ edits, (pos : Int) ≤ s.span.start)
    (hin : ∀ s ∈ edits, s.span.start ≤ s.span.stop ∧ s.span.stop ≤ source.length)
    (hord : edits.Pairwise fun a b => a.span.stop ≤ b.span.start) :
    Exchanged pos (source.drop pos) edits (splice source pos edits) := by
  induction edits generalizing pos with
  | nil =>
    rw [splice, Text.clamp_of_le (by omega) (by omega), Int.toNat_natCast]
    exact .nil
  | cons s edits ih =>
    obtain ⟨hle, hlen⟩ := hin s List.mem_cons_self
    have hpa := hfirst s List.mem_cons_self
    obtain ⟨a, ha⟩ := Int.eq_ofNat_of_zero_le (by omega : 0 ≤ s.span.start)
    obtain ⟨b, hb⟩ := Int.eq_ofNat_of_zero_le (by omega : 0 ≤ s.span.stop)
    rw [ha] at hle hpa
    rw [hb] at hle hlen
    have hafter : ∀ t ∈ edits, (b : Int) ≤ t.span.start := by
      rw [← hb]
      exact (List.pairwise_cons.1 hord).1
    have hmore : Exchanged b (source.drop b) edits (splice source b edits) :=
      ih (by omega) hafter (fun t ht => hin t (List.mem_cons_of_mem s ht)) (List.pairwise_cons.1 hord).2
    have hkept : pos + (source.slice pos a).length = a := by
      rw [Text.length_slice (by omega)]
      omega
    have hgone : a + (source.slice a b).length = b := by
      rw [Text.length_slice (by omega)]
      omega
    rw [splice, between, ha, hb, Text.clamp_of_le (by omega) (by omega), Text.clamp_of_le (by omega) (by omega),
      Int.toNat_natCast, Int.toNat_natCast, ← Text.slice_append_drop source (by omega : pos ≤ a),
      ← Text.slice_append_drop source (by omega : a ≤ b), ← List.append_assoc]
    refine .cons (by rw [hkept, ha]) (by rw [hkept, hgone, hb]) ?_
    rw [hkept, hgone]
    exact hmore

/-- What is left out starts inside of something made before it, or before the end of the last thing made. -/
theorem choose_perm {last : Int} {l : List Suggestion} (h : l.Pairwise fun a b => le a b = true) :
    ∃ skipped, l.Perm (choose last l ++ skipped) ∧ ∀ s ∈ skipped, s.span.start < last ∨
      ∃ a ∈ choose last l, a.span.start ≤ s.span.start ∧ s.span.start < a.span.stop := by
  induction l generalizing last with
  | nil => exact ⟨[], .nil, by simp⟩
  | cons s rest ih =>
    obtain ⟨hs, hrest⟩ := List.pairwise_cons.1 h
    by_cases hlt : s.span.start < last
    · obtain ⟨skipped, hperm, hskipped⟩ := @ih last hrest
      rw [choose, if_pos hlt]
      refine ⟨s :: skipped, (hperm.cons s).trans List.perm_middle.symm, fun t ht => ?_⟩
      rcases List.mem_cons.1 ht with rfl | ht
      · exact .inl hlt
      · exact hskipped t ht
    · obtain ⟨skipped, hperm, hskipped⟩ := @ih s.span.stop hrest
      rw [choose, if_neg hlt]
      refine ⟨skipped, hperm.cons s, fun t ht => .inr ?_⟩
      rcases hskipped t ht with hinside | ⟨a, ha, hcover⟩
      · have hle := le_iff.1 (hs t (hperm.mem_iff.2 (List.mem_append_right _ ht)))
        exact ⟨s, List.mem_cons_self, by omega, hinside⟩
      · exact ⟨a, List.mem_cons_of_mem s ha, hcover⟩

theorem applicable_perm {risky : Bool} {file : Option Int} {ds ds' : List Diagnostic} (h : ds'.Perm ds)
    (hkeys : ((fixable risky file ds).map fun s => (s.span.start, s.span.stop)).Nodup) :
    applicable risky file ds' = applicable risky file ds := by
  have hsorted : (fixable risky file ds).Perm ((fixable risky file ds).mergeSort le) :=
    (List.mergeSort_perm _ _).symm
  have hfound : (fixable risky file ds').Perm (fixable risky file ds) := h.flatMap_right _
  rw [applicable, applicable, mergeSort_eq_of_perm (hfound.trans hsorted) (sorted_mergeSort _)
    ((hsorted.map _).nodup_iff.1 hkeys)]

theorem isPresent_of_isAllowed {risky : Bool} {r : Replacement} (h : r.isAllowed risky = true) :
    r.isPresent = true ∧ (risky = false → r.isSafe = true) := by
  cases risky with
  | true => exact ⟨h, by simp⟩
  | false =>
    refine ⟨?_, fun _ => h⟩
    cases r <;> simp_all [Replacement.isAllowed, Replacement.isSafe, Replacement.isPresent, Replacement.text?]

/-- For suggestions with ranges inside of the text, those made are sorted and do not overlap, none could be made in
addition, all of them are allowed, and the text has their texts in the places of their ranges and is the same elsewhere;
and the order in which they were found plays no part when no two are for the same range. -/
theorem apply_exchanges_most {source : Text} {ds : List Diagnostic} {risky : Bool} {file : Option Int}
    (h : ∀ d ∈ ds, ∀ s ∈ d.suggestions, s.replacement.isAllowed risky = true → (∀ f ∈ file, f = s.span.file) →
      0 ≤ s.span.start ∧ s.span.start ≤ s.span.stop ∧ s.span.stop ≤ source.length) :
    let (out, made) := apply source ds risky file
    (∀ s, s ∈ fixable risky file ds ↔ ∃ d ∈ ds, s ∈ d.suggestions ∧ s.replacement.isAllowed risky = true ∧
        ∀ f ∈ file, f = s.span.file) ∧
      (made.Pairwise fun a b =>
        a.span.start < b.span.start ∨ a.span.start = b.span.start ∧ a.span.stop ≤ b.span.stop) ∧
      (made.Pairwise fun a b => a.span.stop ≤ b.span.start) ∧
      (∃ skipped, (fixable risky file ds).Perm (made ++ skipped) ∧
        ∀ s ∈ skipped, ∃ a ∈ made, a.span.start ≤ s.span.start ∧ s.span.start < a.span.stop) ∧
      Exchanged 0 source made out ∧
      (out.length : Int) = source.length + (made.map growth).sum ∧
      (∀ s ∈ made, s.replacement.isPresent = true ∧ (risky = false → s.replacement.isSafe = true) ∧
        ∀ f ∈ file, f = s.span.file) ∧
      (((fixable risky file ds).map fun s => (s.span.start, s.span.stop)).Nodup →
        ∀ ds', ds'.Perm ds → apply source ds' risky file = (out, made)) := by
  have hsorted := sorted_mergeSort (fixable risky file ds)
  have hfixable : ∀ s ∈ fixable risky file ds,
      0 ≤ s.span.start ∧ s.span.start ≤ s.span.stop ∧ s.span.stop ≤ source.length := by
    intro s hs
    obtain ⟨d, hd, hmem, hallowed, hfile⟩ := mem_fixable.1 hs
    exact h d hd s hmem hallowed hfile
  have hin : ∀ s ∈ (fixable risky file ds).mergeSort le,
      0 ≤ s.span.start ∧ s.span.start ≤ s.span.stop ∧ s.span.stop ≤ source.length :=
    fun s hs => hfixable s (List.mem_mergeSort.1 hs)
  have hmade : ∀ s ∈ applicable risky file ds,
      0 ≤ s.span.start ∧ s.span.start ≤ s.span.stop ∧ s.span.stop ≤ source.length :=
    fun s hs => hfixable s (mem_of_mem_applicable hs)
  have hapart : (applicable risky file ds).Pairwise fun a b => a.span.stop ≤ b.span.start :=
    (choose_ordered fun s hs => (hin s hs).2.1).2
  have hexchanged : Exchanged 0 source (applicable risky file ds) (splice source 0 (applicable risky file ds)) :=
    exchanged_splice (Nat.zero_le _) (fun s hs => (hmade s hs).1) (fun s hs => (hmade s hs).2) hapart
  refine ⟨fun s => mem_fixable, ?_, hapart, ?_, hexchanged, hexchanged.length_eq, fun s hs => ?_, fun hkeys ds' hds => ?_⟩
  · exact (hsorted.sublist (choose_sublist _ _)).imp le_iff.1
  · obtain ⟨skipped, hperm, hskipped⟩ := @choose_perm (-1) _ hsorted
    -- Nothing starts before the text, so what is skipped is skipped for something made.
    refine ⟨skipped, (List.mergeSort_perm _ _).symm.trans hperm, fun s hs => (hskipped s hs).resolve_left ?_⟩
    have hstart := (hin s (hperm.mem_iff.2 (List.mem_append_right _ hs))).1
    omega
  · obtain ⟨-, -, -, hallowed, hfile⟩ := mem_fixable.1 (mem_of_mem_applicable hs)
    obtain ⟨hpresent, hsafe⟩ := isPresent_of_isAllowed hallowed
    exact ⟨hpresent, hsafe, hfile⟩
  · rw [apply, applicable_perm hds hkeys]

def jostling : List Diagnostic :=
  [(((Diagnostic.error ⟨0, 2, 4⟩ "a").suggest ⟨0, 2, 4⟩ "b" (.safe "yy")).suggest ⟨0, 3, 3⟩ "c" (.safe "-")).suggest
      ⟨0, 0, 1⟩ "d",
    ((Diagnostic.error ⟨0, 1, 3⟩ "a").suggest ⟨0, 1, 3⟩ "b" (.safe "x")).suggest ⟨0, 4, 5⟩ "e" (.risky "z")]

theorem jostling_exchanges_most :
    (∀ d ∈ jostling, ∀ s ∈ d.suggestions, s.replacement.isAllowed false = true → (∀ f ∈ some 0, f = s.span.file) →
        0 ≤ s.span.start ∧ s.span.start ≤ s.span.stop ∧ s.span.stop ≤ (Text.ofString "abcdef").length) ∧
      (let (out, made) := apply "abcdef" jostling false (some 0)
      (made.Pairwise fun a b => a.span.stop ≤ b.span.start) ∧ Exchanged 0 "abcdef" made out ∧
        (out.length : Int) = 6 + (made.map growth).sum ∧
        apply "abcdef" jostling.reverse false (some 0) = (out, made)) := by
  have hin : ∀ d ∈ jostling, ∀ s ∈ d.suggestions, s.replacement.isAllowed false = true →
      (∀ f ∈ some 0, f = s.span.file) →
      0 ≤ s.span.start ∧ s.span.start ≤ s.span.stop ∧ s.span.stop ≤ (Text.ofString "abcdef").length := by decide
  have hkeys : ((fixable false (some 0) jostling).map fun s => (s.span.start, s.span.stop)).Nodup := by decide
  obtain ⟨-, -, hapart, -, hexchanged, hlength, -, hperm⟩ := apply_exchanges_most hin
  exact ⟨hin, hapart, hexchanged, hlength, hperm hkeys _ (List.reverse_perm _)⟩

end Edit

end MapScript
