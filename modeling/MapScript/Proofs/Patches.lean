import MapScript.Edit
import MapScript.Proofs.Codec
import MapScript.Proofs.Edges

/-! Replacements change the bytes of a file only inside of their own ranges: a script that is read, checked,
fixed and written back is the old one with some ranges of bytes exchanged. -/

namespace MapScript

namespace Edit

theorem choose_sublist (last : Int) (l : List Suggestion) : (choose last l).Sublist l := by
  induction l generalizing last with
  | nil => exact .slnil
  | cons s rest ih =>
    unfold choose
    split
    · exact (ih last).cons s
    · exact (ih s.span.stop).cons_cons s

/-- What is chosen starts where the last one ends or later, and each after the end of those before. -/
theorem choose_ordered {last : Int} {l : List Suggestion} (h : ∀ s ∈ l, s.span.start ≤ s.span.stop) :
    (∀ s ∈ choose last l, last ≤ s.span.start) ∧
      (choose last l).Pairwise fun a b => a.span.stop ≤ b.span.start := by
  induction l generalizing last with
  | nil => exact ⟨by simp [choose], .nil⟩
  | cons s rest ih =>
    have hs := h s List.mem_cons_self
    have hrest : ∀ t ∈ rest, t.span.start ≤ t.span.stop := fun t ht => h t (List.mem_cons_of_mem s ht)
    by_cases hlt : s.span.start < last
    · simpa only [choose, if_pos hlt] using ih hrest
    · obtain ⟨hafter, hpair⟩ := @ih s.span.stop hrest
      rw [choose, if_neg hlt]
      refine ⟨fun t ht => ?_, .cons hafter hpair⟩
      cases List.mem_cons.1 ht with
      | inl ht =>
        rw [ht]
        omega
      | inr ht =>
        have hle := hafter t ht
        omega

theorem mem_fixable {risky : Bool} {file : Option Int} {ds : List Diagnostic} {s : Suggestion} :
    s ∈ fixable risky file ds ↔ ∃ d ∈ ds, s ∈ d.suggestions ∧ s.replacement.isAllowed risky = true ∧
      ∀ f ∈ file, f = s.span.file := by
  rw [fixable, List.mem_flatMap]
  cases file <;> simp

theorem mem_of_mem_applicable {risky : Bool} {file : Option Int} {ds : List Diagnostic} {s : Suggestion}
    (h : s ∈ applicable risky file ds) : s ∈ fixable risky file ds :=
  List.mem_mergeSort.1 ((choose_sublist _ _).subset h)

theorem applicable_ordered {risky : Bool} {file : Option Int} {ds : List Diagnostic}
    (h : ∀ d ∈ ds, ∀ s ∈ d.suggestions, s.span.start ≤ s.span.stop) :
    (applicable risky file ds).Pairwise fun a b => a.span.stop ≤ b.span.start := by
  refine (choose_ordered fun s hs => ?_).2
  obtain ⟨d, hd, hs, -⟩ := mem_fixable.1 (List.mem_mergeSort.1 hs)
  exact h d hd s hs

/-- Bytes that start at an offset, with some ranges exchanged for others: what stands between the ranges is
kept as it is. -/
inductive Patched : Nat → Bytes → List (Nat × Nat × Bytes) → Bytes → Prop
  | nil {pos : Nat} {rest : Bytes} : Patched pos rest [] rest
  | cons {pos : Nat} {kept gone fresh rest out : Bytes} {edits : List (Nat × Nat × Bytes)}
      (more : Patched (pos + kept.length + gone.length) rest edits out) :
      Patched pos (kept ++ gone ++ rest)
        ((pos + kept.length, pos + kept.length + gone.length, fresh) :: edits) (kept ++ fresh ++ out)

def bytesOf (source : Source) (s : Suggestion) : Nat × Nat × Bytes :=
  (source.byteOffset s.span.start, source.byteOffset s.span.stop, Text.encode (s.replacement.text?.getD []))

theorem patched_splice {source : Source} {made : List Suggestion} {pos : Nat}
    (hin : ∀ s ∈ made, s.span.Inside source.file source.text)
    (hord : made.Pairwise fun a b => a.span.stop ≤ b.span.start) (hpos : pos ≤ source.text.length)
    (hfirst : ∀ s ∈ made, pos ≤ s.span.start) :
    Patched (source.byteOffset pos) (Text.encode (source.text.drop pos)) (made.map (bytesOf source))
      (Text.encode (splice source.text pos made)) := by
  induction made generalizing pos with
  | nil =>
    rw [splice, Text.clamp_of_le (by omega) (by omega), Int.toNat_natCast]
    exact .nil
  | cons s made ih =>
    obtain ⟨-, hstart, hlt, hstop⟩ := hin s List.mem_cons_self
    obtain ⟨a, ha⟩ := Int.eq_ofNat_of_zero_le hstart
    obtain ⟨b, hb⟩ := Int.eq_ofNat_of_zero_le (Int.le_trans hstart (Int.le_of_lt hlt))
    have hpa := hfirst s List.mem_cons_self
    rw [ha] at hlt hpa
    rw [hb] at hlt hstop
    have hmore : Patched (source.byteOffset b) (Text.encode (source.text.drop b)) (made.map (bytesOf source))
        (Text.encode (splice source.text b made)) := by
      refine ih (fun t ht => hin t (List.mem_cons_of_mem s ht)) (List.pairwise_cons.1 hord).2 (by omega) ?_
      intro t ht
      rw [← hb]
      exact (List.pairwise_cons.1 hord).1 t ht
    have hkept := source.byteOffset_add (by omega : pos ≤ a) (by omega)
    have hgone := source.byteOffset_add (by omega : a ≤ b) (by omega)
    rw [List.map_cons, bytesOf, splice, between, ha, hb, Text.clamp_of_le (by omega) (by omega),
      Text.clamp_of_le (by omega) (by omega), Int.toNat_natCast, Int.toNat_natCast,
      ← Text.slice_append_drop _ (by omega : pos ≤ a), ← Text.slice_append_drop _ (by omega : a ≤ b), hgone, hkept]
    simp only [Text.encode_append, ← List.append_assoc]
    refine .cons ?_
    rwa [← hkept, ← hgone]

theorem edged_of_mem_apply {c : Check} {source : Source} (hc : c.sources = [source]) {report : Report}
    (h : c.run = .ok report) {risky : Bool} {file : Option Int} {s : Suggestion}
    (hs : s ∈ applicable risky file report.diagnostics) :
    s.span.Edged source.file source.text ∧ s.replacement.isAllowed risky = true := by
  obtain ⟨d, hd, hmem, hallowed, -⟩ := mem_fixable.1 (mem_of_mem_applicable hs)
  exact ⟨(Check.edged_of_run hc h hd).suggestions s hmem, hallowed⟩

theorem ordered_of_run {c : Check} {source : Source} (hc : c.sources = [source]) {report : Report}
    (h : c.run = .ok report) (risky : Bool) (file : Option Int) :
    (applicable risky file report.diagnostics).Pairwise fun a b => a.span.stop ≤ b.span.start := by
  refine applicable_ordered fun d hd s hs => ?_
  exact Int.le_of_lt ((Check.edged_of_run hc h hd).suggestions s hs).lt

/-- A script that is fixed and written back is the old one, with the bytes of the suggestions that were carried
out exchanged and all others kept, those that belong to no character included. -/
theorem bytes_outside_edits_kept {bytes : Bytes} {level : Level} {rules : List Rule} {builtinMap : Bool}
    {name : Text} {report : Report} (risky : Bool) (file : Option Int)
    (h : (Check.mk level rules builtinMap [⟨0, name, Text.readKeeping bytes⟩]).run = .ok report) :
    let source : Source := ⟨0, name, Text.readKeeping bytes⟩
    let (fixed, made) := apply source.text report.diagnostics risky file
    (∀ s ∈ made, s.span.Edged 0 source.text ∧ s.replacement.isAllowed risky = true) ∧
      (made.Pairwise fun a b => a.span.stop ≤ b.span.start) ∧
      Patched 0 bytes (made.map (bytesOf source)) (Text.encode fixed) ∧
      (made = [] → Text.encode fixed = bytes) := by
  intro source
  have hedged : ∀ s ∈ applicable risky file report.diagnostics,
      s.span.Edged 0 source.text ∧ s.replacement.isAllowed risky = true := fun s hs => edged_of_mem_apply rfl h hs
  have hord := ordered_of_run rfl h risky file
  have hpatched := @patched_splice source _ 0 (fun s hs => (hedged s hs).1.toInside) hord (by omega)
    fun s hs => (hedged s hs).1.start
  rw [Source.byteOffset_natCast source (by omega), List.take_zero, List.drop_zero,
    show Text.encode source.text = bytes from Text.encode_readKeeping bytes] at hpatched
  refine ⟨hedged, hord, hpatched, fun hnone => ?_⟩
  rw [hnone] at hpatched ⊢
  generalize Text.encode (splice source.text 0 []) = out at hpatched
  cases hpatched
  rfl

def strayBytes : Bytes := 0xff :: Text.encode " #const land 5"

theorem strayBytes_outside_edits_kept : ∃ report,
    (Check.mk .conquerors Rule.defaults false [⟨0, "m.rms", Text.readKeeping strayBytes⟩]).run = .ok report ∧
      let source : Source := ⟨0, "m.rms", Text.readKeeping strayBytes⟩
      let (fixed, made) := apply source.text report.diagnostics false (some 0)
      (∀ s ∈ made, s.span.Edged 0 source.text ∧ s.replacement.isAllowed false = true) ∧
        (made.Pairwise fun a b => a.span.stop ≤ b.span.start) ∧
        Patched 0 strayBytes (made.map (bytesOf source)) (Text.encode fixed) ∧
        (made = [] → Text.encode fixed = strayBytes) := by
  have hrun : (Check.mk .conquerors Rule.defaults false
      [⟨0, "m.rms", Text.readKeeping strayBytes⟩]).run.toOption.any (fun _ => true) = true := by
    decide +kernel
  obtain ⟨report, hrun, -⟩ := exists_eq_ok_iff.2 hrun
  exact ⟨report, hrun, bytes_outside_edits_kept false (some 0) hrun⟩

end Edit

end MapScript
