import Mathlib.Computability.Language
import MapScript.Proofs.Calls

/-! The calls of `rnd` as a regular language. A text is told to be a call exactly if it is in the language, and is
joined to a call exactly if it has blanks and is in the language without them. -/

namespace MapScript

open Computability

namespace Numeral

def digit : Language Glyph := {t | ∃ c : Char, '0' ≤ c ∧ c ≤ '9' ∧ t = [.char c]}

def integer : Language Glyph := (1 + {Text.ofString "+"} + {Text.ofString "-"}) * (digit * digit∗)

theorem mem_digit_iff {t : Text} : t ∈ digit ↔ ∃ g, isDigit g = true ∧ t = [g] := by
  constructor
  · rintro ⟨c, hlow, hhigh, rfl⟩
    exact ⟨.char c, isDigit_iff.2 ⟨c, rfl, hlow, hhigh⟩, rfl⟩
  · rintro ⟨g, hg, rfl⟩
    obtain ⟨c, rfl, hlow, hhigh⟩ := isDigit_iff.1 hg
    exact ⟨c, hlow, hhigh, rfl⟩

theorem mem_kstar_digit_iff {t : Text} : t ∈ digit∗ ↔ ∀ g ∈ t, isDigit g = true := by
  constructor
  · rintro ⟨pieces, rfl, hp⟩ g hg
    obtain ⟨piece, hpiece, hg⟩ := List.mem_flatten.1 hg
    obtain ⟨d, hd, rfl⟩ := mem_digit_iff.1 (hp piece hpiece)
    rwa [List.mem_singleton.1 hg]
  · intro h
    refine ⟨t.map fun g => [g], ?_, fun piece hpiece => ?_⟩
    · rw [← List.flatMap_def, List.flatMap_singleton']
    · obtain ⟨g, hg, rfl⟩ := List.mem_map.1 hpiece
      exact mem_digit_iff.2 ⟨g, h g hg, rfl⟩

theorem mem_digits_iff {t : Text} : t ∈ digit * digit∗ ↔ t ≠ [] ∧ ∀ g ∈ t, isDigit g = true := by
  rw [Language.mem_mul]
  constructor
  · rintro ⟨first, hf, rest, hr, rfl⟩
    obtain ⟨g, hg, rfl⟩ := mem_digit_iff.1 hf
    exact ⟨by simp, List.forall_mem_append.2 ⟨List.forall_mem_singleton.2 hg, mem_kstar_digit_iff.1 hr⟩⟩
  · rintro ⟨hne, hd⟩
    obtain ⟨g, rest, rfl⟩ := List.exists_cons_of_ne_nil hne
    obtain ⟨hg, hr⟩ := List.forall_mem_cons.1 hd
    exact ⟨[g], mem_digit_iff.2 ⟨g, hg, rfl⟩, rest, mem_kstar_digit_iff.2 hr, rfl⟩

theorem mem_signs_iff {t : Text} :
    t ∈ (1 + {Text.ofString "+"} + {Text.ofString "-"} : Language Glyph) ↔ t ∈ ([[], "+", "-"] : List Text) := by
  simp only [Language.mem_add, Language.mem_one, List.mem_cons, List.not_mem_nil, or_false, or_assoc]
  rfl

theorem mem_integer_iff {t : Text} : t ∈ integer ↔ isNumeral t = true := by
  have hnumeral : isNumeral t = true ↔ (splitSign t).2 ∈ digit * digit∗ := by
    rw [mem_digits_iff, isNumeral, Bool.and_eq_true, List.all_eq_true, Bool.not_eq_true', List.isEmpty_eq_false_iff]
  rw [hnumeral, integer, Language.mem_mul]
  constructor
  · rintro ⟨sign, hs, digits, hd, rfl⟩
    rwa [snd_splitSign_append (mem_signs_iff.1 hs) (mem_digits_iff.1 hd).2]
  · intro h
    obtain ⟨sign, hs, ht⟩ := exists_sign t
    exact ⟨sign, mem_signs_iff.2 hs, _, h, ht.symm⟩

end Numeral

namespace Text

theorem join_cons (sep part : Text) (rest : List Text) :
    join sep (part :: rest) = part ++ (rest.map (sep ++ ·)).flatten := by
  induction rest generalizing part with
  | nil => simp [join]
  | cons next rest ih =>
    rw [join, List.intercalate_cons_cons, ← join, ih, List.map_cons, List.flatten_cons, List.append_assoc,
      List.append_assoc]

theorem mem_separated_iff {sep : Text} {l : Language Glyph} {t : Text} :
    t ∈ l * ({sep} * l)∗ ↔ ∃ parts, parts ≠ [] ∧ (∀ part ∈ parts, part ∈ l) ∧ t = join sep parts := by
  rw [Language.mem_mul]
  constructor
  · rintro ⟨first, hf, _, ⟨pieces, rfl, hp⟩, rfl⟩
    obtain ⟨rest, hr, rfl⟩ : ∃ rest : List Text, (∀ part ∈ rest, part ∈ l) ∧ rest.map (sep ++ ·) = pieces := by
      induction pieces with
      | nil => exact ⟨[], by simp, rfl⟩
      | cons piece pieces ih =>
        obtain ⟨hpiece, hpieces⟩ := List.forall_mem_cons.1 hp
        obtain ⟨_, rfl, part, hpart, rfl⟩ := Language.mem_mul.1 hpiece
        obtain ⟨rest, hr, rfl⟩ := ih hpieces
        exact ⟨part :: rest, List.forall_mem_cons.2 ⟨hpart, hr⟩, rfl⟩
    exact ⟨first :: rest, by simp, List.forall_mem_cons.2 ⟨hf, hr⟩, (join_cons sep first rest).symm⟩
  · rintro ⟨parts, hne, hp, rfl⟩
    obtain ⟨first, rest, rfl⟩ := List.exists_cons_of_ne_nil hne
    obtain ⟨hf, hr⟩ := List.forall_mem_cons.1 hp
    refine ⟨first, hf, _, ⟨rest.map (sep ++ ·), rfl, fun piece hpiece => ?_⟩, (join_cons sep first rest).symm⟩
    obtain ⟨part, hpart, rfl⟩ := List.mem_map.1 hpiece
    exact Language.append_mem_mul rfl (hr part hpart)

end Text

namespace Rnd

open Numeral

def calls : Language Glyph :=
  {Text.ofString "rnd("} * (integer * ({Text.ofString ","} * integer)∗) * {Text.ofString ")"}

theorem isCall_iff_mem_calls {t : Text} : isCall t = true ↔ t ∈ calls := by
  rw [isCall_iff, calls, Language.mem_mul]
  constructor
  · rintro ⟨_, ⟨args, hne, hargs, rfl⟩, rfl⟩
    have hinner : Text.join "," args ∈ integer * ({Text.ofString ","} * integer)∗ :=
      Text.mem_separated_iff.2 ⟨args, hne, fun arg harg => mem_integer_iff.2 (hargs arg harg), rfl⟩
    refine ⟨_, Language.append_mem_mul rfl hinner, _, rfl, ?_⟩
    rw [List.append_assoc]
    rfl
  · rintro ⟨front, hfront, _, rfl, rfl⟩
    obtain ⟨_, rfl, inner, hinner, rfl⟩ := Language.mem_mul.1 hfront
    obtain ⟨args, hne, hargs, rfl⟩ := Text.mem_separated_iff.1 hinner
    refine ⟨_, ⟨args, hne, fun arg harg => mem_integer_iff.1 (hargs arg harg), rfl⟩, ?_⟩
    rw [List.append_assoc]
    rfl

theorem joined?_eq_some_iff {t call : Text} :
    joined? t = some call ↔ (∃ g ∈ t, g.isBlank = true) ∧ call = Text.removeBlanks t ∧ isCall call = true := by
  constructor
  · intro h
    obtain ⟨rfl, hc⟩ := isCall_of_joined? h
    simp only [joined?, Option.ite_none_right_eq_some, Bool.and_eq_true, List.any_eq_true] at h
    exact ⟨h.1.1.2, rfl, hc⟩
  · rintro ⟨⟨g, hg, hb⟩, rfl, hc⟩
    have hopen : isCall t = false := by
      rw [Bool.eq_false_iff]
      intro ht
      simp [not_isBlank_of_isCall ht g hg] at hb
    have hany : t.any Glyph.isBlank = true := List.any_eq_true.2 ⟨g, hg, hb⟩
    simp [joined?, hopen, hany, hc]

/-- The verdict on a text recognises calls and texts that are calls but for their blanks. A call that is offered in
place of a text is recognised itself. -/
theorem verdict_recognises_calls (t : Text) :
    (verdict t = (true, none) ↔ t ∈ calls) ∧
    (∀ call, verdict t = (false, some call) ↔
      (∃ g ∈ t, g.isBlank = true) ∧ call = Text.removeBlanks t ∧ call ∈ calls) ∧
    (verdict t = (false, none) ↔ t ∉ calls ∧ ¬ ((∃ g ∈ t, g.isBlank = true) ∧ Text.removeBlanks t ∈ calls)) ∧
    (∀ call, (verdict t).2 = some call → verdict call = (true, none)) := by
  have hsome : ∀ call, joined? t = some call ↔
      (∃ g ∈ t, g.isBlank = true) ∧ call = Text.removeBlanks t ∧ call ∈ calls := fun call => by
    rw [joined?_eq_some_iff, isCall_iff_mem_calls]
  have hnone : joined? t = none ↔ ¬ ((∃ g ∈ t, g.isBlank = true) ∧ Text.removeBlanks t ∈ calls) := by
    rw [Option.eq_none_iff_forall_ne_some]
    constructor
    · rintro h ⟨hb, hc⟩
      exact h _ ((hsome _).2 ⟨hb, rfl, hc⟩)
    · intro h call hj
      obtain ⟨hb, rfl, hc⟩ := (hsome call).1 hj
      exact h ⟨hb, hc⟩
  have hfree : ∀ call, isCall call = true → verdict call = (true, none) := fun call h => by
    rw [verdict, h, joined?_of_isCall h]
  refine ⟨?_, ?_, ?_, ?_⟩
  · rw [← isCall_iff_mem_calls]
    exact ⟨fun h => congrArg Prod.fst h, hfree t⟩
  · intro call
    rw [← hsome, verdict, Prod.mk.injEq]
    refine and_iff_right_of_imp fun h => ?_
    rw [Bool.eq_false_iff]
    intro hc
    simp [joined?_of_isCall hc] at h
  · rw [verdict, Prod.mk.injEq, hnone, Bool.eq_false_iff, Ne, isCall_iff_mem_calls]
  · intro call h
    exact hfree call (isCall_of_joined? h).2

theorem spacedCall_recognised :
    (verdict "rnd( +4,\u00a0-2)").2 = some (Text.ofString "rnd(+4,-2)") ∧ Text.ofString "rnd(+4,-2)" ∈ calls ∧
      verdict "rnd(+4,-2)" = (true, none) :=
  ⟨by decide, (((verdict_recognises_calls "rnd( +4,\u00a0-2)").2.1 _).1 (by decide)).2.2,
    (verdict_recognises_calls "rnd( +4,\u00a0-2)").2.2.2 _ (by decide)⟩

end Rnd

end MapScript
