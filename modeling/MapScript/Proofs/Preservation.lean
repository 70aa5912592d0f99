import Mathlib.Data.List.Forall2
import MapScript.Proofs.Writing

/-! Layout keeps a clean script: what is written reads back, without a flaw, as the atoms it was written
from. -/

namespace MapScript

@[simp] theorem Atom.bare_shift (n : Nat) (a : Atom) : (a.shift n).bare = a.bare := by
  cases a with
  | const head name value => cases value <;> rfl
  | command name args => simp [Atom.bare, Atom.shift, Function.comp_def, Word.bare]
  | _ => rfl

theorem Atom.texts_shift (n : Nat) (a : Atom) : (a.shift n).words.map Word.text = a.words.map Word.text := by
  simp [Atom.words, Function.comp_def]

namespace Item

theorem complete_getLast_sound (atoms : List Atom) :
    ∀ item ∈ (atoms.map sound).getLast?, item.Complete := by
  intro item hi
  obtain ⟨a, -, rfl⟩ := List.mem_map.1 (List.mem_of_mem_getLast? hi)
  exact complete_sound a

theorem parse_append_blank {t b : Text} {atoms : List Atom} (h : parse 0 t = atoms.map sound)
    (hb : b.isBlank = true) : parse 0 (t ++ b) = atoms.map sound := by
  have hnil : parse 0 b = [] := by
    rw [parse, Word.scan_of_isBlank 0 hb]
    rfl
  rw [parse_append 0 (.inr (Text.startsBlank_of_isBlank hb)) (h ▸ complete_getLast_sound atoms), h, hnil]
  simp

end Item

namespace Layout

open Item (sound)

/-- Without the blanks at its end, what has been written is exactly these atoms. -/
structure Holds (out : Output) (atoms : List Atom) : Prop where
  parse : Item.parse 0 (Text.trimRight out.text) = atoms.map sound
  ends : out.text.EndsBlank

theorem Rewritten.shift {o : Options} {place : Place} {a b : Atom} (h : Rewritten o place a b) (n : Nat) :
    Rewritten o place a (b.shift n) := by
  refine ⟨by rw [Atom.bare_shift, h.bare], fun hk => by rw [Atom.texts_shift, h.texts hk], fun ha => ?_⟩
  obtain ⟨opener, closer, stop, rfl⟩ := h.content ha
  exact ⟨_, _, _, rfl⟩

/-- The atoms `cs` stand in the text that the strokes write, each for the atom of its stroke. -/
inductive Traced (job : Job) : Output → List Stroke → List Atom → Prop
  | nil {out} : Traced job out [] []
  | cons {out s strokes c cs} (start : c.start = (s.front job out).length)
      (stop : c.stop = (s.front job out).length + (phrase job.options s.place s.atom).length)
      (same : Rewritten job.options s.place s.atom c) (rest : Traced job (s.write job out) strokes cs) :
      Traced job out (s :: strokes) (c :: cs)

theorem Holds.write {job : Job} (ho : job.options.Usual) {out : Output} {bs : List Atom} (h : Holds out bs)
    {s : Stroke} (hs : s.atom.Legible) :
    ∃ c : Atom, c.start = (s.front job out).length ∧
      c.stop = (s.front job out).length + (phrase job.options s.place s.atom).length ∧
      Rewritten job.options s.place s.atom c ∧ Holds (s.write job out) (bs ++ [c]) := by
  obtain ⟨b, hb, hsame⟩ := @exists_spells job.options s.place ho s.atom hs
  have hspaced := ready_spaced ho out s
  have hlead := Output.isBlank_lead job.options s.place.indent (s.ready job out)
  -- Blanks keep the words of the phrase apart from those before it, wherever they come from.
  have hends : (s.front job out).EndsBlank :=
    Text.endsBlank_append (Text.endsBlank_of_isBlank hlead) (.inr (hspaced.ends h.ends))
  have hfront : Item.parse 0 (s.front job out) = bs.map sound := by
    obtain ⟨blank, hblank, ht⟩ := Text.trimRight_blank (s.ready job out).text
    rw [Stroke.front, ht, hspaced.trimmed]
    exact Item.parse_append_blank (Item.parse_append_blank h.parse hblank) hlead
  have hback := back_blank ho s
  have htext := s.text_write job out hs.kind_ne_other
  rw [← List.append_assoc] at htext
  refine ⟨b.shift (s.front job out).length, ?_, ?_, hsame.shift _, ?_, ?_⟩
  · rw [Atom.start_shift, hb.start, Nat.zero_add]
  · rw [Atom.stop_shift, hb.stop, Nat.add_comm]
  · have hink := Text.not_endsBlank_append hb.ends (s.front job out)
    rw [htext, Text.trimRight_append_blank hback.1, Text.trimRight_of_not_endsBlank hink,
      Item.parse_append 0 (.inl hends) (hfront ▸ Item.complete_getLast_sound bs), hfront, hb.parse]
    simp
  · rw [htext]
    exact Text.endsBlank_append (Text.endsBlank_of_isBlank hback.1) (.inl hback.2)

theorem Holds.run {job : Job} (ho : job.options.Usual) {out : Output} {bs : List Atom} (h : Holds out bs)
    {strokes : List Stroke} (hs : ∀ s ∈ strokes, s.atom.Legible) :
    ∃ cs, Traced job out strokes cs ∧ Holds (Stroke.run job out strokes) (bs ++ cs) := by
  induction strokes generalizing out bs with
  | nil => exact ⟨[], .nil, by rwa [List.append_nil]⟩
  | cons s strokes ih =>
    obtain ⟨c, hstart, hstop, hsame, hnext⟩ := h.write ho (hs s (by simp))
    obtain ⟨cs, htraced, hall⟩ := ih hnext fun t ht => hs t (by simp [ht])
    refine ⟨c :: cs, .cons hstart hstop hsame htraced, ?_⟩
    rwa [List.append_assoc] at hall

theorem Traced.forall₂ {job : Job} {out : Output} {strokes : List Stroke} {cs : List Atom}
    (h : Traced job out strokes cs) :
    List.Forall₂ (fun s c => Rewritten job.options s.place s.atom c) strokes cs := by
  induction h with
  | nil => exact .nil
  | cons _ _ same _ ih => exact .cons same ih

def strokesFrom (o : Options) (source : Text) : List Stroke :=
  strokes o {} (Node.group (Atom.parse 0 source))

section Clean

variable {source : Text} (h : Clean source) {o : Options}

include h

theorem format_eq_run (o : Options) :
    format o source = (Stroke.run ⟨o, source⟩ {} (strokesFrom o source)).text := by
  rw [format, nodes_eq_run h.tidy]
  rfl

theorem map_atom_strokesFrom (o : Options) :
    (strokesFrom o source).map Stroke.atom = Atom.parse 0 source :=
  map_atom_strokes h.tidy o {}

theorem legible_strokesFrom (o : Options) : ∀ s ∈ strokesFrom o source, s.atom.Legible := by
  intro s hs
  refine h.items.2 s.atom ?_
  rw [← map_atom_strokesFrom h o]
  exact List.mem_map_of_mem hs

theorem exists_traced (ho : o.Usual) :
    ∃ cs, Traced ⟨o, source⟩ {} (strokesFrom o source) cs ∧
      Item.parse 0 (format o source) = cs.map sound := by
  have hstart : Holds {} [] := ⟨rfl, Text.endsBlank_nil⟩
  obtain ⟨cs, htraced, hall⟩ := @Holds.run ⟨o, source⟩ ho {} [] hstart _ (legible_strokesFrom h o)
  obtain ⟨blank, hblank, ht⟩ := Text.trimRight_blank (Stroke.run ⟨o, source⟩ {} (strokesFrom o source)).text
  refine ⟨cs, htraced, ?_⟩
  rw [format_eq_run h, ht]
  exact Item.parse_append_blank hall.parse hblank

end Clean

/-- Layout keeps the kinds of the atoms of a clean script and the texts of their words, up to the capitals of
leading keywords, and gives nothing that is malformed. -/
theorem format_preserves_atoms {source : Text} (h : Clean source) {o : Options} (ho : o.Usual) :
    (∀ item ∈ Item.parse 0 (format o source), item.flaws = []) ∧
      List.Forall₂ (fun a b => b.kind = a.kind ∧ (a.kind ≠ .comment → b.words.map Word.text = a.normalTexts))
        (Atom.parse 0 source) (Atom.parse 0 (format o source)) := by
  obtain ⟨cs, htraced, hparse⟩ := exists_traced h ho
  constructor
  · intro item hi
    rw [hparse] at hi
    obtain ⟨a, -, rfl⟩ := List.mem_map.1 hi
    rfl
  · have hatoms : Atom.parse 0 (format o source) = cs := Atom.parse_eq_of_sound hparse
    rw [hatoms, ← map_atom_strokesFrom h o, List.forall₂_map_left_iff]
    exact htraced.forall₂.imp fun s c hsame => ⟨hsame.kind, hsame.texts⟩

def crowded : Text :=
  "IF a create_land \x7b Start_Random percent_chance 50 land_percent 5 END_RANDOM /* b */ \x7d ENDIF"

theorem crowded_preserves_atoms :
    Clean crowded ∧ Options.Usual {} ∧ (∀ item ∈ Item.parse 0 (format {} crowded), item.flaws = []) ∧
      List.Forall₂ (fun a b => b.kind = a.kind ∧ (a.kind ≠ .comment → b.words.map Word.text = a.normalTexts))
        (Atom.parse 0 crowded) (Atom.parse 0 (format {} crowded)) := by
  have hclean : Clean crowded := .of_test (show Clean.test .conquerors crowded = true by decide +kernel)
  have husual : Options.Usual {} := .inl rfl
  exact ⟨hclean, husual, format_preserves_atoms hclean husual⟩

end Layout

end MapScript
