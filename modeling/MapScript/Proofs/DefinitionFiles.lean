import MapScript.Proofs.Calls
import MapScript.Proofs.Respelling
import MapScript.Proofs.Statements
import MapScript.Proofs.Visibility

/-! The names of the game. They stand in files that are scripts, and a version has the names that are read from its
files. -/

namespace MapScript

namespace Glyph

def isCapital : Glyph → Bool
  | .char c => c.isUpper || c.isDigit || c == '_'
  | .stray _ => false

theorem exists_of_isCapital {g : Glyph} (h : g.isCapital = true) :
    ∃ c : Char, g = .char c ∧ (48 ≤ c.toNat ∧ c.toNat ≤ 57 ∨ 65 ≤ c.toNat ∧ c.toNat ≤ 95) := by
  cases g with
  | stray b => simp [isCapital] at h
  | char c =>
    refine ⟨c, rfl, ?_⟩
    simp only [isCapital, Bool.or_eq_true, beq_iff_eq] at h
    rcases h with (h | h) | rfl
    · have hupper : 65 ≤ c.toNat ∧ c.toNat ≤ 90 := of_decide_eq_true h
      omega
    · exact .inl ((Bool.and_eq_true_iff.1 h).imp of_decide_eq_true of_decide_eq_true)
    · exact .inr (by decide)

theorem isBlank_of_isCapital {g : Glyph} (h : g.isCapital = true) : g.isBlank = false := by
  obtain ⟨c, rfl, hc⟩ := exists_of_isCapital h
  rw [isBlank, Bool.eq_false_iff]
  intro hblank
  obtain ⟨r, hr, hfirst, hlast⟩ := Run.exists_of_cover hblank
  have hruns : ∀ r ∈ blankRuns, r.last < 48 ∨ 95 < r.first := by decide
  have := hruns r hr
  omega

theorem isInitial_of_isCapital {g : Glyph} (h : g.isCapital = true) : Catalog.isInitial g = false := by
  obtain ⟨c, rfl, hc⟩ := exists_of_isCapital h
  rw [Catalog.isInitial, Bool.eq_false_iff]
  intro hi
  simp only [Bool.or_eq_true, beq_iff_eq] at hi
  rcases hi with (hi | rfl) | rfl
  · have hlower : 97 ≤ c.toNat := of_decide_eq_true (Bool.and_eq_true_iff.1 hi).1
    omega
  · exact absurd hc (by decide)
  · exact absurd hc (by decide)

end Glyph

namespace Text

def isName (t : Text) : Bool := !t.isEmpty && t.all Glyph.isCapital

variable {t : Text}

theorem isName_iff : t.isName = true ↔ t ≠ [] ∧ ∀ g ∈ t, g.isCapital = true := by
  rw [isName, Bool.and_eq_true, List.all_eq_true, Bool.not_eq_true', List.isEmpty_eq_false_iff]

theorem inked_of_isName (h : t.isName = true) : t.Inked :=
  ⟨(isName_iff.1 h).1, fun g hg => Glyph.isBlank_of_isCapital ((isName_iff.1 h).2 g hg)⟩

theorem isArgument_of_isName (h : t.isName = true) : Item.isArgument t = true := by
  obtain ⟨hne, hall⟩ := isName_iff.1 h
  have hslash : Glyph.char '/' ∉ t := fun hm => absurd (hall _ hm) (by decide)
  have hwords : t ∉ Item.nonArguments := by
    intro hm
    have hnone : ∀ s ∈ Item.nonArguments, s.isName = false := by decide
    simp [hnone t hm] at h
  have hcatalog : Catalog.contains t = false := by
    obtain ⟨g, rest, rfl⟩ := List.exists_cons_of_ne_nil hne
    rw [Catalog.contains, Catalog.find?_eq_none]
    · rfl
    · exact Glyph.isInitial_of_isCapital (hall g List.mem_cons_self)
  have hopen : t.startsWith Item.openMark = false := by
    rw [Bool.eq_false_iff]
    intro hm
    exact hslash ((List.isPrefixOf_iff_prefix.1 hm).subset (by decide))
  have hclose : t.endsWith Item.closeMark = false := by
    rw [Bool.eq_false_iff]
    intro hm
    exact hslash ((List.isSuffixOf_iff_suffix.1 hm).subset (by decide))
  simp [Item.isArgument, hwords, hcatalog, hopen, hclose]

theorem isName_ofNat (n : Nat) : (ofNat n).isName = true := by
  rw [isName_iff, ofNat, ofString, Nat.toList_repr]
  refine ⟨by simp [Nat.toDigits_ne_nil], fun g hg => ?_⟩
  obtain ⟨c, hc, rfl⟩ := List.mem_map.1 hg
  simp [Glyph.isCapital, Nat.isDigit_of_mem_toDigits (by decide) (Nat.le_refl 10) hc]

end Text

namespace Builtin

open Item (openMark closeMark)

namespace Line

/-- Whether the line is read as it is meant. -/
def isPlain : Line → Bool
  | .blank => true
  | .comment content => !(Word.texts content).contains closeMark
  | .define name => name.isName
  | .const name _ => name.isName

def texts : Line → List Text
  | .blank => []
  | .comment content => openMark :: (Word.texts content ++ [closeMark])
  | .define name => ["#define", name]
  | .const name value => ["#const", name, Text.ofNat value]

theorem texts_text {line : Line} (h : line.isPlain = true) : Word.texts line.text = line.texts := by
  cases line with
  | blank => rfl
  | comment content =>
    have hopen : Word.texts "/* " = [openMark] := by decide
    have hclose : Word.texts " */" = [closeMark] := by decide
    rw [text, List.append_assoc, Word.texts_append (.inl (by decide)), hopen, Word.texts_append (.inr (by decide)),
      hclose]
    rfl
  | define name =>
    have hhead : Word.texts "#define " = ["#define"] := by decide
    rw [text, Word.texts_append (.inl (by decide)), hhead, Word.texts_inked (Text.inked_of_isName h)]
    rfl
  | const name value =>
    have hhead : Word.texts "#const " = ["#const"] := by decide
    have hblank : Text.StartsBlank (" " ++ Text.ofNat value) :=
      Text.startsBlank_append (by decide) (.inl (by decide))
    rw [text, List.append_assoc, List.append_assoc, Word.texts_append (.inl (by decide)), hhead,
      Word.texts_append (.inr hblank), Word.texts_blank_append (by decide), Word.texts_inked (Text.inked_of_isName h),
      Word.texts_inked (Text.inked_of_isName (Text.isName_ofNat value))]
    rfl

variable {source : Text} {group : List Word}

theorem exists_allSpelt {line : Line} (h : line.isPlain = true) (hg : group.map Word.text = line.texts) :
    ∃ atoms, Atom.AllSpelt source group atoms ∧
      (atoms.filterMap Atom.constant?).map Definition.name = line.const?.toList ∧
      (atoms.filterMap Atom.defined?).map Definition.name = line.define?.toList := by
  cases line with
  | blank =>
    obtain rfl := List.map_eq_nil_iff.1 hg
    exact ⟨[], .nil, rfl, rfl⟩
  | comment content =>
    obtain ⟨w, rest, rfl, hw, hrest⟩ := List.map_eq_cons_iff.1 hg
    obtain ⟨inner, last, rfl, hinner, hlast⟩ := List.map_eq_append_iff.1 hrest
    obtain ⟨closer, rfl, hc⟩ := List.map_eq_singleton_iff.1 hlast
    have hi : ∀ v ∈ inner, v.text ≠ closeMark := by
      intro v hv he
      have hmem : closeMark ∈ Word.texts content := hinner ▸ List.mem_map.2 ⟨v, hv, he⟩
      simp [isPlain, hmem] at h
    have hspelt := @Atom.Spelt.comment source w inner closer (hw ▸ Lead.of_spelling .openComment) hi hc
    exact ⟨_, hspelt.allSpelt, rfl, rfl⟩
  | define name =>
    obtain ⟨w, rest, rfl, hw, hrest⟩ := List.map_eq_cons_iff.1 hg
    obtain ⟨arg, rfl, ha⟩ := List.map_eq_singleton_iff.1 hrest
    have hspelt := @Atom.Spelt.unary source w arg .define _ _ (hw ▸ Lead.of_spelling .define) rfl
      (ha ▸ Text.isArgument_of_isName h)
    exact ⟨_, hspelt.allSpelt, rfl, by simp [Atom.defined?, define?, ha]⟩
  | const name value =>
    obtain ⟨w, rest, rfl, hw, hrest⟩ := List.map_eq_cons_iff.1 hg
    obtain ⟨n, rest, rfl, hn, hrest⟩ := List.map_eq_cons_iff.1 hrest
    obtain ⟨v, rfl, hv⟩ := List.map_eq_singleton_iff.1 hrest
    have hspelt := @Atom.Spelt.const source w n v (hw ▸ Lead.of_spelling .const) (hn ▸ Text.isArgument_of_isName h)
      (hv ▸ Text.isArgument_of_isName (Text.isName_ofNat value))
    exact ⟨_, hspelt.allSpelt, by simp [Atom.constant?, const?, hn], rfl⟩

end Line

theorem texts_text {file : DefinitionFile} (h : ∀ line ∈ file, line.isPlain = true) :
    Word.texts file.text = file.flatMap Line.texts := by
  induction file with
  | nil => rfl
  | cons line file ih =>
    obtain ⟨hline, hfile⟩ := List.forall_mem_cons.1 h
    have hfeed : Text.isBlank "\n" = true := by decide
    have hends : (line.text ++ "\n").EndsBlank :=
      Text.endsBlank_append (Text.endsBlank_of_isBlank hfeed) (.inl (by decide))
    rw [DefinitionFile.text, List.flatMap_cons, Word.texts_append (.inl hends), Word.texts_append_blank hfeed,
      Line.texts_text hline, List.flatMap_cons, ← ih hfile]
    rfl

theorem exists_allSpelt {source : Text} {file : DefinitionFile} {words : List Word}
    (h : ∀ line ∈ file, line.isPlain = true) (hw : words.map Word.text = file.flatMap Line.texts) :
    ∃ atoms, Atom.AllSpelt source words atoms ∧
      (atoms.filterMap Atom.constant?).map Definition.name = file.filterMap Line.const? ∧
      (atoms.filterMap Atom.defined?).map Definition.name = file.filterMap Line.define? := by
  induction file generalizing words with
  | nil =>
    obtain rfl := List.map_eq_nil_iff.1 hw
    exact ⟨[], .nil, rfl, rfl⟩
  | cons line file ih =>
    obtain ⟨hline, hfile⟩ := List.forall_mem_cons.1 h
    obtain ⟨group, rest, rfl, hgroup, hrest⟩ := List.map_eq_append_iff.1 hw
    obtain ⟨first, hfirst, hconst, hdefine⟩ := line.exists_allSpelt hline hgroup
    obtain ⟨more, hmore, hconsts, hdefines⟩ := ih hfile hrest
    refine ⟨first ++ more, hfirst.append hmore, ?_, ?_⟩
    · rw [List.filterMap_append, List.map_append, hconst, hconsts]
      cases line <;> rfl
    · rw [List.filterMap_append, List.map_append, hdefine, hdefines]
      cases line <;> rfl

theorem names_parse (file : Int) {lines : DefinitionFile} (h : ∀ line ∈ lines, line.isPlain = true) :
    ((Atom.parse file lines.text).filterMap Atom.constant?).map Definition.name = lines.filterMap Line.const? ∧
      ((Atom.parse file lines.text).filterMap Atom.defined?).map Definition.name = lines.filterMap Line.define? := by
  obtain ⟨atoms, hall, hnames⟩ := @exists_allSpelt lines.text lines (Word.scan file lines.text) h
    ((Word.map_text_scan file _).trans (texts_text h))
  rwa [Atom.parse_eq_of_sound hall.readFrom_eq]

theorem isPlain_files : conquerorsFile.all Line.isPlain = true ∧ hdFile.all Line.isPlain = true ∧
    userPatchFile.all Line.isPlain = true ∧ definitiveFile.all Line.isPlain = true := by
  decide +kernel

end Builtin

namespace Level

open Builtin

theorem isPlain_of_mem_files {level : Level} {file : DefinitionFile} (h : file ∈ level.files) :
    ∀ line ∈ file, line.isPlain = true := by
  have hall : level.files.all (·.all Line.isPlain) = true := by
    cases level <;> simp only [files, List.all_cons, List.all_nil, isPlain_files, Bool.and_true]
  exact List.all_eq_true.1 (List.all_eq_true.1 hall file h)

/-- The names that the atoms of the definition files define: those without a value, and those with one. -/
def read (level : Level) : List Text × List Text :=
  let atoms := level.files.flatMap fun file => Atom.parse (-1) file.text
  ((atoms.filterMap Atom.defined?).map Definition.name, (atoms.filterMap Atom.constant?).map Definition.name)

theorem read_eq (level : Level) : level.read = (level.defines, level.consts) := by
  have hnames := fun file (hf : file ∈ level.files) => names_parse (-1) (isPlain_of_mem_files hf)
  simp only [read, defines, consts, List.filterMap_flatMap, List.map_flatMap]
  congr 1
  · exact List.flatMap_congr fun file hf => (hnames file hf).2
  · exact List.flatMap_congr fun file hf => (hnames file hf).1

end Level

end MapScript
