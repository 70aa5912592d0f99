import MapScript.Proofs.Arguments
import MapScript.Proofs.Composing
import MapScript.Proofs.EmptyLines
import MapScript.Proofs.LineStarts
import MapScript.Proofs.Rereading

/-! The arguments of the commands in a block stand in columns. The block gives all of them the width of the widest
command, which counts with the indentation that the conditions around it add, and each of these conditions takes its
indentation off that width again. -/

namespace MapScript

def Word.column (t : Text) (w : Word) : Nat := (Text.position t w.start).2

theorem Text.position_after_feed (before : Text) {line : Text} (h : .char '\n' ∉ line) (more : Text) :
    (position (before ++ .char '\n' :: (line ++ more)) (before.length + 1 + line.length : Nat)).2 = line.length := by
  have hhead : EndsLine (before ++ [.char '\n']) := by simp [EndsLine, lineFeed]
  have hpos := position_append hhead h more
  rw [List.append_assoc, List.singleton_append, List.length_append, List.length_singleton] at hpos
  rw [hpos]

theorem Word.scan_trimRight (file : Int) (t : Text) : scan file (Text.trimRight t) = scan file t := by
  obtain ⟨b, hb, ht⟩ := Text.trimRight_blank t
  conv_rhs => rw [ht, scan_append_blank file hb]

theorem Word.getElem?_scan (s : Text) {b w t : Text} (hne : b ≠ []) (hb : b.isBlank = true) (hw : w.Inked)
    (ht : t.StartsBlank) : (scan 0 (s ++ b ++ w ++ t))[(scan 0 s).length]? = some ⟨w, 0, s.length + b.length⟩ := by
  rw [scan_append 0 _ t (.inr ht), scan_append_blank_word 0 s hne hb hw]
  simp

namespace Atom

theorem Spelt.words_eq {source : Text} {words : List Word} {a : Atom} (h : Spelt source words a)
    (hk : a.kind ≠ .comment) : a.words = words := by
  cases h with
  | mark | const | command => rfl
  | alone _ hb => exact (Keyword.words_of_alone? hb _).2
  | unary _ hb => exact (Keyword.words_of_unary? hb _ _).2
  | comment => exact absurd rfl hk

theorem IsRead.exists_command {a : Atom} (h : a.IsRead) (hk : a.kind = .command) :
    ∃ name args, a = .command name args ∧ name.text.Inked ∧ ∀ arg ∈ args, arg.text.Inked := by
  have hink := h.inked (by simp [hk])
  cases a <;> simp [Atom.kind] at hk
  rw [Atom.words, List.forall_mem_cons] at hink
  exact ⟨_, _, rfl, hink⟩

end Atom

namespace Layout

open Node (group)

/-- A width that the commands among some atoms stay within, with the indentation that conditions around them add. -/
def Width.Covers (width : Width) (tabSize : Int) : Int → List Atom → Prop
  | _, [] => True
  | depth, .command name args :: rest =>
    (name.text.length + depth * tabSize ≤ width.command ∧ ∀ first ∈ args.head?, first.text.length ≤ width.arg) ∧
      Covers width tabSize depth rest
  | depth, .ifThen _ _ :: rest => Covers width tabSize (depth + 1) rest
  | depth, .endIf _ :: rest => Covers width tabSize (depth - 1) rest
  | depth, _ :: rest => Covers width tabSize depth rest

theorem covers_widthOf (tabSize depth : Int) (width : Width) (atoms : List Atom) :
    (Job.widthOf tabSize depth width atoms).Covers tabSize depth atoms ∧
      width.command ≤ (Job.widthOf tabSize depth width atoms).command ∧
      width.arg ≤ (Job.widthOf tabSize depth width atoms).arg := by
  fun_induction Job.widthOf tabSize depth width atoms with
  | case1 => exact ⟨trivial, Int.le_refl _, Nat.le_refl _⟩
  | case2 depth width name args rest arg ih =>
    obtain ⟨hrest, hcommand, harg⟩ := ih
    refine ⟨⟨⟨?_, fun first hf => ?_⟩, hrest⟩, ?_, ?_⟩
    · exact le_trans (le_max_right _ _) hcommand
    · obtain ⟨rest, rfl⟩ := List.head?_eq_some_iff.1 hf
      exact le_trans (le_max_right _ _) harg
    · exact le_trans (le_max_left _ _) hcommand
    · exact le_trans (le_max_left _ _) harg
  | case3 depth width head condition rest ih => exact ih
  | case4 depth width head rest ih => exact ih
  | case5 depth width a rest hc hi he ih =>
    refine ⟨?_, ih.2⟩
    rw [Width.Covers]
    · exact ih.1
    · exact hc
    · exact hi
    · exact he

inductive Rows : List Atom → Prop
  | nil : Rows []
  | command {name args rest} (hr : Rows rest) : Rows (.command name args :: rest)
  | branch {a rest} (ha : a.kind = .elseIf ∨ a.kind = .elseThen) (hr : Rows rest) : Rows (a :: rest)
  | condition {opener body closer rest} (ho : opener.kind = .ifThen) (hb : Rows body) (hc : closer.kind = .endIf)
      (hr : Rows rest) : Rows (opener :: (body ++ closer :: rest))

def rowKinds : List Atom.Kind := [.command, .ifThen, .elseIf, .elseThen, .endIf]

namespace Rows

variable {atoms : List Atom}

theorem of_tidy {b : Bool} (h : Tidy b atoms) (hk : ∀ a ∈ atoms, a.kind ∈ rowKinds) : Rows atoms := by
  induction h with
  | nil => exact .nil
  | @single _ a rest ha _ ih =>
    rw [List.forall_mem_cons] at hk
    have hrest := ih hk.2
    cases a with
    | command => exact .command hrest
    | elseIf => exact .branch (.inl rfl) hrest
    | elseThen => exact .branch (.inr rfl) hrest
    | _ => simp [rowKinds, Atom.kind, Atom.Kind.isSingle] at hk ha
  | block ho => simp [rowKinds, ho] at hk
  | condition ho _ hc _ ihb ihr =>
    simp only [List.forall_mem_cons, List.forall_mem_append] at hk
    exact .condition ho (ihb hk.2.1) hc (ihr hk.2.2.2)
  | random ho => simp [rowKinds, ho] at hk

theorem tidy (h : Rows atoms) (b : Bool) : Tidy b atoms := by
  induction h with
  | nil => exact .nil
  | command _ ih => exact .single rfl ih
  | branch ha _ ih => exact .single (by rcases ha with ha | ha <;> rw [ha] <;> rfl) ih
  | condition ho _ hc _ ihb ihr => exact .condition ho ihb hc ihr

theorem startsBlock_eq (h : Rows atoms) : startsBlock atoms = false := by
  cases h with
  | nil | command => rfl
  | branch ha => rcases ha with ha | ha <;> simp [startsBlock, ha]
  | condition ho => simp [startsBlock, ho]

variable {width : Width} {tabSize : Int}

theorem covers_branch {a : Atom} (ha : a.kind = .elseIf ∨ a.kind = .elseThen) (depth : Int) (rest : List Atom) :
    width.Covers tabSize depth (a :: rest) ↔ width.Covers tabSize depth rest := by
  cases a <;> simp [Atom.kind] at ha <;> rfl

theorem covers_open {opener : Atom} (ho : opener.kind = .ifThen) (depth : Int) (rest : List Atom) :
    width.Covers tabSize depth (opener :: rest) ↔ width.Covers tabSize (depth + 1) rest := by
  cases opener <;> simp [Atom.kind] at ho
  rfl

theorem covers_close {closer : Atom} (hc : closer.kind = .endIf) (depth : Int) (rest : List Atom) :
    width.Covers tabSize (depth + 1) (closer :: rest) ↔ width.Covers tabSize depth rest := by
  cases closer <;> simp [Atom.kind] at hc
  rw [Width.Covers, Int.add_sub_cancel]

/-- What stands after closed conditions is as deep as they are. -/
theorem covers_append (h : Rows atoms) (depth : Int) (rest : List Atom) :
    width.Covers tabSize depth (atoms ++ rest) ↔
      width.Covers tabSize depth atoms ∧ width.Covers tabSize depth rest := by
  induction h generalizing depth rest with
  | nil => simp [Width.Covers]
  | command _ ih => simp only [List.cons_append, Width.Covers, ih, and_assoc]
  | branch ha _ ih => rw [List.cons_append, covers_branch ha, covers_branch ha, ih]
  | condition ho _ hc _ ihb ihr =>
    rw [List.cons_append, List.append_assoc, covers_open ho, covers_open ho, ihb, ihb, List.cons_append,
      covers_close hc, covers_close hc, ihr, and_assoc]

end Rows

def Width.firstColumn (width : Width) (tabSize : Int) : Nat := (tabSize + width.command).toNat + 1

def Width.secondColumn (width : Width) (tabSize : Int) : Nat := (tabSize + width.command).toNat + 1 + width.arg + 1

/-- The stroke of a line of its own, which has the arguments of its command in the columns of a block. -/
structure Stroke.Lined (o : Options) (width : Width) (s : Stroke) : Prop where
  form : s.form = .written false false
  command : ∀ {name args}, s.atom = .command name args →
    s.place.indent * o.tabSize + name.text.length + (s.place.width.command - name.text.length).toNat
      = o.tabSize + width.command
  arg : ∀ {name args}, s.atom = .command name args →
    s.place.width.arg = width.arg ∧ ∀ first ∈ args.head?, first.text.length ≤ width.arg

/-- In conditions, the width of a block is as much less as the indentation is more. -/
theorem Rows.lined {atoms : List Atom} (h : Rows atoms) {o : Options} (ht : 0 ≤ o.tabSize) {width : Width}
    {place : Place} {depth : Nat} (hi : place.indent = depth + 1) (hb : place.inBlock = true)
    (hw : place.width = ⟨max 0 (width.command - depth * o.tabSize), width.arg⟩)
    (hc : width.Covers o.tabSize depth atoms) : ∀ s ∈ strokes o place (group atoms), s.Lined o width := by
  have hsplit : ∀ d : Nat, ((d + 1 : Nat) : Int) * o.tabSize = d * o.tabSize + o.tabSize := fun d => by
    rw [Int.natCast_succ, Int.add_mul, Int.one_mul]
  induction h generalizing place depth with
  | nil => simp [group, strokes]
  | @command name args rest hr ih =>
    rw [strokes_single _ _ _ rfl, List.forall_mem_cons, hr.startsBlock_eq]
    obtain ⟨⟨hname, hfirst⟩, hrest⟩ := hc
    refine ⟨⟨rfl, ?_, ?_⟩, ih hi hb hw hrest⟩
    · rintro name args ⟨⟩
      simp only [Job.placeOf, Atom.kind, hw, hi]
      have hstep := hsplit depth
      omega
    · rintro name args ⟨⟩
      exact ⟨by simp [Job.placeOf, Atom.kind, hw], hfirst⟩
  | @branch a rest ha hr ih =>
    have hs : a.kind.isSingle = true := by rcases ha with ha | ha <;> rw [ha] <;> rfl
    have hcommand : ∀ {name args}, a ≠ .command name args := by
      rintro name args rfl
      simp [Atom.kind] at ha
    rw [strokes_single _ _ _ hs, List.forall_mem_cons, hr.startsBlock_eq]
    exact ⟨⟨rfl, fun h => absurd h hcommand, fun h => absurd h hcommand⟩,
      ih hi hb hw ((Rows.covers_branch ha _ _).1 hc)⟩
  | @condition opener body closer rest ho hbody hclose hr ihb ihr =>
    have hplain : ∀ {a : Atom}, a.kind = .ifThen ∨ a.kind = .endIf → ∀ {name args}, a ≠ .command name args := by
      rintro a ha name args rfl
      simp [Atom.kind] at ha
    rw [strokes_condition o place rest ho (hbody.tidy true) hclose]
    simp only [List.forall_mem_cons, List.forall_mem_append, hb, Bool.not_true, Bool.false_and, Bool.and_false]
    rw [Rows.covers_open ho, hbody.covers_append, Rows.covers_close hclose] at hc
    refine ⟨⟨rfl, fun h => absurd h (hplain (.inl ho)), fun h => absurd h (hplain (.inl ho))⟩, ?_,
      ⟨rfl, fun h => absurd h (hplain (.inr hclose)), fun h => absurd h (hplain (.inr hclose))⟩, ihr hi hb hw hc.2⟩
    -- One step deeper the width has one tab size less, so both together reach to the same column.
    refine @ihb (Job.conditionPlace ⟨o, []⟩ place) (depth + 1) (by simp [Job.conditionPlace, hi]) hb ?_ hc.1
    have hstep := hsplit depth
    simp only [Job.conditionPlace, hw, Width.mk.injEq, and_true]
    omega

section Words

theorem padding (n : Int) : (spaces n ++ (" " : Text)).isBlank = true ∧ spaces n ++ (" " : Text) ≠ [] ∧
    (spaces n ++ (" " : Text)).length = n.toNat + 1 := by
  refine ⟨?_, by simp [isBlank_space.2], by simp [spaces, Text.ofChars, Text.ofString]⟩
  rw [Text.isBlank_append, isBlank_spaces, isBlank_space.1]
  rfl

variable {o : Options} (ha : o.alignArgs = true) (place : Place) {name first : Word} (hn : name.text.Inked)
  (hf : first.text.Inked)

include ha

theorem phrase_aligned (name first : Word) (rest : List Word) :
    ∃ more, phrase o place (.command name (first :: rest))
        = name.text ++ (spaces (place.width.command - name.text.length) ++ (" " : Text)) ++ first.text ++ more ∧
      more.StartsBlank ∧
      ∀ second ∈ rest.head?, ∃ others : Text, others.StartsBlank ∧
        more = (spaces (place.width.arg - first.text.length) ++ (" " : Text)) ++ second.text ++ others := by
  have hspace : Text.StartsBlank " " := Text.startsBlank_of_isBlank isBlank_space.1
  have hplain : ∀ words : List Word, Text.StartsBlank (words.map fun w => (" " : Text) ++ w.text).flatten := by
    intro words
    cases words with
    | nil => exact Text.startsBlank_nil
    | cons w words =>
      rw [List.map_cons, List.flatten_cons, List.append_assoc]
      exact Text.startsBlank_append hspace (.inl isBlank_space.2)
  cases rest with
  | nil => exact ⟨[], by simp [phrase, Job.arguments, ha], Text.startsBlank_nil, by simp⟩
  | cons second rest =>
    refine ⟨spaces (place.width.arg - first.text.length)
      ++ ((second :: rest).map fun w => (" " : Text) ++ w.text).flatten,
      by simp [phrase, Job.arguments, ha], ?_, fun w hw => ?_⟩
    · exact Text.startsBlank_append (Text.startsBlank_of_isBlank (isBlank_spaces _)) (.inr (hplain _))
    · obtain rfl : second = w := Option.some.inj hw
      exact ⟨_, hplain rest, by simp⟩

include hn hf

theorem scan_first (rest : List Word) :
    (Word.scan 0 (phrase o place (.command name (first :: rest))))[1]?
      = some ⟨first.text, 0, name.text.length + (place.width.command - name.text.length).toNat + 1⟩ := by
  obtain ⟨more, hphrase, hmore, -⟩ := phrase_aligned ha place name first rest
  obtain ⟨hblank, hne, hlength⟩ := padding (place.width.command - name.text.length)
  have hword := Word.getElem?_scan name.text hne hblank hf hmore
  rwa [← hphrase, hlength, Word.scan_inked 0 hn] at hword

theorem scan_second {second : Word} (hs : second.text.Inked) (rest : List Word) :
    (Word.scan 0 (phrase o place (.command name (first :: second :: rest))))[2]?
      = some ⟨second.text, 0, name.text.length + (place.width.command - name.text.length).toNat + 1
          + first.text.length + (place.width.arg - first.text.length) + 1⟩ := by
  obtain ⟨more, hphrase, -, hmore⟩ := phrase_aligned ha place name first (second :: rest)
  obtain ⟨others, hothers, rfl⟩ := hmore second rfl
  obtain ⟨hblank, hne, hlength⟩ := padding (place.width.command - name.text.length)
  obtain ⟨hblank', hne', hlength'⟩ := padding (place.width.arg - first.text.length)
  have hword := Word.getElem?_scan (name.text ++ (spaces (place.width.command - name.text.length) ++ (" " : Text))
    ++ first.text) hne' hblank' hs hothers
  rw [Word.scan_append_blank_word 0 name.text hne hblank hf, Word.scan_inked 0 hn] at hword
  rw [hphrase, ← List.append_assoc, ← List.append_assoc]
  refine hword.trans ?_
  rw [hlength', List.length_append, List.length_append, hlength]
  congr 2
  omega

end Words

structure Restates (a b : Atom) : Prop where
  kind : b.kind = a.kind
  texts : b.words.map Word.text = a.normalTexts

/-- An atom that stands where a stroke was written, at the start of a line. -/
structure Laid (o : Options) (t : Text) (s : Stroke) (b : Atom) : Prop extends Restates s.atom b where
  words : ∃ before more,
    t = before ++ (o.lineEnding ++ o.indentation s.place.indent) ++ (phrase o s.place s.atom ++ more) ∧
      b.words = (Word.scan 0 (phrase o s.place s.atom)).map
        (·.shift (before ++ (o.lineEnding ++ o.indentation s.place.indent)).length)

structure Stroke.IsRow (s : Stroke) : Prop where
  form : s.form = .written false false
  legible : s.atom.Legible
  read : s.atom.IsRead
  kind : s.atom.kind ∈ rowKinds

section Run

variable {job : Job} (ho : job.options.Usual) {out : Output}

include ho

theorem scan_write (h : out.text.EndsBlank) {s : Stroke} (hk : s.atom.kind ≠ .other) :
    Word.scan 0 (s.write job out).text = Word.scan 0 out.text
        ++ (Word.scan 0 (phrase job.options s.place s.atom)).map (·.shift (s.front job out).length) ∧
      (s.write job out).text.EndsBlank := by
  have hspaced := ready_spaced ho out s
  have hlead := Output.isBlank_lead job.options s.place.indent (s.ready job out)
  have hback := back_blank ho s
  have hends : (s.front job out).EndsBlank :=
    Text.endsBlank_append (Text.endsBlank_of_isBlank hlead) (.inr (hspaced.ends h))
  have hfront : Word.scan 0 (s.front job out) = Word.scan 0 out.text := by
    rw [Stroke.front, Word.scan_append_blank 0 hlead, ← Word.scan_trimRight 0, hspaced.trimmed, Word.scan_trimRight]
  rw [s.text_write job out hk]
  constructor
  · rw [Word.scan_append 0 _ _ (.inl hends), hfront, Word.scan_append_blank 0 hback.1]
  · rw [← List.append_assoc]
    exact Text.endsBlank_append (Text.endsBlank_of_isBlank hback.1) (.inl hback.2)

theorem exists_front {written : Text} (h : Stands job.options out written (.line [])) {last : Atom}
    (hl : out.last = some last) (hlast : last.kind ∈ .openBlock :: rowKinds) {s : Stroke}
    (hf : s.form = .written false false) (hk : s.atom.kind ∈ rowKinds) :
    ∃ before, s.front job out = before ++ (job.options.lineEnding ++ job.options.indentation s.place.indent) := by
  have hfront := h.front ho hl (fun hc => by simp [hc, rowKinds] at hlast)
    (fun hc => by simp [hc, rowKinds] at hlast) hf (by simp)
  have hmark : (s.atom.kind == .sectionMark) = false := by
    rw [beq_eq_false_iff_ne]
    intro hc
    simp [hc, rowKinds] at hk
  rw [hmark] at hfront
  cases hs : job.space last s.atom with
  | none => exact ⟨written, by simp [hfront, hs, Gap.joint, Gap.text, Gap.head]⟩
  | emptyLine =>
    exact ⟨written ++ job.options.lineEnding, by simp [hfront, hs, Gap.joint, Gap.text, Gap.head]⟩
  | sameLine =>
    have hc := kind_eq_of_isTrailing (space_eq_sameLine.1 hs)
    simp [hc, rowKinds] at hk

omit ho in
theorem Stroke.IsRow.kind_ne_comment {s : Stroke} (h : s.IsRow) : s.atom.kind ≠ .comment := by
  intro hc
  simpa [hc, rowKinds] using h.kind

theorem texts_shifted_phrase {a : Atom} (hr : a.IsRead) (hk : a.kind ≠ .comment) (place : Place) (n : Nat) :
    ((Word.scan 0 (phrase job.options place a)).map (·.shift n)).map Word.text = a.normalTexts := by
  rw [List.map_map, ← Atom.spoken_eq_normalTexts hk]
  exact @texts_phrase job.options place ho a hr

/-- What a stroke adds is read, in any text, as an atom with the words of the one it was written for. -/
theorem exists_restated (h : out.text.EndsBlank) {s : Stroke} (hl : s.atom.Legible) (hr : s.atom.IsRead)
    (hk : s.atom.kind ≠ .comment) (t : Text) :
    ∃ b, Atom.Spelt t b.words b ∧ Restates s.atom b ∧
      b.words = (Word.scan 0 (phrase job.options s.place s.atom)).map (·.shift (s.front job out).length) ∧
      Word.scan 0 (s.write job out).text = Word.scan 0 out.text ++ b.words ∧ (s.write job out).text.EndsBlank := by
  have htexts := texts_shifted_phrase ho hr hk s.place (s.front job out).length
  obtain ⟨b, hb, hkind⟩ := @Atom.Legible.exists_spelt _ hl t _ (htexts.trans (Atom.spoken_eq_normalTexts hk).symm)
  have hwords := hb.words_eq (hkind ▸ hk)
  obtain ⟨hscan, hends⟩ := scan_write ho h hl.kind_ne_other
  exact ⟨b, hwords ▸ hb, ⟨hkind, hwords ▸ htexts⟩, hwords, hwords ▸ hscan, hends⟩

theorem exists_laid {written : Text} (h : Stands job.options out written (.line [])) {last : Atom}
    (hl : out.last = some last) (hlast : last.kind ∈ .openBlock :: rowKinds) (hends : out.text.EndsBlank)
    {strokes after : List Stroke} (hs : ∀ s ∈ strokes, s.IsRow) (ha : ∀ s ∈ after, s.Solid job.options) {t : Text}
    (ht : t = (Stroke.run job out (strokes ++ after)).text) :
    ∃ bs words, List.Forall₂ (Laid job.options t) strokes bs ∧ Atom.AllSpelt t words bs ∧
      Word.scan 0 (Stroke.run job out strokes).text = Word.scan 0 out.text ++ words ∧
      (Stroke.run job out strokes).text.EndsBlank := by
  induction strokes generalizing out written last with
  | nil => exact ⟨[], [], .nil, .nil, (List.append_nil _).symm, hends⟩
  | cons s strokes ih =>
    rw [List.forall_mem_cons] at hs
    obtain ⟨hrow, hs⟩ := hs
    have hsolid : ∀ r ∈ s :: (strokes ++ after), r.Solid job.options := by
      rw [List.forall_mem_cons, List.forall_mem_append]
      exact ⟨Stroke.solid_of_legible ho hrow.legible, fun r hr => Stroke.solid_of_legible ho (hs r hr).legible, ha⟩
    obtain ⟨before, hfront⟩ := exists_front ho h hl hlast hrow.form hrow.kind
    obtain ⟨more, hmore⟩ := front_run ho out hsolid
    obtain ⟨hstands, hlast'⟩ := @Stands.written job out s hrow.legible.kind_ne_other (hsolid s (by simp)).ends _ _
      hrow.form (by simp)
    obtain ⟨b, hb, hsame, hwords, hscan, hends'⟩ :=
      exists_restated ho hends hrow.legible hrow.read hrow.kind_ne_comment t
    obtain ⟨bs, words, hlaid, hspelt, hrest, hblank⟩ := ih (by simpa [Form.gap] using hstands) hlast'
      (List.mem_cons_of_mem _ hrow.kind) hends' hs ht
    refine ⟨b :: bs, b.words ++ words, .cons ⟨hsame, before, more, ?_, ?_⟩ hlaid, .cons hb hspelt, ?_, hblank⟩
    · rw [ht, List.cons_append, hmore, hfront]
    · rw [hwords, hfront]
    · rw [← List.append_assoc, ← hscan]
      exact hrest

theorem exists_block {head opener closer : Stroke} {rows : List Stroke} (hhead : head.atom.kind = .command)
    (hread : head.atom.IsRead) (hf : opener.form = .written false false) (hok : opener.atom.kind = .openBlock)
    (hol : opener.atom.Legible) (hor : opener.atom.IsRead) (hrows : ∀ s ∈ rows, s.IsRow)
    (hck : closer.atom.kind = .closeBlock) (hcl : closer.atom.Legible) (hcr : closer.atom.IsRead) {t : Text}
    (ht : t = (Stroke.run job {} (head :: opener :: (rows ++ [closer]))).text) :
    ∃ words others b bs c, Word.scan 0 t = words ++ (b.words ++ others) ∧
      words.map Word.text = head.atom.normalTexts ∧ Atom.AllSpelt t (b.words ++ others) (b :: (bs ++ [c])) ∧
      Restates opener.atom b ∧ List.Forall₂ (Laid job.options t) rows bs ∧ Restates closer.atom c := by
  obtain ⟨hscan, hends⟩ := @scan_write job ho {} Text.endsBlank_nil head (by simp [hhead])
  obtain ⟨b, hb, hsame, -, hscan', hends'⟩ := exists_restated ho hends hol hor (by simp [hok]) t
  obtain ⟨hstands, hlast⟩ := @Stands.written job (head.write job {}) opener (by simp [hok])
    (Stroke.solid_of_legible ho hol).ends _ _ hf (by simp)
  obtain ⟨bs, words, hlaid, hspelt, hrun, hends''⟩ := exists_laid ho (by simpa [Form.gap] using hstands) hlast
    (by simp [hok]) hends' hrows (by simpa using Stroke.solid_of_legible ho hcl) ht
  obtain ⟨c, hc, hsame', -, hscan'', -⟩ := exists_restated ho hends'' hcl hcr (by simp [hck]) t
  refine ⟨Word.scan 0 (head.write job {}).text, words ++ c.words, b, bs, c, ?_, ?_, .cons hb (hspelt.append ?_), hsame,
    hlaid, hsame'⟩
  · have hlast : t = (closer.write job (Stroke.run job (opener.write job (head.write job {})) rows)).text := by
      simp [ht, Stroke.run]
    rw [hlast, hscan'', hrun, hscan', List.append_assoc, List.append_assoc]
  · rw [hscan]
    exact texts_shifted_phrase ho hread (by simp [hhead]) head.place _
  · exact hc.allSpelt

end Run

section Columns

variable {o : Options} (ho : o.Usual) {t : Text} {s : Stroke} {b : Atom}

include ho

theorem Laid.column_eq (h : Laid o t s b) (hn : .char '\n' ∉ phrase o s.place s.atom) {k : Nat} {u w : Word}
    (hu : (Word.scan 0 (phrase o s.place s.atom))[k]? = some u) (hw : b.words[k]? = some w) :
    w.column t = (o.indentation s.place.indent).length + u.start := by
  obtain ⟨before, more, ht, hwords⟩ := h.words
  obtain ⟨r, hr, -⟩ := ho.exists_eq
  have hle : u.start ≤ (phrase o s.place s.atom).length :=
    Nat.le_trans (Nat.le_add_right _ _) (Word.stop_le_of_mem_scan (List.mem_of_getElem? hu))
  obtain ⟨front, back, hsplit, hfront⟩ : ∃ front back, phrase o s.place s.atom = front ++ back ∧
      front.length = u.start := ⟨_, _, (List.take_append_drop u.start _).symm, List.length_take_of_le hle⟩
  have hline : .char '\n' ∉ o.indentation s.place.indent ++ front := by
    rw [List.mem_append, not_or]
    exact ⟨newline_notMem_indentation o _, fun hc => hn (hsplit ▸ List.mem_append_left back hc)⟩
  have htext : t = (before ++ r) ++ .char '\n' :: ((o.indentation s.place.indent ++ front) ++ (back ++ more)) := by
    rw [ht, hsplit, hr]
    simp
  obtain rfl : u.shift (before ++ (o.lineEnding ++ o.indentation s.place.indent)).length = w := by
    rw [hwords, List.getElem?_map, hu] at hw
    exact Option.some.inj hw
  have hstart : u.start + (before ++ (o.lineEnding ++ o.indentation s.place.indent)).length
      = (before ++ r).length + 1 + (o.indentation s.place.indent ++ front).length := by
    simp only [hr, List.length_append, List.length_singleton, hfront]
    omega
  rw [Word.column, Word.shift_start, hstart, htext, Text.position_after_feed _ hline, List.length_append, hfront]

omit ho in
theorem exists_laid_of_mem {strokes : List Stroke} {bs : List Atom} (h : List.Forall₂ (Laid o t) strokes bs)
    (hb : b ∈ bs) : ∃ s ∈ strokes, Laid o t s b := by
  induction h with
  | nil => simp at hb
  | @cons s c strokes bs hl _ ih =>
    rcases List.mem_cons.1 hb with rfl | hb
    · exact ⟨s, by simp, hl⟩
    · obtain ⟨r, hr, hl⟩ := ih hb
      exact ⟨r, by simp [hr], hl⟩

theorem Laid.aligned (hs : o.useSpaces = true) (ha : o.alignArgs = true) (hz : 0 ≤ o.tabSize) {width : Width}
    (hrow : s.IsRow) (hlined : s.Lined o width) (h : Laid o t s b) (hk : b.kind = .command) :
    (∀ arg ∈ b.tail[0]?, arg.column t = width.firstColumn o.tabSize) ∧
      ∀ arg ∈ b.tail[1]?, arg.column t = width.secondColumn o.tabSize := by
  unfold Width.firstColumn Width.secondColumn
  have hline := @newline_notMem_phrase_of_read o s.place s.atom hrow.read hrow.kind_ne_comment
  obtain ⟨name, args, hatom, hname, hargs⟩ := hrow.read.exists_command (h.kind.symm.trans hk)
  have hlength : b.tail.length = args.length := by
    have htexts := congrArg List.length h.texts
    simpa [hatom, Atom.words, Atom.normalTexts, Atom.tail] using htexts
  have hcommand := hlined.command hatom
  obtain ⟨hwidth, hwidest⟩ := hlined.arg hatom
  have hindent : (o.indentation s.place.indent).length = (s.place.indent * o.tabSize).toNat := by
    simp [Options.indentation, hs, spaces, Text.ofChars]
  have hpos : 0 ≤ (s.place.indent : Int) * o.tabSize := Int.mul_nonneg (Int.natCast_nonneg _) hz
  cases args with
  | nil => simp [List.length_eq_zero_iff.1 hlength]
  | cons first rest =>
    obtain ⟨hfirst, hrest⟩ := List.forall_mem_cons.1 hargs
    constructor
    · intro arg hmem
      have hword := scan_first ha s.place hname hfirst rest
      rw [← hatom] at hword
      rw [h.column_eq ho hline hword hmem, hindent]
      dsimp only
      omega
    · intro arg hmem
      cases rest with
      | nil =>
        rw [Option.mem_def, List.getElem?_eq_none (by simp [hlength])] at hmem
        exact absurd hmem (by simp)
      | cons second rest =>
        have hword := scan_second ha s.place hname hfirst (hrest second (by simp)) rest
        have hle := hwidest first rfl
        rw [← hatom] at hword
        rw [h.column_eq ho hline hword hmem, hindent, hwidth]
        dsimp only
        omega

end Columns

structure Reread (item again : Item) : Prop extends Restates item.atom again.atom where
  flaws : again.flaws.map Flaw.kind = item.flaws.map Flaw.kind

theorem exists_words_command {name : Word} {args words : List Word}
    (hw : words.map Word.text = (Atom.command name args).normalTexts)
    (ha : ∀ arg ∈ args, Item.isArgument arg.text = true) :
    ∃ v vs, words = v :: vs ∧ v.text = name.text ∧ vs.length = args.length ∧
      ∀ arg ∈ vs, Item.isArgument arg.text = true := by
  obtain ⟨v, vs, rfl, hv, hvs⟩ := List.map_eq_cons_iff.1 hw
  refine ⟨v, vs, rfl, hv, by simpa [Atom.tail] using congrArg List.length hvs, fun u hu => ?_⟩
  obtain ⟨arg, harg, ht⟩ := List.mem_map.1 (hvs ▸ List.mem_map_of_mem hu)
  exact ht ▸ ha arg harg

/-- A command is read again from its words, with too few arguments or not, if no argument comes after them. -/
theorem exists_reread_command {source : Text} {item : Item} (h : item ∈ Item.parse 0 source)
    (hk : item.atom.kind = .command) (t : Text) {words more : List Word}
    (hw : words.map Word.text = item.atom.normalTexts)
    (hm : ∀ next ∈ more.head?, Item.isArgument next.text = false) :
    ∃ again, Reread item again ∧ Item.readFrom t 0 (words ++ more) = again :: Item.readFrom t 0 more := by
  obtain ⟨before, w, rest, used, -, -, hr⟩ := Item.reading_of_mem (fun _ => True) trivial
    (fun _ _ _ => .inl trivial) h
  -- Only two of the ways to read a word give a command.
  cases hr with
  | @command entry args _ hlead hl ha =>
    obtain ⟨v, vs, rfl, hv, hlength, hvs⟩ := exists_words_command hw ha
    have hread := @Item.Reading.command t v entry vs more (hv ▸ hlead) (hlength.trans hl) hvs
    refine ⟨.sound (.command v vs), ⟨⟨rfl, hw⟩, rfl⟩, ?_⟩
    rw [List.cons_append, Item.readFrom_cons hread, List.drop_left]
  | @short entry args _ hlead hl ha _ =>
    obtain ⟨v, vs, rfl, hv, hlength, hvs⟩ := exists_words_command hw ha
    have hread := @Item.Reading.short t v entry vs more (hv ▸ hlead) (hlength ▸ hl) hvs hm
    refine ⟨.flawed (.command v vs) .missingCommandArgs, ⟨⟨rfl, hw⟩, rfl⟩, ?_⟩
    rw [List.cons_append, Item.readFrom_cons hread, List.drop_left]
  | @alone _ k build _ hb =>
    cases k <;> simp only [Keyword.alone?, Option.some.injEq, reduceCtorEq] at hb <;> subst hb <;>
      simp [Item.sound, Atom.kind] at hk
  | @unary k build missing arg _ _ hb =>
    cases k <;> simp only [Keyword.unary?, Option.some.injEq, Prod.mk.injEq, reduceCtorEq] at hb <;>
      obtain ⟨rfl, rfl⟩ := hb <;> simp [Item.sound, Atom.kind] at hk
  | _ => simp [Item.sound, Item.flawed, Item.inlineComment, Atom.kind] at hk

/-- A script that is a command with a block of commands and conditions, which have no flaws and are closed in order. -/
structure Listing (source : Text) (head opener : Item) (body : List Item) (closer : Item) : Prop where
  parse : Item.parse 0 source = head :: opener :: (body ++ [closer])
  head : head.atom.kind = .command
  opener : opener.atom.kind = .openBlock
  kinds : ∀ item ∈ body, item.atom.kind ∈ rowKinds
  sound : ∀ item ∈ body, item.flaws = []
  balanced : Balanced (body.map Item.atom)
  closer : closer.atom.kind = .closeBlock

theorem normalTexts_openBlock {a : Atom} (hl : a.Legible) (hk : a.kind = .openBlock) :
    a.normalTexts = [Keyword.openBrace.spelling] := by
  cases hl with
  | @alone w k build hw hb =>
    rw [normal_head hw hb]
    cases k <;> simp only [Keyword.alone?, Option.some.injEq, reduceCtorEq] at hb <;> subst hb <;>
      simp [Atom.kind] at hk
    rfl
  | @unary w arg k build missing hw hb =>
    cases k <;> simp only [Keyword.unary?, Option.some.injEq, Prod.mk.injEq, reduceCtorEq] at hb <;>
      obtain ⟨rfl, rfl⟩ := hb <;> simp [Atom.kind] at hk
  | mark | const | command | comment => simp [Atom.kind] at hk

/-- The arguments of the commands among some items of a text stand in columns: all the first ones in one, and all the
second ones in another. -/
def Aligned (t : Text) (items : List Item) : Prop :=
  ∃ first second, ∀ item ∈ items, item.atom.kind = .command →
    (∀ arg ∈ item.atom.tail[0]?, arg.column t = first) ∧ ∀ arg ∈ item.atom.tail[1]?, arg.column t = second

namespace Listing

variable {source : Text} {head opener closer : Item} {body : List Item} (h : Listing source head opener body closer)

include h

theorem atoms_eq : Atom.parse 0 source
    = head.atom :: opener.atom :: (body.map Item.atom ++ [closer.atom]) := by
  rw [Atom.parse, h.parse]
  simp

theorem isRead {item : Item} (hi : item ∈ head :: opener :: (body ++ [closer])) : item.atom.IsRead :=
  Atom.isRead_of_mem_parse (List.mem_map_of_mem (h.parse ▸ hi))

theorem rows : Rows (body.map Item.atom) := by
  have hkinds : ∀ a ∈ body.map Item.atom, a.kind ∈ rowKinds := by simpa using h.kinds
  have hflat : ∀ atoms : List Atom, (∀ a ∈ atoms, a.kind ∈ rowKinds) → Atom.Flat true atoms := by
    intro atoms hk
    induction atoms with
    | nil => trivial
    | cons a atoms ih =>
      rw [List.forall_mem_cons] at hk
      refine ⟨fun ho => by simp [ho, rowKinds] at hk, ?_⟩
      have hin : a.kind.inBlock true = true := by
        cases ha : a.kind <;> simp [ha, rowKinds] at hk <;> rfl
      rw [hin]
      exact ih hk.2
  exact .of_tidy (Tidy.of_balanced h.balanced true (hflat _ hkinds)).1 hkinds

theorem format_eq_run (o : Options) :
    format o source = (Stroke.run ⟨o, source⟩ {} (⟨{}, head.atom, .written true false⟩
      :: ⟨{}, opener.atom, .written false false⟩ :: (strokes o (inBlockPlace o {} (body.map Item.atom))
        (group (body.map Item.atom)) ++ [⟨{}, closer.atom, .line⟩]))).text := by
  have hsingle : head.atom.kind.isSingle = true := by rw [h.head]; rfl
  have hbody := h.rows.tidy true
  have hplace : Job.placeOf {} head.atom = {} := by rw [Job.placeOf, h.head]
  rw [format, h.atoms_eq, nodes_eq_run (.single hsingle (.block h.opener hbody h.closer .nil)),
    strokes_single _ _ _ hsingle, strokes_block _ _ _ h.opener hbody h.closer, hplace]
  simp [startsBlock, h.opener, group, strokes]

theorem isRow_lined {o : Options} (hz : 0 ≤ o.tabSize) :
    ∀ s ∈ strokes o (inBlockPlace o {} (body.map Item.atom)) (group (body.map Item.atom)),
      s.IsRow ∧ s.Lined o (Job.widthOf o.tabSize 0 {} (body.map Item.atom)) := by
  obtain ⟨hcovers, hpos, -⟩ := covers_widthOf o.tabSize 0 {} (body.map Item.atom)
  have hlined := @Rows.lined _ h.rows o hz (Job.widthOf o.tabSize 0 {} (body.map Item.atom))
    (inBlockPlace o {} (body.map Item.atom)) 0 rfl rfl (by simp [inBlockPlace, max_eq_right hpos]) hcovers
  intro s hs
  refine ⟨?_, hlined s hs⟩
  have hmem : s.atom ∈ body.map Item.atom := by
    rw [← map_atom_strokes (h.rows.tidy true) o (inBlockPlace o {} (body.map Item.atom))]
    exact List.mem_map_of_mem hs
  obtain ⟨item, hi, hatom⟩ := List.mem_map.1 hmem
  have hkind : s.atom.kind ∈ rowKinds := hatom ▸ h.kinds item hi
  have hparse : item ∈ Item.parse 0 source := by
    rw [h.parse]
    simp [hi]
  refine ⟨(hlined s hs).form, ?_, hatom ▸ h.isRead (by simp [hi]), hkind⟩
  rcases Atom.whole_of_mem_parse hparse (h.sound item hi) with hl | ⟨_, _, _, hc⟩
  · exact hatom ▸ hl
  · rw [← hatom, hc] at hkind
    simp [Atom.kind, rowKinds] at hkind

theorem brace {item : Item} (hi : item ∈ head :: opener :: (body ++ [closer]))
    (hk : item.atom.kind = .openBlock ∨ item.atom.kind = .closeBlock) :
    item.flaws = [] ∧ item.atom.Legible := by
  rw [← h.parse] at hi
  obtain ⟨_, w, rest, used, -, -, hr⟩ := Item.reading_of_mem (fun _ => True) trivial
    (fun _ _ _ => .inl trivial) hi
  have hflaws : item.flaws = [] := by
    have hshows := hr.shows
    cases ha : item.atom <;> simp [ha, Atom.kind] at hk <;> simpa [ha, Atom.Shows] using hshows
  refine ⟨hflaws, (Atom.whole_of_mem_parse hi hflaws).resolve_right ?_⟩
  rintro ⟨_, _, _, hc⟩
  simp [hc, Atom.kind] at hk

end Listing

/-- The layout of a command with a block has the arguments of the commands in the block in columns, however deep the
conditions around them are. -/
theorem format_aligns_arguments {o : Options} (ho : o.Usual) (hs : o.useSpaces = true) (ha : o.alignArgs = true)
    (hz : 0 ≤ o.tabSize) {source : Text} {head opener closer : Item} {body : List Item}
    (h : Listing source head opener body closer) :
    ∃ head' opener' body' closer', Item.parse 0 (format o source) = head' :: opener' :: (body' ++ [closer']) ∧
      Reread head head' ∧ Reread opener opener' ∧ List.Forall₂ Reread body body' ∧ Reread closer closer' ∧
      Aligned (format o source) body' := by
  have hopenMem : opener ∈ head :: opener :: (body ++ [closer]) := by simp
  have hcloseMem : closer ∈ head :: opener :: (body ++ [closer]) := by simp
  obtain ⟨hopen, hol⟩ := h.brace hopenMem (.inl h.opener)
  obtain ⟨hclose, hcl⟩ := h.brace hcloseMem (.inr h.closer)
  have hrows := h.isRow_lined hz
  obtain ⟨words, others, b, bs, c, hscan, hwords, hspelt, hb, hlaid, hc⟩ := @exists_block ⟨o, source⟩ ho
    ⟨{}, head.atom, .written true false⟩ ⟨{}, opener.atom, .written false false⟩ ⟨{}, closer.atom, .line⟩ _ h.head
    (h.isRead (by simp)) rfl h.opener hol (h.isRead hopenMem) (fun s hs => (hrows s hs).1) h.closer hcl
    (h.isRead hcloseMem) _ (h.format_eq_run o)
  -- The opening brace is no argument, so the command has no more of them than before.
  have hbrace : ∀ next ∈ (b.words ++ others).head?, Item.isArgument next.text = false := by
    have htexts := hb.texts.trans (normalTexts_openBlock hol h.opener)
    obtain ⟨v, hv, ht⟩ := List.map_eq_singleton_iff.1 htexts
    rw [hv, List.singleton_append, List.head?_cons]
    rintro next ⟨⟩
    rw [ht]
    decide
  obtain ⟨head', hhead, hread⟩ := exists_reread_command (h.parse ▸ List.mem_cons_self) h.head (format o source) hwords
    hbrace
  refine ⟨head', .sound b, bs.map .sound, .sound c, ?_, hhead, ⟨hb, by rw [hopen]; rfl⟩, ?_,
    ⟨hc, by rw [hclose]; rfl⟩, ?_⟩
  · rw [Item.parse, hscan, hread, hspelt.readFrom_eq]
    simp
  · rw [List.forall₂_map_right_iff]
    have hsame := hlaid.imp fun _ _ hl => hl.toRestates
    rw [← @List.forall₂_map_left_iff _ _ _ Restates Stroke.atom, map_atom_strokes (h.rows.tidy true),
      List.forall₂_map_left_iff] at hsame
    exact ((List.forall₂_and_left body bs).2 ⟨h.sound, hsame⟩).imp fun _ _ hl => ⟨hl.2, by rw [hl.1]; rfl⟩
  · refine ⟨(Job.widthOf o.tabSize 0 {} (body.map Item.atom)).firstColumn o.tabSize,
      (Job.widthOf o.tabSize 0 {} (body.map Item.atom)).secondColumn o.tabSize, fun item hi hk => ?_⟩
    obtain ⟨b, hmem, rfl⟩ := List.mem_map.1 hi
    obtain ⟨s, hs', hl⟩ := exists_laid_of_mem hlaid hmem
    exact hl.aligned ho hs ha hz (hrows s hs').1 (hrows s hs').2 hk

def nested : Text :=
  "create_object\n\n\x7b terrain_cost DLC_WATER 7 IF A if B base_size 3 endif terrain_cost GRASS 1 else " ++
    ("land_percent 5 ENDIF \x7d" : Text)

def nestedBody : List Item :=
  [.command ⟨"terrain_cost", 0, 17⟩ [⟨"DLC_WATER", 0, 30⟩, ⟨"7", 0, 40⟩], .ifThen ⟨"IF", 0, 42⟩ ⟨"A", 0, 45⟩,
    .ifThen ⟨"if", 0, 47⟩ ⟨"B", 0, 50⟩, .command ⟨"base_size", 0, 52⟩ [⟨"3", 0, 62⟩], .endIf ⟨"endif", 0, 64⟩,
    .command ⟨"terrain_cost", 0, 70⟩ [⟨"GRASS", 0, 83⟩, ⟨"1", 0, 89⟩], .elseThen ⟨"else", 0, 91⟩,
    .command ⟨"land_percent", 0, 96⟩ [⟨"5", 0, 109⟩], .endIf ⟨"ENDIF", 0, 111⟩].map Item.sound

theorem nested_aligns_arguments : ∃ head opener closer, Options.Usual {} ∧
    Listing nested head opener nestedBody closer ∧
    ∃ head' opener' body' closer', Item.parse 0 (format {} nested) = head' :: opener' :: (body' ++ [closer']) ∧
      Reread head head' ∧ Reread opener opener' ∧ List.Forall₂ Reread nestedBody body' ∧ Reread closer closer' ∧
      Aligned (format {} nested) body' := by
  have husual : Options.Usual {} := .inl rfl
  have hparse : Item.parse 0 nested = .flawed (.command ⟨"create_object", 0, 0⟩ []) .missingCommandArgs
      :: .sound (.openBlock ⟨"\x7b", 0, 15⟩) :: (nestedBody ++ [.sound (.closeBlock ⟨"\x7d", 0, 117⟩)]) := by
    decide +kernel
  have hbalanced : Balanced (nestedBody.map Item.atom) :=
    Nesting.passes_nil_iff_balanced.1 (Nesting.passes_iff.2 (by decide))
  have hlisting := Listing.mk hparse rfl rfl (by decide) (by decide) hbalanced rfl
  exact ⟨_, _, _, husual, hlisting, format_aligns_arguments husual rfl rfl (by decide) hlisting⟩

end Layout

end MapScript
