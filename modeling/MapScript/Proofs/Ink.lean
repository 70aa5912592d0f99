import MapScript.Proofs.Closing

/-! The text of a layout without its blanks, whatever is wrong with the script and whatever blanks end the lines:
the words of the atoms in order, and closing words for what is not closed. -/

namespace MapScript

open Text (removeBlanks removeBlanks_append removeBlanks_of_isBlank removeBlanks_of_inked)

namespace Layout

/-- The line ending matters for the lines of comments only. -/
theorem phrase_lineEnding (o : Options) (place : Place) {a : Atom} (h : a.kind ≠ .comment) (ending : Text) :
    phrase { o with lineEnding := ending } place a = phrase o place a := by
  cases a with
  | comment => exact absurd rfl h
  | const head name value => cases value <;> rfl
  | _ => rfl

theorem removeBlanks_phrase (o : Options) (place : Place) {a : Atom} (ha : a.IsRead) (h : a.kind ≠ .comment) :
    removeBlanks (phrase o place a) = a.spoken.flatten := by
  have hwords := @texts_phrase { o with lineEnding := "\n" } place (.inr rfl) a ha
  rw [phrase_lineEnding o place h] at hwords
  rw [← hwords, Word.flatten_texts]

namespace Output

def ink (out : Output) : Text := removeBlanks out.text

variable {o : Options} (out : Output)

theorem ink_raw (t : Text) : (out.raw t).ink = out.ink ++ removeBlanks t := by
  rw [ink, text_raw, removeBlanks_append, ink]

theorem ink_setLast (last : Option Atom) : (out.setLast last).ink = out.ink := rfl

theorem ink_write (indent : Nat) (t : Text) : (out.write o indent t).ink = out.ink ++ removeBlanks t := by
  rw [ink, text_write, removeBlanks_append, removeBlanks_append, removeBlanks_of_isBlank (isBlank_lead o indent out),
    List.nil_append, ink]

variable (ho : o.lineEnding.isBlank = true)

include ho

theorem ink_newline : (out.newline o).ink = out.ink := by
  rw [ink, text_newline, removeBlanks_append, removeBlanks_of_isBlank ho, List.append_nil, ink]

theorem ink_statement (indent : Nat) (words : List Text) :
    (out.statement o indent words).ink = out.ink ++ removeBlanks (Text.join " " words) := by
  rw [statement, ink_newline _ ho, ink_write]

theorem ink_separate : (out.separate o).ink = out.ink := by
  unfold separate
  split
  · rfl
  · exact ink_newline out ho

end Output

section Steps

variable {job : Job} (ho : job.options.lineEnding.isBlank = true) (out : Output)

include ho

theorem ink_endRun (a : Atom) : (job.endRun out a).ink = out.ink := by
  unfold Job.endRun
  split
  · split
    · exact Output.ink_newline out ho
    · rfl
  · rfl

theorem ink_before {a : Atom} (hc : a.kind ≠ .comment) (indent : Nat) : (job.before indent out a).ink = out.ink := by
  have htrailing : ∀ last, job.isTrailing last a = false := by simp [Job.isTrailing, hc]
  rw [Job.before, ← ink_endRun ho out a, Job.makeSpace]
  split
  · next last _ =>
    rw [htrailing last]
    split
    · exact Output.ink_separate _ ho
    · rfl
  · rfl

theorem ink_endStray : (job.endStray out).ink = out.ink := by
  unfold Job.endStray
  split
  · exact Output.ink_newline out ho
  · rfl

theorem ink_other {w : Word} (hw : w.text.Inked) (place : Place) (beforeBlock : Bool) :
    (job.atom place beforeBlock out (.other w)).ink = out.ink ++ w.text := by
  have hbefore := ink_before ho out (a := .other w) (by simp [Atom.kind]) place.indent
  rw [Job.atom, Job.atomBody, Job.other, Output.ink_setLast, Output.ink_write, removeBlanks_of_inked hw]
  split
  · rw [Output.ink_raw, hbefore, removeBlanks_of_isBlank isBlank_space.1, List.append_nil]
  · rw [hbefore]

theorem ink_ready {a : Atom} (hc : a.kind ≠ .comment) (place : Place) (beforeBlock : Bool) :
    (Stroke.ready job out ⟨place, a, .written beforeBlock false⟩).ink = out.ink := by
  rw [← ink_before ho out hc place.indent]
  simp only [Stroke.ready]
  split
  · exact Output.ink_separate _ ho
  · rfl

theorem ink_atom {a : Atom} (ha : a.IsRead) (hc : a.kind ≠ .comment) (place : Place) (beforeBlock : Bool) :
    (job.atom place beforeBlock out a).ink = out.ink ++ a.spoken.flatten := by
  by_cases hk : a.kind = .other
  · cases a <;> simp [Atom.kind] at hk
    next w =>
      have hw : w.text.Inked := ha.inked hc w (by simp [Atom.words, Atom.head])
      rw [ink_other ho out hw, Atom.spoken_eq_normalTexts hc]
      simp [Atom.normalTexts, Atom.kind, Atom.Kind.isKeyword, Atom.head, Atom.tail]
  · have hwrite : Stroke.write job out ⟨place, a, .written beforeBlock false⟩ = job.atom place beforeBlock out a := by
      simp [Stroke.write]
    have hback : (Stroke.back job.options ⟨place, a, .written beforeBlock false⟩).isBlank = true := by
      simp only [Stroke.back, Bool.false_eq_true, if_false, List.append_nil]
      split
      · exact isBlank_space.1
      · exact ho
    have htext := @Stroke.text_write job out ⟨place, a, .written beforeBlock false⟩ hk
    rw [← hwrite, Output.ink, htext, Stroke.front, removeBlanks_append, removeBlanks_append, removeBlanks_append,
      removeBlanks_of_isBlank hback, removeBlanks_of_isBlank (Output.isBlank_lead _ _ _),
      removeBlanks_phrase job.options place ha hc, List.append_nil, List.append_nil]
    exact congrArg (· ++ a.spoken.flatten) (ink_ready ho out hc place beforeBlock)

end Steps

theorem removeBlanks_chanceText {head : Atom} (hr : head.IsRead) (hk : head.kind = .percentChance) :
    removeBlanks (Job.chanceText head) = head.spoken.flatten := by
  rw [chanceText_eq_phrase {} {} hk, removeBlanks_phrase {} {} hr (by simp [hk])]

open Node (allAtoms allWritten)

section Trees

variable {job : Job} (ho : job.options.lineEnding.isBlank = true)

include ho

theorem ink_chances {ps : List (Atom × List Node)} (hk : ∀ p ∈ ps, p.1.kind = .percentChance)
    (hr : ∀ p ∈ ps, p.1.IsRead)
    (hp : ∀ p ∈ ps, ∀ place out,
      (job.nodes place out p.2).ink = out.ink ++ ((allWritten p.2).flatMap Atom.spoken).flatten)
    (place : Place) (short : Bool) (length : Nat) (out : Output) :
    (job.chances place short length out (ps.map fun p => .chance p.1 p.2)).ink =
      out.ink ++ ((allWritten (ps.map fun p => .chance p.1 p.2)).flatMap Atom.spoken).flatten := by
  induction ps generalizing out with
  | nil => simp [Job.chances, allWritten]
  | cons p ps ih =>
    have hhead := removeBlanks_chanceText (hr p (by simp)) (hk p (by simp))
    have hbody := hp p (by simp)
    have hspaces : ∀ n : Nat, (Text.ofChars n ' ').isBlank = true := fun n => isBlank_spaces n
    rw [List.map_cons, Job.chances, ih (fun q hq => hk q (by simp [hq])) (fun q hq => hr q (by simp [hq]))
      (fun q hq => hp q (by simp [hq])), allWritten, Node.written]
    simp only [List.flatMap_append, List.flatMap_cons, List.flatten_append, ← List.append_assoc]
    congr 1
    split
    · have hpadded : (out.write job.options place.indent (Text.padRight (Job.chanceText p.1) length)).ink
          = out.ink ++ p.1.spoken.flatten := by
        rw [Output.ink_write, Text.padRight, removeBlanks_append, removeBlanks_of_isBlank (hspaces _),
          List.append_nil, hhead]
      split
      · next he =>
        rw [List.isEmpty_iff.1 he, Output.ink_newline _ ho, hpadded]
        simp [allWritten]
      · rw [hbody, Output.ink_setLast, Output.ink_raw, removeBlanks_of_isBlank isBlank_space.1, List.append_nil,
          hpadded]
    · have hjoin : Text.join " " [Job.chanceText p.1] = Job.chanceText p.1 := by simp [Text.join]
      rw [hbody, Output.ink_statement _ ho, hjoin, hhead]

theorem ink_nodes {ns : List Node} (hg : Grown ns) (hr : ∀ a ∈ allAtoms ns, a.IsRead ∧ a.kind ≠ .comment)
    (place : Place) (out : Output) :
    (job.nodes place out ns).ink = out.ink ++ ((allWritten ns).flatMap Atom.spoken).flatten := by
  induction hg generalizing place out with
  | nil => simp [Job.nodes, allWritten]
  | single _ ih =>
    simp only [allAtoms, Node.atoms, List.forall_mem_append, List.forall_mem_singleton] at hr
    rw [Job.nodes, Job.node, ih hr.2, ink_atom ho _ hr.1.1 hr.1.2]
    simp [allWritten, Node.written]
  | @block opener body closer rest hk _ hc _ ihb ih =>
    simp only [allAtoms, Node.atoms, List.forall_mem_append, List.forall_mem_cons] at hr
    obtain ⟨⟨hopener, hbody, hcloser⟩, hrest⟩ := hr
    have hclose : (closer.getD newBrace).spoken.flatten = removeBlanks (Text.join " " ["\x7d"]) := by
      rw [spoken_brace (fun c hm => (hcloser c (Option.mem_toList.2 hm)).1) hc]
      decide
    rw [Job.nodes, Job.node, ih hrest, Output.ink_statement _ ho, ink_endStray ho, ihb hbody,
      ink_atom ho _ hopener.1 hopener.2, ← hclose]
    simp [allWritten, Node.written]
  | @condition opener body closer rest hk _ hc _ ihb ih =>
    simp only [allAtoms, Node.atoms, List.forall_mem_append, List.forall_mem_cons] at hr
    obtain ⟨⟨hopener, hbody, hcloser⟩, hrest⟩ := hr
    cases closer with
    | none =>
      rw [Job.nodes, Job.node, ih hrest, ihb hbody, ink_atom ho _ hopener.1 hopener.2]
      simp [allWritten, Node.written]
    | some c =>
      have hend := hcloser c (by simp)
      rw [Job.nodes, Job.node, ih hrest, closeCondition_eq]
      split
      · rw [Output.ink_newline _ ho, ink_atom ho _ hend.1 hend.2, ihb hbody, ink_atom ho _ hopener.1 hopener.2]
        simp [allWritten, Node.written]
      · rw [ink_atom ho _ hend.1 hend.2, ihb hbody, ink_atom ho _ hopener.1 hopener.2]
        simp [allWritten, Node.written]
  | @random opener leading closer rest chances hk _ hkc _ hc _ ihl ihp ih =>
    simp only [allAtoms, Node.atoms, Node.allAtoms_chances, List.forall_mem_append, List.forall_mem_cons] at hr
    obtain ⟨⟨hopener, hleading, hchances, hcloser⟩, hrest⟩ := hr
    have hclose : (closer.getD newEnd).spoken.flatten = removeBlanks (Text.join " " ["end_random"]) := by
      rw [spoken_end (fun c hm => (hcloser c (Option.mem_toList.2 hm)).1) hc]
      decide
    have hin := ink_chances ho hkc (fun p hp => (hchances _ (List.mem_flatMap.2 ⟨p, hp, by simp⟩)).1)
      (fun p hp => ihp p hp fun a ha => hchances _ (List.mem_flatMap.2 ⟨p, hp, by simp [ha]⟩))
    rw [Job.nodes, Job.node, ih hrest, Output.ink_statement _ ho, hin, ihl hleading, ink_atom ho _ hopener.1 hopener.2,
      ← hclose]
    simp [allWritten, Node.written]

end Trees

/-- A layout loses, repeats and reorders nothing, whatever is wrong with the script: without its blanks it is the words
of the atoms in order, keywords in lowercase, with closing words put in, at most a brace for each block and an
`end_random` for each random group. -/
theorem format_keeps_ink {o : Options} (ho : o.lineEnding.isBlank = true) {source : Text}
    (hc : ∀ a ∈ Atom.parse 0 source, a.kind ≠ .comment) :
    ∃ (words : List Text) (braces ends : Nat),
      Filled ("\x7d" : Text) "end_random" braces ends ((Atom.parse 0 source).flatMap Atom.normalTexts) words ∧
      braces ≤ (Atom.parse 0 source).countP (·.kind = .openBlock) ∧
      ends ≤ (Atom.parse 0 source).countP (·.kind = .startRandom) ∧
      removeBlanks (format o source) = words.flatten := by
  have hgrown := Node.grown_group (Atom.parse 0 source)
  have hatoms := Node.allAtoms_group (Atom.parse 0 source)
  have hspoken : (Atom.parse 0 source).flatMap Atom.normalTexts = (Atom.parse 0 source).flatMap Atom.spoken :=
    List.flatMap_congr fun a ha => (Atom.spoken_eq_normalTexts (hc a ha)).symm
  have hfilled := (Node.filled_written hgrown).flatMap (f := Atom.spoken) (u := "\x7d") (v := "end_random")
    (by decide) (by decide)
  have hink := @ink_nodes ⟨o, source⟩ ho _ hgrown
    (by rw [hatoms]; exact fun a ha => ⟨Atom.isRead_of_mem_parse ha, hc a ha⟩) {} {}
  have hbraces := Node.allLacking_le (.inl ⟨rfl, rfl⟩) hgrown
  have hends := Node.allLacking_le (.inr ⟨rfl, rfl⟩) hgrown
  rw [hatoms] at hfilled hbraces hends
  exact ⟨_, _, _, hspoken ▸ hfilled, hbraces, hends, hink⟩

def tangled : Text := "IF A \x7b start_random foo \x7d ELSE end_if \x7b"

theorem tangled_keeps_ink : Text.isBlank "\t" = true ∧ (∀ a ∈ Atom.parse 0 tangled, a.kind ≠ .comment) ∧
    ∃ (words : List Text) (braces ends : Nat),
      Filled ("\x7d" : Text) "end_random" braces ends ((Atom.parse 0 tangled).flatMap Atom.normalTexts) words ∧
      braces ≤ (Atom.parse 0 tangled).countP (·.kind = .openBlock) ∧
      ends ≤ (Atom.parse 0 tangled).countP (·.kind = .startRandom) ∧
      removeBlanks (format { lineEnding := "\t" } tangled) = words.flatten := by
  have hblank : Text.isBlank "\t" = true := by decide
  have hplain : ∀ a ∈ Atom.parse 0 tangled, a.kind ≠ .comment := by decide +kernel
  exact ⟨hblank, hplain, @format_keeps_ink { lineEnding := "\t" } hblank tangled hplain⟩

end Layout

end MapScript
