import MapScript.Proofs.FixedPoint
import MapScript.Proofs.LayoutWords

/-! A layout never has two empty lines in a row. Lines are ended by many rules, and after a nested construct the atom
that was written last is not the last one that the writer remembers; what holds at every step is how many line endings
there can be at the end of what has been written. -/

namespace MapScript

namespace Text

def endings (ending : Text) (n : Nat) : Text := (List.replicate n ending).flatten

theorem endings_succ (ending : Text) (n : Nat) : endings ending (n + 1) = endings ending n ++ ending := by
  simp [endings, List.replicate_succ']

/-- A text that does not start with an empty line and has no two empty lines in a row. -/
structure Compact (ending t : Text) : Prop where
  start : ¬ ending <+: t
  inner : ¬ endings ending 3 <:+: t

/-- A text that has been begun, with at most so many line endings at its end. -/
structure Paced (ending : Text) (n : Nat) (t : Text) : Prop where
  compact : Compact ending t
  begun : t ≠ []
  stop : ¬ endings ending (n + 1) <:+ t

section Feeds

variable {x s t : Text}

theorem prefix_of_prefix_append (hs : .char '\n' ∉ s) (h : x ++ [.char '\n'] <+: t ++ s) :
    x ++ [.char '\n'] <+: t := by
  obtain ⟨rest, h⟩ := h
  obtain ⟨c, hc, -⟩ | ⟨c, hc, hrest⟩ := List.append_eq_append_iff.1 h
  · exact ⟨c, hc.symm⟩
  · rcases List.eq_nil_or_concat' c with rfl | ⟨c, g, rfl⟩
    · exact ⟨[], by rw [List.append_nil, hc, List.append_nil]⟩
    · rw [← List.append_assoc] at hc
      obtain ⟨-, hg⟩ := List.append_inj' hc rfl
      obtain rfl : .char '\n' = g := by simpa using hg
      exact absurd (by simp [hrest]) hs

theorem infix_of_infix_append (hs : .char '\n' ∉ s) (h : x ++ [.char '\n'] <:+: t ++ s) :
    x ++ [.char '\n'] <:+: t := by
  obtain ⟨before, after, h⟩ := h
  rw [← List.append_assoc] at h
  obtain ⟨rest, ht⟩ := prefix_of_prefix_append hs ⟨after, h⟩
  exact ⟨before, rest, by rw [← ht, ← List.append_assoc before]⟩

/-- A line feed more adds nothing but what ends with it. -/
theorem infix_append_feed (h : x <:+: t ++ [.char '\n']) : x <:+ t ++ [.char '\n'] ∨ x <:+: t := by
  obtain ⟨before, after, h⟩ := h
  rcases List.eq_nil_or_concat' after with rfl | ⟨after, g, rfl⟩
  · exact .inl ⟨before, by rw [← h, List.append_nil]⟩
  · rw [← List.append_assoc] at h
    exact .inr ⟨before, after, List.append_inj_left' h rfl⟩

end Feeds

def IsEnding (ending : Text) : Prop := ∃ r : Text, .char '\n' ∉ r ∧ ending = r ++ [.char '\n']

section Endings

variable {ending s t : Text} {n : Nat} (he : ending.IsEnding)

include he

theorem IsEnding.endings_succ (n : Nat) : ∃ x : Text, endings ending (n + 1) = x ++ [.char '\n'] := by
  obtain ⟨r, -, rfl⟩ := he
  exact ⟨_, by rw [Text.endings_succ, ← List.append_assoc]⟩

theorem Compact.nil : Compact ending [] := by
  obtain ⟨r, -, rfl⟩ := he
  refine ⟨by simp, ?_⟩
  rw [endings, List.replicate_succ, List.flatten_cons]
  simp

omit he in
theorem Compact.of_append (h : Compact ending (t ++ s)) : Compact ending t :=
  ⟨fun hp => h.start (hp.trans (List.prefix_append t s)),
    fun hi => h.inner (hi.trans (List.prefix_append t s).isInfix)⟩

theorem Compact.append (h : Compact ending t) (hs : .char '\n' ∉ s) : Compact ending (t ++ s) := by
  obtain ⟨x, hx⟩ := he.endings_succ 2
  refine ⟨fun hp => h.start ?_, fun hi => h.inner ?_⟩
  · obtain ⟨r, -, rfl⟩ := he
    exact prefix_of_prefix_append hs hp
  · rw [hx] at hi ⊢
    exact infix_of_infix_append hs hi

theorem Compact.write (h : Compact ending t) (hs : .char '\n' ∉ s) (hn : s ≠ []) : Paced ending 0 (t ++ s) := by
  refine ⟨h.append he hs, by simp [hn], fun hp => hs ?_⟩
  obtain ⟨x, hx⟩ := he.endings_succ 0
  obtain ⟨front, hf⟩ := hp
  obtain ⟨s, g, rfl⟩ := (List.eq_nil_or_concat' s).resolve_left hn
  rw [hx, ← List.append_assoc, ← List.append_assoc] at hf
  have hg := List.append_inj_right' hf rfl
  simp only [List.cons.injEq, and_true] at hg
  simp [hg]

omit he in
theorem Paced.mono {m : Nat} (h : Paced ending n t) (hm : n ≤ m) : Paced ending m t := by
  refine ⟨h.compact, h.begun, fun hs => h.stop (List.IsSuffix.trans ?_ hs)⟩
  obtain ⟨k, rfl⟩ := Nat.exists_eq_add_of_le hm
  refine ⟨endings ending k, ?_⟩
  rw [endings, endings, ← List.flatten_append, ← List.replicate_add, endings]
  congr 2
  omega

omit he in
theorem suffix_of_endings_suffix (h : endings ending (n + 1) <:+ t ++ ending) : endings ending n <:+ t := by
  obtain ⟨front, hf⟩ := h
  rw [endings_succ, ← List.append_assoc] at hf
  exact ⟨front, List.append_cancel_right hf⟩

theorem Paced.newline (h : Paced ending n t) (hn : n < 2) : Paced ending (n + 1) (t ++ ending) := by
  have hstop : ¬ endings ending 2 <:+ t := (h.mono (Nat.le_of_lt_succ hn)).stop
  obtain ⟨x, hx⟩ := he.endings_succ 2
  obtain ⟨r, hr, rfl⟩ := he
  refine ⟨⟨fun hp => ?_, fun hi => ?_⟩, by simp, fun hs => h.stop (suffix_of_endings_suffix hs)⟩
  · obtain ⟨rest, hrest⟩ := hp
    rcases List.eq_nil_or_concat' rest with rfl | ⟨rest, g, rfl⟩
    · exact h.begun (by simpa using hrest)
    · rw [← List.append_assoc, ← List.append_assoc t] at hrest
      exact h.compact.start (prefix_of_prefix_append hr ⟨rest, List.append_inj_left' hrest rfl⟩)
  · rw [← List.append_assoc] at hi
    rcases infix_append_feed hi with hi | hi
    · rw [List.append_assoc] at hi
      exact hstop (suffix_of_endings_suffix hi)
    · rw [hx] at hi
      exact h.compact.inner (hx ▸ infix_of_infix_append hr hi)

end Endings

end Text

namespace Layout

open Text (Compact Paced)

theorem Options.Usual.isEnding {o : Options} (ho : o.Usual) : o.lineEnding.IsEnding := by
  obtain ⟨r, he, hr⟩ := ho.exists_eq
  refine ⟨r, ?_, he⟩
  rcases hr with rfl | rfl <;> decide

section Phrases

variable {o : Options} {place : Place} {a : Atom}

theorem newline_notMem_lead (o : Options) (indent : Nat) (out : Output) : .char '\n' ∉ out.lead o indent := by
  unfold Output.lead
  split
  · exact newline_notMem_indentation o indent
  · simp

theorem phrase_ne_nil (ho : o.Usual) (h : a.IsRead) : phrase o place a ≠ [] := by
  intro hnil
  have hwords := @texts_phrase o place ho a h
  rw [hnil] at hwords
  cases a <;> simp [Word.texts, Word.scan, Word.scanFrom, Word.ofRun, Atom.spoken, Atom.normalTexts] at hwords

theorem newline_notMem_arguments (width : Width) (name : Word) {args : List Word}
    (h : ∀ v ∈ args, .char '\n' ∉ v.text) : .char '\n' ∉ (Job.arguments ⟨o, []⟩ width name args).flatten := by
  have hspace : .char '\n' ∉ Text.ofString " " := by decide
  have hspaces : ∀ n, .char '\n' ∉ spaces n := by simp [spaces, Text.ofChars]
  have hplain : ∀ words : List Word, (∀ v ∈ words, .char '\n' ∉ v.text) →
      .char '\n' ∉ (words.map fun w => (" " : Text) ++ w.text).flatten := by
    intro words hw hm
    simp only [List.mem_flatten, List.mem_map] at hm
    obtain ⟨_, ⟨v, hv, rfl⟩, hm⟩ := hm
    simp [hspace, hw v hv] at hm
  cases args with
  | nil => simp [Job.arguments]
  | cons first rest =>
    rw [List.forall_mem_cons] at h
    have hrest := hplain rest h.2
    by_cases ha : o.alignArgs = true
    · by_cases hr : rest.isEmpty = true <;> simp [Job.arguments, ha, hr, hspace, hspaces, h.1, -List.mem_flatten, hrest]
    · simp [Job.arguments, ha, hspace, h.1, -List.mem_flatten, hrest]

theorem newline_notMem_phrase_of_read (h : a.IsRead) (hk : a.kind ≠ .comment) : .char '\n' ∉ phrase o place a := by
  have hw : ∀ v ∈ a.words, .char '\n' ∉ v.text := fun v hv => newline_notMem_inked (h.inked hk v hv)
  cases a with
  | comment => exact absurd rfl hk
  | command name args =>
    rw [Atom.words, List.forall_mem_cons] at hw
    rw [phrase, List.mem_append, not_or]
    exact ⟨hw.1, newline_notMem_arguments place.width name hw.2⟩
  | const head name value =>
    cases value <;> simp_all [phrase, Text.join, Atom.words, Atom.head, Atom.tail, Text.ofString]
  | _ => simp_all [phrase, Text.join, Atom.words, Atom.head, Atom.tail, Text.ofString]

end Phrases

/-- How many line endings there may be after an atom. -/
def room (a : Atom) : Nat := if a.kind = .closeBlock ∨ a.kind = .other then 1 else 2

theorem one_le_room (a : Atom) : 1 ≤ room a := by
  unfold room
  split <;> decide

/-- What holds between two constructs: after a closing brace and after a stray word, a line can be ended without a
look at what has been written. -/
structure Calm (o : Options) (out : Output) : Prop where
  compact : Compact o.lineEnding out.text
  paced : ∀ last ∈ out.last, Paced o.lineEnding (room last) out.text

structure Poised (o : Options) (out : Output) : Prop where
  compact : Compact o.lineEnding out.text
  begun : ∀ last ∈ out.last, out.text ≠ []

section Steps

variable {o : Options} (ho : o.Usual) {out : Output}

theorem Calm.of_paced (h : Paced o.lineEnding 1 out.text) : Calm o out :=
  ⟨h.compact, fun last _ => h.mono (one_le_room last)⟩

theorem Calm.poised (h : Calm o out) : Poised o out := ⟨h.compact, fun last hl => (h.paced last hl).begun⟩

theorem Poised.of_paced {n : Nat} (h : Paced o.lineEnding n out.text) : Poised o out := ⟨h.compact, fun _ _ => h.begun⟩

include ho

theorem paced_newline {n : Nat} (h : Paced o.lineEnding n out.text) (hn : n < 2) :
    Paced o.lineEnding (n + 1) (out.newline o).text := by
  rw [Output.text_newline]
  exact h.newline ho.isEnding hn

theorem paced_write (h : Compact o.lineEnding out.text) (indent : Nat) {t : Text} (ht : .char '\n' ∉ t) (hn : t ≠ []) :
    Paced o.lineEnding 0 (out.write o indent t).text := by
  rw [Output.text_write]
  exact h.write ho.isEnding (by simp [newline_notMem_lead, ht]) (by simp [hn])

theorem paced_statement (h : Compact o.lineEnding out.text) (indent : Nat) {words : List Text}
    (ht : .char '\n' ∉ Text.join " " words) (hn : Text.join " " words ≠ []) :
    Paced o.lineEnding 1 (out.statement o indent words).text :=
  paced_newline ho (paced_write ho h indent ht hn) (by decide)

theorem Poised.separate (h : Poised o out) (hl : out.last.isSome = true) : Poised o (out.separate o) := by
  obtain ⟨last, hlast⟩ := Option.isSome_iff_exists.1 hl
  by_cases hs : o.lineEnding ++ o.lineEnding <:+ out.text
  · rwa [Output.separate_of_suffix hs]
  · rw [Output.separate_of_not_suffix hs]
    have htwo : Text.endings o.lineEnding (1 + 1) = o.lineEnding ++ o.lineEnding := by simp [Text.endings]
    have hpaced : Paced o.lineEnding 1 out.text := ⟨h.compact, h.begun last hlast, htwo ▸ hs⟩
    exact .of_paced (paced_newline ho hpaced (by decide))

end Steps

section Writing

variable {job : Job} (ho : job.options.Usual) {out : Output}

include ho

theorem Calm.endRun (h : Calm job.options out) (a : Atom) : Poised job.options (job.endRun out a) := by
  unfold Job.endRun
  split
  · next last hl =>
    split
    · next hk =>
      have hroom : room last = 1 := by
        simp only [Bool.or_eq_true, Bool.and_eq_true, decide_eq_true_eq] at hk
        exact if_pos (hk.imp_right And.left)
      have hpaced := h.paced last hl
      rw [hroom] at hpaced
      exact .of_paced (paced_newline ho hpaced (by decide))
    · exact h.poised
  · exact h.poised

theorem Poised.joinLine (h : Poised job.options out) (indent : Nat) :
    Poised job.options ((out.removeNewline job.options).write job.options indent " ") := by
  have hcompact : Compact job.options.lineEnding (out.removeNewline job.options).text := by
    unfold Output.removeNewline
    split
    · next piece rest hp =>
      split
      · have htext : out.text = Output.text { out with pieces := rest, atLineStart := false } ++ piece := by
          simp [Output.text, hp]
        exact (htext ▸ h.compact).of_append
      · exact h.compact
    · exact h.compact
  exact .of_paced (paced_write ho hcompact indent (by decide) (by decide))

theorem Poised.makeSpace (h : Poised job.options out) (indent : Nat) (a : Atom) :
    Poised job.options (job.makeSpace indent out a) := by
  unfold Job.makeSpace
  split
  · next last hl =>
    split
    · exact h.separate ho (by simp [hl])
    · split
      · exact h.joinLine ho indent
      · exact h
  · exact h

theorem Calm.ready (h : Calm job.options out) (place : Place) (a : Atom) (beforeBlock apart : Bool) :
    Poised job.options (Stroke.ready job out ⟨place, a, .written beforeBlock apart⟩) := by
  have hbefore := (h.endRun ho a).makeSpace ho place.indent a
  simp only [Stroke.ready]
  split
  · next hs => exact hbefore.separate ho hs.2
  · exact hbefore

end Writing

section Comments

variable {o : Options} (ho : o.Usual) {t : Text}

include ho

theorem paced_lines (indent : Nat) {lines : List Text} (hl : ∀ line ∈ lines, .char '\n' ∉ line)
    (h : Paced o.lineEnding 0 t) :
    Paced o.lineEnding 0
      (t ++ lines.flatMap fun line => o.lineEnding ++ (o.indentation indent ++ Job.commentLine line)) := by
  induction lines generalizing t with
  | nil => simpa using h
  | cons line lines ih =>
    rw [List.forall_mem_cons] at hl
    have hne : starred o indent line ≠ [] := by
      intro hnil
      have hb := isBlank_starred o indent line
      rw [hnil] at hb
      exact absurd hb (by decide)
    have hline := (h.newline ho.isEnding (by decide)).compact.write ho.isEnding
      (newline_notMem_starred o indent hl.1) hne
    rw [List.flatMap_cons, ← List.append_assoc, ← List.append_assoc]
    exact ih hl.2 hline

theorem paced_comment (h : Compact o.lineEnding t) (indent : Nat) {first : Text} {rest : List Text}
    (hf : .char '\n' ∉ first) (hr : ∀ line ∈ rest, .char '\n' ∉ line) :
    Paced o.lineEnding 0 (t ++ (Item.openMark ++ (commentInner o indent first rest ++ Item.closeMark))) := by
  have hmarks : .char '\n' ∉ Item.openMark ∧ .char '\n' ∉ Item.closeMark := by decide
  have hspace : .char '\n' ∉ Text.ofString " " := by decide
  have hopen : Paced o.lineEnding 0
      (t ++ (Item.openMark ++ if first.isEmpty then [] else (" " : Text) ++ first)) := by
    refine h.write ho.isEnding ?_ (by simp [Item.openMark, Text.ofString])
    split <;> simp [hmarks, hspace, hf]
  have hlines := paced_lines ho indent hr hopen
  -- The closing mark stands on a line of its own after further lines.
  have hclose : ∀ {s : Text}, Paced o.lineEnding 0 s →
      Paced o.lineEnding 0 (s ++ (((if rest.isEmpty then [] else o.lineEnding ++ o.indentation indent) ++ (" " : Text))
        ++ Item.closeMark)) := by
    intro s hs
    split
    · exact hs.compact.write ho.isEnding (by simp [hmarks, hspace]) (by simp [Item.closeMark, Text.ofString])
    · have hline := (hs.newline ho.isEnding (by decide)).compact
      simp only [List.append_assoc]
      rw [← List.append_assoc]
      exact hline.write ho.isEnding (by simp [newline_notMem_indentation, hmarks, hspace])
        (by simp [Item.closeMark, Text.ofString])
  have hall := hclose hlines
  simpa [commentInner] using hall

theorem paced_phrase (h : Compact o.lineEnding t) (place : Place) {a : Atom} (ha : a.IsRead) :
    Paced o.lineEnding 0 (t ++ phrase o place a) := by
  by_cases hk : a.kind = .comment
  · cases a <;> simp [Atom.kind] at hk
    next opener content closer stop =>
      obtain ⟨hfirst, hrest⟩ := newline_notMem_lines content
      exact paced_comment ho h place.indent hfirst hrest
  · exact h.write ho.isEnding (newline_notMem_phrase_of_read ha hk) (phrase_ne_nil ho ha)

end Comments

section Trees

open Node (allAtoms)

variable {job : Job} (ho : job.options.Usual) {out : Output}

include ho

theorem Calm.atom (h : Calm job.options out) (place : Place) (beforeBlock : Bool) {a : Atom} (ha : a.IsRead) :
    Paced job.options.lineEnding 1 (job.atom place beforeBlock out a).text := by
  have hready := (h.ready ho place a beforeBlock false).compact
  by_cases hk : a.kind = .other
  · cases a <;> simp [Atom.kind] at hk
    next w =>
      have hword : w.text.Inked := ha.inked (by simp [Atom.kind]) w (by simp [Atom.words, Atom.head])
      have hspace : ∀ out : Output, Compact job.options.lineEnding out.text →
          Compact job.options.lineEnding (out.raw " ").text := by
        intro out hc
        rw [Output.text_raw]
        exact hc.append ho.isEnding (by decide)
      rw [Job.atom, Job.atomBody, Job.other, Output.text_setLast]
      refine (paced_write ho ?_ place.indent (newline_notMem_inked hword) hword.1).mono (by decide)
      split
      · exact hspace _ hready
      · exact hready
  · have hwrite : Stroke.write job out ⟨place, a, .written beforeBlock false⟩ = job.atom place beforeBlock out a := by
      simp [Stroke.write]
    have hfront : Compact job.options.lineEnding (Stroke.front job out ⟨place, a, .written beforeBlock false⟩) := by
      rw [Stroke.front]
      exact hready.append ho.isEnding (newline_notMem_lead _ _ _)
    have hphrase := paced_phrase ho hfront place ha
    rw [← hwrite, Stroke.text_write job out hk, ← List.append_assoc, Stroke.back]
    simp only [Bool.false_eq_true, if_false, List.append_nil]
    split
    · exact (hphrase.compact.write ho.isEnding (by decide) (by decide)).mono (by decide)
    · exact hphrase.newline ho.isEnding (by decide)

/-- The empty line after a condition comes after an atom that no line is ended for again. -/
theorem Calm.closeCondition (h : Calm job.options out) (place : Place) (next : Option Node) {closer : Atom}
    (hr : closer.IsRead) (hk : closer.kind = .endIf) :
    Calm job.options (job.closeCondition place next out closer) := by
  have hpaced := h.atom ho place false hr
  rw [closeCondition_eq]
  split
  · have hapart := paced_newline ho hpaced (by decide)
    refine ⟨hapart.compact, fun last hl => ?_⟩
    obtain rfl : closer = last := Option.some.inj hl
    simpa [room, hk] using hapart
  · exact .of_paced hpaced

theorem Calm.endStray (h : Calm job.options out) : Compact job.options.lineEnding (job.endStray out).text := by
  unfold Job.endStray
  split
  · next hs =>
    obtain ⟨last, hl, hk⟩ : ∃ last, out.last = some last ∧ last.kind = .other := by
      simpa [Option.any_eq_true] using hs
    have hpaced := h.paced last hl
    rw [room, if_pos (.inr hk)] at hpaced
    exact (paced_newline ho hpaced (by decide)).compact
  · exact h.compact

theorem Calm.chances {ps : List (Atom × List Node)} (hk : ∀ p ∈ ps, p.1.kind = .percentChance)
    (hr : ∀ p ∈ ps, p.1.IsRead)
    (hp : ∀ p ∈ ps, ∀ place out, Calm job.options out → Calm job.options (job.nodes place out p.2))
    (h : Calm job.options out) (place : Place) (short : Bool) (length : Nat) :
    Calm job.options (job.chances place short length out (ps.map fun p => .chance p.1 p.2)) := by
  induction ps generalizing out with
  | nil => exact h
  | cons p ps ih =>
    have hbody := hp p (by simp)
    have hhead := chanceText_eq_phrase job.options {} (hk p (by simp))
    have hline : .char '\n' ∉ Job.chanceText p.1 := by
      rw [hhead]
      exact newline_notMem_phrase_of_read (hr p (by simp)) (by simp [hk p])
    have hne : Job.chanceText p.1 ≠ [] := by
      rw [hhead]
      exact phrase_ne_nil ho (hr p (by simp))
    rw [List.map_cons, Job.chances]
    refine ih (fun q hq => hk q (by simp [hq])) (fun q hq => hr q (by simp [hq])) (fun q hq => hp q (by simp [hq])) ?_
    split
    · have hpadded := paced_write ho h.compact place.indent (t := Text.padRight (Job.chanceText p.1) length)
        (by simp [Text.padRight, Text.ofChars, hline]) (by simp [Text.padRight, hne])
      split
      · exact .of_paced (paced_newline ho hpadded (by decide))
      · refine hbody _ _ ⟨?_, by simp⟩
        rw [Output.text_setLast, Output.text_raw]
        exact hpadded.compact.append ho.isEnding (by decide)
    · have halone : Paced job.options.lineEnding 1
          (out.statement job.options place.indent [Job.chanceText p.1]).text :=
        paced_statement ho h.compact place.indent (by simpa [Text.join] using hline) (by simpa [Text.join] using hne)
      exact hbody _ _ (.of_paced halone)

theorem Calm.nodes {ns : List Node} (hg : Grown ns) (hr : ∀ a ∈ allAtoms ns, a.IsRead)
    (h : Calm job.options out) (place : Place) : Calm job.options (job.nodes place out ns) := by
  induction hg generalizing place out with
  | nil => exact h
  | single _ ih =>
    simp only [allAtoms, Node.atoms, List.forall_mem_append, List.forall_mem_singleton] at hr
    exact ih hr.2 (.of_paced (h.atom ho _ _ hr.1)) place
  | @block opener body closer rest hk _ hc _ ihb ih =>
    simp only [allAtoms, Node.atoms, List.forall_mem_append, List.forall_mem_cons] at hr
    obtain ⟨⟨hopener, hbody, -⟩, hrest⟩ := hr
    have hinner := ihb hbody (.of_paced (h.atom ho place false hopener)) (job.blockPlace place body)
    exact ih hrest (.of_paced (paced_statement ho (hinner.endStray ho) place.indent (by decide) (by decide))) place
  | @condition opener body closer rest hk _ hc _ ihb ih =>
    simp only [allAtoms, Node.atoms, List.forall_mem_append, List.forall_mem_cons] at hr
    obtain ⟨⟨hopener, hbody, hcloser⟩, hrest⟩ := hr
    have hinner := ihb hbody (.of_paced (h.atom ho place false hopener)) (job.conditionPlace place)
    cases closer with
    | none => exact ih hrest hinner place
    | some c => exact ih hrest (hinner.closeCondition ho place _ (hcloser c (by simp)) (hc c rfl)) place
  | @random opener leading closer rest chances hk _ hkc _ hc _ ihl ihp ih =>
    simp only [allAtoms, Node.atoms, Node.allAtoms_chances, List.forall_mem_append, List.forall_mem_cons] at hr
    obtain ⟨⟨hopener, hleading, hchances, -⟩, hrest⟩ := hr
    have hbefore := ihl hleading (.of_paced (h.atom ho place false hopener)) (Job.randomPlace place)
    have hinner := hbefore.chances ho hkc (fun p hp => hchances _ (List.mem_flatMap.2 ⟨p, hp, by simp⟩))
      (fun p hp place out h =>
        ihp p hp (fun a ha => hchances _ (List.mem_flatMap.2 ⟨p, hp, by simp [ha]⟩)) h place)
      (Job.randomPlace place) ((chances.map fun p => Node.chance p.1 p.2).all Job.isShortChance)
      (Job.chanceLength (chances.map fun p => .chance p.1 p.2))
    exact ih hrest (.of_paced (paced_statement ho hinner.compact place.indent (by decide) (by decide))) place

end Trees

/-- A layout never has two empty lines in a row and does not start with an empty line, whatever is wrong with the
script. -/
theorem format_never_two_empty_lines {o : Options} (ho : o.Usual) (source : Text) :
    ¬ o.lineEnding <+: format o source ∧
      ¬ o.lineEnding ++ o.lineEnding ++ o.lineEnding <:+: format o source := by
  have hatoms := Node.allAtoms_group (Atom.parse 0 source)
  have hcalm := @Calm.nodes ⟨o, source⟩ ho {} _ (Node.grown_group (Atom.parse 0 source))
    (by rw [hatoms]; exact fun a ha => Atom.isRead_of_mem_parse ha) ⟨.nil ho.isEnding, by simp⟩ {}
  refine ⟨hcalm.compact.start, ?_⟩
  have hthree : Text.endings o.lineEnding 3 = o.lineEnding ++ o.lineEnding ++ o.lineEnding := by simp [Text.endings]
  rw [← hthree]
  exact hcalm.compact.inner

def strung : Text := "foo\n\n\n\x7d /* x\n\n\n y */ if B\n\n\nendif\n\n\n<LAND_GENERATION>"

theorem strung_never_two_empty_lines : Options.Usual {} ∧ Text.ofString "\r\n\r\n" <:+: format {} strung ∧
    ¬ Text.ofString "\r\n" <+: format {} strung ∧ ¬ Text.ofString "\r\n\r\n\r\n" <:+: format {} strung := by
  have husual : Options.Usual {} := .inl rfl
  obtain ⟨hstart, hinner⟩ := format_never_two_empty_lines husual strung
  exact ⟨husual, by decide +kernel, hstart, hinner⟩

end Layout

end MapScript
