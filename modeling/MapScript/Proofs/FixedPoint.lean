import MapScript.Proofs.Comments
import MapScript.Proofs.Settling

/-! When laying out a script a second time changes nothing. The layout of a clean script has the same strokes as
the script itself, so the two runs go in lockstep until the first atom that they write in different ways. -/

namespace MapScript.Layout

open Text Stroke

/-- A stroke that can be read back: it has a phrase without blanks around it. -/
structure Stroke.Solid (o : Options) (s : Stroke) : Prop where
  known : s.atom.kind ≠ .other
  starts : ¬ (phrase o s.place s.atom).StartsBlank
  ends : ¬ (phrase o s.place s.atom).EndsBlank

theorem Stroke.solid_of_legible {o : Options} (ho : o.Usual) {s : Stroke} (h : s.atom.Legible) : s.Solid o := by
  obtain ⟨b, hb, -⟩ := @exists_spells o s.place ho s.atom h
  exact ⟨h.kind_ne_other, hb.starts, hb.ends⟩

def Stroke.onto (s : Stroke) (c : Atom) : Stroke := { s with atom := c }

theorem Rewritten.phrase_onto {o : Options} (ho : o.Usual) {s : Stroke} {c : Atom}
    (h : Rewritten o s.place s.atom c) (hn : isHollow s.atom = false) :
    phrase o (s.onto c).place (s.onto c).atom = phrase o s.place s.atom := h.phrase_again ho hn

theorem Rewritten.solid {o : Options} (ho : o.Usual) {s : Stroke} {c : Atom} (h : Rewritten o s.place s.atom c)
    (hs : s.Solid o) : (s.onto c).Solid o := by
  have hknown : c.kind ≠ .other := h.kind ▸ hs.known
  cases ha : s.atom with
  | comment opener content closer stop =>
    have hphrase := h.phrase_comment ho ha
    refine ⟨hknown, ?_, ?_⟩
    · rw [onto, hphrase]
      exact not_startsBlank_inked ⟨by decide, by decide⟩ _
    · rw [onto, hphrase, ← List.append_assoc]
      exact not_endsBlank_inked ⟨by decide, by decide⟩ _
  | _ =>
    have hphrase := h.phrase_onto ho (by rw [ha]; rfl)
    exact ⟨hknown, by rw [hphrase]; exact hs.starts, by rw [hphrase]; exact hs.ends⟩

theorem solid_onto {o : Options} (ho : o.Usual) {strokes : List Stroke} {cs : List Atom}
    (h : List.Forall₂ (fun s c => Rewritten o s.place s.atom c) strokes cs) (hs : ∀ s ∈ strokes, s.Solid o) :
    ∀ t ∈ List.zipWith onto strokes cs, t.Solid o := by
  induction h with
  | nil => simp
  | cons hsame _ ih =>
    rw [List.zipWith_cons_cons, List.forall_mem_cons]
    exact ⟨hsame.solid ho (hs _ (by simp)), ih fun s h => hs s (by simp [h])⟩

section Prefixes

variable {job : Job} (ho : job.options.Usual)

include ho

theorem trimRight_write (out : Output) {s : Stroke} (hs : s.Solid job.options) :
    trimRight (s.write job out).text = s.front job out ++ phrase job.options s.place s.atom := by
  rw [s.text_write job out hs.known, ← List.append_assoc, trimRight_append_blank (back_blank ho s).1,
    trimRight_of_not_endsBlank (not_endsBlank_append hs.ends _)]

theorem trimRight_run {strokes : List Stroke} (out : Output) (hs : ∀ s ∈ strokes, s.Solid job.options) :
    trimRight out.text <+: (run job out strokes).text := by
  induction strokes generalizing out with
  | nil =>
    obtain ⟨b, -, ht⟩ := trimRight_blank out.text
    exact ⟨b, ht.symm⟩
  | cons s strokes ih =>
    have hrest := ih (s.write job out) fun t ht => hs t (by simp [ht])
    rw [trimRight_write ho out (hs s (by simp))] at hrest
    refine List.IsPrefix.trans ?_ hrest
    obtain ⟨b, -, ht⟩ := trimRight_blank (s.ready job out).text
    rw [← (ready_spaced ho out s).trimmed, front]
    exact ⟨b ++ ((s.ready job out).lead job.options s.place.indent ++ phrase job.options s.place s.atom), by
      rw [← List.append_assoc, ← ht, List.append_assoc]⟩

theorem front_run (out : Output) {s : Stroke} {strokes : List Stroke}
    (hs : ∀ t ∈ s :: strokes, t.Solid job.options) :
    ∃ more, (run job out (s :: strokes)).text
      = s.front job out ++ (phrase job.options s.place s.atom ++ more) := by
  have hsolid : ∀ t ∈ strokes, t.Solid job.options := fun t ht => hs t (by simp [ht])
  have hrest := trimRight_run ho (s.write job out) hsolid
  rw [trimRight_write ho out (hs s (by simp))] at hrest
  obtain ⟨more, hm⟩ := hrest
  exact ⟨more, by rw [← List.append_assoc]; exact hm.symm⟩

end Prefixes

/-- Two runs that have written the same, and what is known about the last atom of each. -/
inductive Agree (o : Options) (before : List Atom) : Option Gap → Output → Output → Prop
  | fresh {out₁ out₂} (text : out₂.text = out₁.text) (start : out₂.atLineStart = out₁.atLineStart)
      (h₁ : out₁.last = none) (h₂ : out₂.last = none) : Agree o before none out₁ out₂
  | spaced {out₁ out₂ gap written last₁ last₂} (h₁ : Stands o out₁ written gap) (h₂ : Stands o out₂ written gap)
      (hl₁ : out₁.last = some last₁) (hl₂ : out₂.last = some last₂) (hl : lastSpaced before = some last₁)
      (hk : last₂.kind = last₁.kind) (hi : last₁.kind.isImplied = false) (hn : last₁.kind ≠ .other)
      (stop : last₂.stop = written.length) : Agree o before (some gap) out₁ out₂

namespace Agree

variable {o : Options} {before : List Atom} {gap : Option Gap} {out₁ out₂ : Output}

theorem same (h : Agree o before gap out₁ out₂) :
    out₂.text = out₁.text ∧ out₂.atLineStart = out₁.atLineStart := by
  cases h with
  | fresh text start => exact ⟨text, start⟩
  | @spaced _ _ gap _ _ _ h₁ h₂ =>
    refine ⟨h₂.text.trans h₁.text.symm, ?_⟩
    cases gap with
    | line => exact h₂.start.1.trans h₁.start.1.symm
    | space => exact Eq.trans h₂.start (Eq.symm h₁.start)
    | apart => exact h₂.start.1.trans h₁.start.1.symm

end Agree

theorem ready_of_last_none {job : Job} {out : Output} (h : out.last = none) (s : Stroke) :
    s.ready job out = out := by
  have hbefore : ∀ indent a, job.before indent out a = out := by
    intro indent a
    simp [Job.before, Job.endRun, Job.makeSpace, h]
  cases hf : s.form <;> simp [ready, hf, hbefore, h, Job.endStray]

section Step

variable {o : Options} (ho : o.Usual) {source result : Text} {before : List Atom} {gap : Option Gap}
  {out₁ out₂ : Output} {s : Stroke} {c : Atom}

include ho

/-- What stands before an atom is the same in both runs, unless the atom is displaced. -/
theorem Agree.front (h : Agree o before gap out₁ out₂) (hfits : Fits before s.atom gap)
    {beforeBlock apart : Bool} (hf : s.form = .written beforeBlock apart) (hk : c.kind = s.atom.kind)
    (hstart : c.start = (s.front ⟨o, source⟩ out₁).length)
    (hresult : ∃ more, result = s.front ⟨o, source⟩ out₁ ++ more) :
    ¬ Displaced ⟨o, source⟩ before s.atom ∧
        (s.onto c).front ⟨o, result⟩ out₂ = s.front ⟨o, source⟩ out₁ ∨
      Displaced ⟨o, source⟩ before s.atom ∧ ∀ p t : Text, ¬ p.StartsBlank →
        Diverge (s.front ⟨o, source⟩ out₁ ++ t) ((s.onto c).front ⟨o, result⟩ out₂ ++ p) := by
  cases h with
  | fresh text start h₁ h₂ =>
    refine .inl ⟨not_displaced_of_fits_none hfits, ?_⟩
    simp only [Stroke.front, ready_of_last_none h₁, ready_of_last_none h₂, Output.lead, text, start, onto]
  | @spaced _ _ gap written last₁ last₂ h₁ h₂ hl₁ hl₂ hl hlk hi hn stop =>
    have hclose : last₁.kind ≠ .closeBlock := by
      intro hc
      simp [hc, Atom.Kind.isImplied] at hi
    have hspace : gap = .space → s.atom.kind = .openBlock := by
      rintro rfl
      exact hfits.2
    have hfront₁ := @Stands.front ⟨o, source⟩ _ _ _ h₁ ho _ hl₁ hclose hn s _ _ hf hspace
    have hfront₂ := @Stands.front ⟨o, result⟩ _ _ _ h₂ ho _ hl₂ (hlk ▸ hclose) (hlk ▸ hn) (s.onto c) _ _ hf
      (by rw [onto, hk]; exact hspace)
    -- The second run looks at the space that the first one made.
    have hbetween : Job.space ⟨o, result⟩ last₂ c = .of (gap.joint o s.place.indent (s.atom.kind == .sectionMark)
        (Job.space ⟨o, source⟩ last₁ s.atom)) (s.atom.kind == .comment) := by
      obtain ⟨more, rfl⟩ := hresult
      rw [Job.space, hk, Job.between, Text.slice, hstart, stop, List.take_left, hfront₁, List.drop_left]
    have hsame : Job.space ⟨o, source⟩ last₁ s.atom = .sameLine → s.atom.kind = .comment :=
      fun he => kind_eq_of_isTrailing (space_eq_sameLine.1 he)
    have hcomment : Job.space ⟨o, source⟩ last₁ s.atom = .sameLine → (s.atom.kind == .comment) = true :=
      fun he => by simp [hsame he]
    have hmark : Job.space ⟨o, source⟩ last₁ s.atom = .sameLine → (s.atom.kind == .sectionMark) = false :=
      fun he => by simp [hsame he]
    have hnocomment : gap = .space → (s.atom.kind == .comment) = false := fun he => by simp [hspace he]
    have honto : (s.onto c).place = s.place ∧ (s.onto c).atom = c := ⟨rfl, rfl⟩
    rw [honto.1, honto.2, hk, hbetween] at hfront₂
    have hkeeps : gap.keeps (Job.space ⟨o, source⟩ last₁ s.atom) = false ↔
      Displaced ⟨o, source⟩ before s.atom := keeps_eq_false_iff hfits hl
    by_cases hd : Displaced ⟨o, source⟩ before s.atom
    · refine .inr ⟨hd, fun p t hp => ?_⟩
      rw [hfront₁, hfront₂, List.append_assoc, List.append_assoc]
      exact (joint_diverges ho s.place.indent hcomment hnocomment (hkeeps.2 hd) hmark hp t).prepend written
    · refine .inl ⟨hd, ?_⟩
      rw [hfront₁, hfront₂, joint_again ho s.place.indent hcomment hnocomment]
      simpa using mt hkeeps.1 hd

variable (hsolid : s.Solid o) (hsame : Rewritten o s.place s.atom c)

include hsolid hsame

theorem Agree.written {beforeBlock apart : Bool} (hf : s.form = .written beforeBlock apart)
    {next : Option Atom} (hsuits : Suits (Atom.inBlock false before) s next)
    (hstop : c.stop = (s.front ⟨o, source⟩ out₁).length + (phrase o s.place s.atom).length)
    (hfront : (s.onto c).front ⟨o, result⟩ out₂ = s.front ⟨o, source⟩ out₁) (hhollow : isHollow s.atom = false) :
    Agree o (before ++ [s.atom]) (some (Form.gap beforeBlock apart s.atom.kind)) (s.write ⟨o, source⟩ out₁)
      ((s.onto c).write ⟨o, result⟩ out₂) := by
  simp only [Suits, hf] at hsuits
  obtain ⟨himplied, -, hapart⟩ := hsuits
  have hk : c.kind = s.atom.kind := hsame.kind
  have ha : apart = true → s.atom.kind ≠ .command := by
    intro h hc
    simp [h, hc] at hapart
  obtain ⟨h₁, hl₁⟩ := @Stands.written ⟨o, source⟩ out₁ s hsolid.known hsolid.ends _ _ hf ha
  have hsolid₂ := hsame.solid ho hsolid
  have ha₂ : apart = true → (s.onto c).atom.kind ≠ .command := by
    rw [onto, hk]
    exact ha
  obtain ⟨h₂, hl₂⟩ := @Stands.written ⟨o, result⟩ out₂ (s.onto c) hsolid₂.known hsolid₂.ends _ _ hf ha₂
  have hphrase := hsame.phrase_onto ho hhollow
  have hkind : (s.onto c).atom.kind = s.atom.kind := hk
  rw [hfront, hphrase, hkind] at h₂
  refine .spaced h₁ h₂ hl₁ hl₂ ?_ hk himplied hsolid.known (by rw [List.length_append]; exact hstop)
  rw [lastSpaced_concat, himplied]
  rfl

theorem Agree.mark (h : Agree o before gap out₁ out₂) (hfits : Fits before s.atom gap) (hm : s.isMark = true)
    (hi : s.atom.kind.isImplied = true) (hn : .char '\n' ∉ phrase o s.place s.atom) :
    ∃ marks mark, Agree o (before ++ [s.atom]) (some (.line (marks ++ [mark]))) (s.write ⟨o, source⟩ out₁)
      ((s.onto c).write ⟨o, result⟩ out₂) := by
  have hhollow : isHollow s.atom = false := by
    cases ha : s.atom <;> simp [ha, Atom.kind, Atom.Kind.isImplied] at hi <;> rfl
  have hphrase := hsame.phrase_onto ho hhollow
  have hback : (s.onto c).back o = s.back o := by
    have hk : (s.onto c).atom.kind = s.atom.kind := hsame.kind
    have hform : (s.onto c).form = s.form := rfl
    simp only [back, hform, hk, hphrase]
  obtain ⟨mark, hmark⟩ := @exists_mark ⟨o, source⟩ s hn hsolid.ends hm
  cases h with
  | fresh => simp [hfits.1] at hi
  | @spaced _ _ gap written last₁ last₂ h₁ h₂ hl₁ hl₂ hl hlk hli hln stop =>
    cases gap with
    | line marks =>
      have hsolid₂ := hsame.solid ho hsolid
      obtain ⟨h₁, hlast₁⟩ := @Stands.mark ⟨o, source⟩ out₁ s _ _ h₁
        (by simpa [hl₁] using hln) hsolid.known hm _ hmark
      obtain ⟨h₂, hlast₂⟩ := @Stands.mark ⟨o, result⟩ out₂ (s.onto c) _ _ h₂
        (by simpa [hl₂, hlk] using hln) hsolid₂.known hm mark (by rw [hphrase, hback]; exact hmark)
      refine ⟨marks, mark, .spaced h₁ h₂ (hlast₁.trans hl₁) (hlast₂.trans hl₂) ?_ hlk hli hln stop⟩
      rw [lastSpaced_concat, hi, if_pos rfl, hl]
    | space => simp [hfits.2, Atom.Kind.isImplied] at hi
    | apart =>
      have hc := hfits.2.1
      cases hk : s.atom.kind <;> simp [hk, Atom.Kind.isImplied] at hi <;>
        simp [hk, Atom.Kind.isCloser, Atom.Kind.isImplied] at hc

omit hsolid in
theorem Agree.short (h : Agree o before gap out₁ out₂) {length : Nat} (hf : s.form = .short length false)
    (hhollow : isHollow s.atom = false) :
    Agree o (before ++ [s.atom]) none (s.write ⟨o, source⟩ out₁) ((s.onto c).write ⟨o, result⟩ out₂) := by
  have hphrase := hsame.phrase_onto ho hhollow
  have hwrite : ∀ (job : Job) (out : Output) (t : Stroke), t.form = .short length false →
      t.write job out = ((out.write job.options t.place.indent
        (padRight (phrase job.options t.place t.atom) length)).raw " ").setLast none := by
    intro job out t ht
    simp [Stroke.write, ht]
  obtain ⟨htext, hstart⟩ := h.same
  rw [hwrite _ _ s hf, hwrite _ _ (s.onto c) hf, hphrase]
  refine .fresh ?_ ?_ rfl rfl
  · simp [Output.lead, htext, hstart, onto]
  · exact (atLineStart_write _ _ _ _).trans (atLineStart_write _ _ _ _).symm

end Step

theorem isHollow_of_kind_ne {a : Atom} (h : a.kind ≠ .comment) : isHollow a = false := by
  cases a with
  | comment => exact absurd rfl h
  | _ => rfl

theorem newline_notMem_inked {t : Text} (h : t.Inked) : .char '\n' ∉ t := by
  intro hm
  exact absurd (h.2 _ hm) (by decide)

theorem newline_notMem_phrase {o : Options} {place : Place} {a : Atom} (h : a.Legible)
    (hi : a.kind.isImplied = true) : .char '\n' ∉ phrase o place a := by
  cases h with
  | @alone w k build hw hk =>
    rw [phrase_alone hk]
    exact newline_notMem_inked k.inked_spelling
  | @unary w arg k build missing hw hk ha hink =>
    have hspace : .char '\n' ∉ ofString " " := by decide
    rw [phrase_unary hk]
    simp [Word.spread, newline_notMem_inked k.inked_spelling, newline_notMem_inked hink, hspace]
  | _ => simp [Atom.kind, Atom.Kind.isImplied] at hi

def Settled (job : Job) (before : List Atom) (a : Atom) : Prop :=
  ¬ Displaced job before a ∧ isHollow a = false
deriving Decidable

def AllSettled (job : Job) : (before : List Atom) → List Atom → Prop
  | _, [] => True
  | before, a :: rest => Settled job before a ∧ AllSettled job (before ++ [a]) rest

instance (job : Job) : ∀ before atoms, Decidable (AllSettled job before atoms)
  | _, [] => inferInstanceAs (Decidable True)
  | before, a :: rest =>
    have := instDecidableAllSettled job (before ++ [a]) rest
    inferInstanceAs (Decidable (Settled job before a ∧ AllSettled job (before ++ [a]) rest))

theorem settled_of_isImplied {job : Job} {before : List Atom} {a : Atom} (h : a.kind.isImplied = true) :
    Settled job before a := by
  refine ⟨fun hd => ?_, isHollow_of_kind_ne fun hc => ?_⟩
  · rcases hd.kind_eq with hk | hk <;> simp [hk, Atom.Kind.isImplied] at h
  · simp [hc, Atom.Kind.isImplied] at h

section Lockstep

variable {o : Options} (ho : o.Usual) {source result : Text}

include ho

/-- A stroke of both runs: they stay in lockstep, or they write different texts from here on. -/
theorem Agree.step {before : List Atom} {gap : Option Gap} {out₁ out₂ : Output}
    (h : Agree o before gap out₁ out₂) {s : Stroke} {c : Atom} (hfits : Fits before s.atom gap)
    {next : Option Atom} (hsuits : Suits (Atom.inBlock false before) s next) (hlegible : s.atom.Legible)
    (hstart : c.start = (s.front ⟨o, source⟩ out₁).length)
    (hstop : c.stop = (s.front ⟨o, source⟩ out₁).length + (phrase o s.place s.atom).length)
    (hsame : Rewritten o s.place s.atom c) (hresult : ∃ more, result = s.front ⟨o, source⟩ out₁ ++ more) :
    Settled ⟨o, source⟩ before s.atom ∧
        (∃ gap', Agree o (before ++ [s.atom]) gap' (s.write ⟨o, source⟩ out₁)
            ((s.onto c).write ⟨o, result⟩ out₂) ∧
          ∀ a ∈ next, Fits (before ++ [s.atom]) a gap') ∨
      ¬ Settled ⟨o, source⟩ before s.atom ∧
        Diverge (s.front ⟨o, source⟩ out₁ ++ phrase o s.place s.atom)
          ((s.onto c).front ⟨o, result⟩ out₂ ++ phrase o s.place c) := by
  have hsolid := solid_of_legible ho hlegible
  have hmark : s.isMark = true → s.atom.kind.isImplied = true →
      ∃ gap', Agree o (before ++ [s.atom]) gap' (s.write ⟨o, source⟩ out₁)
          ((s.onto c).write ⟨o, result⟩ out₂) ∧
        ∀ a ∈ next, Fits (before ++ [s.atom]) a gap' := by
    intro hm hi
    obtain ⟨marks, mark, hagree⟩ := h.mark ho hsolid hsame hfits hm hi (newline_notMem_phrase hlegible hi)
    exact ⟨_, hagree, fun a _ => fits_mark hi marks mark⟩
  cases hf : s.form with
  | written beforeBlock apart =>
    rcases h.front ho hfits hf hsame.kind hstart hresult with ⟨hd, hfront⟩ | ⟨hd, hdiverge⟩
    -- The space is the same, so only a blank line inside of a comment can still make a difference.
    · by_cases hhollow : isHollow s.atom = true
      · refine .inr ⟨by simp [Settled, hhollow], ?_⟩
        rw [hfront]
        exact (hsame.phrase_diverges ho hhollow).prepend _
      · have hhollow : isHollow s.atom = false := by simpa using hhollow
        refine .inl ⟨⟨hd, hhollow⟩, _, .written ho hsolid hsame hf hsuits hstop hfront hhollow, fun a ha => ?_⟩
        obtain rfl : next = some a := ha
        exact fits_written hf hsuits
    · exact .inr ⟨fun hn => hn.1 hd, hdiverge _ _ (hsame.solid ho hsolid).starts⟩
  | line =>
    have hi : s.atom.kind.isImplied = true := by simpa [Suits, hf] using hsuits
    exact .inl ⟨settled_of_isImplied hi, hmark (by simp [isMark, hf]) hi⟩
  | short length empty =>
    simp only [Suits, hf] at hsuits
    have hi : s.atom.kind.isImplied = true := by rw [hsuits.1]; rfl
    refine .inl ⟨settled_of_isImplied hi, ?_⟩
    cases empty with
    | true => exact hmark (by simp [isMark, hf]) hi
    | false =>
      refine ⟨_, h.short ho hsame hf (@settled_of_isImplied ⟨o, source⟩ before _ hi).2, fun a ha => ?_⟩
      obtain rfl : next = some a := ha
      have hshort : Job.isShort a = true := by simpa using hsuits.2 rfl
      refine ⟨?_, .inr hshort⟩
      cases hk : a.kind <;> simp [Job.isShort, hk] at hshort <;> rfl

theorem Agree.run {strokes : List Stroke} {cs : List Atom} {out₁ : Output}
    (ht : Traced ⟨o, source⟩ out₁ strokes cs) {before : List Atom} {gap : Option Gap} {out₂ : Output}
    (h : Agree o before gap out₁ out₂) (hfits : ∀ a ∈ (strokes.map Stroke.atom).head?, Fits before a gap)
    (horder : Orderly (Atom.inBlock false before) strokes) (hlegible : ∀ s ∈ strokes, s.atom.Legible)
    (hresult : (Stroke.run ⟨o, source⟩ out₁ strokes).text = result) :
    (Stroke.run ⟨o, result⟩ out₂ (List.zipWith onto strokes cs)).text = result ↔
      AllSettled ⟨o, source⟩ before (strokes.map Stroke.atom) := by
  -- On the strokes of the first run. Its gap is what the second run finds before the next atom.
  induction ht generalizing before gap out₂ with
  | nil =>
    refine iff_of_true ?_ trivial
    rw [← hresult]
    exact h.same.1
  | @cons out s strokes c cs start stop same rest ih =>
    have hsolid : ∀ t ∈ s :: strokes, t.Solid o := fun t ht => solid_of_legible ho (hlegible t ht)
    obtain ⟨more, hmore⟩ := @front_run ⟨o, source⟩ ho out s strokes hsolid
    rw [hresult] at hmore
    rw [List.zipWith_cons_cons, List.map_cons]
    rcases h.step ho (hfits s.atom (by simp)) horder.1 (hlegible s (by simp)) start stop same
      ⟨_, hmore⟩ with ⟨hsettled, gap', hagree, hnext⟩ | ⟨hn, hdiverge⟩
    · have horder' : Orderly (Atom.inBlock false (before ++ [s.atom])) strokes := by
        rw [Atom.inBlock_append]
        exact horder.2
      have hrest := ih hagree hnext horder' (fun t ht => hlegible t (by simp [ht])) hresult
      exact hrest.trans (and_iff_right hsettled).symm
    · refine iff_of_false (fun he => ?_) fun hs => hn hs.1
      have hsolid₂ := solid_onto ho (Traced.cons start stop same rest).forall₂ hsolid
      obtain ⟨more', hmore'⟩ := @front_run ⟨o, result⟩ ho out₂ (s.onto c) _ hsolid₂
      refine (hdiverge.append more more').ne ?_
      rw [List.append_assoc, List.append_assoc]
      exact hmore.symm.trans (he.symm.trans hmore')

end Lockstep

theorem Traced.map_bare {job : Job} {out : Output} {strokes : List Stroke} {cs : List Atom}
    (h : Traced job out strokes cs) : strokes.map (Atom.bare ∘ Stroke.atom) = cs.map Atom.bare := by
  induction h with
  | nil => rfl
  | cons _ _ same _ ih => rw [List.map_cons, List.map_cons, ih, Function.comp_apply, same.bare]

theorem zipWith_onto_of_bare {xs ys : List Stroke} (h : xs.map Stroke.bare = ys.map Stroke.bare) :
    List.zipWith onto xs (ys.map Stroke.atom) = ys := by
  induction xs generalizing ys with
  | nil =>
    obtain rfl : ys = [] := by simpa using h
    rfl
  | cons x xs ih =>
    cases ys with
    | nil => simp at h
    | cons y ys =>
      obtain ⟨hhead, htail⟩ := List.cons.inj h
      rw [List.map_cons, List.zipWith_cons_cons, ih htail]
      simp only [Stroke.bare, Stroke.mk.injEq] at hhead
      simp [onto, hhead]

theorem format_format_eq_run {source : Text} (h : Clean source) {o : Options} {cs : List Atom}
    (ht : Traced ⟨o, source⟩ {} (strokesFrom o source) cs)
    (hp : Item.parse 0 (format o source) = cs.map Item.sound) :
    format o (format o source)
      = (Stroke.run ⟨o, format o source⟩ {} (List.zipWith onto (strokesFrom o source) cs)).text := by
  have hatoms : Atom.parse 0 (format o source) = cs := Atom.parse_eq_of_sound hp
  have hbare : (Atom.parse 0 source).map Atom.bare = cs.map Atom.bare := by
    rw [← map_atom_strokesFrom h o, List.map_map]
    exact ht.map_bare
  obtain ⟨htidy, hstrokes⟩ := strokes_bare h.tidy hbare o {}
  have hzip := zipWith_onto_of_bare hstrokes
  rw [map_atom_strokes htidy] at hzip
  rw [format, hatoms, nodes_eq_run htidy, ← hzip]
  rfl

/-- A clean script is laid out in the same way a second time if and only if all of its atoms are settled. -/
theorem format_format_eq_iff {source : Text} (h : Clean source) {o : Options} (ho : o.Usual) :
    format o (format o source) = format o source ↔ AllSettled ⟨o, source⟩ [] (Atom.parse 0 source) := by
  obtain ⟨cs, ht, hp⟩ := exists_traced h ho
  have hagree : Agree o [] none {} {} := .fresh rfl rfl rfl rfl
  have hfits : ∀ a ∈ ((strokesFrom o source).map Stroke.atom).head?, Fits [] a none := by
    intro a ha
    rw [map_atom_strokesFrom h o] at ha
    obtain ⟨rest, hatoms⟩ := List.head?_eq_some_iff.1 ha
    have htidy := h.tidy
    rw [hatoms] at htidy
    exact ⟨Atom.Kind.isImplied_of_isCloser htidy.head_not_closer, .inl rfl⟩
  have horder : Orderly false (strokesFrom o source) := by
    have hs : Orderly false (strokesFrom o source ++ []) := orderly_strokes h.tidy rfl trivial (by simp)
    rwa [List.append_nil] at hs
  have hrun := hagree.run ho ht hfits horder (legible_strokesFrom h o) (format_eq_run h o).symm
  rwa [map_atom_strokesFrom h o, ← format_format_eq_run h ht hp] at hrun

def roomy : Text :=
  "/* a\nb */ if c\n\ncreate_land \x7b start_random percent_chance 50 land_percent 5 end_random\n/* d */ \x7d endif"

theorem roomy_format_format :
    Clean roomy ∧ Options.Usual {} ∧ AllSettled ⟨{}, roomy⟩ [] (Atom.parse 0 roomy) ∧
      format {} (format {} roomy) = format {} roomy := by
  have htest : Clean.test .conquerors roomy = true ∧ AllSettled ⟨{}, roomy⟩ [] (Atom.parse 0 roomy) := by
    decide +kernel
  have hclean : Clean roomy := .of_test htest.1
  have husual : Options.Usual {} := .inl rfl
  exact ⟨hclean, husual, htest.2, (format_format_eq_iff hclean husual).2 htest.2⟩

/-- The empty line before the brace becomes the end of a line, which the second layout takes away. -/
def partedBrace : Text := "create_land\n\n\x7b \x7d"

theorem partedBrace_format_format_ne : format {} (format {} partedBrace) ≠ format {} partedBrace := by
  decide +kernel

end MapScript.Layout
