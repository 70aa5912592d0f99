import MapScript.Proofs.Rechecking
import MapScript.Proofs.Rewording

/-! What safe fixes do to a script without errors. Names are put in capitals where they are defined and not where they
are used, so a fix can leave a name without its value; where every comment ends with a mark that stands alone, that is
all that can go wrong. -/

namespace MapScript

/-- Whether capitals in definitions leave some name without its value: it is used as a number, the game gives it none, and
no constant before it has that name once it is in capitals. -/
def Atom.Strands (level : Level) (atoms : List Atom) : Prop :=
  ∃ before a after, atoms = before ++ a :: after ∧ ∃ t ∈ a.numbers,
    Numeral.isNumeral t = false ∧ Rnd.isCall t = false ∧ Rnd.isUnfinished t = false ∧
      t ∉ (Scope.levelOf level atoms).consts ∧ ∀ d ∈ before.filterMap Atom.constant?, d.name.capitalised ≠ t

namespace Atom

theorem Recast.constant? {a b : Atom} (h : a.Recast b) :
    b.constant?.map Definition.name = a.constant?.map fun d => d.name.capitalised := by
  have hkind := h.kind
  cases b with
  | const head' name' value' =>
    cases a with
    | const head name value => exact congrArg some (List.cons.inj (List.cons.inj (h.texts (by simp [Atom.kind]))).2).1
    | _ => simp [Atom.kind] at hkind
  | _ =>
    cases a with
    | const => simp [Atom.kind] at hkind
    | _ => rfl

theorem constants_recast {as bs : List Atom} (h : List.Forall₂ Recast as bs) :
    (bs.filterMap Atom.constant?).map Definition.name =
      (as.filterMap Atom.constant?).map fun d => d.name.capitalised := by
  induction h with
  | nil => rfl
  | @cons a b as bs hab _ ih =>
    have hone := hab.constant?
    cases ha : a.constant? <;> cases hb : b.constant? <;> simp_all

end Atom

theorem forall₂_split {α β : Type} {R : α → β → Prop} {xs : List α} {before after : List β} {y : β}
    (h : List.Forall₂ R xs (before ++ y :: after)) :
    ∃ xs₁ x xs₂, xs = xs₁ ++ x :: xs₂ ∧ List.Forall₂ R xs₁ before ∧ R x y := by
  have hdrop := List.forall₂_drop_append _ _ _ h
  cases hxs : xs.drop before.length with
  | nil => simp [hxs] at hdrop
  | cons x xs₂ =>
    rw [hxs] at hdrop
    exact ⟨_, x, xs₂, by rw [← hxs, List.take_append_drop], List.forall₂_take_append _ _ _ h,
      (List.forall₂_cons.1 hdrop).1⟩

namespace Scope

theorem levelOf_append {level : Level} {before after : List Atom} {a : Atom} (ha : a.kind ≠ .comment) :
    levelOf level (before ++ a :: after) = levelOf level before := by
  induction before generalizing level with
  | nil => simp [levelOf, headerLines, ha]
  | cons b before ih => rw [List.cons_append, levelOf_cons, levelOf_cons, ih]

theorem isNumber_recast {level : Level} {before before' after' : List Atom} {a b : Atom} {t : Text}
    (hbefore : List.Forall₂ Atom.Recast before before') (hab : a.Recast b) (ht : t ∈ a.numbers) :
    Rule.ArgTypes.isNumber (before'.foldl update (initial level)) t = false ↔
      Numeral.isNumeral t = false ∧ Rnd.isCall t = false ∧ Rnd.isUnfinished t = false ∧
        t ∉ (levelOf level (before' ++ b :: after')).consts ∧
        ∀ d ∈ before.filterMap Atom.constant?, d.name.capitalised ≠ t := by
  have hb : b.kind ≠ .comment := by
    intro hk
    rw [← hab.numbers, Atom.numbers_eq_nil (by simp [hk]) (by simp [hk])] at ht
    simp at ht
  have hconst := (accounts_foldl level before').hasConst t
  have hlevel : (before'.foldl update (initial level)).level = levelOf level before' := level_foldl _ _
  have hnames : (∃ d ∈ before'.filterMap Atom.constant?, d.name = t) ↔
      ∃ d ∈ before.filterMap Atom.constant?, d.name.capitalised = t := by
    rw [← List.mem_map, Atom.constants_recast hbefore, List.mem_map]
  rw [hlevel, hnames] at hconst
  rw [levelOf_append hb, Rule.ArgTypes.isNumber, Bool.or_eq_false_iff, Bool.or_eq_false_iff, Bool.or_eq_false_iff,
    and_assoc, and_assoc, ← Bool.not_eq_true (Scope.hasConst _ _), hconst]
  simp only [not_or, not_exists, not_and, ne_eq]

theorem lacks_iff_strands {level : Level} {as bs : List Atom} (h : List.Forall₂ Atom.Recast as bs)
    (hlevel : levelOf level bs = levelOf level as) : (initial level).Lacks bs ↔ Atom.Strands level as := by
  constructor
  · rintro ⟨before', b, after', rfl, t, ht, hmissing⟩
    obtain ⟨before, a, after, rfl, hbefore, hab⟩ := forall₂_split h
    rw [hab.numbers] at ht
    rw [isNumber_recast hbefore hab ht, hlevel] at hmissing
    exact ⟨before, a, after, rfl, t, ht, hmissing⟩
  · rintro ⟨before, a, after, rfl, t, ht, hmissing⟩
    obtain ⟨before', b, after', rfl, hbefore, hab⟩ := forall₂_split h.flip
    rw [← hlevel, ← isNumber_recast hbefore.flip hab ht] at hmissing
    exact ⟨before', b, after', rfl, t, hab.numbers ▸ ht, hmissing⟩

end Scope

namespace Checker

open Edit

theorem exists_recheck {level : Level} {builtinMap : Bool} {text : Text} {d : Checker} {found : List Diagnostic}
    (hw : ((initial Rule.defaults level builtinMap).writeWords (Word.scan 0 text)).2 = [])
    (h : ((initial Rule.defaults level builtinMap).writeWords (Word.scan 0 text)).1.writeItems (Item.parse 0 text)
      = .ok (d, found)) (he : ∀ x ∈ found, x.isError = false) :
    let fixed := splice text 0 (fixable false none found)
    (∃ texts, Respells (fixable false none found) (Word.scan 0 text) texts) ∧
      ((initial Rule.defaults level builtinMap).writeWords (Word.scan 0 fixed)).2 = [] ∧
      ∃ d' found', ((initial Rule.defaults level builtinMap).writeWords (Word.scan 0 fixed)).1.writeItems
          (Item.parse 0 fixed) = .ok (d', found') ∧
        ((∃ x ∈ found', x.isError = true) ↔ Atom.Strands level (Atom.parse 0 text)) := by
  intro fixed
  have hrules : (initial Rule.defaults level builtinMap).rules = Rule.defaults := by rfl
  obtain ⟨hrules₁, htracker₁⟩ := tracker_writeWords (initial Rule.defaults level builtinMap) (Word.scan 0 text)
  obtain ⟨hrules₂, htracker₂⟩ := tracker_writeWords (initial Rule.defaults level builtinMap) (Word.scan 0 fixed)
  obtain ⟨texts, atoms, hrespells, htexts, hitems, hitems', hrecast, hlevel⟩ :=
    exists_recast (hrules₁.trans hrules) (by rw [htracker₁]; rfl) (quiet_of_snd_writeWords hw) h he
  refine ⟨⟨texts, hrespells⟩, ?_, ?_⟩
  · have hquieter : Quieter (initial Rule.defaults level builtinMap) (initial Rule.defaults level builtinMap) :=
      ⟨List.forall₂_same.2 fun _ _ => ⟨rfl, id⟩, rfl⟩
    refine hquieter.writeWords ?_ hw
    have hrespelt := hrespells.respelt
    rw [← htexts] at hrespelt
    exact List.forall₂_map_right_iff.1 hrespelt
  · rw [hitems] at h
    have halike : Tracker.Alike
      ((initial Rule.defaults level builtinMap).writeWords (Word.scan 0 text)).1.tracker
      ((initial Rule.defaults level builtinMap).writeWords (Word.scan 0 fixed)).1.tracker := by
      rw [htracker₁, htracker₂]
      exact ⟨rfl, rfl, rfl⟩
    obtain ⟨d', found', h', hiff⟩ := writeItems_recast (hrules₂.trans hrules₁.symm) halike hrecast h he
    refine ⟨d', found', by rw [hitems']; exact h', hiff.trans ?_⟩
    rw [hrules₁, hrules, htracker₂]
    exact (and_iff_right (by decide)).trans (Scope.lacks_iff_strands hrecast (hlevel level))

end Checker

namespace Check

def ofText (text : Text) : Check := { sources := [⟨0, "<source>", text⟩] }

theorem exists_run {c : Check} {ds : List Diagnostic} (h : c.problems = .ok ds) :
    ∃ report, c.run = .ok report ∧ report.diagnostics.Perm ds ∧ report.hasErrors = ds.any Diagnostic.isError := by
  have hperm := List.mergeSort_perm ds fun a b => a.span.le b.span
  exact ⟨⟨c.sources, _⟩, by rw [run, h]; rfl, hperm, hperm.any_eq⟩

theorem exists_report {c : Check} {d : Diagnostic}
    (h : c.problems.toOption.any (fun ds => d ∈ ds) = true) :
    ∃ report, c.run = .ok report ∧ d ∈ report.diagnostics := by
  obtain ⟨ds, hds, hd⟩ := exists_eq_ok_iff.2 h
  obtain ⟨report, hrun, hperm, -⟩ := exists_run hds
  exact ⟨report, hrun, hperm.mem_iff.2 (of_decide_eq_true hd)⟩

theorem exists_problems {c : Check} {report : Report} (h : c.run = .ok report) :
    ∃ ds, c.problems = .ok ds ∧ report.diagnostics.Perm ds ∧ report.hasErrors = ds.any Diagnostic.isError := by
  obtain ⟨ds, hds, -⟩ := bind_eq_ok.1 h
  obtain ⟨report', hrun, hperm⟩ := exists_run hds
  obtain rfl : report = report' := Except.ok.inj (h.symm.trans hrun)
  exact ⟨ds, hds, hperm⟩

theorem problems_single {level : Level} {rules : List Rule} {builtinMap : Bool} {source : Source}
    {ds : List Diagnostic} :
    (Check.mk level rules builtinMap [source]).problems = .ok ds ↔
      let checker := Checker.initial rules (Check.mk level rules builtinMap [source]).effectiveLevel builtinMap
      let (checker, onWords) := checker.writeWords (Word.scan source.file source.text)
      ∃ d onItems, checker.writeItems (Item.parse source.file source.text) = .ok (d, onItems) ∧
        ds = onWords ++ onItems := by
  simp only [problems, words, items, bind_eq_ok, pure_eq_ok, List.flatMap_cons, List.flatMap_nil, List.append_nil]
  constructor
  · rintro ⟨⟨d, onItems⟩, h, rfl⟩
    exact ⟨d, onItems, h, rfl⟩
  · rintro ⟨d, onItems, h, rfl⟩
    exact ⟨_, h, rfl⟩

end Check

namespace Edit

/-- Safe fixes of a script without errors, all of whose comments are closed by a mark that stands alone, give a script
with an error exactly if capitals leave some name without its value. -/
theorem fixed_hasErrors_iff_strands {level : Level} {builtinMap : Bool} {name text : Text} {report : Report}
    (h : (Check.mk level Rule.defaults builtinMap [⟨0, name, text⟩]).run = .ok report)
    (hclean : report.hasErrors = false)
    (hmarks : ∀ w ∈ Word.scan 0 text, w.text.endsWith Item.closeMark = true → w.text = Item.closeMark) :
    ∃ after, (Check.mk level Rule.defaults builtinMap
        [⟨0, name, (apply text report.diagnostics false none).1⟩]).run = .ok after ∧
      (after.hasErrors = true ↔
        Atom.Strands (Check.mk level Rule.defaults builtinMap [⟨0, name, text⟩]).effectiveLevel
          (Atom.parse 0 text)) := by
  obtain ⟨ds, hds, hperm, herrors⟩ := Check.exists_problems h
  obtain ⟨d, found, hitems, rfl⟩ := Check.problems_single.1 hds
  have hnone := List.any_eq_false.1 (herrors.symm.trans hclean)
  simp only [Bool.not_eq_true] at hnone
  rw [List.forall_mem_append] at hnone
  have hwords := Diagnostic.eq_nil_of_isError (Checker.writeWords_isError hmarks) hnone.1
  rw [hwords, List.nil_append] at hperm
  obtain ⟨⟨texts, hrespells⟩, hwords', d', found', hitems', hiff⟩ := Checker.exists_recheck hwords hitems hnone.2
  have hfixed : (apply text report.diagnostics false none).1 = splice text 0 (fixable false none found) := by
    rw [apply, applicable_eq_of_puts hperm hrespells.puts]
  have hfound : (Check.mk level Rule.defaults builtinMap
      [⟨0, name, splice text 0 (fixable false none found)⟩]).problems = .ok found' :=
    Check.problems_single.2 ⟨d', found', hitems', (congrArg (· ++ found') hwords').symm⟩
  obtain ⟨after, hrun, -, herrors'⟩ := Check.exists_run hfound
  refine ⟨after, hfixed ▸ hrun, ?_⟩
  rw [herrors', List.any_eq_true, hiff]

def Breaks (text : Text) : Prop :=
  ∃ report after, (Check.ofText text).run = .ok report ∧ report.hasErrors = false ∧
    (Check.ofText (apply text report.diagnostics false none).1).run = .ok after ∧ after.hasErrors = true

def smallNames : Text :=
  "#const hill 5 start_random percent_chance 9 /* hill */ #define wood end_random #const HIGH 9 #const LAST HIGH"

def usedName : Text := "#const land 5\n#const OTHER land"

def gluedMark : Text := "/* a*/ b /* c */"

def fixesTo (text fixed : Text) (ds : List Diagnostic) : Bool :=
  ds.length == 1 && (fixable false none ds).length == 1 && !ds.any Diagnostic.isError &&
    splice text 0 (choose (-1) (fixable false none ds)) == fixed

theorem samples_checked :
    ((Check.ofText smallNames).problems.toOption.any fun ds => !ds.any Diagnostic.isError) = true ∧
      ((Check.ofText usedName).problems.toOption.any (fixesTo usedName "#const LAND 5\n#const OTHER land")) = true ∧
      ((Check.ofText "#const LAND 5\n#const OTHER land").problems.toOption.any (·.any Diagnostic.isError)) = true ∧
      ((Check.ofText gluedMark).problems.toOption.any (fixesTo gluedMark "/* a */ b /* c */")) = true ∧
      ((Check.ofText "/* a */ b /* c */").problems.toOption.any (·.any Diagnostic.isError)) = true := by
  decide +kernel

theorem smallNames_fixed_hasErrors_iff : ∃ report,
    (Check.ofText smallNames).run = .ok report ∧ report.hasErrors = false ∧
      (∀ w ∈ Word.scan 0 smallNames, w.text.endsWith Item.closeMark = true → w.text = Item.closeMark) ∧
      ∃ after, (Check.ofText (apply smallNames report.diagnostics false none).1).run = .ok after ∧
        (after.hasErrors = true ↔
          Atom.Strands (Check.ofText smallNames).effectiveLevel (Atom.parse 0 smallNames)) := by
  obtain ⟨ds, hds, hnone⟩ := exists_eq_ok_iff.2 samples_checked.1
  obtain ⟨report, hrun, -, herrors⟩ := Check.exists_run hds
  have hclean : report.hasErrors = false := by simpa [herrors] using hnone
  have hmarks : ∀ w ∈ Word.scan 0 smallNames, w.text.endsWith Item.closeMark = true → w.text = Item.closeMark := by
    decide +kernel
  exact ⟨report, hrun, hclean, hmarks, fixed_hasErrors_iff_strands hrun hclean hmarks⟩

theorem breaks_of_single {text fixed : Text} (h : (Check.ofText text).problems.toOption.any (fixesTo text fixed) = true)
    (h' : (Check.ofText fixed).problems.toOption.any (·.any Diagnostic.isError) = true) : Breaks text := by
  obtain ⟨ds, hds, hfix⟩ := exists_eq_ok_iff.2 h
  obtain ⟨ds', hds', herror⟩ := exists_eq_ok_iff.2 h'
  simp only [fixesTo, Bool.and_eq_true, beq_iff_eq] at hfix
  obtain ⟨⟨⟨hone, hedit⟩, hclean⟩, hfixed⟩ := hfix
  obtain ⟨d, rfl⟩ := List.length_eq_one_iff.1 hone
  obtain ⟨s, hs⟩ := List.length_eq_one_iff.1 hedit
  have happly : (apply text [d] false none).1 = fixed := by
    rw [apply, applicable, hs, List.mergeSort_singleton, ← hs, hfixed]
  obtain ⟨report, hrun, hperm, hnone⟩ := Check.exists_run hds
  obtain ⟨after, hrun', -, hsome⟩ := Check.exists_run hds'
  refine ⟨report, after, hrun, by simpa [hnone] using hclean, ?_, hsome.trans herror⟩
  rw [List.perm_singleton.1 hperm, happly, hrun']

/-- Each of the two ways in which safe fixes give a script with an error. -/
theorem fixes_break_scripts : Breaks usedName ∧ Breaks gluedMark := by
  obtain ⟨-, hused, hused', hglued, hglued'⟩ := samples_checked
  exact ⟨breaks_of_single hused hused', breaks_of_single hglued hglued'⟩

end Edit

end MapScript
