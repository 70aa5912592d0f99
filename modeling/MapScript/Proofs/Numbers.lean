import MapScript.Proofs.Crossing
import MapScript.Proofs.JoinedCalls
import MapScript.Proofs.Rechecking

/-! Which arguments that should be numbers, and are not, are reported. An argument that could be the start of a call is
left to the pass over the words, which waits for the rest of the call. -/

namespace MapScript

theorem Span.Covers.refl (s : Span) : s.Covers s := ⟨rfl, Int.le_refl _, Int.le_refl _⟩

theorem Span.Covers.trans {s t u : Span} (h : s.Covers t) (h' : t.Covers u) : s.Covers u :=
  ⟨h.file.trans h'.file, Int.le_trans h.start h'.start, Int.le_trans h'.stop h.stop⟩

/-- Of things that come one after the other, each from one place to another, only one reaches around a range. -/
theorem eq_of_pairwise_apart {α : Type} {first last : α → Nat} {l : List α}
    (h : l.Pairwise fun x y => last x ≤ first y) {x y : α} (hx : x ∈ l) (hy : y ∈ l) {i j : Nat} (hij : i < j)
    (hxi : first x ≤ i) (hxj : j ≤ last x) (hyi : first y ≤ i) (hyj : j ≤ last y) : x = y := by
  by_contra hne
  have heither := h.imp (S := fun x y => last x ≤ first y ∨ last y ≤ first x) fun hle => .inl hle
  have : Std.Symm fun x y : α => last x ≤ first y ∨ last y ≤ first x := ⟨fun _ _ hor => hor.symm⟩
  have hor := heither.forall hx hy hne
  omega

namespace Atom

theorem AllOver.apart {file : Int} {source : Text} {items : List Item} {groups : List (List Word)}
    (h : AllOver file source items groups) (hord : Word.Ordered groups.flatten) :
    items.Pairwise fun x y => x.atom.stop ≤ y.atom.start := by
  induction h with
  | nil => exact .nil
  | @cons item items group groups head tail ih =>
    refine .cons (fun y hy => ?_) (ih (hord.parts List.flatten_cons).2)
    obtain ⟨_, -, last, hlast, hspan⟩ := head.located
    obtain ⟨first, hfirst, hstart⟩ := tail.start_mem (List.mem_map_of_mem hy)
    have hstop : item.atom.stop = last.stop := Int.ofNat.inj (congrArg Span.stop hspan)
    rw [hstop, hstart]
    exact hord.append_le List.flatten_cons (List.mem_of_mem_getLast? hlast) hfirst

theorem Over.words_eq {file : Int} {source : Text} {a : Atom} {group rest : List Word}
    (h : Over file source a group rest) (hk : a.kind ≠ .comment) : a.words = group := by
  have hmade := h.made
  cases a with
  | comment => exact absurd rfl hk
  | _ => exact hmade

theorem map_snd_slots_sublist (a : Atom) : (a.slots.map Prod.snd).Sublist a.tail := by
  have hzip : ∀ (types : List ArgType) (args : List Word), ((types.zip args).map Prod.snd).Sublist args := by
    intro types args
    induction types generalizing args with
    | nil => simp
    | cons type types ih =>
      cases args with
      | nil => simp
      | cons arg args => exact (ih args).cons_cons arg
  cases a with
  | command name args => exact hzip _ args
  | const head name value => cases value <;> exact .refl _
  | define | undefine => exact .refl _
  | _ => exact List.nil_sublist _

theorem kind_ne_comment_of_slot {a : Atom} {slot : ArgType × Word} (h : slot ∈ a.slots) : a.kind ≠ .comment := by
  cases a with
  | comment => simp [slots] at h
  | _ => simp [kind]

end Atom

namespace Item

variable {file : Int} {source : Text} {item : Item} (hi : item ∈ parse file source)

theorem eq_of_covers {x y : Item} (hx : x ∈ parse file source) (hy : y ∈ parse file source) {w : Word}
    (hw : w.text.Inked) (hxs : x.atom.span.Covers w.span) (hys : y.atom.span.Covers w.span) : x = y := by
  obtain ⟨groups, hwords, hover⟩ := parse_covers_words file source
  have hapart := hover.apart (hwords ▸ Word.ordered_scan file source)
  exact eq_of_pairwise_apart hapart hx hy (Word.start_lt_stop hw) (Int.ofNat_le.1 hxs.start) (Int.ofNat_le.1 hxs.stop)
    (Int.ofNat_le.1 hys.start) (Int.ofNat_le.1 hys.stop)

include hi

theorem words_of_mem (hk : item.atom.kind ≠ .comment) :
    Word.Ordered item.atom.words ∧
      ∀ w ∈ item.atom.words, w.text.Inked ∧ w.file = file ∧ item.atom.span.Covers w.span := by
  obtain ⟨group, rest, hover, hg, hord, -⟩ := exists_group_of_mem hi
  have hink : ∀ w ∈ group, w.text.Inked := fun w hw => Word.inked_of_mem_scan (hg w hw)
  obtain ⟨first, hf, last, hl, hspan⟩ := hover.located
  rw [hover.words_eq hk]
  refine ⟨hord, fun w hw => ⟨hink w hw, Word.scanFrom_file (hg w hw), ?_⟩⟩
  rw [hspan]
  exact hord.covers hink hf hl hw (Word.scanFrom_file (hg w hw))

omit hi

theorem Reading.flaws_ne_nil_iff {w : Word} {rest : List Word} {used : Nat} (h : Reading source w rest item used)
    {v : Word} (hv : (.number, v) ∈ item.atom.slots) :
    item.flaws ≠ [] ↔ item.atom.Lacks := by
  have hfits := Lead.of_fits w.text
  cases h with
  | mark | starved | nameless | closed | unclosed | inline | unknown | valueless =>
    simp [sound, flawed, inlineComment, Atom.slots] at hv
  | alone _ hk =>
    obtain rfl | rfl | rfl | rfl | rfl | rfl := Keyword.alone?_cases hk <;> simp [sound, Atom.slots] at hv
  | unary _ hk =>
    obtain rfl | rfl | rfl | rfl | rfl := Keyword.unary?_cases hk <;> simp [sound, Atom.slots] at hv
  | const => simp [sound, Atom.Lacks]
  | @command entry args more hw hl ha =>
    rw [hw] at hfits
    refine iff_of_false (by simp [sound]) ?_
    rintro ⟨name, args', entry', he, hf, hlt⟩
    obtain ⟨rfl, rfl⟩ := Atom.command.inj he
    obtain rfl : entry = entry' := Option.some.inj (hfits.symm.trans hf)
    exact absurd hl (Nat.ne_of_lt hlt)
  | @short entry args more hw hl ha hr =>
    rw [hw] at hfits
    exact iff_of_true (by simp [flawed]) ⟨w, args, entry, rfl, hfits, hl⟩

end Item

namespace Rule.ArgTypes

open Rnd (isCall isUnfinished)

theorem mem_tail_of_slot {a : Atom} {type : ArgType} {w : Word} (h : (type, w) ∈ a.slots) : w ∈ a.tail :=
  (Atom.map_snd_slots_sublist a).subset (List.mem_map_of_mem h)

theorem Remark.place {scope : Scope} {a : Atom} {d : Diagnostic} (h : Remark scope a d) :
    a.kind ≠ .comment ∧ (d.span = a.span ∨ ∃ u ∈ a.tail, d.span = u.span) := by
  cases h with
  | @condition w d hw hd =>
    have hspan : d.span = w.span := (placed_checkDefined (P := (· = w.span)) scope rfl d hd).span
    cases a <;> simp_all [Atom.condition?, Atom.kind, Atom.tail]
  | @slot type w d hw hd =>
    have hspan : d.span = w.span := (placed_checkArg (P := (· = w.span)) scope a.head type rfl d hd).span
    exact ⟨Atom.kind_ne_comment_of_slot hw, .inr ⟨w, mem_tail_of_slot hw, hspan⟩⟩
  | missing ha =>
    obtain ⟨name, args, entry, rfl, -, -⟩ := ha
    exact ⟨by simp [Atom.kind], .inl rfl⟩
  | @range w ha hw hn message => exact ⟨by simp [ha], .inr ⟨w, hw, rfl⟩⟩

theorem exists_onAtom_of_number {scope : Scope} {a : Atom} {problems : List Diagnostic}
    (h : onAtom scope a = .ok problems) {w : Word} (hw : (.number, w) ∈ a.slots)
    (hn : isNumber scope w.text = false) : ∃ d ∈ problems, d.span = w.span := by
  cases hd : checkNumber scope a.head w with
  | none =>
    rw [checkNumber_eq_none_iff, hn] at hd
    cases hd
  | some d =>
    exact ⟨d, mem_onAtom_of_slot h hw hd, (placed_checkArg (P := (· = w.span)) scope a.head .number rfl d hd).span⟩

variable {file : Int} {source : Text} {item : Item} (hi : item ∈ Item.parse file source) {w : Word}
  (hw : (.number, w) ∈ item.atom.slots)

include hi hw

theorem eq_number_of_slot {type : ArgType} (ht : (type, w) ∈ item.atom.slots) : type = .number := by
  obtain ⟨hord, hink⟩ := Item.words_of_mem hi (Atom.kind_ne_comment_of_slot hw)
  have hdistinct : item.atom.tail.Nodup := by
    refine ((List.pairwise_cons.1 hord).2.imp_of_mem fun {u v} hu _ hle he => ?_)
    have hlt := Word.start_lt_stop (hink u (List.mem_cons_of_mem _ hu)).1
    subst he
    omega
  have hslots := hdistinct.sublist (Atom.map_snd_slots_sublist item.atom)
  exact (Prod.mk.inj (List.inj_on_of_nodup_map hslots ht hw rfl)).1

theorem eq_of_remark {other : Item} (ho : other ∈ Item.parse file source) {scope : Scope} {d : Diagnostic}
    (hd : Remark scope other.atom d) (hc : d.span.Covers w.span) : item = other := by
  obtain ⟨hink, -, hcovers⟩ := (Item.words_of_mem hi (Atom.kind_ne_comment_of_slot hw)).2 w
    (List.mem_cons_of_mem _ (mem_tail_of_slot hw))
  obtain ⟨hk, hplace⟩ := hd.place
  have haround : other.atom.span.Covers d.span := by
    rcases hplace with hspan | ⟨u, hu, hspan⟩
    · rw [hspan]
      exact .refl _
    · rw [hspan]
      exact ((Item.words_of_mem ho hk).2 u (List.mem_cons_of_mem _ hu)).2.2
  exact Item.eq_of_covers hi ho hink hcovers (haround.trans hc)

/-- What is said of an atom reaches around the start of a call only if it is that arguments are missing. -/
theorem lacks_of_remark (hn : Numeral.isNumeral w.text = false) (hu : isUnfinished w.text = true) {scope : Scope}
    {d : Diagnostic} (hd : Remark scope item.atom d) (hc : d.span.Covers w.span) : item.atom.Lacks := by
  obtain ⟨hord, hwords⟩ := Item.words_of_mem hi (Atom.kind_ne_comment_of_slot hw)
  -- A remark about an argument is one about this argument, if it reaches around it.
  have hsame : ∀ u ∈ item.atom.tail, u.span.Covers w.span → u = w := by
    intro u hu hcovers
    have hmem := List.mem_cons_of_mem item.atom.head (mem_tail_of_slot hw)
    exact eq_of_pairwise_apart hord (List.mem_cons_of_mem _ hu) hmem (Word.start_lt_stop (hwords w hmem).1)
      (Int.ofNat_le.1 hcovers.start) (Int.ofNat_le.1 hcovers.stop) (Nat.le_refl _) (Nat.le_refl _)
  cases hd with
  | condition hcondition _ =>
    cases ha : item.atom <;> simp [ha, Atom.condition?, Atom.slots] at hcondition hw
  | @slot type u d hslot hd =>
    have hspan : d.span = u.span := (placed_checkArg (P := (· = u.span)) scope item.atom.head type rfl d hd).span
    obtain rfl := hsame u (mem_tail_of_slot hslot) (hspan ▸ hc)
    obtain rfl := eq_number_of_slot hi hw hslot
    simp [checkArg, checkNumber, isNumber, hu] at hd
  | missing ha => exact ha
  | @range u _ hu' hrange message =>
    obtain rfl := hsame u hu' hc
    rcases hrange with hnumeral | ⟨type, hne, hslot⟩
    · rw [hn] at hnumeral
      cases hnumeral
    · exact absurd (eq_number_of_slot hi hw hslot) hne

end Rule.ArgTypes

namespace Check

open Rule.ArgTypes (calls)

/-- The constants that are known after some items: those of the game in the version that is then in force, and those
of the script. -/
theorem hasConst_scopeAfter (c : Check) (before : List Item) (name : Text) :
    (c.scopeAfter before).hasConst name = true ↔
      name ∈ (Scope.levelOf c.effectiveLevel (before.map Item.atom)).consts ∨
        ∃ d ∈ (before.map Item.atom).filterMap Atom.constant?, d.name = name := by
  have hlevel : (c.scopeAfter before).level = Scope.levelOf c.effectiveLevel (before.map Item.atom) :=
    (Scope.level_foldl _ _).trans (if_neg Bool.false_ne_true)
  rw [← hlevel]
  exact (Scope.accounts_foldl c.effectiveLevel (before.map Item.atom)).hasConst name

/-- Whether a number that is none is reported. It is unless it could be the start of a call; and then it is if the
command lacks other arguments, or if it stands in the range of two words that are taken for a call, of which the second
one is not wrong as a mark. -/
theorem bad_number_reported_iff {c : Check} {source : Source} (hs : c.sources = [source]) (hd : c.rules.Nodup)
    (hr : .argTypes ∈ c.rules) {report : Report} (h : c.run = .ok report) {before after : List Item} {item : Item}
    (hi : Item.parse source.file source.text = before ++ item :: after) {w : Word}
    (hw : (.number, w) ∈ item.atom.slots) (hn : Numeral.isNumeral w.text = false) (hc : Rnd.isCall w.text = false)
    (hgame : w.text ∉ (Scope.levelOf c.effectiveLevel (before.map Item.atom)).consts)
    (hown : ∀ d ∈ (before.map Item.atom).filterMap Atom.constant?, d.name ≠ w.text) :
    (∃ d ∈ report.diagnostics, d.code = some Rule.argTypes.name ∧ d.span.Covers w.span) ↔
      Rnd.isUnfinished w.text = false ∨ item.flaws ≠ [] ∨
        ∃ first next, (first, next) ∈ calls none (Cursor.heard {} (Word.scan source.file source.text)) ∧
          Marks.problem false next = none ∧ (first.span.through next.span).Covers w.span := by
  have hitems : c.items = Item.parse source.file source.text := by simp [items, hs]
  have hwords : c.words = Word.scan source.file source.text := by simp [words, hs]
  have hmem : item ∈ Item.parse source.file source.text := by simp [hi]
  obtain ⟨-, -, hcovers⟩ := (Item.words_of_mem hmem (Atom.kind_ne_comment_of_slot hw)).2 w
    (List.mem_cons_of_mem _ (Rule.ArgTypes.mem_tail_of_slot hw))
  obtain ⟨-, first, rest, used, -, -, hreading⟩ := Item.reading_of_mem (fun _ => True) trivial
    (fun _ _ _ => .inl trivial) hmem
  have hflaws := hreading.flaws_ne_nil_iff hw
  have hjoins : ∀ {first next : Word}, c.Joins first next ↔
      (first, next) ∈ calls none (Cursor.heard {} (Word.scan source.file source.text)) ∧
        Marks.problem false next = none := by
    intro first next
    rw [Joins, Checker.joins_iff hd hr, hwords]
  constructor
  · rintro ⟨d, hmemd, hcode, hcov⟩
    rw [or_iff_not_imp_left, Bool.not_eq_false]
    intro hu
    -- What reaches around the word is said of a call, or else of the atom that the word belongs to.
    rcases exists_of_code h hmemd hcode with ⟨-, first, next, hj, rfl⟩ | ⟨_, other, _, ho, watch, watch', tracker,
      problems, hrule, -, hon, p, hp, rfl⟩
    · exact .inr ⟨first, next, (hjoins.1 hj).1, (hjoins.1 hj).2, hcov⟩
    · have hremark := Rule.ArgTypes.remark_of_onAtom (Watch.onAtom_argTypes hrule hon) hp
      obtain rfl := Rule.ArgTypes.eq_of_remark hmem hw (by simp [← hitems, ho]) hremark hcov
      exact .inl (hflaws.2 (Rule.ArgTypes.lacks_of_remark hmem hw hn hu hremark hcov))
  · obtain ⟨watch, watch', tracker, problems, hrule, hscope, hon, hsaid⟩ := exists_onAtom h hr (hitems.trans hi)
    have htypes := Watch.onAtom_argTypes hrule hon
    rintro (hu | hlacks | ⟨first, next, hcall, hmark, hcov⟩)
    · have hnone : (c.scopeAfter before).hasConst w.text = false := by
        rw [Bool.eq_false_iff, ne_eq, hasConst_scopeAfter]
        rintro (hg | ⟨d, hd, hname⟩)
        · exact hgame hg
        · exact hown d hd hname
      have hbad : Rule.ArgTypes.isNumber tracker.scope w.text = false := by
        simp [Rule.ArgTypes.isNumber, hn, hc, hu, hscope, hnone]
      obtain ⟨d, hmemd, hspan⟩ := Rule.ArgTypes.exists_onAtom_of_number htypes hw hbad
      exact ⟨_, hsaid d hmemd, rfl, hspan ▸ .refl _⟩
    · obtain ⟨name, args, entry, ha, he, hl⟩ := hflaws.1 hlacks
      rw [ha] at htypes
      obtain ⟨d, hmemd, -, hspan⟩ := Rule.ArgTypes.exists_onAtom he hl htypes
      refine ⟨_, hsaid d hmemd, rfl, ?_⟩
      rw [← ha] at hspan
      exact hspan ▸ hcovers
    · exact ⟨_, mem_of_joins h (hjoins.2 ⟨hcall, hmark⟩), rfl, hcov⟩

def looseCall : Text := "create_elevation rnd 5"

def lastCall : Text := "create_elevation rnd"

def elevation : Item := .sound (.command ⟨"create_elevation", 0, 0⟩ [⟨"rnd", 0, 17⟩])

theorem loose_checked :
    (typed looseCall).problems.toOption.any (fun _ => true) = true ∧
      Item.parse 0 looseCall = [elevation, .flawed (.other ⟨"5", 0, 21⟩) .unknownWord] ∧
      (.number, ⟨"rnd", 0, 17⟩) ∈ elevation.atom.slots ∧ Text.ofString "rnd" ∉ Level.consts .conquerors ∧
      (typed looseCall).effectiveLevel = .conquerors ∧
      (⟨"rnd", 0, 17⟩, ⟨"5", 0, 21⟩) ∈ calls none (Cursor.heard {} (Word.scan 0 looseCall)) ∧
      Marks.problem false ⟨"5", 0, 21⟩ = none ∧
      (typed lastCall).problems.toOption.any List.isEmpty = true ∧ Item.parse 0 lastCall = [elevation] := by
  decide +kernel

theorem looseCall_reported : ∃ report, (typed looseCall).run = .ok report ∧
    ∃ d ∈ report.diagnostics, d.code = some Rule.argTypes.name ∧ d.span.Covers ⟨0, 17, 20⟩ := by
  obtain ⟨hrun, hparse, hslot, hgame, hlevel, hcall, hmark, -⟩ := loose_checked
  obtain ⟨ds, hds, -⟩ := exists_eq_ok_iff.2 hrun
  obtain ⟨report, hrun, -⟩ := exists_run hds
  have hsources : (typed looseCall).sources = [⟨0, "map.rms", looseCall⟩] := rfl
  have hfirst : Item.parse 0 looseCall = [] ++ elevation :: [.flawed (.other ⟨"5", 0, 21⟩) .unknownWord] := hparse
  have hiff := bad_number_reported_iff hsources (by decide) (by decide) hrun hfirst hslot (by decide) (by decide)
    (hlevel ▸ hgame) (by simp)
  exact ⟨report, hrun, hiff.2 (.inr (.inr ⟨_, _, hcall, hmark, rfl, by decide, by decide⟩))⟩

/-- Nothing is said of a call that starts and does not go on. -/
theorem lastCall_not_reported : (∃ report, (typed lastCall).run = .ok report ∧ report.diagnostics = []) ∧
    Item.parse 0 lastCall = [elevation] ∧ (.number, ⟨"rnd", 0, 17⟩) ∈ elevation.atom.slots ∧
    Numeral.isNumeral "rnd" = false ∧ Rnd.isCall "rnd" = false ∧ Text.ofString "rnd" ∉ Level.consts .conquerors := by
  obtain ⟨-, -, hslot, hgame, -, -, -, hnone, hparse⟩ := loose_checked
  obtain ⟨ds, hds, hempty⟩ := exists_eq_ok_iff.2 hnone
  obtain ⟨report, hrun, hperm, -⟩ := exists_run hds
  rw [List.isEmpty_iff.1 hempty] at hperm
  exact ⟨⟨report, hrun, hperm.eq_nil⟩, hparse, hslot, by decide, by decide, hgame⟩

end Check

end MapScript
