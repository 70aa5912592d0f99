import MapScript.Proofs.Repairs
import MapScript.Proofs.Visibility

/-! What the replacements that a check without errors offers make of a script: every statement is read again as
it was, but for the name that it defines. -/

namespace MapScript

open Edit
open Item (isArgument openMark closeMark)

theorem Lead.ofText?_eq_none {t : Text} (hm : Lead.of t ≠ .mark) (hk : ∀ k, Lead.of t ≠ .keyword k) :
    Keyword.ofText? t = none := by
  cases ho : Keyword.ofText? t with
  | none => rfl
  | some k =>
    by_cases hs : (Catalog.isSectionShaped t && Catalog.contains t) = true
    · exact absurd (by rw [of, if_pos hs]) hm
    · exact absurd (by rw [of, if_neg hs, ho]) (hk k)

namespace Marks

theorem Quiet.not_shaped {w arg : Word} {rest : List Word} (h : Quiet false (w :: arg :: rest))
    (hw : Lead.of w.text ≠ .keyword .openComment) (ha : isArgument arg.text = true) :
    Catalog.isSectionShaped arg.text = false := by
  have hout : goesOn false w.text = false := by
    simp [goesOn, inside, Item.not_startsWith_openMark h hw]
  have harg : problem (inside false arg.text) arg = none := by
    have := h.2.1
    rwa [hout] at this
  refine Bool.eq_false_iff.2 fun hs => ?_
  have hc := (outside harg).2 hs (Item.not_openMark_of_isArgument ha)
  simp [isArgument, hc] at ha

theorem Quiet.inner {inner more : List Word} {closer : Word} (h : Quiet true (inner ++ closer :: more))
    (hi : ∀ v ∈ inner, v.text ≠ closeMark) :
    ∀ v ∈ inner, (v.text.startsWith openMark = true → v.text = openMark) ∧ v.text.endsWith closeMark = false := by
  induction inner with
  | nil => simp
  | cons u inner ih =>
    have hend : u.text.endsWith closeMark = false := by
      by_contra he
      exact hi u List.mem_cons_self (within h.1 (by simpa using he))
    have hgoes : goesOn true u.text = true := by simp [goesOn, inside, hend]
    have hopen : openingProblem u = none := by
      have := h.1
      simpa [problem, inside, hend] using this
    refine List.forall_mem_cons.2 ⟨⟨openingProblem_eq_none hopen, hend⟩, ?_⟩
    exact ih (hgoes ▸ h.2) fun v hv => hi v (List.mem_cons_of_mem u hv)

theorem isArgument_of_unknown {t : Text} (h : Lead.of t = .unknown)
    (hopen : t.startsWith openMark = true → t = openMark) (hclose : t.endsWith closeMark = false) :
    isArgument t = true := by
  have hname : Catalog.contains t = false := by
    have hfits := Lead.of_fits t
    rw [h] at hfits
    rw [Catalog.contains, show Catalog.find? t = none from hfits]
    rfl
  have hkey : Keyword.ofText? t = none := Lead.ofText?_eq_none (by simp [h]) (by simp [h])
  have hstart : t.startsWith openMark = false := by
    refine Bool.eq_false_iff.2 fun ho => ?_
    rw [hopen ho, show Lead.of openMark = .keyword .openComment from Lead.of_spelling .openComment] at h
    simp at h
  have hword : Item.nonArguments.contains t = false := by
    have hall : ∀ u ∈ Item.nonArguments, u = closeMark ∨ (Keyword.ofText? u).isSome = true := by decide
    refine Bool.eq_false_iff.2 fun hc => ?_
    rcases hall t (List.contains_iff_mem.1 hc) with rfl | hsome
    · exact absurd hclose (by decide)
    · simp [hkey] at hsome
  rw [isArgument, hword, hname, hstart, hclose]
  rfl

end Marks

namespace Atom

open Marks

def respelt : Atom → List Text
  | .const head name value => head.text :: name.text.capitalised :: value.toList.map Word.text
  | .define head name => [head.text, name.text.capitalised]
  | .undefine head name => [head.text, name.text.capitalised]
  | a => a.words.map Word.text

/-- The same statement with its name in capitals, or another comment. -/
structure Recast (a b : Atom) : Prop where
  kind : b.kind = a.kind
  texts : a.kind ≠ .comment → b.words.map Word.text = a.respelt

theorem exists_respells_comment {source : Text} {before inner words : List Word} {w closer : Word} (tracker : Tracker)
    (hs : Word.scan 0 source = before ++ w :: (inner ++ closer :: words))
    (hq : Quiet true (inner ++ closer :: words)) (hi : ∀ v ∈ inner, v.text ≠ closeMark) :
    ∃ texts, Respells
      (fixable false none (Rule.CommentContents.onAtom tracker
        (.comment w (source.slice w.stop closer.start) (some closer) closer.stop))) inner texts := by
  have hfile : w.file = 0 := Word.scanFrom_file (by rw [← Word.scan, hs]; simp)
  have hinner := Word.scan_inner hs
  obtain ⟨texts, hr⟩ := @Rule.CommentContents.exists_respells tracker w.stop (source.slice w.stop closer.start)
    (Word.scan 0 (source.slice w.stop closer.start)) (fun v hv => Word.inked_of_mem_scan hv) fun v hv hlead => by
      have hmem : v.shift w.stop ∈ inner := hinner ▸ List.mem_map_of_mem hv
      have hmarks := hq.inner hi _ hmem
      exact isArgument_of_unknown hlead hmarks.1 hmarks.2
  refine ⟨texts, ?_⟩
  rw [Rule.CommentContents.onAtom, fixable_append, fixable_eq_nil (Rule.CommentContents.advice_checkCloser _ _ _),
    List.append_nil, hfile]
  rwa [hinner] at hr

/-- The words of a whole statement with the replacements offered for it, and the statement that they then give in
any other script. -/
theorem Spelt.recast {source : Text} {before group words : List Word} {a : Atom} (h : Spelt source group a)
    (tracker : Tracker) (hs : Word.scan 0 source = before ++ (group ++ words)) (hq : Quiet false (group ++ words)) :
    ∃ texts, Respells (a.repairs tracker .argTypes ++ a.repairs tracker .commentContents) group texts ∧
      ∀ {source' group'}, group'.map Word.text = texts → ∃ b, Spelt source' group' b ∧ Recast a b := by
  have hink : ∀ v ∈ group, v.text.Inked := fun v hv =>
    @Word.inked_of_mem_scan 0 source v (by simp [hs, hv])
  cases h with
  | @mark w hw =>
    refine ⟨[w.text], .kept [w], fun {source' group'} hg => ?_⟩
    obtain ⟨w', rfl, hw'⟩ := List.map_eq_singleton_iff.1 hg
    exact ⟨.sectionMark w', .mark (hw' ▸ hw), rfl, fun _ => hg⟩
  | @alone w k build hw hk =>
    refine ⟨[w.text], ?_, fun {source' group'} hg => ?_⟩
    · obtain rfl | rfl | rfl | rfl | rfl | rfl := Keyword.alone?_cases hk <;> exact .kept [w]
    · obtain ⟨w', rfl, hw'⟩ := List.map_eq_singleton_iff.1 hg
      refine ⟨build w', .alone (hw' ▸ hw) hk, ?_⟩
      obtain rfl | rfl | rfl | rfl | rfl | rfl := Keyword.alone?_cases hk <;> exact ⟨rfl, fun _ => hg⟩
  | @unary w arg k build missing hw hk ha =>
    have hopen : Lead.of w.text ≠ .keyword .openComment := by
      rintro hw'
      obtain rfl : k = .openComment := by simpa [hw] using hw'
      simp [Keyword.unary?] at hk
    have hname := respells_capitals (hink arg (by simp)) ha (hq.not_shaped hopen ha)
    have hagain : ∀ {source' : Text} {group' : List Word} {t : Text}, isArgument t = true →
        group'.map Word.text = [w.text, t] → ∃ w' arg', group' = [w', arg'] ∧ Spelt source' group' (build w' arg') := by
      intro source' group' t ht hg
      obtain ⟨w', rest', rfl, hw', hrest⟩ := List.map_eq_cons_iff.1 hg
      obtain ⟨arg', rfl, harg⟩ := List.map_eq_singleton_iff.1 hrest
      exact ⟨w', arg', rfl, .unary (hw' ▸ hw) hk (harg ▸ ht)⟩
    -- Conditions and chances keep their argument; what is defined or undefined gets capitals.
    rcases Keyword.unary?_cases hk with rfl | rfl | rfl | rfl | rfl
    iterate 3
      · refine ⟨[w.text, arg.text], .kept [w, arg], fun {source' group'} hg => ?_⟩
        obtain ⟨w', arg', rfl, hspelt⟩ := hagain ha hg
        exact ⟨_, hspelt, rfl, fun _ => hg⟩
    iterate 2
      · refine ⟨[w.text, arg.text.capitalised], (Respells.kept [w]).append (hname.append .nil),
          fun {source' group'} hg => ?_⟩
        obtain ⟨w', arg', rfl, hspelt⟩ := hagain ((List.forall₂_cons.1 hname.respelt).1.isArgument ha) hg
        exact ⟨_, hspelt, rfl, fun _ => hg⟩
  | @const w name value hw hn hv =>
    have hname := respells_capitals (hink name (by simp)) hn (hq.not_shaped (by simp [hw]) hn)
    refine ⟨[w.text, name.text.capitalised, value.text],
      (Respells.kept [w]).append (hname.append (.kept [value])), fun {source' group'} hg => ?_⟩
    obtain ⟨w', rest', rfl, hw', hrest⟩ := List.map_eq_cons_iff.1 hg
    obtain ⟨name', rest', rfl, hname', hrest⟩ := List.map_eq_cons_iff.1 hrest
    obtain ⟨value', rfl, hvalue⟩ := List.map_eq_singleton_iff.1 hrest
    have hn' := (List.forall₂_cons.1 hname.respelt).1.isArgument hn
    exact ⟨.const w' name' (some value'), .const (hw' ▸ hw) (hname' ▸ hn') (hvalue ▸ hv), rfl, fun _ => hg⟩
  | @command w entry args hw hl ha =>
    refine ⟨(w :: args).map Word.text, .kept (w :: args), fun {source' group'} hg => ?_⟩
    obtain ⟨w', args', rfl, hw', hargs⟩ := List.map_eq_cons_iff.1 hg
    refine ⟨.command w' args', .command (hw' ▸ hw) ?_ ?_, rfl, fun _ => hg⟩
    · rw [← hl]
      simpa using congrArg List.length hargs
    · intro arg' harg'
      have hmem : arg'.text ∈ args.map Word.text := hargs ▸ List.mem_map_of_mem harg'
      obtain ⟨arg, harg, htext⟩ := List.mem_map.1 hmem
      exact htext ▸ ha arg harg
  | @comment w inner closer hw hi hc =>
    have hgoes : goesOn false w.text = true := by
      rw [Lead.text_of_openComment hw]
      decide
    rw [List.cons_append, List.append_assoc] at hs hq
    obtain ⟨texts, hinner⟩ := exists_respells_comment tracker hs (hgoes ▸ hq.2) hi
    have hall := (Respells.kept [w]).append (hinner.append (.kept [closer]))
    rw [List.append_nil] at hall
    refine ⟨w.text :: (texts ++ [closer.text]), hall, fun {source' group'} hg => ?_⟩
    obtain ⟨w', rest', rfl, hw', hrest⟩ := List.map_eq_cons_iff.1 hg
    obtain ⟨inner', last', rfl, htexts, hlast⟩ := List.map_eq_append_iff.1 hrest
    obtain ⟨closer', rfl, hc'⟩ := List.map_eq_singleton_iff.1 hlast
    refine ⟨_, .comment (hw' ▸ hw) (fun v' hv' => ?_) (hc' ▸ hc), rfl, fun hk => absurd rfl hk⟩
    have hmem : v'.text ∈ texts := htexts ▸ List.mem_map_of_mem hv'
    obtain ⟨v, hv, hsame⟩ := hinner.respelt_of_mem hmem
    exact hsame.ne_closeMark (hi v hv)

theorem Spelt.word_notMem {source : Text} {group : List Word} {a : Atom} (h : Spelt source group a) {name : Word}
    {args : List Word} {entry : Entry} (ha : a = .command name args) (hf : Catalog.find? name.text = some entry) :
    .word ∉ entry.args := by
  cases h with
  | command hw hl _ =>
    cases ha
    intro hword
    have hkey := (Catalog.spelling_of_find? hf).2.2 hword
    rw [Lead.ofText?_eq_none (by simp [hw]) (by simp [hw])] at hkey
    simp at hkey
  | alone hw hk => obtain rfl | rfl | rfl | rfl | rfl | rfl := Keyword.alone?_cases hk <;> cases ha
  | unary hw hk _ => obtain rfl | rfl | rfl | rfl | rfl := Keyword.unary?_cases hk <;> cases ha
  | mark | const | comment => cases ha

theorem Spelt.quiet {source : Text} {before group words : List Word} {a : Atom} (h : Spelt source group a)
    (hs : Word.scan 0 source = before ++ (group ++ words)) (hq : Quiet false (group ++ words)) :
    Quiet false words := by
  obtain ⟨w, args, rfl, hread⟩ := h.reading
  have hquiet := ((hread words).legible hs hq (by simp [Item.sound])).2.2
  rwa [List.drop_left] at hquiet

theorem AllSpelt.quiet {source : Text} {before us vs : List Word} {atoms : List Atom} (h : AllSpelt source us atoms)
    (hs : Word.scan 0 source = before ++ (us ++ vs)) (hq : Quiet false (us ++ vs)) : Quiet false vs := by
  induction h generalizing before with
  | nil => exact hq
  | @cons group words a atoms head _ ih =>
    rw [List.append_assoc] at hs hq
    exact @ih (before ++ group) (by rw [hs, List.append_assoc]) (head.quiet hs hq)

theorem AllSpelt.recast {source : Text} {before words : List Word} {atoms : List Atom}
    (h : AllSpelt source words atoms) (hs : Word.scan 0 source = before ++ words) (hq : Quiet false words)
    {c d : Checker} (hc : c.rules = Rule.defaults) {found : List Diagnostic}
    (hw : c.writeItems (atoms.map Item.sound) = .ok (d, found)) (he : ∀ x ∈ found, x.isError = false) :
    ∃ texts, Respells (fixable false none found) words texts ∧
      ∀ {source' words'}, words'.map Word.text = texts →
        ∃ atoms', AllSpelt source' words' atoms' ∧ List.Forall₂ Recast atoms atoms' := by
  induction h generalizing before c found with
  | nil =>
    simp only [List.map_nil, Checker.writeItems, pure_eq_ok, Prod.mk.injEq] at hw
    rw [← hw.2]
    refine ⟨[], .nil, fun {source' words'} hw' => ?_⟩
    rw [List.map_eq_nil_iff.1 hw']
    exact ⟨[], .nil, .nil⟩
  | @cons group words a atoms head tail ih =>
    rw [List.map_cons] at hw
    obtain ⟨c', problems, more, hitem, hmore, rfl⟩ := Checker.writeItems_cons.1 hw
    rw [List.forall_mem_append] at he
    obtain ⟨first, hfirst, hagain⟩ := head.recast c.tracker hs hq
    rw [← Checker.fixable_writeItem head.word_notMem hc hitem he.1] at hfirst
    obtain ⟨rest, hrest, hall⟩ := @ih (before ++ group) (by rw [hs, List.append_assoc]) (head.quiet hs hq) c'
      ((Checker.rules_of_writeItem hitem).trans hc) more hmore he.2
    refine ⟨first ++ rest, ?_, fun {source' words'} hw' => ?_⟩
    · rw [fixable_append]
      exact hfirst.append hrest
    · obtain ⟨group', words', rfl, hg, hw'⟩ := List.map_eq_append_iff.1 hw'
      obtain ⟨b, hb, hab⟩ := @hagain source' group' hg
      obtain ⟨atoms', hatoms, hforall⟩ := @hall source' words' hw'
      exact ⟨b :: atoms', .cons hb hatoms, .cons hab hforall⟩

theorem AllSpelt.of_take_eq {source source' : Text} {words : List Word} {atoms : List Atom}
    (h : AllSpelt source words atoms) (ht : ∀ w ∈ words, source'.take w.stop = source.take w.stop) :
    AllSpelt source' words atoms := by
  induction h with
  | nil => exact .nil
  | cons head _ ih =>
    refine .cons ?_ (ih fun w hw => ht w (List.mem_append_right _ hw))
    cases head with
    | mark hw => exact .mark hw
    | alone hw hk => exact .alone hw hk
    | unary hw hk ha => exact .unary hw hk ha
    | const hw hn hv => exact .const hw hn hv
    | command hw hl ha => exact .command hw hl ha
    | @comment w inner closer hw hi hc =>
      have hclose := ht closer (by simp)
      have hcut : source.slice w.stop closer.start = source'.slice w.stop closer.start := by
        have hle : closer.start ≤ closer.stop := Nat.le_add_right _ _
        rw [Text.slice, Text.slice, ← Nat.min_eq_left hle, ← List.take_take, ← List.take_take, hclose]
      rw [hcut]
      exact .comment hw hi hc

end Atom

theorem Atom.exists_header (atoms : List Atom) :
    ∃ header body, atoms = header ++ body ∧ (∀ a ∈ header, a.kind = .comment) ∧
      ∀ a ∈ body.head?, a.kind ≠ .comment := by
  induction atoms with
  | nil => exact ⟨[], [], rfl, by simp, by simp⟩
  | cons a atoms ih =>
    obtain ⟨header, body, rfl, hheader, hbody⟩ := ih
    by_cases ha : a.kind = .comment
    · exact ⟨a :: header, body, rfl, List.forall_mem_cons.2 ⟨ha, hheader⟩, hbody⟩
    · exact ⟨[], a :: (header ++ body), rfl, by simp, by simpa using ha⟩

theorem Scope.levelOf_header {header body : List Atom} (hh : ∀ a ∈ header, a.kind = .comment)
    (hb : ∀ a ∈ body.head?, a.kind ≠ .comment) (level : Level) :
    levelOf level (header ++ body) = levelOf level header := by
  have hbody : (body.takeWhile fun a => a.kind == .comment) = [] := by
    cases body with
    | nil => rfl
    | cons a body => simp [hb a rfl]
  have hheader : (header.takeWhile fun a => a.kind == .comment) = header := by
    simpa [List.takeWhile_eq_self_iff] using hh
  rw [levelOf, levelOf, headerLines, headerLines, List.takeWhile_append_of_pos (by simpa using hh), hbody, hheader,
    List.append_nil]

namespace Checker

theorem writeItems_append {c d : Checker} {xs ys : List Item} {found : List Diagnostic}
    (h : c.writeItems (xs ++ ys) = .ok (d, found)) :
    ∃ c' first rest, c.writeItems xs = .ok (c', first) ∧ c'.writeItems ys = .ok (d, rest) ∧
      found = first ++ rest := by
  induction xs generalizing c found with
  | nil => exact ⟨c, [], found, rfl, h, rfl⟩
  | cons x xs ih =>
    obtain ⟨c₁, problems, more, hx, hmore, rfl⟩ := writeItems_cons.1 h
    obtain ⟨c', first, rest, hxs, hys, rfl⟩ := ih hmore
    exact ⟨c', problems ++ first, rest, writeItems_cons.2 ⟨c₁, problems, first, hx, hxs, rfl⟩, hys,
      (List.append_assoc ..).symm⟩

theorem fixable_header {c d : Checker} (hc : c.rules = Rule.defaults) (hn : c.tracker.nesting = []) {atoms : List Atom}
    (ha : ∀ a ∈ atoms, a.kind = .comment) {found : List Diagnostic}
    (h : c.writeItems (atoms.map Item.sound) = .ok (d, found)) (he : ∀ x ∈ found, x.isError = false) :
    fixable false none found = [] ∧ d.rules = Rule.defaults := by
  induction atoms generalizing c found with
  | nil =>
    simp only [List.map_nil, writeItems, pure_eq_ok, Prod.mk.injEq] at h
    rw [← h.2, ← h.1]
    exact ⟨rfl, hc⟩
  | cons a atoms ih =>
    rw [List.map_cons] at h
    obtain ⟨c', problems, more, hitem, hmore, rfl⟩ := writeItems_cons.1 h
    rw [List.forall_mem_append] at he
    obtain ⟨ha, hatoms⟩ := List.forall_mem_cons.1 ha
    have hc' : c'.rules = Rule.defaults := (rules_of_writeItem hitem).trans hc
    cases a with
    | comment opener content closer stop =>
      have hfirst := fixable_writeItem (by simp) hc hitem he.1
      obtain ⟨watches, found, -, rfl, -⟩ := writeItem_eq_ok.1 hitem
      obtain ⟨hrest, hd⟩ := ih hc' hn hatoms hmore he.2
      rw [fixable_append, hrest, hfirst, List.append_nil]
      exact ⟨Rule.CommentContents.fixable_onAtom hn _, hd⟩
    | _ => simp [Atom.kind] at ha

/-- A script without errors, its words with all the replacements offered, and the script that they give: the same
statements with names in capitals, for the same version of the game. -/
theorem exists_recast {c d : Checker} (hc : c.rules = Rule.defaults) (hn : c.tracker.nesting = []) {source : Text}
    (hq : Marks.Quiet false (Word.scan 0 source)) {found : List Diagnostic}
    (h : c.writeItems (Item.parse 0 source) = .ok (d, found)) (he : ∀ x ∈ found, x.isError = false) :
    ∃ texts atoms, Respells (fixable false none found) (Word.scan 0 source) texts ∧
      (Word.scan 0 (splice source 0 (fixable false none found))).map Word.text = texts ∧
      Item.parse 0 source = (Atom.parse 0 source).map Item.sound ∧
      Item.parse 0 (splice source 0 (fixable false none found)) = atoms.map Item.sound ∧
      List.Forall₂ Atom.Recast (Atom.parse 0 source) atoms ∧
      ∀ level, Scope.levelOf level atoms = Scope.levelOf level (Atom.parse 0 source) := by
  obtain ⟨atoms, hall⟩ := @allSpelt_of_writeItems c d source [] (Word.scan 0 source) found rfl hq h he
  have hparse : Item.parse 0 source = atoms.map Item.sound := hall.readFrom_eq
  have hatoms : Atom.parse 0 source = atoms := Atom.parse_eq_of_sound hparse
  -- The comments at the top offer nothing and settle the version, so only the rest has to be recast.
  obtain ⟨header, body, rfl, hheader, hbody⟩ := Atom.exists_header atoms
  rw [hparse, List.map_append] at h
  obtain ⟨c', onHeader, onBody, hfirst, hsecond, rfl⟩ := writeItems_append h
  rw [List.forall_mem_append] at he
  obtain ⟨hnone, hc'⟩ := fixable_header hc hn hheader hfirst he.1
  rw [fixable_append, hnone, List.nil_append]
  obtain ⟨us, vs, hscan, hus, hvs⟩ := hall.split
  rw [hscan] at hq
  obtain ⟨texts, hrespells, hagain⟩ := hvs.recast hscan (@Atom.AllSpelt.quiet source [] us vs header hus hscan hq)
    hc' hsecond he.2
  obtain ⟨vs', hscan', htexts, htake⟩ := scan_splice hscan hrespells
  obtain ⟨body', hvs', hforall⟩ := @hagain (splice source 0 (fixable false none onBody)) vs' htexts
  have hall' := (hus.of_take_eq htake).append hvs'
  rw [← hscan'] at hall'
  have hbody' : ∀ a ∈ body'.head?, a.kind ≠ .comment := by
    cases hforall with
    | nil => simp
    | cons hab _ => simpa [hab.kind] using hbody
  refine ⟨us.map Word.text ++ texts, header ++ body', ?_, ?_, ?_, hall'.readFrom_eq, ?_, fun level => ?_⟩
  · rw [hscan]
    exact (Respells.kept us).append hrespells
  · rw [hscan', List.map_append, htexts]
  · rw [hparse, hatoms]
  · rw [hatoms]
    refine List.rel_append (List.forall₂_same.2 fun a ha => ?_) hforall
    exact ⟨rfl, fun hk => absurd (hheader a ha) hk⟩
  · rw [hatoms, Scope.levelOf_header hheader hbody', Scope.levelOf_header hheader hbody]

end Checker

end MapScript
