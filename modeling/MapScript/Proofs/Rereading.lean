import MapScript.Proofs.Closing
import MapScript.Proofs.Statements

/-! A layout read again: where a script has no flaws, the layout has the atoms of the script in order, with those that
close what was not closed. Only a comment in one word may leave a stray mark behind. -/

namespace MapScript

open Item (openMark closeMark sound flawed)

namespace Atom

/-- Words that are read as atoms of these kinds, whatever comes after them. Stray words do not count. -/
def Says (source : Text) (words : List Word) (kinds : List Atom.Kind) : Prop :=
  ∀ more, ∃ items, Item.readFrom source 0 (words ++ more) = items ++ Item.readFrom source 0 more ∧
    (items.map fun item => item.atom.kind).filter (· != .other) = kinds

namespace Says

variable {source : Text} {us vs : List Word} {ks ls : List Atom.Kind}

theorem nil : Says source [] [] := fun _ => ⟨[], rfl, rfl⟩

theorem append (hu : Says source us ks) (hv : Says source vs ls) : Says source (us ++ vs) (ks ++ ls) := by
  intro more
  obtain ⟨items, hitems, hks⟩ := hu (vs ++ more)
  obtain ⟨items', hitems', hls⟩ := hv more
  refine ⟨items ++ items', ?_, ?_⟩
  · rw [List.append_assoc, hitems, hitems', List.append_assoc]
  · rw [List.map_append, List.filter_append, hks, hls]

theorem of_spelt {words : List Word} {a : Atom} (h : Spelt source words a) (hk : a.kind ≠ .other) :
    Says source words [a.kind] := by
  intro more
  obtain ⟨w, args, rfl, hread⟩ := h.reading
  refine ⟨[sound a], ?_, by simp [sound, hk]⟩
  rw [List.cons_append, Item.readFrom_cons (hread more), List.drop_left, List.singleton_append]

end Says

theorem exists_spoken_comment (opener : Word) (content : Text) (closer : Option Word) (stop : Nat) :
    ∃ inner, (Atom.comment opener content closer stop).spoken = openMark :: (inner ++ [closeMark]) ∧
      ∀ x ∈ inner, x = Text.ofString "*" ∨ x ∈ Word.texts content := by
  refine ⟨_, rfl, fun x hx => ?_⟩
  rcases List.mem_append.1 hx with hx | hx
  · cases hlines : Text.feedLines content with
    | nil => simp [hlines, Word.texts, Word.scan, Word.scanFrom, Word.ofRun] at hx
    | cons line lines =>
      rw [hlines] at hx
      exact .inr (Word.mem_texts_of_line (by simp [hlines]) hx)
  · obtain ⟨line, hline, hx⟩ := List.mem_flatMap.1 hx
    refine (Layout.mem_texts_commentLine hx).imp_right fun hx => ?_
    exact Word.mem_texts_of_line (List.mem_of_mem_tail (Layout.mem_of_mem_dropBlankEnd hline)) hx

theorem Legible.exists_spelt {a : Atom} (h : a.Legible) {source : Text} {words : List Word}
    (hw : words.map Word.text = a.spoken) : ∃ b, Spelt source words b ∧ b.kind = a.kind := by
  cases h with
  | @mark w hlead _ =>
    obtain ⟨v, rfl, hv⟩ := List.map_eq_singleton_iff.1 hw
    exact ⟨.sectionMark v, .mark (hv ▸ hlead), rfl⟩
  | @alone w k build hlead hk =>
    rw [Atom.spoken_eq_normalTexts (Keyword.words_of_alone? hk w).1, Layout.normal_head hlead hk] at hw
    obtain ⟨v, rfl, hv⟩ := List.map_eq_singleton_iff.1 hw
    refine ⟨build v, .alone (hv ▸ Lead.of_spelling k) hk, ?_⟩
    cases k <;> simp only [Keyword.alone?, Option.some.injEq, reduceCtorEq] at hk <;> subst hk <;> rfl
  | @unary w arg k build missing hlead hk ha _ =>
    have hlower := Lead.lower_of_keyword hlead
    have hspoken : (build w arg).spoken = [k.spelling, arg.text] := by
      rw [Atom.spoken_eq_normalTexts (Keyword.words_of_unary? hk w arg).1]
      cases k <;> simp only [Keyword.unary?, Option.some.injEq, Prod.mk.injEq, reduceCtorEq] at hk <;>
        obtain ⟨rfl, rfl⟩ := hk <;>
        simp [Atom.normalTexts, Atom.head, Atom.tail, Atom.kind, Atom.Kind.isKeyword, hlower]
    rw [hspoken] at hw
    obtain ⟨v, vs, rfl, hv, hvs⟩ := List.map_eq_cons_iff.1 hw
    obtain ⟨u, rfl, hu⟩ := List.map_eq_singleton_iff.1 hvs
    refine ⟨build v u, .unary (hv ▸ Lead.of_spelling k) hk (hu ▸ ha), ?_⟩
    cases k <;> simp only [Keyword.unary?, Option.some.injEq, Prod.mk.injEq, reduceCtorEq] at hk <;>
      obtain ⟨rfl, rfl⟩ := hk <;> rfl
  | @const w name value hlead hn _ hv _ =>
    have hlower := Lead.lower_of_keyword hlead
    have hspoken : (Atom.const w name (some value)).spoken = [Keyword.const.spelling, name.text, value.text] := by
      simp [Atom.spoken, Atom.normalTexts, Atom.head, Atom.tail, Atom.kind, Atom.Kind.isKeyword, hlower]
    rw [hspoken] at hw
    obtain ⟨u, us, rfl, hu, hus⟩ := List.map_eq_cons_iff.1 hw
    obtain ⟨m, ms, rfl, hm, hms⟩ := List.map_eq_cons_iff.1 hus
    obtain ⟨x, rfl, hx⟩ := List.map_eq_singleton_iff.1 hms
    exact ⟨.const u m (some x), .const (hu ▸ Lead.of_spelling .const) (hm ▸ hn) (hx ▸ hv), rfl⟩
  | @command w entry args hlead _ hl ha _ =>
    have hspoken : (Atom.command w args).spoken = w.text :: args.map Word.text := rfl
    rw [hspoken] at hw
    obtain ⟨v, vs, rfl, hv, hvs⟩ := List.map_eq_cons_iff.1 hw
    refine ⟨.command v vs, .command (hv ▸ hlead) ?_ fun u hu => ?_, rfl⟩
    · rw [← hl, ← List.length_map (f := Word.text), hvs, List.length_map]
    · obtain ⟨arg, harg, ht⟩ := List.mem_map.1 (hvs ▸ List.mem_map_of_mem hu)
      exact ht ▸ ha arg harg
  | @comment opener closer content stop hmarks =>
    obtain ⟨inner, hspoken, hinner⟩ := exists_spoken_comment opener content (some closer) stop
    rw [hspoken] at hw
    obtain ⟨v, vs, rfl, hv, hvs⟩ := List.map_eq_cons_iff.1 hw
    obtain ⟨us, ms, rfl, hus, hms⟩ := List.map_eq_append_iff.1 hvs
    obtain ⟨m, rfl, hm⟩ := List.map_eq_singleton_iff.1 hms
    refine ⟨_, .comment (hv ▸ Lead.of_spelling .openComment) (fun u hu hc => ?_) hm, rfl⟩
    rcases hinner u.text (hus ▸ List.mem_map_of_mem hu) with hx | hx
    · rw [hc] at hx
      exact absurd hx (by decide)
    · obtain ⟨y, hy, ht⟩ := List.mem_map.1 hx
      exact hmarks y hy (ht.trans hc)

/-- An atom of a script without flaws: it can be read again from its words, unless it is a comment in one word that
holds a closing mark. -/
def Whole (a : Atom) : Prop := a.Legible ∨ ∃ opener closer stop, a = .comment opener closeMark closer stop

theorem Whole.kind_ne_other {a : Atom} (h : a.Whole) : a.kind ≠ .other := by
  rcases h with h | ⟨opener, closer, stop, rfl⟩
  · exact h.kind_ne_other
  · simp [Atom.kind]

/-- A closing mark between marks ends the comment, and the mark after it is a stray word. -/
theorem Says.knot {source : Text} {v u m : Word} (hv : v.text = openMark) (hu : u.text = closeMark)
    (hm : m.text = closeMark) : Says source [v, u, m] [.comment] := by
  intro more
  have hcomment := @Item.Reading.closed source v [] u (m :: more) (hv ▸ Lead.of_spelling .openComment) (by simp) hu
  have hstray := @Item.Reading.unknown source m more (hm ▸ Marks.lead_closeMark)
  refine ⟨[sound (.comment v (source.slice v.stop u.start) (some u) u.stop), flawed (.other m) .unknownWord], ?_, rfl⟩
  exact (Item.readFrom_cons hcomment).trans (congrArg (List.cons _) (Item.readFrom_cons hstray))

theorem Whole.reread {a : Atom} (h : a.Whole) {source : Text} {words : List Word}
    (hw : words.map Word.text = a.spoken) : Says source words [a.kind] := by
  rcases h with h | ⟨opener, closer, stop, rfl⟩
  · obtain ⟨b, hb, hk⟩ := h.exists_spelt hw
    rw [← hk]
    exact .of_spelt hb (hk ▸ h.kind_ne_other)
  · have hspoken : (Atom.comment opener closeMark closer stop).spoken = [openMark, closeMark, closeMark] := rfl
    rw [hspoken] at hw
    obtain ⟨v, vs, rfl, hv, hvs⟩ := List.map_eq_cons_iff.1 hw
    obtain ⟨u, us, rfl, hu, hus⟩ := List.map_eq_cons_iff.1 hvs
    obtain ⟨m, rfl, hm⟩ := List.map_eq_singleton_iff.1 hus
    exact .knot hv hu hm

theorem says_of_whole {atoms : List Atom} (h : ∀ a ∈ atoms, a.Whole) {source : Text} {words : List Word}
    (hw : words.map Word.text = atoms.flatMap Atom.spoken) : Says source words (atoms.map Atom.kind) := by
  induction atoms generalizing words with
  | nil =>
    obtain rfl : words = [] := List.map_eq_nil_iff.1 hw
    exact .nil
  | cons a atoms ih =>
    obtain ⟨us, vs, rfl, hu, hv⟩ := List.map_eq_append_iff.1 hw
    exact ((h a (by simp)).reread hu).append (ih (fun b hb => h b (by simp [hb])) hv)

theorem whole_inlineComment {w : Word} (hw : w.text.Inked) : (Item.inlineComment w).Whole := by
  unfold Item.inlineComment
  generalize hcontent : w.text.slice 2 (w.text.length - 2) = content
  by_cases hmark : content = closeMark
  · exact .inr ⟨_, _, _, by rw [hmark]⟩
  · refine .inl (.comment fun v hv he => ?_)
    have hmem : closeMark ∈ Word.texts content := he ▸ List.mem_map_of_mem hv
    have hsub : ∀ g ∈ content, g.isBlank = false := fun g hg => hw.2 g (by
      rw [← hcontent] at hg
      exact List.mem_of_mem_take (List.mem_of_mem_drop hg))
    by_cases hempty : content = []
    · rw [hempty] at hmem
      exact absurd hmem (by decide)
    · rw [Word.texts_inked ⟨hempty, hsub⟩, List.mem_singleton] at hmem
      exact hmark hmem.symm

theorem whole_of_mem_parse {source : Text} {item : Item} (h : item ∈ Item.parse 0 source) (hf : item.flaws = []) :
    item.atom.Whole := by
  obtain ⟨before, w, rest, used, hs, -, hr⟩ := Item.reading_of_mem (fun _ => True) trivial
    (fun _ _ _ => .inl trivial) h
  have hink : ∀ v ∈ w :: rest, v.text.Inked := fun v hv =>
    Word.inked_of_mem_scan (hs ▸ List.mem_append_right before hv)
  cases hr with
  | mark hw => exact .inl (.mark hw (hink w (by simp)))
  | alone hw hk => exact .inl (.alone hw hk)
  | unary hw hk ha => exact .inl (.unary hw hk ha (hink _ (by simp)))
  | const hw hn hv => exact .inl (.const hw hn (hink _ (by simp)) hv (hink _ (by simp)))
  | command hw hl ha =>
    exact .inl (.command hw (hink w (by simp)) hl ha fun arg harg => hink arg (by simp [harg]))
  | closed hw hi hc =>
    refine .inl (.comment fun v hv he => ?_)
    have htexts := Word.scan_between hs
    obtain ⟨u, hu, ht⟩ := List.mem_map.1 (htexts ▸ List.mem_map_of_mem hv)
    exact hi u hu (ht.trans he)
  | inline hw => exact whole_inlineComment (hink w (by simp))
  | starved | valueless | nameless | unclosed | short | unknown => simp [flawed] at hf

end Atom

namespace Layout

open Node (allAtoms allWritten)

namespace Trail

theorem all_join {t : Trail} (ht : t.stray = none) (word : Text) (words : List Text) :
    (t.join word words).all = t.all ++ word :: words := by
  simp [join, all, ht]

theorem stray_tell {a : Atom} (hk : a.kind ≠ .other) (t : Trail) : (t.tell a).stray = none := by
  rw [tell, if_neg hk, stray_say]

def Follows (ns : List Node) : Prop :=
  ∀ t : Trail, t.stray = none →
    (t.nodes ns).stray = none ∧ (t.nodes ns).all = t.all ++ (allWritten ns).flatMap Atom.spoken

theorem follows_chances {ps : List (Atom × List Node)} (hk : ∀ p ∈ ps, p.1.kind = .percentChance)
    (hr : ∀ p ∈ ps, p.1.IsRead) (hp : ∀ p ∈ ps, Follows p.2) (t : Trail) (ht : t.stray = none) :
    (t.chances (ps.map fun p => .chance p.1 p.2)).stray = none ∧
      (t.chances (ps.map fun p => .chance p.1 p.2)).all
        = t.all ++ (allWritten (ps.map fun p => .chance p.1 p.2)).flatMap Atom.spoken := by
  induction ps generalizing t with
  | nil => exact ⟨ht, by simp [chances, allWritten]⟩
  | cons p ps ih =>
    have hhead := spoken_percentChance (hr p (by simp)) (hk p (by simp))
    obtain ⟨hstray, hall⟩ := hp p (by simp) (t.join "percent_chance" (p.1.tail.map Word.text)) rfl
    obtain ⟨hstray', hall'⟩ := ih (fun q hq => hk q (by simp [hq])) (fun q hq => hr q (by simp [hq]))
      (fun q hq => hp q (by simp [hq])) _ hstray
    rw [List.map_cons, chances]
    refine ⟨hstray', ?_⟩
    rw [hall', hall, all_join ht, ← hhead]
    simp [allWritten, Node.written]

theorem follows_nodes {ns : List Node} (hg : Grown ns) (hr : ∀ a ∈ allAtoms ns, a.IsRead ∧ a.kind ≠ .other) :
    Follows ns := by
  induction hg with
  | nil => exact fun t ht => ⟨ht, by simp [nodes, allWritten]⟩
  | @single a rest _ ih =>
    simp only [allAtoms, Node.atoms, List.forall_mem_append, List.forall_mem_singleton] at hr
    intro t _
    obtain ⟨hstray, hall⟩ := ih hr.2 (t.tell a) (stray_tell hr.1.2 t)
    refine ⟨hstray, ?_⟩
    rw [nodes, node, hall, all_tell]
    simp [allWritten, Node.written]
  | @block opener body closer rest _ _ hc _ ihb ih =>
    simp only [allAtoms, Node.atoms, List.forall_mem_append, List.forall_mem_cons] at hr
    obtain ⟨⟨hopener, hbody, hcloser⟩, hrest⟩ := hr
    have hclose := spoken_brace (fun c hm => (hcloser c (Option.mem_toList.2 hm)).1) hc
    intro t _
    obtain ⟨-, hin⟩ := ihb hbody (t.tell opener) (stray_tell hopener.2 t)
    obtain ⟨hstray, hall⟩ := ih hrest ((nodes (t.tell opener) body).say ["\x7d"]) rfl
    refine ⟨hstray, ?_⟩
    rw [nodes, node, hall, all_say, hin, all_tell, ← hclose]
    simp [allWritten, Node.written]
  | @condition opener body closer rest _ _ hc _ ihb ih =>
    simp only [allAtoms, Node.atoms, List.forall_mem_append, List.forall_mem_cons] at hr
    obtain ⟨⟨hopener, hbody, hcloser⟩, hrest⟩ := hr
    intro t _
    obtain ⟨hstray, hin⟩ := ihb hbody (t.tell opener) (stray_tell hopener.2 t)
    cases closer with
    | none =>
      obtain ⟨hstray', hall⟩ := ih hrest _ hstray
      refine ⟨hstray', ?_⟩
      rw [nodes, node, Option.elim_none, id, hall, hin, all_tell]
      simp [allWritten, Node.written]
    | some c =>
      have hend := (hcloser c (by simp)).2
      obtain ⟨hstray', hall⟩ := ih hrest _ (stray_tell hend (nodes (t.tell opener) body))
      refine ⟨hstray', ?_⟩
      rw [nodes, node, Option.elim_some, hall, all_tell, hin, all_tell]
      simp [allWritten, Node.written]
  | @random opener leading closer rest chances _ _ hk _ hc _ ihl ihp ih =>
    simp only [allAtoms, Node.atoms, Node.allAtoms_chances, List.forall_mem_append, List.forall_mem_cons] at hr
    obtain ⟨⟨hopener, hleading, hchances, hcloser⟩, hrest⟩ := hr
    have hclose := spoken_end (fun c hm => (hcloser c (Option.mem_toList.2 hm)).1) hc
    intro t _
    obtain ⟨hstray, hin⟩ := ihl hleading (t.tell opener) (stray_tell hopener.2 t)
    obtain ⟨hstray', hin'⟩ := follows_chances hk
      (fun p hp => (hchances _ (List.mem_flatMap.2 ⟨p, hp, by simp⟩)).1)
      (fun p hp => ihp p hp fun a ha => hchances _ (List.mem_flatMap.2 ⟨p, hp, by simp [ha]⟩)) _ hstray
    -- No stray word is left for the end of the group to be joined to.
    obtain ⟨hstray'', hall⟩ := ih hrest _ (rfl : (join _ "end_random" []).stray = none)
    refine ⟨hstray'', ?_⟩
    rw [nodes, node, hall, all_join hstray', hin', hin, all_tell, ← hclose]
    simp [allWritten, Node.written]

end Trail

/-- A layout of a script without flaws is read as atoms of the kinds that were written, stray marks apart. -/
theorem kinds_format {o : Options} (ho : o.Usual) {source : Text}
    (hf : ∀ item ∈ Item.parse 0 source, item.flaws = []) :
    ((Atom.parse 0 (format o source)).map Atom.kind).filter (· != .other)
      = (allWritten (Node.group (Atom.parse 0 source))).map Atom.kind := by
  have hgrown := Node.grown_group (Atom.parse 0 source)
  have hwhole : ∀ a ∈ allAtoms (Node.group (Atom.parse 0 source)), a.Whole := by
    rw [Node.allAtoms_group]
    intro a ha
    obtain ⟨item, hi, rfl⟩ := List.mem_map.1 ha
    exact Atom.whole_of_mem_parse hi (hf item hi)
  have hread : ∀ a ∈ allAtoms (Node.group (Atom.parse 0 source)), a.IsRead ∧ a.kind ≠ .other := by
    intro a ha
    refine ⟨?_, (hwhole a ha).kind_ne_other⟩
    rw [Node.allAtoms_group] at ha
    exact Atom.isRead_of_mem_parse ha
  have htexts : (Word.scan 0 (format o source)).map Word.text
      = (allWritten (Node.group (Atom.parse 0 source))).flatMap Atom.spoken :=
    (texts_format ho source).trans (Trail.follows_nodes hgrown hread {} rfl).2
  have hwritten : ∀ a ∈ allWritten (Node.group (Atom.parse 0 source)), a.Whole := by
    intro a ha
    rcases (Node.filled_written hgrown).mem ha with rfl | rfl | ha
    · exact .inl (.alone (Lead.of_spelling .closeBrace) rfl)
    · exact .inl (.alone (Lead.of_spelling .endRandom) rfl)
    · exact hwhole a ha
  obtain ⟨items, hitems, hkinds⟩ := @Atom.says_of_whole _ hwritten (format o source) _ htexts []
  rw [List.append_nil] at hitems
  rw [Atom.parse, Item.parse, hitems, ← hkinds]
  simp [Item.readFrom, Function.comp_def]

end Layout

end MapScript
