import Mathlib.Data.List.MinMax
import MapScript.Proofs.LayoutWords

/-! A layout keeps words apart, but for stray words at the end of what comes before a chance or before the end
of a random group: these run into what is written next. -/

namespace MapScript

def Atom.plainTexts (atoms : List Atom) : List Text :=
  (atoms.filter fun a => a.kind != .comment).flatMap Atom.normalTexts

namespace Layout

namespace Node

mutual
/-- Whether a construct ends with a stray word, which nothing is written after. -/
def endsStray : Node → Bool
  | .single a => a.kind == .other
  | .condition _ body none => lastEndsStray body
  | _ => false

def lastEndsStray : List Node → Bool
  | [] => false
  | n :: rest => if rest.isEmpty then endsStray n else lastEndsStray rest
end

mutual
/-- Whether a stray word comes right before a chance or the end of a random group. -/
def crowds : Node → Bool
  | .single _ => false
  | .block _ body _ => anyCrowds body
  | .condition _ body _ => anyCrowds body
  | .random _ leading chances _ => lastEndsStray leading || anyCrowds leading || anyCrowds chances
  | .chance _ body => lastEndsStray body || anyCrowds body

def anyCrowds : List Node → Bool
  | [] => false
  | n :: rest => crowds n || anyCrowds rest
end

end Node

namespace Trail

open Node

section Stray

variable {t : Trail}

@[simp] theorem stray_say (words : List Text) : (t.say words).stray = none := rfl

@[simp] theorem stray_join (w : Text) (words : List Text) : (t.join w words).stray = none := rfl

@[simp] theorem all_say (words : List Text) : (t.say words).all = t.all ++ words := by simp [say, all]

@[simp] theorem all_leave (w : Text) : (t.leave w).all = t.all ++ [w] := rfl

theorem all_tell (a : Atom) : (t.tell a).all = t.all ++ a.spoken := by
  by_cases hk : a.kind = .other
  · cases a <;> simp [Atom.kind] at hk
    rfl
  · rw [tell, if_neg hk, all_say]

@[simp] theorem glued_say (words : List Text) : (t.say words).glued = t.glued := rfl

@[simp] theorem glued_leave (w : Text) : (t.leave w).glued = t.glued := rfl

@[simp] theorem glued_tell (a : Atom) : (t.tell a).glued = t.glued := by
  unfold tell
  split <;> rfl

@[simp] theorem isSome_stray_tell (a : Atom) : (t.tell a).stray.isSome = (a.kind == .other) := by
  unfold tell
  split
  · next h => simp [leave, h]
  · next h => simp [say, h]

@[simp] theorem isEmpty_glued_join (w : Text) (words : List Text) :
    (t.join w words).glued.isEmpty = (t.glued.isEmpty && !t.stray.isSome) := by
  cases h : t.stray <;> simp [join, h]

end Stray

theorem isSome_stray_nodes {ns : List Node} (hg : Grown ns) (t : Trail) :
    (t.nodes ns).stray.isSome = if ns.isEmpty then t.stray.isSome else lastEndsStray ns := by
  -- What the last construct leaves is all that counts.
  have hcons : ∀ {n : Node} {rest : List Node} {t : Trail}, (t.node n).stray.isSome = endsStray n →
      (∀ t : Trail, (t.nodes rest).stray.isSome = if rest.isEmpty then t.stray.isSome else lastEndsStray rest) →
      (t.nodes (n :: rest)).stray.isSome
        = if (n :: rest).isEmpty then t.stray.isSome else lastEndsStray (n :: rest) := by
    intro n rest t hn hr
    rw [nodes, hr, hn, lastEndsStray]
    rfl
  induction hg generalizing t with
  | nil => rfl
  | single _ ih => exact hcons (by simp [node, endsStray]) ih
  | block _ _ _ _ _ ih => exact hcons (by simp [node, endsStray]) ih
  | @condition opener body closer rest ho _ hc _ ihb ih =>
    refine hcons ?_ ih
    cases closer with
    | none =>
      simp only [node, Option.elim_none, id_eq, ihb, isSome_stray_tell, ho, endsStray]
      cases body with
      | nil => rfl
      | cons n body => rfl
    | some c => simp [node, endsStray, hc c rfl]
  | random _ _ _ _ _ _ _ _ ih => exact hcons (by simp [node, endsStray]) ih

theorem isSome_stray_nodes_of_none {ns : List Node} (hg : Grown ns) {t : Trail} (ht : t.stray.isSome = false) :
    (t.nodes ns).stray.isSome = lastEndsStray ns := by
  rw [isSome_stray_nodes hg, ht]
  cases ns with
  | nil => rfl
  | cons n ns => rfl

theorem isEmpty_glued_chances {ps : List (Atom × List Node)} (hg : ∀ p ∈ ps, Grown p.2)
    (hp : ∀ p ∈ ps, ∀ t : Trail, (t.nodes p.2).glued.isEmpty = (t.glued.isEmpty && !anyCrowds p.2)) (t : Trail)
    (w : Text) (words : List Text) :
    ((t.chances (ps.map fun p => .chance p.1 p.2)).join w words).glued.isEmpty
      = (t.glued.isEmpty && !t.stray.isSome && !anyCrowds (ps.map fun p => .chance p.1 p.2)) := by
  induction ps generalizing t with
  | nil => simp [chances, anyCrowds]
  | cons p ps ih =>
    rw [List.map_cons, chances, ih (fun q hq => hg q (by simp [hq])) (fun q hq => hp q (by simp [hq])),
      hp p (by simp), isEmpty_glued_join, isSome_stray_nodes_of_none (hg p (by simp)) rfl, anyCrowds, crowds]
    simp only [Bool.not_or]
    ac_rfl

theorem isEmpty_glued_nodes {ns : List Node} (hg : Grown ns) (t : Trail) :
    (t.nodes ns).glued.isEmpty = (t.glued.isEmpty && !anyCrowds ns) := by
  induction hg generalizing t with
  | nil => simp [nodes, anyCrowds]
  | single _ ih => simp [nodes, ih, node, anyCrowds, crowds]
  | block _ _ _ _ ihb ih => simp [nodes, ih, node, ihb, anyCrowds, crowds, Bool.and_assoc]
  | @condition opener body closer rest ho _ hc _ ihb ih =>
    cases closer <;> simp [nodes, ih, node, ihb, anyCrowds, crowds, Bool.and_assoc]
  | @random opener leading closer rest chances ho hl hk hp hc _ ihl ihp ih =>
    have hopener : (t.tell opener).stray.isSome = false := by simp [ho]
    rw [nodes, ih, node, isEmpty_glued_chances hp ihp, ihl, isSome_stray_nodes_of_none hl hopener, glued_tell,
      anyCrowds, crowds]
    simp only [Bool.not_or]
    ac_rfl

/-- A word that is written at the end of a construct even if the script lacks it. -/
def IsClosing (x : Text) : Prop := x = "\x7d" ∨ x = "end_random"

/-- How a trail goes on when `words` are to be written. Without a joint they are all there. With joints, a word
that is no longer than those joined to is found no more often than it should be, and where it was joined to it
is missing. -/
structure Grows (t t' : Trail) (words : List Text) : Prop where
  glued : t.glued <+: t'.glued
  strays : ∀ g ∈ t'.glued ++ t'.stray.toList, g ∈ t.glued ++ t.stray.toList ∨ ¬ IsClosing g
  sublist : t'.glued = [] → (t.all ++ words).Sublist t'.all
  count : ∀ x, ¬ IsClosing x → (∀ g ∈ t'.glued, x.length ≤ g.length) →
    t'.all.count x + t'.glued.count x ≤ t.all.count x + t.glued.count x + words.count x

namespace Grows

theorem refl (t : Trail) : Grows t t [] :=
  ⟨List.prefix_refl _, fun _ hg => .inl hg, by simp, by simp⟩

theorem trans {t t' t'' : Trail} {xs ys : List Text} (h : Grows t t' xs) (h' : Grows t' t'' ys) :
    Grows t t'' (xs ++ ys) := by
  refine ⟨h.glued.trans h'.glued, fun g hg => ?_, fun he => ?_, fun x hx hlen => ?_⟩
  · cases h'.strays g hg with
    | inl hg => exact h.strays g hg
    | inr hg => exact .inr hg
  · have hfirst := h.sublist (List.prefix_nil.1 (he ▸ h'.glued))
    rw [← List.append_assoc]
    exact (hfirst.append_right ys).trans (h'.sublist he)
  · have hfirst := h.count x hx fun g hg => hlen g (h'.glued.subset hg)
    have hsecond := h'.count x hx hlen
    rw [List.count_append]
    omega

theorem say (t : Trail) {words written : List Text} (hs : words.Sublist written)
    (hc : ∀ x, ¬ IsClosing x → written.count x ≤ words.count x) : Grows t (t.say written) words := by
  refine ⟨List.prefix_refl _, fun g hg => .inl ?_, fun _ => ?_, fun x hx _ => ?_⟩
  · exact List.mem_append_left _ (by simpa using hg)
  · rw [all_say]
    exact hs.append_left t.all
  · have hle := hc x hx
    rw [all_say, glued_say, List.count_append]
    omega

theorem leave (t : Trail) {word : Text} (hw : ¬ IsClosing word) : Grows t (t.leave word) [word] := by
  refine ⟨List.prefix_refl _, fun g hg => ?_, fun _ => List.Sublist.refl _, fun x _ _ => ?_⟩
  · cases List.mem_append.1 hg with
    | inl hg => exact .inl (List.mem_append_left _ hg)
    | inr hg => exact .inr (List.mem_singleton.1 hg ▸ hw)
  · rw [all_leave, glued_leave, List.count_append]
    omega

theorem join (t : Trail) {word : Text} {words written : List Text} (hn : word ≠ [])
    (hs : words.Sublist (word :: written))
    (hc : ∀ x, ¬ IsClosing x → (word :: written).count x ≤ words.count x) :
    Grows t (t.join word written) words := by
  refine ⟨List.prefix_append _ _, fun g hg => .inl (by simpa [Trail.join] using hg), fun he => ?_,
    fun x hx hlen => ?_⟩
  · have hstray : t.stray = none := by
      have hnil := (List.append_eq_nil_iff.1 he).2
      simpa using hnil
    simpa [Trail.join, all, hstray] using hs.append_left t.words
  · have hle := hc x hx
    cases hstray : t.stray with
    | none =>
      simp only [Trail.join, all, hstray, Option.getD_none, List.nil_append, Option.toList_none, List.append_nil,
        List.count_append]
      omega
    | some g =>
      have hlong : x.length ≤ g.length := hlen g (by simp [Trail.join, hstray])
      have hne : g ++ word ≠ x := by
        intro he
        have hpos := List.length_pos_iff.2 hn
        have hsum := congrArg List.length he
        rw [List.length_append] at hsum
        omega
      simp only [Trail.join, all, hstray, Option.getD_some, Option.toList_some, List.append_nil,
        List.count_append, List.count_cons_of_ne hne, Option.toList_none]
      have hdrop := List.count_le_count_cons (l := written) (a := x) (b := word)
      omega

end Grows

theorem not_isClosing_of_isRead {w : Word} (h : (Atom.other w).IsRead) : ¬ IsClosing w.text := by
  obtain ⟨source, v, rest, item, used, hr, -, ha⟩ := h
  intro hclosing
  have hlead : Lead.of w.text = .keyword .closeBrace ∨ Lead.of w.text = .keyword .endRandom := by
    cases hclosing with
    | inl hw => exact .inl (hw ▸ Lead.of_spelling .closeBrace)
    | inr hw => exact .inr (hw ▸ Lead.of_spelling .endRandom)
  cases hr with
  | @alone _ k build hw hk =>
    cases k <;> simp only [Keyword.alone?, Option.some.injEq, reduceCtorEq] at hk <;> subst hk <;>
      simp [Item.sound] at ha
  | @unary k build missing arg more hw hk _ =>
    cases k <;> simp only [Keyword.unary?, Option.some.injEq, Prod.mk.injEq, reduceCtorEq] at hk <;>
      obtain ⟨rfl, rfl⟩ := hk <;> simp [Item.sound] at ha
  | @starved _ k build missing hw hk =>
    obtain rfl : v = w := by simpa [Item.flawed] using ha
    cases hlead with
    | inl hl =>
      obtain rfl : k = .closeBrace := by simpa [hw] using hl
      simp [Keyword.unary?] at hk
    | inr hl =>
      obtain rfl : k = .endRandom := by simpa [hw] using hl
      simp [Keyword.unary?] at hk
  | nameless hw | unknown hw =>
    obtain rfl : v = w := by simpa [Item.flawed] using ha
    simp [hw] at hlead
  | _ => simp [Item.sound, Item.flawed, Item.inlineComment] at ha

theorem Grows.tell (t : Trail) {a : Atom} (ha : a.IsRead) : Grows t (t.tell a) a.spoken := by
  unfold Trail.tell
  split
  · next hk =>
    cases a <;> simp [Atom.kind] at hk
    exact .leave t (not_isClosing_of_isRead ha)
  · exact .say t (List.Sublist.refl _) fun _ _ => Nat.le_refl _

section Spoken

variable {a : Atom} (h : a.IsRead)

include h

theorem spoken_closeBlock (hk : a.kind = .closeBlock) : a.spoken = ["\x7d"] := by
  rw [← @texts_phrase {} {} (.inl rfl) a h, phrase_closeBlock _ _ hk]
  decide

theorem spoken_endRandom (hk : a.kind = .endRandom) : a.spoken = ["end_random"] := by
  rw [← @texts_phrase {} {} (.inl rfl) a h, phrase_endRandom _ _ hk]
  decide

theorem spoken_percentChance (hk : a.kind = .percentChance) :
    a.spoken = Text.ofString "percent_chance" :: a.tail.map Word.text := by
  obtain ⟨x, hx, hstart, htexts⟩ := chanceText_eq h hk
  have hphrase : phrase {} {} a = Job.chanceText a := by
    cases a <;> simp [Atom.kind] at hk
    rfl
  rw [← @texts_phrase {} {} (.inl rfl) a h, hphrase, hx, Word.texts_append (.inr hstart), htexts,
    Word.texts_inked ⟨by decide, by decide⟩]
  rfl

end Spoken

theorem closer_spoken {closer : Option Atom} {word : Text} (hw : IsClosing word)
    (hc : ∀ c ∈ closer, c.spoken = [word]) :
    (closer.toList.flatMap Atom.spoken).Sublist [word] ∧
      ∀ x, ¬ IsClosing x → [word].count x ≤ (closer.toList.flatMap Atom.spoken).count x := by
  constructor
  · cases closer with
    | none => exact List.nil_sublist _
    | some c => simp [hc c rfl]
  · intro x hx
    have hne : word ≠ x := fun he => hx (he ▸ hw)
    simp [hne]

theorem Grows.chances {ps : List (Atom × List Node)} (hk : ∀ p ∈ ps, p.1.kind = .percentChance)
    (hr : ∀ p ∈ ps, p.1.IsRead)
    (hp : ∀ p ∈ ps, ∀ t : Trail, Grows t (t.nodes p.2) ((allAtoms p.2).flatMap Atom.spoken)) (t : Trail) :
    Grows t (t.chances (ps.map fun p => .chance p.1 p.2))
      ((allAtoms (ps.map fun p => .chance p.1 p.2)).flatMap Atom.spoken) := by
  induction ps generalizing t with
  | nil => exact .refl t
  | cons p ps ih =>
    have hhead := spoken_percentChance (hr p (by simp)) (hk p (by simp))
    have hrest := ih (fun q hq => hk q (by simp [hq])) (fun q hq => hr q (by simp [hq]))
      (fun q hq => hp q (by simp [hq]))
    rw [List.map_cons, Trail.chances, allAtoms, Node.atoms, List.flatMap_append, List.flatMap_cons, hhead]
    refine (Grows.trans ?_ (hp p (by simp) _)).trans (hrest _)
    exact .join t (by decide) (List.Sublist.refl _) fun _ _ => Nat.le_refl _

theorem Grows.nodes {ns : List Node} (hg : Grown ns) (hr : ∀ a ∈ allAtoms ns, a.IsRead) (t : Trail) :
    Grows t (t.nodes ns) ((allAtoms ns).flatMap Atom.spoken) := by
  induction hg generalizing t with
  | nil => exact .refl t
  | @single a rest _ ih =>
    simp only [allAtoms, Node.atoms, List.forall_mem_append, List.forall_mem_singleton] at hr
    rw [allAtoms, Node.atoms, List.flatMap_append, List.flatMap_singleton]
    exact (Grows.tell t hr.1).trans (ih hr.2 _)
  | @block opener body closer rest ho _ hc _ ihb ih =>
    simp only [allAtoms, Node.atoms, List.forall_mem_append, List.forall_mem_cons] at hr
    obtain ⟨⟨hopener, hbody, hcloser⟩, hrest⟩ := hr
    rw [allAtoms, Node.atoms, List.flatMap_append, List.flatMap_cons, List.flatMap_append]
    refine Grows.trans ((Grows.tell t hopener).trans ((ihb hbody _).trans ?_)) (ih hrest _)
    obtain ⟨hsub, hcount⟩ := closer_spoken (.inl rfl) fun c hm =>
      spoken_closeBlock (hcloser c (Option.mem_toList.2 hm)) (hc c hm)
    exact .say _ hsub hcount
  | @condition opener body closer rest ho _ hc _ ihb ih =>
    simp only [allAtoms, Node.atoms, List.forall_mem_append, List.forall_mem_cons] at hr
    obtain ⟨⟨hopener, hbody, hcloser⟩, hrest⟩ := hr
    rw [allAtoms, Node.atoms, List.flatMap_append, List.flatMap_cons, List.flatMap_append]
    refine Grows.trans ((Grows.tell t hopener).trans ((ihb hbody _).trans ?_)) (ih hrest _)
    cases closer with
    | none => exact .refl _
    | some c =>
      rw [Option.toList_some, List.flatMap_singleton]
      exact .tell _ (hcloser c (by simp))
  | @random opener leading closer rest chances ho _ hk _ hc _ ihl ihp ih =>
    simp only [allAtoms, Node.atoms, List.forall_mem_append, List.forall_mem_cons] at hr
    obtain ⟨⟨hopener, hleading, hchances, hcloser⟩, hrest⟩ := hr
    have hchance : ∀ p ∈ chances, ∀ a ∈ p.1 :: allAtoms p.2, a.IsRead := fun p hp a ha =>
      hchances a (by rw [allAtoms_chances]; exact List.mem_flatMap.2 ⟨p, hp, ha⟩)
    have hin := Grows.chances hk (fun p hp => hchance p hp _ (by simp))
      (fun p hp => ihp p hp fun a ha => hchance p hp a (by simp [ha]))
    obtain ⟨hsub, hcount⟩ := closer_spoken (.inr rfl) fun c hm =>
      spoken_endRandom (hcloser c (Option.mem_toList.2 hm)) (hc c hm)
    rw [allAtoms, Node.atoms, List.flatMap_append, List.flatMap_cons, List.flatMap_append, List.flatMap_append]
    refine Grows.trans ((Grows.tell t hopener).trans ((ihl hleading _).trans ((hin _).trans ?_))) (ih hrest _)
    -- A stray word before the end of the group is lost in a longer word.
    exact .join _ (by decide) hsub hcount

/-- The words are all there exactly if nothing was joined: the shortest word that was joined to is missing. -/
theorem Grows.sublist_iff {t : Trail} {words : List Text} (h : Grows {} t words) :
    words.Sublist t.all ↔ t.glued = [] := by
  constructor
  · intro hs
    cases hm : t.glued.argmin List.length with
    | none => exact List.argmin_eq_none.1 hm
    | some x =>
      have hmem : x ∈ t.glued := List.argmin_mem hm
      have hshort : ∀ g ∈ t.glued, x.length ≤ g.length := fun g hg => List.le_of_mem_argmin hg hm
      have hclosing : ¬ IsClosing x := (h.strays x (List.mem_append_left _ hmem)).resolve_left (by simp)
      have hcount : t.all.count x + t.glued.count x ≤ words.count x := by
        simpa [all] using h.count x hclosing hshort
      have hpos : 0 < t.glued.count x := List.count_pos_iff.2 hmem
      have hle : words.count x ≤ t.all.count x := hs.count_le x
      omega
  · exact h.sublist

end Trail

theorem plainTexts_sublist_spoken (atoms : List Atom) :
    (Atom.plainTexts atoms).Sublist (atoms.flatMap Atom.spoken) := by
  induction atoms with
  | nil => exact List.nil_sublist _
  | cons a atoms ih =>
    by_cases hk : a.kind = .comment
    · have hplain : Atom.plainTexts (a :: atoms) = Atom.plainTexts atoms := by simp [Atom.plainTexts, hk]
      rw [hplain, List.flatMap_cons]
      exact ih.trans (List.sublist_append_right _ _)
    · have hplain : Atom.plainTexts (a :: atoms) = a.normalTexts ++ Atom.plainTexts atoms := by
        simp [Atom.plainTexts, hk]
      rw [hplain, List.flatMap_cons, Atom.spoken_eq_normalTexts hk]
      exact ih.append_left _

theorem plainTexts_eq_spoken {atoms : List Atom} (h : ∀ a ∈ atoms, a.kind ≠ .comment) :
    Atom.plainTexts atoms = atoms.flatMap Atom.spoken := by
  have hall : atoms.filter (fun a => a.kind != .comment) = atoms :=
    List.filter_eq_self.2 fun a ha => by simpa using h a ha
  rw [Atom.plainTexts, hall]
  exact List.flatMap_congr fun a ha => (Atom.spoken_eq_normalTexts (h a ha)).symm

theorem spoken_sublist_iff {o : Options} (ho : o.Usual) (source : Text) :
    ((Atom.parse 0 source).flatMap Atom.spoken).Sublist (Word.texts (format o source)) ↔
      Node.anyCrowds (Node.group (Atom.parse 0 source)) = false := by
  have hgrown := Node.grown_group (Atom.parse 0 source)
  have hgrows := Trail.Grows.nodes hgrown
    (by rw [Node.allAtoms_group]; exact fun a => Atom.isRead_of_mem_parse) {}
  have hglued := Trail.isEmpty_glued_nodes hgrown {}
  rw [Node.allAtoms_group] at hgrows
  rw [texts_format ho, hgrows.sublist_iff, ← List.isEmpty_iff, hglued]
  simp

/-- A layout keeps the words of a script apart and in order, unless a stray word comes right before a chance or
the end of a random group; then, in a script without comments, it does not. -/
theorem format_keeps_words_apart {o : Options} (ho : o.Usual) (source : Text) :
    (Node.anyCrowds (Node.group (Atom.parse 0 source)) = false →
        (Atom.plainTexts (Atom.parse 0 source)).Sublist (Word.texts (format o source))) ∧
      ((∀ a ∈ Atom.parse 0 source, a.kind ≠ .comment) →
        ((Atom.plainTexts (Atom.parse 0 source)).Sublist (Word.texts (format o source)) ↔
          Node.anyCrowds (Node.group (Atom.parse 0 source)) = false)) := by
  constructor
  · intro hc
    exact (plainTexts_sublist_spoken _).trans ((spoken_sublist_iff ho source).2 hc)
  · intro hplain
    rw [plainTexts_eq_spoken hplain, spoken_sublist_iff ho]

def strewn : Text := "IF a b endif start_random percent_chance 5 \x7b c d"

theorem strewn_keeps_words_apart : Options.Usual {} ∧
    (∀ a ∈ Atom.parse 0 strewn, a.kind ≠ .comment) ∧
    Node.anyCrowds (Node.group (Atom.parse 0 strewn)) = false ∧
    (Atom.plainTexts (Atom.parse 0 strewn)).Sublist (Word.texts (format {} strewn)) ∧
    ((Atom.plainTexts (Atom.parse 0 strewn)).Sublist (Word.texts (format {} strewn)) ↔
      Node.anyCrowds (Node.group (Atom.parse 0 strewn)) = false) := by
  have husual : Options.Usual {} := .inl rfl
  obtain ⟨hplain, hc⟩ : (∀ a ∈ Atom.parse 0 strewn, a.kind ≠ .comment) ∧
      Node.anyCrowds (Node.group (Atom.parse 0 strewn)) = false := by
    decide +kernel
  obtain ⟨hapart, hexact⟩ := format_keeps_words_apart husual strewn
  exact ⟨husual, hplain, hc, hapart hc, hexact hplain⟩

def runTogether : Text := "start_random foo percent_chance 50 end_random"

theorem runTogether_not_sublist :
    ¬ (Atom.plainTexts (Atom.parse 0 runTogether)).Sublist (Word.texts (format {} runTogether)) := by
  decide +kernel

end Layout

end MapScript
