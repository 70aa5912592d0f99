import MapScript.Proofs.Strokes

/-! Scripts that differ only in what layout does not look at have the same strokes up to their atoms. -/

namespace MapScript

def Word.bare (w : Word) : Word := ⟨w.text, 0, 0⟩

def Word.void : Word := ⟨[], 0, 0⟩

/-- What the layout of a script depends on in an atom: neither where its words stand, nor how a keyword is
spelled, nor what a comment says. -/
def Atom.bare : Atom → Atom
  | .const _ name value => .const .void name.bare (value.map Word.bare)
  | .define _ name => .define .void name.bare
  | .undefine _ name => .undefine .void name.bare
  | .sectionMark name => .sectionMark name.bare
  | .ifThen _ condition => .ifThen .void condition.bare
  | .elseIf _ condition => .elseIf .void condition.bare
  | .elseThen _ => .elseThen .void
  | .endIf _ => .endIf .void
  | .startRandom _ => .startRandom .void
  | .percentChance _ chance => .percentChance .void chance.bare
  | .endRandom _ => .endRandom .void
  | .openBlock _ => .openBlock .void
  | .closeBlock _ => .closeBlock .void
  | .command name args => .command name.bare (args.map Word.bare)
  | .comment _ _ _ _ => .comment .void [] none 0
  | .other word => .other word.bare

@[simp] theorem Atom.kind_bare (a : Atom) : a.bare.kind = a.kind := by
  cases a <;> rfl

namespace Layout

open Node

theorem kind_eq_of_bare {a b : Atom} (h : a.bare = b.bare) : a.kind = b.kind := by
  rw [← Atom.kind_bare a, h, Atom.kind_bare]

def Stroke.bare (s : Stroke) : Stroke := { s with atom := s.atom.bare }

@[simp] theorem Stroke.bare_mk (place : Place) (a : Atom) (form : Form) :
    Stroke.bare ⟨place, a, form⟩ = ⟨place, a.bare, form⟩ := rfl

theorem startsBlock_bare (atoms : List Atom) : startsBlock (atoms.map Atom.bare) = startsBlock atoms := by
  cases atoms <;> simp [startsBlock]

theorem fitsOnLine_bare (atoms : List Atom) : fitsOnLine (atoms.map Atom.bare) = fitsOnLine atoms := by
  match atoms with
  | [] => rfl
  | [a] => simp [fitsOnLine, Job.isShort]
  | _ :: _ :: _ => rfl

theorem widthOf_bare (tabSize depth : Int) (width : Width) (atoms : List Atom) :
    Job.widthOf tabSize depth width (atoms.map Atom.bare) = Job.widthOf tabSize depth width atoms := by
  induction atoms generalizing depth width with
  | nil => rfl
  | cons a atoms ih =>
    cases a with
    | command name args =>
      cases args <;> simp [Job.widthOf, Atom.bare, Word.bare, ih]
    | _ => simp [Job.widthOf, Atom.bare, ih]

theorem chanceText_of_bare {a b : Atom} (h : a.bare = b.bare) (hk : a.kind = .percentChance) :
    Job.chanceText a = Job.chanceText b := by
  have hb := (kind_eq_of_bare h).symm.trans hk
  cases a <;> simp [Atom.kind] at hk
  cases b <;> simp [Atom.kind] at hb
  simp_all [Atom.bare, Word.bare, Job.chanceText, Atom.tail]

theorem placeOf_of_kind {a b : Atom} (h : a.kind = b.kind) (place : Place) :
    Job.placeOf place a = Job.placeOf place b := by
  simp [Job.placeOf, h]

theorem parts_of_bare {ps : List (Atom × List Atom)} {atoms : List Atom}
    (h : (Atom.parts ps).map Atom.bare = atoms.map Atom.bare) :
    ∃ qs, atoms = Atom.parts qs ∧
      List.Forall₂ (fun p q => p.1.bare = q.1.bare ∧ p.2.map Atom.bare = q.2.map Atom.bare) ps qs := by
  induction ps generalizing atoms with
  | nil => exact ⟨[], by simpa [Atom.parts] using h.symm, .nil⟩
  | cons p ps ih =>
    have hsplit : (p.1 :: (p.2 ++ Atom.parts ps)).map Atom.bare = atoms.map Atom.bare := h
    rw [List.map_cons, List.map_append] at hsplit
    obtain ⟨head, tail, rfl, hhead, htail⟩ := List.map_eq_cons_iff.1 hsplit.symm
    obtain ⟨body, more, rfl, hbody, hmore⟩ := List.map_eq_append_iff.1 htail
    obtain ⟨qs, rfl, hqs⟩ := ih hmore.symm
    exact ⟨(head, body) :: qs, rfl, .cons ⟨hhead.symm, hbody.symm⟩ hqs⟩

theorem chances_bare {b : Bool} {o : Options} {ps qs : List (Atom × List Atom)}
    (h : List.Forall₂ (fun p q => p.1.bare = q.1.bare ∧ p.2.map Atom.bare = q.2.map Atom.bare) ps qs)
    (hk : ∀ p ∈ ps, p.1.kind = .percentChance)
    (hp : ∀ p ∈ ps, ∀ {bs : List Atom}, p.2.map Atom.bare = bs.map Atom.bare → ∀ place,
      Tidy b bs ∧ (strokes o place (group p.2)).map Stroke.bare
        = (strokes o place (group bs)).map Stroke.bare) :
    (∀ q ∈ qs, q.1.kind = .percentChance) ∧ (∀ q ∈ qs, Tidy b q.2) ∧
      (ps.all fun p => fitsOnLine p.2) = (qs.all fun q => fitsOnLine q.2) ∧
      (∀ n, ps.foldl (fun n p => max n (Job.chanceText p.1).length) n
        = qs.foldl (fun n q => max n (Job.chanceText q.1).length) n) ∧
      ∀ place short length, (ps.flatMap (chanceOf o place short length)).map Stroke.bare
        = (qs.flatMap (chanceOf o place short length)).map Stroke.bare := by
  induction h with
  | nil => simp
  | @cons p q ps qs hpq _ ih =>
    obtain ⟨hkind, htidy, hshort, hlong, hstrokes⟩ :=
      ih (fun x hx => hk x (by simp [hx])) (fun x hx => hp x (by simp [hx]))
    have hbody := fun place => hp p (by simp) hpq.2 place
    have hpk := hk p (by simp)
    have hempty : q.2.isEmpty = p.2.isEmpty := by
      rw [← List.isEmpty_map (f := Atom.bare), ← hpq.2, List.isEmpty_map]
    have hfits : fitsOnLine p.2 = fitsOnLine q.2 := by
      rw [← fitsOnLine_bare, hpq.2, fitsOnLine_bare]
    refine ⟨List.forall_mem_cons.2 ⟨(kind_eq_of_bare hpq.1).symm.trans hpk, hkind⟩,
      List.forall_mem_cons.2 ⟨(hbody {}).1, htidy⟩, ?_, fun n => ?_, fun place short length => ?_⟩
    · rw [List.all_cons, List.all_cons, hshort, hfits]
    · rw [List.foldl_cons, List.foldl_cons, hlong, chanceText_of_bare hpq.1 hpk]
    · rw [List.flatMap_cons, List.flatMap_cons, List.map_append, List.map_append, hstrokes]
      cases short <;> simp [chanceOf, hempty, hpq.1, (hbody _).2]

theorem strokes_bare {b : Bool} {as : List Atom} (h : Tidy b as) {bs : List Atom}
    (hbs : as.map Atom.bare = bs.map Atom.bare) (o : Options) (place : Place) :
    Tidy b bs ∧ (strokes o place (group as)).map Stroke.bare
      = (strokes o place (group bs)).map Stroke.bare := by
  induction h generalizing place bs with
  | nil =>
    obtain rfl : bs = [] := by simpa using hbs
    exact ⟨.nil, rfl⟩
  | @single _ a rest ha _ ih =>
    obtain ⟨a', rest', rfl, hh, hr⟩ := List.map_eq_cons_iff.1 hbs.symm
    obtain ⟨htidy, hstrokes⟩ := ih hr.symm place
    have hk : a'.kind = a.kind := kind_eq_of_bare hh
    have ha' : a'.kind.isSingle = true := hk ▸ ha
    refine ⟨.single ha' htidy, ?_⟩
    rw [strokes_single _ _ _ ha, strokes_single _ _ _ ha', List.map_cons, List.map_cons, hstrokes,
      ← startsBlock_bare rest, ← hr, startsBlock_bare, placeOf_of_kind hk.symm]
    simp [Stroke.bare, hh]
  | @block opener body closer rest ho hb hc _ ihb ihr =>
    rw [List.map_cons, List.map_append, List.map_cons] at hbs
    obtain ⟨opener', tail, rfl, hho, ht⟩ := List.map_eq_cons_iff.1 hbs.symm
    obtain ⟨body', tail, rfl, hhb, ht⟩ := List.map_eq_append_iff.1 ht
    obtain ⟨closer', rest', rfl, hhc, hhr⟩ := List.map_eq_cons_iff.1 ht
    have hplace : inBlockPlace o place body' = inBlockPlace o place body := by
      rw [inBlockPlace, ← widthOf_bare, hhb, widthOf_bare, inBlockPlace]
    obtain ⟨htb, hsb⟩ := ihb hhb.symm (inBlockPlace o place body)
    obtain ⟨htr, hsr⟩ := ihr hhr.symm place
    have ho' := (kind_eq_of_bare hho).trans ho
    have hc' := (kind_eq_of_bare hhc).trans hc
    refine ⟨.block ho' htb hc' htr, ?_⟩
    rw [strokes_block _ _ _ ho hb hc, strokes_block _ _ _ ho' htb hc', hplace]
    simp only [List.map_cons, List.map_append, Stroke.bare_mk, hho, hhc, hsb, hsr]
  | @condition _ opener body closer rest ho hb hc _ ihb ihr =>
    rw [List.map_cons, List.map_append, List.map_cons] at hbs
    obtain ⟨opener', tail, rfl, hho, ht⟩ := List.map_eq_cons_iff.1 hbs.symm
    obtain ⟨body', tail, rfl, hhb, ht⟩ := List.map_eq_append_iff.1 ht
    obtain ⟨closer', rest', rfl, hhc, hhr⟩ := List.map_eq_cons_iff.1 ht
    obtain ⟨htb, hsb⟩ := ihb hhb.symm (Job.conditionPlace ⟨o, []⟩ place)
    obtain ⟨htr, hsr⟩ := ihr hhr.symm place
    have ho' := (kind_eq_of_bare hho).trans ho
    have hc' := (kind_eq_of_bare hhc).trans hc
    have hempty : rest'.isEmpty = rest.isEmpty := by
      rw [← List.isEmpty_map (f := Atom.bare), hhr, List.isEmpty_map]
    refine ⟨.condition ho' htb hc' htr, ?_⟩
    rw [strokes_condition _ _ _ ho hb hc, strokes_condition _ _ _ ho' htb hc', hempty,
      ← startsBlock_bare rest', hhr, startsBlock_bare]
    simp only [List.map_cons, List.map_append, Stroke.bare_mk, hho, hhc, hsb, hsr]
  | @random _ opener leading chances closer rest ho hl hk hp hc _ ihl ihp ihr =>
    rw [List.map_cons, List.map_append, List.map_append, List.map_cons] at hbs
    obtain ⟨opener', tail, rfl, hho, ht⟩ := List.map_eq_cons_iff.1 hbs.symm
    obtain ⟨leading', tail, rfl, hhl, ht⟩ := List.map_eq_append_iff.1 ht
    obtain ⟨mid, tail, rfl, hhm, ht⟩ := List.map_eq_append_iff.1 ht
    obtain ⟨closer', rest', rfl, hhc, hhr⟩ := List.map_eq_cons_iff.1 ht
    -- The chances start at the same places, since only the kinds of the atoms tell where they do.
    obtain ⟨chances', rfl, hpairs⟩ := parts_of_bare hhm.symm
    obtain ⟨htl, hsl⟩ := ihl hhl.symm (Job.randomPlace place)
    obtain ⟨htr, hsr⟩ := ihr hhr.symm place
    have ho' := (kind_eq_of_bare hho).trans ho
    have hc' := (kind_eq_of_bare hhc).trans hc
    obtain ⟨hk', hp', hshort, hlong, hstrokes⟩ := chances_bare hpairs hk ihp
    refine ⟨.random ho' htl hk' hp' hc' htr, ?_⟩
    rw [strokes_random _ _ _ ho hl hk hp hc, strokes_random _ _ _ ho' htl hk' hp' hc', hshort,
      longest, longest, hlong]
    simp only [List.map_cons, List.map_append, Stroke.bare_mk, hho, hhc, hsl, hsr, hstrokes]

end Layout

end MapScript
