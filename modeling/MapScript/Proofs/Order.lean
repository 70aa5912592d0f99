import MapScript.Proofs.Strokes

/-! In which form the atoms of a script are written, from the atoms around them alone. -/

namespace MapScript

/-- The atoms that are written as part of their construct, without looking at the space before them. -/
def Atom.Kind.isImplied : Atom.Kind → Bool
  | .closeBlock => true
  | .percentChance => true
  | .endRandom => true
  | _ => false

def Atom.Kind.isCloser : Atom.Kind → Bool
  | .endIf => true
  | k => k.isImplied

theorem Atom.Kind.isImplied_of_isCloser {k : Atom.Kind} (h : k.isCloser = false) : k.isImplied = false := by
  cases k with
  | endIf => rfl
  | _ => exact h

theorem Tidy.head_not_closer {b : Bool} {a : Atom} {rest : List Atom} (h : Tidy b (a :: rest)) :
    a.kind.isCloser = false := by
  cases h with
  | single ha _ => cases hk : a.kind <;> simp [hk, Atom.Kind.isSingle] at ha <;> rfl
  | block ho => rw [ho]; rfl
  | condition ho => rw [ho]; rfl
  | random ho => rw [ho]; rfl

namespace Layout

open Node

/-- The form of a stroke follows from its kind, from whether a block is open, and from the next atom. -/
def Suits (inBlock : Bool) (s : Stroke) (next : Option Atom) : Prop :=
  match s.form with
  | .written beforeBlock apart =>
    s.atom.kind.isImplied = false ∧
      (s.atom.kind = .command → beforeBlock = next.any fun a => a.kind == .openBlock) ∧
      apart = (s.atom.kind == .endIf && (!inBlock && next.any fun a => !a.kind.isCloser && a.kind != .openBlock))
  | .line => s.atom.kind.isImplied = true
  | .short _ empty => s.atom.kind = .percentChance ∧ (empty = false → next.any Job.isShort = true)

def Orderly : Bool → List Stroke → Prop
  | _, [] => True
  | b, s :: rest => Suits b s (rest.map Stroke.atom).head? ∧ Orderly (s.atom.kind.inBlock b) rest

section Tidy

variable {o : Options} {b : Bool} {tail : List Stroke}

theorem Orderly.cons {b' : Bool} {s : Stroke} {rest : List Stroke} (hs : Suits b s (rest.map Stroke.atom).head?)
    (hb : s.atom.kind.inBlock b = b') (hr : Orderly b' rest) : Orderly b (s :: rest) :=
  ⟨hs, hb ▸ hr⟩

theorem Suits.opener {opener : Atom} (hi : opener.kind.isImplied = false) (hc : opener.kind ≠ .command)
    (he : opener.kind ≠ .endIf) (place : Place) (next : Option Atom) :
    Suits b ⟨place, opener, .written false false⟩ next :=
  ⟨hi, fun h => absurd h hc, by simp [he]⟩

theorem eq_singleton_of_fitsOnLine {atoms : List Atom} (h : fitsOnLine atoms = true)
    (hne : atoms.isEmpty = false) : ∃ a, atoms = [a] ∧ Job.isShort a = true := by
  cases atoms with
  | nil => simp at hne
  | cons a rest =>
    cases rest with
    | nil => exact ⟨a, rfl, h⟩
    | cons => simp [fitsOnLine] at h

theorem orderly_chances {ps : List (Atom × List Atom)} (hk : ∀ p ∈ ps, p.1.kind = .percentChance)
    (ht : ∀ p ∈ ps, Tidy b p.2)
    (hp : ∀ p ∈ ps, ∀ (place : Place) (tail : List Stroke), place.inBlock = b → Orderly b tail →
      (∀ s ∈ tail.head?, s.atom.kind.isCloser = true) → Orderly b (strokes o place (group p.2) ++ tail))
    {place : Place} (hb : place.inBlock = b) (short : Bool) (hs : short = true → ∀ p ∈ ps, fitsOnLine p.2 = true)
    (length : Nat) (hr : Orderly b tail) (hc : ∀ s ∈ tail.head?, s.atom.kind.isCloser = true) :
    Orderly b (ps.flatMap (chanceOf o place short length) ++ tail) ∧
      ∀ s ∈ (ps.flatMap (chanceOf o place short length) ++ tail).head?, s.atom.kind.isCloser = true := by
  induction ps with
  | nil => exact ⟨hr, hc⟩
  | cons p ps ih =>
    obtain ⟨hrest, hclose⟩ := ih (fun q hq => hk q (by simp [hq])) (fun q hq => ht q (by simp [hq]))
      (fun q hq => hp q (by simp [hq])) (fun h q hq => hs h q (by simp [hq]))
    have hkind := hk p (by simp)
    have hin : p.1.kind.inBlock b = b := by rw [hkind]; rfl
    have hhead : p.1.kind.isCloser = true := by rw [hkind]; rfl
    rw [List.flatMap_cons, List.append_assoc, chanceOf]
    cases short with
    | true =>
      rw [if_pos rfl, List.cons_append]
      refine ⟨.cons ⟨hkind, fun hne => ?_⟩ hin (hp p (by simp) place _ hb hrest hclose), by simp [hhead]⟩
      obtain ⟨a, hbody, ha⟩ := eq_singleton_of_fitsOnLine (hs rfl p (by simp)) hne
      rw [List.map_append, map_atom_strokes (ht p (by simp)), hbody]
      simpa using ha
    | false =>
      have himplied : p.1.kind.isImplied = true := by rw [hkind]; rfl
      rw [if_neg (by simp), List.cons_append]
      exact ⟨.cons himplied hin (hp p (by simp) (Job.chancePlace place) _ hb hrest hclose), by simp [hhead]⟩

theorem orderly_strokes {atoms : List Atom} (h : Tidy b atoms) {place : Place} (hb : place.inBlock = b)
    (hr : Orderly b tail) (hc : ∀ s ∈ tail.head?, s.atom.kind.isCloser = true) :
    Orderly b (strokes o place (group atoms) ++ tail) := by
  -- The form of the last atom depends on the next one, so the statement has the strokes after it in it.
  induction h generalizing place tail with
  | nil => simpa [group, strokes] using hr
  | @single b a rest ha hrest ih =>
    have hk : a.kind.isImplied = false ∧ a.kind ≠ .endIf ∧ a.kind.inBlock b = b := by
      cases hk : a.kind <;> simp [hk, Atom.Kind.isSingle] at ha <;> exact ⟨rfl, by simp, rfl⟩
    rw [strokes_single _ _ _ ha, List.cons_append]
    refine .cons ⟨hk.1, fun _ => ?_, by simp [hk.2.1]⟩ hk.2.2 (ih hb hr hc)
    rw [List.map_append, map_atom_strokes hrest]
    cases rest with
    | cons c rest => rfl
    | nil =>
      cases tail with
      | nil => rfl
      | cons s tail =>
        have hclose := hc s rfl
        have hne : s.atom.kind ≠ .openBlock := by
          intro he
          rw [he] at hclose
          simp [Atom.Kind.isCloser, Atom.Kind.isImplied] at hclose
        simp [startsBlock, hne]
  | @block opener body closer rest ho hbody hclose hrest ihb ihr =>
    rw [strokes_block _ _ _ ho hbody hclose, List.cons_append, List.append_assoc, List.cons_append]
    have himplied : closer.kind.isImplied = true := by rw [hclose]; rfl
    have hend : Orderly true (⟨place, closer, .line⟩ :: (strokes o place (group rest) ++ tail)) :=
      .cons himplied (by rw [hclose]; rfl) (ihr hb hr hc)
    refine .cons (.opener (by rw [ho]; rfl) (by simp [ho]) (by simp [ho]) _ _) (by rw [ho]; rfl) (ihb rfl hend ?_)
    simp [hclose, Atom.Kind.isCloser, Atom.Kind.isImplied]
  | @condition b opener body closer rest ho hbody hclose hrest ihb ihr =>
    rw [strokes_condition _ _ _ ho hbody hclose, List.cons_append, List.append_assoc, List.cons_append]
    have hend : Orderly b
        (⟨place, closer, .written false (!rest.isEmpty && (!place.inBlock && !startsBlock rest))⟩
          :: (strokes o place (group rest) ++ tail)) := by
      refine .cons ⟨by rw [hclose]; rfl, by simp [hclose], ?_⟩ (by rw [hclose]; rfl) (ihr hb hr hc)
      rw [List.map_append, map_atom_strokes hrest]
      cases rest with
      | cons c rest => simp [hclose, hb, startsBlock, hrest.head_not_closer, bne]
      | nil =>
        cases tail with
        | nil => simp
        | cons s tail => simp [hc s rfl]
    refine .cons (.opener (by rw [ho]; rfl) (by simp [ho]) (by simp [ho]) _ _) (by rw [ho]; rfl) (ihb hb hend ?_)
    simp [hclose, Atom.Kind.isCloser]
  | @random b opener leading chances closer rest ho hl hk hp hclose hrest ihl ihp ihr =>
    rw [strokes_random _ _ _ ho hl hk hp hclose]
    simp only [List.cons_append, List.append_assoc]
    have himplied : closer.kind.isImplied = true := by rw [hclose]; rfl
    have hend : Orderly b (⟨place, closer, .line⟩ :: (strokes o place (group rest) ++ tail)) :=
      .cons himplied (by rw [hclose]; rfl) (ihr hb hr hc)
    have hinner : (Job.randomPlace place).inBlock = b := hb
    obtain ⟨hchances, hhead⟩ := orderly_chances hk hp (fun p hm place tail hb hr hc => ihp p hm hb hr hc) hinner
      (chances.all fun p => fitsOnLine p.2) (fun hs => List.all_eq_true.1 hs) (longest chances) hend
      (by simp [hclose, Atom.Kind.isCloser, Atom.Kind.isImplied])
    exact .cons (.opener (by rw [ho]; rfl) (by simp [ho]) (by simp [ho]) _ _) (by rw [ho]; rfl)
      (ihl hb hchances hhead)

end Tidy

end Layout

end MapScript
