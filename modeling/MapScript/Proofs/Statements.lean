import MapScript.Proofs.Flaws

/-! Whole statements. Where a check reports no error, the words fall into groups that each give a statement by
themselves, whatever comes after them. -/

namespace MapScript

namespace Atom

open Item (isArgument openMark closeMark)

inductive Spelt (source : Text) : List Word → Atom → Prop
  | mark {w} (hw : Lead.of w.text = .mark) : Spelt source [w] (.sectionMark w)
  | alone {w k build} (hw : Lead.of w.text = .keyword k) (hk : k.alone? = some build) :
      Spelt source [w] (build w)
  | unary {w arg k build missing} (hw : Lead.of w.text = .keyword k) (hk : k.unary? = some (build, missing))
      (ha : isArgument arg.text = true) : Spelt source [w, arg] (build w arg)
  | const {w name value} (hw : Lead.of w.text = .keyword .const) (hn : isArgument name.text = true)
      (hv : isArgument value.text = true) : Spelt source [w, name, value] (.const w name (some value))
  | command {w entry args} (hw : Lead.of w.text = .name entry) (hl : args.length = entry.arity)
      (ha : ∀ arg ∈ args, isArgument arg.text = true) : Spelt source (w :: args) (.command w args)
  | comment {w inner closer} (hw : Lead.of w.text = .keyword .openComment)
      (hi : ∀ v ∈ inner, v.text ≠ closeMark) (hc : closer.text = closeMark) :
      Spelt source (w :: (inner ++ [closer]))
        (.comment w (source.slice w.stop closer.start) (some closer) closer.stop)

inductive AllSpelt (source : Text) : List Word → List Atom → Prop
  | nil : AllSpelt source [] []
  | cons {group words a atoms} (head : Spelt source group a) (tail : AllSpelt source words atoms) :
      AllSpelt source (group ++ words) (a :: atoms)

variable {source : Text} {group words : List Word} {a : Atom} {atoms : List Atom}

theorem Spelt.reading (h : Spelt source group a) :
    ∃ w args, group = w :: args ∧ ∀ more, Item.Reading source w (args ++ more) (Item.sound a) args.length := by
  cases h with
  | @mark w hw => exact ⟨w, [], rfl, fun _ => .mark hw⟩
  | @alone w k build hw hk => exact ⟨w, [], rfl, fun _ => .alone hw hk⟩
  | @unary w arg k build missing hw hk ha => exact ⟨w, [arg], rfl, fun _ => .unary hw hk ha⟩
  | @const w name value hw hn hv => exact ⟨w, [name, value], rfl, fun _ => .const hw hn hv⟩
  | @command w entry args hw hl ha => exact ⟨w, args, rfl, fun _ => .command hw hl ha⟩
  | @comment w inner closer hw hi hc =>
    refine ⟨w, inner ++ [closer], rfl, fun more => ?_⟩
    rw [List.append_assoc, List.length_append]
    exact .closed hw hi hc

theorem Spelt.allSpelt (h : Spelt source words a) : AllSpelt source words [a] := by
  simpa using AllSpelt.cons h .nil

theorem AllSpelt.readFrom_eq (h : AllSpelt source words atoms) :
    Item.readFrom source 0 words = atoms.map Item.sound := by
  induction h with
  | nil => rfl
  | cons head _ ih =>
    obtain ⟨w, args, rfl, hread⟩ := head.reading
    rw [List.cons_append, Item.readFrom_cons (hread _), List.drop_left, ih, List.map_cons]

theorem AllSpelt.split {xs ys : List Atom} (h : AllSpelt source words (xs ++ ys)) :
    ∃ us vs, words = us ++ vs ∧ AllSpelt source us xs ∧ AllSpelt source vs ys := by
  induction xs generalizing words with
  | nil => exact ⟨[], words, rfl, .nil, h⟩
  | cons x xs ih =>
    cases h with
    | @cons group words _ _ head tail =>
      obtain ⟨us, vs, rfl, hx, hy⟩ := ih tail
      exact ⟨group ++ us, vs, (List.append_assoc ..).symm, .cons head hx, hy⟩

theorem AllSpelt.append {us vs : List Word} {xs ys : List Atom} (hx : AllSpelt source us xs)
    (hy : AllSpelt source vs ys) : AllSpelt source (us ++ vs) (xs ++ ys) := by
  induction hx with
  | nil => exact hy
  | cons head _ ih =>
    rw [List.append_assoc]
    exact .cons head ih

end Atom

/-- An item without flaws is a whole statement, or a comment that is a single word. -/
theorem Item.Reading.spelt {source : Text} {w : Word} {rest : List Word} {item : Item} {used : Nat}
    (h : Reading source w rest item used) (hf : item.flaws = []) (hw : Lead.of w.text ≠ .inline) :
    Atom.Spelt source (w :: rest.take used) item.atom := by
  cases h with
  | mark hw => exact .mark hw
  | alone hw hk => exact .alone hw hk
  | unary hw hk ha => exact .unary hw hk ha
  | const hw hn hv => exact .const hw hn hv
  | closed hw hi hc =>
    rw [List.take_length_add_append]
    exact .comment hw hi hc
  | command hw hl ha =>
    rw [List.take_left]
    exact .command hw hl ha
  | inline hw' => exact absurd hw' hw
  | starved | valueless | nameless | unclosed | short | unknown => simp [flawed] at hf

open Marks

theorem Marks.lead_ne_inline {w : Word} (h : problem (inside false w.text) w = none) :
    Lead.of w.text ≠ .inline := by
  intro hw
  have hi := Lead.of_fits w.text
  rw [hw] at hi
  simp only [Lead.Fits, Item.isInlineComment, Bool.and_eq_true, decide_eq_true_eq] at hi
  rw [(outside h).1 hi.1.2] at hi
  exact absurd hi.1.1 (by decide)

namespace Checker

theorem flaws_eq_nil {c d : Checker} {item : Item} {found : List Diagnostic}
    (h : c.writeItem item = .ok (d, found)) (he : ∀ x ∈ found, x.isError = false) {source : Text} {w : Word}
    {rest : List Word} {used : Nat} (hr : Item.Reading source w rest item used)
    (hw : problem (inside false w.text) w = none) : item.flaws = [] := by
  refine List.eq_nil_iff_forall_not_mem.2 fun flaw hf => ?_
  by_cases hcov : d.isCovered item.atom flaw = true
  · rcases exists_of_isCovered h hr hf hcov with ⟨x, hx, herr, -⟩ | ⟨-, hshape, hn⟩
    · exact absurd herr (by simp [he x hx])
    · have hopen : w.text.startsWith Item.openMark = false := by
        by_contra ho
        rw [(outside hw).1 (by simpa using ho)] at hshape
        exact absurd hshape (by decide)
      exact absurd ((outside hw).2 hshape hopen) (by simp [hn])
  · obtain ⟨watches, problems, -, -, rfl⟩ := writeItem_eq_ok.1 h
    have hx : (Diagnostic.error flaw.span flaw.kind.message).withCode flawCode ∈ d.writeFlaws item :=
      List.mem_map.2 ⟨flaw, by simp [hf, hcov], rfl⟩
    exact absurd (he _ (List.mem_append_right _ hx)) (by simp [Diagnostic.isError, Diagnostic.error, Diagnostic.withCode])

theorem allSpelt_of_writeItems {c d : Checker} {source : Text} {before words : List Word} {found : List Diagnostic}
    (hs : Word.scan 0 source = before ++ words) (hq : Quiet false words)
    (h : c.writeItems (Item.readFrom source 0 words) = .ok (d, found)) (he : ∀ x ∈ found, x.isError = false) :
    ∃ atoms, Atom.AllSpelt source words atoms := by
  induction hn : words.length using Nat.strong_induction_on generalizing before words c found with
  | _ n ih =>
    cases words with
    | nil => exact ⟨[], .nil⟩
    | cons w rest =>
      have hr := Item.reading source w rest
      rw [Item.readFrom_cons hr] at h
      obtain ⟨c', problems, more, hitem, hmore, rfl⟩ := writeItems_cons.1 h
      have hf := flaws_eq_nil hitem (fun x hx => he x (List.mem_append_left _ hx)) hr hq.1
      have hspelt := hr.spelt hf (lead_ne_inline hq.1)
      have hquiet := (hr.legible hs hq (by simp [hf])).2.2
      have hlt : (rest.drop (Item.read source w rest).2).length < n := by
        simp only [← hn, List.length_cons, List.length_drop]
        omega
      have hsplit : Word.scan 0 source
          = (before ++ w :: rest.take (Item.read source w rest).2) ++ rest.drop (Item.read source w rest).2 := by
        rw [hs, List.append_assoc, List.cons_append, List.take_append_drop]
      obtain ⟨atoms, hall⟩ := ih _ hlt hsplit hquiet hmore (fun x hx => he x (List.mem_append_right _ hx)) rfl
      have hcons := Atom.AllSpelt.cons hspelt hall
      rw [List.cons_append, List.take_append_drop] at hcons
      exact ⟨_, hcons⟩

end Checker

end MapScript
