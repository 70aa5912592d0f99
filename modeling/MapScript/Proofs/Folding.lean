import MapScript.Fold
import MapScript.Proofs.Balance

/-! Folding and the check of nesting keep stacks of their own, by rules of their own. As long as every atom fits what
is open, the two stacks hold the same atoms. -/

namespace MapScript

def Opener.kind : Opener → Atom.Kind
  | .ifThen => .ifThen
  | .elseIf => .elseIf
  | .elseThen => .elseThen
  | .startRandom => .startRandom
  | .percentChance => .percentChance
  | .brace => .openBlock

def Nesting.Opened (n : Nesting) : Prop := n.atom.kind = n.opener.kind

namespace Fold

variable (source : Text)

def waitingAfter (waiting : List Atom) (atoms : List Atom) : List Atom :=
  atoms.foldl (fun waiting atom => (step source waiting atom).1) waiting

theorem run_append (waiting xs ys : List Atom) :
    run source waiting (xs ++ ys) = run source waiting xs ++ run source (waitingAfter source waiting xs) ys := by
  induction xs generalizing waiting with
  | nil => rfl
  | cons a xs ih => simp [run, ih, waitingAfter]

theorem fst_close_of_mem {kinds : List Atom.Kind} {top : Atom} (h : top.kind ∈ kinds) (last : Nat) (rest : List Atom) :
    (close source kinds last (top :: rest)).1 = rest := by
  rw [close, if_pos (List.contains_iff_mem.2 h)]

theorem fst_close_of_notMem {kinds : List Atom.Kind} {top : Atom} (h : top.kind ∉ kinds) (last : Nat)
    (rest : List Atom) : (close source kinds last (top :: rest)).1 = top :: rest := by
  rw [close, if_neg (mt List.contains_iff_mem.1 h)]

theorem fst_branch {top : Atom} (h : top.kind = .ifThen ∨ top.kind = .elseIf) (a : Atom) (rest : List Atom) :
    (branch source a (top :: rest)).1 = a :: rest := by
  rw [branch, if_pos (by simpa using h)]

theorem fst_step_plain {a : Atom} (h : a.kind.isMarker = false) (waiting : List Atom) :
    (step source waiting a).1 = waiting := by
  cases a with
  | comment opener content closer stop => cases closer <;> rfl
  | const | define | undefine | sectionMark | command | other => rfl
  | _ => simp [Atom.kind, Atom.Kind.isMarker] at h

theorem fst_step_chance {a : Atom} (h : a.kind = .percentChance) (waiting : List Atom) :
    ∃ last, (step source waiting a).1 = a :: (close source [.percentChance] last waiting).1 := by
  cases a <;> simp [Atom.kind] at h
  exact ⟨_, rfl⟩

theorem fst_step_endRandom {a : Atom} (h : a.kind = .endRandom) (waiting : List Atom) :
    ∃ last here, (step source waiting a).1
      = (close source [.startRandom] here (close source [.percentChance] last waiting).1).1 := by
  cases a <;> simp [Atom.kind] at h
  exact ⟨_, _, rfl⟩

end Fold

namespace Nesting

/-- What folding does with an atom that fits is what the check of nesting does with it. -/
theorem Move.fst_step {s t : List Nesting} {a : Atom} (h : Move s a t) (hs : ∀ n ∈ s, n.Opened) (source : Text) :
    (Fold.step source (s.map Nesting.atom) a).1 = t.map Nesting.atom := by
  cases h with
  | plain h => exact Fold.fst_step_plain source h _
  | openBlock h | ifThen h | startRandom h =>
    cases a <;> simp [Atom.kind] at h
    rfl
  | closeBlock h =>
    cases a <;> simp [Atom.kind] at h
    exact Fold.fst_close_of_mem source (by simpa [Opened, Opener.kind] using hs _ List.mem_cons_self) _ _
  | @elseIf n _ _ h hn | @elseThen n _ _ h hn =>
    cases a <;> simp [Atom.kind] at h
    refine Fold.fst_branch source ?_ _ _
    have hkind := hs n List.mem_cons_self
    obtain ⟨opener, o⟩ := n
    cases opener <;> simp_all [Opened, Opener.kind, Opener.continues]
  | @endIf n _ _ h hn =>
    cases a <;> simp [Atom.kind] at h
    refine Fold.fst_close_of_mem source ?_ _ _
    have hkind := hs n List.mem_cons_self
    obtain ⟨opener, o⟩ := n
    cases opener <;> simp_all [Opened, Opener.kind, Opener.isBranch]
  | @firstChance o r _ h =>
    have hgroup : o.kind = .startRandom := hs _ List.mem_cons_self
    obtain ⟨last, hstep⟩ := Fold.fst_step_chance source h (o :: r.map Nesting.atom)
    exact hstep.trans (congrArg (a :: ·) (Fold.fst_close_of_notMem source (by simp [hgroup]) _ _))
  | @nextChance c o r _ h =>
    have hchance : c.kind = .percentChance := hs _ List.mem_cons_self
    obtain ⟨last, hstep⟩ := Fold.fst_step_chance source h (c :: o :: r.map Nesting.atom)
    exact hstep.trans (congrArg (a :: ·) (Fold.fst_close_of_mem source (by simp [hchance]) _ _))
  | @endRandom o _ _ h =>
    have hgroup : o.kind = .startRandom := hs _ List.mem_cons_self
    obtain ⟨last, here, hstep⟩ := Fold.fst_step_endRandom source h (o :: t.map Nesting.atom)
    rw [Fold.fst_close_of_notMem source (by simp [hgroup])] at hstep
    exact hstep.trans (Fold.fst_close_of_mem source (by simp [hgroup]) _ _)
  | @endChance c o _ _ h =>
    have hchance : c.kind = .percentChance := hs _ List.mem_cons_self
    have hgroup : o.kind = .startRandom := hs ⟨.startRandom, o⟩ (by simp)
    obtain ⟨last, here, hstep⟩ := Fold.fst_step_endRandom source h (c :: o :: t.map Nesting.atom)
    rw [Fold.fst_close_of_mem source (by simp [hchance])] at hstep
    exact hstep.trans (Fold.fst_close_of_mem source (by simp [hgroup]) _ _)

theorem Move.opened {s t : List Nesting} {a : Atom} (h : Move s a t) (hs : ∀ n ∈ s, n.Opened) : ∀ n ∈ t, n.Opened := by
  cases h with
  | plain => exact hs
  | openBlock h | ifThen h | startRandom h => exact List.forall_mem_cons.2 ⟨h, hs⟩
  | elseIf h | elseThen h => exact List.forall_mem_cons.2 ⟨h, (List.forall_mem_cons.1 hs).2⟩
  | closeBlock | endIf | endRandom => exact (List.forall_mem_cons.1 hs).2
  | firstChance h => exact List.forall_mem_cons.2 ⟨h, hs⟩
  | nextChance h => exact List.forall_mem_cons.2 ⟨h, (List.forall_mem_cons.1 hs).2⟩
  | endChance => exact (List.forall_mem_cons.1 (List.forall_mem_cons.1 hs).2).2

theorem Passes.waitingAfter {s t : List Nesting} {atoms : List Atom} (h : Passes s atoms t)
    (hs : ∀ n ∈ s, n.Opened) (source : Text) :
    Fold.waitingAfter source (s.map Nesting.atom) atoms = t.map Nesting.atom := by
  induction h with
  | nil => rfl
  | cons head _ ih =>
    rw [Fold.waitingAfter, List.foldl_cons, head.fst_step hs]
    exact ih (head.opened hs)

end Nesting

namespace Fold

/-- Folding and the check of nesting see the same structure: where nothing has been found wrong with the nesting of the
atoms read so far, those that wait to be folded are those of the open constructs, and folding goes on from there. -/
theorem waiting_eq_open {file : Int} {source : Text} {seen ahead : List Atom}
    (hs : Atom.parse file source = seen ++ ahead) (hp : Nesting.problems [] seen = []) :
    waitingAfter source [] seen = (Nesting.after [] seen).map Nesting.atom ∧
      run source [] (Atom.parse file source)
        = run source [] seen ++ run source ((Nesting.after [] seen).map Nesting.atom) ahead := by
  have hwaiting : waitingAfter source [] seen = (Nesting.after [] seen).map Nesting.atom :=
    (Nesting.passes_iff.2 ⟨hp, rfl⟩).waitingAfter (by simp) source
  exact ⟨hwaiting, by rw [hs, run_append, hwaiting]⟩

def halfOpen : Text :=
  "if A start_random percent_chance 50 \x7b \x7d percent_chance 50 IF B else #define C /* d */ \x7d \x7d"

theorem halfOpen_waiting_eq_open :
    Atom.parse 0 halfOpen = (Atom.parse 0 halfOpen).take 10 ++ (Atom.parse 0 halfOpen).drop 10 ∧
      Nesting.problems [] ((Atom.parse 0 halfOpen).take 10) = [] ∧
      waitingAfter halfOpen [] ((Atom.parse 0 halfOpen).take 10)
        = (Nesting.after [] ((Atom.parse 0 halfOpen).take 10)).map Nesting.atom ∧
      run halfOpen [] (Atom.parse 0 halfOpen)
        = run halfOpen [] ((Atom.parse 0 halfOpen).take 10)
          ++ run halfOpen ((Nesting.after [] ((Atom.parse 0 halfOpen).take 10)).map Nesting.atom)
            ((Atom.parse 0 halfOpen).drop 10) := by
  have hs := (List.take_append_drop 10 (Atom.parse 0 halfOpen)).symm
  have hp : Nesting.problems [] ((Atom.parse 0 halfOpen).take 10) = [] := by decide +kernel
  exact ⟨hs, hp, waiting_eq_open hs hp⟩

end Fold

end MapScript
