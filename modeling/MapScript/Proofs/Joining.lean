import MapScript.Proofs.Reading

/-! Reading a text that is put together from two: when nothing is missing at the end of the first one, its
items come first, and then those of the second one at their new places. -/

namespace MapScript

namespace Atom

def shift (n : Nat) : Atom → Atom
  | .const head name value => .const (head.shift n) (name.shift n) (value.map (·.shift n))
  | .define head name => .define (head.shift n) (name.shift n)
  | .undefine head name => .undefine (head.shift n) (name.shift n)
  | .sectionMark name => .sectionMark (name.shift n)
  | .ifThen head condition => .ifThen (head.shift n) (condition.shift n)
  | .elseIf head condition => .elseIf (head.shift n) (condition.shift n)
  | .elseThen head => .elseThen (head.shift n)
  | .endIf head => .endIf (head.shift n)
  | .startRandom head => .startRandom (head.shift n)
  | .percentChance head chance => .percentChance (head.shift n) (chance.shift n)
  | .endRandom head => .endRandom (head.shift n)
  | .openBlock head => .openBlock (head.shift n)
  | .closeBlock head => .closeBlock (head.shift n)
  | .command name args => .command (name.shift n) (args.map (·.shift n))
  | .comment opener content closer stop =>
    .comment (opener.shift n) content (closer.map (·.shift n)) (stop + n)
  | .other word => .other (word.shift n)

@[simp] theorem kind_shift (n : Nat) (a : Atom) : (a.shift n).kind = a.kind := by
  cases a <;> rfl

@[simp] theorem head_shift (n : Nat) (a : Atom) : (a.shift n).head = a.head.shift n := by
  cases a <;> rfl

@[simp] theorem tail_shift (n : Nat) (a : Atom) : (a.shift n).tail = a.tail.map (·.shift n) := by
  cases a with
  | const head name value => cases value <;> rfl
  | comment opener content closer stop => cases closer <;> rfl
  | _ => rfl

theorem getLastD_map_shift (n : Nat) (w : Word) (ws : List Word) :
    (ws.map (·.shift n)).getLastD (w.shift n) = (ws.getLastD w).shift n := by
  induction ws generalizing w with
  | nil => rfl
  | cons v ws ih => rw [List.map_cons, List.getLastD_cons, List.getLastD_cons, ih]

@[simp] theorem start_shift (n : Nat) (a : Atom) : (a.shift n).start = a.start + n := by
  simp [start]

@[simp] theorem stop_shift (n : Nat) (a : Atom) : (a.shift n).stop = a.stop + n := by
  by_cases hk : a.kind = .comment
  · cases a <;> simp [kind] at hk
    rfl
  · rw [stop_eq_getLastD hk, stop_eq_getLastD (by simpa using hk), head_shift, tail_shift,
      getLastD_map_shift, Word.shift_stop]

@[simp] theorem span_shift (n : Nat) (a : Atom) : (a.shift n).span = a.span.shift n := by
  simp [span, file, Span.shift]

end Atom

def Flaw.shift (n : Nat) (f : Flaw) : Flaw := { f with span := f.span.shift n }

theorem Text.slice_append (s t : Text) {start stop : Nat} (h : stop ≤ s.length) :
    (s ++ t).slice start stop = s.slice start stop := by
  rw [slice, slice, List.take_append_of_le_length h]

theorem Text.slice_shift (s t : Text) (start stop : Nat) :
    (s ++ t).slice (start + s.length) (stop + s.length) = t.slice start stop := by
  rw [slice, slice, Nat.add_comm stop, Nat.add_comm start, List.take_length_add_append,
    List.drop_length_add_append]

theorem Keyword.wantsMore_of_unary? {k : Keyword} {build : Word → Word → Atom}
    {missing : Flaw.Kind} (h : k.unary? = some (build, missing)) : missing.wantsMore = true := by
  cases k <;> simp only [Keyword.unary?, Option.some.injEq, Prod.mk.injEq, reduceCtorEq] at h <;>
    obtain ⟨rfl, rfl⟩ := h <;> rfl

namespace Item

def shift (n : Nat) (item : Item) : Item := ⟨item.atom.shift n, item.flaws.map (·.shift n)⟩

@[simp] theorem shift_sound (n : Nat) (a : Atom) : (sound a).shift n = sound (a.shift n) := rfl

@[simp] theorem shift_flawed (n : Nat) (a : Atom) (kind : Flaw.Kind) :
    (flawed a kind).shift n = flawed (a.shift n) kind := by
  simp [shift, flawed, Flaw.shift]

/-- Nothing that comes later could still belong to the item. -/
def Complete (item : Item) : Prop :=
  ∀ f ∈ item.flaws, f.kind.wantsMore = false ∧ f.kind ≠ .unclosedComment

theorem complete_sound (a : Atom) : Complete (sound a) := by simp [Complete, sound]

theorem not_complete_flawed {a : Atom} {kind : Flaw.Kind} (hk : kind.wantsMore = true) :
    ¬ Complete (flawed a kind) := by
  intro h
  have hf := (h ⟨kind, a.span⟩ (by simp [flawed])).1
  simp [hk] at hf

theorem head?_append_argument {rest more : List Word} {p : Word → Prop} (hr : ∀ next ∈ rest.head?, p next)
    (hne : rest ≠ []) : ∀ next ∈ (rest ++ more).head?, p next := by
  cases rest with
  | nil => exact absurd rfl hne
  | cons v rest => simpa using hr

/-- An item stays the same when more words follow, unless it is the last one and lacks something. -/
theorem Reading.extend {source : Text} {w : Word} {rest : List Word} {item : Item} {used : Nat}
    (h : Reading source w rest item used) (hb : ∀ v ∈ rest, v.stop ≤ source.length)
    (hc : used < rest.length ∨ item.Complete) (t : Text) (more : List Word) :
    Reading (source ++ t) w (rest ++ more) item used := by
  cases h with
  | mark hw => exact .mark hw
  | alone hw hk => exact .alone hw hk
  | unary hw hk ha => exact .unary hw hk ha
  | starved hw hk hr =>
    -- If no word were left, a later one could be the missing argument.
    have hne : rest ≠ [] := by
      rintro rfl
      exact hc.elim (by simp) (not_complete_flawed (Keyword.wantsMore_of_unary? hk))
    exact .starved hw hk (head?_append_argument hr hne)
  | const hw hn hv => exact .const hw hn hv
  | @valueless name after hw hn hr =>
    have hne : after ≠ [] := by
      rintro rfl
      exact hc.elim (by simp) (not_complete_flawed rfl)
    exact .valueless hw hn (head?_append_argument hr hne)
  | nameless hw hr =>
    have hne : rest ≠ [] := by
      rintro rfl
      exact hc.elim (by simp) (not_complete_flawed rfl)
    exact .nameless hw (head?_append_argument hr hne)
  | @closed inner closer after hw hi hm =>
    have hs : closer.start ≤ source.length :=
      Nat.le_trans (Nat.le_add_right _ _) (hb closer (by simp))
    rw [← Text.slice_append source t hs, List.append_assoc]
    exact .closed hw hi hm
  | unclosed hw hi =>
    exfalso
    rcases hc with hc | hc
    · exact Nat.lt_irrefl _ hc
    · exact (hc _ (List.mem_singleton_self _)).2 rfl
  | command hw hl ha =>
    rw [List.append_assoc]
    exact .command hw hl ha
  | @short entry args after hw hl ha hr =>
    have hne : after ≠ [] := by
      rintro rfl
      exact hc.elim (by simp) (not_complete_flawed rfl)
    rw [List.append_assoc]
    exact .short hw hl ha (head?_append_argument hr hne)
  | inline hw => exact .inline hw
  | unknown hw => exact .unknown hw

theorem inlineComment_shift {w : Word} (h : isInlineComment w.text = true) (n : Nat) :
    inlineComment (w.shift n) = (inlineComment w).shift n := by
  have hl : 4 ≤ w.text.length := by simp_all [isInlineComment]
  have hs : w.start + n + w.text.length - 2 = w.start + w.text.length - 2 + n := by omega
  simp [inlineComment, Atom.shift, Word.shift, Word.stop, hs]
  omega

theorem Reading.shift {source : Text} {w : Word} {rest : List Word} {item : Item} {used : Nat}
    (h : Reading source w rest item used) (s : Text) :
    Reading (s ++ source) (w.shift s.length) (rest.map (·.shift s.length)) (item.shift s.length) used := by
  cases h with
  | mark hw => exact .mark hw
  | @alone _ k build hw hk =>
    cases k <;> simp only [Keyword.alone?, Option.some.injEq, reduceCtorEq] at hk <;> subst hk <;>
      exact .alone hw rfl
  | @unary k build missing arg more hw hk ha =>
    cases k <;> simp only [Keyword.unary?, Option.some.injEq, Prod.mk.injEq, reduceCtorEq] at hk <;>
      obtain ⟨rfl, rfl⟩ := hk <;> exact .unary hw rfl ha
  | starved hw hk hr =>
    rw [shift_flawed]
    exact .starved hw hk (by simpa using hr)
  | const hw hn hv => exact .const hw hn hv
  | valueless hw hn hr =>
    rw [shift_flawed]
    exact .valueless hw hn (by simpa using hr)
  | nameless hw hr =>
    rw [shift_flawed]
    exact .nameless hw (by simpa using hr)
  | @closed inner closer more hw hi hm =>
    have ht := Text.slice_shift s source w.stop closer.start
    rw [← Word.shift_stop, ← Word.shift_start] at ht
    have hl : inner.length = (inner.map (·.shift s.length)).length := by simp
    rw [List.map_append, List.map_cons, shift_sound, Atom.shift, ← ht, ← Word.shift_stop, hl]
    exact .closed hw (by simpa using hi) hm
  | unclosed hw hi =>
    have ht : (s ++ source).drop (w.shift s.length).stop = source.drop w.stop := by
      rw [Word.shift_stop, Nat.add_comm, List.drop_length_add_append]
    have hl : rest.length = (rest.map (·.shift s.length)).length := by simp
    rw [shift_flawed, Atom.shift, ← ht, ← Word.shift_stop, ← Atom.getLastD_map_shift, hl]
    exact .unclosed hw (by simpa using hi)
  | @command entry args more hw hl ha =>
    have hlen : args.length = (args.map (·.shift s.length)).length := by simp
    rw [List.map_append, hlen]
    exact .command hw (by simpa using hl) (by simpa using ha)
  | @short entry args more hw hl ha hr =>
    have hlen : args.length = (args.map (·.shift s.length)).length := by simp
    rw [List.map_append, shift_flawed, hlen]
    exact .short hw (by simpa using hl) (by simpa using ha) (by simpa using hr)
  | inline hw =>
    have hi := Lead.of_fits w.text
    rw [hw] at hi
    rw [shift_sound, ← inlineComment_shift hi]
    exact .inline hw
  | unknown hw =>
    rw [shift_flawed]
    exact .unknown hw

theorem readFrom_shift (s source : Text) (words : List Word) :
    readFrom (s ++ source) 0 (words.map (·.shift s.length))
      = (readFrom source 0 words).map (·.shift s.length) := by
  induction hn : words.length using Nat.strong_induction_on generalizing words with
  | _ n ih =>
    cases words with
    | nil => rfl
    | cons w rest =>
      have hr := reading source w rest
      have hlt : (rest.drop (read source w rest).2).length < n := by
        simp only [← hn, List.length_cons, List.length_drop]
        omega
      rw [List.map_cons, readFrom_cons hr, readFrom_cons (hr.shift s), ← List.map_drop, ih _ hlt _ rfl,
        List.map_cons]

theorem readFrom_append {source : Text} {words : List Word} (hb : ∀ v ∈ words, v.stop ≤ source.length)
    (hc : ∀ item ∈ (readFrom source 0 words).getLast?, item.Complete) (t : Text) (more : List Word) :
    readFrom (source ++ t) 0 (words ++ more)
      = readFrom source 0 words ++ readFrom (source ++ t) 0 more := by
  induction hn : words.length using Nat.strong_induction_on generalizing words with
  | _ n ih =>
    cases words with
    | nil => rfl
    | cons w rest =>
      have hr := reading source w rest
      have hb' : ∀ v ∈ rest, v.stop ≤ source.length := fun v hv => hb v (List.mem_cons_of_mem w hv)
      have hlt : (rest.drop (read source w rest).2).length < n := by
        simp only [← hn, List.length_cons, List.length_drop]
        omega
      rw [readFrom_cons hr] at hc ⊢
      -- Only an item that takes all words that are left could take some of the others too.
      by_cases hu : (read source w rest).2 < rest.length
      · have hc' : ∀ item ∈ (readFrom source 0 (rest.drop (read source w rest).2)).getLast?,
            item.Complete := by
          intro item hi
          exact hc item (by simp [List.getLast?_cons, Option.mem_def.1 hi])
        have hd : (rest ++ more).drop (read source w rest).2
            = rest.drop (read source w rest).2 ++ more :=
          List.drop_append_of_le_length (Nat.le_of_lt hu)
        rw [List.cons_append, readFrom_cons (hr.extend hb' (.inl hu) t more), hd,
          ih _ hlt (fun v hv => hb' v (List.mem_of_mem_drop hv)) hc' rfl, List.cons_append]
      · have he : rest.drop (read source w rest).2 = [] := List.drop_eq_nil_of_le (by omega)
        have hl : rest.length = (read source w rest).2 := by
          have := hr.used_le
          omega
        rw [he] at hc ⊢
        have hcomplete := hc (read source w rest).1 (by simp [readFrom])
        rw [List.cons_append, readFrom_cons (hr.extend hb' (.inr hcomplete) t more), ← hl, List.drop_left]
        rfl

theorem parse_append (file : Int) {s t : Text} (h : s.EndsBlank ∨ t.StartsBlank)
    (hc : ∀ item ∈ (parse file s).getLast?, item.Complete) :
    parse file (s ++ t) = parse file s ++ (parse file t).map (·.shift s.length) := by
  rw [parse, Word.scan_append file s t h,
    readFrom_append (fun v hv => Word.stop_le_of_mem_scan hv) hc, readFrom_shift]
  rfl

end Item

end MapScript
