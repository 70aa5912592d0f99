import Mathlib.Data.List.Forall2
import MapScript.Proofs.Marks
import MapScript.Proofs.Visibility

/-! Texts with space between them are read one by one, as long as the first one is finished; and when it is not,
there is always something that its last statement would still take. -/

namespace MapScript

theorem Word.scan_append_blank_word (file : Int) (s : Text) {b w : Text} (hne : b ≠ []) (hb : b.isBlank = true)
    (hw : w.Inked) : scan file (s ++ b ++ w) = scan file s ++ [⟨w, file, s.length + b.length⟩] := by
  have hends : (s ++ b).EndsBlank := Text.endsBlank_append (Text.endsBlank_of_isBlank hb) (.inl hne)
  rw [scan_append file (s ++ b) w (.inl hends), scan_append_blank file hb, scan_inked file hw]
  simp [shift]

namespace Item

theorem isArgument_one : isArgument "1" = true := by
  have hname : Catalog.contains "1" = false := by
    rw [Catalog.contains, Catalog.find?_eq_none (by decide)]
    rfl
  rw [isArgument, hname]
  decide

/-- The item is found again further on, with all its locations moved and with the same words, comment text and
flaws. -/
structure Moved (n : Nat) (item moved : Item) : Prop where
  kind : moved.atom.kind = item.atom.kind
  span : moved.atom.span = item.atom.span.shift n
  words : moved.atom.words = item.atom.words.map (·.shift n)
  content : moved.atom.content? = item.atom.content?
  flaws : moved.flaws = item.flaws.map (·.shift n)

theorem moved_shift (n : Nat) (item : Item) : Moved n item (item.shift n) where
  kind := Atom.kind_shift n item.atom
  span := Atom.span_shift n item.atom
  words := by simp [shift, Atom.words]
  content := by rcases item with ⟨atom, flaws⟩; cases atom <;> rfl
  flaws := rfl

instance (item : Item) : Decidable item.Complete := List.decidableBAll _ item.flaws

/-- No later word could still belong to the last item. -/
def Finished (file : Int) (s : Text) : Prop :=
  Word.scan file s = [] ∨ ∃ last ∈ (parse file s).getLast?, last.Complete

instance (file : Int) (s : Text) : Decidable (Finished file s) := inferInstanceAs (Decidable (_ ∨ _))

theorem Finished.complete {file : Int} {s : Text} (h : Finished file s) :
    ∀ item ∈ (parse file s).getLast?, item.Complete := by
  obtain hs | ⟨last, hlast, hc⟩ := h
  · simp [parse, hs, readFrom]
  · intro item hi
    exact Option.mem_unique hlast hi ▸ hc

theorem exists_last_of_not_finished {file : Int} {s : Text} (h : ¬ Finished file s) :
    ∃ last ∈ (parse file s).getLast?, ¬ last.Complete := by
  obtain ⟨hs, hlast⟩ := not_or.1 h
  obtain ⟨w, rest, hw⟩ := List.exists_cons_of_ne_nil hs
  have hne : parse file s ≠ [] := by simp [parse, hw, readFrom_cons (reading s w rest)]
  refine ⟨_, List.getLast?_eq_some_getLast hne, fun hc => hlast ⟨_, List.getLast?_eq_some_getLast hne, hc⟩⟩

theorem parse_of_isBlank (file : Int) {b : Text} (hb : b.isBlank = true) : parse file b = [] := by
  rw [parse, Word.scan_of_isBlank file hb, readFrom]

theorem parse_append_blank_append (file : Int) {s sep : Text} (t : Text) (hs : Finished file s) (hne : sep ≠ [])
    (hb : sep.isBlank = true) :
    parse file (s ++ sep ++ t) = parse file s ++ (parse file t).map (shift (s.length + sep.length)) := by
  have hsep : parse file (s ++ sep) = parse file s := by
    rw [parse_append file (.inr (Text.startsBlank_of_isBlank hb)) hs.complete, parse_of_isBlank file hb,
      List.map_nil, List.append_nil]
  have hends : (s ++ sep).EndsBlank := Text.endsBlank_append (Text.endsBlank_of_isBlank hb) (.inl hne)
  rw [parse_append file (.inl hends) (hsep ▸ hs.complete), hsep, List.length_append]

/-- An item that takes all words that are left and lacks something takes an argument that comes then. -/
theorem Reading.swallow {source : Text} {w : Word} {rest : List Word} {item : Item}
    (h : Reading source w rest item rest.length) (hc : ¬ item.Complete) (t : Text) {arg : Word}
    (ha : isArgument arg.text = true) :
    ∃ longer, Reading (source ++ t) w (rest ++ [arg]) longer (rest.length + 1) := by
  generalize hu : rest.length = used at h
  cases h with
  | mark | alone | unary | const | closed | command | inline => exact absurd (complete_sound _) hc
  | unknown => exact absurd (by simp [Complete, flawed, Flaw.Kind.wantsMore]) hc
  | starved hw hk hr =>
    obtain rfl := List.eq_nil_of_length_eq_zero hu
    exact ⟨_, .unary hw hk ha⟩
  | @valueless name more hw hn hr =>
    obtain rfl : more = [] := by simpa using hu
    exact ⟨_, .const hw hn ha⟩
  | nameless hw hr =>
    obtain rfl := List.eq_nil_of_length_eq_zero hu
    exact ⟨_, .valueless hw ha (by simp)⟩
  | unclosed hw hi =>
    have hinner : ∀ v ∈ rest ++ [arg], v.text ≠ closeMark := by
      simpa [or_imp, forall_and] using ⟨hi, ne_closeMark_of_isArgument ha⟩
    have hlen : rest.length + 1 = (rest ++ [arg]).length := by simp
    rw [hlen]
    exact ⟨_, .unclosed hw hinner⟩
  | @short entry args more hw hl hargs hr =>
    obtain rfl : more = [] := by simpa using hu
    have hall : ∀ v ∈ args ++ [arg], isArgument v.text = true := by
      simpa [or_imp, forall_and] using ⟨hargs, ha⟩
    have hlen : args.length + 1 = (args ++ [arg]).length := by simp
    have htext : args ++ [] ++ [arg] = (args ++ [arg]) ++ [] := by simp
    rw [hlen, htext]
    obtain he | hlt := Nat.eq_or_lt_of_le (Nat.succ_le_of_lt hl)
    · exact ⟨_, .command hw (by simpa using he) hall⟩
    · exact ⟨_, .short hw (by simpa using hlt) hall (by simp)⟩

theorem length_readFrom_swallow {source : Text} {words : List Word} (hb : ∀ v ∈ words, v.stop ≤ source.length)
    (hc : ∃ last ∈ (readFrom source 0 words).getLast?, ¬ last.Complete) (t : Text) {arg : Word}
    (ha : isArgument arg.text = true) :
    (readFrom (source ++ t) 0 (words ++ [arg])).length = (readFrom source 0 words).length := by
  induction hn : words.length using Nat.strong_induction_on generalizing words with
  | _ n ih =>
    cases words with
    | nil => simp [readFrom] at hc
    | cons w rest =>
      have hr := reading source w rest
      have hb' : ∀ v ∈ rest, v.stop ≤ source.length := fun v hv => hb v (List.mem_cons_of_mem w hv)
      rw [readFrom_cons hr] at hc ⊢
      generalize (read source w rest).1 = item at *
      generalize (read source w rest).2 = used at *
      obtain hu | rfl := Nat.lt_or_eq_of_le hr.used_le
      · have hlt : (rest.drop used).length < n := by
          simp only [← hn, List.length_cons, List.length_drop]
          omega
        have hc' : ∃ last ∈ (readFrom source 0 (rest.drop used)).getLast?, ¬ last.Complete := by
          obtain ⟨v, more, hv⟩ := List.exists_cons_of_ne_nil (List.drop_eq_nil_iff.not.2 (Nat.not_le_of_lt hu))
          rw [hv, readFrom_cons (reading source v more)] at hc ⊢
          rwa [List.getLast?_cons_cons] at hc
        rw [List.cons_append, readFrom_cons (hr.extend hb' (.inl hu) t [arg]),
          List.drop_append_of_le_length (Nat.le_of_lt hu), List.length_cons, List.length_cons,
          ih _ hlt (fun v hv => hb' v (List.mem_of_mem_drop hv)) hc' rfl]
      · have hlast : ¬ item.Complete := by
          simpa [readFrom] using hc
        obtain ⟨longer, hl⟩ := hr.swallow hlast t ha
        rw [List.cons_append, readFrom_cons hl, List.drop_length, List.drop_eq_nil_of_le (by simp)]
        rfl

/-- Two texts with space between them are read as one after the other exactly if the first one is finished: its
items are followed by those of the second one, moved by the length of what comes before. -/
theorem parse_composes_iff (file : Int) (s : Text) :
    (∀ sep t : Text, sep ≠ [] → sep.isBlank = true →
      ∃ moved, parse file (s ++ sep ++ t) = parse file s ++ moved ∧
        List.Forall₂ (Moved (s.length + sep.length)) (parse file t) moved) ↔ Finished file s := by
  constructor
  · intro h
    by_contra hf
    obtain ⟨moved, hm, hall⟩ := h " " "1" (by decide) (by decide)
    have hink : Text.Inked "1" := ⟨by decide, by decide⟩
    have hone : (parse file "1").length = 1 := by
      rw [parse, Word.scan_inked file hink, readFrom_cons (reading ..)]
      simp [readFrom]
    have hsame : (parse file (s ++ " " ++ "1")).length = (parse file s).length := by
      rw [parse, Word.scan_append_blank_word file s (by decide) (by decide) hink, List.append_assoc]
      exact length_readFrom_swallow (fun v hv => Word.stop_le_of_mem_scan hv) (exists_last_of_not_finished hf) _
        isArgument_one
    have hmore := congrArg List.length hm
    rw [hsame, List.length_append, ← hall.length_eq, hone] at hmore
    omega
  · intro hs sep t hne hb
    refine ⟨_, parse_append_blank_append file t hs hne hb, ?_⟩
    exact List.forall₂_map_right_iff.2 (List.forall₂_same.2 fun item _ => moved_shift _ item)

def halves : Text × Text := ("#const A\r\nendif #define\u00a0x y", "/* B */ if C terrain_cost GRASS")

theorem halves_compose :
    Finished 0 halves.1 ∧
      ∃ moved, parse 0 (halves.1 ++ "\t\n" ++ halves.2) = parse 0 halves.1 ++ moved ∧
        List.Forall₂ (Moved (halves.1.length + 2)) (parse 0 halves.2) moved := by
  have hs : Finished 0 halves.1 := by decide +kernel
  exact ⟨hs, (parse_composes_iff 0 halves.1).2 hs "\t\n" halves.2 (by decide) (by decide)⟩

end Item

end MapScript
