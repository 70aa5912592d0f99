import MapScript.Proofs.Counting
import MapScript.Proofs.Origins
import MapScript.Proofs.ArgumentRemarks
import MapScript.Proofs.Stranding

/-! The words that are shown to the rules, and the calls that are put together of two of them. -/

namespace MapScript

namespace Cursor

/-- The words outside of comments, each with where the pass is when it is shown to the rules. -/
def heard (c : Cursor) : List Word → List (Word × Cursor)
  | [] => []
  | w :: rest =>
    if (c.enter w.text).inComment then heard (c.pass w) rest else (w, c.enter w.text) :: heard (c.pass w) rest

theorem exists_of_heard {c : Cursor} {words : List Word} {front back : List (Word × Cursor)} {w : Word} {k : Cursor}
    (h : c.heard words = front ++ (w, k) :: back) :
    ∃ before after, words = before ++ w :: after ∧ c.heard before = front ∧
      ((c.after before).enter w.text).inComment = false ∧ (c.after (before ++ [w])).heard after = back := by
  induction words generalizing c front with
  | nil => simp [heard] at h
  | cons v words ih =>
    rw [heard] at h
    split at h
    · next hv =>
      obtain ⟨before, after, rfl, hfront, hw, hback⟩ := ih h
      exact ⟨v :: before, after, rfl, by rw [heard, if_pos hv, hfront], hw, hback⟩
    · next hv =>
      cases front with
      | nil =>
        obtain ⟨hpair, hback⟩ := List.cons.inj h
        obtain ⟨rfl, rfl⟩ := Prod.mk.inj hpair
        exact ⟨[], words, rfl, rfl, Bool.eq_false_iff.2 hv, hback⟩
      | cons pair front =>
        obtain ⟨rfl, hrest⟩ := List.cons.inj h
        obtain ⟨before, after, rfl, hfront, hw, hback⟩ := ih hrest
        exact ⟨v :: before, after, rfl, by rw [heard, if_neg hv, hfront], hw, hback⟩

theorem heard_append (c : Cursor) (xs ys : List Word) : c.heard (xs ++ ys) = c.heard xs ++ (c.after xs).heard ys := by
  induction xs generalizing c with
  | nil => rfl
  | cons w xs ih =>
    rw [List.cons_append, heard, heard, ih]
    split
    · rfl
    · rfl

theorem not_openMark_of_enter {c : Cursor} {t : Text} (h : (c.enter t).inComment = false) :
    c.inComment = false ∧ t.startsWith Item.openMark = false := by
  rwa [Marks.enter_inComment, Marks.inside, Bool.or_eq_false_iff] at h

theorem inComment_pass_of_enter {c : Cursor} {w : Word} (h : (c.enter w.text).inComment = false) :
    (c.pass w).inComment = false := by
  rw [pass, Marks.leave_inComment, h]
  rfl

/-- Words after which none has been heard start with the mark of a comment. -/
theorem openMark_of_heard_eq_nil {c : Cursor} (hc : c.inComment = false) {w : Word} {rest : List Word}
    (h : c.heard (w :: rest) = []) : w.text.startsWith Item.openMark = true := by
  rw [heard] at h
  split at h
  · next hw =>
    rw [Marks.enter_inComment, Marks.inside, hc, Bool.false_or] at hw
    exact hw
  · cases h

end Cursor

namespace Rule.ArgTypes

def starts (c : Cursor) (w : Word) : Bool :=
  c.entry.any (fun entry => entry.argType? c.argIndex = some .number) && Rnd.isUnfinished w.text

def remember (waiting : Option Word) (heard : Word × Cursor) : Option Word :=
  if waiting.isNone && starts heard.2 heard.1 then some heard.1 else none

theorem snd_onWord (c : Cursor) (waiting : Option Word) (w : Word) :
    (onWord c waiting w).2 = remember waiting (w, c) := by
  cases waiting with
  | some first => rfl
  | none =>
    cases he : c.entry with
    | none => simp [onWord, remember, starts, he]
    | some entry =>
      simp only [onWord, he, remember, starts, Option.any_some, Option.isNone_none, Bool.true_and]
      exact apply_ite Prod.snd _ _ _

/-- The calls in two words each: a word with which a call starts, and the next word that is heard. -/
def calls (waiting : Option Word) : List (Word × Cursor) → List (Word × Word)
  | [] => []
  | pair :: rest => (waiting.map fun first => (first, pair.1)).toList ++ calls (remember waiting pair) rest

theorem mem_calls_iff {waiting : Option Word} {heard : List (Word × Cursor)} {first next : Word} :
    (first, next) ∈ calls waiting heard ↔
      ∃ front k back, heard = front ++ (next, k) :: back ∧ front.foldl remember waiting = some first := by
  induction heard generalizing waiting with
  | nil => simp [calls]
  | cons pair rest ih =>
    rw [calls, List.mem_append, Option.mem_toList, Option.map_eq_some_iff, ih]
    constructor
    · rintro (⟨w, hw, he⟩ | ⟨front, k, back, rfl, hf⟩)
      · obtain ⟨rfl, rfl⟩ := Prod.mk.inj he
        exact ⟨[], pair.2, rest, rfl, hw⟩
      · exact ⟨pair :: front, k, back, rfl, hf⟩
    · rintro ⟨front, k, back, hs, hf⟩
      cases front with
      | nil =>
        obtain ⟨rfl, rfl⟩ := List.cons.inj hs
        exact .inl ⟨first, hf, rfl⟩
      | cons other front =>
        obtain ⟨rfl, rfl⟩ := List.cons.inj hs
        exact .inr ⟨front, k, back, rfl, hf⟩

theorem exists_of_remember {heard : List (Word × Cursor)} {first : Word}
    (h : heard.foldl remember none = some first) :
    ∃ front k, heard = front ++ [(first, k)] ∧ starts k first = true := by
  rcases heard.eq_nil_or_concat with rfl | ⟨front, pair, rfl⟩
  · simp at h
  · rw [List.concat_eq_append, List.foldl_append, List.foldl_cons, List.foldl_nil, remember] at h
    split at h
    · next hs =>
      rw [Bool.and_eq_true] at hs
      obtain rfl := Option.some.inj h
      exact ⟨front, pair.2, List.concat_eq_append, hs.2⟩
    · cases h

/-- The words of a call, with what is between them: nothing, or words of which the first opens a comment. -/
theorem exists_of_calls {words : List Word} {first next : Word}
    (h : (first, next) ∈ calls none (Cursor.heard {} words)) :
    ∃ before inner after, words = before ++ first :: (inner ++ next :: after) ∧
      first.text.startsWith Item.openMark = false ∧ next.text.startsWith Item.openMark = false ∧
      ∀ w ∈ inner.head?, w.text.startsWith Item.openMark = true := by
  obtain ⟨front, k, back, hs, hf⟩ := mem_calls_iff.1 h
  obtain ⟨earlier, after, rfl, hheard, hnext, -⟩ := Cursor.exists_of_heard hs
  obtain ⟨front, k', rfl, -⟩ := exists_of_remember hf
  obtain ⟨before, inner, rfl, -, hfirst, hinner⟩ := Cursor.exists_of_heard hheard
  refine ⟨before, inner, after, by simp, (Cursor.not_openMark_of_enter hfirst).2,
    (Cursor.not_openMark_of_enter hnext).2, fun w hw => ?_⟩
  obtain ⟨rest, rfl⟩ := List.head?_eq_some_iff.1 hw
  rw [Cursor.after_append] at hinner
  exact Cursor.openMark_of_heard_eq_nil (Cursor.inComment_pass_of_enter hfirst) hinner

end Rule.ArgTypes

namespace Checker

open Rule.ArgTypes (calls remember)

theorem watches_writeWords {c : Checker} {m : Memory} (hc : c.watches = [⟨.argTypes, m⟩]) (words : List Word) :
    ∃ m', (c.writeWords words).1.watches = [⟨.argTypes, m'⟩] ∧
      m'.unfinished = (c.tracker.cursor.heard words).foldl remember m.unfinished := by
  induction words generalizing c m with
  | nil => exact ⟨m, hc, rfl⟩
  | cons w words ih =>
    have hstep : ∃ m', (c.writeWord w).1.watches = [⟨.argTypes, m'⟩] ∧
        m'.unfinished = (c.tracker.cursor.heard [w]).foldl remember m.unfinished := by
      have hshown : (c.writeWord w).1.watches =
          (Watch.allOnWord { c.tracker with cursor := c.tracker.cursor.enter w.text } w [⟨.argTypes, m⟩]).1 := by
        rw [← hc]
        rfl
      rw [hshown, Watch.fst_allOnWord_cons, Watch.allOnWord, ite_self]
      cases hi : (c.tracker.cursor.enter w.text).inComment with
      | true => exact ⟨m, by simp, by simp [Cursor.heard, hi]⟩
      | false =>
        refine ⟨{ m with unfinished := remember m.unfinished (w, c.tracker.cursor.enter w.text) }, ?_, ?_⟩
        · rw [if_pos ⟨rfl, rfl⟩, ← Rule.ArgTypes.snd_onWord]
          rfl
        · simp [Cursor.heard, hi]
    obtain ⟨m', hw, hm'⟩ := hstep
    obtain ⟨m'', hws, hm''⟩ := ih hw
    refine ⟨m'', hws, ?_⟩
    rw [hm'', hm', ← List.foldl_append]
    exact congrArg (List.foldl remember m.unfinished) (c.tracker.cursor.heard_append [w] words).symm

theorem joins_only {p : Rule → Bool} (hp : p .argTypes = true) {c : Checker} {words : List Word} {first next : Word} :
    (c.only p).Joins words first next ↔ c.Joins words first next := by
  have hcode : ∀ rule : Rule, rule.name = Rule.argTypes.name → p rule = true := by
    intro rule hr
    rwa [Rule.name_injective hr]
  have hone : ∀ before, ((c.only p).writeWords before).1 = (c.writeWords before).1.only p := fun before =>
    (writeWords_only p hcode c before).1
  simp only [Joins, hone]
  simp only [only, Watch.pending?_only, hp, if_true]

theorem argTypes_mem_of_joins {c : Checker} {words : List Word} {first next : Word} (h : c.Joins words first next) :
    .argTypes ∈ c.rules := by
  obtain ⟨before, after, -, -, -, hf⟩ := h
  obtain ⟨watch, hm, hw⟩ := List.exists_of_findSome?_eq_some hf
  rw [← (tracker_writeWords c before).1]
  split at hw
  · next hr => exact List.mem_map.2 ⟨watch, hm, hr⟩
  · cases hw

/-- Where the rule for the types of arguments is in use once, the calls are those that are heard, less those with a
rest that is wrong as a mark. -/
theorem joins_iff {rules : List Rule} (hd : rules.Nodup) (hr : .argTypes ∈ rules) {level : Level} {builtinMap : Bool}
    {words : List Word} {first next : Word} :
    (initial rules level builtinMap).Joins words first next ↔
      (first, next) ∈ calls none (Cursor.heard {} words) ∧ Marks.problem false next = none := by
  have hone : (initial rules level builtinMap).only (· == .argTypes) = initial [.argTypes] level builtinMap := by
    rw [only_initial, Check.filter_rules_of_mem hd hr]
  rw [← joins_only (p := (· == .argTypes)) rfl, hone, Rule.ArgTypes.mem_calls_iff]
  have hpending : ∀ before, Watch.pending? ((initial [.argTypes] level builtinMap).writeWords before).1.watches =
      (Cursor.heard {} before).foldl remember none := by
    intro before
    obtain ⟨m, hm, hu⟩ := watches_writeWords (c := initial [.argTypes] level builtinMap) rfl before
    rw [hm, Watch.pending?_cons, if_pos rfl, hu]
    exact Option.or_none
  have hcursor : ∀ before, ((initial [.argTypes] level builtinMap).writeWords before).1.tracker.cursor =
      Cursor.after {} before := cursor_writeWords _
  simp only [Joins, hpending, hcursor, ← Marks.enter_inComment]
  constructor
  · rintro ⟨before, after, rfl, hi, hm, hf⟩
    have hheard : Cursor.heard {} (before ++ next :: after) = Cursor.heard {} before ++
        (next, (Cursor.after {} before).enter next.text) :: ((Cursor.after {} before).pass next).heard after := by
      rw [Cursor.heard_append, Cursor.heard, if_neg (by simp [hi])]
    exact ⟨⟨_, _, _, hheard, hf⟩, hm⟩
  · rintro ⟨⟨front, k, back, hs, hf⟩, hm⟩
    obtain ⟨before, after, hw, rfl, hi, -⟩ := Cursor.exists_of_heard hs
    exact ⟨before, after, hw, hi, hm, hf⟩

end Checker

section Range

variable {file : Int} {source : Text} {before inner after : List Word} {first next : Word}
  (h : Word.scan file source = before ++ first :: (inner ++ next :: after))

include h

theorem Word.covers_through_iff {w : Word} (hw : w ∈ Word.scan file source) :
    (first.span.through next.span).Covers w.span ↔ w ∈ first :: (inner ++ [next]) := by
  have hord := Word.ordered_scan file source
  have hink : ∀ v ∈ Word.scan file source, v.text.Inked := fun v hv => Word.inked_of_mem_scan hv
  have hfront : Word.scan file source = before ++ (first :: (inner ++ [next]) ++ after) := by simp [h]
  constructor
  · intro hc
    rw [hfront, List.mem_append, List.mem_append] at hw
    rcases hw with hw | hw | hw
    · exact absurd hc (hord.not_covers hink hfront (.inl ⟨by simp, rfl, hw⟩))
    · exact hw
    · have hback : Word.scan file source = (before ++ first :: (inner ++ [next])) ++ after := by simp [h]
      exact absurd hc (hord.not_covers hink hback (.inr ⟨by simp, rfl, hw⟩))
  · intro hw'
    have hgroup : Word.Ordered (first :: (inner ++ [next])) := ((hord.parts hfront).2.parts rfl).1
    have hfile : ∀ v ∈ Word.scan file source, v.file = file := fun v hv => Word.scanFrom_file hv
    refine hgroup.covers (fun v hv => hink v ?_) rfl (List.getLast?_concat (l := first :: inner)) hw' ?_
    · rw [hfront]
      simp only [List.mem_append]
      exact .inr (.inl hv)
    · rw [hfile w hw]
      exact (hfile first (by simp [h])).symm

/-- What is left of the text from one word to another without blanks: the texts of these words and of those between
them. -/
theorem Word.removeBlanks_through :
    Text.removeBlanks (source.slice first.start next.stop) =
      first.text ++ ((inner.map Word.text).flatten ++ next.text) := by
  obtain ⟨s, t, rfl, hs, -, hf, -, -, ht⟩ := Word.scan_split h
  obtain ⟨inner', tail, hscan, rfl, htail⟩ := List.map_eq_append_iff.1 ht
  obtain ⟨next', more, rfl, rfl, -⟩ := List.map_eq_cons_iff.1 htail
  obtain ⟨u, v, rfl, hu, -, hn, -, rfl, -⟩ := Word.scan_split hscan
  have hslice : Text.slice (s ++ (first.text ++ (u ++ (next'.text ++ v)))) first.start (next'.shift first.stop).stop =
      first.text ++ (u ++ next'.text) := by
    have hstop : (next'.shift first.stop).stop = (s ++ (first.text ++ (u ++ next'.text))).length := by
      simp only [Word.stop, Word.shift_start, Word.shift_text, List.length_append]
      omega
    rw [← hs, hstop]
    have hmiddle := Text.slice_middle s (first.text ++ (u ++ next'.text)) v
    simpa only [List.append_assoc] using hmiddle
  rw [hslice, Text.removeBlanks_append, Text.removeBlanks_append, Text.removeBlanks_of_inked hf,
    Text.removeBlanks_of_inked hn, ← Word.flatten_texts, ← Word.map_text_scan file u, List.map_map]
  rfl

theorem Edit.append_eq_removeBlanks_iff :
    first.text ++ next.text = Text.removeBlanks (between source first.start next.stop) ↔ inner = [] := by
  have hmem : ∀ w ∈ first :: (inner ++ [next]), w ∈ Word.scan file source := by
    intro w hw
    rw [h]
    simp only [List.mem_cons, List.mem_append, List.not_mem_nil, or_false] at hw ⊢
    tauto
  have hstart := Word.stop_le_of_mem_scan (hmem first (by simp))
  have hstop := Word.stop_le_of_mem_scan (hmem next (by simp))
  have hbetween : between source first.start next.stop = source.slice first.start next.stop := by
    rw [between, Text.clamp_of_le (by omega) (by simp only [Word.stop] at hstart; omega),
      Text.clamp_of_le (by omega) (by omega)]
    rfl
  rw [hbetween, Word.removeBlanks_through h, List.append_right_inj, List.self_eq_append_left, List.flatten_eq_nil_iff]
  constructor
  · intro hempty
    refine List.eq_nil_iff_forall_not_mem.2 fun w hw => ?_
    exact (Word.inked_of_mem_scan (hmem w (by simp [hw]))).1 (hempty w.text (List.mem_map_of_mem hw))
  · rintro rfl
    simp

theorem Word.forall_covers_edge_iff :
    (∀ w ∈ Word.scan file source, (first.span.through next.span).Covers w.span →
      w.span.start = first.span.start ∨ w.span.stop = next.span.stop) ↔ inner = [] := by
  constructor
  · intro hedge
    refine List.eq_nil_iff_forall_not_mem.2 fun w hw => ?_
    have hmem : first ∈ Word.scan file source ∧ w ∈ Word.scan file source ∧ next ∈ Word.scan file source := by
      simp [h, hw]
    have hord := Word.ordered_scan file source
    have hfront : Word.scan file source = (before ++ [first]) ++ (inner ++ next :: after) := by simp [h]
    have hback : Word.scan file source = (before ++ first :: inner) ++ next :: after := by simp [h]
    have hafter := hord.append_le hfront (u := first) (v := w) (by simp) (by simp [hw])
    have hbefore := hord.append_le hback (u := w) (v := next) (by simp [hw]) (by simp)
    have hfirst := Word.start_lt_stop (Word.inked_of_mem_scan hmem.1)
    have hnext := Word.start_lt_stop (Word.inked_of_mem_scan hmem.2.2)
    have hat := hedge w hmem.2.1 ((Word.covers_through_iff h hmem.2.1).2 (by simp [hw]))
    simp only [Word.span] at hat
    omega
  · rintro rfl w hw hc
    rcases List.mem_cons.1 ((Word.covers_through_iff h hw).1 hc) with rfl | hw
    · exact .inl rfl
    · rw [List.mem_singleton.1 hw]
      exact .inr rfl

end Range

namespace Check

theorem exists_joins_of_fix {c : Check} {source : Source} (hc : c.sources = [source]) {report : Report}
    (h : c.run = .ok report) {d : Diagnostic} (hd : d ∈ report.diagnostics) (hcode : d.code = some Rule.argTypes.name)
    {s : Suggestion} (hs : s ∈ d.suggestions) (hmessage : s.message = "rnd() must not contain spaces") {t : Text}
    (ht : s.replacement.text? = some t) :
    ∃ first next, c.Joins first next ∧ s.span = first.span.through next.span ∧ t = first.text ++ next.text := by
  rcases exists_of_code h hd hcode with ⟨-, first, next, hj, rfl⟩ | ⟨-, item, -, -, watch, watch', tracker, problems,
      hrule, -, ho, p, hp, rfl⟩
  · obtain ⟨hspan, rfl, -⟩ := Rule.ArgTypes.isCall_of_splitCall hs ht
    obtain ⟨before, after, hwords, hf⟩ := hj.split
    have hscan : c.words = Word.scan source.file source.text := by simp [words, hc]
    have hink : ∀ w ∈ c.words, w.text.Inked := fun w hw => Word.inked_of_mem_scan (hscan ▸ hw)
    have hfirst : first.text.Inked := hink first (by simp [hwords, hf])
    have hnext : next.text.Inked := hink next (by simp [hwords])
    refine ⟨first, next, hj, hspan, ?_⟩
    rw [Text.removeBlanks_append, Text.removeBlanks_append, Text.removeBlanks_of_inked hfirst,
      Text.removeBlanks_of_inked hnext, Text.removeBlanks_of_isBlank (t := " ") (by decide), List.append_nil]
  · have hremark := Rule.ArgTypes.remark_of_onAtom (Watch.onAtom_argTypes hrule ho) hp
    rcases hremark.message hs with hm | hm | hm
    · rw [hmessage] at hm
      exact absurd hm (by decide)
    · rw [hmessage] at hm
      exact absurd hm (by decide)
    · rw [hmessage] at hm
      exact absurd hm (by decide)

/-- The fix for a call in two words is its first and its last word put together. That is the text it replaces without
the blanks exactly if there are no other words in between; and when no rule is in use twice, exactly if there is no
comment. -/
theorem fix_eq_removeBlanks_iff {c : Check} {source : Source} (hc : c.sources = [source]) {report : Report}
    (h : c.run = .ok report) {d : Diagnostic} (hd : d ∈ report.diagnostics) (hcode : d.code = some Rule.argTypes.name)
    {s : Suggestion} (hs : s ∈ d.suggestions) (hmessage : s.message = "rnd() must not contain spaces") {t : Text}
    (ht : s.replacement.text? = some t) :
    (∃ first ∈ Word.scan source.file source.text, ∃ last ∈ Word.scan source.file source.text,
      s.span = first.span.through last.span ∧ t = first.text ++ last.text) ∧
    (t = Text.removeBlanks (Edit.between source.text s.span.start s.span.stop) ↔
      ∀ w ∈ Word.scan source.file source.text, s.span.Covers w.span →
        w.span.start = s.span.start ∨ w.span.stop = s.span.stop) ∧
    (c.rules.Nodup →
      (t = Text.removeBlanks (Edit.between source.text s.span.start s.span.stop) ↔
        ∀ w ∈ Word.scan source.file source.text, s.span.Covers w.span → w.text.startsWith Item.openMark = false)) := by
  obtain ⟨first, next, hj, hspan, rfl⟩ := exists_joins_of_fix hc h hd hcode hs hmessage ht
  have hwords : c.words = Word.scan source.file source.text := by simp [words, hc]
  obtain ⟨earlier, after, hsplit, hf⟩ := hj.split
  obtain ⟨before, inner, rfl⟩ := List.append_of_mem hf
  rw [hwords, List.append_assoc, List.cons_append] at hsplit
  rw [hspan]
  refine ⟨⟨first, by simp [hsplit], next, by simp [hsplit], rfl, rfl⟩, ?_, ?_⟩
  · exact (Edit.append_eq_removeBlanks_iff hsplit).trans (Word.forall_covers_edge_iff hsplit).symm
  · intro hnodup
    have hrule : .argTypes ∈ c.rules := by
      rw [← Checker.rules_initial c.rules c.effectiveLevel c.builtinMap]
      exact Checker.argTypes_mem_of_joins hj
    -- With one rule for the types of arguments, the words between are those of comments.
    have hcall := ((Checker.joins_iff hnodup hrule).1 hj).1
    obtain ⟨before, inner, after, hsplit, hfirst, hnext, hinner⟩ := Rule.ArgTypes.exists_of_calls hcall
    rw [hwords] at hsplit
    refine (Edit.append_eq_removeBlanks_iff hsplit).trans ⟨?_, fun hall => ?_⟩
    · rintro rfl w hw hcovers
      rcases List.mem_cons.1 ((Word.covers_through_iff hsplit hw).1 hcovers) with rfl | hw
      · exact hfirst
      · rw [List.mem_singleton.1 hw]
        exact hnext
    · cases inner with
      | nil => rfl
      | cons w inner =>
        have hmem : w ∈ Word.scan source.file source.text := by simp [hsplit]
        have hopen := hall w hmem ((Word.covers_through_iff hsplit hmem).2 (by simp))
        rw [hinner w rfl] at hopen
        cases hopen

def typed (text : Text) : Check := ⟨.conquerors, [.argTypes], false, [⟨0, "map.rms", text⟩]⟩

def spacedCall : Text := "create_elevation rnd(1, 5)"

def commentedCall : Text := "create_elevation rnd(1, /* c */ 5)"

def joinedCall (start stop : Nat) (call : Text) : Diagnostic :=
  ((Diagnostic.error ⟨0, start, stop⟩ "Incorrect rnd() call").suggest ⟨0, start, stop⟩ "rnd() must not contain spaces"
    (.safe call)).withCode Rule.argTypes.name

theorem calls_checked :
    (typed spacedCall).problems.toOption.any (fun ds => joinedCall 17 26 "rnd(1,5)" ∈ ds) = true ∧
      (typed commentedCall).problems.toOption.any (fun ds => joinedCall 17 34 "rnd(1,5)" ∈ ds) = true := by
  decide +kernel

theorem spacedCall_fix_eq_removeBlanks_iff :
    (∃ report, (typed spacedCall).run = .ok report ∧ joinedCall 17 26 "rnd(1,5)" ∈ report.diagnostics) ∧
      ("rnd(1,5)" = Text.removeBlanks (Edit.between spacedCall 17 26) ↔
        ∀ w ∈ Word.scan 0 spacedCall, Span.Covers ⟨0, 17, 26⟩ w.span → w.text.startsWith Item.openMark = false) := by
  obtain ⟨report, hrun, hd⟩ := exists_report calls_checked.1
  have hiff := fix_eq_removeBlanks_iff rfl hrun hd rfl (List.mem_singleton.2 rfl) rfl rfl
  exact ⟨⟨report, hrun, hd⟩, hiff.2.2 (by decide)⟩

/-- A call with a comment in it is replaced by less than its text without blanks. -/
theorem commentedCall_loses_comment :
    (∃ report, (typed commentedCall).run = .ok report ∧ joinedCall 17 34 "rnd(1,5)" ∈ report.diagnostics) ∧
      "rnd(1,5)" ≠ Text.removeBlanks (Edit.between commentedCall 17 34) :=
  ⟨exists_report calls_checked.2, by decide +kernel⟩

end Check

end MapScript
