import MapScript.Proofs.Origins
import MapScript.Proofs.Rounds

/-! A word of a comment that is exchanged for another one. All that changes is the content of the comment, and where
the items after it stand. -/

namespace MapScript

namespace Text

theorem slice_around (p v q : Text) {i j : Nat} (hi : i ≤ p.length) (hj : p.length + v.length ≤ j) :
    slice (p ++ (v ++ q)) i j = p.drop i ++ (v ++ q.take (j - (p.length + v.length))) := by
  rw [slice, List.take_append, List.take_of_length_le (by omega), List.take_append, List.take_of_length_le (by omega),
    List.drop_append_of_le_length hi, Nat.sub_sub]

theorem drop_around (p v q : Text) {i : Nat} (hi : i ≤ p.length) :
    (p ++ (v ++ q)).drop i = p.drop i ++ (v ++ q) := List.drop_append_of_le_length hi

end Text

theorem Edit.splice_single {p v q t : Text} {s : Suggestion} (hstart : s.span.start = p.length)
    (hstop : s.span.stop = (p ++ v).length) (ht : s.replacement.text? = some t) :
    between (p ++ (v ++ q)) s.span.start s.span.stop = v ∧ splice (p ++ (v ++ q)) 0 [s] = p ++ (t ++ q) := by
  have hlen : (p ++ (v ++ q)).length = p.length + v.length + q.length := by simp [Nat.add_assoc]
  have hv : (p ++ v).length = p.length + v.length := List.length_append
  have hp : (p ++ (v ++ q)).clamp s.span.start = p.length := by
    rw [Text.clamp_of_le (by omega) (by omega), hstart]
    rfl
  have hq : (p ++ (v ++ q)).clamp s.span.stop = (p ++ v).length := by
    rw [Text.clamp_of_le (by omega) (by omega), hstop]
    rfl
  have hzero : (p ++ (v ++ q)).clamp 0 = 0 := by rw [Text.clamp_of_le (by omega) (by omega)]; rfl
  constructor
  · rw [between, hp, hq, Text.slice_middle]
  · rw [splice, splice, between, hzero, hp, hq, ht, Text.slice, List.take_left, List.drop_zero, ← List.append_assoc p v,
      List.drop_left, Option.getD_some, List.append_assoc]

theorem Word.scan_exchange {file : Int} {source : Text} {before after : List Word} {v : Word}
    (h : scan file source = before ++ v :: after) {x : Text} (hx : x.Inked) {n : Nat}
    (hn : x.length = v.text.length + n) :
    ∃ p q, source = p ++ (v.text ++ q) ∧ p.length = v.start ∧
      (scan file q).map (fun w => w.shift v.stop) = after ∧
      scan file (p ++ (x ++ q)) = before ++ ⟨x, file, v.start⟩ :: after.map fun w => w.shift n := by
  obtain ⟨p, q, hs, hp, hends, hv, hstarts, hbefore, hafter⟩ := scan_split h
  refine ⟨p, q, hs, hp, hafter, ?_⟩
  have hstop : x.length + p.length = v.stop + n := by
    rw [stop, hp, hn]
    omega
  have hshift : ∀ w : Word, (w.shift x.length).shift p.length = (w.shift v.stop).shift n := by
    intro w
    rw [shift_shift, shift_shift, hstop]
  have hword : (⟨x, file, 0⟩ : Word).shift p.length = ⟨x, file, v.start⟩ := by
    rw [shift, Nat.zero_add, hp]
  rw [scan_append file p (x ++ q) (.inl hends), scan_append file x q (.inr hstarts), scan_inked file hx, hbefore,
    ← hafter, List.singleton_append, List.map_cons, List.map_map, List.map_map, hword]
  simp only [Function.comp_def, hshift]

namespace Item

/-- An item is read again in another text if this starts in the same way and goes on with a word that is no more of
an argument than before. -/
theorem Reading.exchange {source other : Text} {n : Nat} (hsame : other.take n = source.take n) {w : Word}
    {rest more : List Word} {item : Item} {used : Nat} (h : Reading source w rest item used)
    (hb : ∀ v ∈ rest.take used, v.stop ≤ n) (hne : rest.drop used ≠ [])
    (hnext : (∀ next ∈ (rest.drop used).head?, isArgument next.text = false) →
      ∀ next ∈ more.head?, isArgument next.text = false) :
    Reading other w (rest.take used ++ more) item used := by
  cases h with
  | mark hw => exact .mark hw
  | alone hw hk => exact .alone hw hk
  | unary hw hk ha => exact .unary hw hk ha
  | starved hw hk hr => exact .starved hw hk (hnext hr)
  | const hw hn hv => exact .const hw hn hv
  | valueless hw hn hr => exact .valueless hw hn (hnext hr)
  | nameless hw hr => exact .nameless hw (hnext hr)
  | @closed inner closer after hw hi hm =>
    have htake : (inner ++ closer :: after).take (inner.length + 1) = inner ++ [closer] := by
      rw [List.append_cons]
      exact List.take_left' (by simp)
    rw [htake] at hb ⊢
    have hstart : closer.start ≤ n := Nat.le_trans (Nat.le_add_right _ _) (hb closer (by simp))
    have hslice : source.slice w.stop closer.start = other.slice w.stop closer.start := by
      have hfront := congrArg (List.take closer.start) hsame
      rw [List.take_take, List.take_take, Nat.min_eq_left hstart] at hfront
      rw [Text.slice, Text.slice, hfront]
    rw [hslice, List.append_assoc]
    exact .closed hw hi hm
  | unclosed hw hi => simp at hne
  | command hw hl ha =>
    rw [List.take_left]
    exact .command hw hl ha
  | short hw hl ha hr =>
    rw [List.take_left]
    rw [List.drop_left] at hnext
    exact .short hw hl ha (hnext hr)
  | inline hw => exact .inline hw
  | unknown hw => exact .unknown hw

/-- The items of some words are the same whatever text comes after these words and the word `w`, and whatever comes in
place of that word, if it is no more of an argument. -/
def Keeps (source : Text) (front : List Word) (w : Word) (before : List Item) : Prop :=
  ∀ (other : Text) (n : Nat) (w' : Word) (rest : List Word), other.take n = source.take n →
    (∀ v ∈ front, v.stop ≤ n) → (isArgument w.text = false → isArgument w'.text = false) →
    readFrom other 0 (front ++ w' :: rest) = before ++ readFrom other 0 (w' :: rest)

theorem Keeps.parse_eq {file : Int} {p s t : Text} {front rest rest' : List Word} {v w w' : Word} {before : List Item}
    (h : Keeps (p ++ s) front w before) (hs : Word.scan file (p ++ s) = front ++ w :: rest) (hv : v ∈ w :: rest)
    (hp : p.length = v.start) (ht : Word.scan file (p ++ t) = front ++ w' :: rest')
    (hw : isArgument w.text = false → isArgument w'.text = false) :
    parse file (p ++ t) = before ++ readFrom (p ++ t) 0 (w' :: rest') := by
  have hfront : ∀ u ∈ front, u.stop ≤ p.length := by
    intro u hu
    rw [hp]
    exact (Word.ordered_scan file (p ++ s)).append_le hs hu hv
  rw [parse, ht]
  exact h _ p.length w' rest' (by rw [List.take_left, List.take_left]) hfront hw

theorem exists_split_of_readFrom {source : Text} {words : List Word} {before after : List Item} {item : Item}
    (h : readFrom source 0 words = before ++ item :: after) :
    ∃ front w rest used, words = front ++ w :: rest ∧ Reading source w rest item used ∧
      readFrom source 0 (rest.drop used) = after ∧ Keeps source front w before := by
  induction before generalizing words with
  | nil =>
    cases words with
    | nil => simp [readFrom] at h
    | cons w rest =>
      have hr := reading source w rest
      rw [readFrom_cons hr] at h
      obtain ⟨rfl, rfl⟩ := List.cons.inj h
      exact ⟨[], w, rest, _, rfl, hr, rfl, fun _ _ _ _ _ _ _ => rfl⟩
  | cons first before ih =>
    cases words with
    | nil => simp [readFrom] at h
    | cons v rest =>
      have hr := reading source v rest
      rw [readFrom_cons hr] at h
      obtain ⟨rfl, hmore⟩ := List.cons.inj h
      generalize (read source v rest).1 = first at hr
      generalize (read source v rest).2 = used at hr hmore
      obtain ⟨front, w, back, used', hs, hreading, hafter, hkeep⟩ := ih hmore
      refine ⟨v :: (rest.take used ++ front), w, back, used', ?_, hreading, hafter, ?_⟩
      · rw [List.cons_append, List.append_assoc, ← hs, List.take_append_drop]
      · intro other n w' rest' hsame hb hw
        have htaken : ∀ u ∈ rest.take used, u.stop ≤ n := fun u hu => hb u (by simp [hu])
        have hnext : (∀ next ∈ (rest.drop used).head?, isArgument next.text = false) →
            ∀ next ∈ (front ++ w' :: rest').head?, isArgument next.text = false := by
          rw [hs]
          cases front with
          | nil => simpa using hw
          | cons u front => simp
        have hread := hr.exchange hsame htaken (by simp [hs]) hnext
        rw [List.cons_append, List.append_assoc, readFrom_cons hread,
          List.drop_left' (List.length_take_of_le hr.used_le),
          hkeep other n w' rest' hsame (fun u hu => hb u (by simp [hu])) hw]
        rfl

theorem shift_shift (m n : Nat) (item : Item) : (item.shift m).shift n = item.shift (m + n) := by
  have hatom : ∀ a : Atom, (a.shift m).shift n = a.shift (m + n) := by
    intro a
    cases a <;> simp [Atom.shift, Word.shift_shift, Function.comp_def, Nat.add_assoc]
  have hflaw : ∀ f : Flaw, (f.shift m).shift n = f.shift (m + n) := by
    intro f
    simp [Flaw.shift, Span.shift, Int.add_assoc]
  simp [shift, hatom, hflaw]

theorem readFrom_moved (p q : Text) {v x : Text} {n : Nat} (hn : x.length = v.length + n) (words : List Word) :
    readFrom (p ++ (x ++ q)) 0 ((words.map fun w => w.shift (p.length + v.length)).map fun w => w.shift n) =
      (readFrom (p ++ (v ++ q)) 0 (words.map fun w => w.shift (p.length + v.length))).map (shift n) := by
  have hv : p.length + v.length = (p ++ v).length := by rw [List.length_append]
  have hx : (p ++ v).length + n = (p ++ x).length := by
    rw [List.length_append, List.length_append, hn, Nat.add_assoc]
  have hwords : (fun w : Word => (w.shift (p ++ v).length).shift n) = fun w => w.shift (p ++ x).length := by
    funext w
    rw [Word.shift_shift, hx]
  rw [hv, List.map_map, Function.comp_def, hwords, ← List.append_assoc, ← List.append_assoc, readFrom_shift,
    readFrom_shift, List.map_map]
  refine List.map_congr_left fun item _ => ?_
  rw [Function.comp_apply, shift_shift, hx]

/-- The comment `item` has a word `u` in its content, and can have `x` in its place: nothing else changes but where
things are after it. -/
def Exchanges (file : Int) (source : Text) (before after : List Item) (item : Item) (u : Word) (x : Text) (n : Nat) :
    Prop :=
  ∃ opener content closer stop p q front back flaws,
    item.atom = .comment opener content closer stop ∧ opener.file = file ∧
    source = p ++ (u.text ++ q) ∧ p.length = opener.stop + u.start ∧
    p.length + u.text.length ≤ closer.elim source.length Word.start ∧
    content = front ++ (u.text ++ back) ∧ front.length = u.start ∧
    flaws.map Flaw.kind = item.flaws.map Flaw.kind ∧
    parse file (p ++ (x ++ q)) = before ++
      ⟨.comment opener (front ++ (x ++ back)) (closer.map (·.shift n)) (stop + n), flaws⟩ :: after.map (shift n)

theorem inlineComment_eq (file : Int) (start : Nat) (content : Text) :
    inlineComment ⟨openMark ++ (content ++ closeMark), file, start⟩ =
      .comment ⟨openMark, file, start⟩ content (some ⟨closeMark, file, start + 2 + content.length⟩)
        (start + 4 + content.length) := by
  have hfront : (openMark ++ content).length = content.length + 2 := by rw [List.length_append, Nat.add_comm]; rfl
  have hlen : (openMark ++ (content ++ closeMark)).length = content.length + 2 + 2 := by
    rw [← List.append_assoc, List.length_append, hfront]
    rfl
  have hopen : (openMark ++ (content ++ closeMark)).take 2 = openMark := List.take_left' rfl
  have hinner : Text.slice (openMark ++ (content ++ closeMark)) 2 (content.length + 2) = content := by
    rw [Text.slice, ← List.append_assoc, List.take_left' hfront]
    exact List.drop_left' rfl
  have hclose : (openMark ++ (content ++ closeMark)).drop (content.length + 2) = closeMark := by
    rw [← List.append_assoc, List.drop_left' hfront]
  have hstop : (⟨openMark ++ (content ++ closeMark), file, start⟩ : Word).stop = start + 4 + content.length := by
    rw [Word.stop, hlen, Nat.add_assoc start 4, Nat.add_comm 4]
  have hlast : start + 4 + content.length - 2 = start + 2 + content.length := by omega
  rw [inlineComment, hstop, hlen, Nat.add_sub_cancel, hopen, hinner, hclose, hlast]

theorem lead_eq_inline {t : Text} (hs : Catalog.isSectionShaped t = false) (hk : Keyword.ofText? t = none)
    (hn : Catalog.find? t = none) (hi : isInlineComment t = true) : Lead.of t = .inline := by
  simp [Lead.of, hs, hk, hn, hi]

theorem lead_inline (content : Text) : Lead.of (openMark ++ (content ++ closeMark)) = .inline := by
  have hkey : Keyword.ofText? (openMark ++ (content ++ closeMark)) = none := by
    rw [Option.eq_none_iff_forall_ne_some]
    intro k hk
    have hlen := congrArg List.length (Keyword.ofText?_eq_some.1 hk)
    have hhead := congrArg List.head? (Keyword.ofText?_eq_some.1 hk)
    cases k <;> simp [Keyword.spelling, Text.lower, Text.ofString, openMark, closeMark, Glyph.lower] at hlen hhead
  have hstart : Text.startsWith (openMark ++ (content ++ closeMark)) openMark = true :=
    List.isPrefixOf_iff_prefix.2 (List.prefix_append _ _)
  have hend : Text.endsWith (openMark ++ (content ++ closeMark)) closeMark = true := by
    rw [← List.append_assoc]
    exact List.isSuffixOf_iff_suffix.2 (List.suffix_append _ _)
  have hlen : 4 ≤ (openMark ++ (content ++ closeMark)).length := by simp [openMark, closeMark, Text.ofString]
  refine lead_eq_inline rfl hkey (Catalog.find?_eq_none rfl) ?_
  rw [isInlineComment, hstart, hend, decide_eq_true hlen]
  rfl

theorem inked_inline {x : Text} (hx : x.Inked) : Text.Inked (openMark ++ (x ++ closeMark)) := by
  refine ⟨by simp [openMark, Text.ofString], fun g hg => ?_⟩
  simp only [List.mem_append] at hg
  rcases hg with hg | hg | hg
  · exact Marks.inked_openMark.2 g hg
  · exact hx.2 g hg
  · exact Marks.inked_closeMark.2 g hg

section Exchange

variable {file : Int} {source : Text} {pre : List Word} {w : Word} {before : List Item}
  (hkeep : Keeps source pre w before) {x : Text} (hx : x.Inked) {n : Nat}

include hkeep hx

theorem parse_exchange {inner tail : List Word} (hs : Word.scan file source = pre ++ w :: (inner ++ tail))
    (hi : ∀ v ∈ inner, v.text ≠ closeMark) (hclose : x ≠ closeMark) {u : Word} (hu : u.shift w.stop ∈ inner)
    (hn : x.length = u.text.length + n) :
    ∃ (p q : Text) (inner' : List Word), source = p ++ (u.text ++ q) ∧ p.length = w.stop + u.start ∧
      (∀ v ∈ inner', v.text ≠ closeMark) ∧ (inner'.getLastD w).stop = (inner.getLastD w).stop + n ∧
      (∀ v ∈ tail, p.length + u.text.length ≤ v.start) ∧
      (∀ more, more <:+ tail →
        readFrom (p ++ (x ++ q)) 0 (more.map (·.shift n)) = (readFrom source 0 more).map (shift n)) ∧
      parse file (p ++ (x ++ q)) =
        before ++ readFrom (p ++ (x ++ q)) 0 (w :: (inner' ++ tail.map (·.shift n))) := by
  obtain ⟨l₁, l₂, rfl⟩ := List.append_of_mem hu
  have hsplit : Word.scan file source = (pre ++ w :: l₁) ++ u.shift w.stop :: (l₂ ++ tail) := by simp [hs]
  obtain ⟨p, q, rfl, hp, hq, hscan⟩ := Word.scan_exchange hsplit hx hn
  have hstop : (u.shift w.stop).stop = p.length + u.text.length := by rw [hp, Word.stop, Word.shift_text, Nat.add_comm]
  refine ⟨p, q, l₁ ++ ⟨x, file, (u.shift w.stop).start⟩ :: l₂.map (·.shift n), rfl,
    by rw [hp, Word.shift_start, Nat.add_comm], ?_, ?_, fun v hv => ?_, ?_, ?_⟩
  · intro v hv
    simp only [List.mem_append, List.mem_cons, List.mem_map] at hv
    rcases hv with hv | rfl | ⟨v, hv, rfl⟩
    · exact hi v (by simp [hv])
    · exact hclose
    · exact hi v (by simp [hv])
  · have hlast : ∀ v more, ((l₁ ++ v :: more).getLastD w) = more.getLastD v := by
      intro v more
      rw [List.getLastD_eq_getLast?, List.getLastD_eq_getLast?, List.getLast?_append, List.getLast?_cons]
      rfl
    rw [hlast, hlast]
    cases l₂ with
    | nil => simp [Word.stop, hn, Nat.add_assoc]
    | cons v l₂ =>
      rw [List.map_cons, List.getLastD_cons, List.getLastD_cons, Atom.getLastD_map_shift, Word.shift_stop]
  · rw [← hstop]
    exact (Word.ordered_scan file _).append_le (by rw [hsplit, List.append_cons, ← List.append_assoc]) (by simp) hv
  · rintro more ⟨front, rfl⟩
    rw [hstop, ← List.append_assoc] at hq
    obtain ⟨_, more', _, _, rfl⟩ := List.map_eq_append_iff.1 hq
    exact readFrom_moved p q hn more'
  · refine hkeep.parse_eq hs (by simp) hp ?_ id
    rw [hscan, List.append_assoc, List.cons_append, List.map_append, List.append_assoc l₁, List.cons_append]

theorem exchanges_closed {inner more : List Word} {closer : Word}
    (hs : Word.scan file source = pre ++ w :: (inner ++ closer :: more)) (hw : Lead.of w.text = .keyword .openComment)
    (hi : ∀ v ∈ inner, v.text ≠ closeMark) (hc : closer.text = closeMark) {u : Word}
    (hu : u ∈ Word.scan file (source.slice w.stop closer.start)) (hclose : x ≠ closeMark)
    (hn : x.length = u.text.length + n) :
    Exchanges file source before (readFrom source 0 more)
      (sound (.comment w (source.slice w.stop closer.start) (some closer) closer.stop)) u x n := by
  have hmem : u.shift w.stop ∈ inner := by
    rw [← Word.scan_inner hs]
    exact List.mem_map_of_mem hu
  obtain ⟨p, q, inner', hsource, hp, hi', -, hend, hmoved, hparse⟩ := parse_exchange hkeep hx hs hi hclose hmem hn
  have hle := hend closer (by simp)
  have hto : p.length + x.length ≤ (closer.shift n).start := by
    rw [hn, Word.shift_start]
    omega
  have hgap : (closer.shift n).start - (p.length + x.length) = closer.start - (p.length + u.text.length) := by
    rw [hn, Word.shift_start]
    omega
  have hread : Reading (p ++ (x ++ q)) w (inner' ++ closer.shift n :: more.map (·.shift n)) _ _ := .closed hw hi' hc
  rw [Text.slice_around _ _ _ (by omega) hto, hgap, Word.shift_stop] at hread
  refine ⟨w, _, some closer, closer.stop, p, q, p.drop w.stop, q.take (closer.start - (p.length + u.text.length)),
    [], rfl, Word.scanFrom_file (by rw [← Word.scan, hs]; simp), hsource, hp, hle, ?_, ?_, rfl, ?_⟩
  · rw [hsource, Text.slice_around _ _ _ (by omega) hle]
  · rw [List.length_drop, hp, Nat.add_sub_cancel_left]
  · rw [hparse, List.map_cons, readFrom_cons hread, List.append_cons inner', List.drop_left' (by simp),
      hmoved more (List.suffix_cons closer more)]
    rfl

theorem exchanges_unclosed {inner : List Word} (hs : Word.scan file source = pre ++ w :: inner)
    (hw : Lead.of w.text = .keyword .openComment) (hi : ∀ v ∈ inner, v.text ≠ closeMark) {u : Word}
    (hu : u ∈ Word.scan file (source.drop w.stop)) (hclose : x ≠ closeMark) (hn : x.length = u.text.length + n) :
    Exchanges file source before []
      (flawed (.comment w (source.drop w.stop) none (inner.getLastD w).stop) .unclosedComment) u x n := by
  have hmem : u.shift w.stop ∈ inner := by
    rw [← Word.scan_rest hs]
    exact List.mem_map_of_mem hu
  have hall : Word.scan file source = pre ++ w :: (inner ++ []) := by rw [hs, List.append_nil]
  obtain ⟨p, q, inner', hsource, hp, hi', hlast, -, -, hparse⟩ := parse_exchange hkeep hx hall hi hclose hmem hn
  rw [List.map_nil, List.append_nil] at hparse
  have hread : Reading (p ++ (x ++ q)) w inner' _ _ := .unclosed hw hi'
  rw [Text.drop_around _ _ _ (by omega), hlast] at hread
  refine ⟨w, _, none, _, p, q, p.drop w.stop, q,
    (flawed (.comment w (p.drop w.stop ++ (x ++ q)) none ((inner.getLastD w).stop + n)) .unclosedComment).flaws, rfl,
    Word.scanFrom_file (by rw [← Word.scan, hs]; simp), hsource, hp, ?_, ?_, ?_, rfl, ?_⟩
  · rw [hsource]
    simp
  · rw [hsource, Text.drop_around _ _ _ (by omega)]
  · rw [List.length_drop, hp, Nat.add_sub_cancel_left]
  · rw [hparse, readFrom_cons hread, List.drop_length]
    rfl

theorem exchanges_inline {rest : List Word} (hs : Word.scan file source = pre ++ w :: rest)
    (hw : Lead.of w.text = .inline) {u : Word} (hu : u ∈ Word.scan file (w.text.slice 2 (w.text.length - 2)))
    (hn : x.length = u.text.length + n) :
    Exchanges file source before (readFrom source 0 rest) (sound (inlineComment w)) u x n := by
  have hmem : w ∈ Word.scan file source := by rw [hs]; simp
  have hi := Lead.of_fits w.text
  rw [hw] at hi
  have htext := Marks.eq_of_isInlineComment hi
  have hinked := Word.inked_of_mem_scan hmem
  have hfile : w.file = file := Word.scanFrom_file hmem
  generalize w.text.slice 2 (w.text.length - 2) = content at hu htext
  obtain ⟨text, f, start⟩ := w
  obtain rfl : file = f := hfile.symm
  obtain rfl : text = openMark ++ (content ++ closeMark) := htext
  -- What stands between the marks is a single word, as there are no blanks in it.
  obtain rfl : u = ⟨content, file, 0⟩ := by
    have hc : content.Inked := by
      refine ⟨?_, fun g hg => hinked.2 g (by simp [hg])⟩
      rintro rfl
      simp [Word.scan, Word.scanFrom, Word.ofRun] at hu
    rwa [Word.scan_inked file hc, List.mem_singleton] at hu
  have hlong : (openMark ++ (x ++ closeMark)).length = (openMark ++ (content ++ closeMark)).length + n := by
    simp only [List.length_append, hn]
    omega
  obtain ⟨p, q, rfl, hp, hq, hscan⟩ := Word.scan_exchange hs (inked_inline hx) hlong
  have hmoved := readFrom_moved p q hlong (Word.scan file q)
  rw [Word.stop] at hq
  rw [hp, hq] at hmoved
  have hread : Reading (p ++ ((openMark ++ (x ++ closeMark)) ++ q)) ⟨openMark ++ (x ++ closeMark), file, start⟩
      (rest.map (·.shift n)) _ _ := .inline (lead_inline x)
  have hparse : parse file (p ++ ((openMark ++ (x ++ closeMark)) ++ q)) =
      before ++ sound (inlineComment ⟨openMark ++ (x ++ closeMark), file, start⟩) ::
        (readFrom (p ++ ((openMark ++ (content ++ closeMark)) ++ q)) 0 rest).map (shift n) := by
    have hno : isArgument (openMark ++ (x ++ closeMark)) = false := by
      simp [isArgument, Text.startsWith, openMark, Text.ofString]
    rw [hkeep.parse_eq hs List.mem_cons_self hp hscan fun _ => hno, readFrom_cons hread, List.drop_zero, hmoved]
  rw [inlineComment_eq] at hparse
  refine ⟨⟨openMark, file, start⟩, content, some ⟨closeMark, file, start + 2 + content.length⟩,
    start + 4 + content.length, p ++ openMark, closeMark ++ q, [], [], [], inlineComment_eq file start content, rfl,
    ?_, ?_, ?_, ?_, rfl, rfl, ?_⟩
  · simp
  · rw [List.length_append, hp]
    rfl
  · simp [hp, openMark, Text.ofString]
  · simp
  · have hcloser : start + 2 + content.length + n = start + 2 + x.length := by rw [hn, Nat.add_assoc _ _ n]
    have hstop : start + 4 + content.length + n = start + 4 + x.length := by rw [hn, Nat.add_assoc _ _ n]
    rw [Option.map_some, Word.shift, hcloser, hstop, List.nil_append, List.append_nil]
    simpa [sound] using hparse

end Exchange

theorem exchanges_of_mem {file : Int} {source : Text} {before after : List Item} {item : Item}
    (h : parse file source = before ++ item :: after) {opener : Word} {content : Text} {closer : Option Word}
    {stop : Nat} (ha : item.atom = .comment opener content closer stop) {u : Word}
    (hu : u ∈ Word.scan opener.file content) {x : Text} (hx : x.Inked) (hclose : x ≠ closeMark) {n : Nat}
    (hn : x.length = u.text.length + n) : Exchanges file source before after item u x n := by
  obtain ⟨pre, w, rest, used, hs, hread, rfl, hkeep⟩ := exists_split_of_readFrom h
  have hfile : w.file = file := Word.scanFrom_file (by rw [← Word.scan, hs]; simp)
  cases hread with
  | closed hw hi hc =>
    obtain ⟨rfl, rfl, rfl, rfl⟩ := Atom.comment.inj ha
    rw [hfile] at hu
    rw [List.append_cons, List.drop_left' (by simp)]
    exact exchanges_closed hkeep hx hs hw hi hc hu hclose hn
  | unclosed hw hi =>
    obtain ⟨rfl, rfl, rfl, rfl⟩ := Atom.comment.inj ha
    rw [hfile] at hu
    rw [List.drop_length]
    exact exchanges_unclosed hkeep hx hs hw hi hu hclose hn
  | inline hw =>
    obtain ⟨rfl, rfl, rfl, rfl⟩ := Atom.comment.inj ha
    exact exchanges_inline hkeep hx hs hw (hfile ▸ hu) hn
  | alone hw hk => obtain rfl | rfl | rfl | rfl | rfl | rfl := Keyword.alone?_cases hk <;> cases ha
  | unary hw hk _ => obtain rfl | rfl | rfl | rfl | rfl := Keyword.unary?_cases hk <;> cases ha
  | _ => cases ha

end Item

namespace Rule.CommentContents

theorem exists_of_suggestion {tracker : Tracker} {a : Atom} {p : Diagnostic} (hp : p ∈ onAtom tracker a)
    {s : Suggestion} (hs : s ∈ p.suggestions) :
    ∃ opener content closer stop, a = .comment opener content closer stop ∧ ∃ u ∈ Word.scan opener.file content,
      (tracker.scope.hasDefine u.text = true ∨ tracker.scope.hasConst u.text = true) ∧
      s.span = (u.shift opener.stop).span ∧ s.replacement = .safe (Text.ticked u.text) := by
  cases a with
  | comment opener content closer stop =>
    refine ⟨opener, content, closer, stop, rfl, ?_⟩
    rcases List.mem_append.1 hp with hp | hp
    · obtain ⟨item, hitem, hp⟩ := List.mem_flatMap.1 hp
      obtain ⟨before, u, rest, used, hwords, -, hread⟩ := Item.reading_of_mem (fun _ => True) trivial
        (fun _ _ _ => .inl trivial) hitem
      rcases checkName_of_reading tracker opener.stop hread with hnone | ⟨-, -, hname⟩
      · rw [hnone] at hp
        simp at hp
      · rw [hname, checkName] at hp
        refine ⟨u, by simp [hwords], ?_⟩
        split at hp
        next hknown =>
          obtain rfl := List.mem_singleton.1 hp
          obtain rfl := List.mem_singleton.1 hs
          rw [Bool.and_eq_true, Bool.or_eq_true] at hknown
          exact ⟨hknown.2, (Word.shift_span u opener.stop).symm, rfl⟩
        next => simp at hp
    · unfold checkCloser at hp
      repeat split at hp
      all_goals simp [Diagnostic.note, Diagnostic.warning] at hp
      rw [hp] at hs
      simp at hs
  | _ => simp [onAtom] at hp

end Rule.CommentContents

theorem Watch.onAtom_commentContents {watch watch' : Watch} (hr : watch.rule = .commentContents) {tracker : Tracker}
    {a : Atom} {problems : List Diagnostic} (h : watch.onAtom tracker a = .ok (watch', problems)) :
    problems = Rule.CommentContents.onAtom tracker a := by
  obtain ⟨rule, memory⟩ := watch
  obtain rfl : rule = .commentContents := hr
  simp only [onAtom, pure_eq_ok, Prod.mk.injEq] at h
  exact h.2.symm

namespace Check

/-- A suggestion about a comment stays in it. It is for a known name between the marks of the comment, and when it is
taken, this gets backticks around it in the comment, and what comes after moves by two places: no item is lost, made
or turned into another. -/
theorem ticked_stays_in_comment {c : Check} {source : Source} (hs : c.sources = [source]) {report : Report}
    (h : c.run = .ok report) {d : Diagnostic} (hd : d ∈ report.diagnostics)
    (hcode : d.code = some Rule.commentContents.name) {s : Suggestion} (hsug : s ∈ d.suggestions) :
    ∃ name before after opener content closer stop flaws front back flaws',
      ((c.scopeAfter before).hasDefine name = true ∨ (c.scopeAfter before).hasConst name = true) ∧
      Item.parse source.file source.text = before ++ ⟨.comment opener content closer stop, flaws⟩ :: after ∧
      s.span.file = source.file ∧ (opener.stop : Int) ≤ s.span.start ∧
      s.span.stop ≤ (closer.elim source.text.length Word.start : Nat) ∧
      Edit.between source.text s.span.start s.span.stop = name ∧ s.replacement = .safe (Text.ticked name) ∧
      content = front ++ (name ++ back) ∧ s.span.start = opener.stop + front.length ∧
      flaws'.map Flaw.kind = flaws.map Flaw.kind ∧
      Item.parse source.file (Edit.splice source.text 0 [s]) =
        before ++ ⟨.comment opener (front ++ (Text.ticked name ++ back)) (closer.map (·.shift 2)) (stop + 2), flaws'⟩ ::
          after.map (Item.shift 2) ∧
      (Item.parse source.file (Edit.splice source.text 0 [s])).map
          (fun i => (i.atom.kind, i.atom.words.map Word.text)) =
        (Item.parse source.file source.text).map fun i => (i.atom.kind, i.atom.words.map Word.text) := by
  have hitems : c.items = Item.parse source.file source.text := by simp [items, hs]
  obtain ⟨habs, -⟩ | ⟨before, item, after, hsplit, watch, watch', tracker, problems, hrule, hscope, hon, p, hp, rfl⟩ :=
    exists_of_code h hd hcode
  · cases habs
  rw [Watch.onAtom_commentContents hrule hon] at hp
  obtain ⟨opener, content, closer, stop, ha, u, hu, hknown, hspan, hreplace⟩ :=
    Rule.CommentContents.exists_of_suggestion hp hsug
  -- Backticks neither split the name nor close the comment.
  have hink := Text.inked_ticked (Word.inked_of_mem_scan hu)
  have hopen : Text.ticked u.text ≠ Item.closeMark := by simp [Text.ticked, Item.closeMark, Text.ofString]
  have hlen : (Text.ticked u.text).length = u.text.length + 2 := by simp [Text.ticked, Text.ofString]
  obtain ⟨_, _, _, _, p, q, front, back, flaws, ha', hfile, hsource, hlength, hle, hcontent, hfront, hflaws, hparse⟩ :=
    Item.exchanges_of_mem (hitems.symm.trans hsplit) ha hu hink hopen hlen
  obtain ⟨rfl, rfl, rfl, rfl⟩ := Atom.comment.inj (ha.symm.trans ha')
  have hstart : s.span.start = p.length := by
    rw [hspan, hlength, Nat.add_comm]
    rfl
  have hstop : s.span.stop = (p ++ u.text).length := by
    rw [hspan, List.length_append, hlength]
    simp [Word.span, Word.stop]
    omega
  obtain ⟨hbetween, hsplice⟩ := Edit.splice_single (q := q) hstart hstop (by rw [hreplace]; rfl)
  rw [← hsource] at hbetween hsplice
  rw [← hsplice] at hparse
  have hitem : item = ⟨.comment opener content closer stop, item.flaws⟩ := by rw [← ha]
  have hold : Item.parse source.file source.text = before ++ item :: after := hitems.symm.trans hsplit
  refine ⟨u.text, before, after, opener, content, closer, stop, item.flaws, front, back, flaws, hscope ▸ hknown,
    hitem ▸ hold, ?_, ?_, ?_, hbetween, hreplace, hcontent, ?_, hflaws, hparse, ?_⟩
  · have hword : u.file = opener.file := Word.scanFrom_file hu
    rw [hspan, ← hfile, ← hword]
    rfl
  · omega
  · rw [List.length_append] at hstop
    omega
  · rw [hfront]
    omega
  · have hmoved : ∀ i : Item, ((i.shift 2).atom.kind, (i.shift 2).atom.words.map Word.text) =
        (i.atom.kind, i.atom.words.map Word.text) := by
      intro i
      simp [Item.shift, Atom.words, Function.comp_def]
    rw [hparse, hold, hitem]
    simp only [List.map_append, List.map_cons, List.map_map, Function.comp_def, hmoved]
    cases closer <;> rfl

def namedTerrain : Text := "start_random /* GRASS */"

def terrainCheck : Check := ⟨.conquerors, [.commentContents], false, [⟨0, "map.rms", namedTerrain⟩]⟩

def terrainNoted : Diagnostic :=
  ((Diagnostic.warning ⟨0, 16, 21⟩ ("Using constant names in comments inside `start_random` or `if` statements " ++
    "can be dangerous, because the game may interpret them as other tokens instead.")).suggest ⟨0, 16, 21⟩
      "Add `backticks` around the name to make the parser ignore it" (.safe (Text.ticked "GRASS"))).withCode
    Rule.commentContents.name

theorem namedTerrain_ticked :
    (∃ report, terrainCheck.run = .ok report ∧ terrainNoted ∈ report.diagnostics) ∧
      ∀ s ∈ terrainNoted.suggestions,
        Edit.splice namedTerrain 0 [s] = "start_random /* `GRASS` */" ∧
        (Item.parse 0 (Edit.splice namedTerrain 0 [s])).map (fun i => (i.atom.kind, i.atom.words.map Word.text)) =
          (Item.parse 0 namedTerrain).map fun i => (i.atom.kind, i.atom.words.map Word.text) := by
  have hfound : terrainCheck.problems.toOption.any (fun ds => terrainNoted ∈ ds) = true := by decide +kernel
  obtain ⟨report, hrun, hd⟩ := exists_report hfound
  refine ⟨⟨report, hrun, hd⟩, fun s hs => ⟨?_, ?_⟩⟩
  · obtain rfl := List.mem_singleton.1 hs
    decide +kernel
  · obtain ⟨_, _, _, _, _, _, _, _, _, _, _, -, -, -, -, -, -, -, -, -, -, -, hsame⟩ :=
      ticked_stays_in_comment rfl hrun hd rfl hs
    exact hsame

end Check

end MapScript
