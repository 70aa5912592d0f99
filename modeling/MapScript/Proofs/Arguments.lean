import MapScript.Proofs.Recasting
import MapScript.Proofs.LayoutWords

/-! The arguments of a statement, and what is wrong with a statement that lacks some. Arguments are taken as long as
there are any, so that a statement lacks one only where no argument follows; and a word that was taken as an argument
starts no statement, unless it is a keyword in other capitals. -/

namespace MapScript

open Item (isArgument openMark)

/-- The words that a statement takes as arguments; the closing mark of a comment is none. -/
def Atom.arguments : Atom → List Word
  | .comment _ _ _ _ => []
  | a => a.tail

def Word.next? (words : List Word) (offset : Nat) : Option Word := words.find? fun w => offset ≤ w.start

theorem Word.Ordered.next?_append {group more : List Word} (h : Ordered (group ++ more))
    (hink : ∀ v ∈ group ++ more, v.text.Inked) {last : Word} (hl : last ∈ group.getLast?) :
    next? (group ++ more) last.stop = more.head? := by
  have hgroup : group.find? (fun w => last.stop ≤ w.start) = none := by
    refine List.find?_eq_none.2 fun v hv => ?_
    have hlt := start_lt_stop (hink v (List.mem_append_left more hv))
    obtain ⟨front, rfl⟩ := List.getLast?_eq_some_iff.1 hl
    have hle : v.stop ≤ last.stop := by
      rcases List.mem_append.1 hv with hv | hv
      · have hbefore := (h.parts rfl).1.append_le rfl hv (List.mem_singleton_self last)
        have hlast := start_lt_stop (hink last (by simp))
        omega
      · rw [List.mem_singleton.1 hv]
    rw [decide_eq_true_eq]
    omega
  rw [next?, List.find?_append, hgroup, Option.none_or]
  cases more with
  | nil => rfl
  | cons v more =>
    have hle := h.append_le rfl (List.mem_of_mem_getLast? hl) (List.mem_cons_self (a := v) (l := more))
    simp [hle]

namespace Keyword

def lack? : Keyword → Option Flaw.Kind
  | .const => some .missingConstName
  | k => k.unary?.map Prod.snd

theorem lack?_of_unary? {k : Keyword} {build : Word → Word → Atom} {missing : Flaw.Kind}
    (h : k.unary? = some (build, missing)) : k.lack? = some missing := by
  cases k <;> simp_all [lack?, unary?]

end Keyword

def Flaw.Kind.ofStray (t : Text) : Flaw.Kind := ((Keyword.ofText? t).bind Keyword.lack?).getD .unknownWord

/-- The flaws that can be seen from an atom: too few arguments for its name, no value, no closing mark, or a word that
starts no statement. -/
def Atom.Shows (kinds : List Flaw.Kind) : Atom → Prop
  | .other w => kinds = [.ofStray w.text]
  | .const _ _ value => kinds = if value.isNone then [.missingConstValue] else []
  | .command name args => ∃ entry, Catalog.find? name.text = some entry ∧ args.length ≤ entry.arity ∧
      kinds = if args.length < entry.arity then [.missingCommandArgs] else []
  | .comment _ _ closer _ => kinds = if closer.isNone then [.unclosedComment] else []
  | _ => kinds = []

namespace Item

/-- What is said of an item that was read from the words of a text: it has at most one flaw, which can be seen from its
atom and is located there; and it has taken all arguments that it could. -/
structure Exact (words : List Word) (item : Item) : Prop where
  single : item.flaws.length ≤ 1
  located : ∀ flaw ∈ item.flaws, flaw.span = item.atom.span
  shown : item.atom.Shows (item.flaws.map Flaw.kind)
  arguments : ∀ arg ∈ item.atom.arguments, isArgument arg.text = true
  greedy : ∀ flaw ∈ item.flaws, flaw.kind.wantsMore = true →
    ∀ next ∈ Word.next? words item.atom.stop, isArgument next.text = false

section Reading

variable {source : Text} {w : Word} {rest : List Word} {item : Item} {used : Nat}
  (h : Reading source w rest item used)

include h

theorem Reading.flaws_cases : item.flaws = [] ∨ ∃ kind, item.flaws = [⟨kind, item.atom.span⟩] := by
  cases h with
  | mark | alone | unary | const | closed | command | inline => exact .inl rfl
  | starved | valueless | nameless | unclosed | short | unknown => exact .inr ⟨_, rfl⟩

theorem Reading.shows : item.atom.Shows (item.flaws.map Flaw.kind) := by
  have hfits := Lead.of_fits w.text
  cases h with
  | mark | const | valueless | closed | unclosed | inline => rfl
  | @alone _ k build hw hk =>
    cases k <;> simp only [Keyword.alone?, Option.some.injEq, reduceCtorEq] at hk <;> subst hk <;> rfl
  | @unary k build missing arg more hw hk ha =>
    cases k <;> simp only [Keyword.unary?, Option.some.injEq, Prod.mk.injEq, reduceCtorEq] at hk <;>
      obtain ⟨rfl, rfl⟩ := hk <;> rfl
  | @starved _ k build missing hw hk hr =>
    rw [hw] at hfits
    have hkey : Keyword.ofText? w.text = some k := hfits
    simp [flawed, Atom.Shows, Flaw.Kind.ofStray, hkey, Keyword.lack?_of_unary? hk]
  | nameless hw hr =>
    rw [hw] at hfits
    have hkey : Keyword.ofText? w.text = some .const := hfits
    simp [flawed, Atom.Shows, Flaw.Kind.ofStray, hkey, Keyword.lack?]
  | @command entry args more hw hl ha =>
    rw [hw] at hfits
    exact ⟨entry, hfits, Nat.le_of_eq hl, by simp [sound, hl]⟩
  | @short entry args more hw hl ha hr =>
    rw [hw] at hfits
    exact ⟨entry, hfits, Nat.le_of_lt hl, by simp [flawed, hl]⟩
  | unknown hw =>
    have hkey : Keyword.ofText? w.text = none := Lead.ofText?_eq_none (by simp [hw]) (by simp [hw])
    simp [flawed, Atom.Shows, Flaw.Kind.ofStray, hkey]

theorem Reading.isArgument_of_mem {arg : Word} (ha : arg ∈ item.atom.arguments) : isArgument arg.text = true := by
  cases h with
  | mark | starved | nameless | closed | unclosed | inline | unknown =>
    simp [sound, flawed, inlineComment, Atom.arguments, Atom.tail] at ha
  | @alone _ k build hw hk =>
    cases k <;> simp only [Keyword.alone?, Option.some.injEq, reduceCtorEq] at hk <;> subst hk <;>
      simp [sound, Atom.arguments, Atom.tail] at ha
  | @unary k build missing v more hw hk hv =>
    have htail : (build w v).arguments = [v] := by
      cases k <;> simp only [Keyword.unary?, Option.some.injEq, Prod.mk.injEq, reduceCtorEq] at hk <;>
        obtain ⟨rfl, rfl⟩ := hk <;> rfl
    rw [sound, htail] at ha
    rwa [List.mem_singleton.1 ha]
  | @const name value more hw hn hv =>
    have hall : ∀ v ∈ [name, value], isArgument v.text = true := by simp [hn, hv]
    exact hall arg ha
  | valueless hw hn hr => rwa [List.mem_singleton.1 ha]
  | command hw hl hall => exact hall arg ha
  | short hw hl hall hr => exact hall arg ha

theorem Reading.greedy {flaw : Flaw} (hf : flaw ∈ item.flaws) (hm : flaw.kind.wantsMore = true) :
    ∀ next ∈ (rest.drop used).head?, isArgument next.text = false := by
  cases h with
  | mark | alone | unary | const | closed | command | inline => simp [sound] at hf
  | unclosed | unknown =>
    obtain rfl := List.mem_singleton.1 hf
    simp [Flaw.Kind.wantsMore] at hm
  | starved hw hk hr => exact hr
  | nameless hw hr => exact hr
  | valueless hw hn hr => exact hr
  | short hw hl ha hr => simpa using hr

end Reading

/-- Reading is exact: of every text, each item has the flaw that its atom shows or none, and a statement that lacks
an argument is followed by no word that could be one. -/
theorem parse_exact (file : Int) (source : Text) : ∀ item ∈ parse file source, item.Exact (Word.scan file source) := by
  intro item hi
  obtain ⟨before, w, rest, used, hs, -, hr⟩ := reading_of_mem (fun _ => True) trivial (fun _ _ _ => .inl trivial) hi
  have hlocated : ∀ flaw ∈ item.flaws, flaw.span = item.atom.span := by
    intro flaw hf
    obtain hnone | ⟨kind, hone⟩ := hr.flaws_cases
    · simp [hnone] at hf
    · rw [hone, List.mem_singleton] at hf
      rw [hf]
  refine ⟨?_, hlocated, hr.shows, fun arg => hr.isArgument_of_mem, fun flaw hf hm => ?_⟩
  · obtain hnone | ⟨kind, hone⟩ := hr.flaws_cases
    · simp [hnone]
    · simp [hone]
  · -- The words up to the last one of the item, and those after it.
    have hsplit : Word.scan file source = (before ++ w :: rest.take used) ++ rest.drop used := by
      rw [hs, List.append_assoc, List.cons_append, List.take_append_drop]
    have hfile : ∀ v ∈ w :: rest, v.file = file := fun v hv =>
      Word.scanFrom_file (hs ▸ List.mem_append_right before hv : v ∈ Word.scan file source)
    obtain ⟨first, -, last, hlast, hspan⟩ := (hr.over hfile).located
    have hstop : item.atom.stop = last.stop := by
      have h := congrArg Span.stop hspan
      exact Int.ofNat.inj h
    have hend : last ∈ (before ++ w :: rest.take used).getLast? := by
      rwa [List.getLast?_append_of_ne_nil _ (List.cons_ne_nil w _)]
    have hnext := Word.Ordered.next?_append (hsplit ▸ Word.ordered_scan file source)
      (fun v hv => Word.inked_of_mem_scan (hsplit ▸ hv)) hend
    rw [hstop, hsplit, hnext]
    exact hr.greedy hf hm

def starving : Text := "#const A percent_chance terrain_cost GRASS if /* B"

def shortCost : Item := flawed (.command ⟨"terrain_cost", 0, 24⟩ [⟨"GRASS", 0, 37⟩]) .missingCommandArgs

theorem shortCost_exact : shortCost ∈ parse 0 starving ∧ shortCost.Exact (Word.scan 0 starving) := by
  have hmem : shortCost ∈ parse 0 starving := by decide +kernel
  exact ⟨hmem, parse_exact 0 starving shortCost hmem⟩

theorem parse_of_inked (file : Int) {t : Text} (h : t.Inked) : parse file t = [(read t ⟨t, file, 0⟩ []).1] := by
  rw [parse, Word.scan_inked file h, readFrom_cons (reading t ⟨t, file, 0⟩ []), List.drop_nil]
  rfl

theorem Reading.lead_of_unknownWord {source : Text} {w v : Word} {rest : List Word} {used : Nat}
    (h : Reading source w rest (flawed (.other v) .unknownWord) used) : Lead.of w.text = .unknown := by
  generalize hi : flawed (.other v) .unknownWord = item at h
  cases h with
  | unknown hw => exact hw
  | starved hw hk =>
    have hm := Keyword.wantsMore_of_unary? hk
    simp only [flawed, Item.mk.injEq, List.cons.injEq, Flaw.mk.injEq] at hi
    rw [← hi.2.1.1] at hm
    simp [Flaw.Kind.wantsMore] at hm
  | _ => simp [flawed, sound] at hi

theorem parse_eq_unknownWord_iff (file : Int) {t : Text} (h : t.Inked) :
    parse file t = [flawed (.other ⟨t, file, 0⟩) .unknownWord] ↔ Lead.of t = .unknown := by
  have hr := reading t ⟨t, file, 0⟩ []
  rw [parse_of_inked file h, List.cons.injEq, and_iff_left rfl]
  constructor
  · intro he
    rw [he] at hr
    exact hr.lead_of_unknownWord
  · intro hl
    rw [(Reading.unknown hl : Reading t ⟨t, file, 0⟩ [] _ 0).read_eq]

/-- Names and comments are no arguments, so only a keyword could start a statement. -/
theorem lead_of_isArgument {t : Text} (h : isArgument t = true) :
    Lead.of t = .unknown ∨ ∃ k, Lead.of t = .keyword k := by
  have hname : Catalog.contains t = false := by simp_all [isArgument]
  have hopen : t.startsWith openMark = false := by simp_all [isArgument]
  have hfits := Lead.of_fits t
  cases hl : Lead.of t with
  | unknown => exact .inl rfl
  | keyword k => exact .inr ⟨k, rfl⟩
  | mark =>
    rw [hl] at hfits
    simp [Lead.Fits, hname] at hfits
  | name entry =>
    rw [hl] at hfits
    simp [Catalog.contains, show Catalog.find? t = some entry from hfits] at hname
  | inline =>
    rw [hl] at hfits
    simp [Lead.Fits, isInlineComment, hopen] at hfits

theorem isArgument_spelling (k : Keyword) : isArgument k.spelling = false := by
  cases k <;> rfl

theorem isArgument_of_mem_parse {file : Int} {source : Text} {item : Item} (hi : item ∈ parse file source) {arg : Word}
    (ha : arg ∈ item.atom.arguments) : arg.text.Inked ∧ isArgument arg.text = true := by
  have hread : item.atom.IsRead := Atom.isRead_of_mem_parse (List.mem_map_of_mem hi)
  have hkind : item.atom.kind ≠ .comment := by
    intro hk
    cases hc : item.atom <;> simp [hc, Atom.kind, Atom.arguments] at hk ha
  have hmem : arg ∈ item.atom.words := by
    cases hc : item.atom <;> rw [hc] at ha hkind
    case comment => exact absurd rfl hkind
    all_goals exact List.mem_cons_of_mem _ ha
  obtain ⟨_, w, rest, used, -, -, hr⟩ := reading_of_mem (fun _ => True) trivial (fun _ _ _ => .inl trivial) hi
  exact ⟨hread.inked hkind arg hmem, hr.isArgument_of_mem ha⟩

/-- An argument of any statement, read by itself, is an unknown word exactly if it is no keyword in some capitals, and
no argument is a keyword in lowercase. -/
theorem argument_unknown_iff (file alone : Int) (source : Text) :
    ∀ item ∈ parse file source, ∀ arg ∈ item.atom.arguments,
      (parse alone arg.text = [flawed (.other ⟨arg.text, alone, 0⟩) .unknownWord] ↔
        ∀ k : Keyword, Text.lower arg.text ≠ k.spelling) ∧
      ∀ k : Keyword, arg.text ≠ k.spelling := by
  intro item hi arg ha
  obtain ⟨hink, harg⟩ := isArgument_of_mem_parse hi ha
  have hkey : Lead.of arg.text = .unknown ↔ ∀ k : Keyword, Text.lower arg.text ≠ k.spelling := by
    constructor
    · intro hl k hk
      have hnone := Lead.ofText?_eq_none (t := arg.text) (by simp [hl]) (by simp [hl])
      simp [Keyword.ofText?_eq_some.2 hk] at hnone
    · intro hk
      refine (lead_of_isArgument harg).resolve_right fun hl => ?_
      obtain ⟨k, hl⟩ := hl
      exact hk k (Lead.lower_of_keyword hl)
  refine ⟨(parse_eq_unknownWord_iff alone hink).trans hkey, fun k hk => ?_⟩
  rw [hk, isArgument_spelling] at harg
  exact Bool.false_ne_true harg

def swallowing : Text := "if A base_size\nELSE endif"

def swallowed : Item := sound (.command ⟨"base_size", 0, 5⟩ [⟨"ELSE", 0, 15⟩])

theorem swallowed_mem : swallowed ∈ parse 0 swallowing := by
  decide +kernel

theorem swallowed_argument : swallowed ∈ parse 0 swallowing ∧ ⟨"ELSE", 0, 15⟩ ∈ swallowed.atom.arguments ∧
    (parse 0 "ELSE" = [flawed (.other ⟨"ELSE", 0, 0⟩) .unknownWord] ↔
      ∀ k : Keyword, Text.lower "ELSE" ≠ k.spelling) ∧
    ∀ k : Keyword, Text.ofString "ELSE" ≠ k.spelling := by
  have harg : (⟨"ELSE", 0, 15⟩ : Word) ∈ swallowed.atom.arguments := List.mem_singleton_self _
  exact ⟨swallowed_mem, harg, argument_unknown_iff 0 0 swallowing swallowed swallowed_mem _ harg⟩

/-- An argument that is no unknown word: read by itself, it starts the other branch of a condition. -/
theorem swallowed_not_unknown : ∃ item ∈ parse 0 swallowing, ∃ arg ∈ item.atom.arguments,
    parse 0 arg.text ≠ [flawed (.other ⟨arg.text, 0, 0⟩) .unknownWord] ∧
      parse 0 arg.text = [sound (.elseThen ⟨arg.text, 0, 0⟩)] := by
  have halone : parse 0 "ELSE" = [sound (.elseThen ⟨"ELSE", 0, 0⟩)] := by decide +kernel
  refine ⟨swallowed, swallowed_mem, ⟨"ELSE", 0, 15⟩, List.mem_singleton_self _, ?_, halone⟩
  rw [halone]
  simp [sound, flawed]

end Item

end MapScript
