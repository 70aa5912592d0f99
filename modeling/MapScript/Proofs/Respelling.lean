import Mathlib.Data.List.Forall2
import Mathlib.Data.List.Nodup
import MapScript.Proofs.Capitals
import MapScript.Proofs.Patches
import MapScript.Proofs.Texts

/-! Edits that put texts in place of words. They are made all together, and the text that they give has the words of
the new texts in the places of the old ones. When each of them puts a word in place of a word, nothing changes before
the first of them. -/

namespace MapScript

/-- A word with the same role: the same word, or an argument in place of an argument. -/
def Text.Respelt (t t' : Text) : Prop :=
  t' = t ∨ Item.isArgument t = true ∧ Item.isArgument t' = true ∧ Rnd.isUnfinished t' = false ∧
    (Catalog.isSectionShaped t' = true → Catalog.isSectionShaped t = true)

theorem Text.Respelt.isArgument {t t' : Text} (h : t.Respelt t') (ht : Item.isArgument t = true) :
    Item.isArgument t' = true := by
  rcases h with rfl | h
  · exact ht
  · exact h.2.1

theorem Text.Respelt.ne_closeMark {t t' : Text} (h : t.Respelt t') (ht : t ≠ Item.closeMark) :
    t' ≠ Item.closeMark := by
  rcases h with rfl | h
  · exact ht
  · exact Item.ne_closeMark_of_isArgument h.2.1

theorem Text.slice_append_slice (t : Text) {i j k : Nat} (hij : i ≤ j) (hjk : j ≤ k) :
    t.slice i j ++ t.slice j k = t.slice i k := by
  have hfront : t.slice i j = slice (t.take k) i j := by
    rw [slice, slice, List.take_take, Nat.min_eq_left hjk]
  rw [hfront]
  exact slice_append_drop (t.take k) hij

theorem Text.slice_middle (front middle back : Text) :
    slice (front ++ (middle ++ back)) front.length (front ++ middle).length = middle := by
  rw [slice, ← List.append_assoc, List.take_left, List.drop_left]

theorem Word.scan_drop_eq_cons {file : Int} {source : Text} {pos : Nat} (hpos : pos ≤ source.length) {w : Word}
    {words : List Word} (h : (scan file (source.drop pos)).map (fun v => v.shift pos) = w :: words) :
    pos ≤ w.start ∧ w.stop ≤ source.length ∧ (source.slice pos w.start).isBlank = true ∧
      source.slice w.start w.stop = w.text ∧
      source.drop pos = source.slice pos w.start ++ (w.text ++ source.drop w.stop) ∧ w.text.Inked ∧
      Text.StartsBlank (source.drop w.stop) ∧
      (scan file (source.drop w.stop)).map (fun v => v.shift w.stop) = words := by
  obtain hb | ⟨b, v, rest, hdrop, hb, hv, hr⟩ := Text.first_word (source.drop pos)
  · simp [scan_of_isBlank file hb] at h
  · rw [hdrop, scan_first file hb hv hr, List.map_cons, List.cons.injEq] at h
    obtain ⟨rfl, hrest⟩ := h
    have hsource : source = source.take pos ++ (b ++ (v ++ rest)) := by rw [← hdrop, List.take_append_drop]
    have hlen : (source.take pos).length = pos := List.length_take_of_le hpos
    generalize source.take pos = front at hsource hlen
    have hstart : ((⟨v, file, b.length⟩ : Word).shift pos).start = (front ++ b).length := by
      simp [hlen, Nat.add_comm]
    have hstop : ((⟨v, file, b.length⟩ : Word).shift pos).stop = (front ++ b ++ v).length := by
      rw [stop, hstart, shift_text, ← List.length_append]
    have hback : source.drop ((⟨v, file, b.length⟩ : Word).shift pos).stop = rest := by
      rw [hstop, hsource, ← List.append_assoc, ← List.append_assoc, List.drop_left]
    have hblank : source.slice pos ((⟨v, file, b.length⟩ : Word).shift pos).start = b := by
      rw [hstart, hsource, ← hlen, Text.slice_middle]
    rw [hback, hblank, hstart, hstop, hsource]
    refine ⟨by simp [hlen], by simp, hb, ?_, by simp [← hlen], hv, hr, ?_⟩
    · rw [← List.append_assoc, Text.slice_middle, shift_text]
    · rw [← hrest, List.map_map]
      refine List.map_congr_left fun u _ => ?_
      rw [Function.comp_apply, shift_shift, ← hlen]
      congr 1
      simp only [List.length_append]
      omega

theorem Word.bounds_of_mem_scan_drop {file : Int} {source : Text} {pos : Nat} (hpos : pos ≤ source.length) {w : Word}
    (h : w ∈ (scan file (source.drop pos)).map fun v => v.shift pos) : pos ≤ w.start ∧ w.stop ≤ source.length := by
  obtain ⟨v, hv, rfl⟩ := List.mem_map.1 h
  have hstop := stop_le_of_mem_scan hv
  rw [List.length_drop] at hstop
  rw [shift_start, shift_stop]
  omega

theorem Word.exists_cut {file : Int} {source : Text} {before after : List Word}
    (h : scan file source = before ++ after) :
    ∃ pos ≤ source.length, (Text.EndsBlank (source.take pos) ∨ Text.StartsBlank (source.drop pos)) ∧
      scan file (source.take pos) = before ∧ (scan file (source.drop pos)).map (fun w => w.shift pos) = after ∧
      ∀ w ∈ before, w.stop ≤ pos := by
  rcases before.eq_nil_or_concat with rfl | ⟨before, last, rfl⟩
  · refine ⟨0, Nat.zero_le _, .inl Text.endsBlank_nil, rfl, ?_, by simp⟩
    rw [List.drop_zero, h]
    simp [shift]
  · rw [List.concat_eq_append] at h ⊢
    rw [List.append_assoc] at h
    have hfile : last.file = file := scanFrom_file (by rw [← scan, h]; simp)
    obtain ⟨s, t, rfl, hs, hend, hink, hstarts, rfl, rfl⟩ := scan_split h
    have hlen : last.stop = (s ++ last.text).length := by rw [List.length_append, hs]; rfl
    have hfront : scan file (s ++ last.text) = scan file s ++ [last] := by
      rw [scan_append _ _ _ (.inl hend), scan_inked file hink, hs, ← hfile]
      simp [shift]
    refine ⟨last.stop, ?_⟩
    rw [hlen, ← List.append_assoc, List.take_left, List.drop_left]
    refine ⟨by simp, .inr hstarts, hfront, rfl, fun w hw => ?_⟩
    rw [← hfront] at hw
    exact stop_le_of_mem_scan hw

theorem Word.map_text_scanFrom (file : Int) (run : Text) (pos : Nat) (t : Text) :
    (scanFrom file run pos t).map Word.text = (scanFrom 0 run pos t).map Word.text := by
  have hrun : ∀ (stop : Nat) (run : Text), (ofRun file stop run).map Word.text = (ofRun 0 stop run).map Word.text := by
    intro stop run
    unfold ofRun
    split <;> rfl
  induction t generalizing run pos with
  | nil => exact hrun pos run
  | cons g rest ih =>
    unfold scanFrom
    split
    · rw [List.map_append, List.map_append, hrun, ih]
    · exact ih _ _

theorem Word.map_text_scan (file : Int) (t : Text) : (scan file t).map Word.text = texts t :=
  map_text_scanFrom file [] 0 t

theorem Word.texts_first {blanks fresh rest : Text} (hb : blanks.isBlank = true) (hr : rest.StartsBlank)
    {old back : Text} (ho : old.Inked) :
    texts (blanks ++ (fresh ++ rest)) = texts fresh ++ texts rest ∧
      (Text.StartsBlank (blanks ++ (old ++ back)) → Text.StartsBlank (blanks ++ (fresh ++ rest))) := by
  constructor
  · rw [texts_blank_append hb, texts_append (.inr hr)]
  · intro h
    have hne : blanks ≠ [] := by
      rintro rfl
      exact Text.not_startsBlank_inked ho back h
    exact Text.startsBlank_append (Text.startsBlank_of_isBlank hb) (.inl hne)

namespace Edit

/-- The edits, in order, put texts in place of some of the words, each one as `P` allows it; `texts` are the words
then. -/
inductive Puts (P : Text → Text → Prop) : List Suggestion → List Word → List Text → Prop
  | nil : Puts P [] [] []
  | keep {edits words texts} (w : Word) (h : Puts P edits words texts) : Puts P edits (w :: words) (w.text :: texts)
  | replace {s w t edits words texts} (hs : s.span = w.span) (hr : s.replacement = .safe t) (hw : P w.text t)
      (h : Puts P edits words texts) : Puts P (s :: edits) (w :: words) (Word.texts t ++ texts)

namespace Puts

variable {P : Text → Text → Prop} {edits : List Suggestion} {words : List Word} {texts : List Text}

theorem exists_word (h : Puts P edits words texts) {s : Suggestion} (hs : s ∈ edits) :
    ∃ w ∈ words, s.span = w.span ∧ ∃ t, s.replacement = .safe t ∧ P w.text t := by
  induction h with
  | nil => simp at hs
  | keep w _ ih =>
    obtain ⟨v, hv, hspan⟩ := ih hs
    exact ⟨v, List.mem_cons_of_mem w hv, hspan⟩
  | @replace e w t _ _ _ hspan hr hw _ ih =>
    rcases List.mem_cons.1 hs with rfl | hs
    · exact ⟨w, List.mem_cons_self, hspan, t, hr, hw⟩
    · obtain ⟨v, hv, hspan⟩ := ih hs
      exact ⟨v, List.mem_cons_of_mem w hv, hspan⟩

theorem ordered (h : Puts P edits words texts) (hord : Word.Ordered words) :
    edits.Pairwise fun a b => a.span.stop ≤ b.span.start := by
  induction h with
  | nil => exact .nil
  | keep w _ ih => exact ih (List.pairwise_cons.1 hord).2
  | @replace e w _ _ _ _ hspan _ _ h ih =>
    obtain ⟨hfirst, hrest⟩ := List.pairwise_cons.1 hord
    refine List.pairwise_cons.2 ⟨fun b hb => ?_, ih hrest⟩
    obtain ⟨v, hv, hb, -⟩ := h.exists_word hb
    rw [hspan, hb]
    exact Int.ofNat_le.2 (hfirst v hv)

end Puts

inductive Respells : List Suggestion → List Word → List Text → Prop
  | nil : Respells [] [] []
  | keep {edits words texts} (w : Word) (h : Respells edits words texts) :
      Respells edits (w :: words) (w.text :: texts)
  | replace {s w t edits words texts} (hs : s.span = w.span) (hr : s.replacement = .safe t) (ht : t.Inked)
      (hw : w.text.Respelt t) (h : Respells edits words texts) :
      Respells (s :: edits) (w :: words) (t :: texts)

namespace Respells

variable {edits : List Suggestion} {words : List Word} {texts : List Text}

theorem append {edits' : List Suggestion} {words' : List Word} {texts' : List Text}
    (h : Respells edits words texts) (h' : Respells edits' words' texts') :
    Respells (edits ++ edits') (words ++ words') (texts ++ texts') := by
  induction h with
  | nil => exact h'
  | keep w _ ih => exact .keep w ih
  | replace hs hr ht hw _ ih => exact .replace hs hr ht hw ih

theorem kept (words : List Word) : Respells [] words (words.map Word.text) := by
  induction words with
  | nil => exact .nil
  | cons w _ ih => exact .keep w ih

theorem puts (h : Respells edits words texts) : Puts (fun _ t => t.Inked) edits words texts := by
  induction h with
  | nil => exact .nil
  | keep w _ ih => exact .keep w ih
  | replace hs hr ht _ _ ih =>
    have hput := Puts.replace hs hr ht ih
    rwa [Word.texts_inked ht] at hput

theorem respelt (h : Respells edits words texts) :
    List.Forall₂ (fun w t => w.text.Respelt t) words texts := by
  induction h with
  | nil => exact .nil
  | keep w _ ih => exact .cons (.inl rfl) ih
  | replace _ _ _ hw _ ih => exact .cons hw ih

theorem respelt_of_mem (h : Respells edits words texts) {t : Text} (ht : t ∈ texts) :
    ∃ w ∈ words, w.text.Respelt t := by
  obtain ⟨i, hi, rfl⟩ := List.getElem_of_mem ht
  have hlen := h.respelt.length_eq
  exact ⟨words[i], List.getElem_mem _, h.respelt.get (by omega) hi⟩

end Respells

theorem choose_eq_self {last : Int} {l : List Suggestion} (hlast : ∀ s ∈ l.head?, last ≤ s.span.start)
    (h : l.Pairwise fun a b => a.span.stop ≤ b.span.start) : choose last l = l := by
  induction l generalizing last with
  | nil => rfl
  | cons s rest ih =>
    obtain ⟨hs, hrest⟩ := List.pairwise_cons.1 h
    rw [choose, if_neg (by have := hlast s rfl; omega), ih (fun r hr => hs r (List.mem_of_mem_head? hr)) hrest]

theorem le_iff {a b : Suggestion} : le a b = true ↔
    a.span.start < b.span.start ∨ a.span.start = b.span.start ∧ a.span.stop ≤ b.span.stop := by
  simp [le]

theorem sorted_mergeSort (l : List Suggestion) : (l.mergeSort le).Pairwise fun a b => le a b = true := by
  refine List.pairwise_mergeSort (fun a b c hab hbc => ?_) (fun a b => ?_) l
  · rw [le_iff] at hab hbc ⊢
    omega
  · rw [Bool.or_eq_true, le_iff, le_iff]
    omega

theorem mergeSort_eq_of_perm {l sorted : List Suggestion} (hperm : l.Perm sorted)
    (hsorted : sorted.Pairwise fun a b => le a b = true)
    (hkeys : (sorted.map fun s => (s.span.start, s.span.stop)).Nodup) : l.mergeSort le = sorted := by
  refine List.Perm.eq_of_pairwise (fun a b ha hb hab hba => ?_) (sorted_mergeSort l) hsorted
    ((List.mergeSort_perm _ _).trans hperm)
  have ha := hperm.mem_iff.1 (List.mem_mergeSort.1 ha)
  rw [le_iff] at hab hba
  exact List.inj_on_of_nodup_map hkeys ha hb (Prod.ext (by omega) (by omega))

/-- Edits that lie one after the other are made all together, in whatever order they were found. -/
theorem applicable_eq_of_perm {risky : Bool} {file : Option Int} {ds : List Diagnostic} {edits : List Suggestion}
    (hperm : (fixable risky file ds).Perm edits) (hord : edits.Pairwise fun a b => a.span.stop ≤ b.span.start)
    (hlt : ∀ s ∈ edits, 0 ≤ s.span.start ∧ s.span.start < s.span.stop) :
    applicable risky file ds = edits := by
  have hstrict : edits.Pairwise fun a b => a.span.start < b.span.start :=
    hord.imp_of_mem fun ha _ hab => Int.lt_of_lt_of_le (hlt _ ha).2 hab
  have hkeys : (edits.map fun s => (s.span.start, s.span.stop)).Nodup :=
    List.pairwise_map.2 (hstrict.imp fun hab he => Int.ne_of_lt hab (congrArg Prod.fst he))
  rw [applicable, mergeSort_eq_of_perm hperm (hstrict.imp fun hab => le_iff.2 (.inl hab)) hkeys]
  refine choose_eq_self (fun s hs => ?_) hord
  have := (hlt s (List.mem_of_mem_head? hs)).1
  omega

theorem applicable_eq_of_puts {P : Text → Text → Prop} {ds found : List Diagnostic} (hperm : ds.Perm found)
    {text : Text} {texts : List Text} (h : Puts P (fixable false none found) (Word.scan 0 text) texts) :
    applicable false none ds = fixable false none found := by
  refine applicable_eq_of_perm (List.Perm.flatMap_right _ hperm) (h.ordered (Word.ordered_scan 0 text)) fun s hs => ?_
  obtain ⟨w, hw, hspan, -⟩ := h.exists_word hs
  have hlt := Word.start_lt_stop (Word.inked_of_mem_scan hw)
  rw [hspan]
  exact ⟨Int.natCast_nonneg w.start, Int.ofNat_lt.2 hlt⟩

section Splice

variable {source : Text}

theorem splice_append {pos stop : Nat} {edits : List Suggestion} (hpos : pos ≤ stop) (hstop : stop ≤ source.length)
    (h : ∀ s ∈ edits.head?, (stop : Int) ≤ s.span.start ∧ s.span.start ≤ source.length) :
    splice source pos edits = source.slice pos stop ++ splice source stop edits := by
  cases edits with
  | nil =>
    rw [splice, splice, Text.clamp_of_le (by omega) (by omega), Text.clamp_of_le (by omega) (by omega),
      Int.toNat_natCast, Int.toNat_natCast, Text.slice_append_drop _ hpos]
  | cons s rest =>
    obtain ⟨hs, hlen⟩ := h s rfl
    obtain ⟨start, hstart⟩ := Int.eq_ofNat_of_zero_le (by omega : 0 ≤ s.span.start)
    rw [hstart] at hs hlen
    rw [splice, splice, between, between, hstart, Text.clamp_of_le (by omega) (by omega),
      Text.clamp_of_le (by omega) (by omega), Text.clamp_of_le (by omega) (by omega)]
    simp only [Int.toNat_natCast, ← Text.slice_append_slice source hpos (Int.ofNat_le.1 hs), List.append_assoc]

/-- The words after a place where a word may begin, when those that the edits name get new texts. -/
theorem Puts.texts_splice {P : Text → Text → Prop} {file : Int} {pos : Nat} {edits : List Suggestion}
    {texts : List Text} (h : Puts P edits ((Word.scan file (source.drop pos)).map fun w => w.shift pos) texts)
    (hpos : pos ≤ source.length) :
    Word.texts (splice source pos edits) = texts ∧
      (Text.StartsBlank (source.drop pos) → (splice source pos edits).StartsBlank) := by
  generalize hwords : (Word.scan file (source.drop pos)).map (fun w => w.shift pos) = words at h
  induction h generalizing pos with
  | nil =>
    rw [List.map_eq_nil_iff] at hwords
    rw [splice, Text.clamp_of_le (by omega) (by omega), Int.toNat_natCast, ← Word.map_text_scan file, hwords]
    exact ⟨rfl, id⟩
  | @keep edits words texts w h ih =>
    obtain ⟨hstart, hstop, hblank, htext, hdrop, hink, hafter, hrest⟩ := Word.scan_drop_eq_cons hpos hwords
    have hsplice : splice source pos edits
        = source.slice pos w.start ++ (w.text ++ splice source w.stop edits) := by
      rw [← htext, ← List.append_assoc, Text.slice_append_slice _ hstart (by simp [Word.stop])]
      -- The next edit is for a later word, so the text up to the end of this one is copied.
      refine splice_append (by simp [Word.stop]; omega) hstop fun s hs => ?_
      obtain ⟨v, hv, hspan, -⟩ := h.exists_word (List.mem_of_mem_head? hs)
      have hbounds := Word.bounds_of_mem_scan_drop hstop (hrest ▸ hv)
      rw [hspan]
      exact ⟨Int.ofNat_le.2 hbounds.1, Int.ofNat_le.2 (by simp only [Word.stop] at hbounds; omega)⟩
    obtain ⟨htexts, hstarts⟩ := ih hstop hrest
    have hfirst := @Word.texts_first _ w.text _ hblank (hstarts hafter) w.text (source.drop w.stop) hink
    rwa [htexts, Word.texts_inked hink, ← hsplice, ← hdrop] at hfirst
  | @replace s w t edits words texts hs hr hw h ih =>
    obtain ⟨hstart, hstop, hblank, htext, hdrop, hink, hafter, hrest⟩ := Word.scan_drop_eq_cons hpos hwords
    have hsplice : splice source pos (s :: edits)
        = source.slice pos w.start ++ (t ++ splice source w.stop edits) := by
      rw [splice, between, hs, hr, List.append_assoc]
      simp only [Word.span, Replacement.text?, Option.getD_some]
      rw [Text.clamp_of_le (by omega) (by omega),
        Text.clamp_of_le (by omega) (by simp only [Word.stop] at hstop; omega)]
      rfl
    obtain ⟨htexts, hstarts⟩ := ih hstop hrest
    have hfirst := @Word.texts_first _ t _ hblank (hstarts hafter) w.text (source.drop w.stop) hink
    rwa [htexts, ← hsplice, ← hdrop] at hfirst

theorem scan_splice {file : Int} {before after : List Word} (hscan : Word.scan file source = before ++ after)
    {edits : List Suggestion} {texts : List Text} (h : Respells edits after texts) :
    ∃ after', Word.scan file (splice source 0 edits) = before ++ after' ∧ after'.map Word.text = texts ∧
      ∀ w ∈ before, (splice source 0 edits).take w.stop = source.take w.stop := by
  obtain ⟨pos, hpos, hedge, rfl, rfl, hstop⟩ := Word.exists_cut hscan
  obtain ⟨htexts, hstarts⟩ := h.puts.texts_splice hpos
  have hsplice : splice source 0 edits = source.take pos ++ splice source pos edits := by
    refine splice_append (Nat.zero_le pos) hpos fun s hs => ?_
    obtain ⟨v, hv, hspan, -⟩ := h.puts.exists_word (List.mem_of_mem_head? hs)
    have hbounds := Word.bounds_of_mem_scan_drop hpos hv
    rw [hspan]
    exact ⟨Int.ofNat_le.2 hbounds.1, Int.ofNat_le.2 (by simp only [Word.stop] at hbounds; omega)⟩
  have hlen : (source.take pos).length = pos := List.length_take_of_le hpos
  refine ⟨(Word.scan file (splice source pos edits)).map fun w => w.shift pos, ?_, ?_, fun w hw => ?_⟩
  · rw [hsplice, Word.scan_append _ _ _ (hedge.imp_right hstarts), hlen]
  · rw [List.map_map, ← htexts]
    exact Word.map_text_scan file _
  · rw [hsplice, List.take_append_of_le_length (by rw [hlen]; exact hstop w hw), List.take_take,
      Nat.min_eq_left (hstop w hw)]

end Splice

end Edit

end MapScript
