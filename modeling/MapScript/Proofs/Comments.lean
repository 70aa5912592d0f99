import MapScript.Proofs.Spacing

/-! A comment that is written once more: it stays as it is unless it has a blank line between others, which gets
a star with a space the first time and without one the second time. -/

namespace MapScript.Layout

open Text Job

theorem commentLine_star {line : Text} (h : (trim line).startsWith "*" = true) :
    commentLine line = (" " : Text) ++ trim line := by
  rw [commentLine, if_pos h]

theorem commentLine_plain {line : Text} (h : ¬ (trim line).startsWith "*" = true) :
    commentLine line = (" * " : Text) ++ trimRight line := by
  rw [commentLine, if_neg h]

theorem commentLine_of_isBlank {line : Text} (h : line.isBlank = true) : commentLine line = " * " := by
  have hright : trimRight line = [] := by
    rw [← List.nil_append line, trimRight_append_blank h]
    rfl
  rw [commentLine_plain, hright]
  · rfl
  · rw [trim_of_isBlank h]
    decide

section Lines

variable (o : Options) (indent : Nat)

def starred (line : Text) : Text := o.indentation indent ++ commentLine line

theorem newline_notMem_starred {line : Text} (h : .char '\n' ∉ line) : .char '\n' ∉ starred o indent line := by
  have hstar : .char '\n' ∉ ofString " * " := by decide
  have hspace : .char '\n' ∉ ofString " " := by decide
  by_cases hs : (trim line).startsWith "*" = true
  · rw [starred, commentLine_star hs]
    simp [newline_notMem_indentation, hspace, mt mem_of_mem_trim h]
  · rw [starred, commentLine_plain hs]
    simp [newline_notMem_indentation, hstar, mt mem_of_mem_trimRight h]

theorem starred_eq (line : Text) :
    ∃ t, starred o indent line = (o.indentation indent ++ (" " : Text)) ++ t ∧ t.startsWith "*" = true ∧
      (line.isBlank = true ∧ t = ofString "* " ∨ ¬ t.EndsBlank) := by
  by_cases hs : (trim line).startsWith "*" = true
  · refine ⟨trim line, by rw [starred, commentLine_star hs, List.append_assoc], hs, .inr ?_⟩
    rcases trim_cases line with h | h
    · rw [h] at hs
      exact absurd hs (by decide)
    · exact h.2
  · have heq : starred o indent line
        = (o.indentation indent ++ ofString " ") ++ (ofString "* " ++ trimRight line) := by
      rw [starred, commentLine_plain hs, List.append_assoc]
      rfl
    refine ⟨_, heq, rfl, ?_⟩
    rcases trimRight_cases line with h | h
    · obtain ⟨b, hb, ht⟩ := trimRight_blank line
      rw [h, List.nil_append] at ht
      exact .inl ⟨ht ▸ hb, by rw [h, List.append_nil]⟩
    · exact .inr (not_endsBlank_append h _)

theorem isBlank_starred (line : Text) : (starred o indent line).isBlank = false := by
  obtain ⟨t, ht, hstar, -⟩ := starred_eq o indent line
  obtain ⟨t, rfl⟩ := List.isPrefixOf_iff_prefix.1 hstar
  have hb : isBlank (ofString "*") = false := by decide
  rw [ht, isBlank_append, @isBlank_append (ofString "*") t, hb]
  simp

theorem dropReturn_starred (line : Text) : dropReturn (starred o indent line) = starred o indent line := by
  obtain ⟨t, ht, -, ⟨-, rfl⟩ | he⟩ := starred_eq o indent line
  · refine dropReturn_of_getLast? ?_
    rw [ht]
    simp [ofString]
  · refine dropReturn_of_getLast? fun hr => ?_
    rw [ht] at hr
    refine not_endsBlank_append he (o.indentation indent ++ ofString " ") fun g hg => ?_
    obtain rfl := Option.mem_unique hg hr
    decide

theorem trim_starred {t : Text} (hs : t.startsWith "*" = true) (he : ¬ t.EndsBlank) {b : Text}
    (hb : b.isBlank = true) : trim ((o.indentation indent ++ (" " : Text)) ++ (t ++ b)) = t := by
  have hlead : isBlank (o.indentation indent ++ (" " : Text)) = true := by
    rw [isBlank_append, isBlank_indentation, isBlank_space.1]
    rfl
  refine trim_around hlead (fun h => ?_) he hb
  obtain ⟨t, rfl⟩ := List.isPrefixOf_iff_prefix.1 hs
  exact not_startsBlank_inked ⟨by decide, by decide⟩ t h

/-- A line that is not blank is written in the same way again. -/
theorem commentLine_starred {line : Text} (h : line.isBlank = false) :
    commentLine (starred o indent line) = commentLine line := by
  obtain ⟨t, ht, hs, ⟨hb, -⟩ | he⟩ := starred_eq o indent line
  · simp [h] at hb
  · have htrim : trim (starred o indent line) = t := by
      have hnil := @trim_starred o indent t hs he [] rfl
      rwa [List.append_nil, ← ht] at hnil
    rw [commentLine_star (by rwa [htrim]), htrim]
    rw [starred, List.append_assoc] at ht
    exact (List.append_cancel_left ht).symm

theorem commentLine_starred_of_isBlank {line : Text} (h : line.isBlank = true) :
    commentLine (starred o indent line) = " *" := by
  have htrim : trim (starred o indent line) = "*" := by
    have heq : starred o indent line
        = (o.indentation indent ++ (" " : Text)) ++ (ofString "*" ++ ofString " ") := by
      rw [starred, commentLine_of_isBlank h, List.append_assoc]
      rfl
    have hink : ¬ EndsBlank (ofString "*") := not_endsBlank_inked ⟨by decide, by decide⟩ []
    rw [heq]
    exact trim_starred o indent rfl hink isBlank_space.1
  rw [commentLine_star (by rw [htrim]; decide), htrim]
  rfl

end Lines

theorem feedLines_lines {o : Options} (ho : o.Usual) {x : Text} {lines : List Text}
    (h : ∀ line ∈ x :: lines, .char '\n' ∉ line ∧ dropReturn line = line) {t : Text}
    (ht : x ++ lines.flatMap (fun line => o.lineEnding ++ line) = t ++ (" " : Text)) :
    feedLines (t ++ (" " : Text)) = x :: lines := by
  obtain ⟨r, he, hr⟩ := ho.exists_eq
  have hfields : ∀ (lines : List Text) (x : Text),
      (∀ line ∈ x :: lines, .char '\n' ∉ line ∧ dropReturn line = line) →
      (fields (.char '\n') (x ++ lines.flatMap fun line => o.lineEnding ++ line)).map dropReturn
        = x :: lines := by
    intro lines
    induction lines with
    | nil =>
      intro x hx
      obtain ⟨hn, hd⟩ := hx x (by simp)
      simp [fields_of_notMem hn, hd]
    | cons y lines ih =>
      intro x hx
      obtain ⟨hn, hd⟩ := hx x (by simp)
      have hline : .char '\n' ∉ x ++ r ∧ dropReturn (x ++ r) = x := by
        rcases hr with rfl | rfl
        · simpa using ⟨hn, hd⟩
        · exact ⟨by simp [hn], dropReturn_append_return x⟩
      have hcut : x ++ (y :: lines).flatMap (fun line => o.lineEnding ++ line)
          = (x ++ r) ++ .char '\n' :: (y ++ lines.flatMap fun line => o.lineEnding ++ line) := by
        simp [he]
      rw [hcut, fields_append_cons, fields_of_notMem hline.1, List.map_append,
        ih y fun line hl => hx line (by simp [List.mem_cons.1 hl])]
      simp [hline.2]
  have hend : endsWith (t ++ (" " : Text)) "\n" = false := by
    rw [Bool.eq_false_iff]
    intro hs
    obtain ⟨s, hs⟩ := List.isSuffixOf_iff_suffix.1 hs
    have hlast := congrArg List.getLast? hs
    simp [ofString] at hlast
  have hne : (t ++ (" " : Text)).isEmpty = false := by simp [ofString]
  rw [feedLines_eq, hne, hend, ← ht]
  simpa using hfields lines x h

theorem dropBlankEnd_append_blank {lines : List Text} (h : ∀ line ∈ lines, line.isBlank = false) {blank : Text}
    (hb : blank.isBlank = true) : dropBlankEnd (lines ++ [blank]) = lines := by
  have hstay : lines.reverse.dropWhile (fun line => (trim line).isEmpty) = lines.reverse := by
    refine List.dropWhile_eq_self_iff.2 fun hl => ?_
    have hmem : lines.reverse[0] ∈ lines := List.mem_reverse.1 (List.getElem_mem hl)
    rw [isEmpty_trim, h _ hmem]
    simp
  rw [dropBlankEnd, List.reverse_append, List.reverse_singleton, List.singleton_append,
    List.dropWhile_cons_of_pos (by rw [isEmpty_trim, hb]), hstay, List.reverse_reverse]

theorem dropReturn_append_space (t : Text) : dropReturn (t ++ (" " : Text)) = t ++ (" " : Text) :=
  dropReturn_of_getLast? (by simp [ofString])

/-- The first line of a comment that has been written is the only one without a star. -/
theorem exists_firstLine {first : Text} (hf : first = [] ∨ ¬ first.StartsBlank ∧ ¬ first.EndsBlank)
    (hn : .char '\n' ∉ first) :
    ∃ x : Text, (if first.isEmpty then [] else (" " : Text) ++ first) = x ∧ .char '\n' ∉ x ∧
      dropReturn x = x ∧ ∀ b : Text, b.isBlank = true → trim (x ++ b) = first := by
  rcases hf with rfl | ⟨hs, he⟩
  · exact ⟨[], rfl, by simp, rfl, fun b hb => trim_of_isBlank hb⟩
  · have hne : first.isEmpty = false := by
      rw [Bool.eq_false_iff]
      intro h
      rw [List.isEmpty_iff.1 h] at hs
      exact hs startsBlank_nil
    have hspace : .char '\n' ∉ ofString " " := by decide
    refine ⟨(" " : Text) ++ first, by simp [hne], by simp [hspace, hn], ?_, fun b hb => ?_⟩
    · refine dropReturn_of_getLast? fun hr => not_endsBlank_append he (ofString " ") fun g hg => ?_
      obtain rfl := Option.mem_unique hg hr
      decide
    · rw [List.append_assoc]
      exact trim_around isBlank_space.1 hs he hb

section Content

variable {o : Options} (ho : o.Usual) (indent : Nat) {first : Text} {rest : List Text}

include ho

theorem lines_commentInner (hf : first = [] ∨ ¬ first.StartsBlank ∧ ¬ first.EndsBlank)
    (hn : .char '\n' ∉ first) (hr : ∀ line ∈ rest, .char '\n' ∉ line) :
    trim ((feedLines (commentInner o indent first rest)).headD []) = first ∧
      dropBlankEnd (feedLines (commentInner o indent first rest)).tail = rest.map (starred o indent) := by
  have hspace : .char '\n' ∉ ofString " " := by decide
  obtain ⟨x, hx, hxn, hxr, hxt⟩ := exists_firstLine hf hn
  by_cases he : rest = []
  · subst he
    have hinner : commentInner o indent first [] = x ++ (" " : Text) := by
      rw [commentInner, hx]
      simp
    have hlines : feedLines (x ++ (" " : Text)) = [x ++ (" " : Text)] :=
      feedLines_lines ho (by simpa [hxn, hspace] using dropReturn_append_space x) (by simp)
    rw [hinner, hlines]
    exact ⟨hxt _ isBlank_space.1, rfl⟩
  · have hne : rest.isEmpty = false := by simpa using he
    have hinner : commentInner o indent first rest
        = (x ++ (rest.flatMap (fun line => o.lineEnding ++ starred o indent line)
          ++ (o.lineEnding ++ o.indentation indent))) ++ (" " : Text) := by
      rw [commentInner, hx, hne]
      simp [starred]
    have hlines : feedLines (commentInner o indent first rest)
        = x :: (rest.map (starred o indent) ++ [o.indentation indent ++ (" " : Text)]) := by
      rw [hinner]
      refine feedLines_lines ho (fun line hl => ?_) (by simp [List.flatMap_map])
      rw [List.mem_cons, List.mem_append, List.mem_map, List.mem_singleton] at hl
      rcases hl with rfl | ⟨l, hl, rfl⟩ | rfl
      · exact ⟨hxn, hxr⟩
      · exact ⟨newline_notMem_starred o indent (hr l hl), dropReturn_starred o indent l⟩
      · exact ⟨by simp [newline_notMem_indentation, hspace], dropReturn_append_space _⟩
    have htrim := hxt [] rfl
    rw [List.append_nil] at htrim
    rw [hlines]
    refine ⟨htrim, dropBlankEnd_append_blank (fun line hl => ?_) ?_⟩
    · obtain ⟨l, -, rfl⟩ := List.mem_map.1 hl
      exact isBlank_starred o indent l
    · rw [isBlank_append, isBlank_indentation, isBlank_space.1]
      rfl

omit ho in
theorem commentInner_again (h : ∀ line ∈ rest, line.isBlank = false) :
    commentInner o indent first (rest.map (starred o indent)) = commentInner o indent first rest := by
  have hlines : (rest.map (starred o indent)).flatMap
      (fun line => o.lineEnding ++ (o.indentation indent ++ commentLine line))
        = rest.flatMap fun line => o.lineEnding ++ (o.indentation indent ++ commentLine line) := by
    rw [List.flatMap_map]
    refine List.flatMap_congr fun line hl => ?_
    rw [commentLine_starred o indent (h line hl)]
  rw [commentInner, commentInner, hlines, List.isEmpty_map]

/-- A blank line in a comment is written in another way the second time. -/
theorem lines_diverge (h : ∃ line ∈ rest, line.isBlank = true) (x y : Text) :
    Diverge (rest.flatMap (fun line => o.lineEnding ++ starred o indent line) ++ (o.lineEnding ++ x))
      (rest.flatMap (fun line => o.lineEnding ++ starred o indent (starred o indent line))
        ++ (o.lineEnding ++ y)) := by
  induction rest with
  | nil => simp at h
  | cons line rest ih =>
    by_cases hb : line.isBlank = true
    · obtain ⟨g, e, he, -, hne⟩ := ho.head_ne_space
      -- Another line ending comes next, whether or not this was the last line.
      obtain ⟨z, hz⟩ : ∃ z, rest.flatMap (fun line => o.lineEnding ++ starred o indent (starred o indent line))
          ++ (o.lineEnding ++ y) = g :: z := by
        cases rest with
        | nil => exact ⟨e ++ y, by simp [he]⟩
        | cons l ls => exact ⟨_, by rw [List.flatMap_cons, he]; rfl⟩
      have htwice : starred o indent (starred o indent line) = o.indentation indent ++ ofString " *" := by
        rw [starred, commentLine_starred_of_isBlank o indent hb]
      have honce : starred o indent line = (o.indentation indent ++ ofString " *") ++ [.char ' '] := by
        rw [starred, commentLine_of_isBlank hb, List.append_assoc]
        rfl
      rw [List.flatMap_cons, List.flatMap_cons, htwice, honce]
      simp only [List.append_assoc, hz]
      exact (((Diverge.of_heads hne.symm _ z).prepend _).prepend _).prepend _
    · have hsame : starred o indent (starred o indent line) = starred o indent line := by
        rw [starred, commentLine_starred o indent (by simpa using hb), starred]
      have hrest : ∃ l ∈ rest, l.isBlank = true := by
        obtain ⟨l, hl, hl'⟩ := h
        rcases List.mem_cons.1 hl with rfl | hl
        · exact absurd hl' hb
        · exact ⟨l, hl, hl'⟩
      simp only [List.flatMap_cons, hsame, List.append_assoc]
      exact ((ih hrest).prepend _).prepend _

theorem commentInner_diverges (h : ∃ line ∈ rest, line.isBlank = true) :
    Diverge (commentInner o indent first rest)
      (commentInner o indent first (rest.map (starred o indent))) := by
  have hne : rest.isEmpty = false := by
    obtain ⟨line, hl, -⟩ := h
    cases rest with
    | nil => simp at hl
    | cons => rfl
  have hlines := (lines_diverge ho indent h (o.indentation indent ++ ofString " ")
    (o.indentation indent ++ ofString " ")).prepend (if first.isEmpty then [] else (" " : Text) ++ first)
  rw [commentInner, commentInner, List.isEmpty_map, hne]
  simpa [starred, List.flatMap_map, List.append_assoc] using hlines

end Content

def isHollow : Atom → Bool
  | .comment _ content _ _ => (dropBlankEnd (feedLines content).tail).any isBlank
  | _ => false

/-- The text of an atom depends on no more than its bare form, unless it is a comment. -/
theorem phrase_bare {a : Atom} (hk : a.kind ≠ .comment) (o : Options) (place : Place) :
    phrase o place a.bare = phrase o place a := by
  cases a with
  | comment => exact absurd rfl hk
  | const head name value => cases value <;> rfl
  | command name args =>
    cases args <;> simp [Atom.bare, phrase, arguments, Word.bare, Function.comp_def]
  | _ => rfl

theorem newline_notMem_lines (content : Text) :
    .char '\n' ∉ trim ((feedLines content).headD []) ∧
      ∀ line ∈ dropBlankEnd (feedLines content).tail, .char '\n' ∉ line := by
  refine ⟨fun hm => ?_, fun line hl => newline_notMem_line (List.mem_of_mem_tail (mem_of_mem_dropBlankEnd hl))⟩
  cases hl : feedLines content with
  | nil => simp [hl, trim, trimLeft, trimRight] at hm
  | cons line lines =>
    have hline : line ∈ feedLines content := by simp [hl]
    rw [hl] at hm
    exact newline_notMem_line hline (mem_of_mem_trim hm)

section Again

variable {o : Options} {place : Place} {a b : Atom} (h : Rewritten o place a b)

include h

theorem Rewritten.phrase_comment (ho : o.Usual) {opener : Word} {content : Text} {closer : Option Word} {stop : Nat}
    (ha : a = .comment opener content closer stop) :
    phrase o place b = Item.openMark
      ++ (commentInner o place.indent (trim ((feedLines content).headD []))
        ((dropBlankEnd (feedLines content).tail).map (starred o place.indent)) ++ Item.closeMark) := by
  obtain ⟨opener', closer', stop', rfl⟩ := h.content ha
  obtain ⟨hfirst, hrest⟩ := newline_notMem_lines content
  obtain ⟨hhead, htail⟩ := lines_commentInner ho place.indent (trim_cases _) hfirst hrest
  rw [phrase, hhead, htail]

theorem Rewritten.phrase_again (ho : o.Usual) (hn : isHollow a = false) : phrase o place b = phrase o place a := by
  by_cases hk : a.kind = .comment
  · cases a <;> simp [Atom.kind] at hk
    rw [h.phrase_comment ho rfl, commentInner_again, phrase]
    intro line hl
    have hnone := List.any_eq_false.1 hn line hl
    simpa using hnone
  · have hb : b.kind ≠ .comment := h.kind ▸ hk
    rw [← phrase_bare hb, h.bare, phrase_bare hk]

theorem Rewritten.phrase_diverges (ho : o.Usual) (hn : isHollow a = true) :
    Diverge (phrase o place a) (phrase o place b) := by
  cases a with
  | comment opener content closer stop =>
    obtain ⟨line, hl, hb⟩ := List.any_eq_true.1 hn
    rw [h.phrase_comment ho rfl, phrase]
    exact ((commentInner_diverges ho place.indent ⟨line, hl, hb⟩).append _ _).prepend _
  | _ => simp [isHollow] at hn

end Again

end MapScript.Layout
