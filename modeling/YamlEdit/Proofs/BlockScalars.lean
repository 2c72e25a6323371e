import YamlEdit.Proofs.MissingValues
import YamlEdit.Proofs.Numerals
import YamlEdit.Proofs.QuotedScalars

/-!
# How block scalars are written

A block scalar has a header, white space up to its content, and its content
(`Scan.scanBlock_reads`). The mark of its token is at its content, or at its header if the document
ends without any. The header is looked for backwards from that mark, and whether it is found depends
on what stands in front of it on its line (`Extent.blockHeader_eq_iff`).
-/

namespace YamlEdit

namespace Token

/-- What may follow the mark of a block scalar's header. -/
def isModifier (c : Char) : Bool := c == '+' || c == '-' || Text.isDigit c

/-- The header of a block scalar. -/
structure BlockHeader where
  mark : Char
  modifiers : Text
  blanks : Text
  comment : Text
  isMark : Extent.isHeaderMark mark = true
  areModifiers : ∀ c ∈ modifiers, isModifier c = true
  areSpaces : ∀ c ∈ blanks, isSpace c = true
  isComment : comment = [] ∨ blanks ≠ [] ∧ comment.head? = some '#' ∧
    ∀ c ∈ comment, isBreakOrEnd c = false

/-- The mark of a header and its modifiers. -/
def BlockHeader.word (h : BlockHeader) : Text := h.mark :: h.modifiers

/-- The header as it is written. -/
def BlockHeader.text (h : BlockHeader) : Text := h.word ++ (h.blanks ++ h.comment)

end Token

namespace Scan

open Token

section Reads

variable {s s' : Scanner} {start : Mark}

theorem chompingIndicator_reads {r : Option Chomping} (h : chompingIndicator s = .ok (r, s')) :
    ∃ u, s.Reads u s' ∧ ∀ c ∈ u, isModifier c = true := by
  unfold chompingIndicator at h
  rw [peek_bind] at h
  have hone : ∀ {c : Char} {s₁ : Scanner}, c ≠ '\x00' → isModifier c = true →
      s.rest.headD '\x00' = c → skipContent 1 s = .ok ((), s₁) →
      ∃ u, s.Reads u s₁ ∧ ∀ c ∈ u, isModifier c = true := fun hend hc hhead hskip =>
    ⟨_, (Scanner.reads_skipContent (u := [_]) (rest_eq_of_peek hend hhead) hskip).1,
      fun d hd => List.mem_singleton.mp hd ▸ hc⟩
  split at h
  · next hplus =>
      obtain ⟨_, s₁, hskip, h⟩ := stateful_bind_eq_ok.mp h
      cases h
      exact hone (by decide) (by decide) hplus hskip
  · split at h
    · next hminus =>
        obtain ⟨_, s₁, hskip, h⟩ := stateful_bind_eq_ok.mp h
        cases h
        exact hone (by decide) (by decide) hminus hskip
    · cases h
      exact ⟨[], .refl _, nofun⟩

theorem indentIndicator_reads {n : Nat} (h : indentIndicator start s = .ok (n, s')) :
    ∃ u, s.Reads u s' ∧ ∀ c ∈ u, isModifier c = true := by
  unfold indentIndicator at h
  rw [peek_bind] at h
  split at h
  · next hdigit =>
      have hend : s.rest.headD '\x00' ≠ '\x00' := by
        intro h
        rw [h] at hdigit
        exact absurd hdigit (by decide)
      split at h
      · cases h
      · obtain ⟨_, s₁, hskip, h⟩ := stateful_bind_eq_ok.mp h
        cases h
        refine ⟨_, (Scanner.reads_skipContent (u := [_]) (rest_eq_of_peek hend rfl) hskip).1,
          fun c hc => ?_⟩
        rw [List.mem_singleton.mp hc, isModifier, hdigit, Bool.or_true]
  · cases h
    exact ⟨[], .refl _, nofun⟩

theorem blockIndicators_reads {r : Chomping × Nat} (h : blockIndicators start s = .ok (r, s')) :
    ∃ u, s.Reads u s' ∧ ∀ c ∈ u, isModifier c = true := by
  unfold blockIndicators at h
  obtain ⟨chomping, s₁, hchomping, h⟩ := stateful_bind_eq_ok.mp h
  obtain ⟨u, hu, hmodifier⟩ := chompingIndicator_reads hchomping
  cases chomping with
  | some chomping =>
      obtain ⟨n, s₂, hindent, h⟩ := stateful_bind_eq_ok.mp h
      cases h
      obtain ⟨v, hv, hmore⟩ := indentIndicator_reads hindent
      exact ⟨u ++ v, hu.trans hv, List.forall_mem_append.mpr ⟨hmodifier, hmore⟩⟩
  | none =>
      obtain ⟨n, s₂, hindent, h⟩ := stateful_bind_eq_ok.mp h
      obtain ⟨v, hv, hmore⟩ := indentIndicator_reads hindent
      have hboth := List.forall_mem_append.mpr ⟨hmodifier, hmore⟩
      split at h
      · cases h
        exact ⟨u ++ v, hu.trans hv, hboth⟩
      · obtain ⟨chomping, s₃, hchomping', h⟩ := stateful_bind_eq_ok.mp h
        cases h
        obtain ⟨w, hw, hlast⟩ := chompingIndicator_reads hchomping'
        exact ⟨u ++ v ++ w, (hu.trans hv).trans hw, List.forall_mem_append.mpr ⟨hboth, hlast⟩⟩

theorem isSpaceOrBreak_of_mem_takeWhile {t : Text} {c : Char} (hc : c ∈ t.takeWhile (· == ' ')) :
    isSpaceOrBreak c = true := by
  have hspace := List.all_eq_true.mp List.all_takeWhile c hc
  rw [eq_of_beq hspace]
  rfl

/-- White space is read: spaces, a line break, and more of it. -/
theorem reads_blankLine {s₁ s₂ : Scanner} {u w w' : Text} (hu : s.Reads u s₁)
    (hspaces : ∀ c ∈ u, isSpaceOrBreak c = true) (hw : s₁.Reads w s₂)
    (hbreaks : ∀ c ∈ w, isBreak c = true) (hw' : s₂.Reads w' s')
    (hblank : ∀ c ∈ w', isSpaceOrBreak c = true) :
    ∃ v, s.Reads v s' ∧ ∀ c ∈ v, isSpaceOrBreak c = true := by
  refine ⟨u ++ w ++ w', (hu.trans hw).trans hw', List.forall_mem_append.mpr ⟨?_, hblank⟩⟩
  exact List.forall_mem_append.mpr
    ⟨hspaces, fun c hc => isSpaceOrBreak_of_isBreak (hbreaks c hc)⟩

/-- Empty lines and indentation are white space. -/
theorem skipBlockIndent_reads {indent fuel lines n : Nat}
    (h : skipBlockIndent indent fuel lines s = .ok (n, s')) :
    ∃ w, s.Reads w s' ∧ ∀ c ∈ w, isSpaceOrBreak c = true := by
  induction fuel generalizing lines s with
  | zero =>
      cases h
      exact ⟨[], .refl _, nofun⟩
  | succ fuel ih =>
      unfold skipBlockIndent at h
      rw [mark_bind, get_bind] at h
      obtain ⟨_, s₁, hskip, h⟩ := stateful_bind_eq_ok.mp h
      obtain ⟨v, hv⟩ := (List.takeWhile_prefix (· == ' ')).trans
        (List.take_prefix (indent - s.mark.column) s.rest)
      obtain ⟨hreads, -⟩ := Scanner.reads_skipN hv.symm hskip
      rw [peek_bind] at h
      split at h
      · obtain ⟨_, s₂, hbreak, h⟩ := stateful_bind_eq_ok.mp h
        obtain ⟨w, hw, hbreaks, -⟩ := reads_skipBreak hbreak
        obtain ⟨w', hw', hblank⟩ := ih h
        exact reads_blankLine hreads (fun _ => isSpaceOrBreak_of_mem_takeWhile) hw hbreaks hw'
          hblank
      · cases h
        exact ⟨_, hreads, fun _ => isSpaceOrBreak_of_mem_takeWhile⟩

theorem findBlockIndent_reads {fuel widest lines : Nat} {r : Nat × Nat}
    (h : findBlockIndent fuel widest lines s = .ok (r, s')) :
    ∃ w, s.Reads w s' ∧ ∀ c ∈ w, isSpaceOrBreak c = true := by
  induction fuel generalizing widest lines s with
  | zero =>
      cases h
      exact ⟨[], .refl _, nofun⟩
  | succ fuel ih =>
      unfold findBlockIndent at h
      obtain ⟨spaces, s₁, htake, h⟩ := stateful_bind_eq_ok.mp h
      obtain ⟨rfl, hreads, -⟩ := reads_takeLine htake
      rw [mark_bind, peek_bind] at h
      split at h
      · obtain ⟨_, s₂, hbreak, h⟩ := stateful_bind_eq_ok.mp h
        obtain ⟨w, hw, hbreaks, -⟩ := reads_skipBreak hbreak
        obtain ⟨w', hw', hblank⟩ := ih h
        exact reads_blankLine hreads (fun _ => isSpaceOrBreak_of_mem_takeWhile) hw hbreaks hw'
          hblank
      · cases h
        exact ⟨_, hreads, fun _ => isSpaceOrBreak_of_mem_takeWhile⟩

/-- The lines of a block scalar are read. -/
theorem blockLines_reads {folded : Bool} {indent fuel : Nat} {b b' : BlockText}
    (h : blockLines folded indent fuel b s = .ok (b', s')) : ∃ u, s.Reads u s' := by
  induction fuel generalizing b s with
  | zero =>
      cases h
      exact ⟨[], .refl _⟩
  | succ fuel ih =>
      unfold blockLines at h
      rw [mark_bind, peek_bind] at h
      split at h
      · cases h
        exact ⟨[], .refl _⟩
      rw [bind_of_ok (x := atDocumentEnd) (a := isDocumentMarker '.' s.rest) rfl] at h
      split at h
      · cases h
        exact ⟨[], .refl _⟩
      obtain ⟨line, s₁, htake, h⟩ := stateful_bind_eq_ok.mp h
      obtain ⟨rfl, hline, -⟩ := reads_takeLine htake
      rw [peek_bind] at h
      split at h
      · cases h
        exact ⟨_, hline⟩
      obtain ⟨_, s₂, hbreak, h⟩ := stateful_bind_eq_ok.mp h
      obtain ⟨u, hu, -⟩ := reads_skipBreak hbreak
      rw [fuel_bind] at h
      obtain ⟨lines, s₃, hindent, h⟩ := stateful_bind_eq_ok.mp h
      obtain ⟨v, hv, -⟩ := skipBlockIndent_reads hindent
      obtain ⟨w, hw⟩ := ih h
      exact ⟨_, ((hline.trans hu).trans hv).trans hw⟩

/-- Reads a block scalar from the first line of its content on. -/
def blockContent (folded : Bool) (header : Mark) (headerBreak : Bool) (chomping : Chomping)
    (outer : Int) (indent lines : Nat) : Scan (Located Token) := do
  let style := if folded then ScalarStyle.folded else .literal
  if isEnd (← peek) then
    let text :=
      if chomping = .strip ∨ (← mark).line = header.line then []
      else if chomping = .clip ∨ lines = 0 then (if headerBreak then ['\n'] else [])
      else breaks lines
    return ⟨⟨header, ← mark⟩, .scalar style text⟩
  let column := (← mark).column
  if column < indent ∧ outer < column then fail .blockLineIndentation
  let start ← mark
  let b ← blockLines folded indent (← fuel) ⟨[], false, lines, false⟩
  let ended := isEnd (← peek) && max indent 1 ≤ (← mark).column
  return ⟨⟨start, ← mark⟩, .scalar style (b.finish chomping ended)⟩

theorem blockContent_reads {folded headerBreak : Bool} {header : Mark} {chomping : Chomping}
    {outer : Int} {indent lines : Nat} {t : Located Token}
    (h : blockContent folded header headerBreak chomping outer indent lines s = .ok (t, s')) :
    ∃ u, s.Reads u s' ∧ t.span.stop.index = s'.mark.index ∧
      (t.span.start = header ∧ u = [] ∨ t.span.start = s.mark) := by
  unfold blockContent at h
  rw [peek_bind] at h
  dsimp only at h
  split at h
  · rw [mark_bind, mark_bind] at h
    cases h
    exact ⟨[], .refl _, rfl, .inl ⟨rfl, rfl⟩⟩
  · rw [mark_bind] at h
    split at h
    · cases h
    rw [mark_bind, fuel_bind] at h
    obtain ⟨b, s₁, hlines, h⟩ := stateful_bind_eq_ok.mp h
    rw [peek_bind, mark_bind, mark_bind] at h
    cases h
    obtain ⟨u, hu⟩ := blockLines_reads hlines
    exact ⟨u, hu, rfl, .inr rfl⟩

/-- The header of a block scalar is read. -/
theorem header_reads {s₁ s₂ s₃ : Scanner} {r : Chomping × Nat} {skipped : Skipped}
    (hmark : Extent.isHeaderMark (s.rest.headD '\x00') = true)
    (hskip : skipContent 1 s = .ok ((), s₁)) (hunroll : unrollProvisional s₁ = .ok ((), s₂))
    (hindicators : blockIndicators start s₂ = .ok (r, s₃))
    (hline : skipToLineEnd true s₃ = .ok (skipped, s')) :
    ∃ header : BlockHeader, s.Reads header.text s' := by
  have hend : s.rest.headD '\x00' ≠ '\x00' := by
    intro h
    rw [h] at hmark
    exact absurd hmark (by decide)
  obtain ⟨hfirst, -⟩ := Scanner.reads_skipContent (u := [s.rest.headD '\x00'])
    (rest_eq_of_peek hend rfl) hskip
  have hstays := (inferInstance : Stays unrollProvisional).course hunroll
  have hmoved : s.Reads [s.rest.headD '\x00'] s₂ :=
    ⟨hfirst.rest.trans (by rw [hstays.rest]), hstays.index.trans hfirst.index,
      hstays.bound.trans hfirst.bound⟩
  obtain ⟨modifiers, hmodifiers, hall⟩ := blockIndicators_reads hindicators
  obtain ⟨-, blanks, hblanks, hreads | ⟨body, hne, hbody, hreads⟩⟩ := reads_skipToLineEnd hline
  · refine ⟨⟨s.rest.headD '\x00', modifiers, blanks, [], hmark, hall, hblanks, .inl rfl⟩, ?_⟩
    rw [BlockHeader.text, List.append_nil]
    exact hmoved.trans (hmodifiers.trans hreads)
  · exact ⟨⟨s.rest.headD '\x00', modifiers, blanks, '#' :: body, hmark, hall, hblanks,
      .inr ⟨hne, rfl, List.forall_mem_cons.mpr ⟨rfl, hbody⟩⟩⟩,
      hmoved.trans (hmodifiers.trans hreads)⟩

/-- A block scalar has been read, which is marked at its content, or at its header if there is no
content. -/
structure ReadsBlock (s : Scanner) (header : BlockHeader) (gap content : Text) (t : Located Token)
    (s' : Scanner) : Prop where
  reads : s.Reads (header.text ++ gap ++ content) s'
  blank : ∀ c ∈ gap, isSpaceOrBreak c = true
  stop : t.span.stop.index = s'.mark.index
  start : t.span.start.index = s.mark.index ∧ content = [] ∨
    t.span.start.index = s.mark.index + (header.text ++ gap).length

/-- The content is read behind the header and white space. -/
theorem readsBlock_of_content {folded headerBreak : Bool} {chomping : Chomping} {outer : Int}
    {indent lines : Nat} {header : BlockHeader} {gap : Text} {t : Located Token} {s₁ : Scanner}
    (hreads : s.Reads (header.text ++ gap) s₁) (hgap : ∀ c ∈ gap, isSpaceOrBreak c = true)
    (h : blockContent folded s.mark headerBreak chomping outer indent lines s₁ = .ok (t, s')) :
    ∃ header gap content, ReadsBlock s header gap content t s' := by
  obtain ⟨u, hu, hstop, hstart⟩ := blockContent_reads h
  refine ⟨header, gap, u, hreads.trans hu, hgap, hstop, ?_⟩
  rcases hstart with ⟨hstart, rfl⟩ | hstart
  · exact .inl ⟨by rw [hstart], rfl⟩
  · exact .inr (by rw [hstart, hreads.index])

/-- **What a block scalar is read from**: its header, white space and its content. -/
theorem scanBlock_reads {folded : Bool} {t : Located Token}
    (hmark : Extent.isHeaderMark (s.rest.headD '\x00') = true)
    (h : scanBlock folded s = .ok (t, s')) :
    ∃ header gap content, ReadsBlock s header gap content t s' := by
  unfold scanBlock at h
  rw [mark_bind] at h
  obtain ⟨_, s₁, hskip, h⟩ := stateful_bind_eq_ok.mp h
  obtain ⟨_, s₂, hunroll, h⟩ := stateful_bind_eq_ok.mp h
  obtain ⟨⟨chomping, increment⟩, s₃, hindicators, h⟩ := stateful_bind_eq_ok.mp h
  obtain ⟨skipped, s₄, hline, h⟩ := stateful_bind_eq_ok.mp h
  obtain ⟨header, hheader⟩ := header_reads hmark hskip hunroll hindicators hline
  rw [peek_bind] at h
  split at h
  · cases h
  dsimp only at h
  rw [peek_bind] at h
  obtain ⟨_, s₅, hbreak, h⟩ := stateful_bind_eq_ok.mp h
  obtain ⟨w, hw, hbreaks, -⟩ := reads_skipBreak hbreak
  rw [peek_bind] at h
  split at h
  · cases h
  have hwhite : ∀ {gap : Text}, (∀ c ∈ gap, isSpaceOrBreak c = true) →
      ∀ c ∈ w ++ gap, isSpaceOrBreak c = true := fun hgap =>
    List.forall_mem_append.mpr ⟨fun c hc => isSpaceOrBreak_of_isBreak (hbreaks c hc), hgap⟩
  -- the content comes behind empty lines and indentation
  rw [get_bind] at h
  split at h
  · rw [fuel_bind] at h
    obtain ⟨lines, s₆, hindent, h⟩ := stateful_bind_eq_ok.mp h
    obtain ⟨gap, hgap, hblank⟩ := skipBlockIndent_reads hindent
    exact readsBlock_of_content (hheader.trans (hw.trans hgap)) (hwhite hblank) h
  · rw [fuel_bind] at h
    obtain ⟨⟨widest, lines⟩, s₆, hindent, h⟩ := stateful_bind_eq_ok.mp h
    obtain ⟨gap, hgap, hblank⟩ := findBlockIndent_reads hindent
    exact readsBlock_of_content (hheader.trans (hw.trans hgap)) (hwhite hblank) h

end Reads

end Scan

/-! ## Looking for the header -/

namespace Text

/-- The last line of a text, which ends with the text. -/
def lastLine (t : Text) : Text := (t.reverse.takeWhile (· ≠ '\n')).reverse

theorem lastLine_append {u v : Text} (h : '\n' ∉ v) : lastLine (u ++ v) = lastLine u ++ v := by
  have hv : ∀ c ∈ v.reverse, decide (c ≠ '\n') = true := by
    intro c hc
    refine decide_eq_true ?_
    rintro rfl
    exact h (List.mem_reverse.mp hc)
  rw [lastLine, List.reverse_append, List.takeWhile_append_of_pos hv, List.reverse_append,
    List.reverse_reverse, lastLine]

theorem lastLine_isSuffix (t : Text) : lastLine t <:+ t := by
  rw [← List.reverse_prefix, lastLine, List.reverse_reverse]
  exact List.takeWhile_prefix _

/-- A text is its last line, or what is in front of that ends with a line feed. -/
theorem getLast?_lastLine (t : Text) {c : Char} (hc : t.getLast? = some c) :
    c = '\n' ∨ (lastLine t).getLast? = some c := by
  obtain ⟨t, rfl⟩ := List.getLast?_eq_some_iff.mp hc
  by_cases hline : c = '\n'
  · exact .inl hline
  · refine .inr ?_
    rw [lastLine_append (fun h => hline (List.mem_singleton.mp h).symm), List.getLast?_concat]

/-- What stands behind a line feed is not reached by the last line. -/
theorem lastLine_cons (u v : Text) : lastLine (u ++ '\n' :: v) = lastLine v := by
  have hstop : (['\n'] ++ u.reverse).takeWhile (· ≠ '\n') = [] := rfl
  rw [lastLine, lastLine, List.reverse_append, List.reverse_cons, List.append_assoc,
    List.takeWhile_append]
  split
  · next hall =>
      rw [hstop, List.append_nil, List.takeWhile_prefix _ |>.eq_of_length hall]
  · rfl

theorem trimEnd_append_of_ink {u v : Text} {c : Char} (hc : c ∈ v) (hink : isBlank c = false) :
    trimEnd (u ++ v) = u ++ trimEnd v := by
  obtain ⟨d, z, hdrop, hboth⟩ := Extent.dropWhile_reverse_append (x := u) hc hink
  rw [trimEnd, hboth, trimEnd, hdrop]
  simp

theorem trimEnd_of_last {u : Text} {c : Char} (hink : isBlank c = false) :
    trimEnd (u ++ [c]) = u ++ [c] := by
  rw [trimEnd_append_of_ink List.mem_cons_self hink, trimEnd, List.reverse_singleton,
    List.dropWhile_cons_of_neg (by simp [hink]), List.reverse_singleton]

end Text

namespace Extent

open Text Token

section Comment

variable {u v : Text} {spaced : Bool}

theorem beforeComment_of_notMem (spaced : Bool) (h : '#' ∉ u) : beforeComment spaced u = u := by
  induction u generalizing spaced with
  | nil => rfl
  | cons c u ih =>
      have hc : ¬ (c = '#' ∧ spaced = true) := fun hc => h (hc.1 ▸ List.mem_cons_self)
      rw [beforeComment, if_neg hc, ih _ fun hmem => h (List.mem_cons_of_mem c hmem)]

/-- A text in which no `#` follows white space is not cut. -/
theorem beforeComment_eq_self (h : ∀ c, [c, '#'] <:+: u → isBlank c = false)
    (hhead : spaced = true → u.head? ≠ some '#') : beforeComment spaced u = u := by
  induction u generalizing spaced with
  | nil => rfl
  | cons c u ih =>
      have hc : ¬ (c = '#' ∧ spaced = true) := fun hc => hhead hc.2 (congrArg some hc.1)
      rw [beforeComment, if_neg hc]
      refine congrArg (c :: ·) (ih (fun d hd => h d (hd.trans (List.infix_cons List.infix_rfl))) ?_)
      intro hblank hnext
      cases u with
      | nil => cases hnext
      | cons d u =>
          cases hnext
          have := h c ⟨[], u, rfl⟩
          rw [hblank] at this
          cases this

/-- In a text that is not cut no `#` follows white space. -/
theorem not_isBlank_of_beforeComment {c : Char} (h : beforeComment spaced u = u)
    (hc : [c, '#'] <:+: u) : isBlank c = false := by
  induction u generalizing spaced with
  | nil => simp at hc
  | cons d u ih =>
      rw [beforeComment] at h
      split at h
      · cases h
      · have hrest := (List.cons.inj h).2
        rcases List.infix_cons_iff.mp hc with hhere | hbehind
        · obtain ⟨rfl, v, rfl⟩ := List.cons_prefix_cons.mp hhere
          rw [List.singleton_append, beforeComment] at hrest
          refine Bool.eq_false_iff.mpr fun hblank => ?_
          rw [if_pos ⟨rfl, hblank⟩] at hrest
          cases hrest
        · exact ih hrest hbehind

/-- A text is not cut, or it is cut in the same place whatever follows. -/
theorem beforeComment_or (spaced : Bool) (u : Text) : beforeComment spaced u = u ∨
    size (beforeComment spaced u) < size u ∧
      ∀ v, beforeComment spaced (u ++ v) = beforeComment spaced u := by
  induction u generalizing spaced with
  | nil => exact .inl rfl
  | cons c u ih =>
      rw [beforeComment]
      split
      · next hc =>
          exact .inr ⟨size_pos_of_cons c u, fun v => by
            rw [List.cons_append, beforeComment, if_pos hc]⟩
      · next hc =>
          rcases ih (isBlank c) with hrest | ⟨hlt, hcut⟩
          · exact .inl (by rw [hrest])
          · refine .inr ⟨by rw [size_cons, size_cons]; omega, fun v => ?_⟩
            rw [List.cons_append, beforeComment, if_neg hc, hcut]

/-- Behind a text that is not cut, the search goes on with the last character. -/
theorem beforeComment_append (h : beforeComment spaced u = u) :
    ∃ spaced', beforeComment spaced (u ++ v) = u ++ beforeComment spaced' v ∧
      ∀ c ∈ u.getLast?, spaced' = isBlank c := by
  induction u generalizing spaced with
  | nil => exact ⟨spaced, rfl, nofun⟩
  | cons c u ih =>
      rw [beforeComment] at h
      split at h
      · cases h
      · next hc =>
          obtain ⟨spaced', hrest, hlast⟩ := ih (List.cons.inj h).2
          rw [List.cons_append, beforeComment, if_neg hc]
          cases u with
          | nil => exact ⟨isBlank c, rfl, fun d hd => by cases hd; rfl⟩
          | cons d u =>
              rw [hrest]
              exact ⟨spaced', rfl, fun e he => hlast e (by rwa [List.getLast?_cons_cons] at he)⟩

end Comment

section Found

variable {x y : Text} {r : Nat}

theorem reverse_dropWhile (x : Text) : x.reverse.dropWhile isBlank = (trimEnd x).reverse := by
  rw [trimEnd, List.reverse_reverse]

theorem headerLine_eq (x : Text) :
    headerLine x.reverse = trimEnd (beforeComment false (lastLine (trimEnd x))) := by
  rw [headerLine, reverse_dropWhile, lastLine]

/-- **What is looked at** for the header of a block scalar. -/
theorem blockHeader_append (hy : isHeaderMark (y.headD ' ') = false) :
    blockHeader (x ++ y) (size x) = (do
      match ← dropBytes (headerLine x.reverse)
          (lastWordStart isBlank (headerLine x.reverse).reverse) with
      | [] => return none
      | c :: modifiers =>
        if isHeaderMark c && modifiers.all isModifier then
          return some (size (trimEnd x) - size (lastLine (trimEnd x)) +
            lastWordStart isBlank (headerLine x.reverse).reverse)
        else return none) := by
  unfold blockHeader
  rw [cutAt_append, headerLine_eq, lastLine, ← size_reverse (trimEnd x), ← reverse_dropWhile x]
  exact if_neg (c := isHeaderMark (y.headD ' ') = true) (by rw [hy]; nofun)

/-- **What the search for a header finds**: the last word of a line. -/
theorem exists_of_blockHeader (hy : isHeaderMark (y.headD ' ') = false)
    (h : blockHeader (x ++ y) (size x) = .ok (some r)) :
    ∃ u front word, trimEnd x = u ++ lastLine (trimEnd x) ∧ headerLine x.reverse = front ++ word ∧
      word ≠ [] ∧ (∀ c ∈ front.getLast?, isBlank c = true) ∧ r = size u + size front := by
  obtain ⟨u, hu⟩ := lastLine_isSuffix (trimEnd x)
  obtain ⟨word, rest, hword⟩ := exists_lastWord (headerLine x.reverse).reverse
  rw [blockHeader_append hy] at h
  rcases dropBytes_lastWordStart hword with ⟨hstart, -, hdrop⟩ | ⟨-, b, hdrop⟩
  · rw [List.reverse_reverse] at hdrop
    rw [hdrop, ok_bind, hstart] at h
    have hline : headerLine x.reverse = rest.reverse ++ word := by
      rw [← List.reverse_reverse (headerLine x.reverse), hword.split]
      simp
    have hsize := congrArg size hu
    rw [size_append] at hsize
    cases word with
    | nil => cases h
    | cons c word =>
        dsimp only at h
        split at h
        · cases h
          refine ⟨u, rest.reverse, c :: word, hu.symm, hline, List.cons_ne_nil c word, ?_, ?_⟩
          · rw [List.getLast?_reverse]
            exact hword.blank
          · rw [size_reverse]
            omega
        · cases h
  · rw [List.reverse_reverse] at hdrop
    rw [hdrop] at h
    cases h

/-- The search does not go back over a line feed with something behind it. -/
theorem lt_of_blockHeader {a b : Text} {c : Char} (hc : c ∈ b) (hink : isBlank c = false)
    (hy : isHeaderMark (y.headD ' ') = false)
    (h : blockHeader (a ++ '\n' :: b ++ y) (size (a ++ '\n' :: b)) = .ok (some r)) :
    size a < r := by
  obtain ⟨u, front, word, hu, -, -, -, rfl⟩ := exists_of_blockHeader hy h
  have htrim : trimEnd (a ++ '\n' :: b) = a ++ '\n' :: trimEnd b := by
    rw [← List.singleton_append, ← List.append_assoc, trimEnd_append_of_ink hc hink,
      List.append_assoc, List.singleton_append]
  rw [htrim, lastLine_cons] at hu
  have hline := (lastLine_isSuffix (trimEnd b)).length_le
  have hsize := congrArg size hu
  obtain ⟨v, hv⟩ := lastLine_isSuffix (trimEnd b)
  have hrest := congrArg size hv
  have hone : '\n'.utf8Size = 1 := rfl
  rw [size_append, size_append, size_cons] at hsize
  rw [size_append] at hrest
  omega

end Found

section Header

variable {p gap y : Text} {r : Option Nat} {header : BlockHeader}

/-- There is neither a blank nor a comment in the word of a header. -/
theorem not_isBlank_of_mem_word {c : Char} (hc : c ∈ header.word) :
    isBlank c = false ∧ c ≠ '#' := by
  rcases List.mem_cons.mp hc with rfl | hc
  · have hmark := header.isMark
    rw [isHeaderMark, Bool.or_eq_true, beq_iff_eq, beq_iff_eq] at hmark
    rcases hmark with hmark | hmark <;> rw [hmark] <;> decide
  · have hmodifier := header.areModifiers c hc
    rw [isModifier, Bool.or_eq_true, Bool.or_eq_true, beq_iff_eq, beq_iff_eq] at hmodifier
    rcases hmodifier with (rfl | rfl) | hdigit
    · decide
    · decide
    · refine ⟨isBlank_of_isDigit hdigit, ?_⟩
      rintro rfl
      cases hdigit

theorem trimEnd_append_word (u : Text) : trimEnd (u ++ header.word) = u ++ header.word := by
  obtain ⟨v, c, hword⟩ : ∃ v c, header.word = v ++ [c] :=
    ⟨_, _, (List.dropLast_append_getLast (List.cons_ne_nil _ _)).symm⟩
  have hc : c ∈ header.word := by rw [hword]; simp
  rw [hword, ← List.append_assoc]
  exact trimEnd_of_last (not_isBlank_of_mem_word hc).1

/-- Without white space at its end a header is its word, or ends with its comment. -/
theorem trimEnd_header (header : BlockHeader) :
    ∃ tail, trimEnd header.text = header.word ++ tail ∧ '\n' ∉ tail ∧
      (tail = [] ∨ ∃ rest, tail = header.blanks ++ '#' :: rest ∧ header.blanks ≠ []) := by
  rcases header.isComment with hnone | ⟨hne, hhead, hcomment⟩
  · refine ⟨[], ?_, nofun, .inl rfl⟩
    have hblank : ∀ c ∈ header.blanks, isBlank c = true := fun c hc =>
      isBlank_of_isSpaceOrBreak (isSpaceOrBreak_of_isSpace (header.areSpaces c hc))
    rw [BlockHeader.text, hnone, List.append_nil, trimEnd_append_of_blank hblank, List.append_nil]
    exact trimEnd_append_word []
  · obtain ⟨body, hbody⟩ := List.head?_eq_some_iff.mp hhead
    obtain ⟨rest, hrest⟩ : ∃ rest, trimEnd ('#' :: body) = '#' :: rest := by
      obtain ⟨d, z, hdrop, -⟩ := dropWhile_reverse_append (x := []) (y := '#' :: body)
        List.mem_cons_self rfl
      have hpre := trimEnd_isPrefix ('#' :: body)
      rw [trimEnd, hdrop] at hpre ⊢
      obtain ⟨e, w, he⟩ := List.exists_cons_of_ne_nil
        (List.reverse_ne_nil_iff.mpr (List.cons_ne_nil d z))
      rw [he] at hpre ⊢
      exact ⟨w, by rw [(List.cons_prefix_cons.mp hpre).1]⟩
    refine ⟨header.blanks ++ '#' :: rest, ?_, ?_, .inr ⟨rest, rfl, hne⟩⟩
    · rw [BlockHeader.text, hbody, ← List.append_assoc,
        trimEnd_append_of_ink (c := '#') List.mem_cons_self rfl, hrest, List.append_assoc]
    · intro hmem
      rcases List.mem_append.mp hmem with hmem | hmem
      · cases header.areSpaces _ hmem
      · have := (trimEnd_isPrefix ('#' :: body)).subset (hrest ▸ hmem)
        cases hcomment _ (hbody ▸ this)

variable (header)

/-- Without white space at its end, a text that ends with a header has its word in the last line,
and there is only white space up to a comment behind that. -/
theorem exists_headerTail (hgap : ∀ c ∈ gap, isSpaceOrBreak c = true) :
    ∃ tail, trimEnd (p ++ header.text ++ gap) = p ++ (header.word ++ tail) ∧
      '\n' ∉ header.word ++ tail ∧ ∀ spaced, ∀ c ∈ beforeComment spaced tail, isBlank c = true := by
  have hmark : header.mark ∈ header.text := by simp [BlockHeader.text, BlockHeader.word]
  have hink : isBlank header.mark = false := (not_isBlank_of_mem_word List.mem_cons_self).1
  obtain ⟨tail, htrim, htail, hends⟩ := trimEnd_header header
  refine ⟨tail, ?_, ?_, fun spaced => ?_⟩
  · rw [trimEnd_append_of_blank fun c hc => isBlank_of_isSpaceOrBreak (hgap c hc),
      trimEnd_append_of_ink hmark hink, htrim]
  · intro hmem
    rcases List.mem_append.mp hmem with hmem | hmem
    · cases (not_isBlank_of_mem_word hmem).1
    · exact htail hmem
  · rcases hends with rfl | ⟨rest, rfl, hne⟩
    · exact nofun
    · have hblank : ∀ c ∈ header.blanks, isBlank c = true := fun c hc =>
        isBlank_of_isSpaceOrBreak (isSpaceOrBreak_of_isSpace (header.areSpaces c hc))
      have hspaces : '#' ∉ header.blanks := fun h => by cases header.areSpaces _ h
      obtain ⟨spaced', happend, hlast⟩ := beforeComment_append (v := '#' :: rest)
        (beforeComment_of_notMem spaced hspaces)
      rw [happend, hlast _ (List.getLast?_eq_some_getLast hne), hblank _ (List.getLast_mem hne),
        beforeComment, if_pos ⟨rfl, rfl⟩, List.append_nil]
      exact hblank

/-- The line of a header ends with its word, if no comment is in front of that. -/
theorem headerLine_of_header (hgap : ∀ c ∈ gap, isSpaceOrBreak c = true)
    (hcut : beforeComment false (lastLine p) = lastLine p) :
    headerLine (p ++ header.text ++ gap).reverse = lastLine p ++ header.word := by
  obtain ⟨tail, htrim, hline, hblank⟩ := exists_headerTail (p := p) header hgap
  obtain ⟨spaced, hfront, -⟩ := beforeComment_append (v := header.word ++ tail) hcut
  have hnotMem : '#' ∉ header.word := fun h => (not_isBlank_of_mem_word h).2 rfl
  obtain ⟨spaced', hword, -⟩ := beforeComment_append (v := tail)
    (beforeComment_of_notMem spaced hnotMem)
  rw [headerLine_eq, htrim, lastLine_append hline, hfront, hword, ← List.append_assoc,
    trimEnd_append_of_blank (hblank spaced'), trimEnd_append_word]

/-- A header is found if no comment is in front of it on its line and there is a blank right before
it. -/
theorem blockHeader_of_header (hgap : ∀ c ∈ gap, isSpaceOrBreak c = true)
    (hcut : beforeComment false (lastLine p) = lastLine p)
    (hblank : ∀ c ∈ p.getLast?, isBlank c = true) (hy : isHeaderMark (y.headD ' ') = false)
    (h : blockHeader (p ++ header.text ++ gap ++ y) (size (p ++ header.text ++ gap)) = .ok r) :
    r = some (size p) := by
  obtain ⟨u, hu⟩ := lastLine_isSuffix p
  have hword : LastWord (lastLine p ++ header.word).reverse header.word (lastLine p).reverse := by
    refine ⟨by simp, fun c hc => (not_isBlank_of_mem_word hc).1, fun c hc => hblank c ?_⟩
    rw [List.head?_reverse] at hc
    rw [← hu, List.getLast?_append, hc]
    rfl
  have hmodifiers : (isHeaderMark header.mark && header.modifiers.all isModifier) = true := by
    rw [Bool.and_eq_true, List.all_eq_true]
    exact ⟨header.isMark, header.areModifiers⟩
  rw [blockHeader_append hy, headerLine_of_header header hgap hcut] at h
  rcases dropBytes_lastWordStart hword with ⟨hstart, -, hdrop⟩ | ⟨-, b, hdrop⟩
  · rw [List.reverse_reverse] at hdrop
    rw [hdrop, ok_bind] at h
    change (if (isHeaderMark header.mark && header.modifiers.all isModifier) then _ else _) = _ at h
    rw [if_pos hmodifiers, hstart] at h
    cases h
    -- the line starts where the last line of what is in front of the header does
    obtain ⟨tail, htrim, hline, -⟩ := exists_headerTail (p := p) header hgap
    have hp := congrArg size hu
    rw [size_append] at hp
    refine congrArg some ?_
    rw [htrim, lastLine_append hline, size_reverse, size_append p, size_append (lastLine p)]
    omega
  · rw [List.reverse_reverse] at hdrop
    rw [hdrop] at h
    cases h

/-- Where a header is found, no comment is in front of it on its line, and there is a blank right
before it. -/
theorem shows_of_blockHeader (hgap : ∀ c ∈ gap, isSpaceOrBreak c = true)
    (hy : isHeaderMark (y.headD ' ') = false)
    (h : blockHeader (p ++ header.text ++ gap ++ y) (size (p ++ header.text ++ gap)) =
      .ok (some (size p))) :
    beforeComment false (lastLine p) = lastLine p ∧ ∀ c ∈ p.getLast?, isBlank c = true := by
  obtain ⟨u, front, word, hu, hline, hword, hblank, hsize⟩ := exists_of_blockHeader hy h
  obtain ⟨tail, htrim, hnewline, -⟩ := exists_headerTail (p := p) header hgap
  have hlast : lastLine (p ++ (header.word ++ tail)) = lastLine p ++ (header.word ++ tail) :=
    lastLine_append hnewline
  -- the word that is found starts where the header does
  have hfront : size front = size (lastLine p) := by
    obtain ⟨v, hv⟩ := lastLine_isSuffix p
    have hp := congrArg size hv
    rw [htrim, hlast] at hu
    have hwhole := congrArg size hu
    rw [size_append, size_append u, size_append (lastLine p)] at hwhole
    rw [size_append] at hp
    omega
  have hcut : beforeComment false (lastLine p) = lastLine p := by
    refine (beforeComment_or false (lastLine p)).resolve_right ?_
    rintro ⟨hlt, hcut⟩
    rw [headerLine_eq, htrim, hlast, hcut] at hline
    obtain ⟨v, hv⟩ := trimEnd_isPrefix (beforeComment false (lastLine p))
    have hle := congrArg size hv
    rw [hline, size_append, size_append] at hle
    omega
  refine ⟨hcut, fun c hc => ?_⟩
  rw [headerLine_of_header header hgap hcut] at hline
  obtain ⟨rfl, -⟩ := Text.append_inj_of_size hline.symm hfront
  rcases getLast?_lastLine p hc with rfl | hc
  · rfl
  · exact hblank c hc

/-- **The header of a block scalar is found** exactly if no comment is in front of it on its line
and there is a blank right before it. -/
theorem blockHeader_eq_iff (hgap : ∀ c ∈ gap, isSpaceOrBreak c = true)
    (hy : isHeaderMark (y.headD ' ') = false)
    (h : blockHeader (p ++ header.text ++ gap ++ y) (size (p ++ header.text ++ gap)) = .ok r) :
    r = some (size p) ↔ (∀ c, [c, '#'] <:+: lastLine p → isBlank c = false) ∧
      ∀ c ∈ p.getLast?, isBlank c = true := by
  constructor
  · rintro rfl
    obtain ⟨hcut, hblank⟩ := shows_of_blockHeader header hgap hy h
    exact ⟨fun c hc => not_isBlank_of_beforeComment hcut hc, hblank⟩
  · rintro ⟨hcomment, hblank⟩
    exact blockHeader_of_header header hgap (beforeComment_eq_self hcomment nofun) hblank hy h

/-- A header is found right away where it is looked for. -/
theorem blockHeader_of_isHeaderMark {x : Text} (hy : isHeaderMark (y.headD ' ') = true) :
    blockHeader (x ++ y) (size x) = .ok (some (size x)) := by
  unfold blockHeader
  rw [cutAt_append]
  exact if_pos hy

/-- **What leads to the header of a block scalar**, when properties are stepped over first: what
stands where the content should be is neither a property nor a header. -/
theorem starts_of_blockHeader {start : Nat} (hgap : ∀ c ∈ gap, isSpaceOrBreak c = true)
    (hline : '\n' ∈ gap) (hskip : skipProperties (p ++ header.text ++ gap ++ y)
      (size (p ++ header.text ++ gap)) = .ok start)
    (h : blockHeader (p ++ header.text ++ gap ++ y) start = .ok r) (hr : r.getD start = size p) :
    isPropertyMark (y.headD ' ') = false ∧ isHeaderMark (y.headD ' ') = false ∧
      (∀ c, [c, '#'] <:+: lastLine p → isBlank c = false) ∧
      ∀ c ∈ p.getLast?, isBlank c = true := by
  have hwide : size p < size (p ++ header.text ++ gap) := by
    have := size_pos_of_cons header.mark (header.modifiers ++ (header.blanks ++ header.comment))
    rw [size_append, size_append]
    exact Nat.lt_of_lt_of_le (Nat.lt_add_of_pos_right this) (Nat.le_add_right _ _)
  cases hproperty : isPropertyMark (y.headD ' ') with
  | false =>
      cases hskip.symm.trans (skipProperties_append hproperty)
      cases hmark : isHeaderMark (y.headD ' ') with
      | true =>
          cases h.symm.trans (blockHeader_of_isHeaderMark hmark)
          exact absurd hr hwide.ne'
      | false =>
          refine ⟨rfl, rfl, (blockHeader_eq_iff header hgap hmark h).mp ?_⟩
          cases r with
          | none => exact absurd hr hwide.ne'
          | some r => exact congrArg some hr
  | true =>
      -- the search starts behind the property, and does not go back over its line
      obtain ⟨u, v, rfl, hu, hstart⟩ :=
        skipProperties_property (x := p ++ header.text ++ gap) hproperty
      cases hskip.symm.trans hstart
      obtain ⟨g, g', rfl⟩ := List.append_of_mem hline
      have hlt : size p < size (p ++ header.text ++ (g ++ '\n' :: g') ++ u) := by
        rw [size_append _ u]
        exact Nat.lt_of_lt_of_le hwide (Nat.le_add_right _ _)
      rw [← List.append_assoc] at h
      cases r with
      | none => exact absurd hr hlt.ne'
      | some r =>
          obtain rfl : r = size p := hr
          cases hmark : isHeaderMark (v.headD ' ') with
          | true =>
              have hfound := h.symm.trans (blockHeader_of_isHeaderMark hmark)
              exact absurd (Option.some.inj (Except.ok.inj hfound)) hlt.ne
          | false =>
              have hsplit : p ++ header.text ++ (g ++ '\n' :: g') ++ u =
                  p ++ header.text ++ g ++ '\n' :: (g' ++ u) := by simp
              rw [hsplit] at h
              have hback := lt_of_blockHeader (List.mem_append_right g' hu)
                (not_isBlank_of_isPropertyMark hproperty) hmark h
              rw [size_append, size_append] at hback
              omega

end Header

end Extent

end YamlEdit
