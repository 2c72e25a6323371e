import Mathlib.Data.List.Basic
import YamlEdit.Proofs.Filler

/-!
# How plain scalars are written

A plain scalar is made of words and of white space between them. `Token.Presents` says which text a
presentation stands for: blanks inside a line stand for themselves, and line breaks are folded. The
scanner reads presentations and nothing else (`Scan.scanPlain_presents`).

The other way round, not every presentation is read as one wherever it stands, since what starts or
ends a plain scalar depends on what is around it. Where it is all that there is, and it looks like
nothing else (`Token.StandsAlone`), the scanner reads all of it (`Scan.plainWords_alone`).
-/

namespace YamlEdit

/-- The gap goes on behind a line break. -/
def Scan.Gap.newLine (gap : Gap) (leading : Bool) : Gap :=
  if leading then { gap with emptyLines := gap.emptyLines + 1 } else ⟨[], true, gap.emptyLines⟩

namespace Token

open Scan (Gap)

/-- White space that a gap goes on with, and what the gap then is. The flags say whether only white
space was met on the line so far, before and after. A comment may stand behind a tab that indents a
line. -/
inductive Spaces : Bool → Gap → Text → Bool → Gap → Prop where
  | nil (leading : Bool) (gap : Gap) : Spaces leading gap [] leading gap
  | blank {gap gap' : Gap} {c : Char} {u : Text} {leading : Bool} (hc : isSpace c = true)
      (rest : Spaces false { gap with blanks := gap.blanks ++ [c] } u leading gap') :
      Spaces false gap (c :: u) leading gap'
  | indentation {gap gap' : Gap} {c : Char} {u : Text} {leading : Bool} (hc : isSpace c = true)
      (rest : Spaces true gap u leading gap') : Spaces true gap (c :: u) leading gap'
  | comment {gap gap' : Gap} {w body u : Text} {leading : Bool} (hw : ∀ c ∈ w, isSpace c = true)
      (hne : w ≠ []) (hbody : ∀ c ∈ body, isBreakOrEnd c = false)
      (rest : Spaces true gap u leading gap') :
      Spaces true gap (w ++ '#' :: (body ++ u)) leading gap'
  | line {gap gap' : Gap} {c : Char} {u : Text} {leading leading' : Bool} (hc : isBreak c = true)
      (hfeed : c = '\r' → u.headD '\x00' ≠ '\n')
      (rest : Spaces true (gap.newLine leading) u leading' gap') :
      Spaces leading gap (c :: u) leading' gap'
  | lineFeed {gap gap' : Gap} {u : Text} {leading leading' : Bool}
      (rest : Spaces true (gap.newLine leading) u leading' gap') :
      Spaces leading gap ('\r' :: '\n' :: u) leading' gap'

/-- The characters of a word, which has some. -/
def IsWord (w : Text) : Prop := w ≠ [] ∧ ∀ c ∈ w, isSpaceOrEnd c = false

/-- Words and the white space between them, behind a gap, and the text that they stand for together
with that gap. -/
inductive PlainWords : Gap → Text → Text → Prop where
  | last {gap : Gap} {w : Text} (hw : IsWord w) : PlainWords gap w (gap.fold ++ w)
  | cons {gap next : Gap} {w u v text : Text} {leading : Bool} (hw : IsWord w)
      (hcolon : w.getLast? ≠ some ':') (hne : u ≠ []) (hu : Spaces false Gap.none u leading next)
      (rest : PlainWords next v text) : PlainWords gap (w ++ (u ++ v)) (gap.fold ++ w ++ text)

/-- A plain scalar as it is written, and the text that it stands for. -/
def Presents (u text : Text) : Prop := PlainWords Gap.none u text

/-- Whether there is a `#` behind white space. -/
def hasComment : (spaced : Bool) → Text → Bool
  | _, [] => false
  | spaced, c :: t => spaced && c == '#' || hasComment (isSpaceOrBreak c) t

/-- Whether a line starts with the mark of a document, white space aside. -/
def hasMarker : (leading : Bool) → Text → Bool
  | _, [] => false
  | leading, c :: t =>
    leading && (Scan.isDocumentMarker '-' (c :: t) || Scan.isDocumentMarker '.' (c :: t)) ||
      hasMarker (isBreak c || leading && isSpace c) t

/-- A presentation that is read as a plain scalar where it is all that there is: it does not start
like a block scalar, an item or a key, it does not end like a key, and there is neither a comment
in it nor the mark of a document. -/
structure StandsAlone (u : Text) : Prop where
  block : u.headD '\x00' ≠ '|' ∧ u.headD '\x00' ≠ '>'
  dash : u ≠ ['-']
  query : u ≠ ['?']
  colon : u.getLast? ≠ some ':'
  comment : hasComment true u = false
  marker : hasMarker true u = false

instance (u : Text) : Decidable (StandsAlone u) :=
  decidable_of_iff ((u.headD '\x00' ≠ '|' ∧ u.headD '\x00' ≠ '>') ∧ u ≠ ['-'] ∧ u ≠ ['?'] ∧
      u.getLast? ≠ some ':' ∧ hasComment true u = false ∧ hasMarker true u = false)
    ⟨fun ⟨h₁, h₂, h₃, h₄, h₅, h₆⟩ => ⟨h₁, h₂, h₃, h₄, h₅, h₆⟩,
      fun ⟨h₁, h₂, h₃, h₄, h₅, h₆⟩ => ⟨h₁, h₂, h₃, h₄, h₅, h₆⟩⟩

section Presents

variable {u v : Text}

theorem isSpaceOrEnd_eq (c : Char) : isSpaceOrEnd c = (isSpaceOrBreak c || isEnd c) := by
  rw [isSpaceOrEnd, isBreakOrEnd, ← Bool.or_assoc, ← isSpaceOrBreak]

theorem not_isSpaceOrBreak_of {c : Char} (h : isSpaceOrEnd c = false) :
    isSpaceOrBreak c = false := by
  rw [isSpaceOrEnd_eq, Bool.or_eq_false_iff] at h
  exact h.1

theorem spaces_indentation {gap gap' : Gap} {w : Text} {leading : Bool}
    (hw : ∀ c ∈ w, isSpace c = true) (hu : Spaces true gap u leading gap') :
    Spaces true gap (w ++ u) leading gap' := by
  induction w with
  | nil => exact hu
  | cons c w ih =>
      exact .indentation (hw c List.mem_cons_self)
        (ih fun d hd => hw d (List.mem_cons_of_mem c hd))

theorem hasComment_append {b : Bool} {c : Char} {v : Text} (hc : u.getLast? = some c)
    (h : hasComment b (u ++ v) = false) : hasComment (isSpaceOrBreak c) v = false := by
  induction u generalizing b with
  | nil => cases hc
  | cons d u ih =>
      rw [List.cons_append, hasComment, Bool.or_eq_false_iff] at h
      cases u with
      | nil =>
          cases hc
          exact h.2
      | cons e u => exact ih (by rwa [List.getLast?_cons_cons] at hc) h.2

theorem hasComment_of_space {b : Bool} {w v : Text} (hw : ∀ c ∈ w, isSpace c = true)
    (hne : w ≠ []) : hasComment b (w ++ '#' :: v) = true := by
  cases hlast : w.getLast? with
  | none => exact absurd (List.getLast?_eq_none_iff.mp hlast) hne
  | some c =>
      cases h : hasComment b (w ++ '#' :: v) with
      | true => rfl
      | false =>
          have := hasComment_append hlast h
          rw [isSpaceOrBreak, hw c (List.mem_of_getLast? hlast)] at this
          exact absurd this (by simp [hasComment])

/-- White space without a comment is blank. -/
theorem blank_of_spaces {gap gap' : Gap} {leading leading' b : Bool} {v : Text}
    (hu : Spaces leading gap u leading' gap') (h : hasComment b (u ++ v) = false) :
    ∀ c ∈ u, isSpaceOrBreak c = true := by
  induction hu generalizing b with
  | nil => exact nofun
  | blank hc _ ih | indentation hc _ ih =>
      rw [List.cons_append, hasComment, Bool.or_eq_false_iff] at h
      exact List.forall_mem_cons.mpr ⟨isSpaceOrBreak_of_isSpace hc, ih h.2⟩
  | comment hw hne _ _ _ =>
      rw [List.append_assoc, List.cons_append, hasComment_of_space hw hne] at h
      cases h
  | line hc _ _ ih =>
      rw [List.cons_append, hasComment, Bool.or_eq_false_iff] at h
      exact List.forall_mem_cons.mpr ⟨isSpaceOrBreak_of_isBreak hc, ih h.2⟩
  | lineFeed _ ih =>
      rw [List.cons_append, List.cons_append, hasComment, hasComment, Bool.or_eq_false_iff,
        Bool.or_eq_false_iff] at h
      exact List.forall_mem_cons.mpr ⟨rfl, List.forall_mem_cons.mpr ⟨rfl, ih h.2.2⟩⟩

theorem hasMarker_of_spaces {gap gap' : Gap} {leading leading' : Bool} {v : Text}
    (hu : Spaces leading gap u leading' gap') (hblank : ∀ c ∈ u, isSpaceOrBreak c = true)
    (h : hasMarker leading (u ++ v) = false) : hasMarker leading' v = false := by
  induction hu with
  | nil => exact h
  | @blank _ _ c _ _ hc _ ih =>
      rw [List.cons_append, hasMarker, Bool.or_eq_false_iff] at h
      have hbreak : isBreak c = false := by
        simp only [isSpace, Bool.or_eq_true, beq_iff_eq] at hc
        rcases hc with rfl | rfl <;> rfl
      rw [hbreak] at h
      exact ih (fun d hd => hblank d (List.mem_cons_of_mem _ hd)) h.2
  | indentation hc _ ih =>
      rw [List.cons_append, hasMarker, Bool.or_eq_false_iff, hc, Bool.and_true, Bool.or_true] at h
      exact ih (fun d hd => hblank d (List.mem_cons_of_mem _ hd)) h.2
  | comment =>
      exact absurd (hblank '#' (by simp)) (by decide)
  | line hc _ _ ih =>
      rw [List.cons_append, hasMarker, Bool.or_eq_false_iff, hc, Bool.true_or] at h
      exact ih (fun d hd => hblank d (List.mem_cons_of_mem _ hd)) h.2
  | lineFeed _ ih =>
      rw [List.cons_append, List.cons_append, hasMarker, hasMarker, Bool.or_eq_false_iff,
        Bool.or_eq_false_iff] at h
      exact ih (fun d hd => hblank d (List.mem_cons_of_mem _ (List.mem_cons_of_mem _ hd))) h.2.2

theorem hasMarker_of_word {leading : Bool} {w v : Text} (hw : IsWord w)
    (h : hasMarker leading (w ++ v) = false) : hasMarker false v = false := by
  obtain ⟨hne, hchars⟩ := hw
  induction w generalizing leading with
  | nil => exact absurd rfl hne
  | cons c w ih =>
      have hc := hchars c List.mem_cons_self
      rw [isSpaceOrEnd, isBreakOrEnd, Bool.or_eq_false_iff, Bool.or_eq_false_iff] at hc
      rw [List.cons_append, hasMarker, Bool.or_eq_false_iff, hc.1, hc.2.1, Bool.and_false,
        Bool.or_false] at h
      cases w with
      | nil => exact h.2
      | cons d w =>
          exact ih h.2 (List.cons_ne_nil d w) fun e he => hchars e (List.mem_cons_of_mem c he)

theorem not_marker_of_hasMarker {leading : Bool} (hne : u ≠ [])
    (h : hasMarker leading u = false) :
    (leading && (Scan.isDocumentMarker '-' u || Scan.isDocumentMarker '.' u)) = false := by
  cases u with
  | nil => exact absurd rfl hne
  | cons c u =>
      rw [hasMarker, Bool.or_eq_false_iff] at h
      exact h.1

theorem PlainWords.ne_nil {gap : Gap} {text : Text} (h : PlainWords gap u text) : u ≠ [] := by
  cases h with
  | last hw => exact hw.1
  | cons hw _ _ _ _ => exact List.append_ne_nil_of_left_ne_nil hw.1 _

theorem PlainWords.text_ne_nil {gap : Gap} {text : Text} (h : PlainWords gap u text) :
    text ≠ [] := by
  cases h with
  | last hw => exact List.append_ne_nil_of_right_ne_nil _ hw.1
  | cons hw _ _ _ _ =>
      exact List.append_ne_nil_of_left_ne_nil (List.append_ne_nil_of_right_ne_nil _ hw.1) _

/-- A presentation starts with a character of its first word. -/
theorem PlainWords.headD {gap : Gap} {text : Text} (h : PlainWords gap u text) :
    isSpaceOrEnd (u.headD '\x00') = false := by
  have hword : ∀ {w v : Text}, IsWord w → isSpaceOrEnd ((w ++ v).headD '\x00') = false := by
    rintro w v ⟨hne, hchars⟩
    cases w with
    | nil => exact absurd rfl hne
    | cons c w => exact hchars c List.mem_cons_self
  cases h with
  | last hw => exact List.append_nil u ▸ hword hw
  | cons hw _ _ _ _ => exact hword hw

theorem hasComment_of_blank {b : Bool} (hne : u ≠ []) (hblank : ∀ c ∈ u, isSpaceOrBreak c = true)
    (h : hasComment b (u ++ v) = false) : hasComment true v = false := by
  obtain ⟨c, hc⟩ := Option.ne_none_iff_exists'.mp (mt List.getLast?_eq_none_iff.mp hne)
  have := hasComment_append hc h
  rwa [hblank c (List.mem_of_getLast? hc)] at this

end Presents

end Token

namespace Scanner

/-- The scanner has read the given characters. -/
structure Reads (s : Scanner) (u : Text) (s' : Scanner) : Prop where
  rest : s.rest = u ++ s'.rest
  index : s'.mark.index = s.mark.index + u.length
  bound : s'.bound = s.bound

section Reads

variable {s s₁ s' : Scanner} {u v : Text}

theorem Reads.refl (s : Scanner) : s.Reads [] s := ⟨rfl, rfl, rfl⟩

theorem Reads.trans (h : s.Reads u s₁) (h' : s₁.Reads v s') : s.Reads (u ++ v) s' where
  rest := by rw [h.rest, h'.rest, List.append_assoc]
  index := by rw [h'.index, h.index, List.length_append, Nat.add_assoc]
  bound := h'.bound.trans h.bound

theorem Reads.length (h : s.Reads u s') : s.rest.length = u.length + s'.rest.length := by
  rw [h.rest, List.length_append]

/-- The next characters of the line are stepped over. -/
theorem reads_skipN (hrest : s.rest = u ++ v) (h : Scan.skipN u.length s = .ok ((), s')) :
    s.Reads u s' ∧ s'.leading = s.leading := by
  cases h
  refine ⟨⟨?_, rfl, rfl⟩, rfl⟩
  show s.rest = u ++ s.rest.drop u.length
  rw [hrest, List.drop_left]

theorem reads_skipContent (hrest : s.rest = u ++ v)
    (h : Scan.skipContent u.length s = .ok ((), s')) : s.Reads u s' ∧ s'.leading = false := by
  cases h
  refine ⟨⟨?_, rfl, rfl⟩, rfl⟩
  show s.rest = u ++ s.rest.drop u.length
  rw [hrest, List.drop_left]

/-- The scanner behind a line break. -/
def newLine (s : Scanner) (n : Nat) (v : Text) : Scanner :=
  { s with rest := v, mark := ⟨s.mark.index + n, s.mark.line + 1, 0⟩, leading := true }

/-- The scanner behind one character of the line. -/
def step (s : Scanner) (v : Text) : Scanner :=
  { s with
    rest := v
    mark := { s.mark with index := s.mark.index + 1, column := s.mark.column + 1 } }

/-- The scanner at another place. -/
def arrived (s : Scanner) (v : Text) (mark : Mark) (leading : Bool) : Scanner :=
  { s with rest := v, mark, leading }

/-- The scanner behind characters of the line that are content. -/
def behind (s : Scanner) (n : Nat) : Scanner :=
  { s with
    rest := s.rest.drop n
    mark := { s.mark with index := s.mark.index + n, column := s.mark.column + n }
    leading := false }

end Reads

end Scanner

namespace Scan

open Token

section Parts

variable {β : Type} {s s' : Scanner} {u v : Text}

/-! ## Looking and moving -/

theorem bind_of_ok {α : Type} {x : Scan α} {a : α} (h : x s = .ok (a, s')) (f : α → Scan β) :
    (x >>= f) s = f a s' := by
  show Except.bind (x s) _ = _
  rw [h]
  rfl

theorem get_bind (f : Scanner → Scan β) : ((get : Scan Scanner) >>= f) s = f s s := rfl

theorem modify_bind (g : Scanner → Scanner) (f : Unit → Scan β) :
    ((modify g : Scan Unit) >>= f) s = f () (g s) := rfl

theorem mark_bind (f : Mark → Scan β) : (mark >>= f) s = f s.mark s := rfl

theorem fuel_bind (f : Nat → Scan β) : (fuel >>= f) s = f s.bound s := rfl

theorem peek_bind (f : Char → Scan β) : (peek >>= f) s = f (s.rest.headD '\x00') s := rfl

theorem peekAt_bind (n : Nat) (f : Char → Scan β) :
    (peekAt n >>= f) s = f (s.rest.getD n '\x00') s := rfl

theorem skipSpace_bind {c : Char} (hrest : s.rest = c :: v) (f : Unit → Scan β) :
    (skipSpace >>= f) s = f () (s.step v) := by
  show f () { s with rest := s.rest.drop 1, mark := _ } = _
  rw [hrest]
  rfl

theorem reads_skipSpace (hc : isSpace (s.rest.headD '\x00') = true)
    (h : skipSpace s = .ok ((), s')) :
    s.Reads [s.rest.headD '\x00'] s' ∧ s'.leading = s.leading :=
  Scanner.reads_skipN (u := [s.rest.headD '\x00'])
    (rest_eq_of_peek (ne_end_of_isSpaceOrBreak (isSpaceOrBreak_of_isSpace hc)) rfl) h

theorem reads_takeLine {p : Char → Bool} {taken : Text} (h : takeLine p s = .ok (taken, s')) :
    taken = s.rest.takeWhile p ∧ s.Reads taken s' ∧ s'.leading = s.leading := by
  unfold takeLine at h
  rw [get_bind, stateful_bind_eq_ok] at h
  obtain ⟨_, s₁, hskip, h⟩ := h
  cases h
  exact ⟨rfl, Scanner.reads_skipN List.takeWhile_append_dropWhile.symm hskip⟩

/-- A carriage return and a line feed are one line break. -/
theorem skipBreak_lineFeed (hrest : s.rest = '\r' :: '\n' :: v) :
    skipBreak s = .ok ((), s.newLine 2 v) := by
  obtain ⟨rest, mark, queue, taken, keyAllowed, keys, indent, outer, flowLevel, adjacentValueAt,
    leading, flowMappingStarted, pairs, bound⟩ := s
  obtain rfl : rest = _ := hrest
  rfl

/-- Any other line break is one character. -/
theorem skipBreak_line {c : Char} (hrest : s.rest = c :: v) (hc : isBreak c = true)
    (hfeed : c = '\r' → v.headD '\x00' ≠ '\n') : skipBreak s = .ok ((), s.newLine 1 v) := by
  have hsecond : ¬ (s.rest.headD '\x00' = '\r' ∧ s.rest.getD 1 '\x00' = '\n') := by
    rw [hrest]
    rintro ⟨hreturn, hnext⟩
    refine hfeed hreturn ?_
    cases v with
    | nil => exact absurd (show '\x00' = '\n' from hnext) (by decide)
    | cons d v => exact hnext
  unfold skipBreak
  rw [peek_bind, peekAt_bind, if_neg hsecond]
  have hbreak : isBreak (s.rest.headD '\x00') = true := by rwa [hrest]
  dsimp only
  rw [peek_bind, if_pos hbreak]
  show Except.ok ((), s.newLine 1 (s.rest.drop 1)) = _
  rw [hrest]
  rfl

/-- What a line break is. -/
theorem break_cases (h : isBreak (s.rest.headD '\x00') = true) :
    (∃ v, s.rest = '\r' :: '\n' :: v) ∨
      ∃ c v, s.rest = c :: v ∧ isBreak c = true ∧ (c = '\r' → v.headD '\x00' ≠ '\n') := by
  have hrest := rest_eq_of_peek (ne_end_of_isSpaceOrBreak (isSpaceOrBreak_of_isBreak h)) rfl
  by_cases hfeed : s.rest.headD '\x00' = '\r' ∧ (s.rest.drop 1).headD '\x00' = '\n'
  · refine .inl ⟨(s.rest.drop 1).drop 1, ?_⟩
    rw [← rest_eq_of_peek (s := { s with rest := s.rest.drop 1 }) (by decide) hfeed.2, ← hfeed.1]
    exact hrest
  · exact .inr ⟨_, _, hrest, h, fun hreturn hnext => hfeed ⟨hreturn, hnext⟩⟩

theorem reads_newLine (hrest : s.rest = u ++ v) : s.Reads u (s.newLine u.length v) :=
  ⟨hrest, rfl, rfl⟩

/-- White space up to the end of the line, and a comment behind it. -/
theorem reads_skipToLineEnd {skipped : Skipped} (h : skipToLineEnd true s = .ok (skipped, s')) :
    s'.leading = s.leading ∧ ∃ w, (∀ c ∈ w, isSpace c = true) ∧ (s.Reads w s' ∨
      ∃ body, w ≠ [] ∧ (∀ c ∈ body, isBreakOrEnd c = false) ∧ s.Reads (w ++ '#' :: body) s') := by
  unfold skipToLineEnd at h
  rw [stateful_bind_eq_ok] at h
  obtain ⟨w, s₁, htake, h⟩ := h
  obtain ⟨hw, hreads, hleading⟩ := reads_takeLine htake
  have hspace : ∀ c ∈ w, isSpace c = true := by
    intro c hc
    rw [hw] at hc
    have := List.all_eq_true.mp List.all_takeWhile c hc
    simpa [isSpace] using this
  rw [peek_bind] at h
  split at h
  · next hcomment =>
      dsimp only at h
      split at h
      · cases h
      · next hne =>
          change ((takeLine (!isBreakOrEnd ·) >>= fun _ => pure ()) >>= _) s₁ = _ at h
          rw [stateful_bind_eq_ok] at h
          obtain ⟨_, s₂, hskip, h⟩ := h
          cases h
          rw [stateful_bind_eq_ok] at hskip
          obtain ⟨taken, s₃, htaken, hskip⟩ := hskip
          cases hskip
          obtain ⟨htaken, hmore, hleading'⟩ := reads_takeLine htaken
          rw [rest_eq_of_peek (by decide) hcomment, List.takeWhile_cons_of_pos (by decide)]
            at htaken
          refine ⟨hleading'.trans hleading, w, hspace, .inr ⟨_, by simpa using hne,
            fun c hc => ?_, htaken ▸ hreads.trans hmore⟩⟩
          simpa using List.all_eq_true.mp List.all_takeWhile c hc
  · cases h
    exact ⟨hleading, w, hspace, .inl hreads⟩

/-! ## Reading a presentation -/

theorem not_isSpace_of_isBreak {c : Char} (h : isBreak c = true) : isSpace c = false := by
  simp only [isBreak, Bool.or_eq_true, beq_iff_eq] at h
  rcases h with rfl | rfl <;> rfl

/-- In front of the first word of a line or behind a word, a line break is read in the same way. -/
theorem plainGap_newLine {start : Mark} {column : Int} {fuel : Nat} {gap : Gap}
    (hbreak : isBreak (s.rest.headD '\x00') = true) :
    plainGap start column (fuel + 1) gap s =
      (skipBreak >>= fun _ => plainGap start column fuel (gap.newLine s.leading)) s := by
  rw [plainGap, peek_bind, if_neg (ne_true_of_eq_false (not_isSpace_of_isBreak hbreak)),
    if_pos hbreak, get_bind]
  unfold Gap.newLine
  cases s.leading <;> rfl

/-- White space is read at one go, and more of it may follow. -/
structure GapStep (s : Scanner) (gap : Gap) (w : Text) (s₁ : Scanner) (gap₁ : Gap) : Prop where
  reads : s.Reads w s₁
  ne_nil : w ≠ []
  spaces : ∀ {u leading gap'}, u <+: s₁.rest → Spaces s₁.leading gap₁ u leading gap' →
    Spaces s.leading gap (w ++ u) leading gap'

section GapSteps

variable {s₁ : Scanner} {w : Text} {gap gap₁ gap' : Gap}

theorem GapStep.length (h : GapStep s gap w s₁ gap₁) : s₁.rest.length < s.rest.length := by
  have := List.length_pos_iff.mpr h.ne_nil
  have := h.reads.length
  omega

theorem GapStep.goOn (h : GapStep s gap w s₁ gap₁)
    (hrest : ∃ u, s₁.Reads u s' ∧ Spaces s₁.leading gap₁ u s'.leading gap' ∧
      isSpaceOrBreak (s'.rest.headD '\x00') = false) :
    ∃ u, s.Reads u s' ∧ Spaces s.leading gap u s'.leading gap' ∧
      isSpaceOrBreak (s'.rest.headD '\x00') = false := by
  obtain ⟨u, hu, hspaces, hstop⟩ := hrest
  exact ⟨w ++ u, h.reads.trans hu, h.spaces (hu.rest ▸ List.prefix_append u _) hspaces, hstop⟩

theorem gapStep_blank (hc : isSpace (s.rest.headD '\x00') = true) (hleading : s.leading = false)
    (h : skipSpace s = .ok ((), s₁)) :
    GapStep s gap [s.rest.headD '\x00'] s₁
      { gap with blanks := gap.blanks ++ [s.rest.headD '\x00'] } := by
  obtain ⟨hreads, hleading₁⟩ := reads_skipSpace hc h
  refine ⟨hreads, List.cons_ne_nil _ _, fun _ hspaces => ?_⟩
  rw [hleading₁, hleading] at hspaces
  rw [hleading]
  exact .blank hc hspaces

theorem gapStep_indentation (hc : isSpace (s.rest.headD '\x00') = true)
    (hleading : s.leading = true) (h : skipSpace s = .ok ((), s₁)) : GapStep s gap [s.rest.headD '\x00'] s₁ gap := by
  obtain ⟨hreads, hleading₁⟩ := reads_skipSpace hc h
  refine ⟨hreads, List.cons_ne_nil _ _, fun _ hspaces => ?_⟩
  rw [hleading₁, hleading] at hspaces
  rw [hleading]
  exact .indentation hc hspaces

/-- Behind a tab the rest of the line is read, which may end with a comment. -/
theorem gapStep_lineEnd {skipped : Skipped} (hc : isSpace (s.rest.headD '\x00') = true)
    (hleading : s.leading = true) (h : skipToLineEnd true s = .ok (skipped, s₁))
    (hend : isBreakOrEnd (s₁.rest.headD '\x00') = true) : ∃ w, GapStep s gap w s₁ gap := by
  obtain ⟨hleading₁, w, hw, hreads | ⟨body, hne, hbody, hreads⟩⟩ := reads_skipToLineEnd h
  · refine ⟨w, hreads, ?_, fun _ hspaces => ?_⟩
    · rintro rfl
      -- white space does not end a line
      rw [← show s.rest = s₁.rest from hreads.rest] at hend
      rw [isSpace, Bool.or_eq_true, beq_iff_eq, beq_iff_eq] at hc
      rcases hc with hc | hc <;> rw [hc] at hend <;> cases hend
    · rw [hleading₁, hleading] at hspaces
      rw [hleading]
      exact spaces_indentation hw hspaces
  · refine ⟨w ++ '#' :: body, hreads, by simp, fun _ hspaces => ?_⟩
    rw [hleading₁, hleading] at hspaces
    rw [hleading, List.append_assoc, List.cons_append]
    exact .comment hw hne hbody hspaces

theorem gapStep_skipBreak (hbreak : isBreak (s.rest.headD '\x00') = true)
    (h : skipBreak s = .ok ((), s₁)) : ∃ w, GapStep s gap w s₁ (gap.newLine s.leading) := by
  rcases break_cases hbreak with ⟨v, hrest⟩ | ⟨c, v, hrest, hc, hfeed⟩
  · cases h.symm.trans (skipBreak_lineFeed hrest)
    exact ⟨_, reads_newLine (u := ['\r', '\n']) hrest, List.cons_ne_nil _ _, fun _ => .lineFeed⟩
  · cases h.symm.trans (skipBreak_line hrest hc hfeed)
    refine ⟨_, reads_newLine (u := [c]) hrest, List.cons_ne_nil _ _, fun {u _ _} hu hspaces =>
      .line hc (fun hreturn => ?_) hspaces⟩
    obtain ⟨t, rfl⟩ := hu
    have hnext := hfeed hreturn
    cases u with
    | nil => exact fun h => absurd h (by decide)
    | cons d u => exact hnext

end GapSteps

/-- The white space behind a word is read up to the next word, or what ends the scalar. -/
theorem plainGap_reads {start : Mark} {column : Int} {fuel : Nat} {gap gap' : Gap}
    (hfuel : s.rest.length < fuel) (h : plainGap start column fuel gap s = .ok (gap', s')) :
    ∃ u, s.Reads u s' ∧ Spaces s.leading gap u s'.leading gap' ∧
      isSpaceOrBreak (s'.rest.headD '\x00') = false := by
  induction fuel generalizing gap s with
  | zero => exact absurd hfuel (Nat.not_lt_zero _)
  | succ fuel ih =>
      have hgo : ∀ {w : Text} {s₁ : Scanner} {gap₁ : Gap}, GapStep s gap w s₁ gap₁ →
          plainGap start column fuel gap₁ s₁ = .ok (gap', s') →
          ∃ u, s.Reads u s' ∧ Spaces s.leading gap u s'.leading gap' ∧
            isSpaceOrBreak (s'.rest.headD '\x00') = false := fun hstep h =>
        hstep.goOn (ih (Nat.lt_of_lt_of_le hstep.length (Nat.le_of_lt_succ hfuel)) h)
      by_cases hbreak : isBreak (s.rest.headD '\x00') = true
      · rw [plainGap_newLine hbreak] at h
        obtain ⟨_, s₁, hskip, h⟩ := stateful_bind_eq_ok.mp h
        obtain ⟨w, hstep⟩ := gapStep_skipBreak hbreak hskip
        exact hgo hstep h
      unfold plainGap at h
      rw [peek_bind] at h
      split at h
      · next hspace =>
          rw [get_bind] at h
          split at h
          · next hleading =>
              obtain ⟨_, s₁, hskip, h⟩ := stateful_bind_eq_ok.mp h
              exact hgo (gapStep_blank hspace (by simpa using hleading) hskip) h
          · next hleading =>
              have hleading : s.leading = true := by simpa using hleading
              rw [mark_bind] at h
              split at h
              · obtain ⟨skipped, s₁, hline, h⟩ := stateful_bind_eq_ok.mp h
                rw [peek_bind] at h
                split at h
                · cases h
                · next hend =>
                    obtain ⟨w, hstep⟩ := gapStep_lineEnd hspace hleading hline (by simpa using hend)
                    exact hgo hstep h
              · obtain ⟨_, s₁, hskip, h⟩ := stateful_bind_eq_ok.mp h
                exact hgo (gapStep_indentation hspace hleading hskip) h
      · next hspace =>
          cases h
          refine ⟨[], .refl _, .nil _ _, ?_⟩
          rw [isSpaceOrBreak, Bool.or_eq_false_iff]
          exact ⟨by simpa using hspace, by simpa using hbreak⟩

/-- The words of a plain scalar do not end with a `:` in front of white space. -/
theorem plainWord_eq {inFlow : Bool} (t : Text) : ∃ v, t = plainWord inFlow t ++ v ∧
    (∀ c ∈ plainWord inFlow t, isSpaceOrEnd c = false) ∧
    ((plainWord inFlow t).getLast? = some ':' → isSpaceOrEnd (v.headD '\x00') = false) := by
  induction t with
  | nil => exact ⟨[], rfl, nofun, nofun⟩
  | cons c t ih =>
      unfold plainWord
      split
      · next hplain =>
          obtain ⟨v, ht, hword, hcolon⟩ := ih
          unfold isPlainChar at hplain
          split at hplain
          · cases hplain
          · next hc =>
              refine ⟨v, congrArg (c :: ·) ht, ?_, fun hlast => ?_⟩
              · intro d hd
                rcases List.mem_cons.mp hd with rfl | hd
                · simpa using hc
                · exact hword d hd
              · cases hw : plainWord inFlow t with
                | nil =>
                    rw [hw] at hlast ht
                    obtain rfl : c = ':' := by simpa using hlast
                    split at hplain
                    · cases hplain
                    · next hnext =>
                        rw [← show t = v from ht]
                        simpa using fun h => hnext ⟨rfl, .inl h⟩
                | cons d w =>
                    rw [hw, List.getLast?_cons_cons] at hlast
                    exact hcolon (hw ▸ hlast)
      · exact ⟨c :: t, rfl, nofun, nofun⟩

/-- What comes behind a word of a plain scalar: white space and more words, or its end. -/
def plainTail (start : Mark) (column : Int) (fuel : Nat) (inFlow : Bool) (gap : Gap) (back : Text)
    (stop : Mark) : Scan (Text × Mark) := do
  if isSpaceOrBreak (← peek) then
    let gap ← plainGap start column (← Scan.fuel) gap
    if !inFlow ∧ (← mark).column < column then return (back.reverse, stop)
    plainWords start column fuel gap back stop
  else return (back.reverse, stop)

theorem plainWords_succ (start stop : Mark) (column : Int) (fuel : Nat) (gap : Gap) (back : Text)
    (s : Scanner) :
    plainWords start column (fuel + 1) gap back stop s =
      if s.leading && (isDocumentMarker '-' s.rest || isDocumentMarker '.' s.rest) ||
          decide (s.rest.headD '\x00' = '#') then .ok ((back.reverse, stop), s)
      else if 0 < s.flowLevel ∧ s.rest.headD '\x00' = '-' ∧ isFlow (s.rest.getD 1 '\x00') then
        .error ⟨s.mark, .plainDash⟩
      else
        let word := plainWord (0 < s.flowLevel) s.rest
        if word.isEmpty then plainTail start column fuel (0 < s.flowLevel) gap back stop s
        else
          plainTail start column fuel (0 < s.flowLevel) Gap.none
            (word.reverse ++ gap.fold.reverse ++ back) (s.behind word.length).mark
            (s.behind word.length) := by
  unfold plainWords
  show (if _ then _ else _ : Scan (Text × Mark)) s = _
  split
  · rfl
  · show (if _ then _ else _ : Scan (Text × Mark)) s = _
    split
    · rfl
    · show (if _ then _ else _ : Scan (Text × Mark)) s = _
      dsimp only
      split <;> rfl

/-- What words of a plain scalar are read from: either there are none, or they are a presentation of
what is added to the text, and end at the new mark. -/
def ReadsWords (s : Scanner) (gap : Gap) (back text : Text) (stop stop' : Mark) (s' : Scanner) :
    Prop :=
  text = back.reverse ∧ stop' = stop ∨ ∃ u more, u <+: s.rest ∧ PlainWords gap u more ∧
    text = back.reverse ++ more ∧ stop'.index = s.mark.index + u.length ∧
      stop'.index ≤ s'.mark.index

section ReadsWords

variable {s₂ : Scanner} {w : Text} {gap next : Gap} {back text : Text} {stop stop' : Mark}

theorem reverse_withWord (w : Text) (gap : Gap) (back : Text) :
    (w.reverse ++ gap.fold.reverse ++ back).reverse = back.reverse ++ (gap.fold ++ w) := by
  simp

/-- One word, and no more. -/
theorem ReadsWords.last (hw : IsWord w) (hpre : w <+: s.rest)
    (hle : (s.behind w.length).mark.index ≤ s'.mark.index) :
    ReadsWords s gap back (w.reverse ++ gap.fold.reverse ++ back).reverse stop
      (s.behind w.length).mark s' :=
  .inr ⟨w, _, hpre, .last hw, reverse_withWord w gap back, rfl, hle⟩

/-- A word, white space, and what comes behind it. -/
theorem ReadsWords.cons (hw : IsWord w) (hcolon : w.getLast? ≠ some ':') (hpre : w <+: s.rest)
    (hu : (s.behind w.length).Reads u s₂) (hne : u ≠ [])
    (hspaces : Spaces false Gap.none u s₂.leading next) (hle : s₂.mark.index ≤ s'.mark.index)
    (h : ReadsWords s₂ next (w.reverse ++ gap.fold.reverse ++ back) text (s.behind w.length).mark
      stop' s') : ReadsWords s gap back text stop stop' s' := by
  rcases h with ⟨rfl, rfl⟩ | ⟨u', more, hpre', hwords, rfl, hindex, hend⟩
  · have hback : (s.behind w.length).mark.index ≤ s₂.mark.index :=
      hu.index ▸ Nat.le_add_right _ _
    exact .last hw hpre (Nat.le_trans hback hle)
  · refine .inr ⟨w ++ (u ++ u'), _, ?_, .cons hw hcolon hne hspaces hwords, ?_, ?_, hend⟩
    · obtain ⟨v, hv⟩ := hpre
      have hrest : v = u ++ s₂.rest := by
        rw [← hu.rest]
        show v = s.rest.drop w.length
        rw [← hv, List.drop_left]
      rw [← hv, hrest]
      exact List.prefix_append_right_inj w |>.mpr
        (List.prefix_append_right_inj u |>.mpr hpre')
    · rw [reverse_withWord]
      simp
    · rw [hindex, hu.index, List.length_append, List.length_append]
      show s.mark.index + w.length + u.length + u'.length = _
      omega

end ReadsWords

/-- **What the words of a plain scalar are read from**: either there are no more of them, or they
are a presentation of what is added to the text. -/
theorem plainWords_reads {start stop stop' : Mark} {column : Int} {fuel : Nat} {gap : Gap}
    {back text : Text} (hbound : s.rest.length < s.bound)
    (hblank : isSpaceOrBreak (s.rest.headD '\x00') = false)
    (h : plainWords start column fuel gap back stop s = .ok ((text, stop'), s')) :
    ReadsWords s gap back text stop stop' s' := by
  induction fuel generalizing gap back stop s with
  | zero =>
      cases h
      exact .inl ⟨rfl, rfl⟩
  | succ fuel ih =>
      rw [plainWords_succ] at h
      split at h
      · cases h
        exact .inl ⟨rfl, rfl⟩
      split at h
      · cases h
      dsimp only at h
      obtain ⟨v, hrest, hchars, hcolon⟩ := @plainWord_eq (0 < s.flowLevel) s.rest
      generalize plainWord (0 < s.flowLevel) s.rest = w at h hrest hchars hcolon
      unfold plainTail at h
      split at h
      · rw [peek_bind, hblank] at h
        cases h
        exact .inl ⟨rfl, rfl⟩
      · next hne =>
          have hw : IsWord w := ⟨by simpa using hne, hchars⟩
          have hpre : w <+: s.rest := hrest ▸ List.prefix_append w v
          have hv : (s.behind w.length).rest = v := by
            show s.rest.drop w.length = v
            rw [hrest, List.drop_left]
          have hlength : s.rest.length = w.length + v.length := by
            rw [hrest, List.length_append]
          rw [peek_bind, hv] at h
          split at h
          · next hspace =>
              rw [fuel_bind, stateful_bind_eq_ok] at h
              obtain ⟨next, s₂, hgap, h⟩ := h
              obtain ⟨u, hu, hspaces, hstop⟩ := plainGap_reads (s := s.behind w.length)
                (by rw [hv]; show v.length < s.bound; omega) hgap
              rw [mark_bind] at h
              split at h
              · cases h
                exact .last hw hpre (hu.index ▸ Nat.le_add_right _ _)
              · have hbound₂ : s₂.rest.length < s₂.bound := by
                  have := hu.length
                  rw [hv] at this
                  rw [hu.bound]
                  show _ < s.bound
                  omega
                have hle : s₂.mark.index ≤ s'.mark.index := by
                  obtain ⟨k, -, hk⟩ := (Takes.course (R := Scanner.Forgets) h).place
                  omega
                refine .cons hw (fun hlast => ?_) hpre hu ?_ hspaces hle (ih hbound₂ hstop h)
                · have := hcolon hlast
                  rw [isSpaceOrEnd_eq, hspace] at this
                  cases this
                · rintro rfl
                  rw [← show v = s₂.rest from hv.symm.trans hu.rest, hspace] at hstop
                  cases hstop
          · cases h
            exact .last hw hpre (Nat.le_refl _)

instance : Stays unrollProvisional := takes_modify fun s => by
  have hforget : ∀ (outer : List OuterIndent) (s : Scanner),
      s.Stays (unrollProvisional.forget outer s) := by
    intro outer
    induction outer with
    | nil => exact Scanner.IsCourse.refl
    | cons o rest ih =>
        intro s
        rw [unrollProvisional.forget]
        split
        · exact Scanner.IsCourse.refl s
        · have hclosed : s.Stays { s with indent := o.column, outer := rest } :=
            ⟨⟨rfl, rfl, .refl _, rfl⟩, rfl, rfl⟩
          exact Scanner.IsCourse.trans hclosed (ih _)
  exact hforget s.outer s

/-- **What a plain scalar is read from** is a presentation of its text. -/
theorem scanPlain_presents {t : Located Token} (hbound : s.rest.length < s.bound)
    (hblank : isSpaceOrBreak (s.rest.headD '\x00') = false) (h : scanPlain s = .ok (t, s')) :
    ∃ u text, u <+: s.rest ∧ Presents u text ∧ t.item = .scalar .plain text ∧
      t.span.start.index = s.mark.index ∧ t.span.stop.index = s.mark.index + u.length ∧
        t.span.stop.index ≤ s'.mark.index := by
  unfold scanPlain at h
  rw [stateful_bind_eq_ok] at h
  obtain ⟨_, s₁, hunroll, h⟩ := h
  have hstays := (inferInstance : Stays unrollProvisional).course hunroll
  rw [get_bind, mark_bind, get_bind] at h
  split at h
  · cases h
  · dsimp only at h
    rw [fuel_bind, stateful_bind_eq_ok] at h
    obtain ⟨⟨text, stop⟩, s₂, hwords, h⟩ := h
    have hlast : ∀ {s₃ : Scanner}, (do
        if text.isEmpty then failAt s₁.mark .plainEmpty
        return (⟨⟨s₁.mark, stop⟩, .scalar .plain text⟩ : Located Token) : Scan (Located Token)) s₃ =
          .ok (t, s') → text ≠ [] ∧ t = ⟨⟨s₁.mark, stop⟩, .scalar .plain text⟩ ∧ s' = s₃ := by
      intro s₃ h
      split at h
      · cases h
      · next hne =>
          cases h
          exact ⟨by simpa using hne, rfl, rfl⟩
    obtain ⟨hne, rfl, hs'⟩ : text ≠ [] ∧ t = ⟨⟨s₁.mark, stop⟩, .scalar .plain text⟩ ∧
        s'.mark = s₂.mark := by
      rw [get_bind] at h
      split at h
      · rw [stateful_bind_eq_ok] at h
        obtain ⟨_, s₃, hallow, h⟩ := h
        cases hallow
        obtain ⟨hne, ht, rfl⟩ := hlast h
        exact ⟨hne, ht, rfl⟩
      · obtain ⟨hne, ht, rfl⟩ := hlast h
        exact ⟨hne, ht, rfl⟩
    rw [← hstays.rest, ← hstays.bound] at hbound
    rw [← hstays.rest] at hblank ⊢
    rcases plainWords_reads hbound hblank hwords with ⟨hnil, -⟩ | ⟨u, more, hu, hpresents, rfl,
      hindex, hend⟩
    · exact absurd hnil hne
    · exact ⟨u, _, hu, hpresents, rfl, hstays.index, hindex.trans (by rw [hstays.index]),
        hs' ▸ hend⟩

/-! ## Reading a presentation that stands alone -/

/-- A word is read up to the white space behind it, or up to the end. -/
theorem plainWord_of_isWord {w v : Text} (hw : ∀ c ∈ w, isSpaceOrEnd c = false)
    (hcolon : w.getLast? ≠ some ':') (hv : isSpaceOrEnd (v.headD '\x00') = true) :
    plainWord false (w ++ v) = w := by
  induction w with
  | nil =>
      cases v with
      | nil => rfl
      | cons c v =>
          have : isPlainChar false c (v.headD '\x00') = false := by
            rw [isPlainChar, if_pos (by exact hv)]
          rw [List.nil_append, plainWord, if_neg (ne_true_of_eq_false this)]
  | cons c w ih =>
      have hc := hw c List.mem_cons_self
      have hplain : isPlainChar false c ((w ++ v).headD '\x00') = true := by
        rw [isPlainChar, if_neg (by simp [hc]), if_neg]
        · rfl
        · rintro ⟨rfl, hnext | ⟨hflow, -⟩⟩
          · cases w with
            | nil => exact hcolon rfl
            | cons d w =>
                have := hw d (by simp)
                rw [show isSpaceOrEnd d = true from hnext] at this
                cases this
          · cases hflow
      rw [List.cons_append, plainWord, if_pos hplain]
      refine congrArg (c :: ·) ?_
      cases w with
      | nil => exact ih nofun nofun
      | cons d w =>
          exact ih (fun e he => hw e (List.mem_cons_of_mem c he))
            (by rwa [List.getLast?_cons_cons] at hcolon)

/-- The white space behind a word is read where no comment is in it. -/
theorem plainGap_alone {gap gap' : Gap} {leading leading' : Bool} (start : Mark) {fuel : Nat}
    (hu : Spaces leading gap u leading' gap') (hblank : ∀ c ∈ u, isSpaceOrBreak c = true)
    (hv : isSpaceOrBreak (v.headD '\x00') = false) (hrest : s.rest = u ++ v)
    (hleading : s.leading = leading) (hfuel : u.length < fuel) :
    ∃ mark : Mark, mark.index = s.mark.index + u.length ∧
      plainGap start 0 fuel gap s =
        .ok (gap', s.arrived v mark leading') := by
  induction hu generalizing s fuel with
  | nil =>
      obtain ⟨fuel, rfl⟩ := Nat.exists_eq_add_one_of_ne_zero (Nat.ne_of_gt hfuel)
      obtain rfl : s.rest = v := hrest
      rw [isSpaceOrBreak, Bool.or_eq_false_iff] at hv
      refine ⟨s.mark, rfl, ?_⟩
      unfold plainGap
      rw [peek_bind, if_neg (ne_true_of_eq_false hv.1), if_neg (ne_true_of_eq_false hv.2),
        ← hleading]
      rfl
  | @blank gap _ c u _ hc _ ih =>
      obtain ⟨fuel, rfl⟩ := Nat.exists_eq_add_one.mpr (Nat.zero_lt_of_lt hfuel)
      have hspace : isSpace (s.rest.headD '\x00') = true := by rwa [hrest]
      obtain ⟨mark, hindex, hgap⟩ := ih (s := s.step (u ++ v))
        (fun d hd => hblank d (List.mem_cons_of_mem c hd)) rfl hleading
        (Nat.lt_of_succ_lt_succ hfuel)
      refine ⟨mark, hindex.trans (Nat.succ_add_eq_add_succ _ _), ?_⟩
      unfold plainGap
      rw [peek_bind, if_pos hspace, get_bind, hleading, if_pos (by decide), skipSpace_bind hrest,
        hrest]
      exact hgap
  | @indentation gap _ c u _ hc _ ih =>
      obtain ⟨fuel, rfl⟩ := Nat.exists_eq_add_one.mpr (Nat.zero_lt_of_lt hfuel)
      have hspace : isSpace (s.rest.headD '\x00') = true := by rwa [hrest]
      obtain ⟨mark, hindex, hgap⟩ := ih (s := s.step (u ++ v))
        (fun d hd => hblank d (List.mem_cons_of_mem c hd)) rfl hleading
        (Nat.lt_of_succ_lt_succ hfuel)
      refine ⟨mark, hindex.trans (Nat.succ_add_eq_add_succ _ _), ?_⟩
      unfold plainGap
      rw [peek_bind, if_pos hspace, get_bind, hleading, if_neg (by decide), mark_bind,
        if_neg (fun h => absurd h.1 (by omega)), skipSpace_bind hrest]
      exact hgap
  | comment =>
      exact absurd (hblank '#' (by simp)) (by decide)
  | @line gap _ c u _ _ hc hfeed _ ih =>
      obtain ⟨fuel, rfl⟩ := Nat.exists_eq_add_one.mpr (Nat.zero_lt_of_lt hfuel)
      obtain ⟨mark, hindex, hgap⟩ := ih (s := s.newLine 1 (u ++ v))
        (fun d hd => hblank d (List.mem_cons_of_mem c hd)) rfl rfl
        (Nat.lt_of_succ_lt_succ hfuel)
      refine ⟨mark, hindex.trans (Nat.succ_add_eq_add_succ _ _), ?_⟩
      have hbreak : isBreak (s.rest.headD '\x00') = true := by rwa [hrest]
      have hnext : c = '\r' → (u ++ v).headD '\x00' ≠ '\n' := by
        cases u with
        | nil =>
            rintro - hfeed
            rw [show v.headD '\x00' = '\n' from hfeed] at hv
            cases hv
        | cons d u => exact hfeed
      rw [plainGap_newLine hbreak, hleading]
      exact (bind_of_ok (skipBreak_line hrest hc hnext) _).trans hgap
  | @lineFeed gap _ u _ _ _ ih =>
      obtain ⟨fuel, rfl⟩ := Nat.exists_eq_add_one.mpr (Nat.zero_lt_of_lt hfuel)
      have hlength : u.length < fuel := by
        rw [List.length_cons, List.length_cons] at hfuel
        omega
      obtain ⟨mark, hindex, hgap⟩ := ih (s := s.newLine 2 (u ++ v))
        (fun d hd => hblank d (List.mem_cons_of_mem _ (List.mem_cons_of_mem _ hd))) rfl rfl hlength
      refine ⟨mark, hindex.trans (Nat.add_right_comm _ _ _), ?_⟩
      have hbreak : isBreak (s.rest.headD '\x00') = true := by rw [hrest]; rfl
      rw [plainGap_newLine hbreak, hleading]
      exact (bind_of_ok (skipBreak_lineFeed hrest) _).trans hgap

theorem plainWords_word {w : Text} {gap : Gap} {back : Text} {start stop : Mark} {fuel : Nat}
    (hw : IsWord w) (hcolon : w.getLast? ≠ some ':') (hv : isSpaceOrEnd (v.headD '\x00') = true)
    (hcomment : hasComment true (w ++ v) = false) (hmarker : hasMarker s.leading (w ++ v) = false)
    (hrest : s.rest = w ++ v) (hflow : s.flowLevel = 0) :
    plainWords start 0 (fuel + 1) gap back stop s =
      plainTail start 0 fuel false Gap.none (w.reverse ++ gap.fold.reverse ++ back)
        (s.behind w.length).mark (s.behind w.length) := by
  have hne : w ++ v ≠ [] := List.append_ne_nil_of_left_ne_nil hw.1 v
  have hhash : (w ++ v).headD '\x00' ≠ '#' := by
    cases hwv : w ++ v with
    | nil => exact absurd hwv hne
    | cons c t =>
        rw [hwv, hasComment, Bool.or_eq_false_iff, Bool.true_and] at hcomment
        simpa using hcomment.1
  have hlevel : ¬ 0 < s.flowLevel := by omega
  have hword : plainWord false s.rest = w := by
    rw [hrest]
    exact plainWord_of_isWord hw.2 hcolon hv
  rw [plainWords_succ, if_neg, if_neg (fun h => hlevel h.1), decide_eq_false hlevel]
  · dsimp only
    rw [hword, if_neg (by simpa using hw.1)]
  · rw [hrest, not_marker_of_hasMarker hne hmarker, decide_eq_false hhash]
    decide

/-- **A presentation that stands alone** is read as words up to its end. -/
theorem plainWords_alone {gap : Gap} {text : Text} (back : Text) (start stop : Mark) (fuel : Nat)
    (hu : PlainWords gap u text) (hcolon : u.getLast? ≠ some ':')
    (hcomment : hasComment true u = false) (hmarker : hasMarker s.leading u = false)
    (hrest : s.rest = u) (hflow : s.flowLevel = 0) (hbound : u.length < s.bound)
    (hfuel : u.length < fuel) :
    ∃ (mark : Mark) (leading : Bool), mark.index = s.mark.index + u.length ∧
      plainWords start 0 fuel gap back stop s =
        .ok ((back.reverse ++ text, mark), s.arrived [] mark leading) := by
  induction hu generalizing s fuel back stop with
  | @last gap w hw =>
      obtain ⟨fuel, rfl⟩ := Nat.exists_eq_add_one.mpr (Nat.zero_lt_of_lt hfuel)
      rw [← List.append_nil w] at hcomment hmarker hrest
      rw [plainWords_word hw hcolon rfl hcomment hmarker hrest hflow]
      have hend : (s.behind w.length).rest = [] := by
        show s.rest.drop w.length = []
        rw [hrest, List.append_nil, List.drop_length]
      refine ⟨(s.behind w.length).mark, false, rfl, ?_⟩
      unfold plainTail
      rw [peek_bind, hend, if_neg (by decide)]
      show Except.ok (((w.reverse ++ gap.fold.reverse ++ back).reverse, _), s.behind w.length) = _
      rw [show (w.reverse ++ gap.fold.reverse ++ back).reverse = back.reverse ++ (gap.fold ++ w) by
        simp]
      unfold Scanner.arrived
      rw [← hend]
      rfl
  | @cons gap next w u v text leading hw hend hne hspaces hwords ih =>
      obtain ⟨fuel, rfl⟩ := Nat.exists_eq_add_one.mpr (Nat.zero_lt_of_lt hfuel)
      obtain ⟨c, hc⟩ := Option.ne_none_iff_exists'.mp (mt List.getLast?_eq_none_iff.mp hw.1)
      have hmore := hasComment_append hc hcomment
      have hblank := blank_of_spaces hspaces hmore
      have hspace : isSpaceOrBreak ((u ++ v).headD '\x00') = true := by
        cases u with
        | nil => exact absurd rfl hne
        | cons d u => exact hblank d List.mem_cons_self
      have hafter : isSpaceOrEnd ((u ++ v).headD '\x00') = true := by
        rw [isSpaceOrEnd_eq, hspace, Bool.true_or]
      have hbehind : (s.behind w.length).rest = u ++ v := by
        show s.rest.drop w.length = u ++ v
        rw [hrest, List.drop_left]
      have hlengths : (w ++ (u ++ v)).length = w.length + (u.length + v.length) := by
        rw [List.length_append, List.length_append]
      have hpos := List.length_pos_iff.mpr hw.1
      have hwide : u.length < s.bound := by omega
      obtain ⟨mark, hindex, hgap⟩ := plainGap_alone (s := s.behind w.length) start
        hspaces hblank (not_isSpaceOrBreak_of hwords.headD) hbehind rfl hwide
      obtain ⟨mark', leading', hindex', hrun⟩ := ih
        (s := (s.behind w.length).arrived v mark leading)
        (w.reverse ++ gap.fold.reverse ++ back) (s.behind w.length).mark fuel
        (by rwa [← List.append_assoc, List.getLast?_append_of_ne_nil _ hwords.ne_nil] at hcolon)
        (hasComment_of_blank hne hblank hmore)
        (hasMarker_of_spaces hspaces hblank (hasMarker_of_word hw hmarker)) rfl hflow
        (show v.length < s.bound by omega) (by omega)
      refine ⟨mark', leading', ?_, ?_⟩
      · rw [hindex', hlengths]
        show mark.index + v.length = _
        rw [hindex]
        show s.mark.index + w.length + u.length + v.length = _
        omega
      · rw [plainWords_word hw hend hafter hcomment hmarker hrest hflow]
        unfold plainTail
        rw [peek_bind, hbehind, if_pos hspace, fuel_bind]
        refine (bind_of_ok hgap _).trans ?_
        have hcolumn : ¬ ((!false) = true ∧ (mark.column : Int) < 0) := fun h =>
          absurd h.2 (by omega)
        show (if (!false) = true ∧ (mark.column : Int) < 0 then
            pure ((w.reverse ++ gap.fold.reverse ++ back).reverse, (s.behind w.length).mark)
          else plainWords start 0 fuel next (w.reverse ++ gap.fold.reverse ++ back)
            (s.behind w.length).mark : Scan (Text × Mark))
            ((s.behind w.length).arrived v mark leading) = _
        rw [if_neg hcolumn, hrun]
        simp
        rfl

end Parts

end Scan

end YamlEdit
