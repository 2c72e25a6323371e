import YamlEdit.Proofs.ByteOffsets
import YamlEdit.Proofs.TreeOffsets
import YamlEdit.Proofs.WrittenNames

/-!
# Where a flow collection ends

Behind its last entry a flow collection goes on with separators and comments up to its closing bracket
(`Extent.Gap`). Where the gap ends does not depend on what is in its comments (`Extent.Gap.unique`), but
it depends on what ends a line. The search for the bracket takes a comment to end at a line feed only.

The search can go over bytes (`Bytes.flowEnd`), from any offset. Each of its rounds goes further on in
the text (`Bytes.bracketRound_advances`), also through a comment that reaches the end of it.

Main statement: `Extent.flowEnd_closes_iff`.
-/

namespace YamlEdit

open Text

namespace Bytes

/-- The bytes of the separators. -/
def isSeparator (b : UInt8) : Bool :=
  b == ' '.toUInt8 || b == '\t'.toUInt8 || b == '\r'.toUInt8 || b == '\n'.toUInt8 ||
    b == ','.toUInt8

/-- The line feed that ends a comment, or the end of the text: the first one from `place` on. -/
def skipComment (bytes : Bytes) (place : Nat) : Nat :=
  match h : bytes[place]? with
  | none => place
  | some b => if b = '\n'.toUInt8 then place else skipComment bytes (place + 1)
termination_by bytes.length - place
decreasing_by
  have := (List.getElem?_eq_some_iff.mp h).1
  omega

/-- What a round of a search gives: where the next one starts, or what is found. -/
inductive Round where
  | next (place : Nat)
  | done (found : Option Nat)

/-- A round of the search for a closing bracket. -/
def bracketRound (bytes : Bytes) (closer : UInt8) (place : Nat) : Round :=
  match bytes[place]? with
  | none => .done none
  | some b =>
    if isSeparator b then .next (place + 1)
    else if b = '#'.toUInt8 then .next (skipComment bytes place)
    else if b = closer then .done (some (place + 1))
    else .done none

section Rounds

variable {bytes : Bytes} {closer b : UInt8} {place next : Nat}

theorem skipComment_of_le (h : bytes.length ≤ place) : skipComment bytes place = place := by
  rw [skipComment]
  split
  · rfl
  · next h' => cases (List.getElem?_eq_none h).symm.trans h'

theorem skipComment_of_lineFeed (h : bytes[place]? = some '\n'.toUInt8) :
    skipComment bytes place = place := by
  rw [skipComment]
  split
  · rfl
  · next h' =>
      cases h.symm.trans h'
      exact if_pos rfl

/-- A byte of a comment. -/
theorem skipComment_pass (hplace : place < bytes.length) (h : bytes[place]? ≠ some '\n'.toUInt8) :
    skipComment bytes place = skipComment bytes (place + 1) := by
  rw [skipComment]
  split
  · next h' => exact absurd (List.getElem?_eq_none_iff.mp h') (Nat.not_le_of_lt hplace)
  · next b h' =>
      refine if_neg ?_
      rintro rfl
      exact h h'

theorem skipComment_bounds (h : place ≤ bytes.length) :
    place ≤ skipComment bytes place ∧ skipComment bytes place ≤ bytes.length := by
  fun_induction skipComment bytes place with
  | case1 place _ => exact ⟨Nat.le_refl _, h⟩
  | case2 place _ => exact ⟨Nat.le_refl _, h⟩
  | case3 place b hb _ ih =>
      obtain ⟨hle, hlength⟩ := ih (List.getElem?_eq_some_iff.mp hb).1
      exact ⟨Nat.le_of_succ_le hle, hlength⟩

/-- **Every round of the search goes further on**, and none past the end of the text. -/
theorem bracketRound_advances (h : bracketRound bytes closer place = .next next) :
    place < next ∧ next ≤ bytes.length := by
  unfold bracketRound at h
  split at h
  · cases h
  next b hb =>
  have hplace := (List.getElem?_eq_some_iff.mp hb).1
  split at h
  · cases h
    exact ⟨Nat.lt_succ_self _, hplace⟩
  split at h
  · next hcomment =>
      cases h
      have hnot : bytes[place]? ≠ some '\n'.toUInt8 := by
        rw [hb, hcomment]
        decide
      rw [skipComment_pass hplace hnot]
      exact skipComment_bounds hplace
  split at h <;> cases h

end Rounds

/-- The search for the closing bracket of a flow collection, from the byte at `place` on: the offset
behind the bracket. -/
def bracketEnd (bytes : Bytes) (closer : UInt8) (place : Nat) : Option Nat :=
  match _h : bracketRound bytes closer place with
  | .next next => bracketEnd bytes closer next
  | .done found => found
termination_by bytes.length - place
decreasing_by
  have := bracketRound_advances _h
  omega

/-- Where the flow collection ends whose last entry ends at `place`. -/
def flowEnd (bytes : Bytes) (place : Nat) (closer : UInt8) : Nat :=
  (bracketEnd bytes closer place).getD place

section Texts

variable {x y t : Text} {c closer : Char} {place : Nat} {b : UInt8}

theorem bracketEnd_of_next {bytes : Bytes} {closer : UInt8} {next : Nat}
    (h : bracketRound bytes closer place = .next next) :
    bracketEnd bytes closer place = bracketEnd bytes closer next := by
  rw [bracketEnd]
  split
  · next h' =>
      cases h.symm.trans h'
      rfl
  · next h' => cases h.symm.trans h'

theorem bracketEnd_of_done {bytes : Bytes} {closer : UInt8} {found : Option Nat}
    (h : bracketRound bytes closer place = .done found) :
    bracketEnd bytes closer place = found := by
  rw [bracketEnd]
  split
  · next h' => cases h.symm.trans h'
  · next h' =>
      cases h.symm.trans h'
      rfl

/-- The byte at a character is that of an ASCII character if the character is. -/
theorem eq_toUInt8_iff (h : (x ++ c :: y).bytes[size x]? = some b) {a : Char}
    (ha : a.utf8Size = 1) : b = a.toUInt8 ↔ c = a := by
  have hiff := getElem?_bytes_iff (x := x) (y := c :: y) ha
  rw [h, List.head?_cons, Option.some.injEq, Option.some.injEq] at hiff
  exact hiff

theorem isSeparator_eq (h : (x ++ c :: y).bytes[size x]? = some b) :
    isSeparator b = Extent.isSeparator c := by
  have hiff : ∀ {a : Char}, a.utf8Size = 1 → (b == a.toUInt8) = (c == a) := fun ha => by
    rw [Bool.eq_iff_iff, beq_iff_eq, beq_iff_eq]
    exact eq_toUInt8_iff h ha
  rw [isSeparator, Extent.isSeparator, hiff rfl, hiff rfl, hiff rfl, hiff rfl, hiff rfl]

/-- A round of the search at a character. -/
theorem bracketRound_char (hcloser : closer.utf8Size = 1) :
    bracketRound (x ++ c :: y).bytes closer.toUInt8 (size x) =
      if Extent.isSeparator c then .next (size x + 1)
      else if c = '#' then .next (skipComment (x ++ c :: y).bytes (size x))
      else if c = closer then .done (some (size x + 1))
      else .done none := by
  unfold bracketRound
  split
  · next h =>
      rw [List.getElem?_eq_none_iff, length_bytes, size_append, size_cons] at h
      have := c.utf8Size_pos
      omega
  · next b h =>
      simp only [isSeparator_eq h, eq_toUInt8_iff h hcloser, eq_toUInt8_iff h (a := '#') rfl]

theorem bracketRound_of_le {bytes : Bytes} {closer : UInt8} (h : bytes.length ≤ place) :
    bracketRound bytes closer place = .done none := by
  unfold bracketRound
  rw [List.getElem?_eq_none h]

theorem utf8Size_of_isSeparator (h : Extent.isSeparator c = true) : c.utf8Size = 1 := by
  simp only [Extent.isSeparator, Bool.or_eq_true, beq_iff_eq] at h
  obtain (((rfl | rfl) | rfl) | rfl) | rfl := h <;> rfl

/-- The search passes over a separator. -/
theorem bracketEnd_separator (hcloser : closer.utf8Size = 1)
    (hc : Extent.isSeparator c = true) :
    bracketEnd (x ++ c :: y).bytes closer.toUInt8 (size x) =
      bracketEnd (x ++ c :: y).bytes closer.toUInt8 (size (x ++ [c])) := by
  rw [bracketEnd_of_next ((bracketRound_char hcloser).trans (if_pos hc)), size_concat,
    utf8Size_of_isSeparator hc]

/-- A comment goes on to the end of each of its characters. -/
theorem skipComment_char (hc : c ≠ '\n') :
    skipComment (x ++ c :: y).bytes (size x) =
      skipComment (x ++ c :: y).bytes (size (x ++ [c])) := by
  refine eq_behind_char (k := 0) (Nat.zero_le _) fun j _ hlt => skipComment_pass ?_ ?_
  · rw [length_bytes, size_append, size_cons]
    omega
  · rw [Ne, getElem?_bytes_eq_iff rfl hlt]
    exact fun h => hc h.2

/-- **The search over bytes is the one over characters**, in a comment and outside. -/
theorem bracketEnd_eq (hcloser : closer.utf8Size = 1) (inComment : Bool) (x t : Text) :
    bracketEnd (x ++ t).bytes closer.toUInt8
        (if inComment then skipComment (x ++ t).bytes (size x) else size x) =
      (Extent.afterCloser closer inComment t).map fun rest => size (x ++ t) - size rest := by
  fun_induction Extent.afterCloser closer inComment t generalizing x with
  | case1 inComment =>
      have hlength : (x ++ []).bytes.length ≤ size x :=
        Nat.le_of_eq (by rw [List.append_nil, length_bytes])
      rw [skipComment_of_le hlength, ite_self]
      exact bracketEnd_of_done (bracketRound_of_le hlength)
  | case2 c t ih =>
      have hrest := ih (x ++ [c])
      rw [List.append_assoc, List.singleton_append] at hrest
      rw [if_pos rfl]
      by_cases hc : c = '\n'
      · -- the line feed is left to the next round
        subst hc
        have hfeed : skipComment (x ++ '\n' :: t).bytes (size x) = size x :=
          skipComment_of_lineFeed ((getElem?_bytes_iff rfl).mpr rfl)
        rw [hfeed, bracketEnd_separator hcloser rfl]
        exact hrest
      · rw [if_pos (by simpa using hc)] at hrest
        rw [skipComment_char hc, hrest]
  | case3 c t hc ih =>
      have hrest := ih (x ++ [c])
      rw [List.append_assoc, List.singleton_append] at hrest
      exact (bracketEnd_separator hcloser hc).trans hrest
  | case4 t hc ih =>
      have hround := bracketRound_char (x := x) (y := t) (c := '#') hcloser
      rw [if_neg hc, if_pos rfl] at hround
      have hrest := ih (x ++ ['#'])
      rw [List.append_assoc, List.singleton_append, if_pos rfl] at hrest
      refine (bracketEnd_of_next hround).trans ?_
      rw [skipComment_char (by decide), hrest]
  | case5 t hc hcomment =>
      have hround := bracketRound_char (x := x) (y := t) (c := closer) hcloser
      rw [if_neg hc, if_neg hcomment, if_pos rfl] at hround
      refine (bracketEnd_of_done hround).trans ?_
      rw [Option.map_some, size_append, size_cons, hcloser, ← Nat.add_assoc, Nat.add_sub_cancel]
  | case6 c t hc hcomment hother =>
      have hround := bracketRound_char (x := x) (y := t) (c := c) hcloser
      rw [if_neg hc, if_neg hcomment, if_neg hother] at hround
      exact bracketEnd_of_done hround

/-- **Inside of a character the search finds nothing.** -/
theorem bracketEnd_of_not_isBoundary (hcloser : closer.utf8Size = 1) (h : ¬ t.IsBoundary place) :
    bracketEnd t.bytes closer.toUInt8 place = none := by
  refine bracketEnd_of_done ?_
  unfold bracketRound
  split
  · rfl
  next b hb =>
  have hne : ∀ {a : Char}, a.utf8Size = 1 → b ≠ a.toUInt8 := fun ha hba =>
    getElem?_bytes_ne_of_not_isBoundary ha h (hba ▸ hb)
  have hseparator : ¬ isSeparator b = true := by
    simp only [isSeparator, Bool.or_eq_true, beq_iff_eq, not_or]
    exact ⟨⟨⟨⟨hne rfl, hne rfl⟩, hne rfl⟩, hne rfl⟩, hne rfl⟩
  rw [if_neg hseparator, if_neg (hne rfl), if_neg (hne hcloser)]

end Texts

end Bytes

namespace Extent

/-! ## What stands in front of the bracket -/

/-- What may stand between the last entry of a flow collection and its closing bracket: separators, and
comments that go on to the end of their line, with anything in them. -/
inductive Gap (endsLine : Char → Bool) : Text → Prop where
  | nil : Gap endsLine []
  | separator {c : Char} {t : Text} (is : isSeparator c = true) (rest : Gap endsLine t) :
      Gap endsLine (c :: t)
  | comment {u t : Text} {c : Char} (inside : ∀ d ∈ u, endsLine d = false)
      (stop : endsLine c = true) (rest : Gap endsLine (c :: t)) :
      Gap endsLine ('#' :: (u ++ c :: t))

/-- A line feed. -/
def isLineFeed (c : Char) : Bool := c == '\n'

section Gap

variable {endsLine : Char → Bool} {c closer : Char} {u g g' t r r' rest : Text}

theorem Gap.of_separator (h : Gap endsLine (c :: t)) (hc : isSeparator c = true) :
    Gap endsLine t := by
  cases h with
  | separator _ h => exact h
  | comment => cases hc

/-- Two texts that are cut at the first character that ends a line are cut at the same place. -/
theorem append_inj_of_stops {c' : Char} {u' : Text} (hu : ∀ d ∈ u, endsLine d = false)
    (hc : endsLine c = true) (hu' : ∀ d ∈ u', endsLine d = false) (hc' : endsLine c' = true)
    (h : u ++ c :: t = u' ++ c' :: r) : u = u' ∧ c :: t = c' :: r := by
  have hfirst : ∀ {u t : Text} {c : Char}, (∀ d ∈ u, endsLine d = false) → endsLine c = true →
      (u ++ c :: t).takeWhile (!endsLine ·) = u := fun hu hc =>
    (takeWhile_dropWhile_iff.mpr
      ⟨rfl, fun d hd => by rw [hu d hd]; rfl, fun d hd => by cases hd; rw [hc]; rfl⟩).1
  obtain rfl : u = u' := by rw [← hfirst hu hc (t := t), h, hfirst hu' hc']
  exact ⟨rfl, List.append_cancel_left h⟩

/-- **A gap ends at the first bracket behind it**, whatever its comments hold. -/
theorem Gap.unique (hseparator : isSeparator closer = false) (hcomment : closer ≠ '#')
    (h : Gap endsLine g) (h' : Gap endsLine g') (heq : g ++ closer :: r = g' ++ closer :: r') :
    g = g' := by
  induction h generalizing g' with
  | nil =>
      cases h' with
      | nil => rfl
      | separator hc =>
          cases heq
          cases hseparator.symm.trans hc
      | comment =>
          cases heq
          exact absurd rfl hcomment
  | separator hc _ ih =>
      cases h' with
      | nil =>
          cases heq
          cases hseparator.symm.trans hc
      | separator _ hrest' =>
          obtain ⟨rfl, htail⟩ := List.cons.inj heq
          rw [ih hrest' htail]
      | comment =>
          obtain ⟨rfl, -⟩ := List.cons.inj heq
          cases hc
  | @comment u t c hu hc _ ih =>
      cases h' with
      | nil =>
          cases heq
          exact absurd rfl hcomment
      | separator hc' =>
          obtain ⟨rfl, -⟩ := List.cons.inj heq
          cases hc'
      | @comment u' t' c' hu' hc' hrest' =>
          -- both comments end at the first character that ends a line
          have htail : u ++ c :: (t ++ closer :: r) = u' ++ c' :: (t' ++ closer :: r') := by
            simpa using heq
          obtain ⟨rfl, hbehind⟩ := append_inj_of_stops hu hc hu' hc' htail
          rw [ih hrest' hbehind]

/-- A gap that starts with a comment. -/
theorem gap_comment_iff :
    Gap endsLine ('#' :: t) ↔ ∃ u c rest, t = u ++ c :: rest ∧ (∀ d ∈ u, endsLine d = false) ∧
      endsLine c = true ∧ Gap endsLine (c :: rest) := by
  constructor
  · generalize htext : '#' :: t = text
    intro h
    cases h with
    | nil => cases htext
    | separator hc =>
        obtain ⟨rfl, -⟩ := List.cons.inj htext
        cases hc
    | comment hu hc hrest =>
        obtain ⟨-, rfl⟩ := List.cons.inj htext
        exact ⟨_, _, _, rfl, hu, hc, hrest⟩
  · rintro ⟨u, c, rest, rfl, hu, hc, hrest⟩
    exact .comment hu hc hrest

/-- One more character in front of what a comment holds. -/
theorem Gap.comment_cons (h : Gap endsLine ('#' :: t)) (hc : endsLine c = false) :
    Gap endsLine ('#' :: c :: t) := by
  obtain ⟨u, d, rest, rfl, hu, hd, hrest⟩ := gap_comment_iff.mp h
  exact gap_comment_iff.mpr
    ⟨c :: u, d, rest, rfl, List.forall_mem_cons.mpr ⟨hc, hu⟩, hd, hrest⟩

/-! ## The search -/

theorem afterCloser_comment (hu : ∀ d ∈ u, isLineFeed d = false) :
    afterCloser closer true (u ++ t) = afterCloser closer true t := by
  induction u with
  | nil => rfl
  | cons d u ih =>
      obtain ⟨hd, hrest⟩ := List.forall_mem_cons.mp hu
      have hstill : (d != '\n') = true := by simpa [isLineFeed] using hd
      rw [List.cons_append, afterCloser, hstill, ih hrest]

/-- The search passes over a gap. -/
theorem afterCloser_of_gap (h : Gap isLineFeed g) :
    afterCloser closer false (g ++ t) = afterCloser closer false t := by
  induction h with
  | nil => rfl
  | separator hc _ ih =>
      rw [List.cons_append, afterCloser, if_pos hc]
      exact ih
  | @comment u t' c hu hc _ ih =>
      obtain rfl : c = '\n' := by simpa [isLineFeed] using hc
      -- the line feed is left by the comment, and passed over as a separator
      rw [← ih, List.cons_append, List.append_assoc, List.cons_append, afterCloser, if_neg (by decide),
        if_pos rfl, afterCloser_comment hu]
      rfl

/-- A search that ends found a gap; one that starts in a comment found the rest of it as well. -/
theorem gap_of_afterCloser {inComment : Bool} (h : afterCloser closer inComment t = some r) :
    ∃ g, t = g ++ closer :: r ∧ Gap isLineFeed (if inComment then '#' :: g else g) := by
  fun_induction afterCloser closer inComment t with
  | case1 => cases h
  | case2 c t ih =>
      obtain ⟨g, rfl, hgap⟩ := ih h
      refine ⟨c :: g, rfl, ?_⟩
      by_cases hc : c = '\n'
      · subst hc
        exact .comment (List.forall_mem_nil _) rfl (.separator rfl hgap)
      · rw [if_pos (by simpa using hc)] at hgap
        exact hgap.comment_cons (by simpa [isLineFeed] using hc)
  | case3 c t hc ih =>
      obtain ⟨g, rfl, hgap⟩ := ih h
      exact ⟨c :: g, rfl, .separator hc hgap⟩
  | case4 t _ ih =>
      obtain ⟨g, rfl, hgap⟩ := ih h
      exact ⟨'#' :: g, rfl, hgap⟩
  | case5 t _ _ =>
      cases h
      exact ⟨[], rfl, .nil⟩
  | case6 => cases h

/-- The search finds the bracket behind a gap, and no other one. -/
theorem afterCloser_eq_some_iff (hseparator : isSeparator closer = false) (hcomment : closer ≠ '#') :
    afterCloser closer false t = some r ↔ ∃ g, t = g ++ closer :: r ∧ Gap isLineFeed g := by
  constructor
  · exact gap_of_afterCloser
  · rintro ⟨g, rfl, hgap⟩
    rw [afterCloser_of_gap hgap, afterCloser, if_neg (by simp [hseparator]), if_neg hcomment,
      if_pos rfl]

end Gap

/-! ## The end of a flow collection -/

/-- Where a flow collection ends whose last entry ends at `place`: behind the bracket that closes it,
or right there if no bracket stands behind a gap. -/
inductive EndsFlow (endsLine : Char → Bool) (source : Text) (place : Nat) (closer : Char) :
    Nat → Prop where
  | closed {x g y : Text} (split : source = x ++ (g ++ closer :: y)) (start : size x = place)
      (gap : Gap endsLine g) : EndsFlow endsLine source place closer (place + size g + 1)
  | fallback
      (none : ∀ x g y, source = x ++ (g ++ closer :: y) → size x = place → ¬ Gap endsLine g) :
      EndsFlow endsLine source place closer place

section EndsFlow

variable {endsLine endsLine' : Char → Bool} {source x g y : Text} {isMapping : Bool}
  {place n n' : Nat}

theorem isSeparator_closingBracket (isMapping : Bool) :
    isSeparator (closingBracket isMapping) = false := by
  cases isMapping <;> rfl

theorem closingBracket_ne_hash (isMapping : Bool) : closingBracket isMapping ≠ '#' := by
  cases isMapping <;> decide

/-- The gap in front of the bracket is the one up to the end. -/
theorem EndsFlow.gap_iff (h : EndsFlow endsLine source place (closingBracket isMapping) n)
    (split : source = x ++ (g ++ closingBracket isMapping :: y)) (start : size x = place) :
    Gap endsLine g ↔ n = place + size g + 1 := by
  cases h with
  | @closed x' g' y' split' start' gap =>
      obtain ⟨-, htail⟩ := append_inj_of_size (split.symm.trans split') (start.trans start'.symm)
      constructor
      · intro hgap
        rw [Gap.unique (isSeparator_closingBracket isMapping) (closingBracket_ne_hash isMapping) hgap
          gap htail]
      · intro hsize
        obtain ⟨rfl, -⟩ := append_inj_of_size htail (by omega)
        exact gap
  | fallback none =>
      constructor
      · exact fun hgap => absurd hgap (none x g y split start)
      · intro hsize
        omega

/-- A flow collection ends somewhere. -/
theorem exists_endsFlow (endsLine : Char → Bool) (source : Text) (place : Nat) (closer : Char) :
    ∃ n, EndsFlow endsLine source place closer n := by
  by_cases h : ∃ x g y, source = x ++ (g ++ closer :: y) ∧ size x = place ∧ Gap endsLine g
  · obtain ⟨x, g, y, split, start, gap⟩ := h
    exact ⟨_, .closed split start gap⟩
  · exact ⟨place, .fallback fun x g y split start gap => h ⟨x, g, y, split, start, gap⟩⟩

/-- **A flow collection ends at one place only.** -/
theorem EndsFlow.unique (h : EndsFlow endsLine source place (closingBracket isMapping) n)
    (h' : EndsFlow endsLine source place (closingBracket isMapping) n') : n = n' := by
  cases h' with
  | closed split start gap => exact (h.gap_iff split start).mp gap
  | fallback none =>
      cases h with
      | closed split start gap => exact absurd gap (none _ _ _ split start)
      | fallback => rfl

/-- What ends a line matters to the end of a collection only if it matters to a gap. -/
theorem EndsFlow.iff_gap_iff (h : EndsFlow endsLine source place (closingBracket isMapping) n) :
    EndsFlow endsLine' source place (closingBracket isMapping) n ↔
      ∀ x g y, source = x ++ (g ++ closingBracket isMapping :: y) → size x = place →
        (Gap endsLine' g ↔ Gap endsLine g) := by
  constructor
  · intro h' x g y split start
    rw [h'.gap_iff split start, h.gap_iff split start]
  · intro hiff
    cases h with
    | closed split start gap => exact .closed split start ((hiff _ _ _ split start).mpr gap)
    | fallback none =>
        exact .fallback fun x g y split start gap =>
          none x g y split start ((hiff x g y split start).mp gap)

/-- In front of a bracket, carriage returns in front of line feeds are the same as line feeds alone. -/
theorem gap_isLineFeed_iff (hreturn : ∀ u v, g = u ++ '\r' :: v → v.head? = some '\n') :
    Gap isLineFeed g ↔ Gap Token.isBreak g := by
  constructor
  · intro h
    induction h with
    | nil => exact .nil
    | @separator c t hc _ ih =>
        exact .separator hc (ih fun u v huv => hreturn (c :: u) v (by rw [huv]; rfl))
    | @comment u t c hu hc hrest ih =>
        have hbehind := ih fun u' v huv =>
          hreturn ('#' :: u ++ u') v (by rw [huv, List.append_assoc]; rfl)
        obtain rfl : c = '\n' := by simpa [isLineFeed] using hc
        by_cases hmem : '\r' ∈ u
        · -- the carriage return in front of the line feed ends the line
          obtain ⟨u, v, rfl, hfront⟩ := List.eq_append_cons_of_mem hmem
          have hhead := hreturn ('#' :: u) (v ++ '\n' :: t) (by simp)
          cases v with
          | nil =>
              rw [List.append_assoc]
              refine .comment (fun d hd => ?_) rfl (.separator rfl hbehind)
              have hfeed := hu d (List.mem_append_left _ hd)
              have hne : d ≠ '\r' := fun h => hfront (h ▸ hd)
              simpa [Token.isBreak, isLineFeed, hne] using hfeed
          | cons d v =>
              cases hhead
              cases hu '\n' (by simp)
        · refine .comment (fun d hd => ?_) rfl hbehind
          have hne : d ≠ '\r' := fun h => hmem (h ▸ hd)
          simpa [Token.isBreak, isLineFeed, hne] using hu d hd
  · intro h
    induction h with
    | nil => exact .nil
    | @separator c t hc _ ih =>
        exact .separator hc (ih fun u v huv => hreturn (c :: u) v (by rw [huv]; rfl))
    | @comment u t c hu hc hrest ih =>
        have hbehind := ih fun u' v huv =>
          hreturn ('#' :: u ++ u') v (by rw [huv, List.append_assoc]; rfl)
        have hfeed : ∀ d ∈ u, isLineFeed d = false := fun d hd =>
          (Bool.or_eq_false_iff.mp (hu d hd)).1
        obtain hc | hc : c = '\n' ∨ c = '\r' := by simpa [Token.isBreak] using hc
        · exact .comment hfeed (beq_iff_eq.mpr hc) hbehind
        · -- the comment takes the carriage return and ends at the line feed
          subst hc
          obtain ⟨v, rfl⟩ := List.head?_eq_some_iff.mp (hreturn ('#' :: u) t rfl)
          have hlast : ∀ d ∈ u ++ ['\r'], isLineFeed d = false := fun d hd => by
            obtain hd | hd := List.mem_append.mp hd
            · exact hfeed d hd
            · rw [List.mem_singleton.mp hd]
              rfl
          rw [List.append_cons]
          exact .comment hlast rfl (hbehind.of_separator rfl)

/-- **Over bytes, the search finds the end of the collection**, wherever it starts. -/
theorem endsFlow_flowEnd (source : Text) (place : Nat) (isMapping : Bool) :
    EndsFlow isLineFeed source place (closingBracket isMapping)
      (Bytes.flowEnd source.bytes place (closingBracket isMapping).toUInt8) := by
  have hone := utf8Size_closingBracket isMapping
  by_cases hplace : source.IsBoundary place
  · obtain ⟨x, t, rfl, rfl⟩ := hplace
    have hscan := Bytes.bracketEnd_eq hone false x t
    rw [if_neg nofun] at hscan
    rw [Bytes.flowEnd, hscan]
    have hiff := fun r => afterCloser_eq_some_iff (t := t) (r := r) (isSeparator_closingBracket isMapping)
      (closingBracket_ne_hash isMapping)
    cases hafter : afterCloser (closingBracket isMapping) false t with
    | none =>
        refine .fallback fun x' g y split start gap => ?_
        obtain ⟨-, htail⟩ := append_inj_of_size split start.symm
        cases hafter.symm.trans ((hiff y).mpr ⟨g, htail, gap⟩)
    | some r =>
        obtain ⟨g, rfl, gap⟩ := (hiff r).mp hafter
        have hend : size (x ++ (g ++ closingBracket isMapping :: r)) - size r =
            size x + size g + 1 := by
          rw [size_append, size_append, size_cons, hone]
          omega
        rw [Option.map_some, hend]
        exact .closed rfl rfl gap
  · rw [Bytes.flowEnd, Bytes.bracketEnd_of_not_isBoundary hone hplace]
    refine .fallback ?_
    rintro x g y rfl rfl
    exact absurd isBoundary_append hplace

/-- The search over bytes and the one over characters agree on where the collection ends. -/
theorem flowEnd_eq_bytes (h : source.IsBoundary place) (isMapping : Bool) :
    flowEnd source place (closingBracket isMapping) =
      .ok (Bytes.flowEnd source.bytes place (closingBracket isMapping).toUInt8) := by
  obtain ⟨x, t, rfl, rfl⟩ := h
  have hscan := Bytes.bracketEnd_eq (utf8Size_closingBracket isMapping) false x t
  rw [if_neg nofun] at hscan
  unfold flowEnd
  rw [dropBytes_append, Bytes.flowEnd, hscan]
  refine congrArg Except.ok ?_
  cases hafter : afterCloser (closingBracket isMapping) false t with
  | none => rfl
  | some rest =>
      obtain ⟨front, rfl⟩ := suffix_of_afterCloser hafter
      rw [Option.map_some, Option.getD_some, size_append x]
      exact (Nat.add_sub_assoc (by rw [size_append, size_cons]; omega) _).symm

/-- Where every carriage return stands in front of a line feed, line feeds end all lines. -/
theorem endsFlow_isLineFeed_iff (hreturn : ∀ u v, source = u ++ '\r' :: v → v.head? = some '\n') :
    EndsFlow isLineFeed source place (closingBracket isMapping) n ↔
      EndsFlow Token.isBreak source place (closingBracket isMapping) n := by
  have hgap : ∀ x g y, source = x ++ (g ++ closingBracket isMapping :: y) → size x = place →
      (Gap isLineFeed g ↔ Gap Token.isBreak g) := by
    rintro x g y rfl -
    refine gap_isLineFeed_iff fun u v hg => ?_
    subst hg
    have hhead := hreturn (x ++ u) (v ++ closingBracket isMapping :: y) (by simp)
    cases v with
    | nil => cases isMapping <;> cases hhead
    | cons c v => exact hhead
  exact ⟨fun h => h.iff_gap_iff.mpr fun x g y split start => (hgap x g y split start).symm,
    fun h => h.iff_gap_iff.mpr hgap⟩

end EndsFlow

/-- **The end of a flow collection** is searched for from any offset, over bytes, and in rounds that go
further on. It is found behind the closing bracket if only separators and comments that end at a line
feed come first, and it is the offset itself otherwise. As lines also end at carriage returns, that is
where the collection ends exactly if no comment in front of a bracket tells the two apart; none does if
every carriage return stands in front of a line feed. -/
theorem flowEnd_closes_iff (source : Text) (place : Nat) (isMapping : Bool) :
    (∀ n, Bytes.flowEnd source.bytes place (closingBracket isMapping).toUInt8 = n ↔
        EndsFlow isLineFeed source place (closingBracket isMapping) n) ∧
      (source.IsBoundary place → flowEnd source place (closingBracket isMapping) =
        .ok (Bytes.flowEnd source.bytes place (closingBracket isMapping).toUInt8)) ∧
      (∀ here next, Bytes.bracketRound source.bytes (closingBracket isMapping).toUInt8 here =
        .next next → here < next ∧ next ≤ size source) ∧
      (∃ n, (∀ m, EndsFlow Token.isBreak source place (closingBracket isMapping) m ↔ m = n) ∧
        (Bytes.flowEnd source.bytes place (closingBracket isMapping).toUInt8 = n ↔
          ∀ x g y, source = x ++ (g ++ closingBracket isMapping :: y) → size x = place →
            (Gap isLineFeed g ↔ Gap Token.isBreak g))) ∧
      ((∀ u v, source = u ++ '\r' :: v → v.head? = some '\n') → ∀ n,
        (Bytes.flowEnd source.bytes place (closingBracket isMapping).toUInt8 = n ↔
          EndsFlow Token.isBreak source place (closingBracket isMapping) n)) := by
  have hfound := endsFlow_flowEnd source place isMapping
  have hends : ∀ n, Bytes.flowEnd source.bytes place (closingBracket isMapping).toUInt8 = n ↔
      EndsFlow isLineFeed source place (closingBracket isMapping) n := by
    intro n
    constructor
    · rintro rfl
      exact hfound
    · exact hfound.unique
  obtain ⟨n, hn⟩ := exists_endsFlow Token.isBreak source place (closingBracket isMapping)
  refine ⟨hends, fun h => flowEnd_eq_bytes h isMapping, fun here next h => ?_,
    ⟨n, fun m => ⟨fun hm => hm.unique hn, ?_⟩, ?_⟩, fun hreturn n => ?_⟩
  · rw [← length_bytes]
    exact Bytes.bracketRound_advances h
  · rintro rfl
    exact hn
  · rw [hends]
    exact hn.iff_gap_iff
  · rw [hends]
    exact endsFlow_isLineFeed_iff hreturn

/-- A comment that holds a bracket and ends at a carriage return in front of a line feed, in a collection
whose entry takes two bytes. -/
theorem flowEnd_closes_iff_comment :
    EndsFlow Token.isBreak "[é # ]\r\n]".toList 3 ']' 10 ∧
      flowEnd "[é # ]\r\n]".toList 3 ']' = .ok 10 ∧
      Bytes.bracketRound (bytes "[é # ]\r\n]".toList) ']'.toUInt8 3 = .next 4 ∧ 3 < 4 ∧
      Gap isLineFeed " # ]\r\n".toList := by
  have hgap : Gap Token.isBreak " # ]\r\n".toList :=
    .separator rfl (.comment (u := [' ', ']']) (t := ['\n']) (by simp [Token.isBreak]) rfl
      (.separator rfl (.separator rfl .nil)))
  have hends : EndsFlow Token.isBreak "[é # ]\r\n]".toList 3 ']' 10 :=
    .closed (x := ['[', 'é']) (y := []) rfl rfl hgap
  have hreturn : ∀ u v, "[é # ]\r\n]".toList = u ++ '\r' :: v → v.head? = some '\n' := by
    intro u v h
    have hnext : ∀ k < 9, "[é # ]\r\n]".toList[k]? = some '\r' →
        "[é # ]\r\n]".toList[k + 1]? = some '\n' := by decide
    have hlength := congrArg List.length h
    rw [List.length_append, List.length_cons] at hlength
    have hhead := hnext u.length (by simp at hlength; omega) (by rw [h]; simp)
    rw [h, List.append_cons, List.getElem?_append_right (by simp)] at hhead
    simpa [List.head?_eq_getElem?] using hhead
  have hround : Bytes.bracketRound (bytes "[é # ]\r\n]".toList) ']'.toUInt8 3 = .next 4 := rfl
  obtain ⟨-, hbytes, hadvances, ⟨n, hplace, hexact⟩, hfeeds⟩ :=
    flowEnd_closes_iff "[é # ]\r\n]".toList 3 false
  have hend := (hfeeds hreturn 10).mpr hends
  have hfound := hbytes ⟨['[', 'é'], _, rfl, rfl⟩
  rw [hend] at hfound
  exact ⟨hends, hfound, hround, (hadvances 3 4 hround).1,
    (hexact.mp (hend.trans ((hplace 10).mp hends)) ['[', 'é'] _ [] rfl rfl).mpr hgap⟩

/-- A comment that ends at a carriage return alone hides the bracket behind it: the text loads, and the
sequence in it is taken to end behind its entry. -/
theorem flowEnd_misses_bracket :
    EndsFlow Token.isBreak "[a # c\r]\n".toList 2 (closingBracket false) 8 ∧
      flowEnd "[a # c\r]\n".toList 2 (closingBracket false) = .ok 2 ∧
      ∃ s, Snapshot.ofText "[a # c\r]\n".toList = .ok s ∧
        (s.tree.root.descendant? [0, 0]).map
            (fun n => (n.kind, n.children.length, (s.textOf n).toOption)) =
          some (.sequence .flow, 1, some "[a".toList) := by
  obtain ⟨e, hload, hnode⟩ := Editor.exists_load "[a # c\r]\n".toList
    (P := fun e => (e.snapshot.tree.root.descendant? [0, 0]).map
        (fun n => (n.kind, n.children.length, (e.snapshot.textOf n).toOption)) =
      some (.sequence .flow, 1, some "[a".toList)) (by decide +kernel)
  refine ⟨?_, by decide, e.snapshot, (Editor.load_eq_ok hload).1, hnode⟩
  have hgap : Gap Token.isBreak " # c\r".toList :=
    .separator rfl (.comment (u := [' ', 'c']) (t := []) (by simp [Token.isBreak]) rfl
      (.separator rfl .nil))
  exact .closed (x := ['[', 'a']) (y := ['\n']) rfl rfl hgap

end Extent

end YamlEdit
