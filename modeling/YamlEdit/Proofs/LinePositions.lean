import YamlEdit.Proofs.LineEdits

/-!
# Offsets, lines and columns

The lines of a text start one behind the other (`LineIndex.lineStart_lt`), so every place of the
text is on one line, and on no other (`LineIndex.OnLine.line_eq`). The position of a place is that
line with the distance from its start. Main statement: `LineIndex.positions_of_places`, positions of
a text and places in it are the same thing, in the same order.
-/

namespace YamlEdit

/-- Whether a line feed stands at a place. -/
def Text.FeedAt (t : Text) (place : Nat) : Prop := ∃ x y, t = x ++ '\n' :: y ∧ size x = place

/-- The first line feed at or behind a place. -/
structure Text.NextFeed (t : Text) (place feed : Nat) : Prop where
  feedAt : t.FeedAt feed
  le : place ≤ feed
  least : ∀ other, t.FeedAt other → place ≤ other → feed ≤ other

theorem Text.NextFeed.eq {t : Text} {place feed other : Nat} (h : t.NextFeed place feed)
    (h' : t.NextFeed place other) : feed = other :=
  Nat.le_antisymm (h.least other h'.feedAt h'.le) (h'.least feed h.feedAt h.le)

/-- Whether a position comes in front of another one: on an earlier line, or earlier on the same
one. -/
def Position.Before (p q : Position) : Prop :=
  p.line < q.line ∨ p.line = q.line ∧ p.column < q.column

instance (p q : Position) : Decidable (p.Before q) := inferInstanceAs (Decidable (_ ∨ _))

namespace LineIndex

/-- Whether a place is on a line: not in front of it, and in front of the next one if there is
one. -/
structure OnLine (index : LineIndex) (k place : Nat) : Prop where
  line : k < index.lineCount
  start : index.lineStart k ≤ place
  stop : k + 1 < index.lineCount → place < index.lineStart (k + 1)

/-- The place that a position stands for, were the text long enough. -/
def placeOf (index : LineIndex) (p : Position) : Nat := index.lineStart p.line + p.column

/-- A position whose line is there and whose column is on that line. -/
structure Has (index : LineIndex) (p : Position) : Prop where
  onLine : index.OnLine p.line (index.placeOf p)
  le : index.placeOf p ≤ index.size

section Lines

variable {t : Text} {i k k' place : Nat} {p q : Position}

/-! ## Where lines start -/

theorem pairwise_startsAfter (offset : Nat) (t : Text) :
    (startsAfter offset t).Pairwise (· < ·) := by
  induction t generalizing offset with
  | nil => exact .nil
  | cons c t ih =>
      rw [startsAfter]
      split
      · exact .cons (fun n hn => (bounds_of_mem_startsAfter hn).1) (ih _)
      · exact ih _

theorem pairwise_lineStarts (t : Text) : (ofText t).lineStarts.Pairwise (· < ·) :=
  .cons (fun _ hn => (bounds_of_mem_startsAfter hn).1) (pairwise_startsAfter 0 t)

/-- The start of a line that is there. -/
theorem getElem?_lineStarts (h : k < (ofText t).lineCount) :
    (ofText t).lineStarts[k]? = some ((ofText t).lineStart k) := by
  rw [lineStart, List.getD_eq_getElem?_getD, List.getElem?_eq_getElem h, Option.getD_some]

theorem lineStart_eq_of_getElem? (h : (ofText t).lineStarts[k]? = some place) :
    k < (ofText t).lineCount ∧ (ofText t).lineStart k = place := by
  obtain ⟨hk, -⟩ := List.getElem?_eq_some_iff.mp h
  exact ⟨hk, Option.some.inj ((getElem?_lineStarts hk).symm.trans h)⟩

/-- **Lines start one behind the other.** -/
theorem lineStart_lt (hk : i < k) (h : k < (ofText t).lineCount) :
    (ofText t).lineStart i < (ofText t).lineStart k := by
  have hi := getElem?_lineStarts (hk.trans h)
  have hk' := getElem?_lineStarts h
  rw [List.getElem?_eq_some_iff] at hi hk'
  obtain ⟨hi, hieq⟩ := hi
  obtain ⟨hk', hkeq⟩ := hk'
  rw [← hieq, ← hkeq]
  exact List.pairwise_iff_getElem.mp (pairwise_lineStarts t) i k hi hk' hk

theorem lineStart_mono (hk : i ≤ k) (h : k < (ofText t).lineCount) :
    (ofText t).lineStart i ≤ (ofText t).lineStart k := by
  rcases Nat.lt_or_eq_of_le hk with hlt | rfl
  · exact Nat.le_of_lt (lineStart_lt hlt h)
  · exact Nat.le_refl _

/-- A line past the last one starts at the end of the text. -/
theorem lineStart_of_le (h : (ofText t).lineCount ≤ k) : (ofText t).lineStart k = Text.size t := by
  rw [lineStart, List.getD_eq_getElem?_getD, List.getElem?_eq_none_iff.mpr h]
  rfl

/-- **Behind every line feed a line starts**, and nowhere else but at the start of the text. -/
theorem mem_startsAfter_iff : place + 1 ∈ startsAfter 0 t ↔ t.FeedAt place := by
  constructor
  · intro h
    obtain ⟨front, back, rfl, hsize⟩ := exists_of_mem_startsAfter h
    refine ⟨front, back, by simp, ?_⟩
    rw [Text.size_append, Text.size_cons, Text.size_nil] at hsize
    have : '\n'.utf8Size = 1 := rfl
    omega
  · rintro ⟨x, y, rfl, rfl⟩
    rw [startsAfter_append, startsAfter, if_pos rfl, List.mem_append, Nat.zero_add]
    exact .inr List.mem_cons_self

/-! ## The line of a place -/

/-- A place is on one line only. -/
theorem OnLine.line_eq (h : (ofText t).OnLine k place) (h' : (ofText t).OnLine k' place) :
    k = k' := by
  -- the next line starts behind the place, so the later of two lines would start behind it as well
  have hle : ∀ {i j}, (ofText t).OnLine i place → (ofText t).OnLine j place → j ≤ i := by
    intro i j hi hj
    by_contra hlt
    have hline := hj.line
    have hnext := hi.stop (by omega)
    have hstarts := lineStart_mono (t := t) (show i + 1 ≤ j by omega) hline
    have hstart := hj.start
    omega
  exact Nat.le_antisymm (hle h' h) (hle h h')

/-- **The position of a place** is on the line of that place. -/
theorem onLine_position (h : place ≤ Text.size t) :
    (ofText t).OnLine ((ofText t).position place).line place ∧
      (ofText t).placeOf ((ofText t).position place) = place := by
  obtain ⟨k, start, hposition, hstart, hle, hnext⟩ := position_eq h
  obtain ⟨hk, rfl⟩ := lineStart_eq_of_getElem? hstart
  rw [hposition]
  refine ⟨⟨hk, hle, fun hk => hnext _ (getElem?_lineStarts hk)⟩, ?_⟩
  show (ofText t).lineStart k + (place - (ofText t).lineStart k) = place
  omega

theorem has_position (h : place ≤ Text.size t) : (ofText t).Has ((ofText t).position place) := by
  obtain ⟨honLine, hplace⟩ := onLine_position h
  exact ⟨hplace.symm ▸ honLine, hplace.symm ▸ h⟩

/-- **Positions are in the order of the places** that they stand for. -/
theorem Has.before (hp : (ofText t).Has p) (hq : (ofText t).Has q)
    (h : (ofText t).placeOf p < (ofText t).placeOf q) : p.Before q := by
  rcases Nat.lt_trichotomy p.line q.line with hlt | heq | hgt
  · exact .inl hlt
  · refine .inr ⟨heq, ?_⟩
    unfold placeOf at h
    rw [heq] at h
    omega
  · -- the line of `q` ends in front of that of `p`
    have hline := hp.onLine.line
    have hnext := hq.onLine.stop (by omega)
    have hstarts := lineStart_mono (t := t) (show q.line + 1 ≤ p.line by omega) hline
    have hstart := hp.onLine.start
    omega

/-- **A position is that of the place it stands for.** -/
theorem Has.position_offset (hp : (ofText t).Has p) :
    (ofText t).position ((ofText t).offset p) = p := by
  have hoffset : (ofText t).offset p = (ofText t).placeOf p := Nat.min_eq_left hp.le
  obtain ⟨honLine, hplace⟩ := onLine_position (t := t) hp.le
  have hline := honLine.line_eq hp.onLine
  rw [hoffset]
  generalize (ofText t).position ((ofText t).placeOf p) = q at hline hplace ⊢
  obtain ⟨line, column⟩ := q
  obtain ⟨line', column'⟩ := p
  obtain rfl : line = line' := hline
  have hcolumn : column = column' := Nat.add_left_cancel hplace
  rw [hcolumn]

/-- What comes behind the line of a place: a line that starts behind the first line feed at or
behind the place, or nothing. -/
theorem nextFeed_of_line (h : (ofText t).OnLine k place) (hk : k + 1 < (ofText t).lineCount) :
    ∃ feed, t.NextFeed place feed ∧ (ofText t).lineStart (k + 1) = feed + 1 := by
  have hstart := getElem?_lineStarts hk
  have hmem : (ofText t).lineStart (k + 1) ∈ startsAfter 0 t :=
    List.mem_of_getElem? (l := startsAfter 0 t) hstart
  have hpos := (bounds_of_mem_startsAfter hmem).1
  have hlt := h.stop hk
  obtain ⟨feed, hfeed⟩ := Nat.exists_eq_add_of_lt hpos
  rw [Nat.zero_add] at hfeed
  rw [hfeed] at hmem hlt
  refine ⟨feed, ⟨mem_startsAfter_iff.mp hmem, by omega, fun other hother hle => ?_⟩, hfeed⟩
  -- the line behind the other one is not the one of the place, nor one in front of it
  obtain ⟨j, hj⟩ := List.mem_iff_getElem?.mp
    (List.mem_cons_of_mem 0 (mem_startsAfter_iff.mpr hother))
  obtain ⟨hj, hjstart⟩ := lineStart_eq_of_getElem? hj
  have hbehind : k + 1 ≤ j := by
    by_contra hle
    have hstarts := lineStart_mono (t := t) (show j ≤ k by omega) h.line
    have hstart := h.start
    omega
  have hstarts := lineStart_mono hbehind hj
  omega

/-- On the last line there is no line feed at or behind a place. -/
theorem lt_of_feedAt {feed : Nat} (h : (ofText t).OnLine k place)
    (hk : ¬ k + 1 < (ofText t).lineCount) (hfeed : t.FeedAt feed) : feed < place := by
  obtain ⟨j, hj⟩ := List.mem_iff_getElem?.mp
    (List.mem_cons_of_mem 0 (mem_startsAfter_iff.mpr hfeed))
  obtain ⟨hj, hjstart⟩ := lineStart_eq_of_getElem? hj
  have hstarts := lineStart_mono (t := t) (show j ≤ k by omega) h.line
  have hstart := h.start
  omega

end Lines

/-- **Positions and places.** Each place of a text has a position, which stands for the place, and
each position of the text is that of the place it stands for; both are in the same order. The
position is on the only line that holds the place, and the next line starts behind the first line
feed from there on, or at the end of the text. -/
theorem positions_of_places (t : Text) :
    (∀ place ≤ Text.size t, (ofText t).offset ((ofText t).position place) = place) ∧
    (∀ place ≤ Text.size t, (ofText t).Has ((ofText t).position place) ∧
      ∀ k, (ofText t).OnLine k place ↔ k = ((ofText t).position place).line) ∧
    (∀ a b, a < b → b ≤ Text.size t → ((ofText t).position a).Before ((ofText t).position b)) ∧
    (∀ p, (ofText t).Has p → (ofText t).position ((ofText t).offset p) = p) ∧
    ∀ place ≤ Text.size t,
      (∀ feed, t.NextFeed place feed →
        (ofText t).nextLineStart ((ofText t).position place) = feed + 1) ∧
      ((∀ feed, t.FeedAt feed → feed < place) →
        (ofText t).nextLineStart ((ofText t).position place) = Text.size t) := by
  refine ⟨fun place => SourceMap.offset_position, fun place h => ⟨has_position h, fun k => ?_⟩,
    fun a b hlt hb => ?_, fun p => Has.position_offset, fun place h => ?_⟩
  · obtain ⟨honLine, -⟩ := onLine_position h
    exact ⟨fun hk => hk.line_eq honLine, fun hk => hk ▸ honLine⟩
  · have ha : a ≤ Text.size t := by omega
    refine (has_position ha).before (has_position hb) ?_
    rw [(onLine_position ha).2, (onLine_position hb).2]
    exact hlt
  · obtain ⟨honLine, -⟩ := onLine_position h
    by_cases hk : ((ofText t).position place).line + 1 < (ofText t).lineCount
    · obtain ⟨first, hfirst, hstart⟩ := nextFeed_of_line honLine hk
      refine ⟨fun feed hfeed => ?_, fun hnone => ?_⟩
      · rw [nextLineStart, hstart, hfirst.eq hfeed]
      · exact absurd (hnone first hfirst.feedAt) (Nat.not_lt.mpr hfirst.le)
    · refine ⟨fun feed hfeed => ?_, fun _ => lineStart_of_le (Nat.le_of_not_lt hk)⟩
      exact absurd (lt_of_feedAt honLine hk hfeed.feedAt) (Nat.not_lt.mpr hfeed.le)

end LineIndex

end YamlEdit
