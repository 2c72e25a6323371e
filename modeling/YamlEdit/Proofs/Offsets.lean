import YamlEdit.Node.OfEvents
import YamlEdit.Proofs.Splicing

/-!
# Marks, positions and boundaries

A mark counts characters and a position lines and bytes; a text is cut at bytes. What a mark stands
for is always the boundary of a character (`SourceMap.cutAt_offsetOfMark`), and a position stands
for the offset that it was made from (`SourceMap.offset_position`).
-/

namespace YamlEdit

namespace Text

/-- Whether an offset lies between two characters of a text, or at one of its ends. -/
def IsBoundary (t : Text) (offset : Nat) : Prop := ∃ x y, t = x ++ y ∧ size x = offset

section Boundary

variable {t x y : Text} {n : Nat}

/-- A text can be cut at its boundaries and nowhere else. -/
theorem isBoundary_iff_cutAt : t.IsBoundary n ↔ ∃ cut, t.cutAt n = .ok cut := by
  constructor
  · rintro ⟨x, y, ht, hsize⟩
    exact ⟨⟨x.reverse, y⟩, cutAt_eq_ok.mpr (by simpa using ⟨ht, hsize⟩)⟩
  · rintro ⟨cut, hcut⟩
    obtain ⟨ht, hsize⟩ := cutAt_eq_ok.mp hcut
    exact ⟨_, _, ht, hsize⟩

theorem isBoundary_iff_dropBytes : t.IsBoundary n ↔ ∃ y, t.dropBytes n = .ok y := by
  constructor
  · rintro ⟨x, y, h⟩
    exact ⟨y, dropBytes_eq_ok.mpr ⟨x, h⟩⟩
  · rintro ⟨y, h⟩
    obtain ⟨x, h⟩ := dropBytes_eq_ok.mp h
    exact ⟨x, y, h⟩

theorem isBoundary_iff_takeBytes : t.IsBoundary n ↔ ∃ x, t.takeBytes n = .ok x := by
  constructor
  · rintro ⟨x, y, h⟩
    exact ⟨x, takeBytes_eq_ok.mpr ⟨y, h⟩⟩
  · rintro ⟨x, h⟩
    obtain ⟨y, h⟩ := takeBytes_eq_ok.mp h
    exact ⟨x, y, h⟩

theorem isBoundary_append : (x ++ y).IsBoundary (size x) := ⟨x, y, rfl, rfl⟩

theorem isBoundary_size (t : Text) : t.IsBoundary (size t) := ⟨t, [], by simp, rfl⟩

theorem isBoundary_zero (t : Text) : t.IsBoundary 0 := ⟨[], t, rfl, rfl⟩

/-- A boundary does not lie past the end. -/
theorem IsBoundary.le_size (h : t.IsBoundary n) : n ≤ size t := by
  obtain ⟨x, y, rfl, rfl⟩ := h
  rw [size_append]
  omega

theorem IsBoundary.append_left (h : y.IsBoundary n) : (x ++ y).IsBoundary (size x + n) := by
  obtain ⟨u, v, rfl, rfl⟩ := h
  exact ⟨x ++ u, v, by simp, size_append x u⟩

/-- Of two boundaries the text between them can be taken. -/
theorem slice_of_isBoundary {start stop : Nat} (hstart : t.IsBoundary start)
    (hstop : t.IsBoundary stop) (hle : start ≤ stop) : ∃ y, t.slice start stop = .ok y := by
  obtain ⟨x, y, rfl, rfl⟩ := hstart
  obtain ⟨u, v, huv, rfl⟩ := hstop
  -- the later cut is in the second part
  obtain ⟨z, rfl⟩ : ∃ z, u = x ++ z := by
    rcases List.append_eq_append_iff.mp huv with ⟨z, rfl, -⟩ | ⟨z, hz, -⟩
    · exact ⟨z, rfl⟩
    · rw [hz, size_append] at hle
      have hempty : z = [] := by
        cases z with
        | nil => rfl
        | cons c z =>
            have := size_pos_of_cons c z
            omega
      exact ⟨[], by rw [hz, hempty]; simp⟩
  exact ⟨z, slice_eq_ok.mpr ⟨x, v, by rw [huv], rfl, by rw [size_append]⟩⟩

end Boundary

end Text

namespace SourceMap

theorem bytesOf_eq_size (n : Nat) (t : Text) : bytesOf n t = Text.size (t.take n) := by
  fun_induction bytesOf n t with
  | case1 t => simp
  | case2 n => rfl
  | case3 n c t ih => rw [List.take_succ_cons, Text.size_cons, ih]

/-- **A mark stands between two characters.** -/
theorem cutAt_offsetOfMark (m : SourceMap) (mark : Mark) :
    m.source.cutAt (m.offsetOfMark mark) =
      .ok ⟨(m.source.take mark.index).reverse, m.source.drop mark.index⟩ :=
  Text.cutAt_eq_ok.mpr ⟨by simp, by rw [List.reverse_reverse]; exact (bytesOf_eq_size _ _).symm⟩

theorem dropBytes_offsetOfMark (m : SourceMap) (mark : Mark) :
    m.source.dropBytes (m.offsetOfMark mark) = .ok (m.source.drop mark.index) := by
  rw [Text.dropBytes, cutAt_offsetOfMark]
  rfl

theorem isBoundary_offsetOfMark (m : SourceMap) (mark : Mark) :
    m.source.IsBoundary (m.offsetOfMark mark) :=
  Text.isBoundary_iff_cutAt.mpr ⟨_, m.cutAt_offsetOfMark mark⟩

end SourceMap

namespace LineIndex

/-- The column of a position is counted from the start of its line, which is the last one that is
not behind the offset. -/
theorem positionFrom_eq {offset line start : Nat} {starts : List Nat} (h : start ≤ offset) :
    ∃ k s, positionFrom offset line start starts = ⟨line + k, offset - s⟩ ∧
      (start :: starts)[k]? = some s ∧ s ≤ offset ∧ ∀ n ∈ starts[k]?, offset < n := by
  induction starts generalizing line start with
  | nil => exact ⟨0, start, rfl, rfl, h, nofun⟩
  | cons next rest ih =>
      rw [positionFrom]
      split
      · next hle =>
          obtain ⟨k, s, hp, hs, hle⟩ := @ih (line + 1) next hle
          exact ⟨k + 1, s, by rw [hp, Nat.add_assoc, Nat.add_comm 1 k], hs, hle⟩
      · next hlt =>
          refine ⟨0, start, rfl, rfl, h, fun n hn => ?_⟩
          cases hn
          exact Nat.lt_of_not_le hlt

/-- The position of an offset that is not beyond the end: its line starts at or before the offset,
and the next one behind it. -/
theorem position_eq {source : Text} {offset : Nat} (h : offset ≤ Text.size source) :
    ∃ k start, (ofText source).position offset = ⟨k, offset - start⟩ ∧
      (ofText source).lineStarts[k]? = some start ∧ start ≤ offset ∧
      ∀ next ∈ (ofText source).lineStarts[k + 1]?, offset < next := by
  obtain ⟨k, start, hposition, hstart, hle, hnext⟩ :=
    @positionFrom_eq offset 0 0 (startsAfter 0 source) (Nat.zero_le offset)
  refine ⟨k, start, ?_, hstart, hle, hnext⟩
  have hmin : min offset (ofText source).size = offset := Nat.min_eq_left h
  unfold position
  rw [hmin]
  rwa [Nat.zero_add] at hposition

end LineIndex

namespace SourceMap

/-- **A position stands for the offset that it was made from**, if that is not beyond the end. -/
theorem offset_position {source : Text} {offset : Nat} (h : offset ≤ Text.size source) :
    (ofText source).offset ((ofText source).position offset) = offset := by
  obtain ⟨k, start, hposition, hstart, hle, -⟩ := LineIndex.position_eq h
  show (LineIndex.ofText source).offset ((LineIndex.ofText source).position offset) = offset
  rw [hposition, LineIndex.offset, LineIndex.lineStart, List.getD_eq_getElem?_getD, hstart,
    Option.getD_some]
  show min (start + (offset - start)) (Text.size source) = offset
  omega

end SourceMap

end YamlEdit
