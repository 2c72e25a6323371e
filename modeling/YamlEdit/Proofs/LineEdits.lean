import YamlEdit.Proofs.Restoring

/-!
# Whole lines

A line starts where the lines in front of it end (`LineIndex.exists_lineStart`), so what is done
between the starts of lines is done to whole lines. In block style, a removal takes out the lines
from the one on which the entry starts to the one on which it ends, if nothing but blanks is in
front of the entry, and an addition puts lines between two others (`Plan.EditsLines`); all other
lines stay as they are. Main statement: `lines_of_editsLines`.

An entry is taken to start at its key, or at the `-` in front of an item, as they are found by
looking back from its first node. The `-` is not found behind a comment.
-/

namespace YamlEdit

/-! ## The lines of a text in two parts -/

namespace Text

/-- A line without its line feed. -/
def dropFeed (line : Text) : Text := if line.getLast? = some '\n' then line.dropLast else line

/-- What the lines of a text say, without their line feeds. -/
def lineTexts (t : Text) : List Text := t.rawLines.map dropFeed

theorem rawLines_ne_nil {t : Text} (h : t ≠ []) : t.rawLines ≠ [] := by
  intro hlines
  apply h
  rw [← flatten_rawLines t, hlines]
  rfl

/-- **Behind a line feed, a new line starts.** -/
theorem rawLines_lineFeed (x y : Text) :
    rawLines (x ++ '\n' :: y) = rawLines (x ++ ['\n']) ++ rawLines y := by
  induction x with
  | nil => simp [rawLines]
  | cons c x ih =>
      by_cases hc : c = '\n'
      · simp [rawLines, hc, ih]
      · obtain ⟨line, lines, hlines⟩ := List.exists_cons_of_ne_nil
          (rawLines_ne_nil (t := x ++ ['\n']) (by simp))
        simp [rawLines, hc, ih, hlines]

theorem rawLines_append {x : Text} (h : LineIndex.EndsLine x) (y : Text) :
    rawLines (x ++ y) = rawLines x ++ rawLines y := by
  rcases h with rfl | ⟨front, rfl⟩
  · rfl
  · rw [List.append_assoc]
    exact rawLines_lineFeed front y

theorem length_rawLines {x : Text} (h : LineIndex.EndsLine x) :
    x.rawLines.length = x.count '\n' := by
  rcases h with rfl | ⟨front, rfl⟩
  · rfl
  · induction front with
    | nil => simp [rawLines]
    | cons c front ih =>
        by_cases hc : c = '\n'
        · simp [rawLines, hc, ih]
        · obtain ⟨line, lines, hlines⟩ := List.exists_cons_of_ne_nil
            (rawLines_ne_nil (t := front ++ ['\n']) (by simp))
          rw [hlines] at ih
          simp [rawLines, hc, hlines, ← ih]

/-- A text without a line feed is one line. -/
theorem rawLines_line {line : Text} (h : line.count '\n' = 0) (hne : line ≠ []) :
    line.rawLines = [line] := by
  induction line with
  | nil => exact absurd rfl hne
  | cons c line ih =>
      have hc : c ≠ '\n' := by
        rintro rfl
        simp at h
      by_cases hline : line = []
      · simp [rawLines, hc, hline]
      · simp [rawLines, hc, ih (by simpa [hc] using h) hline]

theorem rawLines_line_lineFeed {line : Text} (h : line.count '\n' = 0) :
    rawLines (line ++ ['\n']) = [line ++ ['\n']] := by
  induction line with
  | nil => simp [rawLines]
  | cons c line ih =>
      have hc : c ≠ '\n' := by
        rintro rfl
        simp at h
      simp [rawLines, hc, ih (by simpa [hc] using h)]

/-- A text has no more lines than line feeds, but for what is behind the last one. -/
theorem length_rawLines_le (t : Text) : t.rawLines.length ≤ t.count '\n' + 1 := by
  obtain ⟨front, line, rfl, hfront, hline⟩ := LineIndex.exists_line t
  rw [rawLines_append hfront, List.length_append, length_rawLines hfront, List.count_append, hline]
  by_cases hne : line = []
  · simp [hne, rawLines]
  · simp [rawLines_line hline hne]

theorem lineTexts_append {x : Text} (h : LineIndex.EndsLine x) (y : Text) :
    lineTexts (x ++ y) = lineTexts x ++ lineTexts y := by
  rw [lineTexts, rawLines_append h, List.map_append]
  rfl

/-- A line feed at the end of the last line adds no line. -/
theorem lineTexts_lineFeed {t : Text} (h : ¬ LineIndex.EndsLine t) :
    lineTexts (t ++ ['\n']) = lineTexts t := by
  obtain ⟨front, line, rfl, hfront, hline⟩ := LineIndex.exists_line t
  have hne : line ≠ [] := by
    rintro rfl
    rw [List.append_nil] at h
    exact h hfront
  have hlast : line.getLast? ≠ some '\n' := by
    intro hlast
    have hmem : '\n' ∈ line := List.mem_of_getLast? hlast
    exact absurd (List.count_pos_iff.mpr hmem) (by omega)
  rw [List.append_assoc, lineTexts_append hfront, lineTexts_append hfront]
  simp [lineTexts, rawLines_line_lineFeed hline, rawLines_line hline hne, dropFeed, hlast]

/-- A text in which there is more than line feeds keeps it. -/
theorem mem_trimLineFeeds {c : Char} {t : Text} (h : c ∈ t) (hc : c ≠ '\n') :
    c ∈ t.trimLineFeeds := by
  unfold trimLineFeeds
  rw [List.mem_reverse]
  have hmem : c ∈ t.reverse.takeWhile (· == '\n') ++ t.reverse.dropWhile (· == '\n') := by
    rw [List.takeWhile_append_dropWhile]
    simpa using h
  rcases List.mem_append.mp hmem with hmem | hmem
  · have hfeed := List.all_eq_true.mp List.all_takeWhile c hmem
    exact absurd (by simpa using hfeed) hc
  · exact hmem

theorem getLast?_trimLineFeeds (t : Text) : t.trimLineFeeds.getLast? ≠ some '\n' := by
  intro h
  unfold trimLineFeeds at h
  rw [List.getLast?_reverse] at h
  have hfeed := List.head?_dropWhile_not (· == '\n') t.reverse
  rw [h] at hfeed
  simp at hfeed

end Text

namespace LineIndex

theorem endsLine_iff {t : Text} : EndsLine t ↔ t = [] ∨ t.getLast? = some '\n' := by
  unfold EndsLine
  rw [List.getLast?_eq_some_iff]

/-- The end of a text tells whether it ends with a line feed. -/
theorem endsLine_append {x y : Text} (h : y ≠ []) : EndsLine (x ++ y) ↔ EndsLine y := by
  rw [endsLine_iff, endsLine_iff, List.getLast?_append_of_ne_nil _ h]
  simp [h]

/-- The first lines of a text, as many as there are line feeds or fewer. -/
theorem exists_of_le_count {t : Text} {n : Nat} (h : n ≤ t.count '\n') :
    ∃ x y, t = x ++ y ∧ EndsLine x ∧ x.count '\n' = n := by
  induction t generalizing n with
  | nil => exact ⟨[], [], rfl, .inl rfl, by simp at h; simp [h]⟩
  | cons c t ih =>
      cases n with
      | zero => exact ⟨[], c :: t, rfl, .inl rfl, rfl⟩
      | succ n =>
          by_cases hc : c = '\n'
          · obtain ⟨x, y, rfl, hx, hcount⟩ := ih (n := n) (by simp [hc] at h; exact h)
            refine ⟨c :: x, y, rfl, .inr ?_, by simp [hc, hcount]⟩
            rcases hx with rfl | ⟨front, rfl⟩
            · exact ⟨[], by rw [hc]; rfl⟩
            · exact ⟨c :: front, rfl⟩
          · obtain ⟨x, y, rfl, hx, hcount⟩ := ih (n := n + 1) (by simpa [hc] using h)
            refine ⟨c :: x, y, rfl, .inr ?_, by simp [hc, hcount]⟩
            rcases hx with rfl | ⟨front, rfl⟩
            · simp at hcount
            · exact ⟨c :: front, rfl⟩

/-- **A line starts where the lines in front of it end**; a line past the last one starts at the end
of the text. -/
theorem exists_lineStart (source : Text) (n : Nat) :
    ∃ x y, source = x ++ y ∧ (ofText source).lineStart n = Text.size x ∧
      x.rawLines = source.rawLines.take n ∧ y.rawLines = source.rawLines.drop n ∧
      (EndsLine x ∨ y = []) := by
  by_cases hn : n ≤ source.count '\n'
  · obtain ⟨x, y, rfl, hx, rfl⟩ := exists_of_le_count hn
    refine ⟨x, y, rfl, lineStart_count hx y, ?_, ?_, .inl hx⟩
    · rw [Text.rawLines_append hx, ← Text.length_rawLines hx, List.take_left]
    · rw [Text.rawLines_append hx, ← Text.length_rawLines hx, List.drop_left]
  · have hle := Text.length_rawLines_le source
    have hstart : (ofText source).lineStart n = Text.size source := by
      unfold lineStart
      show (0 :: startsAfter 0 source).getD n (Text.size source) = _
      have hnone : (0 :: startsAfter 0 source)[n]? = none := by
        rw [List.getElem?_eq_none_iff, List.length_cons, length_startsAfter]
        omega
      rw [List.getD_eq_getElem?_getD, hnone, Option.getD_none]
    refine ⟨source, [], by simp, hstart, ?_, ?_, .inr rfl⟩
    · rw [List.take_of_length_le (by omega)]
    · rw [List.drop_of_length_le (by omega)]
      rfl

/-- **A later place is on a later line**, or on the same one. -/
theorem line_position_mono {source : Text} {a b : Nat} (ha : source.IsBoundary a)
    (hb : source.IsBoundary b) (hle : a ≤ b) :
    ((ofText source).position a).line ≤ ((ofText source).position b).line := by
  obtain ⟨y, hy⟩ := Text.slice_of_isBoundary ha hb hle
  obtain ⟨x, z, rfl, rfl, rfl⟩ := Text.slice_eq_ok.mp hy
  have hfirst := line_position x (y ++ z)
  have hsecond := line_position (x ++ y) z
  rw [← List.append_assoc] at hfirst
  rw [Text.size_append] at hsecond
  rw [hfirst, hsecond, List.count_append]
  omega

end LineIndex

/-! ## Nodes at places of the text -/

theorem SourceMap.position_zero (source : Text) : (ofText source).position 0 = ⟨0, 0⟩ := by
  show LineIndex.positionFrom (min 0 (Text.size source)) 0 0 (LineIndex.startsAfter 0 source) = _
  rw [Nat.zero_min]
  cases hstarts : LineIndex.startsAfter 0 source with
  | nil => rfl
  | cons next rest =>
      have hpos := (LineIndex.bounds_of_mem_startsAfter (hstarts ▸ List.mem_cons_self)).1
      rw [LineIndex.positionFrom, if_neg (by omega)]

/-- An offset beyond the end has the position of the end. -/
theorem SourceMap.position_min (source : Text) (place : Nat) :
    (ofText source).position (min place (Text.size source)) = (ofText source).position place := by
  have hmin : min (min place (Text.size source)) (Text.size source) =
      min place (Text.size source) := Nat.min_eq_left (Nat.min_le_right _ _)
  show LineIndex.positionFrom (min (min place (Text.size source)) (Text.size source)) 0 0 _ =
    LineIndex.positionFrom (min place (Text.size source)) 0 0 _
  rw [hmin]

theorem SourceMap.offset_position_min (source : Text) (place : Nat) :
    (ofText source).offset ((ofText source).position place) = min place (Text.size source) := by
  rw [← position_min, offset_position (Nat.min_le_right _ _)]

/-- The position of the offset of a position that has been made from an offset. -/
theorem SourceMap.position_offset_position (source : Text) (place : Nat) :
    (ofText source).position ((ofText source).offset ((ofText source).position place)) =
      (ofText source).position place := by
  rw [offset_position_min, position_min]

/-- A node whose positions are those of offsets. -/
structure Node.Measured (m : SourceMap) (n : Node) : Prop where
  start : m.position (m.offset n.start) = n.start
  stop : m.position (m.offset n.stop) = n.stop

theorem Node.measured_of_position (source : Text) (kind : Kind) (a b : Nat) (anchor : Option Text)
    (children : List Node) : Node.Measured (SourceMap.ofText source)
      ⟨kind, (SourceMap.ofText source).position a, (SourceMap.ofText source).position b, anchor,
        children⟩ :=
  ⟨SourceMap.position_offset_position source a, SourceMap.position_offset_position source b⟩

/-- **The builder makes nodes at offsets.** -/
theorem TreeBuilder.gives_measured (source : Text) :
    Gives (SourceMap.ofText source) (Node.Measured (SourceMap.ofText source)) fun _ => True where
  scalar := by
    intro text style anchor span s n s' h
    obtain ⟨-, first, last, taken, name, -, -, -, rfl⟩ := scalar_eq h
    apply Node.measured_of_position
  aliasNode := by
    intro anchor span s n s' h
    obtain ⟨stop, name, -, -, rfl⟩ := aliasNode_eq h
    apply Node.measured_of_position
  opened := by
    intros
    trivial
  child := by
    intros
    trivial
  closed := by
    intro c s n s' h _ _
    obtain ⟨style, start, stop, -, -, rfl, -, -⟩ := close_eq h
    apply Node.measured_of_position
  document := by
    intro n h
    exact ⟨h.start, h.stop⟩

theorem Node.measured_of_ofEvents {source : Text} {events : List (Event × Span)} {root : Node}
    (h : Node.ofEvents (SourceMap.ofText source) events = .ok root) :
    root.All (Node.Measured (SourceMap.ofText source)) := by
  refine Node.all_of_ofEvents (TreeBuilder.gives_measured source) (fun documents => ?_) h
  have hstream := Node.measured_of_position source .stream 0 (Text.size source) none documents
  rwa [SourceMap.position_zero] at hstream

theorem Snapshot.measured_of_ofText {source : Text} {s : Snapshot} {n : Node}
    (h : Snapshot.ofText source = .ok s) (hn : s.tree.Holds n) : n.Measured s.map := by
  obtain ⟨events, root, -, hroot, rfl⟩ := Snapshot.ofText_eq_ok h
  obtain ⟨a, ha⟩ := hn
  exact ((Node.measured_of_ofEvents hroot).descendant? ha).here

/-! ## Edits of whole lines -/

/-- What an edit does to the lines of a text. -/
inductive LineEdit where
  /-- Takes out the lines from number `first` to number `last`. -/
  | take (first last : Nat)
  /-- Puts lines in front of the line with a number, or behind all lines. -/
  | put (place : Nat)

/-- **All other lines stay as they are.** The lines that are left after a removal are the same to
the byte. The lines around new ones say the same, and the text ends with a line feed if it did. -/
def LineEdit.Makes (source text : Text) : LineEdit → Prop
  | take first last =>
    text.rawLines = source.rawLines.take first ++ source.rawLines.drop (last + 1)
  | put place =>
    (∃ new, new ≠ [] ∧
      text.lineTexts = source.lineTexts.take place ++ new ++ source.lineTexts.drop place) ∧
    (LineIndex.EndsLine text ↔ LineIndex.EndsLine source)

namespace Splice

variable {source : Text}

/-- **What is between two starts of lines is lines.** -/
theorem makes_take (source : Text) {first last : Nat} (hle : first ≤ last + 1) :
    ∃ text, (remove ((LineIndex.ofText source).lineStart first)
        ((LineIndex.ofText source).lineStart (last + 1))).apply source = .ok text ∧
      (LineEdit.take first last).Makes source text := by
  obtain ⟨x, x', hx, hstart, hxlines, -, hends⟩ := LineIndex.exists_lineStart source first
  obtain ⟨y, z, hy, hstop, hylines, hzlines, -⟩ := LineIndex.exists_lineStart source (last + 1)
  -- the first cut is in front of the second one
  obtain ⟨m, rfl⟩ : ∃ m, y = x ++ m := by
    refine ⟨((source.rawLines.take (last + 1)).drop first).flatten, ?_⟩
    have hfirst : source.rawLines.take first = (source.rawLines.take (last + 1)).take first := by
      rw [List.take_take, Nat.min_eq_left hle]
    rw [← Text.flatten_rawLines y, ← Text.flatten_rawLines x, hxlines, hylines, hfirst,
      ← List.flatten_append, List.take_append_drop]
  have hsource : source = x ++ (m ++ z) := by rw [hy, List.append_assoc]
  refine ⟨x ++ z, ?_, ?_⟩
  · rw [hstart, hstop]
    conv => lhs; rw [hsource]
    exact apply_remove
  · have hlines : Text.rawLines (x ++ z) = x.rawLines ++ z.rawLines := by
      rcases hends with hends | rfl
      · exact Text.rawLines_append hends z
      · -- there is nothing behind the first cut
        rw [List.append_nil] at hx
        have hnothing : m ++ z = [] := by
          rw [hx] at hsource
          simpa using hsource.symm
        rw [(List.append_eq_nil_iff.mp hnothing).2]
        simp [Text.rawLines]
    show Text.rawLines (x ++ z) = _
    rw [hlines, hxlines, hzlines]

/-- **Lines go between two others.** -/
theorem makes_put {x y : Text} (body : Text) {place : Nat} (hsource : source = x ++ y)
    (hx : LineIndex.EndsLine x) (hxlines : x.rawLines = source.rawLines.take place)
    (hylines : y.rawLines = source.rawLines.drop place) :
    ∃ text, (insert (Text.size x) (body ++ ['\n'])).apply source = .ok text ∧
      (LineEdit.put place).Makes source text := by
  have hcontent : LineIndex.EndsLine (body ++ ['\n']) := .inr ⟨body, rfl⟩
  refine ⟨x ++ ((body ++ ['\n']) ++ y), ?_, ⟨Text.lineTexts (body ++ ['\n']), ?_, ?_⟩, ?_⟩
  · rw [hsource, apply_insert]
  · unfold Text.lineTexts
    simpa using Text.rawLines_ne_nil (t := body ++ ['\n']) (by simp)
  · rw [Text.lineTexts_append hx, Text.lineTexts_append hcontent, List.append_assoc]
    simp only [Text.lineTexts, hxlines, hylines, List.map_take, List.map_drop]
  · rw [hsource]
    by_cases hy : y = []
    · subst hy
      rw [List.append_nil, List.append_nil, LineIndex.endsLine_append (by simp)]
      exact ⟨fun _ => hx, fun _ => hcontent⟩
    · rw [LineIndex.endsLine_append hy, ← List.append_assoc, LineIndex.endsLine_append hy]

/-- **Lines go behind a last line without a line feed**, which gets one. -/
theorem makes_put_of_unterminated {content : Text} {place : Nat}
    (hsource : ¬ LineIndex.EndsLine source) (hlines : source.rawLines.length ≤ place) {c : Char}
    (hc : c ∈ content) (hfeed : c ≠ '\n') :
    ∃ text, (insert (Text.size source) ('\n' :: content.trimLineFeeds)).apply source = .ok text ∧
      (LineEdit.put place).Makes source text := by
  have hmem := Text.mem_trimLineFeeds hc hfeed
  have hlast := Text.getLast?_trimLineFeeds content
  generalize content.trimLineFeeds = new at hmem hlast
  have hnew : new ≠ [] := List.ne_nil_of_mem hmem
  have hends : ¬ LineIndex.EndsLine new := by
    rw [LineIndex.endsLine_iff]
    simp [hnew, hlast]
  have htext : source ++ ('\n' :: new) = (source ++ ['\n']) ++ new := by simp
  refine ⟨source ++ ('\n' :: new), ?_, ⟨Text.lineTexts new, ?_, ?_⟩, ?_⟩
  · simpa using apply_insert (x := source) (y := '\n' :: new) (z := [])
  · unfold Text.lineTexts
    simpa using Text.rawLines_ne_nil hnew
  · have hall : source.lineTexts.length ≤ place := by simpa [Text.lineTexts] using hlines
    rw [htext, Text.lineTexts_append (.inr ⟨source, rfl⟩), Text.lineTexts_lineFeed hsource,
      List.take_of_length_le hall, List.drop_of_length_le hall, List.append_nil]
  · rw [htext, LineIndex.endsLine_append hnew]
    exact ⟨fun h => absurd h hends, fun h => absurd h hsource⟩

end Splice

namespace Plan

/-! ## What the planners do to lines -/

/-- An edit of a block collection that is one of whole lines: the removal of an entry with nothing
but blanks in front of it on its line, which does not end before it starts; an addition at the end;
and the insertion in front of an item with nothing but blanks in front of its `-`. -/
inductive EditsLines (s : Snapshot) : Operation → LineEdit → Prop where
  | delete {path : Text} {target : Target} {parent first : Node} {i start : Nat} {before : Text}
      (hpath : s.resolve path = .ok target) (hentry : target.entry .delete = .ok (parent, i))
      (hblock : parent.isFlow = false)
      (hfirst : (if parent.isMapping then parent.pairedKey i else pure target.node) = .ok first)
      (hstart : Block.entryStart s parent first = .ok start)
      (hbefore : s.linePrefix start = .ok before) (hblank : before.allBlank = true)
      (hend : start ≤ s.stopOf target.node) :
      EditsLines s (.delete path) (.take (s.lines.position start).line target.node.stop.line)
  | mapAdd {path key : Text} {value : Value} {target : Target} {last : Node} {k f : Fragment}
      (hpath : s.resolve path = .ok target) (hblock : target.node.isFlow = false)
      (hmapping : target.node.isMapping = true) (hk : Fragment.ofValue (.string key) = .ok k)
      (hline : k.isMultiline = false) (hf : Fragment.ofValue value = .ok f)
      (hlast : target.node.children.getLast? = some last) :
      EditsLines s (.mapAdd path key value) (.put (last.stop.line + 1))
  | behind {path : Text} {value : Value} {index : Option Nat} {target : Target} {last : Node}
      {f : Fragment} (hpath : s.resolve path = .ok target) (hblock : target.node.isFlow = false)
      (hsequence : target.node.isSequence = true) (hf : Fragment.ofValue value = .ok f)
      (hnext : index.bind (target.node.children[·]?) = none)
      (hlast : target.node.children.getLast? = some last) :
      EditsLines s (.seqAdd path value index) (.put (last.stop.line + 1))
  | inFront {path : Text} {value : Value} {index : Option Nat} {target : Target} {next : Node}
      {f : Fragment} {marker : Option Nat} {before : Text} (hpath : s.resolve path = .ok target)
      (hblock : target.node.isFlow = false) (hsequence : target.node.isSequence = true)
      (hf : Fragment.ofValue value = .ok f)
      (hnext : index.bind (target.node.children[·]?) = some next)
      (hmarker : Extent.itemMarker s.source (s.startOf next) = .ok marker)
      (hbefore : s.linePrefix (marker.getD (s.startOf next)) = .ok before)
      (hblank : before.allBlank = true) :
      EditsLines s (.seqAdd path value index)
        (.put (s.lines.position (marker.getD (s.startOf next))).line)

section Planners

variable {source : Text} {s : Snapshot} {parent first last next : Node} {k f : Fragment}

/-- The text in front of a place is lines and what is on the line of the place. -/
theorem exists_linePrefix {place : Nat} {before : Text} (hs : s.Within source)
    (h : s.linePrefix place = .ok before) :
    ∃ front back : Text, source = front ++ before ++ back ∧ LineIndex.EndsLine front ∧
      before.count '\n' = 0 ∧ place = Text.size (front ++ before) := by
  obtain ⟨x, z, hsource, -, hplace⟩ := Text.slice_eq_ok.mp (lift_offset_eq_ok.mp h)
  rw [hs.source_eq] at hsource
  obtain ⟨front, line, hx, hfront, hline⟩ := LineIndex.exists_line (x ++ before)
  rw [← Text.size_append] at hplace
  rw [hx] at hsource hplace
  -- the line that is found is the one that has been taken
  have hmap := hs.map
  rw [hsource] at hmap
  rw [← hplace, Snapshot.linePrefix_eq hmap hfront hline] at h
  cases h
  exact ⟨front, z, hsource, hfront, hline, hplace.symm⟩

/-- **Removal of the lines of an entry.** -/
theorem makes_of_remove {i start : Nat} {before : Text} (hs : s.Within source)
    (hmeasured : last.Measured s.map) (hlast : s.tree.Holds last)
    (hstart : Block.entryStart s parent first = .ok start)
    (hbefore : s.linePrefix start = .ok before) (hblank : before.allBlank = true)
    (hend : start ≤ s.stopOf last) :
    ∃ splice text, Block.remove s parent first last i = .ok splice ∧
      splice.apply source = .ok text ∧
      (LineEdit.take (s.lines.position start).line last.stop.line).Makes source text := by
  obtain ⟨front, back, hsource, -, -, hplace⟩ := exists_linePrefix hs hbefore
  have hboundary : source.IsBoundary start := by
    rw [hsource, hplace]
    exact Text.isBoundary_append
  have hline : (s.lines.position start).line ≤ last.stop.line := by
    have hmono := LineIndex.line_position_mono hboundary (hs.stopOf hlast) hend
    rw [← Snapshot.lines_eq hs.map] at hmono
    have hstop : s.lines.position (s.stopOf last) = last.stop := hmeasured.stop
    rwa [hstop] at hmono
  obtain ⟨text, htext, hmakes⟩ := Splice.makes_take source
    (Nat.le_succ_of_le hline)
  refine ⟨_, text, ?_, htext, hmakes⟩
  unfold Block.remove
  rw [hstart, ok_bind, hbefore, ok_bind, if_pos hblank, LineIndex.nextLineStart,
    Snapshot.lines_eq hs.map]
  rfl

/-- **Lines are put behind those of the last entry.** -/
theorem makes_of_addLines (hs : s.Within source) (last : Node) (column : Nat) (body : Text)
    {c : Char} (hc : c ∈ body) (hfeed : c ≠ '\n') :
    ∃ text, (Block.addLines s last (Setting.around (.lines column) body)).apply source = .ok text ∧
      (LineEdit.put (last.stop.line + 1)).Makes source text := by
  obtain ⟨x, y, hsource, hplace, hxlines, hylines, hends⟩ :=
    LineIndex.exists_lineStart source (last.stop.line + 1)
  unfold Block.addLines Snapshot.insertAfterLine LineIndex.nextLineStart
  rw [hs.source_eq, Snapshot.lines_eq hs.map, hplace]
  by_cases hshut : LineIndex.EndsLine source
  · -- the text ends with a line feed, or is empty
    have hnot : ¬ (Text.size x = Text.size source ∧ (!source.isEmpty) = true ∧
        source.getLast? ≠ some '\n') := by
      rintro ⟨-, hne, hlast⟩
      rcases LineIndex.endsLine_iff.mp hshut with rfl | hfeed
      · simp at hne
      · exact hlast hfeed
    have hx : LineIndex.EndsLine x := by
      rcases hends with hx | rfl
      · exact hx
      · rwa [hsource, List.append_nil] at hshut
    rw [if_neg hnot]
    exact Splice.makes_put _ hsource hx hxlines hylines
  · have hne : source ≠ [] := fun h => hshut (.inl h)
    have hlast : source.getLast? ≠ some '\n' := by
      intro h
      exact hshut (LineIndex.endsLine_iff.mpr (.inr h))
    by_cases hy : y = []
    · -- the last line is behind the last line feed
      subst hy
      rw [List.append_nil] at hsource
      subst hsource
      rw [if_pos ⟨rfl, by simpa using hne, hlast⟩]
      have hlength : source.rawLines.length ≤ last.stop.line + 1 := by
        rw [hxlines]
        exact List.length_take_le _ _
      refine Splice.makes_put_of_unterminated hshut hlength (c := c) ?_ hfeed
      simp [Setting.around, hc]
    · have hnot : ¬ (Text.size x = Text.size source ∧ (!source.isEmpty) = true ∧
          source.getLast? ≠ some '\n') := by
        rintro ⟨hsize, -⟩
        rw [hsource, Text.size_append] at hsize
        obtain ⟨d, y, rfl⟩ := List.exists_cons_of_ne_nil hy
        have := Text.size_pos_of_cons d y
        omega
      rw [if_neg hnot]
      exact Splice.makes_put _ hsource (hends.resolve_right hy) hxlines hylines

/-- **A line is put in front of that of an item.** -/
theorem makes_of_addItemBefore {marker : Option Nat} {before : Text} (hs : s.Within source)
    (column : Nat) (hmarker : Extent.itemMarker s.source (s.startOf next) = .ok marker)
    (hbefore : s.linePrefix (marker.getD (s.startOf next)) = .ok before)
    (hblank : before.allBlank = true) :
    ∃ splice text, Block.addItemBefore s column next f = .ok splice ∧
      splice.apply source = .ok text ∧
      (LineEdit.put (s.lines.position (marker.getD (s.startOf next))).line).Makes source text := by
  obtain ⟨front, back, hsource, hfront, hline, hplace⟩ := exists_linePrefix hs hbefore
  have hnumber : (s.lines.position (marker.getD (s.startOf next))).line = front.count '\n' := by
    rw [hplace, Snapshot.lines_eq hs.map, hsource, LineIndex.line_position, List.count_append,
      hline, Nat.add_zero]
  have hstart : marker.getD (s.startOf next) - Text.size before = Text.size front := by
    rw [hplace, Text.size_append, Nat.add_sub_cancel]
  rw [List.append_assoc] at hsource
  have hlines : source.rawLines = front.rawLines ++ Text.rawLines (before ++ back) := by
    rw [hsource, Text.rawLines_append hfront]
  have hfirst : front.rawLines = source.rawLines.take (front.count '\n') := by
    rw [hlines, ← Text.length_rawLines hfront, List.take_left]
  have hrest : Text.rawLines (before ++ back) = source.rawLines.drop (front.count '\n') := by
    rw [hlines, ← Text.length_rawLines hfront, List.drop_left]
  obtain ⟨text, htext, hmakes⟩ := Splice.makes_put
    (Text.spaces column ++ ("- ".toList ++ f.indented (Indentation.nested column) false))
    hsource hfront hfirst hrest
  refine ⟨_, text, ?_, htext, by rwa [hnumber]⟩
  have hmarker' : (liftM (Extent.itemMarker s.source (s.startOf next)) :
      EditError.Result (Option Nat)) = .ok marker := lift_offset_eq_ok.mpr hmarker
  unfold Block.addItemBefore
  dsimp only
  rw [hmarker', ok_bind, hbefore, ok_bind, if_pos hblank, hstart, itemLines_eq]
  rfl

end Planners

end Plan

open Plan in
/-- **Edits of block collections are edits of lines.** The removal of an entry with nothing but
blanks in front of it takes out its lines, and an addition behind the last entry, or in front of an
item with nothing but blanks in front of it, puts in lines of its own, with a line feed at the end
of the text or without one; every other line is the same. -/
theorem lines_of_editsLines {source : Text} {s : Snapshot} {o : Operation} {edit : LineEdit}
    (hread : Snapshot.ofText source = .ok s) (h : EditsLines s o edit) :
    ∃ splice text, Plan.operation s o = .ok splice ∧ splice.apply source = .ok text ∧
      edit.Makes source text := by
  have hs := Snapshot.within_of_ofText hread
  cases h with
  | @delete path target parent first i start before hpath hentry hblock hfirst hstart hbefore
      hblank hend =>
      have htarget : s.tree.Holds target.node :=
        ((yields_iff.mp (hs.sound.resolve path)).1 _ hpath).node
      obtain ⟨splice, text, hremove, htext, hmakes⟩ := makes_of_remove (i := i) hs
        (Snapshot.measured_of_ofText hread htarget) htarget hstart hbefore hblank hend
      refine ⟨splice, text, ?_, htext, hmakes⟩
      show Plan.delete s path = _
      rw [delete_eq hpath hentry hfirst, if_neg (by simp [hblock]), hremove]
  | @mapAdd path key value target last k f hpath hblock hmapping hk hline hf hlast =>
      obtain ⟨first, hfirst⟩ : ∃ first, target.node.children.head? = some first := by
        cases hchildren : target.node.children with
        | nil => simp [hchildren] at hlast
        | cons first rest => exact ⟨first, rfl⟩
      obtain ⟨text, htext, hmakes⟩ := makes_of_addLines hs last first.start.column
        (k.text ++ (if f.isContainer then
          ":\n".toList ++ f.indented (Indentation.nested first.start.column) true
          else ": ".toList ++ f.indented (Indentation.nested first.start.column) false))
        (c := ':') (by split <;> simp) (by decide)
      refine ⟨_, text, ?_, htext, hmakes⟩
      show Plan.mapAdd s path key value = _
      rw [mapAdd_eq hpath hmapping hk hline hf, if_neg (by simp [hblock])]
      unfold Block.addPair
      rw [hfirst, hlast]
      dsimp only
      rw [pairLines_eq]
  | @behind path value index target last f hpath hblock hsequence hf hnext hlast =>
      obtain ⟨text, htext, hmakes⟩ := makes_of_addLines hs last target.node.start.column
        ("- ".toList ++ f.indented (Indentation.nested target.node.start.column) false)
        (c := '-') (by simp) (by decide)
      refine ⟨_, text, ?_, htext, hmakes⟩
      show Plan.seqAdd s path value index = _
      rw [seqAdd_eq hpath hsequence hf, if_neg (by simp [hblock])]
      unfold Block.addItem
      rw [hnext, hlast]
      dsimp only
      rw [itemLines_eq]
  | @inFront path value index target next f marker before hpath hblock hsequence hf hnext hmarker
      hbefore hblank =>
      obtain ⟨splice, text, hadd, htext, hmakes⟩ := makes_of_addItemBefore (f := f) hs
        target.node.start.column hmarker hbefore hblank
      refine ⟨splice, text, ?_, htext, hmakes⟩
      show Plan.seqAdd s path value index = _
      rw [seqAdd_eq hpath hsequence hf, if_neg (by simp [hblock])]
      unfold Block.addItem
      rw [hnext]
      exact hadd

/-- The last line goes, and the line feed in front of it stays. -/
theorem lines_of_editsLines_last :
    ∃ e splice text, Editor.load "- a\n- b".toList = .ok e ∧
      Plan.EditsLines e.snapshot (.delete "1".toList) (.take 1 1) ∧
      Plan.operation e.snapshot (.delete "1".toList) = .ok splice ∧
      splice.apply "- a\n- b".toList = .ok text ∧
      (LineEdit.take 1 1).Makes "- a\n- b".toList text := by
  obtain ⟨e, hload, hpath, hstyle, hitem⟩ := Editor.exists_load "- a\n- b".toList
    (P := fun e => e.snapshot.addressOf "1".toList = some ([0, 0] ++ [1]) ∧
      e.snapshot.entryStyle? ([0, 0] ++ [1]) = some .block ∧
      (e.snapshot.tree.root.descendant? [0, 0]).all (fun n =>
        !n.isFlow ∧ !n.isMapping ∧ (n.children[1]?).all (fun item =>
          (Plan.Block.entryStart e.snapshot n item).toOption = some 4 ∧
          (e.snapshot.linePrefix 4).toOption = some [] ∧ 4 ≤ e.snapshot.stopOf item ∧
          item.stop.line = 1 ∧ (e.snapshot.lines.position 4).line = 1)) = true)
    (by decide +kernel)
  have hread := (Editor.load_eq_ok hload).1
  obtain ⟨target, n, hresolve, hentry, hn, hlast⟩ :=
    Snapshot.child_of_addressOf hread hpath hstyle .delete
  rw [hn, Option.all_some, decide_eq_true_eq, hlast, Option.all_some, decide_eq_true_eq] at hitem
  obtain ⟨hblock, hsequence, hstart, hbefore, hend, hstop, hline⟩ := hitem
  have hfirst : (if n.isMapping then n.pairedKey 1 else pure target.node) = .ok target.node := by
    rw [if_neg (by simpa using hsequence)]
    rfl
  have hedits := Plan.EditsLines.delete hresolve hentry (by simpa using hblock) hfirst
    (toOption_eq_some.mp hstart) (toOption_eq_some.mp hbefore) rfl hend
  rw [hstop, hline] at hedits
  obtain ⟨splice, text, hplan, htext, hmakes⟩ := lines_of_editsLines hread hedits
  exact ⟨e, splice, text, hload, hedits, hplan, htext, hmakes⟩

/-- The `-` of an item is not found behind a comment: the line with the `-`, at the start of the
sequence, stays behind. -/
theorem delete_of_commented_item_leaves_line :
    ∃ e e' text, Editor.edit "- # c\n  x\n- b\n".toList (.delete "0".toList) = some (e, e', text) ∧
      e.snapshot.addressOf "0".toList = some ([0, 0] ++ [0]) ∧
      e.snapshot.entryStyle? ([0, 0] ++ [0]) = some .block ∧
      (e.snapshot.tree.root.descendant? [0, 0]).map (·.start) = some ⟨0, 0⟩ ∧
      (e.snapshot.tree.root.descendant? [0, 0, 0]).map (·.stop.line) = some 1 ∧
      text = "- # c\n- b\n".toList ∧
      ¬ (LineEdit.take 0 1).Makes "- # c\n  x\n- b\n".toList text := by
  obtain ⟨e, e', text, hedit, hpath, hstyle, hsequence, hitem, htext⟩ :=
    Editor.exists_edit "- # c\n  x\n- b\n".toList (.delete "0".toList)
    (P := fun e e' text => e.snapshot.addressOf "0".toList = some ([0, 0] ++ [0]) ∧
      e.snapshot.entryStyle? ([0, 0] ++ [0]) = some .block ∧
      (e.snapshot.tree.root.descendant? [0, 0]).map (·.start) = some ⟨0, 0⟩ ∧
      (e.snapshot.tree.root.descendant? [0, 0, 0]).map (·.stop.line) = some 1 ∧
      text = "- # c\n- b\n".toList)
    (by decide +kernel)
  refine ⟨e, e', text, hedit, hpath, hstyle, hsequence, hitem, htext, ?_⟩
  rw [htext]
  show ¬ Text.rawLines _ = _
  decide

end YamlEdit
