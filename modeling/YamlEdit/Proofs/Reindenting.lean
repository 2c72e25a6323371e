import Mathlib.Data.List.DropRight
import Mathlib.Order.Bounds.Basic
import YamlEdit.Proofs.WritingBack

/-!
# Lines that are moved

A text is made of pieces with a line feed between each two, and its lines are these pieces without
the carriage return that may stand in front of a line feed (`Text.lines_intercalate`). Moving a text
moves each of its lines (`Indentation.reindent_intercalate`), and a line that is moved twice is where
the second move puts it. Only a line that ends with two carriage returns loses one with each move.

Main statement: `Indentation.reindent_uniform`.
-/

namespace YamlEdit

namespace Text

/-- A line without a carriage return at its end. -/
def dropReturn (line : Text) : Text := if line.getLast? = some '\r' then line.dropLast else line

/-- Line number `i` of a text, which is not blank. -/
def InkLine (t : Text) (i : Nat) (line : Text) : Prop :=
  t.lines[i]? = some line ∧ line.allBlank = false

section Pieces

variable {ls : List Text} {line last : Text} {i : Nat}

/-- **Every text is made of pieces**, with a line feed between each two. -/
theorem exists_pieces (t : Text) : ∃ ls last, t = ['\n'].intercalate (ls ++ [last]) ∧
    ∀ piece ∈ ls ++ [last], '\n' ∉ piece := by
  induction t with
  | nil => exact ⟨[], [], rfl, by simp⟩
  | cons c t ih =>
      obtain ⟨ls, last, rfl, hpieces⟩ := ih
      by_cases hc : c = '\n'
      · refine ⟨[] :: ls, last, ?_, by simpa using hpieces⟩
        rw [List.cons_append, List.intercalate_cons_of_ne_nil (by simp), hc]
        rfl
      · cases ls with
        | nil =>
            refine ⟨[], c :: last, by simp, ?_⟩
            simpa [Ne.symm hc] using hpieces
        | cons l ls =>
            refine ⟨(c :: l) :: ls, last, ?_, ?_⟩
            · rw [List.cons_append, List.cons_append, List.intercalate_cons_of_ne_nil (by simp),
                List.intercalate_cons_of_ne_nil (by simp)]
              rfl
            · simpa [Ne.symm hc] using hpieces

theorem count_eq_zero_of_piece (h : ∀ piece ∈ ls ++ [last], '\n' ∉ piece)
    (hline : line ∈ ls ++ [last]) : line.count '\n' = 0 :=
  List.count_eq_zero.mpr (h line hline)

theorem rawLines_intercalate (h : ∀ piece ∈ ls ++ [last], '\n' ∉ piece) :
    rawLines (['\n'].intercalate (ls ++ [last])) =
      ls.map (· ++ ['\n']) ++ if last = [] then [] else [last] := by
  induction ls with
  | nil =>
      rw [List.nil_append, List.intercalate_singleton]
      split
      · next hlast =>
          rw [hlast]
          rfl
      · next hlast => exact rawLines_line (count_eq_zero_of_piece h (by simp)) hlast
  | cons l ls ih =>
      have hl : l.count '\n' = 0 := count_eq_zero_of_piece h (by simp)
      rw [List.cons_append, List.intercalate_cons_of_ne_nil (by simp), List.append_assoc,
        List.singleton_append, rawLines_lineFeed, rawLines_line_lineFeed hl,
        ih fun piece hpiece => h piece (List.mem_cons_of_mem l hpiece)]
      rfl

theorem chompLine_lineFeed (line : Text) : chompLine (line ++ ['\n']) = dropReturn line := by
  rcases List.eq_nil_or_concat line with rfl | ⟨front, c, rfl⟩
  · rfl
  · rw [List.concat_eq_append, dropReturn, List.getLast?_concat, List.dropLast_concat]
    by_cases hc : c = '\r'
    · simp [chompLine, hc]
    · simp [chompLine, hc]

/-- **The lines of a text** are its pieces without the carriage returns in front of line feeds. The
last piece is no line if it is empty. -/
theorem lines_intercalate (h : ∀ piece ∈ ls ++ [last], '\n' ∉ piece) :
    lines (['\n'].intercalate (ls ++ [last])) =
      ls.map dropReturn ++ if last = [] then [] else [last] := by
  rw [lines, rawLines_intercalate h, List.map_append, List.map_map]
  congr 1
  · exact List.map_congr_left fun l _ => chompLine_lineFeed l
  · split
    · rfl
    · rw [List.map_singleton, chompLine_of_count (count_eq_zero_of_piece h (by simp))]

/-- A piece that is left out is blank. -/
theorem inkLine_intercalate (h : ∀ piece ∈ ls ++ [last], '\n' ∉ piece) :
    InkLine (['\n'].intercalate (ls ++ [last])) i line ↔
      (ls.map dropReturn ++ [last])[i]? = some line ∧ line.allBlank = false := by
  rw [InkLine, lines_intercalate h]
  split
  · next hlast =>
      rw [List.append_nil, hlast]
      refine and_congr_left fun hink => ?_
      constructor
      · intro hi
        obtain ⟨hlt, -⟩ := List.getElem?_eq_some_iff.mp hi
        rwa [List.getElem?_append_left hlt]
      · intro hi
        rw [List.getElem?_append] at hi
        split at hi
        · exact hi
        · have hmem := List.mem_of_getElem? hi
          rw [List.mem_singleton.mp hmem] at hink
          cases hink
  · rfl

/-- Pieces can be told from the text. -/
theorem intercalate_inj {ps qs : List Text} (hp : ∀ piece ∈ ps, '\n' ∉ piece)
    (hq : ∀ piece ∈ qs, '\n' ∉ piece) (hps : ps ≠ []) (hqs : qs ≠ [])
    (h : ['\n'].intercalate ps = ['\n'].intercalate qs) : ps = qs := by
  rw [← List.splitOn_intercalate '\n' hp hps, h, List.splitOn_intercalate '\n' hq hqs]

/-! ## Carriage returns -/

theorem dropReturn_concat (front : Text) : dropReturn (front ++ ['\r']) = front := by
  rw [dropReturn, List.getLast?_concat, if_pos rfl, List.dropLast_concat]

theorem dropReturn_of_getLast? (h : line.getLast? ≠ some '\r') : dropReturn line = line := if_neg h

theorem dropReturn_isPrefix (line : Text) : dropReturn line <+: line := by
  unfold dropReturn
  split
  · exact List.dropLast_prefix line
  · exact List.prefix_rfl

theorem dropReturn_eq_self_iff : dropReturn line = line ↔ line.getLast? ≠ some '\r' := by
  refine ⟨fun h hlast => ?_, dropReturn_of_getLast?⟩
  obtain ⟨front, rfl⟩ := List.getLast?_eq_some_iff.mp hlast
  rw [dropReturn_concat] at h
  simpa using congrArg List.length h

theorem allBlank_dropReturn (line : Text) : (dropReturn line).allBlank = line.allBlank := by
  by_cases hlast : line.getLast? = some '\r'
  · obtain ⟨front, rfl⟩ := List.getLast?_eq_some_iff.mp hlast
    rw [dropReturn_concat]
    simp [allBlank, isBlank]
  · rw [dropReturn_of_getLast? hlast]

/-- A line ends with a carriage return, one being dropped, if there are two in front of its line
feed. -/
theorem getLast?_dropReturn_iff :
    (dropReturn line).getLast? = some '\r' ↔ ['\r', '\r', '\n'] <:+ line ++ ['\n'] := by
  have hsplit : ∀ x : Text, x ++ ['\r', '\r', '\n'] = x ++ ['\r', '\r'] ++ ['\n'] := by simp
  constructor
  · intro h
    by_cases hlast : line.getLast? = some '\r'
    · obtain ⟨front, rfl⟩ := List.getLast?_eq_some_iff.mp hlast
      rw [dropReturn_concat] at h
      obtain ⟨front, rfl⟩ := List.getLast?_eq_some_iff.mp h
      exact ⟨front, by simp⟩
    · rw [dropReturn_of_getLast? hlast] at h
      exact absurd h hlast
  · rintro ⟨x, hx⟩
    rw [hsplit] at hx
    obtain rfl := List.append_cancel_right hx
    rw [show x ++ ['\r', '\r'] = x ++ ['\r'] ++ ['\r'] by simp, dropReturn_concat,
      List.getLast?_concat]

end Pieces

end Text

namespace Indentation

open Text

/-- The lines of a text, moved to a column, given their least indentation. The first line only goes
along if `indentFirst`. -/
def moved (column least : Nat) (indentFirst : Bool) : List Text → List Text
  | [] => []
  | first :: rest =>
    (if indentFirst then shiftLine column least else continueLine) first ::
      rest.map (shiftLine column least)

section Moves

variable {ls : List Text} {line last : Text} {i column least a b : Nat} {indentFirst : Bool}

/-! ## One line -/

theorem trimStart_eq_nil_iff : line.trimStart = [] ↔ line.allBlank = true := by
  rw [Text.trimStart, List.dropWhile_eq_nil_iff, allBlank, List.all_eq_true]

theorem isBlank_of_trimStart {c : Char} {rest : Text} (h : line.trimStart = c :: rest) :
    isBlank c = false := by
  have hdrop := List.head?_dropWhile_not isBlank line
  rw [show line.dropWhile isBlank = c :: rest from h] at hdrop
  simpa using hdrop

theorem ofLine_spaces_append (n : Nat) (line : Text) :
    ofLine (spaces n ++ line.trimStart) = n := by
  unfold ofLine spaces
  rw [List.takeWhile_append_of_pos (by simp), List.length_append, List.length_replicate]
  cases htrim : line.trimStart with
  | nil => rfl
  | cons c rest =>
      have hc : c ≠ ' ' := by
        rintro rfl
        exact absurd (isBlank_of_trimStart htrim) (by decide)
      simp [hc]

theorem shiftLine_of_ink (h : line.allBlank = false) :
    shiftLine column least line = spaces (column + (ofLine line - least)) ++ line.trimStart := by
  rw [shiftLine, h, if_neg (by decide)]

theorem shiftLine_of_blank (h : line.allBlank = true) : shiftLine column least line = [] := by
  rw [shiftLine, h, if_pos rfl]

/-- **A line is moved by its indentation above the least one.** -/
theorem ofLine_shiftLine (h : line.allBlank = false) :
    ofLine (shiftLine column least line) = column + (ofLine line - least) := by
  rw [shiftLine_of_ink h, ofLine_spaces_append]

theorem trimStart_shiftLine (column least : Nat) (line : Text) :
    (shiftLine column least line).trimStart = line.trimStart := by
  cases h : line.allBlank with
  | true => rw [shiftLine_of_blank h, trimStart_eq_nil_iff.mpr h, trimStart, List.dropWhile_nil]
  | false =>
      rw [shiftLine_of_ink h, trimStart_spaces, trimStart, trimStart, List.dropWhile_idempotent]

theorem allBlank_eq_of_trimStart {x y : Text} (h : x.trimStart = y.trimStart) :
    x.allBlank = y.allBlank := by
  rw [Bool.eq_iff_iff, ← trimStart_eq_nil_iff, ← trimStart_eq_nil_iff, h]

theorem allBlank_shiftLine (column least : Nat) (line : Text) :
    (shiftLine column least line).allBlank = line.allBlank :=
  allBlank_eq_of_trimStart (trimStart_shiftLine column least line)

/-- **A line that is moved twice** is where the second move puts it. -/
theorem shiftLine_shiftLine (a b least : Nat) (line : Text) :
    shiftLine b a (shiftLine a least line) = shiftLine b least line := by
  cases h : line.allBlank with
  | true => rw [shiftLine_of_blank h, shiftLine_of_blank h, shiftLine_of_blank rfl]
  | false =>
      have hmoved := (allBlank_shiftLine a least line).trans h
      rw [shiftLine_of_ink hmoved, ofLine_shiftLine h, trimStart_shiftLine, shiftLine_of_ink h,
        Nat.add_sub_cancel_left]

theorem not_mem_shiftLine (h : '\n' ∉ line) : '\n' ∉ shiftLine column least line :=
  List.count_eq_zero.mp (count_shiftLine (List.count_eq_zero.mpr h))

theorem not_mem_continueLine (h : '\n' ∉ line) : '\n' ∉ continueLine line := by
  unfold continueLine
  split
  · simp
  · exact fun hmem => h ((List.dropWhile_sublist isBlank).mem hmem)

theorem ofLine_dropReturn (line : Text) : ofLine (dropReturn line) = ofLine line := by
  by_cases hlast : line.getLast? = some '\r'
  · obtain ⟨front, rfl⟩ := List.getLast?_eq_some_iff.mp hlast
    rw [dropReturn_concat, ofLine, ofLine, List.takeWhile_append]
    split
    · next h => simp [h]
    · rfl
  · rw [dropReturn_of_getLast? hlast]

/-- What is not blank keeps its end when its start is trimmed. -/
theorem getLast?_shiftLine (h : line.allBlank = false) :
    (shiftLine column least line).getLast? = line.getLast? := by
  have hne : line.trimStart ≠ [] := fun hnil => by
    rw [trimStart_eq_nil_iff.mp hnil] at h
    cases h
  have hsplit : line.takeWhile isBlank ++ line.trimStart = line := List.takeWhile_append_dropWhile
  rw [shiftLine_of_ink h, List.getLast?_append_of_ne_nil _ hne,
    ← List.getLast?_append_of_ne_nil (line.takeWhile isBlank) hne, hsplit]

/-- It makes no difference whether a carriage return is dropped before a line is moved or after. -/
theorem shiftLine_dropReturn (column least : Nat) (line : Text) :
    shiftLine column least (dropReturn line) = dropReturn (shiftLine column least line) := by
  cases h : line.allBlank with
  | true =>
      rw [shiftLine_of_blank h, shiftLine_of_blank ((allBlank_dropReturn line).trans h)]
      rfl
  | false =>
      by_cases hlast : line.getLast? = some '\r'
      · obtain ⟨front, rfl⟩ := List.getLast?_eq_some_iff.mp hlast
        have hdrop := allBlank_dropReturn (front ++ ['\r'])
        have hindent := ofLine_dropReturn (front ++ ['\r'])
        rw [dropReturn_concat] at hdrop hindent
        have hne : trimStart front ≠ [] := fun hnil => by
          rw [trimStart_eq_nil_iff.mp hnil, h] at hdrop
          cases hdrop
        have htrim : trimStart (front ++ ['\r']) = trimStart front ++ ['\r'] := by
          unfold trimStart at hne ⊢
          rw [List.dropWhile_append, if_neg (by simpa using hne)]
        rw [dropReturn_concat, shiftLine_of_ink (hdrop.trans h), shiftLine_of_ink h, htrim,
          ← List.append_assoc, dropReturn_concat, hindent]
      · rw [dropReturn_of_getLast? hlast,
          dropReturn_of_getLast? (by rwa [getLast?_shiftLine h])]

/-! ## All lines -/

theorem moved_concat (h : ls ≠ []) (last : Text) :
    moved column least indentFirst (ls ++ [last]) =
      moved column least indentFirst ls ++ [shiftLine column least last] := by
  cases ls with
  | nil => exact absurd rfl h
  | cons first rest => simp [moved]

theorem moved_ne_nil (h : ls ≠ []) : moved column least indentFirst ls ≠ [] := by
  cases ls with
  | nil => exact absurd rfl h
  | cons first rest => simp [moved]

theorem moved_true (column least : Nat) (ls : List Text) :
    moved column least true ls = ls.map (shiftLine column least) := by
  cases ls <;> rfl

theorem not_mem_of_mem_moved (column least : Nat) (indentFirst : Bool)
    (h : ∀ piece ∈ ls, '\n' ∉ piece) :
    ∀ piece ∈ moved column least indentFirst ls, '\n' ∉ piece := by
  cases ls with
  | nil => nofun
  | cons first rest =>
      intro piece hpiece
      rcases List.mem_cons.mp hpiece with rfl | hpiece
      · have hfirst := h first List.mem_cons_self
        cases indentFirst with
        | true => exact not_mem_shiftLine hfirst
        | false => exact not_mem_continueLine hfirst
      · obtain ⟨l, hl, rfl⟩ := List.mem_map.mp hpiece
        exact not_mem_shiftLine (h l (List.mem_cons_of_mem first hl))

/-- The lines that are moved: the pieces, without the carriage returns in front of line feeds. -/
theorem not_mem_of_mem_bodies (h : ∀ piece ∈ ls ++ [last], '\n' ∉ piece) :
    ∀ piece ∈ ls.map dropReturn ++ [last], '\n' ∉ piece := by
  intro piece hpiece
  rcases List.mem_append.mp hpiece with hpiece | hpiece
  · obtain ⟨l, hl, rfl⟩ := List.mem_map.mp hpiece
    exact fun hmem => h l (by simp [hl]) ((dropReturn_isPrefix l).subset hmem)
  · exact h piece (List.mem_append_right ls hpiece)

theorem reindent_eq (column : Nat) (indentFirst : Bool) (t : Text) :
    reindent column indentFirst t =
      if t.isEmpty ∨ (!indentFirst ∧ !t.contains '\n') then t
      else ['\n'].intercalate (moved column (minimum t) indentFirst t.lines) ++
        if t.getLast? = some '\n' then ['\n'] else [] := by
  unfold reindent
  cases t.lines <;> rfl

/-- **A text is moved by moving its lines.** -/
theorem reindent_intercalate (h : ∀ piece ∈ ls ++ [last], '\n' ∉ piece)
    (hfirst : indentFirst = true ∨ ls ≠ []) :
    reindent column indentFirst (['\n'].intercalate (ls ++ [last])) =
      ['\n'].intercalate (moved column (minimum (['\n'].intercalate (ls ++ [last]))) indentFirst
        (ls.map dropReturn ++ [last])) := by
  generalize hleast : minimum (['\n'].intercalate (ls ++ [last])) = least
  rw [reindent_eq, hleast, lines_intercalate h]
  by_cases hls : ls = []
  · -- a single piece
    subst hls
    obtain rfl := hfirst.resolve_right fun h => h rfl
    rw [List.nil_append, List.intercalate_singleton, List.map_nil, List.nil_append, List.nil_append]
    by_cases hlast : last = []
    · subst hlast
      rfl
    · have hfeed : last.getLast? ≠ some '\n' := fun hfeed =>
        h last (by simp) (List.mem_of_getLast? hfeed)
      rw [if_neg (by simp [hlast]), if_neg hlast, if_neg hfeed, List.append_nil]
  · have hmem : '\n' ∈ ['\n'].intercalate (ls ++ [last]) := by
      rw [intercalate_concat hls]
      simp
    rw [if_neg (by
      rintro (hempty | ⟨-, hnone⟩)
      · rw [List.isEmpty_iff.mp hempty] at hmem
        cases hmem
      · simp [hmem] at hnone)]
    have hmap : ls.map dropReturn ≠ [] := by simpa using hls
    rw [moved_concat hmap, intercalate_concat (moved_ne_nil hmap), intercalate_concat hls]
    by_cases hlast : last = []
    · rw [if_pos hlast, if_pos (by rw [hlast]; simp), hlast, List.append_nil]
      rfl
    · have hfeed : last.getLast? ≠ some '\n' := fun hfeed =>
        h last (by simp) (List.mem_of_getLast? hfeed)
      have hend : (['\n'].intercalate ls ++ '\n' :: last).getLast? ≠ some '\n' := by
        rw [List.getLast?_append_of_ne_nil _ (List.cons_ne_nil _ _),
          List.getLast?_cons_of_ne_nil hlast]
        exact hfeed
      rw [if_neg hlast, if_neg hend, moved_concat hmap, intercalate_concat (moved_ne_nil hmap),
        List.append_nil]

/-! ## Lines that are not blank -/

/-- Carriage returns are dropped from all pieces but the last one. -/
theorem getElem?_dropReturns {ms : List Text} {m x : Text}
    (h : (ms ++ [m])[i]? = some x) :
    ∃ y, (ms.map dropReturn ++ [m])[i]? = some y ∧ y.allBlank = x.allBlank ∧
      ofLine y = ofLine x := by
  rw [List.getElem?_append] at h ⊢
  rw [List.length_map]
  split at h
  · next hlt =>
      rw [if_pos hlt, List.getElem?_map, h]
      exact ⟨dropReturn x, rfl, allBlank_dropReturn x, ofLine_dropReturn x⟩
  · next hlt =>
      rw [if_neg hlt]
      exact ⟨x, h, rfl, rfl⟩

theorem getElem?_moved (column least : Nat) (h : ls[i]? = some line)
    (hi : indentFirst = true ∨ 0 < i) :
    (moved column least indentFirst ls)[i]? = some (shiftLine column least line) := by
  cases ls with
  | nil => cases h
  | cons first rest =>
      cases i with
      | zero =>
          obtain rfl := hi.resolve_right (Nat.lt_irrefl 0)
          cases h
          rfl
      | succ i =>
          rw [List.getElem?_cons_succ] at h
          rw [moved, List.getElem?_cons_succ, List.getElem?_map, h]
          rfl

/-- **A line that is not blank goes along**, and stays not blank. -/
theorem inkLine_reindent {t : Text} (column : Nat) (indentFirst : Bool) (h : t.InkLine i line)
    (hi : indentFirst = true ∨ 0 < i) :
    ∃ x, (reindent column indentFirst t).InkLine i x ∧
      ofLine x = column + (ofLine line - minimum t) := by
  obtain ⟨ls, last, rfl, hpieces⟩ := exists_pieces t
  obtain ⟨hget, hink⟩ := (inkLine_intercalate hpieces).mp h
  have hfirst : indentFirst = true ∨ ls ≠ [] := by
    refine hi.imp_right fun hi hls => ?_
    have := (List.getElem?_eq_some_iff.mp hget).1
    rw [hls] at this
    simp at this
    omega
  have hmoved := getElem?_moved column (minimum (['\n'].intercalate (ls ++ [last]))) hget hi
  have hfeeds := not_mem_of_mem_moved column (minimum (['\n'].intercalate (ls ++ [last])))
    indentFirst (not_mem_of_mem_bodies hpieces)
  rw [reindent_intercalate hpieces hfirst]
  obtain ⟨ms, m, hms⟩ : ∃ ms m, moved column (minimum (['\n'].intercalate (ls ++ [last])))
      indentFirst (ls.map dropReturn ++ [last]) = ms ++ [m] := by
    rcases List.eq_nil_or_concat (moved column (minimum (['\n'].intercalate (ls ++ [last])))
      indentFirst (ls.map dropReturn ++ [last])) with hnil | ⟨ms, m, hms⟩
    · exact absurd hnil (moved_ne_nil (by simp))
    · exact ⟨ms, m, by rw [hms, List.concat_eq_append]⟩
  rw [hms] at hmoved hfeeds ⊢
  obtain ⟨y, hy, hblank, hindent⟩ := getElem?_dropReturns hmoved
  refine ⟨y, (inkLine_intercalate hfeeds).mpr ⟨hy, ?_⟩, ?_⟩
  · rw [hblank, allBlank_shiftLine, hink]
  · rw [hindent, ofLine_shiftLine hink]

/-- The least indentation is that of a line that is not blank. -/
theorem isLeast_minimum {t : Text} (h : t.InkLine i line) :
    IsLeast {n | ∃ j x, t.InkLine j x ∧ ofLine x = n} (minimum t) := by
  have hmem : ∀ n, n ∈ (t.lines.filter (!Text.allBlank ·)).map ofLine ↔
      ∃ j x, t.InkLine j x ∧ ofLine x = n := by
    intro n
    rw [List.mem_map]
    constructor
    · rintro ⟨x, hx, rfl⟩
      obtain ⟨hx, hink⟩ := List.mem_filter.mp hx
      obtain ⟨j, hj⟩ := List.mem_iff_getElem?.mp hx
      exact ⟨j, x, ⟨hj, by simpa using hink⟩, rfl⟩
    · rintro ⟨j, x, ⟨hj, hink⟩, rfl⟩
      exact ⟨x, List.mem_filter.mpr ⟨List.mem_of_getElem? hj, by simp [hink]⟩, rfl⟩
  have hline := (hmem (ofLine line)).mpr ⟨i, line, h, rfl⟩
  unfold minimum
  cases hmin : ((t.lines.filter (!Text.allBlank ·)).map ofLine).min? with
  | none =>
      rw [List.min?_eq_none_iff.mp hmin] at hline
      cases hline
  | some n =>
      obtain ⟨hn, hleast⟩ := List.min?_eq_some_iff.mp hmin
      exact ⟨(hmem n).mp hn, fun k hk => hleast k ((hmem k).mpr hk)⟩

/-! ## Moving twice -/

/-- No line that is not blank stands in front of the column. -/
theorem le_ofLine_of_inkLine_reindent {t : Text}
    (h : (reindent column true t).InkLine i line) : column ≤ ofLine line := by
  obtain ⟨ls, last, rfl, hpieces⟩ := exists_pieces t
  rw [reindent_intercalate hpieces (.inl rfl), moved_true, List.map_append, List.map_singleton]
    at h
  have hfeeds := not_mem_of_mem_moved column (minimum (['\n'].intercalate (ls ++ [last])))
    true (not_mem_of_mem_bodies hpieces)
  rw [moved_true, List.map_append, List.map_singleton] at hfeeds
  obtain ⟨hget, hink⟩ := (inkLine_intercalate hfeeds).mp h
  have hshifted : ∃ x, line = shiftLine column (minimum (['\n'].intercalate (ls ++ [last]))) x := by
    rcases List.mem_append.mp (List.mem_of_getElem? hget) with hmem | hmem
    · obtain ⟨y, hy, rfl⟩ := List.mem_map.mp hmem
      obtain ⟨x, -, rfl⟩ := List.mem_map.mp hy
      exact ⟨dropReturn x, (shiftLine_dropReturn _ _ x).symm⟩
    · exact ⟨last, List.mem_singleton.mp hmem⟩
  obtain ⟨x, rfl⟩ := hshifted
  rw [allBlank_shiftLine] at hink
  rw [ofLine_shiftLine hink]
  exact Nat.le_add_right _ _

/-- **The column is the least indentation** of what has been moved there, unless all is blank. -/
theorem minimum_reindent {t : Text} (h : t.InkLine i line) :
    minimum (reindent column true t) = column := by
  obtain ⟨⟨j, x, hx, hleast⟩, -⟩ := isLeast_minimum h
  obtain ⟨y, hy, hcolumn⟩ := inkLine_reindent column true hx (.inl rfl)
  rw [hleast, Nat.sub_self, Nat.add_zero] at hcolumn
  refine (isLeast_minimum hy).unique ⟨⟨j, y, hy, hcolumn⟩, ?_⟩
  rintro n ⟨k, z, hz, rfl⟩
  exact le_ofLine_of_inkLine_reindent hz

/-- A text that is moved twice is made of the lines that are moved by the second move alone, but
these drop another carriage return. -/
theorem reindent_reindent (h : ∀ piece ∈ ls ++ [last], '\n' ∉ piece) (a b : Nat) :
    reindent b true (reindent a true (['\n'].intercalate (ls ++ [last]))) =
      ['\n'].intercalate (ls.map (fun l => dropReturn (shiftLine b
        (minimum (['\n'].intercalate (ls ++ [last]))) (dropReturn l))) ++
        [shiftLine b (minimum (['\n'].intercalate (ls ++ [last]))) last]) := by
  generalize hleast : minimum (['\n'].intercalate (ls ++ [last])) = least
  have htwice : ∀ (i : Nat) (line : Text), (ls.map dropReturn ++ [last])[i]? = some line →
      shiftLine b (minimum (reindent a true (['\n'].intercalate (ls ++ [last]))))
        (shiftLine a least line) = shiftLine b least line := by
    intro i line hget
    cases hink : line.allBlank with
    | true => rw [shiftLine_of_blank hink, shiftLine_of_blank hink, shiftLine_of_blank rfl]
    | false =>
        rw [minimum_reindent ((inkLine_intercalate h).mpr ⟨hget, hink⟩), shiftLine_shiftLine]
  have hmoved : reindent a true (['\n'].intercalate (ls ++ [last])) =
      ['\n'].intercalate
        ((ls.map dropReturn).map (shiftLine a least) ++ [shiftLine a least last]) := by
    rw [reindent_intercalate h (.inl rfl), moved_true, hleast, List.map_append, List.map_singleton]
  have hfeeds := not_mem_of_mem_moved a least true (not_mem_of_mem_bodies h)
  rw [moved_true, List.map_append, List.map_singleton] at hfeeds
  rw [hmoved] at htwice ⊢
  rw [reindent_intercalate hfeeds (.inl rfl), moved_true, List.map_append, List.map_singleton]
  congr 2
  · rw [List.map_map, List.map_map, List.map_map]
    refine List.map_congr_left fun l hl => ?_
    obtain ⟨i, hi⟩ := List.mem_iff_getElem?.mp
      (List.mem_append_left [last] (List.mem_map_of_mem (f := dropReturn) hl))
    show shiftLine b _ (dropReturn (shiftLine a least (dropReturn l))) = _
    rw [shiftLine_dropReturn, htwice i _ hi]
  · rw [htwice ls.length last (by simp)]

/-- A line keeps its end when it is moved, so it loses a carriage return with every move. -/
theorem dropReturn_shiftLine_iff {l : Text} :
    dropReturn (shiftLine column least (dropReturn l)) = shiftLine column least (dropReturn l) ↔
      (['\r', '\r', '\n'] <:+ l ++ ['\n'] → (l ++ ['\n']).allBlank = true) := by
  have hblank : (l ++ ['\n']).allBlank = (dropReturn l).allBlank := by
    rw [allBlank_dropReturn]
    simp [allBlank, isBlank]
  rw [hblank, ← getLast?_dropReturn_iff, dropReturn_eq_self_iff]
  cases hink : (dropReturn l).allBlank with
  | true => simp [shiftLine_of_blank hink]
  | false => simp [getLast?_shiftLine hink]

/-- **Moving twice is moving once** unless a line ends with two carriage returns. -/
theorem reindent_reindent_eq_iff (t : Text) (a b : Nat) :
    reindent b true (reindent a true t) = reindent b true t ↔
      ∀ line ∈ t.rawLines, ['\r', '\r', '\n'] <:+ line → line.allBlank = true := by
  obtain ⟨ls, last, rfl, hpieces⟩ := exists_pieces t
  have hlast : ∀ line ∈ (if last = [] then ([] : List Text) else [last]),
      ['\r', '\r', '\n'] <:+ line → line.allBlank = true := by
    intro line hline hfeed
    split at hline
    · cases hline
    · obtain rfl := List.mem_singleton.mp hline
      exact absurd (hfeed.subset (by simp)) (hpieces line (by simp))
  have hbodies := not_mem_of_mem_bodies hpieces
  have hfeeds : ∀ l ∈ ls, ∀ least, '\n' ∉ shiftLine b least (dropReturn l) := fun l hl least =>
    not_mem_shiftLine (hbodies _ (List.mem_append_left _ (List.mem_map_of_mem hl)))
  have hfeed : ∀ least, '\n' ∉ shiftLine b least last := fun least =>
    not_mem_shiftLine (hpieces last (by simp))
  rw [reindent_reindent hpieces, reindent_intercalate hpieces (.inl rfl), moved_true,
    List.map_append, List.map_singleton, List.map_map, rawLines_intercalate hpieces]
  generalize minimum (['\n'].intercalate (ls ++ [last])) = least
  constructor
  · intro h
    have hpiecewise := List.append_cancel_right (intercalate_inj (by
        intro piece hpiece
        rcases List.mem_append.mp hpiece with hpiece | hpiece
        · obtain ⟨l, hl, rfl⟩ := List.mem_map.mp hpiece
          exact fun hmem => hfeeds l hl least ((dropReturn_isPrefix _).subset hmem)
        · rw [List.mem_singleton.mp hpiece]
          exact hfeed least) (by
        intro piece hpiece
        rcases List.mem_append.mp hpiece with hpiece | hpiece
        · obtain ⟨l, hl, rfl⟩ := List.mem_map.mp hpiece
          exact hfeeds l hl least
        · rw [List.mem_singleton.mp hpiece]
          exact hfeed least) (by simp) (by simp) h)
    intro line hline
    rcases List.mem_append.mp hline with hline | hline
    · obtain ⟨l, hl, rfl⟩ := List.mem_map.mp hline
      exact dropReturn_shiftLine_iff.mp (List.map_inj_left.mp hpiecewise l hl)
    · exact hlast line hline
  · intro h
    congr 2
    refine List.map_congr_left fun l hl => dropReturn_shiftLine_iff.mpr ?_
    exact h _ (List.mem_append_left _ (List.mem_map_of_mem hl))

end Moves

/-- **Moving is a uniform shift.** With the first line, any two lines that are not blank keep the
difference of their indentations, the least indented ones stand at the column, and moving twice is
moving once unless a line ends with two carriage returns. Without the first line, every other line
stands at the column plus its own excess over the least indentation. -/
theorem reindent_uniform (t : Text) (a b : Nat) :
    (∀ i j x y, t.InkLine i x → t.InkLine j y → ∃ x' y', (reindent a true t).InkLine i x' ∧
      (reindent a true t).InkLine j y' ∧ (ofLine x' : Int) - ofLine y' = ofLine x - ofLine y) ∧
    (∀ i x, t.InkLine i x → (∀ j y, t.InkLine j y → ofLine x ≤ ofLine y) →
      ∃ x', (reindent a true t).InkLine i x' ∧ ofLine x' = a) ∧
    (reindent b true (reindent a true t) = reindent b true t ↔
      ∀ line ∈ t.rawLines, ['\r', '\r', '\n'] <:+ line → line.allBlank = true) ∧
    (∀ i x least, 0 < i → t.InkLine i x → IsLeast {n | ∃ j y, t.InkLine j y ∧ ofLine y = n} least →
      ∃ x', (reindent a false t).InkLine i x' ∧ ofLine x' = a + (ofLine x - least)) ∧
    (∀ i j x y, 0 < i → 0 < j → t.InkLine i x → t.InkLine j y →
      ∃ x' y', (reindent a false t).InkLine i x' ∧ (reindent a false t).InkLine j y' ∧
        (ofLine x' : Int) - ofLine y' = ofLine x - ofLine y) := by
  have hleast : ∀ {i x}, t.InkLine i x → minimum t ≤ ofLine x := fun h =>
    (isLeast_minimum h).2 ⟨_, _, h, rfl⟩
  have hpair : ∀ {indentFirst : Bool} {i j x y}, (indentFirst = true ∨ 0 < i) →
      (indentFirst = true ∨ 0 < j) → t.InkLine i x → t.InkLine j y →
      ∃ x' y', (reindent a indentFirst t).InkLine i x' ∧ (reindent a indentFirst t).InkLine j y' ∧
        (ofLine x' : Int) - ofLine y' = ofLine x - ofLine y := by
    intro indentFirst i j x y hi hj hx hy
    obtain ⟨x', hx', hxcolumn⟩ := inkLine_reindent a indentFirst hx hi
    obtain ⟨y', hy', hycolumn⟩ := inkLine_reindent a indentFirst hy hj
    have hxleast := hleast hx
    have hyleast := hleast hy
    exact ⟨x', y', hx', hy', by omega⟩
  refine ⟨fun i j x y => hpair (.inl rfl) (.inl rfl), ?_, reindent_reindent_eq_iff t a b, ?_,
    fun i j x y hi hj => hpair (.inr hi) (.inr hj)⟩
  · intro i x hx hall
    obtain ⟨x', hx', hcolumn⟩ := inkLine_reindent a true hx (.inl rfl)
    obtain ⟨⟨j, y, hy, hmin⟩, -⟩ := isLeast_minimum hx
    have hle := hall j y hy
    exact ⟨x', hx', by omega⟩
  · intro i x least hi hx hmin
    obtain ⟨x', hx', hcolumn⟩ := inkLine_reindent a false hx (.inr hi)
    rw [(isLeast_minimum hx).unique hmin] at hcolumn
    exact ⟨x', hx', hcolumn⟩

/-- A line that ends with two carriage returns loses one with each move, and a line of wide spaces,
which are no indentation, is left empty. -/
theorem reindent_drops_returns_and_wide_spaces :
    reindent 2 true (reindent 0 true "x\r\r\ny".toList) ≠ reindent 2 true "x\r\r\ny".toList ∧
      (Fragment.ofValue (.string "x\n\u3000\ny".toList)).toOption.map
        (fun f => (f.text.lines.map ofLine, (f.indented 2 false).lines)) =
        some ([0, 2, 2, 2], ["|-".toList, "    x".toList, [], "    y".toList]) := by
  decide +kernel

end Indentation
end YamlEdit
