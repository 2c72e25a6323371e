import YamlEdit.Proofs.LineEdits
import YamlEdit.Proofs.Numerals

/-!
# Writing back what is there

An update with the value that is there already, written just as it is, comes down to one question:
whether the planner puts the written form into the text as it is. A single line is (but for white
space at its ends, in brackets). Several lines are not, because the first one stays where it is and
has no indentation, so that all others are moved by the column of the value once more
(`Indentation.reindent_eq_self_iff`). Main statement: `update_writes_back_iff`.
-/

namespace YamlEdit

/-! ## The first line of a written value -/

/-- A text whose first line is not empty. -/
def Text.HasFirstLine (t : Text) : Prop := ∃ c rest, t = c :: rest ∧ c ≠ '\n'

namespace Text

theorem hasFirstLine_cons {c : Char} {rest : Text} (h : c ≠ '\n') : HasFirstLine (c :: rest) :=
  ⟨c, rest, rfl, h⟩

theorem HasFirstLine.append {x : Text} (h : HasFirstLine x) (y : Text) : HasFirstLine (x ++ y) := by
  obtain ⟨c, rest, rfl, hc⟩ := h
  exact hasFirstLine_cons hc

theorem HasFirstLine.take {x : Text} (h : HasFirstLine x) {n : Nat} (hn : 0 < n) :
    HasFirstLine (x.take n) := by
  obtain ⟨c, rest, rfl, hc⟩ := h
  cases n with
  | zero => cases hn
  | succ n => exact hasFirstLine_cons hc

/-- What is trimmed is at the other end. -/
theorem HasFirstLine.trimLineFeeds {t : Text} (h : HasFirstLine t) :
    HasFirstLine t.trimLineFeeds := by
  obtain ⟨c, rest, rfl, hc⟩ := h
  have hparts : c :: rest = Text.trimLineFeeds (c :: rest) ++
      ((c :: rest).reverse.takeWhile (· == '\n')).reverse := by
    rw [Text.trimLineFeeds, ← List.reverse_append, List.takeWhile_append_dropWhile,
      List.reverse_reverse]
  have hne : Text.trimLineFeeds (c :: rest) ≠ [] := by
    have hmem := mem_trimLineFeeds (c := c) (t := c :: rest) List.mem_cons_self hc
    exact List.ne_nil_of_mem hmem
  obtain ⟨d, trimmed, htrimmed⟩ := List.exists_cons_of_ne_nil hne
  rw [htrimmed] at hparts ⊢
  obtain ⟨rfl, -⟩ := List.cons.inj hparts
  exact hasFirstLine_cons hc

theorem hasFirstLine_of_isDigit {t : Text} (hne : t ≠ []) (h : ∀ c ∈ t, isDigit c = true) :
    HasFirstLine t := by
  obtain ⟨c, rest, rfl⟩ := List.exists_cons_of_ne_nil hne
  refine hasFirstLine_cons ?_
  rintro rfl
  have := h '\n' List.mem_cons_self
  simp [isDigit] at this

theorem hasFirstLine_ofNat (n : Nat) : HasFirstLine (ofNat n) :=
  hasFirstLine_of_isDigit (ofNat_ne_nil n) fun _ => isDigit_of_mem_ofNat

theorem hasFirstLine_ofInt (n : Int) : HasFirstLine (ofInt n) := by
  cases n with
  | ofNat n => exact hasFirstLine_ofNat n
  | negSucc n => exact hasFirstLine_cons (by decide)

end Text

open Text

theorem Decimal.hasFirstLine_render (format : Format) (d : Decimal) :
    HasFirstLine (d.render format) := by
  have hdigits := hasFirstLine_ofNat d.digits
  unfold render
  dsimp only
  split
  · exact (hdigits.append _).append _
  · split
    · next hpoint => exact (hdigits.take (by omega)).append _
    · split
      · exact ((hasFirstLine_cons (by decide)).append _).append _
      · exact ((hdigits.take Nat.one_pos).append _).append _ |>.append _

namespace Value

theorem hasFirstLine_renderFloat (x : Float) : HasFirstLine (renderFloat x) := by
  unfold renderFloat Decimal.renderBits?
  split
  · next t h =>
      obtain ⟨b, -, rfl⟩ := Option.map_eq_some_iff.mp h
      have hsize : HasFirstLine (if b.mantissa = 0 then "0.0".toList
          else Decimal.render floatFormat (Decimal.shortest b)) := by
        split
        · exact hasFirstLine_cons (by decide)
        · exact Decimal.hasFirstLine_render _ _
      dsimp only
      split
      · exact hasFirstLine_cons (by decide)
      · exact hsize
  · split
    · exact hasFirstLine_cons (by decide)
    · split
      · exact hasFirstLine_cons (by decide)
      · exact hasFirstLine_cons (by decide)

/-- A string without quotes is not empty, because the empty text stands for null. -/
theorem hasFirstLine_ofString (indent : Nat) (t : Text) :
    HasFirstLine (Scalar.ofString indent t).text := by
  unfold Scalar.ofString
  split
  · split
    · exact hasFirstLine_cons (by decide)
    · exact hasFirstLine_cons (by decide)
  · next hline =>
      split
      · next hplain =>
          cases t with
          | nil => exact absurd hplain (by decide)
          | cons c rest =>
              refine hasFirstLine_cons ?_
              rintro rfl
              simp at hline
      · split
        · exact hasFirstLine_cons (by decide)
        · exact hasFirstLine_cons (by decide)

theorem hasFirstLine_of_scalar? {indent : Nat} {v : Value} {w : Written}
    (h : v.scalar? indent = some w) : HasFirstLine w.text := by
  unfold scalar? at h
  split at h
  · cases h
    exact hasFirstLine_cons (by decide)
  · cases h
    split
    · exact hasFirstLine_cons (by decide)
    · exact hasFirstLine_cons (by decide)
  · cases h
    exact hasFirstLine_ofInt _
  · cases h
    exact hasFirstLine_renderFloat _
  · cases h
    exact hasFirstLine_ofString _ _
  · cases h
    exact hasFirstLine_cons (by decide)
  · cases h
    exact hasFirstLine_cons (by decide)
  · cases h

theorem hasFirstLine_tagText (tag : Text) : HasFirstLine (tagText tag) := by
  unfold tagText
  split
  · exact hasFirstLine_cons (by decide)
  · exact hasFirstLine_cons (by decide)

/-- At the start of a text, a value without parts starts with itself or with its tag. -/
theorem hasFirstLine_writeScalar {tag? : Option Text} {v : Value}
    (h : (v.scalar? Scalar.step).isSome = true) :
    HasFirstLine (writeScalar none .nothing tag? v).text := by
  obtain ⟨w, hw⟩ := Option.isSome_iff_exists.mp h
  have hvalue : (v.scalar? ((none : Option Nat).getD 0 + Scalar.step)).getD ⟨[], true⟩ = w := by
    rw [Option.getD_none, Nat.zero_add, hw, Option.getD_some]
  unfold writeScalar Written.after
  rw [hvalue]
  cases tag? with
  | none => exact hasFirstLine_of_scalar? hw
  | some tag => exact (((hasFirstLine_tagText tag).append _)).append _

theorem hasFirstLine_write {tag? : Option Text} {v : Value} (h : v.isContainer = false) :
    HasFirstLine (v.write none .nothing tag?).text := by
  cases v with
  | null | bool b | integer n | float x | string t =>
      rw [write]
      · exact hasFirstLine_writeScalar rfl
      all_goals exact nofun
  | sequence items =>
      have hempty : items.isEmpty = true := by simpa [isContainer] using h
      rw [write, if_pos hempty]
      exact hasFirstLine_writeScalar rfl
  | mapping entries =>
      have hempty : entries.isEmpty = true := by simpa [isContainer] using h
      rw [write, if_pos hempty]
      exact hasFirstLine_writeScalar rfl
  | tagged tag v =>
      rw [write]
      exact hasFirstLine_write (by simpa [isContainer] using h)

end Value

/-- **A value without parts is written on the line where it starts.** -/
theorem Fragment.hasFirstLine_of_ofValue {v : Value} {f : Fragment}
    (h : Fragment.ofValue v = .ok f) (hv : v.isContainer = false) : HasFirstLine f.text := by
  obtain ⟨text, htext, h⟩ := bind_eq_ok.mp h
  obtain ⟨-, -, htext⟩ := bind_eq_ok.mp htext
  cases htext
  cases h
  exact ((Value.hasFirstLine_write hv).append _).trimLineFeeds

/-! ## Lines that are moved -/

namespace Text

/-- The last lines of two texts that are the same. -/
theorem lastLine_inj {x x' line line' : Text} (h : x ++ '\n' :: line = x' ++ '\n' :: line')
    (hline : line.count '\n' = 0) (hline' : line'.count '\n' = 0) : line = line' := by
  have hreverse := congrArg (fun t => (List.reverse t).takeWhile (· ≠ '\n')) h
  have htake : ∀ {x line : Text}, line.count '\n' = 0 →
      (x ++ '\n' :: line).reverse.takeWhile (· ≠ '\n') = line.reverse := by
    intro x line hline
    have hall : ∀ c ∈ line.reverse, decide (c ≠ '\n') = true := by
      intro c hc
      rw [decide_eq_true_eq]
      rintro rfl
      exact List.count_eq_zero.mp hline (List.mem_reverse.mp hc)
    rw [List.reverse_append, List.reverse_cons, List.append_assoc,
      List.takeWhile_append_of_pos hall]
    simp
  rw [htake hline, htake hline'] at hreverse
  exact List.reverse_injective hreverse

/-- A line without a line feed is not chomped. -/
theorem chompLine_of_count {line : Text} (h : line.count '\n' = 0) : chompLine line = line := by
  unfold chompLine
  have hne : line.reverse.head? ≠ some '\n' := by
    intro hhead
    rw [List.head?_reverse] at hhead
    exact List.count_eq_zero.mp h (List.mem_of_getLast? hhead)
  split
  · next hreverse =>
      rw [hreverse] at hne
      exact absurd rfl hne
  · next hreverse =>
      rw [hreverse] at hne
      exact absurd rfl hne
  · rfl

/-- A line keeps what it starts with. -/
theorem head?_chompLine {line : Text} {c : Char} (h : line.head? = some c)
    (hc : isBlank c = false) : (chompLine line).head? = some c := by
  have hnot : ∀ d : Char, isBlank d = true → c ≠ d := by
    rintro d hd rfl
    rw [hd] at hc
    cases hc
  unfold chompLine
  split
  · next r hreverse =>
      rw [List.reverse_eq_iff.mp hreverse] at h
      cases hr : r.reverse with
      | nil =>
          simp [hr] at h
          exact absurd h.symm (hnot '\r' (by decide))
      | cons d r =>
          simpa [hr] using h
  · next r _ hreverse =>
      rw [List.reverse_eq_iff.mp hreverse] at h
      cases hr : r.reverse with
      | nil =>
          simp [hr] at h
          exact absurd h.symm (hnot '\n' (by decide))
      | cons d r =>
          simpa [hr] using h
  · exact h

/-- The first line starts with what the text starts with. -/
theorem exists_rawLines_cons (c : Char) (t : Text) :
    ∃ line lines, rawLines (c :: t) = (c :: line) :: lines := by
  rw [rawLines]
  split
  · next hc => exact ⟨[], t.rawLines, by rw [hc]⟩
  · split
    · exact ⟨[], [], rfl⟩
    · next line lines _ => exact ⟨line, lines, rfl⟩

/-- The lines of a text of more than one line, the last one without a line feed. -/
theorem exists_lines {t : Text} (hlines : '\n' ∈ t)
    (hlast : t.getLast? ≠ some '\n') :
    ∃ front first mid last, t = front ++ '\n' :: last ∧ last.count '\n' = 0 ∧ last ≠ [] ∧
      t.lines = first :: (mid ++ [last]) ∧
      ∀ c, t.head? = some c → isBlank c = false → first.head? = some c := by
  obtain ⟨front, last, ht, hfront, hcount⟩ := LineIndex.exists_line t
  have hne : last ≠ [] := by
    rintro rfl
    rw [List.append_nil] at ht
    subst ht
    rcases LineIndex.endsLine_iff.mp hfront with rfl | hfeed
    · cases hlines
    · exact hlast hfeed
  rcases hfront with rfl | ⟨front, rfl⟩
  · rw [ht] at hlines
    exact absurd hlines (List.count_eq_zero.mp hcount)
  · obtain ⟨c, start, hstart⟩ := List.exists_cons_of_ne_nil
      (l := front ++ ['\n']) (by simp)
    obtain ⟨line, lines, hraw⟩ := exists_rawLines_cons c start
    refine ⟨front, chompLine (c :: line), lines.map chompLine, last, by simp [ht], hcount, hne, ?_,
      ?_⟩
    · rw [Text.lines, ht, rawLines_append (.inr ⟨front, rfl⟩), rawLines_line hcount hne, hstart,
        hraw]
      simp [chompLine_of_count hcount]
    · intro c' hhead hc'
      rw [ht, hstart] at hhead
      obtain rfl : c = c' := Option.some.inj hhead
      exact head?_chompLine rfl hc'

end Text

namespace Indentation

/-- A line that is not indented is the least indented one. -/
theorem minimum_eq_zero {t line : Text} (h : line ∈ t.lines) (hink : line.allBlank = false)
    (hzero : ofLine line = 0) : minimum t = 0 := by
  unfold minimum
  have hmem : 0 ∈ (t.lines.filter (!Text.allBlank ·)).map ofLine := by
    rw [← hzero]
    exact List.mem_map_of_mem (List.mem_filter.mpr ⟨h, by simp [hink]⟩)
  cases hmin : ((t.lines.filter (!Text.allBlank ·)).map ofLine).min? with
  | none => rfl
  | some n =>
      have hle := (List.min?_eq_some_iff.mp hmin).2 0 hmem
      rw [Option.getD_some]
      omega

/-- A line that is moved is one line. -/
theorem count_shiftLine {column least : Nat} {line : Text} (h : line.count '\n' = 0) :
    (shiftLine column least line).count '\n' = 0 := by
  unfold shiftLine
  split
  · rfl
  · rw [List.count_append, Text.count_spaces, Nat.zero_add]
    have hle := (List.dropWhile_sublist (l := line) Text.isBlank).count_le '\n'
    exact Nat.le_zero.mp (h ▸ hle)

/-- A line that is moved away from the start of the line is another one. -/
theorem shiftLine_ne {column : Nat} {line : Text} (hcolumn : 0 < column) (hne : line ≠ []) :
    shiftLine column 0 line ≠ line := by
  intro h
  unfold shiftLine at h
  split at h
  · exact hne h.symm
  · -- a moved line has more spaces in front than it had
    have hspaces := congrArg ofLine h
    rw [Nat.sub_zero] at hspaces
    have hmore : column + ofLine line ≤
        ofLine (Text.spaces (column + ofLine line) ++ line.trimStart) := by
      unfold ofLine Text.spaces
      rw [List.takeWhile_append_of_pos (by simp), List.length_append, List.length_replicate]
      omega
    omega

/-- The lines of a text, one behind the other, end with the last one. -/
theorem intercalate_concat {lines : List Text} (h : lines ≠ []) (last : Text) :
    ['\n'].intercalate (lines ++ [last]) = ['\n'].intercalate lines ++ '\n' :: last := by
  induction lines with
  | nil => exact absurd rfl h
  | cons line lines ih =>
      by_cases hlines : lines = []
      · simp [hlines, List.intercalate_cons_cons, List.intercalate_singleton]
      · rw [List.cons_append, List.intercalate_cons_of_ne_nil (by simp), ih hlines,
          List.intercalate_cons_of_ne_nil hlines]
        simp

/-- The text that its lines, moved, make up starts with its first line. -/
theorem head?_intercalate {line : Text} {lines : List Text} (h : lines ≠ []) :
    (['\n'].intercalate (line :: lines)).head? = (line ++ ['\n']).head? := by
  rw [List.intercalate_cons_of_ne_nil h]
  cases line with
  | nil => rfl
  | cons c line => rfl

theorem reindent_of_lines (column : Nat) {t first : Text} {rest : List Text} (hmem : '\n' ∈ t)
    (hlast : t.getLast? ≠ some '\n') (hlines : t.lines = first :: rest) :
    reindent column false t =
      ['\n'].intercalate (continueLine first :: rest.map (shiftLine column (minimum t))) := by
  unfold reindent
  rw [if_neg, hlines, if_neg hlast]
  · simp
  · rintro (hempty | hline)
    · rw [List.isEmpty_iff.mp hempty] at hmem
      cases hmem
    · simp at hline
      exact hline hmem

/-- **Only a single line stays as it is** when it is moved to a column but for its first line: the
first line has no indentation, so the last one is moved by the whole column. -/
theorem reindent_eq_self_iff {column : Nat} {t : Text} (hcolumn : 0 < column)
    (hfirst : t.HasFirstLine) (hlast : t.getLast? ≠ some '\n') :
    reindent column false t = t ↔ '\n' ∉ t := by
  constructor
  · intro h hmem
    obtain ⟨front, first, mid, last, ht, hcount, hne, hlines, hhead⟩ := Text.exists_lines hmem hlast
    obtain ⟨c, rest, hcons, hc⟩ := hfirst
    have hmoved := reindent_of_lines column hmem hlast hlines
    rw [h, List.map_append, List.map_singleton] at hmoved
    -- the first line has something on it, and is not indented
    have hstarts : (continueLine first ++ ['\n']).head? = some c := by
      have hrest : mid.map (shiftLine column (minimum t)) ++
          [shiftLine column (minimum t) last] ≠ [] := by simp
      rw [← head?_intercalate hrest, ← hmoved, hcons]
      rfl
    have hink : Text.isBlank c = false := by
      unfold continueLine at hstarts
      split at hstarts
      · exact absurd (Option.some.inj hstarts).symm hc
      · have hdrop := List.head?_dropWhile_not Text.isBlank first
        cases htrim : first.trimStart with
        | nil =>
            rw [htrim] at hstarts
            exact absurd (Option.some.inj hstarts).symm hc
        | cons d trimmed =>
            rw [htrim] at hstarts
            obtain rfl : d = c := Option.some.inj hstarts
            rw [show first.dropWhile Text.isBlank = d :: trimmed from htrim] at hdrop
            simpa using hdrop
    obtain ⟨tail, rfl⟩ := List.head?_eq_some_iff.mp (hhead c (by rw [hcons]; rfl) hink)
    have hleast : minimum t = 0 := by
      have hline : c :: tail ∈ t.lines := by
        rw [hlines]
        exact List.mem_cons_self
      refine minimum_eq_zero hline ?_ ?_
      · simp [Text.allBlank, hink]
      · have hspace : c ≠ ' ' := by
          rintro rfl
          cases hink
        simp [ofLine, hspace]
    -- so the last line is another one
    rw [hleast, ← List.cons_append, intercalate_concat (by simp), ht] at hmoved
    have hsame := Text.lastLine_inj hmoved hcount (count_shiftLine hcount)
    exact shiftLine_ne hcolumn hne hsame.symm
  · intro h
    unfold reindent
    rw [if_pos (.inr (by simpa using h))]

end Indentation

/-! ## Writing back -/

namespace Plan

/-- The value at an address is written as `f`, which is how `v` is written, and `v` has no parts. If
the value has a key in block style, it starts on the line where the key ends. -/
structure WrittenAs (s : Snapshot) (a : Address) (v : Value) (parent node : Node) (f : Fragment) :
    Prop where
  above : s.tree.root.descendant? a.dropLast = some parent
  here : s.tree.root.descendant? a = some node
  fragment : Fragment.ofValue v = .ok f
  scalar : v.isContainer = false
  text : s.textOf node = .ok f.text
  line : parent.kind = .mapping .block → ∀ i key, a.getLast? = some i →
    parent.pairedKey i = .ok key → key.stop.line = node.start.line

/-- Whether the written form of the value `node` stays as it is when it is put in its own place. -/
def Stays (parent node : Node) (f : Fragment) : Prop :=
  match parent.kind with
  | .mapping .block => f.isMultiline = false
  | .sequence .block =>
    f.isMultiline = false ∨ node.start.column = 0 ∧ f.indented 0 false = f.text
  | _ => f.isMultiline = false ∧ f.text.trim = f.text

section Fragments

variable {v : Value} {f : Fragment}

theorem isContainer_of_ofValue (h : Fragment.ofValue v = .ok f) :
    f.isContainer = v.isContainer := by
  obtain ⟨text, -, h⟩ := bind_eq_ok.mp h
  cases h
  rfl

theorem getLast?_of_ofValue (h : Fragment.ofValue v = .ok f) : f.text.getLast? ≠ some '\n' := by
  obtain ⟨text, -, h⟩ := bind_eq_ok.mp h
  cases h
  exact Text.getLast?_trimLineFeeds text

/-- Only a written value of one line stays as it is at a column. -/
theorem indented_eq_text_iff (hf : Fragment.ofValue v = .ok f) (hv : v.isContainer = false)
    {column : Nat} (hcolumn : 0 < column) :
    f.indented column false = f.text ↔ f.isMultiline = false := by
  rw [Fragment.indented, Indentation.reindent_eq_self_iff hcolumn
    (Fragment.hasFirstLine_of_ofValue hf hv) (getLast?_of_ofValue hf)]
  simp [Fragment.isMultiline]

theorem indented_of_line (h : f.isMultiline = false) (column : Nat) :
    f.indented column false = f.text := by
  unfold Fragment.indented Indentation.reindent
  rw [if_pos (.inr (by simpa [Fragment.isMultiline] using h))]

/-- At the start of the line, lines that are moved nowhere stay as they are as well. -/
theorem indented_eq_text_iff_of_column (hf : Fragment.ofValue v = .ok f)
    (hv : v.isContainer = false) (column : Nat) :
    f.indented column false = f.text ↔
      f.isMultiline = false ∨ column = 0 ∧ f.indented 0 false = f.text := by
  rcases Nat.eq_zero_or_pos column with rfl | hcolumn
  · constructor
    · intro h
      exact .inr ⟨rfl, h⟩
    · rintro (hline | ⟨-, h⟩)
      · exact indented_of_line hline 0
      · exact h
  · rw [indented_eq_text_iff hf hv hcolumn]
    constructor
    · exact .inl
    · rintro (hline | ⟨hzero, -⟩)
      · exact hline
      · omega

theorem ne_nil_of_ofValue (hf : Fragment.ofValue v = .ok f) (hv : v.isContainer = false) :
    f.text ≠ [] := by
  obtain ⟨c, rest, hcons, -⟩ := Fragment.hasFirstLine_of_ofValue hf hv
  rw [hcons]
  exact List.cons_ne_nil c rest

end Fragments

section WritingBack

variable {source path content : Text} {s : Snapshot} {parent node key : Node} {i : Nat} {v : Value}
  {f : Fragment}

theorem startOf_lt_stopOf (htext : s.textOf node = .ok f.text) (hne : f.text ≠ []) :
    s.startOf node < s.stopOf node := by
  obtain ⟨x, z, -, hstart, hstop⟩ := Text.slice_eq_ok.mp (lift_offset_eq_ok.mp htext)
  obtain ⟨c, rest, hcons⟩ := List.exists_cons_of_ne_nil hne
  have hsize := Text.size_pos_of_cons c rest
  rw [← hcons] at hsize
  omega

/-- A value on the line of its key is replaced in its place. -/
theorem replaceUnderKey_inPlace (hs : s.Within source) (hkey : s.tree.Holds key)
    (hnode : s.tree.Holds node) (hscalar : f.isContainer = false)
    (hline : key.stop.line = node.start.line) (hfull : s.startOf node < s.stopOf node) :
    replaceUnderKey s key node f =
      .ok (.ofNode s node (f.indented (Indentation.nested key.start.column) false)) := by
  have hstart := hs.startOf hnode
  obtain ⟨gap, hgap⟩ :=
    Text.slice_of_isBoundary ((hs.stopOf hkey).min hstart) hstart (Nat.min_le_right _ _)
  have hgap' : (liftM (s.source.slice (min (s.stopOf key) (s.startOf node)) (s.startOf node)) :
      EditError.Result Text) = .ok gap := by
    rw [hs.source_eq]
    exact lift_offset_eq_ok.mpr hgap
  have hplace : ¬ ((!gap.contains '#') = true ∧
      (key.stop.line < node.start.line ∨ s.stopOf node ≤ s.startOf node)) := by
    rintro ⟨-, hmove⟩
    omega
  unfold replaceUnderKey
  dsimp only
  rw [hgap', ok_bind, if_neg (by simp [hscalar]), if_neg hplace]
  rfl

/-- A replacement of a value that is not empty. -/
theorem operation_of_replaceEntry {target : Target} (hresolve : s.resolve path = .ok target)
    (hentry : target.entry .update = .ok (parent, i)) (hf : Fragment.ofValue v = .ok f)
    (hreplace : replaceEntry s path parent target.node i f =
      .ok (.ofNode s target.node content))
    (hfull : s.startOf target.node < s.stopOf target.node) :
    Plan.operation s (.update path v) =
      .ok (Splice.replace (s.startOf target.node) (s.stopOf target.node) content) := by
  show Plan.update s path v = _
  rw [update_eq hresolve hentry hf, hreplace, ok_bind, Replacement.splice, if_pos (.inl hfull)]
  rfl

/-- **What is put in the place of a value** is the value, or the text changes. -/
theorem edit_ofNode_iff (content : Text) {target : Target} (hread : Snapshot.ofText source = .ok s)
    (hresolve : s.resolve path = .ok target) (hentry : target.entry .update = .ok (parent, i))
    (hf : Fragment.ofValue v = .ok f) (htext : s.textOf target.node = .ok f.text)
    (hne : f.text ≠ [])
    (hreplace : replaceEntry s path parent target.node i f =
      .ok (.ofNode s target.node content)) :
    (∃ e e', Editor.edit source (.update path v) = some (e, e', source)) ↔ content = f.text := by
  obtain ⟨x, z, hsource, hstart, hstop⟩ := Text.slice_eq_ok.mp (lift_offset_eq_ok.mp htext)
  rw [Snapshot.source_of_ofText hread, List.append_assoc] at hsource
  have hplan := operation_of_replaceEntry hresolve hentry hf hreplace (startOf_lt_stopOf htext hne)
  rw [← hstart, ← hstop, ← Text.size_append] at hplan
  have happly := Splice.apply_replace (x := x) (y := f.text) (z := z) content
  rw [← hsource] at happly
  constructor
  · rintro ⟨e, e', hedit⟩
    obtain ⟨splice, hplan', hwritten, hread', -⟩ := Editor.splice_of_edit hedit
    cases hread'.symm.trans hread
    cases hplan'.symm.trans hplan
    rw [← Splice.apply_eq happly, hsource] at hwritten
    exact (List.append_cancel_right (List.append_cancel_left hwritten)).symm
  · rintro rfl
    rw [← hsource] at happly
    obtain ⟨e, e', hedit, -, -⟩ := Editor.exists_edit_of_apply hread hplan happly hread
    exact ⟨e, e', hedit⟩

/-- A value of a mapping has a key. -/
theorem exists_pairedKey {target : Target} (hs : s.Within source)
    (hresolve : s.resolve path = .ok target) (hentry : target.entry .update = .ok (parent, i))
    (hmapping : parent.isMapping = true) : ∃ key, parent.pairedKey i = .ok key := by
  have hreaches := (yields_iff.mp (hs.sound.resolve path)).1 _ hresolve
  obtain ⟨hchild, hodd⟩ := (yields_iff.mp (hreaches.safe_entry .update)).1 _ hentry
  have hyields := Node.yields_pairedKey (Q := fun _ => False) (.inl ⟨hodd hmapping, _, hchild⟩)
  cases hkey : parent.pairedKey i with
  | error e => exact ((yields_iff.mp hyields).2 e hkey).elim
  | ok key => exact ⟨key, rfl⟩

theorem replaceEntry_of_isFlow (s : Snapshot) (path : Text) (node : Node) (i : Nat) (f : Fragment)
    (hflow : parent.isFlow = true) :
    replaceEntry s path parent node i f =
      if f.isInline then .ok (Replacement.ofNode s node f.text.trim)
      else .error (.unsupported (.complexUpdate path parent.kind)) := by
  unfold replaceEntry
  cases hkind : parent.kind with
  | mapping style =>
      cases style with
      | flow => rfl
      | block => rw [Node.isFlow, hkind] at hflow; cases hflow
  | sequence style =>
      cases style with
      | flow => rfl
      | block => rw [Node.isFlow, hkind] at hflow; cases hflow
  | _ => rw [Node.isFlow, hkind] at hflow; cases hflow

/-- A value that does not fit between brackets is not put there. -/
theorem not_edit_of_replaceEntry {target : Target} {fault : EditError}
    (hread : Snapshot.ofText source = .ok s) (hresolve : s.resolve path = .ok target)
    (hentry : target.entry .update = .ok (parent, i)) (hf : Fragment.ofValue v = .ok f)
    (hreplace : replaceEntry s path parent target.node i f = .error fault) :
    ¬ ∃ e e', Editor.edit source (.update path v) = some (e, e', source) := by
  rintro ⟨e, e', hedit⟩
  obtain ⟨splice, hplan, -, hread', -⟩ := Editor.splice_of_edit hedit
  cases hread'.symm.trans hread
  have hfails : Plan.update e.snapshot path v = .error fault := by
    rw [update_eq hresolve hentry hf, hreplace]
    rfl
  cases hfails.symm.trans hplan

/-- Between brackets, a scalar is written back if it is a single line that is not trimmed. -/
theorem edit_in_flow_iff {target : Target} (hread : Snapshot.ofText source = .ok s)
    (hresolve : s.resolve path = .ok target) (hentry : target.entry .update = .ok (parent, i))
    (hf : Fragment.ofValue v = .ok f) (hv : v.isContainer = false)
    (htext : s.textOf target.node = .ok f.text) (hflow : parent.isFlow = true) :
    (∃ e e', Editor.edit source (.update path v) = some (e, e', source)) ↔
      f.isMultiline = false ∧ f.text.trim = f.text := by
  have hscalar : f.isContainer = false := (isContainer_of_ofValue hf).trans hv
  have hreplace := replaceEntry_of_isFlow s path target.node i f hflow
  by_cases hline : f.isMultiline = false
  · rw [if_pos (by simp [Fragment.isInline, hscalar, hline])] at hreplace
    rw [edit_ofNode_iff _ hread hresolve hentry hf htext (ne_nil_of_ofValue hf hv) hreplace]
    exact ⟨fun h => ⟨hline, h⟩, fun h => h.2⟩
  · rw [if_neg (by simp [Fragment.isInline, hline])] at hreplace
    exact ⟨fun hedit => absurd hedit
        (not_edit_of_replaceEntry hread hresolve hentry hf hreplace),
      fun h => absurd h.1 hline⟩

/-- In a block mapping, a scalar on the line of its key is replaced at a column further in. -/
theorem exists_replaceEntry_in_mapping {target : Target} (hs : s.Within source)
    (hresolve : s.resolve path = .ok target) (hentry : target.entry .update = .ok (parent, i))
    (hkind : parent.kind = .mapping .block) (hparent : s.tree.Holds parent)
    (hnode : s.tree.Holds target.node) (hscalar : f.isContainer = false)
    (hline : ∀ key, parent.pairedKey i = .ok key → key.stop.line = target.node.start.line)
    (hfull : s.startOf target.node < s.stopOf target.node) :
    ∃ column, 0 < column ∧ replaceEntry s path parent target.node i f =
      .ok (.ofNode s target.node (f.indented column false)) := by
  obtain ⟨key, hkey⟩ := exists_pairedKey hs hresolve hentry
    (by rw [Node.isMapping, hkind]; rfl)
  have hholds : s.tree.Holds key := hparent.child (Node.children_of_pairedKey hkey)
  refine ⟨Indentation.nested key.start.column, Nat.succ_pos _, ?_⟩
  unfold replaceEntry
  rw [hkind]
  dsimp only
  rw [hkey, ok_bind]
  exact replaceUnderKey_inPlace hs hholds hnode hscalar (hline key hkey) hfull

end WritingBack

end Plan

open Plan in
/-- **Writing back what is there** changes nothing exactly if it is a single line, without white
space at its ends if it is in brackets. -/
theorem update_writes_back_iff {source path : Text} {s : Snapshot} {a : Address} {style : Style}
    {v : Value} {parent node : Node} {f : Fragment} (hread : Snapshot.ofText source = .ok s)
    (hpath : s.addressOf path = some a) (hstyle : s.entryStyle? a = some style)
    (h : WrittenAs s a v parent node f) :
    (∃ e e', Editor.edit source (.update path v) = some (e, e', source)) ↔
      Stays parent node f := by
  have hs := Snapshot.within_of_ofText hread
  obtain ⟨target, _, i, hresolve, hentry, hnode, hparent, hkind, hi⟩ :=
    Snapshot.entry_of_addressOf hread hpath hstyle .update
  cases hparent.symm.trans h.above
  obtain rfl : target.node = node := Option.some.inj (hnode.symm.trans h.here)
  have hscalar : f.isContainer = false := (isContainer_of_ofValue h.fragment).trans h.scalar
  have hne := ne_nil_of_ofValue h.fragment h.scalar
  have hinFlow : parent.isFlow = true → _ :=
    edit_in_flow_iff hread hresolve hentry h.fragment h.scalar h.text
  unfold Stays
  cases hparentKind : parent.kind with
  | mapping style =>
      cases style with
      | block =>
          obtain ⟨column, hcolumn, hreplace⟩ := exists_replaceEntry_in_mapping hs hresolve hentry
            hparentKind ⟨_, hparent⟩ ⟨_, hnode⟩ hscalar (h.line hparentKind i · hi)
            (startOf_lt_stopOf h.text hne)
          rw [edit_ofNode_iff _ hread hresolve hentry h.fragment h.text hne hreplace]
          exact indented_eq_text_iff h.fragment h.scalar hcolumn
      | flow => exact hinFlow (by rw [Node.isFlow, hparentKind]; rfl)
  | sequence style =>
      cases style with
      | block =>
          have hreplace : replaceEntry s path parent target.node i f =
              .ok (.ofNode s target.node (f.indented target.node.start.column false)) := by
            unfold replaceEntry
            rw [hparentKind]
            rfl
          rw [edit_ofNode_iff _ hread hresolve hentry h.fragment h.text hne hreplace]
          exact indented_eq_text_iff_of_column h.fragment h.scalar target.node.start.column
      | flow => exact hinFlow (by rw [Node.isFlow, hparentKind]; rfl)
  | _ => rw [hparentKind] at hkind; cases hkind

/-- A plain scalar is written back. -/
theorem update_writes_back_iff_plain :
    ∃ e parent node, Editor.load "a: x\n".toList = .ok e ∧
      e.snapshot.addressOf "a".toList = some [0, 0, 1] ∧
      e.snapshot.entryStyle? [0, 0, 1] = some .block ∧
      Plan.WrittenAs e.snapshot [0, 0, 1] (.string "x".toList) parent node ⟨"x".toList, false⟩ ∧
      Plan.Stays parent node ⟨"x".toList, false⟩ ∧
      ∃ e e', Editor.edit "a: x\n".toList (.update "a".toList (.string "x".toList)) =
        some (e, e', "a: x\n".toList) := by
  obtain ⟨e, hload, hpath, hstyle, hcheck⟩ := Editor.exists_load "a: x\n".toList
    (P := fun e => e.snapshot.addressOf "a".toList = some [0, 0, 1] ∧
      e.snapshot.entryStyle? [0, 0, 1] = some .block ∧
      (e.snapshot.tree.root.descendant? [0, 0]).all (fun parent =>
        parent.kind = .mapping .block ∧
        (e.snapshot.tree.root.descendant? [0, 0, 1]).all (fun node =>
          (e.snapshot.textOf node).toOption = some "x".toList ∧
          (parent.pairedKey 1).toOption.all (·.stop.line = node.start.line))) = true)
    (by decide +kernel)
  have hread := (Editor.load_eq_ok hload).1
  have hfragment : Fragment.ofValue (.string "x".toList) = .ok ⟨"x".toList, false⟩ :=
    toOption_eq_some.mp (by decide +kernel)
  obtain ⟨target, parent, i, -, -, hnode, hparent, -, hi⟩ :=
    Snapshot.entry_of_addressOf hread hpath hstyle .update
  obtain rfl : 1 = i := Option.some.inj hi
  have hparent' : e.snapshot.tree.root.descendant? [0, 0] = some parent := hparent
  rw [hparent', Option.all_some, decide_eq_true_eq, hnode, Option.all_some,
    decide_eq_true_eq] at hcheck
  obtain ⟨hkind, htext, hline⟩ := hcheck
  have hwritten : Plan.WrittenAs e.snapshot [0, 0, 1] (.string "x".toList) parent target.node
      ⟨"x".toList, false⟩ := by
    refine ⟨hparent, hnode, hfragment, rfl, toOption_eq_some.mp htext, ?_⟩
    intro _ i key hlast hkey
    obtain rfl : 1 = i := Option.some.inj hlast
    rw [hkey] at hline
    exact of_decide_eq_true hline
  have hstays : Plan.Stays parent target.node ⟨"x".toList, false⟩ := by
    unfold Plan.Stays
    rw [hkind]
    rfl
  exact ⟨e, parent, target.node, hload, hpath, hstyle, hwritten, hstays,
    (update_writes_back_iff hread hpath hstyle hwritten).mpr hstays⟩

/-- The lines of a literal are moved when it is written back. -/
theorem update_moves_lines_of_literal :
    ∃ e e' text, Editor.edit "a: |-\n  x\n  y\n".toList
        (.update "a".toList (.string "x\ny".toList)) = some (e, e', text) ∧
      e.snapshot.addressOf "a".toList = some [0, 0, 1] ∧
      (e.value "a".toList).toOption.map (Value.same · (.string "x\ny".toList)) = some true ∧
      (e.snapshot.tree.root.descendant? [0, 0, 1]).bind
          (fun node => (e.snapshot.textOf node).toOption) =
        (Fragment.ofValue (.string "x\ny".toList)).toOption.map (·.text) ∧
      (e.snapshot.tree.root.descendant? [0, 0, 0]).map (·.stop.line) = some 0 ∧
      (e.snapshot.tree.root.descendant? [0, 0, 1]).map (·.start.line) = some 0 ∧
      text = "a: |-\n    x\n    y\n".toList ∧ text ≠ "a: |-\n  x\n  y\n".toList :=
  Editor.exists_edit "a: |-\n  x\n  y\n".toList (.update "a".toList (.string "x\ny".toList))
    (P := fun e _ text => e.snapshot.addressOf "a".toList = some [0, 0, 1] ∧
      (e.value "a".toList).toOption.map (Value.same · (.string "x\ny".toList)) = some true ∧
      (e.snapshot.tree.root.descendant? [0, 0, 1]).bind
          (fun node => (e.snapshot.textOf node).toOption) =
        (Fragment.ofValue (.string "x\ny".toList)).toOption.map (·.text) ∧
      (e.snapshot.tree.root.descendant? [0, 0, 0]).map (·.stop.line) = some 0 ∧
      (e.snapshot.tree.root.descendant? [0, 0, 1]).map (·.start.line) = some 0 ∧
      text = "a: |-\n    x\n    y\n".toList ∧ text ≠ "a: |-\n  x\n  y\n".toList)
    (by decide +kernel)

end YamlEdit
