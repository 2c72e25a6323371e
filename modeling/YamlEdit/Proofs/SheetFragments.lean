import YamlEdit.Proofs.SheetLines
import YamlEdit.Proofs.WrittenLines

/-!
# Sheets that are put into others

The text of a value is moved to the column where it is put (`Fragment.indented`): spaces are put
behind its line feeds (`Text.shift`). A sheet at the left margin then is a sheet at that column
(`Sheet.Fits.shift`), and with the margin of what it replaces it ends where that did.

Main statement: `Fragment.IsSheet.at_column`.
-/

namespace YamlEdit

/-! ## Another margin at the end -/

namespace Sheet

/-- The sheet with another margin at its end. -/
def setTail (b : Text) : Sheet → Sheet
  | word w _ => word w b
  | last head node => last head (node.setTail b)
  | more head node rest => more head node (rest.setTail b)

variable {b : Text} {column n : Nat} {t : Sheet}

@[simp] theorem tail_setTail : ∀ t : Sheet, (t.setTail b).tail = b
  | word _ _ => rfl
  | last _ node => tail_setTail node
  | more _ _ rest => tail_setTail rest

@[simp] theorem body_setTail : ∀ t : Sheet, (t.setTail b).body = t.body
  | word _ _ => rfl
  | last _ node => by rw [setTail, body, body, body_setTail node]
  | more _ _ rest => by rw [setTail, body, body, body_setTail rest]

@[simp] theorem isWord_setTail (t : Sheet) : (t.setTail b).isWord = t.isWord := by
  cases t <;> rfl

@[simp] theorem isKey?_setTail (t : Sheet) : (t.setTail b).isKey? = t.isKey? := by
  cases t <;> rfl

@[simp] theorem outline_setTail : ∀ t : Sheet, (t.setTail b).outline = t.outline
  | word _ _ => rfl
  | last _ node => by rw [setTail, outline, outline, outline_setTail node]
  | more _ _ rest => by rw [setTail, outline, outline, outline_setTail rest]

theorem text_setTail (t : Sheet) : (t.setTail b).text = t.body ++ b := by
  rw [text_eq, body_setTail, tail_setTail]

theorem Fits.setTail (h : t.Fits column) (hb : Token.IsBreak b) : (t.setTail b).Fits column := by
  induction h with
  | word hw _ => exact .word hw hb
  | last hhead hfollows _ ih =>
      exact .last hhead (fun hkey hfeed => (isWord_setTail _).trans (hfollows hkey hfeed)) ih
  | more hhead hfollows hnode haligned hkind _ _ ih =>
      exact .more hhead hfollows hnode haligned ((isKey?_setTail _).trans hkind) ih

end Sheet

/-! ## Texts that are moved to the right -/

namespace Text

/-- The text with spaces behind every line feed. -/
def shift (n : Nat) (t : Text) : Text :=
  t.flatMap fun c => if c = '\n' then '\n' :: spaces n else [c]

variable {n column : Nat} {t u g : Text}

@[simp] theorem shift_append (n : Nat) (t u : Text) : shift n (t ++ u) = shift n t ++ shift n u :=
  List.flatMap_append

theorem shift_cons (n : Nat) (c : Char) (t : Text) :
    shift n (c :: t) = (if c = '\n' then '\n' :: spaces n else [c]) ++ shift n t := rfl

theorem shift_of_not_mem (h : '\n' ∉ t) : shift n t = t := by
  induction t with
  | nil => rfl
  | cons c t ih =>
      rw [List.mem_cons, not_or] at h
      rw [shift_cons, if_neg (Ne.symm h.1), ih h.2]
      rfl

theorem mem_shift (h : '\n' ∈ t) : '\n' ∈ shift n t :=
  List.mem_flatMap.mpr ⟨'\n', h, by simp⟩

theorem not_mem_shift {c : Char} (hc : c ≠ ' ') (h : c ∉ t) : c ∉ shift n t := by
  intro hmem
  obtain ⟨d, hd, hmem⟩ := List.mem_flatMap.mp hmem
  split at hmem
  · next hfeed =>
      rcases List.mem_cons.mp hmem with rfl | hmem
      · exact h (hfeed ▸ hd)
      · exact hc (List.eq_of_mem_replicate hmem)
  · exact h (List.mem_singleton.mp hmem ▸ hd)

theorem headD_shift (t : Text) : (shift n t).headD '\x00' = t.headD '\x00' := by
  cases t with
  | nil => rfl
  | cons c t =>
      rw [shift_cons]
      split
      · next h => rw [h]; rfl
      · rfl

/-- What is moved ends so much further right. -/
theorem columnBehind_shift (column : Nat) (t : Text) :
    columnBehind (column + n) (shift n t) = columnBehind column t + n := by
  induction t generalizing column with
  | nil => rfl
  | cons c t ih =>
      rw [shift_cons, columnBehind_append]
      split
      · next hc =>
          subst hc
          show columnBehind (columnBehind 0 (spaces n)) _ = columnBehind 0 t + n
          rw [columnBehind_spaces, ih]
      · next hc =>
          show columnBehind (if c = '\n' then 0 else column + n + 1) _ =
            columnBehind (if c = '\n' then 0 else column + 1) t + n
          rw [if_neg hc, if_neg hc, ← ih, Nat.add_right_comm]

theorem columnBehind_shift_of_mem (h : '\n' ∈ t) (c d : Nat) :
    columnBehind c (shift n t) = columnBehind d t + n := by
  rw [columnBehind_of_mem (mem_shift h) c (d + n), columnBehind_shift]

end Text

theorem Token.Margin.shift {g : Text} (h : Margin g) (n : Nat) : Margin (g.shift n) := by
  have hfeed : ∀ {u : Text}, Margin (u.shift n) → Margin (Text.shift n ('\n' :: u)) := by
    intro u hu
    exact .feed ((Margin.of_spaces n).append hu)
  induction h with
  | nil => exact .nil
  | space _ ih => exact .space ih
  | feed _ ih => exact hfeed ih
  | @comment body u hbody _ ih =>
      have hnot : '\n' ∉ body := fun hmem => by
        have := hbody _ hmem
        cases this
      have htext : Text.shift n ('#' :: (body ++ '\n' :: u)) =
          '#' :: (body ++ '\n' :: (Text.spaces n ++ u.shift n)) := by
        rw [Text.shift_cons, Text.shift_append, Text.shift_of_not_mem hnot, Text.shift_cons]
        rfl
      rw [htext]
      exact .comment hbody ih

theorem Token.IsBreak.shift {b : Text} (h : IsBreak b) (n : Nat) : IsBreak (b.shift n) :=
  ⟨h.margin.shift n, (Text.headD_shift b).symm ▸ h.first, Text.mem_shift h.feed⟩

/-- The head with its margin moved. -/
def Head.shift (n : Nat) : Head → Head
  | dash gap => dash (gap.shift n)
  | key name gap => key name (gap.shift n)

namespace Head

variable {n column : Nat} {head : Head}

@[simp] theorem isKey_shift (n : Nat) (head : Head) : (head.shift n).isKey = head.isKey := by
  cases head <;> rfl

@[simp] theorem gap_shift (n : Nat) (head : Head) : (head.shift n).gap = head.gap.shift n := by
  cases head <;> rfl

@[simp] theorem bracket_shift (n : Nat) (head : Head) : (head.shift n).bracket = head.bracket := by
  cases head <;> rfl

@[simp] theorem outlines_shift (n : Nat) (head : Head) :
    (head.shift n).outlines = head.outlines := by
  cases head <;> rfl

theorem Fits.text_shift (h : head.Fits column) (n : Nat) :
    (head.shift n).text = head.text.shift n := by
  cases head with
  | dash gap => rfl
  | key name gap =>
      have hname := Scan.not_mem_of_staysPlain h.name.1.stays
      have hmark : '\n' ∉ name ++ [':'] := by simpa using hname
      show name ++ [':'] ++ gap.shift n = Text.shift n (name ++ [':'] ++ gap)
      rw [Text.shift_append, Text.shift_of_not_mem hmark]

theorem Fits.shift (h : head.Fits column) (n : Nat) : (head.shift n).Fits (column + n) where
  margin := (gap_shift n head).symm ▸ h.margin.shift n
  first := by
    rw [gap_shift, Text.headD_shift]
    exact h.first
  deeper := by
    rw [h.text_shift, Text.columnBehind_shift]
    exact Nat.add_lt_add_right h.deeper n
  item := by
    intro hkey
    rw [gap_shift]
    exact Text.not_mem_shift (by decide) (h.item (isKey_shift n head ▸ hkey))
  name := by cases head <;> exact h.name

end Head

namespace Sheet

/-- The sheet with its lines moved, but the first one. -/
def shift (n : Nat) : Sheet → Sheet
  | word w margin => word w (margin.shift n)
  | last head node => last (head.shift n) (node.shift n)
  | more head node rest => more (head.shift n) (node.shift n) (rest.shift n)

variable {column n : Nat} {t : Sheet}

@[simp] theorem isWord_shift (n : Nat) (t : Sheet) : (t.shift n).isWord = t.isWord := by
  cases t <;> rfl

theorem isKey?_shift (n : Nat) (t : Sheet) : (t.shift n).isKey? = t.isKey? := by
  cases t <;> simp [shift, isKey?, head?]

theorem tail_shift (n : Nat) : ∀ t : Sheet, (t.shift n).tail = t.tail.shift n
  | word _ _ => rfl
  | last _ node => tail_shift n node
  | more _ _ rest => tail_shift n rest

theorem outline_shift (n : Nat) : ∀ t : Sheet, (t.shift n).outline = t.outline
  | word _ _ => rfl
  | last _ node => by
      rw [shift, outline, outline, outline_shift n node, Head.bracket_shift, Head.outlines_shift]
  | more _ node rest => by
      rw [shift, outline, outline, outline_shift n node, outline_shift n rest, Head.bracket_shift,
        Head.outlines_shift]

theorem Fits.body_shift (h : t.Fits column) (n : Nat) :
    (t.shift n).text = t.text.shift n ∧ (t.shift n).body = t.body.shift n := by
  induction h with
  | word hw _ =>
      have hfeed := Scan.not_mem_of_staysPlain hw.stays
      simp [Sheet.shift, text, body, Text.shift_of_not_mem hfeed]
  | last hhead _ _ ih => simp [Sheet.shift, text, body, hhead.text_shift, ih]
  | more hhead _ _ _ _ _ ih ih' => simp [Sheet.shift, text, body, hhead.text_shift, ih, ih']

/-- **A sheet can be moved to the right.** -/
theorem Fits.shift (h : t.Fits column) (n : Nat) : (t.shift n).Fits (column + n) := by
  have hcolumn : ∀ {column : Nat} {head : Head} {node : Sheet}, head.Fits column →
      (node.shift n).Fits (Text.columnBehind column head.text + n) →
        (node.shift n).Fits (Text.columnBehind (column + n) (head.shift n).text) := by
    intro column head node hhead hnode
    rwa [hhead.text_shift, Text.columnBehind_shift]
  have hfollowing : ∀ {head : Head} {node : Sheet}, Follows head node →
      Follows (head.shift n) (node.shift n) := by
    intro head node hfollows hkey hfeed
    rw [Head.isKey_shift] at hkey
    rw [Head.gap_shift] at hfeed
    rw [isWord_shift]
    exact hfollows hkey fun hmem => hfeed (Text.mem_shift hmem)
  induction h with
  | word hw hmargin => exact .word hw (hmargin.shift n)
  | last hhead hfollows _ ih => exact .last (hhead.shift n) (hfollowing hfollows) (hcolumn hhead ih)
  | @more column head node rest hhead hfollows hnode haligned hkind _ ih ih' =>
      refine .more (hhead.shift n) (hfollowing hfollows) (hcolumn hhead ih) ?_ ?_ ih'
      · rw [tail_shift, Text.columnBehind_shift_of_mem hnode.isBreak_tail.feed 0 0, haligned]
      · rw [Head.isKey_shift]
        exact (isKey?_shift n rest).trans hkind

end Sheet

/-! ## Moved fragments -/

namespace Text

/-- A line that says something, and in front of that has nothing but spaces. -/
def IsInk (line : Text) : Prop := line.content.head?.any (!isBlank ·) = true

instance (line : Text) : Decidable line.IsInk := inferInstanceAs (Decidable (_ = true))

theorem IsInk.eq {line : Text} (h : line.IsInk) :
    line.allBlank = false ∧ line = spaces (Indentation.ofLine line) ++ line.trimStart := by
  obtain ⟨c, hc, hblank⟩ := (Option.any_eq_true _ _).mp h
  have hblank : isBlank c = false := by simpa using hblank
  have htrim : content line = line.trimStart := by
    refine content_eq_trimStart_iff.mpr fun d hd => ?_
    obtain rfl : c = d := Option.some.inj (hc.symm.trans hd)
    exact hblank
  constructor
  · rw [Bool.eq_false_iff]
    intro hall
    rw [htrim, Indentation.trimStart_eq_nil_iff.mpr hall] at hc
    cases hc
  · have hspaces : line.takeWhile (· == ' ') = spaces (Indentation.ofLine line) :=
      List.eq_replicate_iff.mpr ⟨rfl, fun c hc => by
        have := List.mem_takeWhile_imp hc
        simpa using this⟩
    rw [← htrim, ← hspaces]
    exact (List.takeWhile_append_dropWhile ..).symm

end Text

namespace Indentation

open Text

theorem shiftLine_ink {line : Text} (h : line.IsInk) (n : Nat) :
    shiftLine n 0 line = spaces n ++ line := by
  obtain ⟨hink, hline⟩ := h.eq
  rw [shiftLine_of_ink hink]
  conv_rhs => rw [hline]
  rw [← List.append_assoc, Nat.sub_zero]
  exact congrArg (· ++ line.trimStart) (List.replicate_add _ _ _)

theorem shift_intercalate (n : Nat) {first : Text} {rest : List Text}
    (h : ∀ piece ∈ first :: rest, '\n' ∉ piece) :
    shift n (['\n'].intercalate (first :: rest)) =
      ['\n'].intercalate (first :: rest.map (spaces n ++ ·)) := by
  induction rest generalizing first with
  | nil =>
      rw [List.map_nil, List.intercalate_singleton]
      exact shift_of_not_mem (h first List.mem_cons_self)
  | cons second rest ih =>
      have hsecond := ih fun piece hpiece => h piece (List.mem_cons_of_mem first hpiece)
      have hspaces : ∀ l : List Text, ['\n'].intercalate ((spaces n ++ second) :: l) =
          spaces n ++ ['\n'].intercalate (second :: l) := by
        intro l
        cases l <;> simp [List.intercalate_cons_of_ne_nil]
      rw [List.map_cons, List.intercalate_cons_of_ne_nil (List.cons_ne_nil second rest),
        List.intercalate_cons_of_ne_nil (List.cons_ne_nil _ _), shift_append, shift_append, hsecond,
        shift_of_not_mem (h first List.mem_cons_self), hspaces]
      simp [shift]

/-- **A text whose first line is at the left margin is moved with all its lines.** -/
theorem reindent_of_ink {t : Text} (hreturn : '\r' ∉ t) (hne : t ≠ [])
    (hend : t.getLast? ≠ some '\n')
    (hink : ∀ line ∈ t.lines, line.IsInk) (hfirst : t.head? ≠ some ' ') (n : Nat)
    (indentFirst : Bool) :
    reindent n indentFirst t = (if indentFirst then spaces n else []) ++ t.shift n := by
  obtain ⟨ls, last, rfl, hpieces⟩ := exists_pieces t
  have hreturns := not_mem_piece hreturn
  have hlines : lines (['\n'].intercalate (ls ++ [last])) = ls ++ [last] := by
    rw [lines_of_no_return hpieces hreturns, if_neg (last_piece hne hend).1]
  rw [hlines] at hink
  obtain ⟨first, rest, hcons⟩ := List.exists_cons_of_ne_nil (l := ls ++ [last]) (by simp)
  -- the first line is the least indented one
  have hzero : ofLine first = 0 := by
    rw [hcons] at hfirst
    have hhead : first.head? ≠ some ' ' := by
      intro h
      refine hfirst ?_
      cases first with
      | nil => cases h
      | cons c r => cases rest <;> simpa [List.intercalate_cons_of_ne_nil] using h
    unfold ofLine
    cases first with
    | nil => rfl
    | cons c r =>
        rw [List.takeWhile_cons_of_neg (by simpa using hhead)]
        rfl
  have hleast : minimum (['\n'].intercalate (ls ++ [last])) = 0 := by
    have hline : InkLine (['\n'].intercalate (ls ++ [last])) 0 first := by
      refine ⟨by rw [hlines, hcons]; rfl, (IsInk.eq (hink first ?_)).1⟩
      rw [hcons]
      exact List.mem_cons_self
    exact Nat.le_zero.mp (hzero ▸ (isLeast_minimum hline).2 ⟨0, first, hline, rfl⟩)
  rw [hcons] at hink
  have hfirstInk := (hink first List.mem_cons_self).eq
  by_cases hstays : indentFirst = false ∧ ls = []
  · obtain ⟨rfl, rfl⟩ := hstays
    have hfeed : '\n' ∉ ['\n'].intercalate ([] ++ [last]) := by
      rw [List.nil_append, List.intercalate_singleton]
      exact hpieces last (by simp)
    rw [reindent_eq, if_pos (.inr (by simpa using hfeed)), shift_of_not_mem hfeed]
    rfl
  · have hmove : indentFirst = true ∨ ls ≠ [] := by
      cases indentFirst with
      | true => exact .inl rfl
      | false => exact .inr fun h => hstays ⟨rfl, h⟩
    rw [reindent_intercalate hpieces hmove, hleast, map_dropReturn fun piece hpiece =>
      hreturns piece (List.mem_append_left [last] hpiece), hcons, moved, shift_intercalate n
      (hcons ▸ hpieces)]
    have hrest : rest.map (shiftLine n 0) = rest.map (spaces n ++ ·) :=
      List.map_congr_left fun l hl => shiftLine_ink (hink l (List.mem_cons_of_mem first hl)) n
    rw [hrest]
    cases indentFirst with
    | true =>
        rw [if_pos rfl, if_pos rfl, shiftLine_ink (hink first List.mem_cons_self)]
        cases rest <;> simp [List.intercalate_cons_of_ne_nil]
    | false =>
        rw [if_neg (by decide), if_neg (by decide), continueLine, if_neg (by simp [hfirstInk.1])]
        have htrim : Text.trimStart first = first := by
          have := hfirstInk.2
          rw [hzero] at this
          exact this.symm
        rw [htrim]
        rfl

end Indentation

namespace Fragment

/-- A fragment whose text is a sheet at the left margin. Every line says something, and in front of
that there are only spaces. -/
structure IsSheet (f : Fragment) (t : Sheet) : Prop where
  fits : t.Fits 0
  body : t.body = f.text
  container : f.isContainer = !t.isWord
  ink : ∀ line ∈ f.text.lines, line.IsInk

instance (f : Fragment) (t : Sheet) : Decidable (f.IsSheet t) :=
  decidable_of_iff (t.Fits 0 ∧ t.body = f.text ∧ (f.isContainer = !t.isWord) ∧
      ∀ line ∈ f.text.lines, line.IsInk)
    ⟨fun ⟨h₁, h₂, h₃, h₄⟩ => ⟨h₁, h₂, h₃, h₄⟩, fun ⟨h₁, h₂, h₃, h₄⟩ => ⟨h₁, h₂, h₃, h₄⟩⟩

/-- **A fragment that is a sheet is one at every column.** -/
theorem IsSheet.at_column {f : Fragment} {t : Sheet} {v : Value} (h : f.IsSheet t)
    (hf : Fragment.ofValue v = .ok f) (column : Nat) :
    (t.shift column).Fits column ∧ f.indented column false = (t.shift column).body ∧
      f.indented column true = Text.spaces column ++ (t.shift column).body := by
  obtain ⟨hreturn, hne, -⟩ := neat_of_ofValue hf
  have hfirst : f.text.head? ≠ some ' ' := by
    rw [← h.body]
    have hhead := (h.fits.headD_text []).1
    rw [List.append_nil, Sheet.text_eq] at hhead
    rw [← h.body] at hne
    cases hbody : t.body with
    | nil => exact absurd hbody hne
    | cons c r =>
        rw [hbody] at hhead
        rintro ⟨⟩
        cases hhead
  have hmoved := Indentation.reindent_of_ink hreturn hne (Plan.getLast?_of_ofValue hf) h.ink hfirst
    column
  refine ⟨by simpa using h.fits.shift column, ?_, ?_⟩
  · rw [indented, hmoved, (h.fits.body_shift column).2, h.body]
    rfl
  · rw [indented, hmoved, (h.fits.body_shift column).2, h.body]
    rfl

end Fragment

end YamlEdit
