import YamlEdit.Proofs.Margins
import YamlEdit.Proofs.Outline

/-!
# Sheets

A sheet is a node in block style that is laid out in lines: a plain scalar on one line, a sequence
or a mapping with one entry behind the other. Between its tokens there are margins, which belong to
what is in front of them, so that a sheet ends where the next token starts.

A sheet is known by its text only if that is indented as it should be (`Sheet.Fits`): what is in an
entry stands further right than the entry, and the entries of a collection stand below each other.
Main statements: `Sheet.Fits.headD_text`, and `Sheet.Fits.isBreak_tail` for the line feed at the
end.
-/

namespace YamlEdit

/-- The column behind a text that starts at a column. -/
def Text.columnBehind (column : Nat) (t : Text) : Nat :=
  t.foldl (fun column c => if c = '\n' then 0 else column + 1) column

namespace Text

@[simp] theorem columnBehind_nil (column : Nat) : columnBehind column [] = column := rfl

theorem columnBehind_append (column : Nat) (t u : Text) :
    columnBehind column (t ++ u) = columnBehind (columnBehind column t) u := List.foldl_append

/-- Behind a line feed it makes no difference where the line before started. -/
theorem columnBehind_of_mem {t : Text} (h : '\n' ∈ t) (c d : Nat) :
    columnBehind c t = columnBehind d t := by
  obtain ⟨u, v, rfl⟩ := List.append_of_mem h
  rw [columnBehind_append, columnBehind_append]
  rfl

theorem length_le_size (t : Text) : t.length ≤ size t := by
  induction t with
  | nil => exact Nat.le_refl _
  | cons c t ih =>
      have := c.utf8Size_pos
      rw [List.length_cons, size_cons]
      omega

theorem columnBehind_of_not_mem {t : Text} (h : '\n' ∉ t) (c : Nat) :
    columnBehind c t = c + t.length := by
  induction t generalizing c with
  | nil => rfl
  | cons d t ih =>
      rw [List.mem_cons, not_or] at h
      show columnBehind (if d = '\n' then 0 else c + 1) t = _
      rw [if_neg (Ne.symm h.1), ih h.2, List.length_cons]
      omega

theorem columnBehind_spaces (column n : Nat) : columnBehind column (spaces n) = column + n := by
  rw [columnBehind_of_not_mem (by simp [spaces])]
  simp [spaces]

end Text

theorem Mark.column_across (m : Mark) (t : Text) :
    (m.across t).column = Text.columnBehind m.column t := by
  induction t generalizing m with
  | nil => rfl
  | cons c t ih =>
      rw [across_cons, ih, past]
      show _ = Text.columnBehind (if c = '\n' then 0 else m.column + 1) t
      split <;> rfl

/-! ## The heads of entries -/

/-- What an entry starts with: the `-` of an item, or a key with its `:`, and the margin behind
it. -/
inductive Head where
  | dash (gap : Text)
  | key (name gap : Text)
  deriving DecidableEq, Repr

namespace Head

/-- The margin behind the indicator. -/
def gap : Head → Text
  | dash gap | key _ gap => gap

/-- What is written up to the indicator, which is included. -/
def mark : Head → Text
  | dash _ => ['-']
  | key name _ => name ++ [':']

/-- What is written. -/
def text (h : Head) : Text := h.mark ++ h.gap

/-- Whether this is the head of a pair. -/
def isKey : Head → Bool
  | dash _ => false
  | key _ _ => true

/-- What a collection of such entries is. -/
def bracket (h : Head) : Bracket := if h.isKey then .mapping .block else .sequence .block

/-- What the head adds to the children of a collection. -/
def outlines : Head → List Outline
  | dash _ => []
  | key name _ => [.scalar name]

/-- The key, if there is one, can stand in front of its `:`. The scanner of values takes none with
more bytes. -/
def NameFits : Head → Prop
  | dash _ => True
  | key name _ => Token.PlainLine name ∧ Text.size name ≤ 1024

/-- The head of an entry at a column: what comes behind it stands further right. No comment is
written between a `-` and its item. -/
structure Fits (column : Nat) (h : Head) : Prop where
  margin : Token.Margin h.gap
  first : Token.isSpaceOrBreak (h.gap.headD '\x00') = true
  deeper : column < Text.columnBehind column h.text
  item : h.isKey = false → '#' ∉ h.gap
  name : h.NameFits

instance decidableNameFits : ∀ head : Head, Decidable head.NameFits
  | dash _ => inferInstanceAs (Decidable True)
  | key _ _ => inferInstanceAs (Decidable (_ ∧ _))

instance (column : Nat) (head : Head) : Decidable (head.Fits column) :=
  decidable_of_iff (Token.Margin head.gap ∧ Token.isSpaceOrBreak (head.gap.headD '\x00') = true ∧
      column < Text.columnBehind column head.text ∧ (head.isKey = false → '#' ∉ head.gap) ∧
        head.NameFits)
    ⟨fun ⟨h₁, h₂, h₃, h₄, h₅⟩ => ⟨h₁, h₂, h₃, h₄, h₅⟩,
      fun ⟨h₁, h₂, h₃, h₄, h₅⟩ => ⟨h₁, h₂, h₃, h₄, h₅⟩⟩

end Head

/-! ## Sheets -/

/-- A node that is laid out in lines: a plain scalar with the margin behind it, the last entry of a
collection, or an entry and those behind it. -/
inductive Sheet where
  | word (w margin : Text)
  | last (head : Head) (node : Sheet)
  | more (head : Head) (node rest : Sheet)
  deriving DecidableEq, Repr

namespace Sheet

/-- What is written. -/
def text : Sheet → Text
  | word w margin => w ++ margin
  | last head node => head.text ++ node.text
  | more head node rest => head.text ++ node.text ++ rest.text

/-- The margin at the end. -/
def tail : Sheet → Text
  | word _ margin => margin
  | last _ node => node.tail
  | more _ _ rest => rest.tail

/-- The text without the margin at the end. -/
def body : Sheet → Text
  | word w _ => w
  | last head node => head.text ++ node.body
  | more head node rest => head.text ++ node.text ++ rest.body

/-- Whether this is a scalar. -/
def isWord : Sheet → Bool
  | word _ _ => true
  | _ => false

/-- The head of the first entry. -/
def head? : Sheet → Option Head
  | word _ _ => none
  | last head _ | more head _ _ => some head

/-- What the node says. -/
def outline : Sheet → Outline
  | word w _ => .scalar w
  | last head node => .group head.bracket (head.outlines ++ [node.outline])
  | more head node rest =>
    .group head.bracket (head.outlines ++ node.outline :: rest.outline.children)

/-- What is behind a head stands where it should: a collection starts on a line of its own behind a
key. -/
def Follows (head : Head) (node : Sheet) : Prop :=
  head.isKey = true → '\n' ∉ head.gap → node.isWord = true

/-- A sheet at a column. -/
inductive Fits : Nat → Sheet → Prop where
  | word {column : Nat} {w margin : Text} (hw : Token.PlainLine w)
      (hmargin : Token.IsBreak margin) : Fits column (word w margin)
  | last {column : Nat} {head : Head} {node : Sheet} (hhead : head.Fits column)
      (hfollows : Follows head node) (hnode : Fits (Text.columnBehind column head.text) node) :
      Fits column (last head node)
  | more {column : Nat} {head : Head} {node rest : Sheet} (hhead : head.Fits column)
      (hfollows : Follows head node) (hnode : Fits (Text.columnBehind column head.text) node)
      (haligned : Text.columnBehind 0 node.tail = column)
      (hkind : rest.head?.map Head.isKey = some head.isKey) (hrest : Fits column rest) :
      Fits column (more head node rest)

instance (head : Head) (node : Sheet) : Decidable (Follows head node) :=
  inferInstanceAs (Decidable (_ → _ → _))

instance decidableFits : ∀ (column : Nat) (t : Sheet), Decidable (t.Fits column)
  | _, word w b => decidable_of_iff (Token.PlainLine w ∧ Token.IsBreak b)
      ⟨fun ⟨hw, hb⟩ => .word hw hb, fun | .word hw hb => ⟨hw, hb⟩⟩
  | column, last head node =>
      have := decidableFits (Text.columnBehind column head.text) node
      decidable_of_iff (head.Fits column ∧ Follows head node ∧
          node.Fits (Text.columnBehind column head.text))
        ⟨fun ⟨h₁, h₂, h₃⟩ => .last h₁ h₂ h₃, fun | .last h₁ h₂ h₃ => ⟨h₁, h₂, h₃⟩⟩
  | column, more head node rest =>
      have := decidableFits (Text.columnBehind column head.text) node
      have := decidableFits column rest
      decidable_of_iff (head.Fits column ∧ Follows head node ∧
          node.Fits (Text.columnBehind column head.text) ∧
            Text.columnBehind 0 node.tail = column ∧
              rest.head?.map Head.isKey = some head.isKey ∧ rest.Fits column)
        ⟨fun ⟨h₁, h₂, h₃, h₄, h₅, h₆⟩ => .more h₁ h₂ h₃ h₄ h₅ h₆,
          fun | .more h₁ h₂ h₃ h₄ h₅ h₆ => ⟨h₁, h₂, h₃, h₄, h₅, h₆⟩⟩

section Fits

variable {column : Nat} {t : Sheet}

/-- The margin at the end ends a line. -/
theorem Fits.isBreak_tail (h : t.Fits column) : Token.IsBreak t.tail := by
  induction h with
  | word _ hmargin => exact hmargin
  | last _ _ _ ih => exact ih
  | more _ _ _ _ _ _ _ ih => exact ih

/-- The margin at the end is the end of the text. -/
theorem text_eq : ∀ t : Sheet, t.text = t.body ++ t.tail
  | word _ _ => rfl
  | last head node => by rw [text, body, tail, text_eq node, List.append_assoc]
  | more head node rest => by rw [text, body, tail, text_eq rest, ← List.append_assoc]

/-- The column behind a sheet is told by the margin at its end. -/
theorem Fits.columnBehind_text (h : t.Fits column) (c : Nat) :
    Text.columnBehind c t.text = Text.columnBehind 0 t.tail := by
  rw [text_eq, Text.columnBehind_append]
  exact Text.columnBehind_of_mem h.isBreak_tail.feed _ _

/-- What a sheet starts with is the start of a token, and no bracket. -/
theorem Fits.headD_body (h : t.Fits column) (v : Text) :
    Token.isSpaceOrEnd ((t.body ++ v).headD '\x00') = false ∧ (t.body ++ v).headD '\x00' ≠ '#' ∧
      Token.isFlow ((t.body ++ v).headD '\x00') = false := by
  have hhead : ∀ {head : Head} {u : Text}, head.Fits column →
      Token.isSpaceOrEnd ((head.text ++ u).headD '\x00') = false ∧
        (head.text ++ u).headD '\x00' ≠ '#' ∧
          Token.isFlow ((head.text ++ u).headD '\x00') = false := by
    intro head u hhead
    cases head with
    | dash gap => exact ⟨rfl, by simp [Head.text, Head.mark], rfl⟩
    | key name gap =>
        obtain ⟨hname, -⟩ := hhead.name
        rw [Head.text, Head.mark, List.append_assoc, List.append_assoc]
        exact ⟨(hname.headD_append _).1, (hname.headD_append _).2, hname.isFlow_headD _⟩
  cases h with
  | word hw _ => exact ⟨(hw.headD_append _).1, (hw.headD_append _).2, hw.isFlow_headD _⟩
  | last h _ _ =>
      rw [body, List.append_assoc]
      exact hhead h
  | more h _ _ _ _ _ =>
      rw [body, List.append_assoc, List.append_assoc]
      exact hhead h

theorem Fits.headD_text (h : t.Fits column) (v : Text) :
    Token.isSpaceOrEnd ((t.text ++ v).headD '\x00') = false ∧ (t.text ++ v).headD '\x00' ≠ '#' ∧
      Token.isFlow ((t.text ++ v).headD '\x00') = false := by
  rw [text_eq, List.append_assoc]
  exact h.headD_body _

end Fits

end Sheet

end YamlEdit
