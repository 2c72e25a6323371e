import YamlEdit.Text.Basic

/-!
# Tokens

The lexical units of a document, and the marks that say where they stand. A line is counted from
one and a column, in characters, from zero.
-/

namespace YamlEdit

/-- A place between two characters of a document. -/
structure Mark where
  /-- What is in front of the place: characters of a document, bytes of the text of a value. -/
  index : Nat
  line : Nat
  column : Nat
  deriving DecidableEq, Repr

/-- The start of every document. -/
def Mark.origin : Mark := ⟨0, 1, 0⟩

/-- The part of a document between two marks. -/
structure Span where
  start : Mark
  stop : Mark
  deriving DecidableEq, Repr

/-- A span without characters. -/
def Span.empty (m : Mark) : Span := ⟨m, m⟩

/-- How a scalar is written. -/
inductive ScalarStyle where
  | plain
  | singleQuoted
  | doubleQuoted
  | literal
  | folded
  deriving DecidableEq, Repr

/-- What a text consists of. -/
inductive Token where
  | streamStart
  | streamEnd
  | versionDirective (major minor : Nat)
  /-- A handle, and what it stands for at the start of a tag. -/
  | tagDirective (handle meaning : Text)
  | documentStart
  | documentEnd
  | blockSequenceStart
  | blockMappingStart
  | blockEnd
  | flowSequenceStart
  | flowSequenceEnd
  | flowMappingStart
  | flowMappingEnd
  | blockEntry
  | flowEntry
  | key
  | value
  | aliasTo (name : Text)
  | anchor (name : Text)
  /-- A tag, with what comes after its handle. A tag that is written in full has no handle. -/
  | tag (handle rest : Text)
  | scalar (style : ScalarStyle) (text : Text)
  deriving DecidableEq, Repr

/-- Something that stands at a place of a document. -/
structure Located (α : Type) where
  span : Span
  item : α
  deriving Repr

instance {α : Type} [DecidableEq α] : DecidableEq (Located α) := fun a b =>
  if h : a.span = b.span ∧ a.item = b.item then
    isTrue (by cases a; cases b; obtain ⟨rfl, rfl⟩ := h; rfl)
  else isFalse (by rintro rfl; exact h ⟨rfl, rfl⟩)

/-! ## Classes of characters

`'\x00'` stands for the end of the document; a document that holds it ends there. -/

namespace Token

/-- NUL stands for the end of the text. -/
def isEnd (c : Char) : Bool := c == '\x00'

/-- The characters that end a line. -/
def isBreak (c : Char) : Bool := c == '\n' || c == '\r'

/-- A line ends with a break or with the text. -/
def isBreakOrEnd (c : Char) : Bool := isBreak c || isEnd c

/-- The white space that separates tokens of one line. -/
def isSpace (c : Char) : Bool := c == ' ' || c == '\t'

/-- A space or the end of a line. -/
def isSpaceOrBreak (c : Char) : Bool := isSpace c || isBreak c

/-- The characters that end a token. -/
def isSpaceOrEnd (c : Char) : Bool := isSpace c || isBreakOrEnd c

/-- The indicators that have a meaning inside brackets. -/
def isFlow (c : Char) : Bool := c == ',' || c == '[' || c == ']' || c == '\x7b' || c == '\x7d'

/-- The letters of ASCII. -/
def isAsciiLetter (c : Char) : Bool := ('a' ≤ c && c ≤ 'z') || ('A' ≤ c && c ≤ 'Z')

/-- A character of a directive's name or of a tag handle. -/
def isNameChar (c : Char) : Bool :=
  isAsciiLetter c || Text.isDigit c || c == '_' || c == '-'

/-- A character of an anchor's name. -/
def isAnchorChar (c : Char) : Bool :=
  !isSpaceOrEnd c && c != '\uFEFF' && !isFlow c

/-- The characters that a tag may hold. -/
def isUriChar (c : Char) : Bool :=
  (isNameChar c && c != '_') || "#;/?:@&=+$,_.!~*'()[]%".toList.contains c

/-- A character of a tag after its handle. -/
def isTagChar (c : Char) : Bool := isUriChar c && !isFlow c && c != '!'

/-! ## Escapes and handles -/

/-- The character that a one-letter escape stands for. -/
def simpleEscape? (c : Char) : Option Char :=
  match c with
  | '0' => some '\x00'
  | 'a' => some '\x07'
  | 'b' => some '\x08'
  | 't' => some '\t'
  | '\t' => some '\t'
  | 'n' => some '\n'
  | 'v' => some '\x0b'
  | 'f' => some '\x0c'
  | 'r' => some '\r'
  | 'e' => some '\x1b'
  | ' ' => some ' '
  | '"' => some '"'
  | '/' => some '/'
  | '\\' => some '\\'
  | 'N' => some '\u0085'
  | '_' => some '\u00a0'
  | 'L' => some '\u2028'
  | 'P' => some '\u2029'
  | _ => none

/-- The number of hexadecimal digits after the letter of an escape. -/
def escapeLength? (c : Char) : Option Nat :=
  if c = 'x' then some 2 else if c = 'u' then some 4 else if c = 'U' then some 8 else none

/-- The number of bytes of a character whose first byte is given. -/
def byteCount? (byte : Nat) : Option Nat :=
  if byte < 0x80 then some 1
  else if 0xC0 ≤ byte ∧ byte < 0xE0 then some 2
  else if 0xE0 ≤ byte ∧ byte < 0xF0 then some 3
  else if 0xF0 ≤ byte ∧ byte < 0xF8 then some 4
  else none

/-- A handle that ends with a `!` of its own. -/
def isFullHandle (handle : Text) : Bool := 2 ≤ handle.length && handle.getLast? == some '!'

end Token

end YamlEdit
