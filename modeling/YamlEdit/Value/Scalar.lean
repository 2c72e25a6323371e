import YamlEdit.Value.Plain

/-!
# Written scalars

How a string is written: plain if it can be, else in single quotes, else in double quotes with
escapes; a string with line feeds as a literal block, if it can be.
-/

namespace YamlEdit

/-- A piece of a written value. -/
structure Written where
  text : Text
  /-- Whether the last line is still to be ended. -/
  lineOpen : Bool
  deriving DecidableEq, Repr

namespace Scalar

/-! ## Classes of characters -/

/-- The characters that end a line. -/
def isBreak (c : Char) : Bool :=
  c == '\n' || c == '\r' || c == '\u0085' || c == '\u2028' || c == '\u2029'

/-- The characters that are written as they are, outside double quotes too. -/
def isPrintable (c : Char) : Bool :=
  let n := c.toNat
  n == 0x0A || (0x20 ≤ n && n ≤ 0x7E) || (0xA0 ≤ n && n ≤ 0xD7FF) ||
    (0xE000 ≤ n && n ≤ 0xFFFD && n != 0xFEFF) || 0x10000 ≤ n

/-- White space, a line break or the end of the text. -/
def isGap : Option Char → Bool
  | none => true
  | some c => c == ' ' || c == '\t' || c == '\x00' || isBreak c

/-- Whether some character satisfies `p` and the next one `q`. -/
def hasPair (p q : Char → Bool) : Text → Bool
  | c :: d :: t => (p c && q d) || hasPair p q (d :: t)
  | _ => false

/-! ## Which styles a string allows -/

/-- A start that means something else to a reader. -/
def hasIndicatorStart (t : Text) : Bool :=
  t.take 3 == "---".toList || t.take 3 == "...".toList ||
    match t with
    | [] => false
    | c :: rest =>
      "#,[]\x7b\x7d&*!|>'\"%@`".toList.contains c ||
        ((c == '?' || c == ':' || c == '-') && isGap rest.head?)

/-- A `:` in front of a gap, or a `#` behind one, after the character `before`. -/
def hasIndicatorAfter (before : Char) : Text → Bool
  | [] => false
  | c :: t =>
    (c == ':' && isGap t.head?) || (c == '#' && isGap (some before)) || hasIndicatorAfter c t

/-- Whether a mark inside the text would end a plain scalar or start a comment. -/
def hasInnerIndicator : Text → Bool
  | [] => false
  | c :: t => hasIndicatorAfter c t

/-- Only the space counts as one. -/
def isBlank (c : Char) : Bool := c == ' '

/-- What no style but double quotes can write. -/
def needsEscapes (t : Text) : Bool := !t.all isPrintable || hasPair isBlank isBreak t

/-- Whether single quotes can hold the text: nothing needs an escape, and no space follows a line
end. -/
def allowsSingleQuotes (t : Text) : Bool := !needsEscapes t && !hasPair isBreak isBlank t

/-- Whether the text can stand without quotes. -/
def allowsPlain (t : Text) : Bool :=
  allowsSingleQuotes t && !t.any isBreak && t.head? != some ' ' && t.getLast? != some ' ' &&
    !hasIndicatorStart t && !hasInnerIndicator t

/-- Whether the text can be written as a literal block. -/
def allowsLiteral (t : Text) : Bool := !needsEscapes t && t.getLast? != some ' '

/-! ## The written forms -/

/-- The text in single quotes; a quote is written twice. A line after a break starts with
`indent` spaces. -/
def singleQuotedFrom (indent : Nat) : (broken : Bool) → Text → Text
  | broken, [] => if broken then Text.spaces indent else []
  | broken, c :: t =>
    if isBreak c then c :: singleQuotedFrom indent true t
    else
      (if broken then Text.spaces indent else []) ++ (if c = '\'' then ['\'', '\''] else [c]) ++
        singleQuotedFrom indent false t

/-- A text in single quotes; a line end in it is written with its indentation. -/
def singleQuoted (indent : Nat) (t : Text) : Text :=
  '\'' :: singleQuotedFrom indent false t ++ ['\'']

/-- The letter of an escape that has one. -/
def escapeLetter? (c : Char) : Option Char :=
  match c.toNat with
  | 0x00 => some '0'
  | 0x07 => some 'a'
  | 0x08 => some 'b'
  | 0x09 => some 't'
  | 0x0A => some 'n'
  | 0x0B => some 'v'
  | 0x0C => some 'f'
  | 0x0D => some 'r'
  | 0x1B => some 'e'
  | 0x22 => some '"'
  | 0x5C => some '\\'
  | 0x85 => some 'N'
  | 0x2028 => some 'L'
  | 0x2029 => some 'P'
  | _ => none

/-- The number of a character in capital hexadecimal digits, after a letter for their count. -/
def numberedEscape (c : Char) : Text :=
  let n := c.toNat
  let (letter, width) := if n ≤ 0xFF then ('x', 2) else if n ≤ 0xFFFF then ('u', 4) else ('U', 8)
  letter :: (Text.ofNatHex width n).map Char.toUpper

/-- A character between double quotes. -/
def doubleQuotedChar (c : Char) : Text :=
  if isPrintable c && !isBreak c && c != '"' && c != '\\' then [c]
  else
    '\\' :: match escapeLetter? c with
      | some letter => [letter]
      | none => numberedEscape c

/-- A text in double quotes. -/
def doubleQuoted (t : Text) : Text := '"' :: t.flatMap doubleQuotedChar ++ ['"']

/-- The lines of a literal, each one indented unless it is empty. -/
def literalFrom (indent : Nat) : (broken : Bool) → Text → Text
  | _, [] => []
  | broken, c :: t =>
    if isBreak c then c :: literalFrom indent true t
    else (if broken then Text.spaces indent else []) ++ c :: literalFrom indent false t

/-- The width of an indentation step. -/
def step : Nat := 2

/-- An indentation indicator, needed when the text starts with white space. -/
def indentHint (t : Text) : Text :=
  match t with
  | c :: _ => if c = ' ' ∨ isBreak c then Text.ofNat step else []
  | [] => []

/-- A chomping indicator: `-` without a line break at the end, `+` with more than one or with
nothing else. -/
def chompHint (t : Text) : Text :=
  match t.reverse with
  | [] => ['-']
  | c :: rest =>
    if !isBreak c then ['-']
    else match rest with
      | [] => ['+']
      | d :: _ => if isBreak d then ['+'] else []

/-- A text as a literal block: the header, then the lines. -/
def literal (indent : Nat) (t : Text) : Text :=
  '|' :: indentHint t ++ chompHint t ++ '\n' :: literalFrom indent true t

/-- A string; the lines after the first one are indented by `indent`. -/
def ofString (indent : Nat) (t : Text) : Written :=
  if t.contains '\n' then
    if allowsLiteral t then ⟨literal indent t, !(t.getLast?.any isBreak)⟩
    else ⟨doubleQuoted t, true⟩
  else if !Plain.isAmbiguous t && allowsPlain t then ⟨t, true⟩
  else if allowsSingleQuotes t then ⟨singleQuoted indent t, true⟩
  else ⟨doubleQuoted t, true⟩

end Scalar

end YamlEdit
