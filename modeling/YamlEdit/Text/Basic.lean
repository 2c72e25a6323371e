/-!
# Texts and offsets

A document, a path or a scalar is a list of characters; a place in it is a byte offset of its
UTF-8 form. `Text.cutAt` is the only way in which the library takes a text apart at an offset, and
it refuses an offset that lies inside a character or past the end, so that every place where a
computed offset could be wrong shows in the result type.
-/

namespace YamlEdit

/-- A text, as the list of its characters. -/
abbrev Text := List Char

/-- An offset that is no character boundary of the text it was used on. -/
structure BadOffset where
  offset : Nat
  deriving DecidableEq, Repr

namespace Text

/-- Length of the UTF-8 form in bytes. -/
def size : Text → Nat
  | [] => 0
  | c :: t => c.utf8Size + size t

@[simp] theorem size_nil : size [] = 0 := rfl

@[simp] theorem size_cons (c : Char) (t : Text) : size (c :: t) = c.utf8Size + size t := rfl

theorem size_append : ∀ s t : Text, size (s ++ t) = size s + size t
  | [], t => by simp
  | c :: s, t => by simp [size_append s t, Nat.add_assoc]

/-- White space in the sense of the Unicode property `White_Space`. -/
def isBlank (c : Char) : Bool :=
  let n := c.toNat
  (9 ≤ n && n ≤ 13) || n == 0x20 || n == 0x85 || n == 0xA0 || n == 0x1680 ||
    (0x2000 ≤ n && n ≤ 0x200A) || n == 0x2028 || n == 0x2029 || n == 0x202F || n == 0x205F ||
    n == 0x3000

/-- The ASCII blanks: tab, line feed, form feed, carriage return and space. -/
def isAsciiBlank (c : Char) : Bool :=
  c == ' ' || c == '\t' || c == '\n' || c == '\r' || c == '\x0c'

/-- Takes blanks from the start. -/
def trimStart (t : Text) : Text := t.dropWhile isBlank

/-- Takes blanks from the end. -/
def trimEnd (t : Text) : Text := (t.reverse.dropWhile isBlank).reverse

/-- Takes blanks from both ends. -/
def trim (t : Text) : Text := trimEnd (trimStart t)

/-- Nothing but white space. -/
def allBlank (t : Text) : Bool := t.all isBlank

/-- The text without the given start, if it starts that way. -/
def dropStart? : Text → Text → Option Text
  | t, [] => some t
  | c :: t, d :: p => if c = d then dropStart? t p else none
  | [], _ :: _ => none

/-- The text without the line feeds at its end. -/
def trimLineFeeds (t : Text) : Text := (t.reverse.dropWhile (· == '\n')).reverse

/-! ## Cutting at an offset -/

/-- The two halves of a text; `before` lists its characters from the cut backwards. -/
structure Cut where
  before : Text
  after : Text
  deriving DecidableEq, Repr

/-- Walks `remaining` bytes into `t`, collecting what is passed over. -/
def cutFrom (offset : Nat) : (before : Text) → (remaining : Nat) → Text → Except BadOffset Cut
  | before, 0, t => .ok ⟨before, t⟩
  | _, _ + 1, [] => .error ⟨offset⟩
  | before, n + 1, c :: t =>
    if c.utf8Size ≤ n + 1 then cutFrom offset (c :: before) (n + 1 - c.utf8Size) t
    else .error ⟨offset⟩

/-- Cuts `t` at a byte offset. -/
def cutAt (t : Text) (offset : Nat) : Except BadOffset Cut := cutFrom offset [] offset t

/-- The text from `offset` on. -/
def dropBytes (t : Text) (offset : Nat) : Except BadOffset Text := (·.after) <$> t.cutAt offset

/-- The text up to `offset`. -/
def takeBytes (t : Text) (offset : Nat) : Except BadOffset Text :=
  (·.before.reverse) <$> t.cutAt offset

/-- The text from byte `start` to byte `stop`; a `stop` in front of `start` is refused. -/
def slice (t : Text) (start stop : Nat) : Except BadOffset Text := do
  let rest ← t.dropBytes start
  if start ≤ stop then rest.takeBytes (stop - start) else throw ⟨stop⟩

/-- The last character boundary at or before an offset; `none` past the end of the text. -/
def floorBoundary : Text → (offset : Nat) → Option Nat
  | _, 0 => some 0
  | [], _ + 1 => none
  | c :: t, n + 1 =>
    if c.utf8Size ≤ n + 1 then (c.utf8Size + ·) <$> floorBoundary t (n + 1 - c.utf8Size)
    else some 0

/-! ## Lines -/

/-- The lines with their terminators. -/
def rawLines : Text → List Text
  | [] => []
  | c :: t =>
    if c = '\n' then ['\n'] :: rawLines t
    else match rawLines t with
      | [] => [[c]]
      | line :: lines => (c :: line) :: lines

/-- A line without its line feed and without the carriage return in front of that. -/
def chompLine (line : Text) : Text :=
  match line.reverse with
  | '\n' :: '\r' :: r => r.reverse
  | '\n' :: r => r.reverse
  | _ => line

/-- The lines without their terminators; a text that ends with a line feed has no empty last
line. -/
def lines (t : Text) : List Text := t.rawLines.map chompLine

theorem flatten_rawLines : ∀ t : Text, t.rawLines.flatten = t
  | [] => rfl
  | c :: t => by
    have ih := flatten_rawLines t
    rw [rawLines]
    split
    · simp_all
    · split
      · next h => rw [h] at ih; simp at ih; simp [← ih]
      · next line lines h => rw [h] at ih; simp at ih; simp [ih]

/-! ## Numbers -/

/-- The value of an ASCII digit. -/
def digitValue (c : Char) : Nat := c.toNat - '0'.toNat

/-- The ten ASCII digits. -/
def isDigit (c : Char) : Bool := '0' ≤ c && c ≤ '9'

/-- Reads a run of decimal digits. -/
def toNatDigits (t : Text) : Nat := t.foldl (fun n c => 10 * n + digitValue c) 0

/-- The decimal digits of a number. -/
def ofNat (n : Nat) : Text := Nat.toDigits 10 n

/-- The decimal form of an integer. -/
def ofInt : Int → Text
  | .ofNat n => ofNat n
  | .negSucc n => '-' :: ofNat (n + 1)

/-- The value of a hexadecimal digit. -/
def hexValue? (c : Char) : Option Nat :=
  if isDigit c then some (digitValue c)
  else if 'a' ≤ c ∧ c ≤ 'f' then some (c.toNat - 'a'.toNat + 10)
  else if 'A' ≤ c ∧ c ≤ 'F' then some (c.toNat - 'A'.toNat + 10)
  else none

/-- The character with a given number, if there is one. -/
def charOfNat? (n : Nat) : Option Char :=
  if n < 0xD800 ∨ (0xE000 ≤ n ∧ n < 0x110000) then some (Char.ofNat n) else none

/-- At least `width` hexadecimal digits of a number, with small letters. -/
def ofNatHex (width n : Nat) : Text :=
  let digits := Nat.toDigits 16 n
  List.replicate (width - digits.length) '0' ++ digits

/-- A count of spaces. -/
def spaces (n : Nat) : Text := List.replicate n ' '

end Text

end YamlEdit
