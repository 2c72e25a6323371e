import YamlEdit.Json.Basic

/-!
# Reading JSON

The reader keeps the line and the byte column of what it reads next, so that every fault is
reported where it was noticed: at the place reached, or one byte ahead of it when the fault is the
character that comes next.
-/

namespace YamlEdit

namespace Json

/-- Why a text is no JSON value. -/
inductive Fault where
  | endInList
  | endInObject
  | endInString
  | endInValue
  | expectedColon
  | expectedListCommaOrEnd
  | expectedObjectCommaOrEnd
  | expectedWord
  | expectedValue
  | invalidEscape
  | invalidNumber
  | numberOutOfRange
  | controlCharacter
  | keyMustBeString
  | loneSurrogate
  | trailingComma
  | trailingCharacters
  | unexpectedEndOfEscape
  | tooDeep
  deriving DecidableEq, Repr

/-- A fault in words. -/
def Fault.message : Fault → Text
  | endInList => "EOF while parsing a list".toList
  | endInObject => "EOF while parsing an object".toList
  | endInString => "EOF while parsing a string".toList
  | endInValue => "EOF while parsing a value".toList
  | expectedColon => "expected `:`".toList
  | expectedListCommaOrEnd => "expected `,` or `]`".toList
  | expectedObjectCommaOrEnd => "expected `,` or `\x7d`".toList
  | expectedWord => "expected ident".toList
  | expectedValue => "expected value".toList
  | invalidEscape => "invalid escape".toList
  | invalidNumber => "invalid number".toList
  | numberOutOfRange => "number out of range".toList
  | controlCharacter =>
    "control character (\\u0000-\\u001F) found while parsing a string".toList
  | keyMustBeString => "key must be a string".toList
  | loneSurrogate => "lone leading surrogate in hex escape".toList
  | trailingComma => "trailing comma".toList
  | trailingCharacters => "trailing characters".toList
  | unexpectedEndOfEscape => "unexpected end of hex escape".toList
  | tooDeep => "recursion limit exceeded".toList

/-- A line, counted from one, and the number of bytes read in it. -/
structure Place where
  line : Nat
  column : Nat
  deriving DecidableEq, Repr

/-- The place after one more character. -/
def Place.next (p : Place) (c : Char) : Place :=
  if c = '\n' then ⟨p.line + 1, 0⟩ else ⟨p.line, p.column + c.utf8Size⟩

/-- Text that is still to be read, and where it starts. -/
structure Cursor where
  rest : Text
  place : Place
  deriving DecidableEq, Repr

/-- A fault and the place where it shows. -/
structure ReadError where
  place : Place
  fault : Fault
  deriving DecidableEq, Repr

/-- A step of reading JSON. -/
abbrev Reader := StateT Cursor (Except ReadError)

/-- The place one byte ahead of the cursor. -/
def Cursor.ahead (c : Cursor) : Place :=
  match c.rest with
  | [] => c.place
  | d :: _ => if d = '\n' then ⟨c.place.line + 1, 0⟩ else ⟨c.place.line, c.place.column + 1⟩

/-- Takes a character, if there is one. -/
def Cursor.advance (c : Cursor) : Cursor :=
  match c.rest with
  | [] => c
  | d :: rest => ⟨rest, c.place.next d⟩

namespace Reader

/-- Fails at the place reached. -/
def fail {α : Type} (fault : Fault) : Reader α := fun c => .error ⟨c.place, fault⟩

/-- Fails at the character that comes next. -/
def failAhead {α : Type} (fault : Fault) : Reader α := fun c => .error ⟨c.ahead, fault⟩

/-- The next character, which stays. -/
def peek? : Reader (Option Char) := fun c => .ok (c.rest.head?, c)

/-- Takes the next character. -/
def skip : Reader Unit := fun c => .ok ((), c.advance)

/-- Takes the next character, or fails with `fault` at the end. -/
def next (fault : Fault) : Reader Char := fun c =>
  match c.rest with
  | [] => .error ⟨c.place, fault⟩
  | d :: _ => .ok (d, c.advance)

/-- Takes the next character if it satisfies `p`; another one is refused with `fault`. -/
def nextThat (p : Char → Bool) (atEnd fault : Fault) : Reader Char := fun c =>
  match c.rest with
  | [] => .error ⟨c.place, atEnd⟩
  | d :: _ => if p d then .ok (d, c.advance) else .error ⟨c.ahead, fault⟩

/-- Number of characters still to be read. -/
def remaining : Reader Nat := fun c => .ok (c.rest.length, c)

end Reader

open Reader

/-- The characters that may stand between tokens. -/
def isSpace (c : Char) : Bool := c == ' ' || c == '\n' || c == '\t' || c == '\r'

/-- Takes the space in front of the next token. -/
def Cursor.skipSpace : Text → Place → Cursor
  | [], p => ⟨[], p⟩
  | c :: t, p => if isSpace c then Cursor.skipSpace t (p.next c) else ⟨c :: t, p⟩

/-- Skips blanks and looks at what follows them. -/
def peekToken? : Reader (Option Char) := do
  modify fun c => Cursor.skipSpace c.rest c.place
  peek?

/-! ## Words and numbers -/

/-- Reads the given characters. -/
def word : Text → Reader Unit
  | [] => pure ()
  | d :: rest => do
    let _ ← nextThat (· == d) .endInValue .expectedWord
    word rest

/-- The powers of ten that are finite doubles. -/
def pow10 (n : Nat) : Float := Float.ofScientific 1 false n

/-- `significand * 10 ^ exponent`, rounded after the conversion of the significand and after
every multiplication or division by a power of ten. -/
def scale (fuel : Nat) (x : Float) (exponent : Int) : Option Float :=
  if exponent.natAbs ≤ 308 then
    if 0 ≤ exponent then
      let y := x * pow10 exponent.natAbs
      if y.isInf then none else some y
    else some (x / pow10 exponent.natAbs)
  else if x == 0 then some x
  else if 0 ≤ exponent then none
  else match fuel with
    | 0 => some 0
    | fuel + 1 => scale fuel (x / pow10 308) (exponent + 308)

/-- A number with its sign, unless it is too large. -/
def floatOf (positive : Bool) (significand : Nat) (exponent : Int) : Reader Json :=
  match scale 8 (Float.ofNat significand) exponent with
  | none => fail .numberOutOfRange
  | some x => pure (.float (if positive then x else -x))

/-- The greatest integer of 64 bits. -/
def maxUnsigned : Nat := UInt64.size - 1

/-- Skips a run of digits. -/
def skipDigits : (fuel : Nat) → Reader Nat
  | 0 => pure 0
  | fuel + 1 => do
    match ← peek? with
    | some c => if Text.isDigit c then skip; (· + 1) <$> skipDigits fuel else pure 0
    | none => pure 0

/-- Reads digits onto `significand` while it stays below `2 ^ 64`: the number read, how many
digits it took, and whether a digit was left because it would not fit. -/
def digits (fuel : Nat) (limit significand count : Nat) : Reader (Nat × Nat × Bool) :=
  match fuel with
  | 0 => pure (significand, count, false)
  | fuel + 1 => do
    match ← peek? with
    | some c =>
      if Text.isDigit c then
        let longer := 10 * significand + Text.digitValue c
        if longer ≤ limit then
          skip
          digits fuel limit longer (count + 1)
        else pure (significand, count, true)
      else pure (significand, count, false)
    | none => pure (significand, count, false)

/-- Reads an exponent, its letter included, and closes the number. -/
def exponentPart (positive : Bool) (significand : Nat) (start : Int) : Reader Json := do
  skip
  let up ← match ← peek? with
    | some '+' => do skip; pure true
    | some '-' => do skip; pure false
    | _ => pure true
  let first ← nextThat Text.isDigit .endInValue .invalidNumber
  let (value, _, overflow) ← digits (← remaining) (Nat.pow 2 31 - 1) (Text.digitValue first) 1
  if overflow then
    skip
    if significand ≠ 0 ∧ up then fail .numberOutOfRange
    else
      let _ ← skipDigits (← remaining)
      pure (.float (if positive then 0 else -0.0))
  else
    floatOf positive significand (if up then start + value else start - value)

/-- Closes a number that may still have an exponent. -/
def exponentOrEnd (positive : Bool) (significand : Nat) (exponent : Int) : Reader Json := do
  match ← peek? with
  | some 'e' | some 'E' => exponentPart positive significand exponent
  | _ => floatOf positive significand exponent

/-- Reads a fraction, its point included, and closes the number. Digits that do not fit are
dropped. -/
def fractionPart (positive : Bool) (significand : Nat) (start : Int) : Reader Json := do
  skip
  let (value, count, overflow) ← digits (← remaining) maxUnsigned significand 0
  if overflow then
    let _ ← skipDigits (← remaining)
    exponentOrEnd positive value (start - count)
  else if count = 0 then
    match ← peek? with
    | some _ => failAhead .invalidNumber
    | none => failAhead .endInValue
  else exponentOrEnd positive value (start - count)

/-- Reads a number, after its sign. -/
def readNumber (positive : Bool) : Reader Json := do
  let first ← nextThat Text.isDigit .endInValue .invalidNumber
  let (significand, overflow) ←
    if first = '0' then do
      match ← peek? with
      | some c => if Text.isDigit c then failAhead .invalidNumber else pure (0, false)
      | none => pure (0, false)
    else do
      let (value, _, overflow) ← digits (← remaining) maxUnsigned (Text.digitValue first) 1
      pure (value, overflow)
  if overflow then
    let count ← skipDigits (← remaining)
    match ← peek? with
    | some '.' => fractionPart positive significand count
    | _ => exponentOrEnd positive significand count
  else
    match ← peek? with
    | some '.' => fractionPart positive significand 0
    | some 'e' | some 'E' => exponentPart positive significand 0
    | _ =>
      if positive then pure (.integer significand)
      else if significand = 0 ∨ Nat.pow 2 63 < significand then
        pure (.float (-(Float.ofNat significand)))
      else pure (.integer (-significand))

/-! ## Strings -/

/-- The place `bytes` bytes further on, which may lie inside a character. -/
def placeAfterBytes : (bytes : Nat) → Text → Place → Place
  | 0, _, p => p
  | _ + 1, [], p => p
  | n + 1, c :: t, p =>
    if c.utf8Size ≤ n + 1 then placeAfterBytes (n + 1 - c.utf8Size) t (p.next c)
    else ⟨p.line, p.column + n + 1⟩

/-- Reads the four hexadecimal digits of an escape. -/
def hexEscape : Reader Nat := fun c =>
  if Text.size c.rest < 4 then
    .error ⟨placeAfterBytes (Text.size c.rest) c.rest c.place, .endInString⟩
  else
    match c.rest.take 4 |>.mapM Text.hexValue? with
    | some [a, b, d, e] =>
      .ok (((a * 16 + b) * 16 + d) * 16 + e, c.advance.advance.advance.advance)
    | _ => .error ⟨placeAfterBytes 4 c.rest c.place, .invalidEscape⟩

/-- Reads what follows `\u`. Characters outside the first plane are written as two escapes. -/
def unicodeEscape : Reader Char := do
  let high ← hexEscape
  if 0xDC00 ≤ high ∧ high ≤ 0xDFFF then fail .loneSurrogate
  else if high < 0xD800 ∨ 0xDBFF < high then pure (Char.ofNat high)
  else
    let _ ← nextThat (· == '\\') .endInString .unexpectedEndOfEscape
    let _ ← nextThat (· == 'u') .endInString .unexpectedEndOfEscape
    let low ← hexEscape
    if low < 0xDC00 ∨ 0xDFFF < low then fail .loneSurrogate
    else pure (Char.ofNat ((high - 0xD800) * 0x400 + (low - 0xDC00) + 0x10000))

/-- The character that a one-letter escape stands for. -/
def simpleEscape? (c : Char) : Option Char :=
  if c = '"' ∨ c = '\\' ∨ c = '/' then some c
  else if c = 'b' then some '\x08'
  else if c = 'f' then some '\x0c'
  else if c = 'n' then some '\n'
  else if c = 'r' then some '\r'
  else if c = 't' then some '\t'
  else none

/-- Reads what follows a backslash. -/
def escape : Reader Char := do
  let isLetter := fun c => c == 'u' || (simpleEscape? c).isSome
  let c ← nextThat isLetter .endInString .invalidEscape
  match simpleEscape? c with
  | some d => pure d
  | none => unicodeEscape

/-- Reads a string after its opening quote, onto the characters in `read`, last one first. -/
def stringRest : (fuel : Nat) → (read : Text) → Reader Text
  | 0, _ => fail .endInString
  | fuel + 1, read => do
    let c ← next .endInString
    if c = '"' then pure read.reverse
    else if c = '\\' then
      let d ← escape
      stringRest fuel (d :: read)
    else if c.toNat < 0x20 then fail .controlCharacter
    else stringRest fuel (c :: read)

/-- A string, whose opening quote has been seen. -/
def readString : Reader Text := do
  skip
  stringRest ((← remaining) + 1) []

/-! ## Values -/

/-- The nesting that is read before the reader gives up. -/
def maxDepth : Nat := 128

/-- Closes a list. -/
def endList : Reader Unit := do
  match ← peekToken? with
  | some ']' => skip
  | some ',' => do
    skip
    match ← peekToken? with
    | some ']' => failAhead .trailingComma
    | _ => failAhead .trailingCharacters
  | some _ => failAhead .trailingCharacters
  | none => failAhead .endInList

/-- Closes an object. -/
def endObject : Reader Unit := do
  match ← peekToken? with
  | some '\x7d' => skip
  | some ',' => failAhead .trailingComma
  | some _ => failAhead .trailingCharacters
  | none => failAhead .endInObject

/-- Whether one more item of a list follows; `first` is true before the first one. -/
def hasItem (first : Bool) : Reader Bool := do
  match ← peekToken? with
  | none => failAhead .endInList
  | some c =>
    if c = ']' then pure false
    else if first then pure true
    else if c = ',' then
      skip
      match ← peekToken? with
      | some ']' => failAhead .trailingComma
      | some _ => pure true
      | none => failAhead .endInValue
    else failAhead .expectedListCommaOrEnd

/-- Whether one more member of an object follows. -/
def hasMember (first : Bool) : Reader Bool := do
  match ← peekToken? with
  | none => failAhead .endInObject
  | some c =>
    if c = '\x7d' then pure false
    else if first then
      if c = '"' then pure true else failAhead .keyMustBeString
    else if c = ',' then
      skip
      match ← peekToken? with
      | some '"' => pure true
      | some '\x7d' => failAhead .trailingComma
      | some _ => failAhead .keyMustBeString
      | none => failAhead .endInValue
    else failAhead .expectedObjectCommaOrEnd

/-- Reads the colon of a member. -/
def colon : Reader Unit := do
  match ← peekToken? with
  | some ':' => skip
  | some _ => failAhead .expectedColon
  | none => failAhead .endInObject

/-- Reads a value that is neither a list nor an object. -/
def readScalar (c : Char) : Reader Json := do
  if c = 'n' then skip; word "ull".toList; pure .null
  else if c = 't' then skip; word "rue".toList; pure (.bool true)
  else if c = 'f' then skip; word "alse".toList; pure (.bool false)
  else if c = '-' then skip; readNumber false
  else if Text.isDigit c then readNumber true
  else if c = '"' then .string <$> readString
  else failAhead .expectedValue

mutual

/-- Reads a value; `depth` is the nesting that is still allowed. -/
def readValue (fuel depth : Nat) : Reader Json :=
  match fuel with
  | 0 => fail .tooDeep
  | fuel + 1 => do
    match ← peekToken? with
    | none => failAhead .endInValue
    | some c =>
      if c = '[' then
        if depth ≤ 1 then failAhead .tooDeep
        else
          skip
          let items ← readItems fuel (depth - 1) true []
          endList
          pure (.array items)
      else if c = '\x7b' then
        if depth ≤ 1 then failAhead .tooDeep
        else
          skip
          let members ← readMembers fuel (depth - 1) true []
          endObject
          pure (.object members)
      else readScalar c

/-- Reads the items of a list that are left onto those in `read`, last one first. -/
def readItems (fuel depth : Nat) (first : Bool) (read : List Json) : Reader (List Json) :=
  match fuel with
  | 0 => fail .tooDeep
  | fuel + 1 => do
    if ← hasItem first then
      let item ← readValue fuel depth
      readItems fuel depth false (item :: read)
    else pure read.reverse

/-- Reads the members of an object that are left. -/
def readMembers (fuel depth : Nat) (first : Bool) (read : List (Text × Json)) :
    Reader (List (Text × Json)) :=
  match fuel with
  | 0 => fail .tooDeep
  | fuel + 1 => do
    if ← hasMember first then
      let name ← readString
      colon
      let item ← readValue fuel depth
      readMembers fuel depth false ((name, item) :: read)
    else pure read.reverse

end

/-- Fuel for reading a text: no value takes more than two steps for one character. -/
def fuelFor (t : Text) : Nat := 2 * t.length + 2

/-- Reading starts in line 1, in front of its first column. -/
def startOf (t : Text) : Cursor := ⟨t, ⟨1, 0⟩⟩

/-- Reads a text that holds one value. -/
def parse (t : Text) : Except ReadError Json := do
  let (result, c) ← (readValue (fuelFor t) maxDepth).run (startOf t)
  let (next, c) ← peekToken?.run c
  match next with
  | none => pure result
  | some _ => throw ⟨c.ahead, .trailingCharacters⟩

end Json

end YamlEdit
