import YamlEdit.Value.Basic

/-!
# Plain scalars

What a scalar without quotes stands for. A text that is not one of the words or numbers here is a
string, and only such a text can be written without quotes as a string.
-/

namespace YamlEdit

namespace Plain

/-- The words for the null value. -/
def isNullWord (t : Text) : Bool :=
  ["~", "null", "Null", "NULL"].any (·.toList == t)

/-- The six spellings of a truth value. -/
def bool? (t : Text) : Option Bool :=
  if ["true", "True", "TRUE"].any (·.toList == t) then some true
  else if ["false", "False", "FALSE"].any (·.toList == t) then some false
  else none

/-- The text without a plus sign in front. -/
def dropPlus : Text → Text
  | '+' :: t => t
  | t => t

/-- A zero and more digits: such a text is no number. -/
def isZeroPadded (t : Text) : Bool :=
  let digits := match t with
    | '-' :: r | '+' :: r => r
    | r => r
  match digits with
  | '0' :: rest => !rest.isEmpty && rest.all Text.isDigit
  | _ => false

/-- Reads digits of a base up to sixteen, at least one. -/
def natInBase? (base : Nat) (t : Text) : Option Nat :=
  if t.isEmpty then none
  else t.foldl
    (fun n? c => do
      let n ← n?
      let d ← Text.hexValue? c
      if d < base then some (base * n + d) else none)
    (some 0)

/-- Reads digits, which may start with the mark of a base. -/
def natural? : Text → Option Nat
  | '0' :: 'x' :: t => natInBase? 16 t
  | '0' :: 'o' :: t => natInBase? 8 t
  | '0' :: 'b' :: t => natInBase? 2 t
  | t => natInBase? 10 t

/-- Integers are read as long as they fit 128 bits. -/
def integer? (t : Text) : Option Int :=
  if isZeroPadded t then none
  else match t with
    | '-' :: r => do
      let n ← natural? r
      if n ≤ Nat.pow 2 127 then some (-(n : Int)) else none
    | _ => do
      let n ← natural? (dropPlus t)
      if n < Nat.pow 2 128 then some (n : Int) else none

/-- Reads an exponent, its letter included. -/
def exponent? : Text → Option Int
  | [] => some 0
  | e :: t =>
    if e = 'e' ∨ e = 'E' then
      match t with
      | '-' :: digits => (natInBase? 10 digits).map fun n => -(n : Int)
      | _ => (natInBase? 10 (dropPlus t)).map fun n => (n : Int)
    else none

/-- The double nearest to `significand * 10 ^ exponent`. Numbers of more than 400 digits in front
of the point are beyond the doubles, and those of more than 400 zeros behind it are zero. -/
def decimal (significand : Nat) (exponent : Int) : Float :=
  let size := exponent + (Text.ofNat significand).length
  if significand = 0 ∨ size < -400 then 0
  else if 400 < size then 1.0 / 0.0
  else Float.ofScientific significand (exponent < 0) exponent.natAbs

/-- Reads decimal notation without a sign, where digits may be missing on one side of the
point. -/
def magnitude? (t : Text) : Option Float := do
  let whole := t.takeWhile Text.isDigit
  let rest := t.dropWhile Text.isDigit
  let (fraction, rest) := match rest with
    | '.' :: r => (r.takeWhile Text.isDigit, r.dropWhile Text.isDigit)
    | r => ([], r)
  if whole.isEmpty ∧ fraction.isEmpty then none
  else
    let exponent := (← exponent? rest) - fraction.length
    some (decimal (Text.toNatDigits (whole ++ fraction)) exponent)

/-- Reads a number with or without a point, or one of the words for infinity and NaN. A number
beyond the doubles is none. -/
def float? (t : Text) : Option Float :=
  if [".nan", ".NaN", ".NAN"].any (·.toList == t) then some (0.0 / 0.0)
  else if ["-.inf", "-.Inf", "-.INF"].any (·.toList == t) then some (-1.0 / 0.0)
  else if [".inf", ".Inf", ".INF"].any (·.toList == dropPlus t) then some (1.0 / 0.0)
  else
    let number := match t with
      | '-' :: r => (magnitude? r).map fun x => -x
      | _ => magnitude? (dropPlus t)
    number.filter (·.isFinite)

/-- What a plain scalar stands for. -/
inductive Sense where
  | null
  | bool (b : Bool)
  | integer (n : Int)
  | float (x : Float)
  | string

/-- What a plain scalar stands for. The first that fits counts: null, a truth value, an integer, a
float, a string. -/
def sense (t : Text) : Sense :=
  if t.isEmpty || isNullWord t then .null
  else match bool? t, integer? t with
    | some b, _ => .bool b
    | none, some n => .integer n
    | none, none =>
      if isZeroPadded t then .string
      else match float? t with
        | some x => .float x
        | none => .string

/-- Whether a string needs quotes so as not to be read as something else. -/
def isAmbiguous (t : Text) : Bool :=
  isZeroPadded t ||
    match sense t with
    | .string => false
    | _ => true

end Plain

end YamlEdit
