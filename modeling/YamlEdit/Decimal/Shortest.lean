import YamlEdit.Text.Basic

/-!
# Shortest decimals

A finite double stands for `mantissa * 2 ^ exponent`, and every real of an interval around it
rounds to it. `Decimal.shortest` is the decimal with the fewest digits in that interval; of two
with the same number of digits it is the nearer one, and of two equally near ones the even one.
-/

namespace YamlEdit

/-- The number `digits * 10 ^ exponent`. -/
structure Decimal where
  digits : Nat
  exponent : Int
  deriving DecidableEq, Repr

/-- The size of a finite double: `mantissa * 2 ^ exponent`. -/
structure Binary where
  mantissa : Nat
  exponent : Int
  deriving DecidableEq, Repr

namespace Binary

/-- The size of the double with the given bit pattern; `none` for infinities and NaN. -/
def ofBits? (bits : Nat) : Option Binary :=
  let fraction : Nat := bits % Nat.pow 2 52
  let biased : Nat := bits / Nat.pow 2 52 % Nat.pow 2 11
  if biased = 2047 then none
  else if biased = 0 then some ⟨fraction, -1074⟩
  else some ⟨Nat.pow 2 52 + fraction, (biased : Int) - 1075⟩

/-- Whether the gap below is half the gap above: the mantissa is the least one of its exponent. -/
def isNarrowBelow (b : Binary) : Bool := b.mantissa == Nat.pow 2 52 && b.exponent != -1074

end Binary

/-- A positive rational. -/
structure Ratio where
  num : Nat
  den : Nat

namespace Ratio

/-- `n * 2 ^ e`. -/
def ofPow2 (n : Nat) (e : Int) : Ratio :=
  if 0 ≤ e then ⟨n * Nat.pow 2 e.toNat, 1⟩ else ⟨n, Nat.pow 2 (-e).toNat⟩

/-- `n * 10 ^ e`. -/
def ofPow10 (n : Nat) (e : Int) : Ratio :=
  if 0 ≤ e then ⟨n * Nat.pow 10 e.toNat, 1⟩ else ⟨n, Nat.pow 10 (-e).toNat⟩

/-- Compared crosswise, so that no division is needed. -/
def le (a b : Ratio) : Bool := a.num * b.den ≤ b.num * a.den

/-- Compared crosswise, so that no division is needed. -/
def lt (a b : Ratio) : Bool := a.num * b.den < b.num * a.den

/-- The greatest multiple of `10 ^ e` that is not above `a`, as a count. -/
def floorAt (a : Ratio) (e : Int) : Nat :=
  if 0 ≤ e then a.num / (a.den * Nat.pow 10 e.toNat) else a.num * Nat.pow 10 (-e).toNat / a.den

end Ratio

namespace Decimal

/-- The reals that round to a double. -/
structure Interval where
  low : Ratio
  high : Ratio
  closed : Bool

/-- A quarter of the last place of `b` is the unit of the interval's ends. -/
def intervalOf (b : Binary) : Interval where
  low := Ratio.ofPow2 (4 * b.mantissa - if b.isNarrowBelow then 1 else 2) (b.exponent - 2)
  high := Ratio.ofPow2 (4 * b.mantissa + 2) (b.exponent - 2)
  closed := b.mantissa % 2 == 0

/-- The ends belong to a closed interval only. -/
def Interval.contains (i : Interval) (x : Ratio) : Bool :=
  if i.closed then i.low.le x && x.le i.high else i.low.lt x && x.lt i.high

/-- The least `e` with `x < 10 ^ e`, looked for in at most `fuel` steps from `e` upwards. -/
def magnitudeFrom (x : Ratio) : (fuel : Nat) → (e : Int) → Int
  | 0, e => e
  | fuel + 1, e => if x.lt (Ratio.ofPow10 1 e) then e else magnitudeFrom x fuel (e + 1)

/-- The decimal of the grid `10 ^ e` next to `x` that lies in `i`. -/
def onGrid (i : Interval) (x : Ratio) (e : Int) : Option Decimal :=
  let below := x.floorAt e
  let above := below + 1
  let lowOk := i.contains (Ratio.ofPow10 below e) && below != 0
  let highOk := i.contains (Ratio.ofPow10 above e)
  -- twice the value against the sum of the two neighbours
  let middle := Ratio.ofPow10 (below + above) e
  let twice : Ratio := ⟨2 * x.num, x.den⟩
  if lowOk && highOk then
    if twice.lt middle then some ⟨below, e⟩
    else if middle.lt twice then some ⟨above, e⟩
    else some ⟨if below % 2 == 0 then below else above, e⟩
  else if lowOk then some ⟨below, e⟩
  else if highOk then some ⟨above, e⟩
  else none

/-- Tries grids with more and more digits. -/
def shortestFrom (i : Interval) (x : Ratio) (magnitude : Int) :
    (fuel : Nat) → (digits : Nat) → Decimal
  | 0, digits => ⟨x.floorAt (magnitude - digits), magnitude - digits⟩
  | fuel + 1, digits =>
    match onGrid i x (magnitude - digits) with
    | some d => d
    | none => shortestFrom i x magnitude fuel (digits + 1)

/-- Moves the zeros at the end of the digits into the exponent. -/
def stripZeros : (fuel : Nat) → Decimal → Decimal
  | 0, d => d
  | fuel + 1, d =>
    if d.digits != 0 && d.digits % 10 == 0 then stripZeros fuel ⟨d.digits / 10, d.exponent + 1⟩
    else d

/-- The shortest decimal that reads back as `b`, which is not zero. -/
def shortest (b : Binary) : Decimal :=
  let x := Ratio.ofPow2 b.mantissa b.exponent
  -- `2 ^ 10 > 10 ^ 3` bounds the first guess from below
  let guess := ((b.mantissa.log2 : Int) + b.exponent) * 3 / 10 - 1
  let start := if 0 ≤ guess then guess else ((b.mantissa.log2 : Int) + b.exponent) * 4 / 13 - 2
  stripZeros 20 (shortestFrom (intervalOf b) x (magnitudeFrom x 400 start) 17 1)

/-! ## Written forms -/

/-- The decisions of a number format that its readers see. -/
structure Format where
  /-- Whether a positive exponent carries a sign. -/
  plusInExponent : Bool
  deriving DecidableEq, Repr

/-- A number below `10 ^ 16` and not below `10 ^ -5` is written positionally, any other one with
an exponent after its first digit. A whole number ends in `.0`. -/
def render (format : Format) (d : Decimal) : Text :=
  let digits := Text.ofNat d.digits
  let count : Int := digits.length
  let point := count + d.exponent
  if 0 ≤ d.exponent ∧ point ≤ 16 then
    digits ++ List.replicate d.exponent.toNat '0' ++ ".0".toList
  else if 0 < point ∧ point ≤ 16 then
    digits.take point.toNat ++ '.' :: digits.drop point.toNat
  else if -5 < point ∧ point ≤ 0 then
    "0.".toList ++ List.replicate (-point).toNat '0' ++ digits
  else
    let scale := point - 1
    let sign := if 0 ≤ scale ∧ format.plusInExponent then ['+'] else []
    let fraction := digits.drop 1
    digits.take 1 ++ (if fraction.isEmpty then [] else '.' :: fraction) ++ 'e' :: sign ++
      Text.ofInt scale

/-- The written form of a finite double; `none` for infinities and NaN. -/
def renderBits? (format : Format) (bits : UInt64) : Option Text :=
  let n := bits.toNat
  (Binary.ofBits? n).map fun b =>
    let size := if b.mantissa = 0 then "0.0".toList else render format (shortest b)
    if Nat.pow 2 63 ≤ n then '-' :: size else size

end Decimal

end YamlEdit
