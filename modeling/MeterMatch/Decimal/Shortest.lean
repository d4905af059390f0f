/-! # Shortest decimals of binary64 values

A finite positive binary64 value is `m * 2 ^ e`. Every real strictly between the midpoints to
its two neighbours rounds to it, and so do the midpoints themselves when `m` is even (ties go
to the even mantissa). `shortest` finds the decimal `d * 10 ^ k` with the fewest significant
digits inside that interval, and of two such the nearer to the value.

The search is exact `Nat` arithmetic: for `n = 1, 2, …, 17` digits it looks at the grid of
multiples of `10 ^ (E - n + 1)`, where `10 ^ E ≤ v < 10 ^ (E + 1)`. If any point of that grid
lies in the interval, one of the value's two neighbours on the grid does, because the interval
is convex and holds the value; so testing the two neighbours decides the grid. Seventeen digits
always suffice.
-/

namespace MeterMatch.Decimal

/-- A decimal `digits * 10 ^ exp`. -/
structure Sci where
  digits : Nat
  exp : Int
  deriving DecidableEq, Inhabited

/-- A positive finite binary64 value `mantissa * 2 ^ exponent`. `narrowBelow` says that the
gap to the next smaller value is half the gap to the next larger one (a power of two above the
least normal binade). -/
structure Binary where
  mantissa : Nat
  exponent : Int
  narrowBelow : Bool
  deriving DecidableEq, Inhabited

/-- The fields of an IEEE binary64 bit pattern with a zero sign, or `none` for zero, infinity
and NaN (which have no shortest decimal). -/
def Binary.ofBits (bits : UInt64) : Option Binary :=
  let biased := ((bits >>> 52) &&& 0x7FF).toNat
  let fraction := (bits &&& 0xFFFFFFFFFFFFF).toNat
  if biased == 0x7FF then none
  else if biased == 0 then
    if fraction == 0 then none else some ⟨fraction, -1074, false⟩
  else some ⟨fraction + Nat.pow 2 52, (biased : Int) - 1075, fraction == 0 && biased > 1⟩

/-- Exact comparison of `a * 10 ^ i` with `b * 2 ^ j`. -/
def compareScaled (a : Nat) (i : Int) (b : Nat) (j : Int) : Ordering :=
  compare (a * Nat.pow 10 i.toNat * Nat.pow 2 (-j).toNat)
    (b * Nat.pow 2 j.toNat * Nat.pow 10 (-i).toNat)

/-- The number of decimal digits of a positive number. -/
def digitCount (n : Nat) : Nat := (Nat.toDigits 10 n).length

/-- The largest `E` with `10 ^ E ≤ v * 2 ^ b`, for positive `v`. -/
def floorLog10 (v : Nat) (b : Int) : Int :=
  let whole := v * Nat.pow 2 b.toNat / Nat.pow 2 (-b).toNat
  if whole > 0 then (digitCount whole : Int) - 1
  else
    -- below one: the least `j` with `10 ^ j ≥ ⌈2 ^ -b / v⌉`
    let ceil := (Nat.pow 2 (-b).toNat + v - 1) / v
    Int.neg (digitCount (ceil - 1))

/-- Drops trailing zero digits into the exponent. -/
def Sci.normalize (s : Sci) : Sci :=
  go s.digits.log2 s
where
  go : Nat → Sci → Sci
    | 0, s => s
    | fuel + 1, s =>
      if s.digits != 0 && s.digits % 10 == 0 then go fuel ⟨s.digits / 10, s.exp + 1⟩ else s

/-- The decimal of fewest digits that reads back as the value, nearest of those. -/
def shortest (x : Binary) : Sci :=
  let m := x.mantissa
  let b := x.exponent - 2
  let value := 4 * m
  let lower := if x.narrowBelow then 4 * m - 1 else 4 * m - 2
  let upper := 4 * m + 2
  let inside (d : Nat) (k : Int) : Bool :=
    let lo := compareScaled d k lower b
    let hi := compareScaled d k upper b
    if m % 2 == 0 then lo != .lt && hi != .gt else lo == .gt && hi == .lt
  let top := floorLog10 value b
  let attempt (n : Nat) : Option Sci :=
    let k := top - n + 1
    let num := value * Nat.pow 2 b.toNat * Nat.pow 10 (-k).toNat
    let den := Nat.pow 2 (-b).toNat * Nat.pow 10 k.toNat
    let d := num / den
    let rest := num % den
    match inside d k, inside (d + 1) k with
    | true, true =>
      if 2 * rest < den then some ⟨d, k⟩
      else if 2 * rest > den then some ⟨d + 1, k⟩
      else if d % 2 == 0 then some ⟨d, k⟩ else some ⟨d + 1, k⟩
    | true, false => some ⟨d, k⟩
    | false, true => some ⟨d + 1, k⟩
    | false, false => none
  let found := (List.range 17).findSome? fun i => attempt (i + 1)
  (found.getD ⟨value * Nat.pow 2 b.toNat / Nat.pow 2 (-b).toNat, 0⟩).normalize

end MeterMatch.Decimal
