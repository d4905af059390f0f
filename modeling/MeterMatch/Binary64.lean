/-! # Binary64 arithmetic

IEEE 754 binary64 numbers and the operations that token buckets use, computed exactly: a
finite number is `±m · 2 ^ -1074` for a magnitude `m` that the format holds, and an operation
rounds its exact result to the nearest such number, a tie going to the even significand; a
result beyond the largest finite number is an infinity. Zeros keep their signs as the standard
says: a sum of two zeros of one sign has that sign, every other exact zero sum is `+0`, and a
quotient takes the sign of its operands' product.

`Binary64.toBits` gives the standard's bit pattern of a number.
-/

namespace MeterMatch

/-- A binary64 number: a NaN, an infinity, or `±m · 2 ^ -1074`. -/
inductive Binary64 where
  | nan
  | inf (neg : Bool)
  | finite (neg : Bool) (m : Nat)
  deriving DecidableEq, Inhabited

namespace Binary64

/-- The number nearest to `±(n / d) · 2 ^ -1074` (for `d > 0`), a tie going to the even
significand, or an infinity beyond the largest finite number. The significand counts units of
`2 ^ s`, for the least `s` that leaves it at most 53 bits; subnormal numbers have `s = 0`. -/
def round (neg : Bool) (n d : Nat) : Binary64 :=
  let s := Nat.log2 (n / d) - 52
  let q := n / (d * Nat.pow 2 s)
  let r := n % (d * Nat.pow 2 s)
  let m := if d * Nat.pow 2 s < 2 * r ∨ (2 * r = d * Nat.pow 2 s ∧ q % 2 = 1) then q + 1 else q
  -- a significand rounded up to 2 ^ 53 is the least of the next binade
  if m = Nat.pow 2 53 then
    if 2045 ≤ s then inf neg else finite neg (Nat.pow 2 53 * Nat.pow 2 s)
  else if 2046 ≤ s then inf neg
  else finite neg (m * Nat.pow 2 s)

/-- The number nearest to a natural number. -/
def ofNat (n : Nat) : Binary64 := round false (n * Nat.pow 2 1074) 1

/-- The number with the other sign. -/
def neg : Binary64 → Binary64
  | nan => nan
  | inf s => inf (!s)
  | finite s m => finite (!s) m

/-- The rounded sum. -/
def add : Binary64 → Binary64 → Binary64
  | nan, _ | _, nan => nan
  | inf a, inf b => if a == b then inf a else nan
  | inf a, finite .. => inf a
  | finite .., inf b => inf b
  | finite a m, finite b n =>
    if a == b then
      if m + n = 0 then finite a 0 else round a (m + n) 1
    else if n < m then round a (m - n) 1
    else if m < n then round b (n - m) 1
    else finite false 0

/-- The rounded difference. -/
def sub (x y : Binary64) : Binary64 := add x y.neg

/-- The rounded quotient. -/
def div : Binary64 → Binary64 → Binary64
  | nan, _ | _, nan => nan
  | inf _, inf _ => nan
  | inf a, finite b _ => inf (a != b)
  | finite a _, inf b => finite (a != b) 0
  | finite a m, finite b n =>
    if n = 0 then (if m = 0 then nan else inf (a != b))
    else round (a != b) (m * Nat.pow 2 1074) n

/-- A finite number in units of `2 ^ -1074`, with its sign. -/
def signed (neg : Bool) (m : Nat) : Int := if neg then -(m : Int) else m

/-- `x ≤ y`: false when either is a NaN, and the zeros are equal. -/
def le : Binary64 → Binary64 → Bool
  | nan, _ | _, nan => false
  | inf true, _ | _, inf false => true
  | inf false, _ | _, inf true => false
  | finite a m, finite b n => decide (signed a m ≤ signed b n)

/-- `x < y`: false when either is a NaN, and the zeros are equal. -/
def lt : Binary64 → Binary64 → Bool
  | nan, _ | _, nan => false
  | inf a, inf b => a && !b
  | inf a, finite .. => a
  | finite .., inf b => !b
  | finite a m, finite b n => decide (signed a m < signed b n)

/-- The standard's bit pattern: sign, biased exponent, fraction. -/
def toBits : Binary64 → UInt64
  | nan => 0x7FF8000000000000
  | inf neg => (if neg then 0x8000000000000000 else 0) ||| 0x7FF0000000000000
  | finite neg m =>
    let sign : UInt64 := if neg then 0x8000000000000000 else 0
    if m < Nat.pow 2 52 then sign ||| m.toUInt64
    else
      let s := Nat.log2 m - 52
      sign ||| ((s + 1).toUInt64 <<< 52) ||| (m / Nat.pow 2 s - Nat.pow 2 52).toUInt64

end Binary64

end MeterMatch
