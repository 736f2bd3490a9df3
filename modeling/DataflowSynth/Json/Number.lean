/-
Numbers as JSON writes them.

A number without a point and an exponent is an integer and is kept exactly.  Any other number
is kept as its digits and a power of ten.  Nothing here computes with such a number; the one
question asked of it is whether a double can hold it, because a document with a number that no
double can hold is refused.
-/

namespace DataflowSynth

/-- A JSON number. -/
inductive Number where
  /-- `n`, or `-n` if negative; `-0` is negative with `n = 0`. -/
  | integer (negative : Bool) (n : Nat)
  /-- The digits as a whole number, times ten to the power of `scale`. -/
  | decimal (negative : Bool) (digits : List Nat) (scale : Int)
  deriving DecidableEq

namespace Number

def ofNat (n : Nat) : Number := .integer false n

def ofInt (i : Int) : Number := .integer (i < 0) i.natAbs

/-- The value as a natural number of 32 bits. -/
def toUInt32? : Number → Option UInt32
  | .integer false n => if n < UInt32.size then some (UInt32.ofNat n) else none
  | _ => none

/-- The value as an integer of 64 bits.  `-0` counts as a fraction and has none. -/
def toInt64? : Number → Option Int64
  | .integer false n => if n < UInt64.size / 2 then some (Int64.ofInt n) else none
  | .integer true n => if 0 < n ∧ n ≤ UInt64.size / 2 then some (Int64.ofInt (-n)) else none
  | .decimal .. => none

/-- The value as an index: a natural number of 64 bits. -/
def toIndex? : Number → Option Nat
  | .integer false n => if n < UInt64.size then some n else none
  | _ => none

/-! ### What a double can hold -/

/-- The leading digits that together fit in 64 bits, and how many digits are left over. -/
def leading : (acc : Nat) → List Nat → Nat × Nat
  | acc, [] => (acc, 0)
  | acc, d :: ds =>
    if acc * 10 + d < UInt64.size then leading (acc * 10 + d) ds else (acc, ds.length + 1)

/-- The nearest number with 53 significant bits; of two, the one whose last bit is zero. -/
def toDouble (n : Nat) : Nat :=
  let excess := n.log2 + 1 - 53
  let unit := Nat.pow 2 excess
  let q := n / unit
  let r := n % unit
  if 2 * r < unit ∨ (2 * r = unit ∧ q % 2 = 0) then q * unit else (q + 1) * unit

/-- Half a unit beyond the largest double; from here on a product rounds to infinity. -/
def overflow : Nat := Nat.pow 2 1024 - Nat.pow 2 970

/-- Whether `n` times ten to the power of `scale` stays below infinity when both factors are
rounded to doubles first.  No double is used for a power of ten beyond 308. -/
def fitsDouble (n : Nat) (scale : Int) : Bool :=
  n = 0 ∨ scale < 0 ∨ (scale ≤ 308 ∧ toDouble n * toDouble (Nat.pow 10 scale.toNat) < overflow)

def inRange : Number → Bool
  | .integer _ n =>
    n < UInt64.size ||
      let (m, rest) := leading 0 ((Nat.toDigits 10 n).map fun c => c.toNat - '0'.toNat)
      fitsDouble m rest
  | .decimal _ digits scale =>
    let (m, rest) := leading 0 digits
    fitsDouble m (scale + rest)

/-- The number as JSON writes it. -/
def text : Number → String
  | .integer negative n => (if negative then "-" else "") ++ Nat.repr n
  | .decimal negative digits scale =>
    (if negative then "-" else "") ++ String.join (digits.map Nat.repr) ++ "e" ++
      (if scale < 0 then "-" else "") ++ Nat.repr scale.natAbs

end Number

end DataflowSynth
