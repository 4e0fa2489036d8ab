import GuardedArchive.Decimal.Binary64

/-!
# Decimal/Text — doubles in decimal

`Binary64.shortest` writes the fewest digits that read back as the same double, the nearest such
digits, and never an exponent.  `Binary64.twoPlaces` rounds the exact value to two decimals, a half
to the even neighbour.
-/

namespace GuardedArchive

namespace Decimal

/-- The power of ten. -/
def tenTo (n : Nat) : Nat := Nat.pow 10 n

/-- The digits of a natural number with a point put before the last `places` of them. -/
def withPoint (digits places : Nat) : String :=
  let text := Nat.toDigits 10 digits
  let padded := List.replicate (places + 1 - text.length) '0' ++ text
  String.ofList
    (padded.take (padded.length - places) ++ '.' :: padded.drop (padded.length - places))

/-- `digits * 10 ^ exponent` in positional form. -/
def positional (digits : Nat) (exponent : Int) : String :=
  if 0 ≤ exponent then toString (digits * tenTo exponent.toNat)
  else withPoint digits (-exponent).toNat

/-- The exponent of the first digit of `num / den`, for a quotient above `10 ^ (-400)`. -/
def firstPlace (num den : Nat) : Int :=
  if den ≤ num then ((Nat.toDigits 10 (num / den)).length : Int) - 1
  else -(((List.range 400).find? fun j => den ≤ num * tenTo j).getD 400 : Int)

/-- `num / den` in units of `10 ^ place`, as a quotient of naturals. -/
def inUnits (num den : Nat) (place : Int) : Nat × Nat :=
  if 0 ≤ place then (num, den * tenTo place.toNat) else (num * tenTo (-place).toNat, den)

end Decimal

namespace Binary64

open Decimal

/-- `significand * 2 ^ exponent` as a quotient of naturals. -/
def fraction (significand : Nat) (exponent : Int) : Nat × Nat :=
  if 0 ≤ exponent then (significand <<< exponent.toNat, 1)
  else (significand, 1 <<< (-exponent).toNat)

/-- The numbers that round to `significand * 2 ^ exponent`, as `4 * number * 2 ^ (-exponent)`: the
two ends, which belong to the set when the significand is even. -/
def roundingEnds (significand : Nat) (exponent : Int) : Nat × Nat :=
  let low := if significand = exponentWeight ∧ -1074 < exponent then 1 else 2
  (4 * significand - low, 4 * significand + 2)

/-- The decimal `digits * 10 ^ place` rounds to `significand * 2 ^ exponent`. -/
def readsBack (significand : Nat) (exponent : Int) (digits : Nat) (place : Int) : Bool :=
  let (low, high) := roundingEnds significand exponent
  let (num, den) := if 0 ≤ place then (digits * tenTo place.toNat, 1)
    else (digits, tenTo (-place).toNat)
  let (num, den) := if 0 ≤ exponent then (4 * num, den <<< exponent.toNat)
    else ((4 * num) <<< (-exponent).toNat, den)
  if significand % 2 = 0 then low * den ≤ num && num ≤ high * den
  else low * den < num && num < high * den

/-- The nearest decimal with last place `place` that reads back; of two equally near, the larger. -/
def atPlace (significand : Nat) (exponent place : Int) : Option (Nat × Int) :=
  let (num, den) := fraction significand exponent
  let (num, den) := inUnits num den place
  let below := num / den
  let candidates := if 2 * (num % den) < den then [below, below + 1] else [below + 1, below]
  (candidates.find? fun d => readsBack significand exponent d place).map fun d => (d, place)

/-- The shortest decimal that reads back, as digits and the place of the last one.  The search
starts one place above the first digit, where a value just below a power of ten finds that
power. -/
def shortestDigits (significand : Nat) (exponent : Int) : Nat × Int :=
  let (num, den) := fraction significand exponent
  let first := firstPlace num den
  ((List.range 19).findSome? fun count : Nat =>
    atPlace significand exponent (first + 1 - count)).getD (0, 0)

/-- The fewest digits that read back, without an exponent. -/
def shortest (x : Binary64) : String :=
  match x.decode with
  | .nan => "NaN"
  | .infinite negative => if negative then "-inf" else "inf"
  | .finite negative significand exponent =>
    let sign := if negative then "-" else ""
    if significand = 0 then sign ++ "0"
    else
      let (digits, place) := shortestDigits significand exponent
      sign ++ positional digits place

/-- The exact value rounded to two decimals. -/
def twoPlaces (x : Binary64) : String :=
  match x.decode with
  | .nan => "NaN"
  | .infinite negative => if negative then "-inf" else "inf"
  | .finite negative significand exponent =>
    let (num, den) := fraction significand exponent
    (if negative then "-" else "") ++ withPoint (roundHalfEven (100 * num) den) 2

end Binary64

end GuardedArchive
