/-!
# Decimal/Binary64 — the double-precision numbers, exactly

A double is its 64 bits.  `decode` gives its exact value as a sign and `significand * 2 ^ exponent`,
`ofRatio` the double nearest to a quotient of naturals, and `lt` the order of the standard, in which
NaN is below and above nothing and the two zeros are equal.  All arithmetic is on naturals.
-/

namespace GuardedArchive

/-- `num / den` rounded to a natural number, a half to the even neighbour. -/
def roundHalfEven (num den : Nat) : Nat :=
  let q := num / den
  let r := num % den
  if 2 * r < den then q else if den < 2 * r then q + 1 else q + q % 2

/-- A double-precision number, as its 64 bits. -/
structure Binary64 where
  bits : UInt64
deriving DecidableEq, Repr

namespace Binary64

/-- What a double stands for; a finite one is `significand * 2 ^ exponent` with a sign. -/
inductive Value
  | nan
  | infinite (negative : Bool)
  | finite (negative : Bool) (significand : Nat) (exponent : Int)
deriving DecidableEq, Repr

/-- The weight of the sign bit, `2 ^ 63`. -/
def signWeight : Nat := 0x8000000000000000

/-- The weight of the lowest bit of the exponent, `2 ^ 52`; the bits below are those of the
significand. -/
def exponentWeight : Nat := 0x10000000000000

/-- The sign bit. -/
def isNegative (x : Binary64) : Bool := signWeight ≤ x.bits.toNat

/-- The bits below the sign; of two doubles of one sign the larger in size has more of them. -/
def magnitude (x : Binary64) : Nat := x.bits.toNat % signWeight

/-- The magnitude of the infinities; a larger one is a NaN. -/
def infinityMagnitude : Nat := 2047 * exponentWeight

def isNaN (x : Binary64) : Bool := infinityMagnitude < x.magnitude

def isFinite (x : Binary64) : Bool := x.magnitude < infinityMagnitude

/-- What a double stands for. -/
def decode (x : Binary64) : Value :=
  let biased : Nat := x.magnitude / exponentWeight
  let fraction : Nat := x.magnitude % exponentWeight
  if biased = 2047 then
    if fraction = 0 then .infinite x.isNegative else .nan
  else if biased = 0 then .finite x.isNegative fraction (-1074)
  else .finite x.isNegative (exponentWeight + fraction) ((biased : Int) - 1075)

/-- A number that orders the doubles other than NaN. -/
def rank (x : Binary64) : Int := if x.isNegative then -x.magnitude else x.magnitude

/-- The order of the standard. -/
def lt (x y : Binary64) : Bool := !x.isNaN && !y.isNaN && x.rank < y.rank

/-- The exponent of the last binary place of the double next to `num / den`. -/
def placeOf (num den : Nat) : Int :=
  let guess : Int := (num.log2 : Int) - den.log2 - 52
  let fits := if 0 ≤ guess then exponentWeight * den <<< guess.toNat ≤ num
    else exponentWeight * den ≤ num <<< (-guess).toNat
  max (-1074) (if fits then guess else guess - 1)

/-- The nonnegative double nearest to `num / den`, a half to the even neighbour.  The encoding of a
significand that rounds up to the next power of two is that of the next exponent. -/
def ofRatio (num den : Nat) : Binary64 :=
  if num = 0 then ⟨0⟩
  else
    let place := placeOf num den
    let significand :=
      if 0 ≤ place then roundHalfEven num (den <<< place.toNat)
      else roundHalfEven (num <<< (-place).toNat) den
    ⟨UInt64.ofNat (min infinityMagnitude ((place + 1074).toNat * exponentWeight + significand))⟩

/-- The natural number that the double nearest to `n` stands for. -/
def nearestNat (n : Nat) : Nat :=
  if n < 2 * exponentWeight then n
  else
    let place := n.log2 - 52
    roundHalfEven n (1 <<< place) <<< place

/-- The double that dividing `a` by `b` as doubles gives, for naturals below `2 ^ 1023`. -/
def quotient (a b : Nat) : Binary64 := ofRatio (nearestNat a) (nearestNat b)

end Binary64

end GuardedArchive
