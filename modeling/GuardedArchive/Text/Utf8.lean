import GuardedArchive.Bytes

/-!
# Text/Utf8 — reading octets as UTF-8

`Utf8.units` cuts octets into characters and ill-formed pieces; an ill-formed piece is the longest
start of a well-formed sequence that stands there, or a single octet if none starts there.
`Utf8.decode?` reads octets that hold no ill-formed piece, and `Utf8.decodeLossy` shows each such
piece as U+FFFD.
-/

namespace GuardedArchive.Utf8

/-- For a first octet of a longer sequence: how many octets follow, and the range of the first of
those, which keeps out overlong forms, surrogates and numbers above U+10FFFF. -/
def lead (b : UInt8) : Option (Nat × UInt8 × UInt8) :=
  if 0xc2 ≤ b && b ≤ 0xdf then some (1, 0x80, 0xbf)
  else if b == 0xe0 then some (2, 0xa0, 0xbf)
  else if b == 0xed then some (2, 0x80, 0x9f)
  else if 0xe1 ≤ b && b ≤ 0xef then some (2, 0x80, 0xbf)
  else if b == 0xf0 then some (3, 0x90, 0xbf)
  else if 0xf1 ≤ b && b ≤ 0xf3 then some (3, 0x80, 0xbf)
  else if b == 0xf4 then some (3, 0x80, 0x8f)
  else none

/-- An octet that continues a sequence. -/
def isContinuation (b : UInt8) : Bool := 0x80 ≤ b && b ≤ 0xbf

/-- The six bits that a continuation octet carries. -/
def payload (b : UInt8) : Nat := b.toNat % 64

/-- The characters and ill-formed pieces of `bs`, put before what `read` holds in reverse. -/
def unitsOnto (read : List (Option Char)) : Bytes → List (Option Char)
  | [] => read.reverse
  | b₀ :: r₀ =>
    if b₀ < 0x80 then unitsOnto (some (Char.ofNat b₀.toNat) :: read) r₀
    else match lead b₀ with
    | none => unitsOnto (none :: read) r₀
    | some (more, low, high) =>
      match r₀ with
      | [] => (none :: read).reverse
      | b₁ :: r₁ =>
        if !(low ≤ b₁ && b₁ ≤ high) then unitsOnto (none :: read) (b₁ :: r₁)
        else if more = 1 then
          unitsOnto (some (Char.ofNat (b₀.toNat % 32 * 64 + payload b₁)) :: read) r₁
        else match r₁ with
        | [] => (none :: read).reverse
        | b₂ :: r₂ =>
          if !isContinuation b₂ then unitsOnto (none :: read) (b₂ :: r₂)
          else if more = 2 then
            unitsOnto
              (some (Char.ofNat ((b₀.toNat % 16 * 64 + payload b₁) * 64 + payload b₂)) :: read) r₂
          else match r₂ with
          | [] => (none :: read).reverse
          | b₃ :: r₃ =>
            if !isContinuation b₃ then unitsOnto (none :: read) (b₃ :: r₃)
            else
              unitsOnto
                (some (Char.ofNat
                  (((b₀.toNat % 8 * 64 + payload b₁) * 64 + payload b₂) * 64 + payload b₃)) :: read)
                r₃

/-- The characters of `bs` in order, with `none` for each ill-formed piece. -/
def units (bs : Bytes) : List (Option Char) := unitsOnto [] bs

/-- The text of well-formed octets. -/
def decode? (bs : Bytes) : Option String :=
  let us := units bs
  if us.all Option.isSome then some (String.ofList (us.filterMap id)) else none

/-- The text of any octets, with U+FFFD for each ill-formed piece. -/
def decodeLossy (bs : Bytes) : String :=
  String.ofList ((units bs).map (·.getD '\uFFFD'))

end GuardedArchive.Utf8
