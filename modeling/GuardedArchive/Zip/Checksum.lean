import GuardedArchive.Bytes

/-!
# Zip/Checksum — the CRC-32 of a content

The remainder is shifted eight times for each octet; the eight shifts of an octet stand in a table.
-/

namespace GuardedArchive.Checksum

/-- One shift of the remainder, by the reflected polynomial. -/
def shift (c : UInt32) : UInt32 := if c &&& 1 = 1 then (c >>> 1) ^^^ 0xedb88320 else c >>> 1

/-- A number of shifts of the remainder. -/
def shifts : Nat → UInt32 → UInt32
  | 0, c => c
  | n + 1, c => shifts n (shift c)

/-- Eight shifts of each octet. -/
def table : Array UInt32 := (Array.range 256).map fun i => shifts 8 (UInt32.ofNat i)

/-- The remainder after one more octet. -/
def step (c : UInt32) (b : UInt8) : UInt32 :=
  table.getD ((c ^^^ b.toUInt32) &&& 0xff).toNat 0 ^^^ (c >>> 8)

/-- The CRC-32 of octets. -/
def crc32 (bs : Bytes) : UInt32 := bs.foldl step 0xffffffff ^^^ 0xffffffff

end GuardedArchive.Checksum
