/-!
# Bytes — octet strings and their little-endian numbers

File contents, archives and file names are lists of octets.  A number of a fixed width is written
low octet first by `Bytes.ofNat` and read by `Bytes.toNat`; `toNat_ofNat` says that what fits the
width is read back.
-/

namespace GuardedArchive

/-- An octet string: a file's content, an archive, or a file name as the disk holds it. -/
abbrev Bytes := List UInt8

namespace Bytes

/-- The number whose octets are given low octet first. -/
def toNat : Bytes → Nat
  | [] => 0
  | b :: bs => b.toNat + 256 * toNat bs

/-- The low `width` octets of a number, low octet first. -/
def ofNat : Nat → Nat → Bytes
  | 0, _ => []
  | width + 1, n => UInt8.ofNat n :: ofNat width (n / 256)

/-- The largest number that eight octets hold; no count of octets or entries goes beyond it. -/
def maxCount : Nat := 0xffffffffffffffff

/-- The largest offset that can be looked for in a file on a disk. -/
def maxOffset : Nat := 0x7fffffffffffffff

/-- The octets from `offset` on, at most `length` of them. -/
def slice (bs : Bytes) (offset length : Nat) : Bytes := (bs.drop offset).take length

/-- The number in the field of `width` octets at `offset`. -/
def field (bs : Bytes) (offset width : Nat) : Nat := toNat (slice bs offset width)

/-- The bits of an octet, the high one first. -/
def bitsOf (b : UInt8) : List Bool := (List.range 8).map fun i => b.toNat.testBit (7 - i)

/-- How many numbers a width holds. -/
def capacity : Nat → Nat
  | 0 => 1
  | width + 1 => 256 * capacity width

@[simp] theorem length_ofNat : ∀ width n : Nat, (ofNat width n).length = width
  | 0, _ => rfl
  | width + 1, n => by simp [ofNat, length_ofNat width]

/-- **A number that fits its width is read back.** -/
theorem toNat_ofNat : ∀ width n : Nat, n < capacity width → toNat (ofNat width n) = n
  | 0, n, h => by rw [capacity] at h; simp [ofNat, toNat]; omega
  | width + 1, n, h => by
    have hq : n / 256 < capacity width := by rw [capacity] at h; omega
    rw [ofNat, toNat, toNat_ofNat width _ hq, UInt8.toNat_ofNat']
    omega

/-- The UTF-8 octets of a text. -/
def ofString (s : String) : Bytes := s.toUTF8.data.toList

end Bytes

end GuardedArchive
