import GuardedArchive.Limits
import GuardedArchive.Text.Utf8
import GuardedArchive.Zip.Layout

/-!
# Zip/Directory — the scan of the central directory

`locate` finds the directory through the last end record, or through the wide one where a field of
the end record has all its bits set; the directory is what stands right before that record.  `scan`
counts its records, and refuses more than the limits admit and a raw name that comes twice.
-/

namespace GuardedArchive.Zip

/-- Where an archive is read from: on a disk only offsets up to `Bytes.maxOffset` can be looked
for. -/
inductive Medium
  | memory
  | disk
deriving DecidableEq, Repr

/-- Looks for an offset. -/
def Medium.seek (medium : Medium) (offset : Nat) : Except ArchiveError Unit :=
  match medium with
  | .memory => .ok ()
  | .disk => if Bytes.maxOffset < offset then .error (.system .invalidArgument) else .ok ()

/-- Where the central directory stands. -/
structure Extent where
  start : Nat
  size : Nat
deriving DecidableEq, Repr

/-- The longest comment of an archive. -/
def maxCommentLength : Nat := 65535

/-- The last position from `position` on, of those below `bound`, where `mark` stands in the octets
`bs` that begin there; `found` if there is none. -/
def lastMark (mark : Nat) (bound : Nat) : Nat → Bytes → Option Nat → Option Nat
  | _, [], found => found
  | position, b :: bs, found =>
    lastMark mark bound (position + 1) bs
      (if position < bound ∧ startsWith mark (b :: bs) then some position else found)

/-- The directory of `size` octets that ends at `position`. -/
def Extent.before (position size : Nat) : Except ArchiveError Extent :=
  if position < size then .error (.invalidArchive .sizeExceedsPosition)
  else .ok ⟨position - size, size⟩

/-- The directory that the wide end record bounds, for an end record at `position`. -/
def locateWide (medium : Medium) (archive : Bytes) (position : Nat) :
    Except ArchiveError Extent := do
  if position < locatorLength then throw (.invalidArchive .locatorMissing)
  let locator := Bytes.slice archive (position - locatorLength) locatorLength
  if !startsWith locatorMark locator then throw (.invalidArchive .locatorMissing)
  let offset := (Locator.ofBytes locator).offset
  medium.seek offset
  let record := Bytes.slice archive offset wideLength
  if record.length < wideLength then throw (.io .unexpectedEnd)
  if !startsWith wideMark record then throw (.invalidArchive .wideRecordMissing)
  Extent.before offset (WideRecord.ofBytes record).size

/-- **Finds the central directory.** -/
def locate (medium : Medium) (archive : Bytes) : Except ArchiveError Extent := do
  let length := archive.length
  if length < endLength then throw (.invalidArchive .tooShort)
  let start := length - (endLength + maxCommentLength)
  match lastMark endMark (length - endLength + 1) start (archive.drop start) none with
  | none => throw (.invalidArchive .endRecordMissing)
  | some position =>
    let record := EndRecord.ofBytes (Bytes.slice archive position endLength)
    if record.entries ≠ 0xffff ∧ record.size ≠ 0xffffffff ∧ record.offset ≠ 0xffffffff then
      Extent.before position record.size
    else locateWide medium archive position

/-- Counts the records at the front of `directory` on top of `count`, where the names in `seen` came
before; at most `fuel` of them. -/
def scanFrom (limits : Limits) :
    (fuel : Nat) → (directory : Bytes) → (count : Nat) → (seen : List Bytes) →
      Except ArchiveError Nat
  | 0, _, count, _ => .ok count
  | fuel + 1, directory, count, seen =>
    match DirectoryRecord.next directory with
    | .none => .ok count
    | .cut => do
      limits.checkEntryCount (count + 1)
      throw (.invalidArchive .directoryTruncated)
    | .record r rest => do
      limits.checkEntryCount (count + 1)
      if limits.maxEntryNameLength < r.name.length then
        scanFrom limits fuel rest (count + 1) seen
      else if seen.contains r.name then
        throw (.violation (.duplicateEntry (Utf8.decodeLossy r.name)))
      else scanFrom limits fuel rest (count + 1) (r.name :: seen)

/-- The octets of the directory. -/
def Extent.octets (extent : Extent) (archive : Bytes) : Bytes :=
  Bytes.slice archive extent.start extent.size

/-- **Counts the records of the central directory.**  Each takes octets, so there are no more of
them than octets. -/
def scan (limits : Limits) (medium : Medium) (archive : Bytes) : Except ArchiveError Nat := do
  let extent ← locate medium archive
  medium.seek extent.start
  let directory := extent.octets archive
  scanFrom limits directory.length directory 0 []

end GuardedArchive.Zip
