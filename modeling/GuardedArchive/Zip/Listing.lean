import GuardedArchive.Zip.ExtraField

/-!
# Zip/Listing — the entries of an archive as its end records tell them

`readDirectory` tries the end records of an archive from the last to the first, each with its own
idea of where the directory stands, and keeps the entries of the first that can be read; of entries
with one name only the last is kept.
-/

namespace GuardedArchive.Zip

/-- Where an end record says the directory is: its disks, its start, how many records it has on this
disk and in all, and by how many octets the archive starts late. -/
structure DirectoryClaim where
  disk : Nat
  directoryDisk : Nat
  start : Nat
  countHere : Nat
  count : Nat
  shift : Nat
deriving DecidableEq, Repr

/-- The positions of a mark in octets that begin at `position`, put before what `found` holds. -/
def marksOnto (mark : Nat) : Nat → Bytes → List Nat → List Nat
  | _, [], found => found
  | position, b :: bs, found =>
    marksOnto mark (position + 1) bs
      (if startsWith mark (b :: bs) then position :: found else found)

/-- The positions of a mark from `first` on and below `bound`, in falling order. -/
def marksDown (mark : Nat) (archive : Bytes) (first bound : Nat) : List Nat :=
  marksOnto mark first (Bytes.slice archive first (bound - first)) []

/-- The claim of a wide record at `position`, which the locator at `locatorPosition` leads to. -/
def wideClaimAt (archive : Bytes) (locator : Locator) (locatorPosition position : Nat) :
    Except ArchiveError DirectoryClaim := do
  let bs := Bytes.slice archive position (locatorPosition - position)
  let record := WideRecord.ofBytes bs
  if bs.length < wideLength ∨ WideRecord.announcedLength bs < wideLength then
    throw (malformed "zip64 end record is too short")
  if WideRecord.announcedLength bs ≠ bs.length then
    throw (malformed "zip64 end record has another length")
  if record.directoryDisk ≠ locator.directoryDisk then
    throw (malformed "zip64 end record and locator differ")
  if position < directoryLength * record.entries + record.offset then
    throw (malformed "zip64 end record has too many files")
  let shift := position - locator.offset
  return ⟨record.disk, record.directoryDisk, record.offset + shift, record.entriesHere,
    record.entries, shift⟩

/-- The first answer among the items, or else the first error, or else `e`. -/
def firstOk {α β : Type} (e : ArchiveError) (f : α → Except ArchiveError β) :
    List α → Except ArchiveError β
  | [] => .error e
  | a :: rest =>
    match f a with
    | .ok b => .ok b
    | .error e' => firstOk e' f rest

/-- The claim of the wide record that a locator leads to. -/
def wideClaim (archive : Bytes) (locatorPosition : Nat) : Except ArchiveError DirectoryClaim := do
  let locator := Locator.ofBytes (Bytes.slice archive locatorPosition locatorLength)
  if locatorPosition ≤ locator.offset then throw (malformed "zip64 locator points behind itself")
  if 1 < locator.disks then throw (malformed "archive is on more than one disk")
  firstOk (malformed "zip64 end record is missing")
    (wideClaimAt archive locator locatorPosition)
    (marksDown wideMark archive locator.offset locatorPosition).reverse

/-- The claim of an end record without a wide one. -/
def narrowClaim (archive : Bytes) (record : EndRecord) (position : Nat) :
    Except ArchiveError DirectoryClaim :=
  if record.entries = 0 then
    let shift := position - record.offset
    .ok ⟨record.disk, record.directoryDisk, record.offset + shift, record.entriesHere,
      record.entriesHere, shift⟩
  else if position ≤ record.offset then .error (malformed "directory is behind the end record")
  else match (marksDown directoryMark archive record.offset position).getLast? with
    | none => .error (malformed "directory is missing")
    | some start =>
      .ok ⟨record.disk, record.directoryDisk, start, record.entriesHere, record.entriesHere,
        start - record.offset⟩

/-- The claim of the end record at a position. -/
def claimAt (archive : Bytes) (position : Nat) : Except ArchiveError DirectoryClaim :=
  let bs := archive.drop position
  let record := EndRecord.ofBytes bs
  if (bs.drop (endLength - 1)).isEmpty ∨ record.comment.length < Bytes.field bs 20 2 then
    .error (malformed "end record is cut off")
  else if (record.entries = 0xffff ∨ record.offset = 0xffffffff) ∧ locatorLength ≤ position
      ∧ startsWith locatorMark (archive.drop (position - locatorLength)) then
    wideClaim archive (position - locatorLength)
  else narrowClaim archive record position

/-- The entries of `count` records at the front of octets. -/
def readRecords (shift : Nat) : Nat → Bytes → Except ArchiveError (List Record)
  | 0, _ => .ok []
  | count + 1, bs =>
    match DirectoryRecord.next bs with
    | .record d rest => do
      let r ← Record.ofDirectory shift d
      let others ← readRecords shift count rest
      return r :: others
    | _ => .error (malformed "directory record is missing")

/-- The entries where a claim says they are. -/
def DirectoryClaim.read (archive : Bytes) (claim : DirectoryClaim) :
    Except ArchiveError (List Record) :=
  if claim.count < claim.countHere then .error (malformed "more files on this disk than in all")
  else if claim.disk ≠ claim.directoryDisk then
    .error (unsupported "archive is on more than one disk")
  else readRecords claim.shift claim.count (archive.drop claim.start)

/-- The records with `r` in the place of the one of its name, or at the end. -/
def insertByName (r : Record) : List Record → List Record
  | [] => [r]
  | s :: rest => if s.name = r.name then r :: rest else s :: insertByName r rest

/-- The records without those that a later one of the same name replaces. -/
def distinct (rs : List Record) : List Record := rs.foldl (fun kept r => insertByName r kept) []

/-- The entries by the first of the end records at `positions` that leads to a directory which can
be read.  The error is that of the last directory which was found and cannot be, or else the given
one. -/
def readFrom (archive : Bytes) : ArchiveError → List Nat → Except ArchiveError (List Record)
  | e, [] => .error e
  | e, position :: rest =>
    match claimAt archive position with
    | .error _ => readFrom archive e rest
    | .ok claim =>
      match claim.read archive with
      | .ok rs => .ok (distinct rs)
      | .error e' => readFrom archive e' rest

/-- **Reads the entries of an archive.** -/
def readDirectory (archive : Bytes) : Except ArchiveError (List Record) :=
  readFrom archive (malformed "end record is missing") (marksDown endMark archive 0 archive.length)

end GuardedArchive.Zip
