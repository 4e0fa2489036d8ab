import GuardedArchive.Bytes

/-!
# Zip/Layout — the records of an archive, as octets and as fields

An archive is entry contents behind local headers, then the central directory with one record for
each entry, then the end record.  When its counts or offsets outgrow the end record, a wide end
record and its locator stand before that.  Each kind is a structure with an `encode`; `next` reads
one directory record off the front of octets.
-/

namespace GuardedArchive.Zip

/-- Numbers with their widths, one after the other. -/
def fields (fs : List (Nat × Nat)) : Bytes := fs.flatMap fun f => Bytes.ofNat f.1 f.2

/-- The mark of a record, as the number its first four octets hold. -/
def localMark : Nat := 0x04034b50
def directoryMark : Nat := 0x02014b50
def endMark : Nat := 0x06054b50
def wideMark : Nat := 0x06064b50
def locatorMark : Nat := 0x07064b50

/-- The length of a local header without its name and extra fields. -/
def localLength : Nat := 30

/-- The length of a directory record without its name, extra fields and comment. -/
def directoryLength : Nat := 46

/-- The length of an end record without its comment. -/
def endLength : Nat := 22

/-- The length of a locator. -/
def locatorLength : Nat := 20

/-- The length of a wide end record without what may follow its fields. -/
def wideLength : Nat := 56

/-- The octets begin with a mark. -/
def startsWith (mark : Nat) (bs : Bytes) : Bool := bs.take 4 == Bytes.ofNat 4 mark

/-- One record of the central directory. -/
structure DirectoryRecord where
  madeBy : Nat
  versionNeeded : Nat
  flags : Nat
  method : Nat
  time : Nat
  date : Nat
  checksum : Nat
  compressedSize : Nat
  uncompressedSize : Nat
  disk : Nat
  internalAttributes : Nat
  externalAttributes : Nat
  headerOffset : Nat
  name : Bytes
  extra : Bytes
  comment : Bytes
deriving DecidableEq, Repr

namespace DirectoryRecord

def encode (r : DirectoryRecord) : Bytes :=
  fields [(4, directoryMark), (2, r.madeBy), (2, r.versionNeeded), (2, r.flags), (2, r.method),
    (2, r.time), (2, r.date), (4, r.checksum), (4, r.compressedSize), (4, r.uncompressedSize),
    (2, r.name.length), (2, r.extra.length), (2, r.comment.length), (2, r.disk),
    (2, r.internalAttributes), (4, r.externalAttributes), (4, r.headerOffset)]
    ++ r.name ++ r.extra ++ r.comment

/-- What stands at the front of octets: a record and what follows it, a record that is cut off
behind its fixed part, or no record. -/
inductive Next
  | none
  | cut
  | record (r : DirectoryRecord) (rest : Bytes)

/-- The octets are too few for the fixed part of a record. -/
def tooShort (bs : Bytes) : Bool := (bs.drop (directoryLength - 1)).isEmpty

/-- The record whose fixed part is `bs`, with its variable parts at the front of `tail`. -/
def ofParts (bs tail : Bytes) : DirectoryRecord where
  madeBy := Bytes.field bs 4 2
  versionNeeded := Bytes.field bs 6 2
  flags := Bytes.field bs 8 2
  method := Bytes.field bs 10 2
  time := Bytes.field bs 12 2
  date := Bytes.field bs 14 2
  checksum := Bytes.field bs 16 4
  compressedSize := Bytes.field bs 20 4
  uncompressedSize := Bytes.field bs 24 4
  disk := Bytes.field bs 34 2
  internalAttributes := Bytes.field bs 36 2
  externalAttributes := Bytes.field bs 38 4
  headerOffset := Bytes.field bs 42 4
  name := tail.take (Bytes.field bs 28 2)
  extra := Bytes.slice tail (Bytes.field bs 28 2) (Bytes.field bs 30 2)
  comment := Bytes.slice tail (Bytes.field bs 28 2 + Bytes.field bs 30 2) (Bytes.field bs 32 2)

/-- The length of the variable parts that the fixed part `bs` announces. -/
def variableLength (bs : Bytes) : Nat :=
  Bytes.field bs 28 2 + Bytes.field bs 30 2 + Bytes.field bs 32 2

/-- **Reads a directory record** off the front of octets. -/
def next (bs : Bytes) : Next :=
  if tooShort bs || !startsWith directoryMark bs then .none
  else
    let tail := bs.drop directoryLength
    let more := variableLength bs
    if more ≠ 0 && (tail.drop (more - 1)).isEmpty then .cut
    else .record (ofParts (bs.take directoryLength) tail) (tail.drop more)

end DirectoryRecord

/-- The end record of an archive. -/
structure EndRecord where
  disk : Nat := 0
  directoryDisk : Nat := 0
  entriesHere : Nat
  entries : Nat
  size : Nat
  offset : Nat
  comment : Bytes := []
deriving DecidableEq, Repr

namespace EndRecord

def encode (r : EndRecord) : Bytes :=
  fields [(4, endMark), (2, r.disk), (2, r.directoryDisk), (2, r.entriesHere), (2, r.entries),
    (4, r.size), (4, r.offset), (2, r.comment.length)] ++ r.comment

/-- The end record whose fixed part begins `bs`. -/
def ofBytes (bs : Bytes) : EndRecord where
  disk := Bytes.field bs 4 2
  directoryDisk := Bytes.field bs 6 2
  entriesHere := Bytes.field bs 8 2
  entries := Bytes.field bs 10 2
  size := Bytes.field bs 12 4
  offset := Bytes.field bs 16 4
  comment := Bytes.slice bs endLength (Bytes.field bs 20 2)

end EndRecord

/-- Where the wide end record stands. -/
structure Locator where
  directoryDisk : Nat := 0
  offset : Nat
  disks : Nat := 1
deriving DecidableEq, Repr

namespace Locator

def encode (r : Locator) : Bytes :=
  fields [(4, locatorMark), (4, r.directoryDisk), (8, r.offset), (4, r.disks)]

/-- The locator that begins `bs`. -/
def ofBytes (bs : Bytes) : Locator where
  directoryDisk := Bytes.field bs 4 4
  offset := Bytes.field bs 8 8
  disks := Bytes.field bs 16 4

end Locator

/-- The end record with wide fields; `extension` is what may follow them. -/
structure WideRecord where
  madeBy : Nat := 45
  versionNeeded : Nat := 45
  disk : Nat := 0
  directoryDisk : Nat := 0
  entriesHere : Nat
  entries : Nat
  size : Nat
  offset : Nat
  extension : Bytes := []
deriving DecidableEq, Repr

namespace WideRecord

def encode (r : WideRecord) : Bytes :=
  fields [(4, wideMark), (8, wideLength - 12 + r.extension.length), (2, r.madeBy),
    (2, r.versionNeeded), (4, r.disk), (4, r.directoryDisk), (8, r.entriesHere), (8, r.entries),
    (8, r.size), (8, r.offset)] ++ r.extension

/-- The length that a wide record which begins `bs` gives itself, from its first octet. -/
def announcedLength (bs : Bytes) : Nat := Bytes.field bs 4 8 + 12

/-- The wide record that begins `bs`. -/
def ofBytes (bs : Bytes) : WideRecord where
  madeBy := Bytes.field bs 12 2
  versionNeeded := Bytes.field bs 14 2
  disk := Bytes.field bs 16 4
  directoryDisk := Bytes.field bs 20 4
  entriesHere := Bytes.field bs 24 8
  entries := Bytes.field bs 32 8
  size := Bytes.field bs 40 8
  offset := Bytes.field bs 48 8
  extension := Bytes.slice bs wideLength (announcedLength bs - wideLength)

end WideRecord

/-- The header in front of an entry's content. -/
structure LocalHeader where
  versionNeeded : Nat
  flags : Nat
  method : Nat
  time : Nat
  date : Nat
  checksum : Nat
  compressedSize : Nat
  uncompressedSize : Nat
  name : Bytes
  extra : Bytes
deriving DecidableEq, Repr

namespace LocalHeader

def encode (r : LocalHeader) : Bytes :=
  fields [(4, localMark), (2, r.versionNeeded), (2, r.flags), (2, r.method), (2, r.time),
    (2, r.date), (4, r.checksum), (4, r.compressedSize), (4, r.uncompressedSize),
    (2, r.name.length), (2, r.extra.length)] ++ r.name ++ r.extra

/-- The distance from a local header to the content behind it, if a header begins `bs`. -/
def lengthOf? (bs : Bytes) : Option Nat :=
  if (bs.drop (localLength - 1)).isEmpty || !startsWith localMark bs then none
  else some (localLength + Bytes.field bs 26 2 + Bytes.field bs 28 2)

end LocalHeader

end GuardedArchive.Zip
