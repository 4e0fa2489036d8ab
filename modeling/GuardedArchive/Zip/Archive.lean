import GuardedArchive.FileSystem.Change
import GuardedArchive.Zip.Delivery
import GuardedArchive.Zip.Listing

/-!
# Zip/Archive — an opened archive and the contents of its entries

`Archive.load` opens an archive only where the entries are as many as the records that `scan`
counted.  An entry's content is what its reads deliver, from the archive as it is when they are
made.
-/

namespace GuardedArchive.Zip

/-- What an archive is read from: octets in memory, or the file at a location. -/
inductive Source
  | memory (octets : Bytes)
  | disk (file : Location)
deriving DecidableEq, Repr

namespace Source

def medium : Source → Medium
  | memory _ => .memory
  | disk _ => .disk

/-- The octets of the archive at this time; a file may have changed since it was opened. -/
def octets (fs : FileSystem) : Source → Bytes
  | memory octets => octets
  | disk file => fs.contentAt file

end Source

/-- An opened archive. -/
structure Archive where
  source : Source
  records : List Record

/-- An entry that is open for reading: what is declared of it, and what its reads deliver when they
are made. -/
structure Entry where
  descriptor : EntryDescriptor
  reads : FileSystem → List Read

namespace Archive

/-- **Opens an archive**: the scan and the reader must agree on the number of entries. -/
def load (limits : Limits) (source : Source) (fs : FileSystem) : Except ArchiveError Archive := do
  let octets := source.octets fs
  let count ← scan limits source.medium octets
  let records ← readDirectory octets
  if records.length ≠ count then
    throw (.invalidArchive (.countMismatch count records.length))
  return ⟨source, records⟩

/-- Where the content of an entry starts, behind its local header. -/
def contentStart (archive : Archive) (r : Record) (fs : FileSystem) : Except ArchiveError Nat := do
  archive.source.medium.seek r.headerOffset
  match LocalHeader.lengthOf? ((archive.source.octets fs).drop r.headerOffset) with
  | none => throw (malformed "local header is missing")
  | some length => return r.headerOffset + length

/-- The read behind the end of a content: it fails where the checksum is another. -/
def checkAtEnd (checksum : Nat) (content : Bytes) : List Read :=
  if (Checksum.crc32 content).toNat = checksum then [] else [.failure .checksumMismatch]

/-- The reads of a stored content. -/
def storedReads (checksum : Nat) (content : Bytes) : List Read :=
  Stream.readsOf content ++ checkAtEnd checksum content

/-- **Opens an entry for reading.** -/
def openEntry (archive : Archive) (r : Record) (fs : FileSystem) : Except ArchiveError Entry := do
  if r.isEncrypted then throw (unsupported "entry is encrypted")
  let start ← archive.contentStart r fs
  let raw (fs : FileSystem) := Bytes.slice (archive.source.octets fs) start r.compressedSize
  let reads ← match r.method with
    | 0 => pure fun fs => storedReads r.checksum (raw fs)
    | 8 => pure fun fs => Inflate.reads (raw fs) (checkAtEnd r.checksum)
    | _ => throw (unsupported "compression method")
  if r.isAesEncrypted then throw (.invalidArchive .wrongPassword)
  return ⟨r.descriptor, reads⟩

/-- What is declared of an entry that can be found in the archive. -/
def describeEntry (archive : Archive) (r : Record) (fs : FileSystem) :
    Except ArchiveError EntryDescriptor := do
  let _ ← archive.contentStart r fs
  return r.descriptor

end Archive

end GuardedArchive.Zip
