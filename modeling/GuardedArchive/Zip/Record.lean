import GuardedArchive.Entry.Descriptor
import GuardedArchive.Zip.CodePage
import GuardedArchive.Zip.Directory

/-!
# Zip/Record — an entry as its directory record describes it

Name and comment are UTF-8 or code page 437 by a flag.  The mode comes from the external attributes,
read by the system that made the entry.  What the extra fields say is not in it yet.
-/

namespace GuardedArchive.Zip

/-- A fault of an archive that breaks its own form. -/
def malformed (detail : String) : ArchiveError := .invalidArchive (.malformed detail)

/-- A fault of an archive that needs what this library does not do. -/
def unsupported (detail : String) : ArchiveError := .invalidArchive (.unsupported detail)

/-- An entry of an archive. -/
structure Record where
  name : String
  rawName : Bytes
  comment : String
  isEncrypted : Bool
  isAesEncrypted : Bool
  method : Nat
  checksum : Nat
  compressedSize : Nat
  uncompressedSize : Nat
  headerOffset : Nat
  unixMode : Option Nat
deriving DecidableEq, Repr

namespace Record

/-- The mode that external attributes stand for. -/
def modeOf (madeBy external : Nat) : Option Nat :=
  let system := madeBy / 256
  if external = 0 then none
  else if external / 65536 ≠ 0 then some (external / 65536)
  else if system = 3 then some 0
  else if system = 0 then
    let mode := if external / 16 % 2 = 1 then 0o40775 else 0o100664
    -- The write bits of owner and group; the others have none.
    some (if external % 2 = 1 then mode - 0o220 else mode)
  else none

/-- A name or comment, whose encoding the flags of its record tell. -/
def textOf (flags : Nat) (octets : Bytes) : String :=
  if flags / 2048 % 2 = 1 then Utf8.decodeLossy octets else CodePage.decode octets

/-- The entry of a directory record without its extra fields. -/
def ofDirectoryRecord (d : DirectoryRecord) : Record where
  name := textOf d.flags d.name
  rawName := d.name
  comment := textOf d.flags d.comment
  isEncrypted := d.flags % 2 = 1
  isAesEncrypted := false
  method := d.method
  checksum := d.checksum
  compressedSize := d.compressedSize
  uncompressedSize := d.uncompressedSize
  headerOffset := d.headerOffset
  unixMode := modeOf d.madeBy d.externalAttributes

/-- What the archive declares of the entry; a size that no file on a disk can have
counts as unknown. -/
def descriptor (r : Record) : EntryDescriptor where
  name := r.name
  isDirectory := r.name.toList.getLast? = some '/' || r.name.toList.getLast? = some '\\'
  declaredSize := if r.uncompressedSize ≤ Bytes.maxOffset then some r.uncompressedSize else none
  compressedSize := r.compressedSize
  unixMode := r.unixMode

end Record

end GuardedArchive.Zip
