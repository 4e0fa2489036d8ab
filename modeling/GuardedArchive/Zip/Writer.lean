import GuardedArchive.Zip.Checksum
import GuardedArchive.Zip.Layout

/-!
# Zip/Writer — archives as they are written

An entry is begun, which puts its local header into the archive, and ended, which puts its content
behind the header and notes its directory record.  A finished archive ends with the directory and
the end record, in the wide form where a number does not fit.  Deflated content has the form that an
encoder gives it; the plainest encoder writes stored blocks.
-/

namespace GuardedArchive.Zip

/-- The longest stored block. -/
def maxBlockLength : Nat := 65535

/-- Stored blocks for octets, at most `count` before the final one. -/
def storedBlocks : Nat → Bytes → Bytes
  | 0, bs => fields [(1, 1), (2, bs.length), (2, maxBlockLength - bs.length)] ++ bs
  | count + 1, bs =>
    if bs.length ≤ maxBlockLength then
      fields [(1, 1), (2, bs.length), (2, maxBlockLength - bs.length)] ++ bs
    else
      fields [(1, 0), (2, maxBlockLength), (2, 0)] ++ bs.take maxBlockLength
        ++ storedBlocks count (bs.drop maxBlockLength)

/-- A deflate stream of octets. -/
def deflateStored (content : Bytes) : Bytes :=
  storedBlocks (content.length / maxBlockLength) content

/-- An encoder of deflate streams, for each level: the stream of a whole content, and what is
written out when so much of a content was taken in and more can follow. -/
structure Encoder where
  stream : Nat → Bytes → Bytes
  early : Nat → Bytes → Bytes

/-- The encoder that writes stored blocks, whatever the level, when it has the whole content. -/
def Encoder.plain : Encoder := ⟨fun _ => deflateStored, fun _ _ => []⟩

/-- How the content of an entry is written: as it is, or as a deflate stream. -/
inductive Method
  | stored
  | deflated (encode early : Bytes → Bytes)

namespace Method

/-- The number of the method in headers. -/
def number : Method → Nat
  | stored => 0
  | deflated .. => 8

/-- A content in the form of the method. -/
def pack : Method → Bytes → Bytes
  | stored, content => content
  | deflated encode _, content => encode content

end Method

/-- The mode of a file entry. -/
def fileMode : Nat := 0o100644

/-- The mode of a directory entry. -/
def directoryMode : Nat := 0o040755

/-- The date of every entry, the first day that headers can tell. -/
def headerDate : Nat := 0x21

/-- The flags of an entry by its name: a name that is not ASCII is marked as UTF-8. -/
def nameFlags (name : Bytes) : Nat := if name.any (0x80 ≤ ·) then 0x800 else 0

/-- An archive that is being written: its octets so far, and the records of the entries in them. -/
structure Writer where
  octets : Bytes := []
  records : List DirectoryRecord := []

/-- What an entry is called and how it is written. -/
structure Heading where
  name : Bytes
  method : Method
  mode : Nat

namespace Writer

/-- The largest number that stands in a narrow field; it marks that the wide one holds. -/
def narrowMark : Nat := 0xffffffff

/-- A number in a narrow field. -/
def narrow (wide : Bool) (n : Nat) : Nat := if wide then narrowMark else n

/-- The local header of an entry, a wide one where either size does not fit a narrow field.  So an
entry whose content is below 4 GiB is widened, too, when its packed form passes that limit.  A
writer that keeps the header with which the entry was begun fails there instead. -/
def header (heading : Heading) (checksum compressed uncompressed : Nat) : Bytes :=
  let wide : Bool := narrowMark ≤ max compressed uncompressed
  LocalHeader.encode
    { versionNeeded := if wide then 45 else 20
      flags := nameFlags heading.name
      method := heading.method.number
      time := 0
      date := headerDate
      checksum := checksum
      compressedSize := narrow wide compressed
      uncompressedSize := narrow wide uncompressed
      name := heading.name
      extra := if wide then fields [(2, 1), (2, 16), (8, uncompressed), (8, compressed)] else [] }

/-- The archive with an entry begun: sizes and checksum are not known yet. -/
def begun (w : Writer) (heading : Heading) : Bytes := w.octets ++ header heading 0 0 0

/-- The directory record of an entry whose local header stands at `offset`. -/
def record (heading : Heading) (checksum compressed uncompressed offset : Nat) :
    DirectoryRecord :=
  let wide : Bool := narrowMark ≤ max (max compressed uncompressed) offset
  { madeBy := 3 * 256 + 45
    versionNeeded := if wide then 45 else 20
    flags := nameFlags heading.name
    method := heading.method.number
    time := 0
    date := headerDate
    checksum := checksum
    compressedSize := narrow wide compressed
    uncompressedSize := narrow wide uncompressed
    disk := 0
    internalAttributes := 0
    externalAttributes := heading.mode * 65536
    headerOffset := narrow wide offset
    name := heading.name
    extra :=
      if wide then
        fields [(2, 1), (2, 24), (8, uncompressed), (8, compressed), (8, offset)]
      else []
    comment := [] }

/-- The archive with one more entry. -/
def add (w : Writer) (heading : Heading) (content : Bytes) : Writer :=
  let packed := heading.method.pack content
  let checksum := (Checksum.crc32 content).toNat
  { octets := w.octets ++ header heading checksum packed.length content.length ++ packed
    records := w.records
      ++ [record heading checksum packed.length content.length w.octets.length] }

/-- The central directory. -/
def directory (w : Writer) : Bytes := w.records.flatMap DirectoryRecord.encode

/-- **The finished archive.** -/
def finish (w : Writer) : Bytes :=
  let directory := w.directory
  let count := w.records.length
  let offset := w.octets.length
  let wide : Bool := 0xffff ≤ count || narrowMark ≤ max directory.length offset
  let wideParts :=
    if wide then
      WideRecord.encode
          { entriesHere := count, entries := count, size := directory.length, offset := offset }
        ++ Locator.encode { offset := offset + directory.length }
    else []
  w.octets ++ directory ++ wideParts
    ++ EndRecord.encode
      { entriesHere := if wide then 0xffff else count
        entries := if wide then 0xffff else count
        size := narrow wide directory.length
        offset := narrow wide offset }

end Writer

end GuardedArchive.Zip
