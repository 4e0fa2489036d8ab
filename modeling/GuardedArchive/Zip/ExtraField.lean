import GuardedArchive.Zip.Checksum
import GuardedArchive.Zip.Record

/-!
# Zip/ExtraField — what the extra fields of a directory record add to an entry

A field is a kind, a length and a content.  A wide field holds sizes and an offset that have all
their bits set elsewhere, a text field holds the name or the comment in UTF-8 with the checksum of
the text it stands for, and an AES field holds the true method of an encrypted entry.  Times are
read and forgotten, and so are the fields of other kinds.  A reader takes its octets off the front
of all that follow the length, and the next field begins where it stops.
-/

namespace GuardedArchive.Zip

namespace Record

/-- The first `n` octets, and those behind them. -/
def front (n : Nat) (bs : Bytes) : Except ArchiveError (Bytes × Bytes) :=
  if bs.length < n then .error (.io .unexpectedEnd) else .ok (bs.take n, bs.drop n)

/-- The number in the first `width` octets, and the octets behind it. -/
def number (width : Nat) (bs : Bytes) : Except ArchiveError (Nat × Bytes) := do
  let (octets, rest) ← front width bs
  return (Bytes.toNat octets, rest)

/-- The first octet, and those behind it. -/
def octet : Bytes → Except ArchiveError (UInt8 × Bytes)
  | [] => .error (malformed "extra field is empty")
  | b :: rest => .ok (b, rest)

/-- The wide form of a number whose narrow form has all its bits set, or of every number when
`always` holds; with the octets that it takes. -/
def widened (always : Bool) (narrow : Nat) (bs : Bytes) : Option (Nat × Bytes × Nat) :=
  if always || narrow == 0xffffffff then
    if (bs.drop 7).isEmpty then none else some (Bytes.field bs 0 8, bs.drop 8, 8)
  else some (narrow, bs, 0)

/-- Reads the wide field of a length from the front of octets. -/
def readWide (r : Record) (length : Nat) (bs : Bytes) : Except ArchiveError (Record × Bytes) := do
  let always : Bool := 24 ≤ length
  let short := malformed "zip64 extra field is the wrong length"
  let some (uncompressed, rest, n₁) := widened always r.uncompressedSize bs | throw short
  let some (compressed, rest, n₂) := widened always r.compressedSize rest | throw short
  let some (offset, rest, n₃) := widened always r.headerOffset rest | throw short
  let used := n₁ + n₂ + n₃
  if length < used then throw short
  if rest.length < length - used then throw short
  return ({ r with uncompressedSize := uncompressed, compressedSize := compressed,
                   headerOffset := offset }, rest.drop (length - used))

/-- Passes the field with the file times of NTFS: a reserved number, and one attribute, which holds
three times. -/
def skipFileTimes (length : Nat) (bs : Bytes) : Except ArchiveError Bytes := do
  if length ≠ 32 then throw (unsupported "NTFS extra field is the wrong length")
  let (_, rest) ← front 4 bs
  let (tag, rest) ← number 2 rest
  if tag ≠ 1 then throw (unsupported "NTFS extra field has an unknown attribute")
  let (size, rest) ← number 2 rest
  if size ≠ 24 then throw (unsupported "NTFS attribute is the wrong length")
  let (_, rest) ← front 24 rest
  return rest

/-- Passes the field with times by their seconds: its flags tell which are there, unless it has room
for the first alone. -/
def skipTimestamps (length : Nat) (bs : Bytes) : Except ArchiveError Bytes := do
  let (flags, rest) ← octet bs
  if length ≠ 5 ∧ length ≠ 1 + 4 * (Bytes.bitsOf flags).count true then
    throw (.io (.timestampLength length flags))
  let (_, rest) ← front (length - 1) rest
  return rest

/-- Reads a text field: a version, the checksum of the text that it stands for, which has the octets
`plain`, and the text in UTF-8. -/
def readText (plain : Bytes) (length : Nat) (bs : Bytes) :
    Except ArchiveError (Bytes × String × Bytes) := do
  let (_, rest) ← front 1 bs
  let (checksum, rest) ← number 4 rest
  if length < 5 then throw (malformed "unicode extra field is too small")
  let (content, rest) ← front (length - 5) rest
  if checksum ≠ (Checksum.crc32 plain).toNat then
    throw (malformed "unicode extra field stands for another text")
  let some text := Utf8.decode? content | throw (malformed "unicode extra field is not UTF-8")
  return (content, text, rest)

/-- Reads the AES field: its version and vendor, the strength of the key, and the true method. -/
def readAes (r : Record) (length : Nat) (bs : Bytes) : Except ArchiveError (Record × Bytes) := do
  if length ≠ 7 then throw (unsupported "AES extra field is the wrong length")
  let (version, rest) ← number 2 bs
  let (vendor, rest) ← number 2 rest
  let (strength, rest) ← octet rest
  let (method, rest) ← number 2 rest
  if vendor ≠ 0x4541 then throw (malformed "AES vendor is unknown")
  if version ≠ 1 ∧ version ≠ 2 then throw (malformed "AES version is unknown")
  if strength = 0 ∨ 3 < strength then throw (malformed "AES strength is unknown")
  return ({ r with isAesEncrypted := true, method := method }, rest)

/-- The kinds of the fields that are read. -/
def wideField : Nat := 0x0001
def fileTimesField : Nat := 0x000a
def timestampsField : Nat := 0x5455
def commentField : Nat := 0x6375
def nameField : Nat := 0x7075
def aesField : Nat := 0x9901

/-- Reads the content of one field. -/
def readField (r : Record) (kind length : Nat) (bs : Bytes) :
    Except ArchiveError (Record × Bytes) := do
  if kind = wideField then readWide r length bs
  else if kind = fileTimesField then return (r, ← skipFileTimes length bs)
  else if kind = timestampsField then return (r, ← skipTimestamps length bs)
  else if kind = commentField then
    let (_, comment, rest) ← readText (Bytes.ofString r.comment) length bs
    return ({ r with comment := comment }, rest)
  else if kind = nameField then
    let (raw, name, rest) ← readText r.rawName length bs
    return ({ r with name := name, rawName := raw }, rest)
  else if kind = aesField then readAes r length bs
  else if bs.length < length then throw (malformed "extra field content is cut off")
  else return (r, bs.drop length)

/-- Reads extra fields, at most `fuel` of them; a single octet that is left over means nothing. -/
def readExtra : Nat → Bytes → Record → Except ArchiveError Record
  | 0, _, r => .ok r
  | fuel + 1, bs, r =>
    if (bs.drop 1).isEmpty then .ok r
    else if (bs.drop 3).isEmpty then .error (malformed "extra field header is cut off")
    else do
      let (r, rest) ← readField r (Bytes.field bs 0 2) (Bytes.field bs 2 2) (bs.drop 4)
      readExtra fuel rest r

/-- The method number of an entry whose true method stands in its AES field. -/
def aesMethod : Nat := 99

/-- The entry of a directory record, in an archive that starts `shift` octets late. -/
def ofDirectory (shift : Nat) (d : DirectoryRecord) : Except ArchiveError Record := do
  let r ← readExtra d.extra.length d.extra (ofDirectoryRecord d)
  if d.method = aesMethod ∧ !r.isAesEncrypted then
    throw (malformed "AES encryption without its extra field")
  if Bytes.maxCount < r.headerOffset + shift then throw (malformed "local header is out of reach")
  return { r with headerOffset := r.headerOffset + shift }

end Record

end GuardedArchive.Zip
