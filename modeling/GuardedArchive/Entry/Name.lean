import GuardedArchive.Entry.Segment
import GuardedArchive.Limits
import GuardedArchive.Text.Escaped

/-!
# Entry/Name — which entry names are accepted, and the path each one stands for

A name is cut at `/` and `\` alike.  `EntryName.check` refuses a name that is blank, too long,
holds a control character, a `..`, an absolute start or an arrow, and answers the name with every
separator turned into `/`.  `EntryName.sanitizedPath` makes each part of an accepted name a clean
segment; `Entry/Segment` has those.
-/

namespace GuardedArchive.EntryName

/-- The name with each `\` turned into `/`. -/
def normalizeSeparators (name : String) : String :=
  String.ofList (name.toList.map fun c => if c = '\\' then '/' else c)

/-- The parts of a name between its `/`. -/
def segments (name : String) : List (List Char) := name.toList.splitOn '/'

/-- A name that starts with a letter and a colon as its whole first segment. -/
def hasDrive : List Char → Bool
  | [c, ':'] => c.isAlpha
  | c :: ':' :: '/' :: _ => c.isAlpha
  | _ => false

/-- The mark `->` stands somewhere in a name. -/
def hasArrow : List Char → Bool
  | [] => false
  | c :: cs => if c = '-' ∧ cs.head? = some '>' then true else hasArrow cs

/-- **The name check**: the name with its separators normal, or the first bound that it breaks. -/
def check (limits : Limits) (name : String) : Except ArchiveError String :=
  let normal := normalizeSeparators name
  if Text.allBlank name then .error (.violation .emptyName)
  else if limits.maxEntryNameLength < normal.utf8ByteSize then
    .error (.violation (.nameTooLong normal.utf8ByteSize limits.maxEntryNameLength))
  else if normal.toList.any (·.toNat < 0x20) then
    .error (.violation (.controlCharacter (Text.escaped normal)))
  else if (segments normal).contains ['.', '.'] then
    .error (.violation (.pathTraversal (.ofString normal)))
  else if normal.toList.head? = some '/' || hasDrive normal.toList then
    .error (.violation (.absolutePath normal))
  else if hasArrow normal.toList then .error (.violation (.linkMarker normal))
  else .ok normal

/-- A segment that names something, rather than the directory it stands in. -/
def isProper (segment : List Char) : Bool := segment ≠ [] && segment ≠ ['.']

/-- The clean segments of a name, without those that stay in their directory. -/
def cleanSegments (normal : String) : List (List Char) :=
  ((segments normal).filter isProper).map Segment.sanitizeChars

/-- The relative path that a name stands for; it is empty for the target directory itself. -/
def sanitizedPath (normal : String) : String :=
  String.ofList (['/'].intercalate (cleanSegments normal))

/-- **The repetition check** against the names seen before. -/
def checkDuplicate (seen : List String) (name : String) : Except ArchiveError Unit :=
  if seen.contains name then .error (.violation (.duplicateEntry name)) else .ok ()

end GuardedArchive.EntryName
