import GuardedArchive.Entry.Segment
import GuardedArchive.Limits

/-!
# Creation/Name — the file name of a new archive

The name that is asked for becomes a clean segment, and gets `.zip` at its end unless it has that in
capital or small letters.  A request of which nothing is left takes the default name.
-/

namespace GuardedArchive.ArchiveName

/-- The end of an archive's file name. -/
def extension : List Char := ['.', 'z', 'i', 'p']

/-- A name ends in the extension, whatever the case of its letters. -/
def hasExtension (name : List Char) : Bool :=
  extension.reverse.isPrefixOf (name.map Char.toLower).reverse

/-- A request counts as blank when its clean segment is the fallback although it does not ask for
that name. -/
def isBlankRequest (requested : List Char) : Bool :=
  Segment.sanitizeChars requested = Segment.fallback && Text.trim requested ≠ Segment.fallback

/-- **The file name for a request.** -/
def normalize (settings : CreationSettings) (requested : String) : String :=
  let name :=
    if isBlankRequest requested.toList then
      Segment.sanitizeChars settings.defaultArchiveName.toList
    else Segment.sanitizeChars requested.toList
  String.ofList (if hasExtension name then name else name ++ extension)

end GuardedArchive.ArchiveName
