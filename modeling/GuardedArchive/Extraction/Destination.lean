import GuardedArchive.Access
import GuardedArchive.Path.Lexical

/-!
# Extraction/Destination — the directory that an extraction must not leave

A destination is a directory without links on its path.  `resolve` puts a relative path below it,
and `checkContained` refuses a path whose normal form is not below the other's.
`makeDirectoryWithin` looks again once a directory is made, since a link may lead out.
-/

namespace GuardedArchive

/-- **The containment check**: the normal form of `resolved`, if that of `root` begins it. -/
def checkContained (resolved root : Path) : Except ArchiveError Path :=
  if resolved.normalize.isWithin root.normalize then .ok resolved.normalize
  else .error (.violation (.pathTraversal resolved))

/-- The directory that an extraction fills. -/
structure Destination where
  root : Location
deriving DecidableEq, Repr

namespace Destination

/-- Makes a directory the destination. -/
def ofPath (p : Path) : Operation Destination := do return ⟨← Access.writableDirectory p⟩

/-- The path of the directory. -/
def path (dest : Destination) : Path := dest.root.path

/-- The path of a relative path below the directory; empty segments count for nothing. -/
def resolve (dest : Destination) (relative : String) : Path :=
  ((relative.toList.splitOn '/').filter (· ≠ [])).foldl
    (fun p segment => p.join (.ofString (String.ofList segment))) dest.path

/-- **Makes a directory that must be in the destination**, with what is missing above it, and checks
where it is. -/
def makeDirectoryWithin (dest : Destination) (p : Path) : Operation Unit := do
  Operation.makeTree p
  let (loc, _) ← Operation.ask (·.canonicalize p)
  if dest.root.isPrefixOf loc then pure ()
  else Effect.fail (.violation (.pathTraversal (Location.path loc)))

end Destination

end GuardedArchive
