import GuardedArchive.Extraction.Archive
import GuardedArchive.Temporary

/-!
# Extraction/Atomic — extractions that leave all or nothing

The entries go into a fresh directory first.  Only when all are placed does that directory take its
name; when one cannot be placed, it is removed with all that is in it.
-/

namespace GuardedArchive.Extraction

/-- The start of the name of a directory that is being filled. -/
def stagingPrefix : String := ".zipshield-staging-"

/-- The target stands already: it must be an empty directory and no link. -/
def targetExists (target : Path) (fs : FileSystem) : Except ArchiveError Bool :=
  match fs.nodeAt false target with
  | .error (.system .noEntry) => .ok false
  | .error e => .error (.io e)
  | .ok (loc, .directory) =>
    if fs.children loc = [] then .ok true else .error (.invalidInput (.targetNotEmpty target))
  | .ok _ => .error (.invalidInput (.targetNotDirectory target))

/-- The directory that a target is named in. -/
def parentOf (target : Path) : Path :=
  match target.parent? with
  | some parent => if parent.isEmpty then ⟨Path.dot⟩ else parent
  | none => ⟨Path.dot⟩

/-- The path at which a target will stand. -/
def finalPath (parent : Location) (target : Path) : Except ArchiveError Path :=
  match target.fileName? with
  | some name => .ok ((Location.path parent).join ⟨name⟩)
  | none => .error (.invalidInput (.targetUnnamed target))

/-- Gives a filled directory the name of the target. -/
def moveIntoPlace (staging final : Path) (existed : Bool) : Operation Unit := do
  if existed then Operation.change (·.removeDirectory final)
  Operation.change fun fs => do
    let (source, _) ← fs.nodeAt false staging
    fs.rename source final

/-- **Extracts an archive file so that the target is either complete or as it was.** -/
def extractAtomic (limits : Limits) (archive target : Path) : Operation ExtractionReport := do
  let source ← Effect.look fun fs => Access.readableFile fs archive
  let existed ← Effect.look (targetExists target)
  let parent ← Access.writableDirectory (parentOf target)
  let final ← Effect.ofExcept (finalPath parent target)
  let staging ← Temporary.stagingIn (Location.path parent) stagingPrefix
  let report ← Effect.onFailure
    (do
      let report ← extract limits (Location.path source) staging
      moveIntoPlace staging final existed
      return report)
    (Temporary.discardTree staging)
  let (loc, _) ← Operation.ask (·.canonicalize final)
  return { report with target := Location.path loc }

/-- **Extracts an archive file into a fresh directory for temporary files**, which is removed when
that fails. -/
def extractTemporary (limits : Limits) (pre : String) (archive : Path) :
    Operation ExtractionReport := do
  let source ← Effect.look fun fs => Access.readableFile fs archive
  let target ← Temporary.directory pre
  Effect.onFailure (extract limits (Location.path source) target) (Temporary.discardTree target)

end GuardedArchive.Extraction
