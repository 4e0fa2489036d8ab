import GuardedArchive.Entry.Descriptor
import GuardedArchive.Entry.Name
import GuardedArchive.Extraction.Destination
import GuardedArchive.Extraction.Tally
import GuardedArchive.Stream

/-!
# Extraction/Entry — placing one entry below the destination

`judge` judges an entry by what is declared of it and by the names placed before, and tells where it
goes.  Only then does `extractEntry` touch the file system: it notes the name, makes the directories
and, for a file, writes what the reader delivers, chunk by chunk within the bounds.
-/

namespace GuardedArchive

/-- An extraction under way: the files, the counts, what was placed, and the reader of the entry in
hand, which delivers what it finds when it is first read. -/
structure Extraction where
  files : FileSystem
  tally : Tally := {}
  filesExtracted : Nat := 0
  directoriesCreated : Nat := 0
  reader : FileSystem → List Read := fun _ => []

/-- Where an entry goes: nowhere, as it names the destination itself, or to a path, under the name
that is noted. -/
inductive Placement
  | root
  | directory (name : String) (path : Path)
  | file (name : String) (path : Path)
deriving DecidableEq, Repr

namespace Extraction

/-- **Judges an entry** before anything is done for it. -/
def judge (limits : Limits) (dest : Destination) (seen : List String) (entry : EntryDescriptor) :
    Except ArchiveError Placement := do
  let normal ← EntryName.check limits entry.name
  entry.checkSize limits
  entry.checkNotLink
  let name := EntryName.sanitizedPath normal
  if name.isEmpty then
    if entry.isDirectory then return .root else throw (.violation .emptyName)
  let path ← checkContained (dest.resolve name) dest.path
  EntryName.checkDuplicate seen name
  return if entry.isDirectory then .directory name path else .file name path

/-- Takes a step on the files. -/
def onFiles {α : Type} (op : Operation α) : Effect Extraction α := fun s =>
  match op s.files with
  | (.ok a, fs) => (.ok a, { s with files := fs })
  | (.error e, fs) => (.error e, { s with files := fs })

/-- Notes the name of an entry. -/
def noteName (name : String) : Effect Extraction Unit :=
  .modify fun s => { s with tally := s.tally.insertName name }

/-- Writes one chunk of an entry to the file at `loc`, if the bounds on the entry and on all entries
allow; the octets count before the second bound is checked. -/
def acceptChunk (limits : Limits) (name : String) (loc : Location) (chunk : Bytes)
    (entryTotal : Nat) (s : Extraction) : Except ArchiveError Unit × Extraction :=
  match limits.checkEntrySize name entryTotal with
  | .error e => (.error e, s)
  | .ok () =>
    match s.tally.addOctets chunk.length with
    | .error e => (.error e, s)
    | .ok tally =>
      match limits.checkTotalSize tally.octets with
      | .error e => (.error e, { s with tally := tally })
      | .ok () => (.ok (), { s with tally := tally, files := s.files.append loc chunk })

/-- Writes what the reader delivers to a new or emptied file, which is open before the first
read. -/
def writeFile (limits : Limits) (name : String) (p : Path) : Effect Extraction Unit := fun s =>
  match s.files.create p with
  | .error e => (.error (.io e), s)
  | .ok (loc, fs) =>
    let copied :=
      Stream.copyChunks (acceptChunk limits name loc) (s.reader fs) { s with files := fs }
    (copied.result.map fun _ => (), { copied.state with reader := fun _ => copied.unread })

/-- Makes the directory that a path stands in. -/
def makeParent (dest : Destination) (p : Path) : Effect Extraction Unit :=
  match p.parent? with
  | none => pure ()
  | some parent => onFiles (dest.makeDirectoryWithin parent)

/-- Checks the octets of all entries so far. -/
def checkTotal (limits : Limits) : Effect Extraction Unit :=
  .look fun s => limits.checkTotalSize s.tally.octets

/-- **Places one entry**, whose content the reader delivers. -/
def extractEntry (limits : Limits) (dest : Destination) (entry : EntryDescriptor) :
    Effect Extraction Unit := do
  match ← Effect.look fun s => judge limits dest s.tally.names entry with
  | .root => pure ()
  | .directory name p =>
    noteName name
    onFiles (dest.makeDirectoryWithin p)
    .modify fun s => { s with directoriesCreated := s.directoriesCreated + 1 }
  | .file name p =>
    noteName name
    makeParent dest p
    writeFile limits entry.name p
    checkTotal limits
    .modify fun s => { s with filesExtracted := s.filesExtracted + 1 }

end Extraction

end GuardedArchive
