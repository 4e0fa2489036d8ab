import GuardedArchive.Access
import GuardedArchive.Creation.Name
import GuardedArchive.FileSystem.Walk
import GuardedArchive.Stream
import GuardedArchive.Temporary
import GuardedArchive.Zip.Writer

/-!
# Creation/Archive — writing a file or a directory tree into a new archive

The archive is a fresh temporary file, and it is removed again when anything fails.  A tree is
walked depth first in the order of the names.  Each regular file becomes an entry, behind entries
for those of its directories that have none yet; whatever else is found is left out with a warning.
-/

namespace GuardedArchive

/-- What the writing of an archive did. -/
structure CreationReport where
  archivePath : Path
  filesAdded : Nat := 0
  directoriesAdded : Nat := 0
  bytesWritten : Nat := 0
  filesSkipped : Nat := 0
  warnings : List String := []
deriving DecidableEq, Repr

/-- Everything that was written. -/
def CreationReport.totalEntries (r : CreationReport) : Nat := r.filesAdded + r.directoriesAdded

/-- How the disk behaves while an archive is written: the reads that a source answers with, by its
path and the octets that are in it, and the error with which the archive cannot be finished, if
there is one. -/
structure Creation.Disk where
  reads : Path → Bytes → List Read
  finishing : Zip.Writer → Option IoError

/-- The disk that delivers every source whole and finishes every archive. -/
def Creation.Disk.faultless : Disk := ⟨fun _ => Stream.readsOf, fun _ => none⟩

/-- An archive under way: the files, the location of the archive, what is in it, the directories
that have entries, the report, and the disk, which stays the same. -/
structure Creation where
  files : FileSystem
  archive : Location
  writer : Zip.Writer := {}
  directories : List Bytes := []
  report : CreationReport
  disk : Creation.Disk := .faultless

namespace Creation

open Zip (Encoder Heading Method)

/-- How file contents are written at a level; level zero stores them. -/
def methodOf (deflate : Encoder) (settings : CreationSettings) : Method :=
  if settings.compressionLevel = some 0 then .stored
  else
    let level := settings.compressionLevel.getD 6
    .deflated (deflate.stream level) (deflate.early level)

/-- Puts octets into the archive file. -/
def save (s : Creation) (octets : Bytes) : Creation :=
  { s with files := s.files.put s.archive (.file octets) }

/-! ### A source file -/

/-- The most octets that an entry can have: what its size field can tell, or, where the archive was
so large when the entry was begun that the field is a wide one, what can be counted. -/
def sizeLimit (s : Creation) : Nat :=
  if Zip.Writer.narrowMark ≤ s.writer.octets.length then Bytes.maxCount else Zip.Writer.narrowMark

/-- What breaks off a copy that goes past the limit. -/
def overrun (s : Creation) : IoError :=
  if Zip.Writer.narrowMark ≤ s.writer.octets.length then .byteCountOverflow else .entryTooLarge

/-- **Reads octets that grow while they are read**: behind them stands what `early` gives for what
was read so far.  There is no answer if that comes to more than `limit`. -/
def readGrowing (early : Bytes → Bytes) (limit : Nat) (octets read : Bytes) : Option Bytes :=
  let chunk := ((octets ++ early read).drop read.length).take Stream.bufferSize
  if chunk = [] then some read
  else if limit < read.length + chunk.length then none
  else readGrowing early limit octets (read ++ chunk)
termination_by limit + 1 - read.length
decreasing_by
  have hpos : 0 < chunk.length := List.length_pos_iff.mpr ‹_›
  change limit + 1 - (read ++ chunk).length < limit + 1 - read.length
  rw [List.length_append]
  omega

/-- What is read of the archive when it is its own source.  Stored, all that is read of it is there
to be read once more, and that has no end. -/
def readOwn (method : Method) (limit : Nat) (octets : Bytes) : Option Bytes :=
  match method with
  | .stored => none
  | .deflated _ early => readGrowing early limit octets []

/-- What is read of a source, which had this content when its entry was begun. -/
def readSource (s : Creation) (method : Method) (source : Path) (content : Bytes) : Option Bytes :=
  match s.files.nodeAt false source with
  | .ok (loc, _) => if loc = s.archive then readOwn method s.sizeLimit content else some content
  | .error _ => some content

/-- **Adds a source file** to the archive.  The local header is in the archive before the source is
read. -/
def addFile (heading : Heading) (source : Path) : Effect Creation Unit := fun s =>
  let begun := s.save (s.writer.begun heading)
  match begun.files.read false source with
  | .error e => (.error (.io e), s)
  | .ok content =>
    match begun.readSource heading.method source content with
    | none => (.error (.io s.overrun), begun)
    | some content =>
      let copied := Stream.copyChunks (fun chunk _ read => (.ok (), read ++ chunk))
        (s.disk.reads source content) ([] : Bytes)
      match copied.result with
      | .error e => (.error e, begun)
      | .ok size =>
        let writer := s.writer.add heading copied.state
        let added := { s.save writer.octets with writer := writer }
        if Bytes.maxCount < s.report.bytesWritten + size then
          (.error (.io .byteCountOverflow), added)
        else
          (.ok (), { added with report :=
            { s.report with
              filesAdded := s.report.filesAdded + 1
              bytesWritten := s.report.bytesWritten + size } })

/-- Adds a directory entry to the archive. -/
def addDirectory (name : Bytes) : Effect Creation Unit := .modify fun s =>
  let writer := s.writer.add ⟨name ++ [Path.slash], .stored, Zip.directoryMode⟩ []
  { s.save writer.octets with
    writer := writer
    directories := name :: s.directories
    report := { s.report with directoriesAdded := s.report.directoriesAdded + 1 } }

/-- Finishes the archive, unless the disk fails: the directory and the end record are put behind the
entries. -/
def finish : Effect Creation Unit := fun s =>
  match s.disk.finishing s.writer with
  | some e => (.error (.io e), s)
  | none => (.ok (), s.save s.writer.finish)

/-- Runs `build` on a fresh archive and finishes it; the archive is removed when either fails. -/
def withArchive (disk : Disk) (settings : CreationSettings) (requested : String)
    (build : Effect Creation Unit) : Operation CreationReport := do
  let name := ArchiveName.normalize settings requested
  let path ← Temporary.file settings.temporaryPrefix ("-" ++ name)
  Effect.onFailure
    (do
      let (archive, _) ← Operation.ask (·.nodeAt false path)
      fun fs =>
        let begun : Creation :=
          { files := fs, archive := archive, report := { archivePath := path }, disk := disk }
        match (do build; finish) begun with
        | (.error e, s) => (.error e, s.files)
        | (.ok (), s) => (.ok s.report, s.files))
    (Temporary.discardFile path)

/-- **Writes one file into a new archive**, under its own name. -/
def compressFile (disk : Disk) (deflate : Encoder) (settings : CreationSettings) (source : Path)
    (requested : String) : Operation CreationReport := do
  let loc ← Effect.look fun fs => Access.readableFile fs source
  match loc.getLast? with
  | none => .fail (.invalidInput (.sourceUnnamed (Location.path loc)))
  | some name =>
    let heading : Heading :=
      ⟨Bytes.ofString (Utf8.decodeLossy name), methodOf deflate settings, Zip.fileMode⟩
    withArchive disk settings requested (addFile heading (Location.path loc))

/-- The names of the directories that a relative location stands in, outermost first. -/
def ancestorNames (relative : Location) : List Bytes :=
  ((List.range relative.length).drop 1).map fun n => Path.joined (relative.take n)

/-- Counts entries on top of those in the archive. -/
def checkCount (limits : Limits) : Effect Creation Unit :=
  .look fun s => limits.checkEntryCount (s.report.totalEntries + 1)

/-- Adds entries for the directories that have none. -/
def addAncestors (limits : Limits) : List Bytes → Effect Creation Unit
  | [] => pure ()
  | name :: rest => do
    let known ← Effect.look fun s => .ok (s.directories.contains name)
    if !known then
      checkCount limits
      addDirectory name
    addAncestors limits rest

/-- The warning about what is no regular file. -/
def skip (path : Path) : Effect Creation Unit := .modify fun s =>
  { s with report :=
    { s.report with
      filesSkipped := s.report.filesSkipped + 1
      warnings := s.report.warnings ++ ["skipped non-regular file: " ++ path.display] } }

/-- A directory that the walk finds is opened by its path, which must not be too long. -/
def checkOpened (path : Path) : Effect Creation Unit :=
  .ofExcept ((FileSystem.checkPath path).mapError .io)

/-- Adds what the walk of the tree at `root` has found, in order. -/
def addEach (limits : Limits) (method : Method) (root : Location) :
    List (Location × Node) → Effect Creation Unit
  | [] => pure ()
  | (relative, node) :: rest => do
    let path := Location.path (root ++ relative)
    match node with
    | .directory => checkOpened path
    | .file _ =>
      if relative.all fun name => (Utf8.decode? name).isSome then
        addAncestors limits (ancestorNames relative)
        checkCount limits
        addFile ⟨Path.joined relative, method, Zip.fileMode⟩ path
      else .fail (.invalidInput (.nameNotText path))
    | _ => skip path
    addEach limits method root rest

/-- **Writes a directory tree into a new archive.** -/
def compressDirectory (disk : Disk) (deflate : Encoder) (limits : Limits)
    (settings : CreationSettings) (source : Path) (requested : String) :
    Operation CreationReport := do
  let root ← Effect.look fun fs => Access.readableDirectory fs source
  withArchive disk settings requested fun s =>
    addEach limits (methodOf deflate settings) root (s.files.depthFirst root) s

end Creation

end GuardedArchive
