import GuardedArchive.Extraction.Entry
import GuardedArchive.Zip.Archive

/-!
# Extraction/Archive — extracting all entries of an archive, and listing them

Entries are placed in order, and the first that cannot be placed ends the extraction; what was
placed before it stays.  Listing opens the archive by the same rules and touches nothing.
-/

namespace GuardedArchive

/-- What an extraction did. -/
structure ExtractionReport where
  target : Path
  entriesProcessed : Nat
  filesExtracted : Nat
  directoriesCreated : Nat
  bytesWritten : Nat
deriving DecidableEq, Repr

/-- Everything that was placed. -/
def ExtractionReport.totalItems (r : ExtractionReport) : Nat :=
  r.filesExtracted + r.directoriesCreated

namespace Extraction

open Zip (Archive Entry Source)

variable {ι : Type}

/-- Counts one more entry and checks their number. -/
def countEntry (limits : Limits) : Effect Extraction Unit := do
  .modify fun s => { s with tally := s.tally.recordEntry }
  .look fun s => limits.checkEntryCount s.tally.entries

/-- **Places the entries in order**; each is opened when its turn comes. -/
def extractEach (limits : Limits) (dest : Destination)
    (openEntry : ι → FileSystem → Except ArchiveError Entry) : List ι → Effect Extraction Unit
  | [] => checkTotal limits
  | item :: rest => do
    countEntry limits
    let entry ← Effect.look fun s => openEntry item s.files
    .modify fun s => { s with reader := entry.reads }
    extractEntry limits dest entry.descriptor
    extractEach limits dest openEntry rest

/-- What an extraction has done. -/
def report (dest : Destination) (s : Extraction) : ExtractionReport where
  target := dest.path
  entriesProcessed := s.tally.entries
  filesExtracted := s.filesExtracted
  directoriesCreated := s.directoriesCreated
  bytesWritten := s.tally.octets

/-- Places entries into the destination, from the start. -/
def run (limits : Limits) (dest : Destination)
    (openEntry : ι → FileSystem → Except ArchiveError Entry) (items : List ι) :
    Operation ExtractionReport := fun fs =>
  match extractEach limits dest openEntry items { files := fs } with
  | (.ok (), s) => (.ok (s.report dest), s.files)
  | (.error e, s) => (.error e, s.files)

/-- **Extracts an archive** from where it is read. -/
def ofSource (limits : Limits) (dest : Destination) (source : Source) :
    Operation ExtractionReport := do
  let archive ← Effect.look (Archive.load limits source)
  run limits dest archive.openEntry archive.records

/-- **Extracts an archive file** into a directory. -/
def extract (limits : Limits) (archive target : Path) : Operation ExtractionReport := do
  let file ← Effect.look fun fs => Access.readableFile fs archive
  let dest ← Destination.ofPath target
  ofSource limits dest (.disk file)

/-- Describes the entries in order. -/
def listEach (limits : Limits) (describe : ι → Except ArchiveError EntryDescriptor) :
    Nat → List ι → Except ArchiveError (List EntryDescriptor)
  | _, [] => .ok []
  | count, item :: rest => do
    limits.checkEntryCount (count + 1)
    let entry ← describe item
    let others ← listEach limits describe (count + 1) rest
    return entry :: others

/-- **Lists the entries of an archive file.** -/
def list (limits : Limits) (archive : Path) (fs : FileSystem) :
    Except ArchiveError (List EntryDescriptor) := do
  let file ← Access.readableFile fs archive
  let archive ← Archive.load limits (.disk file) fs
  listEach limits (archive.describeEntry · fs) 0 archive.records

end Extraction

end GuardedArchive
