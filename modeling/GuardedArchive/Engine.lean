import GuardedArchive.Creation.Archive
import GuardedArchive.Extraction.Atomic

/-!
# Engine — creating and extracting under one set of limits and settings

An engine exists only for limits and settings that can be used.  Everything it does, it does under
these.
-/

namespace GuardedArchive

/-- Limits and settings that were checked. -/
structure Engine where
  limits : Limits
  settings : CreationSettings
  limits_ok : limits.check = .ok ()
  settings_ok : settings.check = .ok ()

namespace Engine

/-- The engine for limits and settings, if they can be used. -/
def ofSettings (limits : Limits) (settings : CreationSettings) : Except ArchiveError Engine :=
  match hl : limits.check with
  | .error e => .error e
  | .ok () =>
    match hs : settings.check with
    | .error e => .error e
    | .ok () => .ok ⟨limits, settings, hl, hs⟩

def compressFile (engine : Engine) (source : Path) (name : String)
    (deflate : Zip.Encoder := .plain) (disk : Creation.Disk := .faultless) :
    Operation CreationReport :=
  Creation.compressFile disk deflate engine.settings source name

def compressDirectory (engine : Engine) (source : Path) (name : String)
    (deflate : Zip.Encoder := .plain) (disk : Creation.Disk := .faultless) :
    Operation CreationReport :=
  Creation.compressDirectory disk deflate engine.limits engine.settings source name

def extract (engine : Engine) (archive target : Path) : Operation ExtractionReport :=
  Extraction.extract engine.limits archive target

def extractAtomic (engine : Engine) (archive target : Path) : Operation ExtractionReport :=
  Extraction.extractAtomic engine.limits archive target

def extractTemporary (engine : Engine) (archive : Path) : Operation ExtractionReport :=
  Extraction.extractTemporary engine.limits engine.settings.temporaryPrefix archive

def list (engine : Engine) (archive : Path) (fs : FileSystem) :
    Except ArchiveError (List EntryDescriptor) :=
  Extraction.list engine.limits archive fs

end Engine

end GuardedArchive
