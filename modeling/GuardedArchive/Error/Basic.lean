import GuardedArchive.Error.Io
import GuardedArchive.Error.Violation

/-!
# Error/Basic — how creating or extracting an archive fails

An error is a failure to read or write, a fault of the archive, a fault of the caller's input, or a
broken safety bound.
-/

namespace GuardedArchive

/-- What is wrong with an archive. -/
inductive ArchiveFault
  | tooShort
  | endRecordMissing
  | sizeExceedsPosition
  | locatorMissing
  | wideRecordMissing
  | directoryTruncated
  | countMismatch (records entries : Nat)
  | malformed (detail : String)
  | unsupported (detail : String)
  | entryMissing
  | wrongPassword
  | other (text : String)
deriving DecidableEq, Repr

/-- The fault in words. -/
def ArchiveFault.message : ArchiveFault → String
  | tooShort => "archive is too short for an end of central directory record"
  | endRecordMissing => "end of central directory record not found"
  | sizeExceedsPosition => "central directory size exceeds its position"
  | locatorMissing => "zip64 locator not found"
  | wideRecordMissing => "zip64 end of central directory record not found"
  | directoryTruncated => "central directory is truncated"
  | countMismatch records entries =>
    s!"central directory holds {records} records but {entries} distinct entries"
  | malformed detail => s!"invalid Zip archive: {detail}"
  | unsupported detail => s!"unsupported Zip archive: {detail}"
  | entryMissing => "specified file not found in archive"
  | wrongPassword => "provided password is incorrect"
  | other text => text

/-- What is wrong with what the caller gave. -/
inductive InputFault
  | noEntriesAllowed
  | noNamesAllowed
  | ratioNotPositive (ratio : Binary64)
  | levelTooHigh (level : Nat)
  | blankDefaultName
  | pathMissing (path : Path)
  | notRegularFile (path : Path)
  | notDirectory (path : Path)
  | targetNotDirectory (path : Path)
  | targetNotEmpty (path : Path)
  | targetUnnamed (path : Path)
  | sourceUnnamed (path : Path)
  | nameNotText (path : Path)
  | other (text : String)
deriving DecidableEq, Repr

/-- The fault in words. -/
def InputFault.message : InputFault → String
  | noEntriesAllowed => "max_entry_count must be positive"
  | noNamesAllowed => "max_entry_name_length must be positive"
  | ratioNotPositive ratio =>
    s!"max_compression_ratio must be a positive number, got {ratio.shortest}"
  | levelTooHigh level => s!"compression level must be 0-9, got {level}"
  | blankDefaultName => "default archive name must not be blank"
  | pathMissing path => s!"path does not exist: {path.display}"
  | notRegularFile path => s!"not a regular file: {path.display}"
  | notDirectory path => s!"not a directory: {path.display}"
  | targetNotDirectory path => s!"atomic extraction target is not a directory: {path.display}"
  | targetNotEmpty path => s!"atomic extraction target is not empty: {path.display}"
  | targetUnnamed path => s!"atomic extraction target has no final component: {path.display}"
  | sourceUnnamed path => s!"source has no file name: {path.display}"
  | nameNotText path => s!"path is not valid UTF-8: {path.display}"
  | other text => text

/-- How creating or extracting an archive fails. -/
inductive ArchiveError
  | io (cause : IoError)
  | invalidArchive (fault : ArchiveFault)
  | invalidInput (fault : InputFault)
  | violation (bound : Violation)
deriving DecidableEq, Repr

namespace ArchiveError

/-- The error in words. -/
def message : ArchiveError → String
  | io cause => s!"I/O error: {cause.message}"
  | invalidArchive fault => s!"invalid archive: {fault.message}"
  | invalidInput fault => s!"invalid input: {fault.message}"
  | violation bound => s!"security violation: {bound.message}"

/-- The error of a failure that the operating system reports. -/
def system (cause : SystemError) : ArchiveError := io (.system cause)

def isViolation : ArchiveError → Bool
  | violation _ => true
  | _ => false

def isInvalidInput : ArchiveError → Bool
  | invalidInput _ => true
  | _ => false

end ArchiveError

end GuardedArchive
