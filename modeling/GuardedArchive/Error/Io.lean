import GuardedArchive.Path.Basic

/-!
# Error/Io — why reading or writing fails

A `SystemError` is what the operating system answers, with its number and text.  An `IoError` is any
failure to read or write: one of those, a path the system is never asked about, or content that ends
early, does not decode or contradicts itself.
-/

namespace GuardedArchive

/-- A failure that the operating system reports. -/
inductive SystemError
  | noEntry
  | noReader
  | exists
  | notDirectory
  | isDirectory
  | invalidArgument
  | nameTooLong
  | notEmpty
  | linkLoop
deriving DecidableEq, Repr

namespace SystemError

/-- The system's number for the failure. -/
def number : SystemError → Nat
  | noEntry => 2
  | noReader => 6
  | .exists => 17
  | notDirectory => 20
  | isDirectory => 21
  | invalidArgument => 22
  | nameTooLong => 36
  | notEmpty => 39
  | linkLoop => 40

/-- The system's words for the failure. -/
def text : SystemError → String
  | noEntry => "No such file or directory"
  | noReader => "No such device or address"
  | .exists => "File exists"
  | notDirectory => "Not a directory"
  | isDirectory => "Is a directory"
  | invalidArgument => "Invalid argument"
  | nameTooLong => "File name too long"
  | notEmpty => "Directory not empty"
  | linkLoop => "Too many levels of symbolic links"

end SystemError

/-- A failure to read or write. -/
inductive IoError
  | system (cause : SystemError)
  | zeroOctetInPath
  | unexpectedEnd
  | byteCountOverflow
  | checksumMismatch
  | corruptDeflate
  | incompleteDeflate
  | timestampLength (length : Nat) (flags : UInt8)
  | treeNotCreated
  | linkCycle (link ancestor : Path)
  | entryTooLarge
  | notCanonical (path : Path) (cause : IoError)
  | other (text : String)
deriving DecidableEq, Repr

namespace IoError

/-- The eight bits of an octet as digits. -/
def bitText (b : UInt8) : String :=
  String.ofList ((Bytes.bitsOf b).map fun bit => if bit then '1' else '0')

/-- The failure in words. -/
def message : IoError → String
  | system e => s!"{e.text} (os error {e.number})"
  | zeroOctetInPath => "file name contained an unexpected NUL byte"
  | unexpectedEnd => "failed to fill whole buffer"
  | byteCountOverflow => "byte count overflow"
  | checksumMismatch => "Invalid checksum"
  | corruptDeflate => "corrupt deflate stream"
  | incompleteDeflate => "incomplete deflate stream"
  | timestampLength length flags =>
    s!"flags and len don't match in extended timestamp field len={length} flags={bitText flags}"
  | treeNotCreated => "failed to create whole tree"
  | linkCycle link ancestor =>
    s!"File system loop found: {link.display} points to an ancestor {ancestor.display}"
  | entryTooLarge => "Large file option has not been set"
  | notCanonical path cause =>
    s!"failed to canonicalize path {path.display}: {cause.message}"
  | other text => text

end IoError

end GuardedArchive
