import GuardedArchive.Decimal.Text
import GuardedArchive.Path.Basic

/-!
# Error/Violation — the safety bounds an archive or a path can break

Each violation carries what broke the bound, and `Violation.message` puts it into words.
-/

namespace GuardedArchive

/-- A safety bound that was broken. -/
inductive Violation
  | emptyName
  | nameTooLong (length max : Nat)
  | controlCharacter (name : String)
  | pathTraversal (path : Path)
  | absolutePath (name : String)
  | linkMarker (name : String)
  | linkEntry (name : String)
  | linkPath (path : Path)
  | unknownSize (name : String)
  | entrySize (name : String) (size max : Nat)
  | compressionRatio (name : String) (compressed uncompressed : Nat) (ratio : Binary64)
  | entryCount (current max : Nat)
  | totalSize (current max : Nat)
  | duplicateEntry (name : String)
deriving DecidableEq, Repr

/-- The violation in words. -/
def Violation.message : Violation → String
  | emptyName => "entry name is empty"
  | nameTooLong length max => s!"entry name too long ({length} > {max} bytes)"
  | controlCharacter name => s!"entry name contains control characters: {name}"
  | pathTraversal path => s!"path traversal detected: {path.display}"
  | absolutePath name => s!"absolute path not allowed: {name}"
  | linkMarker name => s!"entry name contains symbolic link marker: {name}"
  | linkEntry name => s!"symbolic link entries are not allowed: {name}"
  | linkPath path => s!"symbolic links are not allowed: {path.display}"
  | unknownSize name => s!"unknown size for entry: {name}"
  | entrySize name size max => s!"entry size too large: {name} ({size} > {max} bytes)"
  | compressionRatio name compressed uncompressed ratio =>
    s!"compression ratio too high for {name}: compressed={compressed} bytes, "
      ++ s!"uncompressed={uncompressed} bytes (ratio: {ratio.twoPlaces}), potential zip bomb"
  | entryCount current max => s!"too many entries ({current} > {max}), potential zip bomb"
  | totalSize current max =>
    s!"total decompressed size too large ({current} > {max} bytes), potential zip bomb"
  | duplicateEntry name => s!"duplicate entry: {name}"

end GuardedArchive
