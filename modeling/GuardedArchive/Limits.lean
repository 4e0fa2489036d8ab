import GuardedArchive.Error.Basic
import GuardedArchive.Text.Blank

/-!
# Limits — the bounds of an extraction and the settings of a creation

`Limits` bounds how many entries an archive may hold, how large and how densely packed each may be,
how much they may hold together, and how long their names may be.  `CreationSettings` says how
archives are written.  Each has a check that it can be used at all.
-/

namespace GuardedArchive

/-- The bounds within which an archive is read and extracted. -/
structure Limits where
  maxEntryCount : Nat := 10000
  maxEntrySize : Nat := 536870912
  maxCompressionRatio : Binary64 := ⟨0x4059000000000000⟩
  maxTotalSize : Nat := 1073741824
  maxEntryNameLength : Nat := 4096
deriving DecidableEq, Repr

namespace Limits

/-- Limits that admit something: a count, a length and a finite ratio above zero. -/
def check (limits : Limits) : Except ArchiveError Unit :=
  if limits.maxEntryCount = 0 then .error (.invalidInput .noEntriesAllowed)
  else if limits.maxEntryNameLength = 0 then .error (.invalidInput .noNamesAllowed)
  else if limits.maxCompressionRatio.isFinite && 0 < limits.maxCompressionRatio.rank then .ok ()
  else .error (.invalidInput (.ratioNotPositive limits.maxCompressionRatio))

/-- **The entry count bound.** -/
def checkEntryCount (limits : Limits) (count : Nat) : Except ArchiveError Unit :=
  if limits.maxEntryCount < count then .error (.violation (.entryCount count limits.maxEntryCount))
  else .ok ()

/-- **The bound on the octets of all entries together.** -/
def checkTotalSize (limits : Limits) (total : Nat) : Except ArchiveError Unit :=
  if limits.maxTotalSize < total then .error (.violation (.totalSize total limits.maxTotalSize))
  else .ok ()

/-- **The bound on the octets of one entry**, by the octets read so far. -/
def checkEntrySize (limits : Limits) (name : String) (size : Nat) : Except ArchiveError Unit :=
  if limits.maxEntrySize < size then
    .error (.violation (.entrySize name size limits.maxEntrySize))
  else .ok ()

/-- **The bound on the ratio** of the size of an entry to its compressed size.  An entry that takes
no room has no ratio. -/
def checkCompressionRatio (limits : Limits) (name : String) (compressed uncompressed : Nat) :
    Except ArchiveError Unit :=
  if compressed = 0 then .ok ()
  else
    let ratio := Binary64.quotient uncompressed compressed
    if limits.maxCompressionRatio.lt ratio then
      .error (.violation (.compressionRatio name compressed uncompressed ratio))
    else .ok ()

theorem checkEntryCount_eq_ok_iff {limits : Limits} {count : Nat} :
    limits.checkEntryCount count = .ok () ↔ count ≤ limits.maxEntryCount := by
  rw [checkEntryCount, ← Nat.not_lt]
  split <;> simp_all

theorem checkTotalSize_eq_ok_iff {limits : Limits} {total : Nat} :
    limits.checkTotalSize total = .ok () ↔ total ≤ limits.maxTotalSize := by
  rw [checkTotalSize, ← Nat.not_lt]
  split <;> simp_all

end Limits

/-- How archives are written. -/
structure CreationSettings where
  compressionLevel : Option Nat := some 6
  defaultArchiveName : String := "archive.zip"
  temporaryPrefix : String := "zipshield-"
deriving DecidableEq, Repr

/-- Settings that can be used: a known level and a default name that is not blank. -/
def CreationSettings.check (settings : CreationSettings) : Except ArchiveError Unit :=
  match settings.compressionLevel.filter (9 < ·) with
  | some level => .error (.invalidInput (.levelTooHigh level))
  | none =>
    if Text.allBlank settings.defaultArchiveName then .error (.invalidInput .blankDefaultName)
    else .ok ()

end GuardedArchive
