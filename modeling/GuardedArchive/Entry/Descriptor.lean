import GuardedArchive.Limits

/-!
# Entry/Descriptor — what an archive declares of an entry

The declared facts are judged before any content is read: the size must be known and within bounds,
the ratio of the sizes too, and the mode must not be that of a link.
-/

namespace GuardedArchive

/-- What an archive declares of one entry; an absent size is unknown. -/
structure EntryDescriptor where
  name : String
  isDirectory : Bool := false
  declaredSize : Option Nat := none
  compressedSize : Nat
  unixMode : Option Nat := none
deriving DecidableEq, Repr

namespace EntryDescriptor

/-- The mode has the file type of a symbolic link. -/
def isLink (entry : EntryDescriptor) : Bool :=
  entry.unixMode.any fun mode => mode / 0o10000 % 16 == 0o12

/-- **The size check** on what is declared: known, within the bound, and not too densely packed. -/
def checkSize (limits : Limits) (entry : EntryDescriptor) : Except ArchiveError Unit :=
  match entry.declaredSize with
  | none => .error (.violation (.unknownSize entry.name))
  | some size =>
    if limits.maxEntrySize < size then
      .error (.violation (.entrySize entry.name size limits.maxEntrySize))
    else limits.checkCompressionRatio entry.name entry.compressedSize size

/-- **The link check**: no entry that declares itself a link passes. -/
def checkNotLink (entry : EntryDescriptor) : Except ArchiveError Unit :=
  if entry.isLink then .error (.violation (.linkEntry entry.name)) else .ok ()

end EntryDescriptor

end GuardedArchive
