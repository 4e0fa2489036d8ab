import GuardedArchive.Error.Basic

/-!
# Extraction/Tally — what one extraction has counted so far

Entries, octets and the names that were placed.  Both counts fit 64 bits: the entries stop at the
largest number, and octets that do not fit are an error.
-/

namespace GuardedArchive

/-- The counts of one extraction; a name stands in `names` once. -/
structure Tally where
  entries : Nat := 0
  octets : Nat := 0
  names : List String := []
deriving DecidableEq, Repr

namespace Tally

/-- Counts one more entry. -/
def recordEntry (t : Tally) : Tally := { t with entries := min (t.entries + 1) Bytes.maxCount }

/-- Counts more octets. -/
def addOctets (t : Tally) (n : Nat) : Except ArchiveError Tally :=
  if Bytes.maxCount < t.octets + n then .error (.io .byteCountOverflow)
  else .ok { t with octets := t.octets + n }

/-- Notes a name. -/
def insertName (t : Tally) (name : String) : Tally :=
  if t.names.contains name then t else { t with names := name :: t.names }

end Tally

end GuardedArchive
