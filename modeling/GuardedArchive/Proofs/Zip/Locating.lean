import GuardedArchive.Proofs.Zip.Scanning

/-!
# Proofs/Zip/Locating — where the directory of an archive is found

The scan goes by the last mark of an end record among the octets that it searches, and takes the
directory that this record, or the wide one it leads to, tells of (`locate_eq`).  What is found lies
within the archive (`locate_le`), so the scan is the walk of its octets (`scan_eq`).  Where an end
record is the last, it is the one that is found, unless its comment is too long for any
(`locate_append`).
-/

namespace GuardedArchive.Zip

variable {limits : Limits} {medium : Medium} {archive front : Bytes} {extent : Extent}
  {position : Nat} {e : EndRecord}

/-! ## The end record that is found -/

/-- The first octet of an archive that is searched for the mark of an end record. -/
def searchStart (archive : Bytes) : Nat := archive.length - (endLength + maxCommentLength)

/-- Where the last mark of an end record stands, with room for one from there on. -/
def lastEnd? (archive : Bytes) : Option Nat :=
  lastMark endMark (archive.length - endLength + 1) (searchStart archive)
    (archive.drop (searchStart archive)) none

/-- **The directory is the one that the last end record tells of.** -/
theorem locate_eq (medium : Medium) (archive : Bytes) : locate medium archive
    = if archive.length < endLength then .error (.invalidArchive .tooShort)
      else match lastEnd? archive with
        | none => .error (.invalidArchive .endRecordMissing)
        | some position => Classic.locateAt medium archive position := by
  by_cases hshort : archive.length < endLength
  · rw [if_pos hshort, locate, if_pos hshort]
    rfl
  · rw [if_neg hshort]
    cases hfound : lastEnd? archive <;>
    · rw [lastEnd?, searchStart] at hfound
      rw [locate]
      simp only [hshort, if_false, hfound]
      rfl

/-- The last mark among the octets searched has none behind it. -/
theorem lastEnd?_eq_some (h : lastEnd? archive = some position) :
    searchStart archive ≤ position ∧ position < archive.length - endLength + 1
      ∧ startsWith endMark (archive.drop position)
      ∧ ∀ later, position < later → later < archive.length - endLength + 1 →
        ¬startsWith endMark (archive.drop later) := by
  rw [lastEnd?] at h
  rcases lastMark_spec endMark (archive.length - endLength + 1)
    (archive.drop (searchStart archive)) (searchStart archive) none
    with ⟨i, hfound, hi, hlast⟩ | ⟨hfound, -⟩
  · obtain rfl := Option.some.inj (hfound.symm.trans h)
    obtain ⟨hbound, hmark⟩ := hi
    rw [List.drop_drop] at hmark
    refine ⟨Nat.le_add_right _ _, hbound, hmark, fun later hlater hroom hat => ?_⟩
    obtain ⟨j, rfl⟩ := Nat.exists_eq_add_of_le (Nat.le_trans (Nat.le_add_right _ i)
      (Nat.le_of_lt hlater))
    exact hlast j (Nat.lt_of_add_lt_add_left hlater) ⟨hroom, by rwa [List.drop_drop]⟩
  · rw [hfound] at h
    cases h

theorem lastEnd?_eq_none_iff : lastEnd? archive = none
    ↔ ∀ position, searchStart archive ≤ position → position < archive.length - endLength + 1 →
      ¬startsWith endMark (archive.drop position) := by
  constructor
  · intro h position hstart hroom hat
    obtain ⟨i, rfl⟩ := Nat.exists_eq_add_of_le hstart
    have hhere : MarkAt endMark (archive.length - endLength + 1) (searchStart archive)
        (archive.drop (searchStart archive)) i := ⟨hroom, by rwa [List.drop_drop]⟩
    obtain ⟨k, -, hk, -⟩ := exists_lastMark hhere none
    rw [lastEnd?, hk] at h
    cases h
  · intro h
    by_contra hne
    obtain ⟨position, hsome⟩ := Option.ne_none_iff_exists'.mp hne
    obtain ⟨hstart, hroom, hmark, -⟩ := lastEnd?_eq_some hsome
    exact h position hstart hroom hmark

theorem lastEnd?_eq_some_iff : lastEnd? archive = some position
    ↔ searchStart archive ≤ position ∧ position < archive.length - endLength + 1
      ∧ startsWith endMark (archive.drop position)
      ∧ ∀ later, position < later → later < archive.length - endLength + 1 →
        ¬startsWith endMark (archive.drop later) := by
  refine ⟨lastEnd?_eq_some, fun ⟨hstart, hroom, hmark, hlast⟩ => ?_⟩
  have hne : lastEnd? archive ≠ none := fun hnone =>
    lastEnd?_eq_none_iff.mp hnone position hstart hroom hmark
  obtain ⟨found, hfound⟩ := Option.ne_none_iff_exists'.mp hne
  obtain ⟨-, hroom', hmark', hlast'⟩ := lastEnd?_eq_some hfound
  rcases Nat.lt_trichotomy position found with hlt | rfl | hlt
  · exact absurd hmark' (hlast found hlt hroom')
  · exact hfound
  · exact absurd hmark (hlast' position hlt hroom)

/-! ## An end record that is the last -/

namespace EndRecord

/-- No mark of an end record stands behind that of this one, with room for one from there on. -/
def IsLast (e : EndRecord) : Prop :=
  ∀ i, 0 < i → i ≤ e.comment.length → ¬startsWith endMark (e.encode.drop i)

theorem length_encode (e : EndRecord) : e.encode.length = endLength + e.comment.length := by
  simp only [encode, fields_cons, fields_nil, List.length_append, Bytes.length_ofNat,
    List.length_nil, endLength]

/-- The numbers of an end record, as its fields hold them. -/
theorem ofBytes_encode (front : Bytes) (e : EndRecord) :
    let record := ofBytes (Bytes.slice (front ++ e.encode) front.length endLength)
    record.entries = e.entries % 0x10000 ∧ record.size = e.size % 0x100000000
      ∧ record.offset = e.offset % 0x100000000 := by
  have hslice : Bytes.slice (front ++ e.encode) front.length endLength
      = fields [(4, endMark), (2, e.disk), (2, e.directoryDisk), (2, e.entriesHere),
        (2, e.entries), (4, e.size), (4, e.offset), (2, e.comment.length)] ++ [] := by
    rw [Bytes.slice, List.drop_left, List.append_nil]
    exact List.take_left' (by simp [endLength])
  rw [hslice]
  simp (disch := decide) only [ofBytes, field_later, field_first, Nat.reduceSub, Bytes.capacity,
    Nat.reduceMul, and_self]

end EndRecord

/-- **An end record that is the last is the one that is found**, unless its comment is too long for
any. -/
theorem lastEnd?_append (front : Bytes) (h : e.IsLast) : lastEnd? (front ++ e.encode)
    = if maxCommentLength < e.comment.length then none else some front.length := by
  have hlength : (front ++ e.encode).length = front.length + (endLength + e.comment.length) := by
    rw [List.length_append, EndRecord.length_encode]
  have hlater : ∀ later, front.length < later →
      later < (front ++ e.encode).length - endLength + 1 →
        ¬startsWith endMark ((front ++ e.encode).drop later) := fun later hlt hroom => by
    obtain ⟨i, rfl⟩ := Nat.exists_eq_add_of_lt hlt
    rw [Nat.add_assoc, ← List.drop_drop, List.drop_left]
    exact h (i + 1) (Nat.succ_pos i) (by rw [hlength] at hroom; omega)
  by_cases hlong : maxCommentLength < e.comment.length
  · rw [if_pos hlong, lastEnd?_eq_none_iff]
    refine fun position hstart hroom => hlater position (Nat.lt_of_lt_of_le ?_ hstart) hroom
    rw [searchStart, hlength]
    omega
  · rw [if_neg hlong, lastEnd?_eq_some_iff]
    refine ⟨by rw [searchStart, hlength]; omega, by rw [hlength]; omega, ?_, hlater⟩
    rw [List.drop_left]
    exact startsWith_fields _ _

/-- **The directory of an archive whose end record is the last** is the one that it tells of. -/
theorem locate_append (medium : Medium) (front : Bytes) (h : e.IsLast) :
    locate medium (front ++ e.encode) = if maxCommentLength < e.comment.length then
      .error (.invalidArchive .endRecordMissing)
      else Classic.locateAt medium (front ++ e.encode) front.length := by
  have hlong : ¬(front ++ e.encode).length < endLength := by
    rw [List.length_append, EndRecord.length_encode]
    omega
  rw [locate_eq, if_neg hlong, lastEnd?_append front h]
  by_cases hcomment : maxCommentLength < e.comment.length
  · rw [if_pos hcomment, if_pos hcomment]
  · rw [if_neg hcomment, if_neg hcomment]

/-! ## The directory that is found -/

/-- A directory that a wide record tells of stands in front of that record. -/
theorem locateWide_le (h : locateWide medium archive position = .ok extent) :
    extent.start + extent.size + wideLength ≤ archive.length := by
  rw [locateWide] at h
  split at h
  · cases h
  dsimp only at h
  split at h
  · cases h
  obtain ⟨-, -, h⟩ := bind_eq_ok_iff.mp h
  split at h
  · cases h
  next hlong =>
    split at h
    · cases h
    · rw [← (Classic.before_eq_ok h).1]
      rw [Bytes.slice, List.length_take, List.length_drop, wideLength] at hlong
      rw [wideLength]
      omega

theorem locateAt_le (hposition : position ≤ archive.length)
    (h : Classic.locateAt medium archive position = .ok extent) :
    extent.start + extent.size ≤ archive.length := by
  rw [Classic.locateAt] at h
  split at h
  next => exact (Classic.before_eq_ok h).1 ▸ hposition
  next => exact Nat.le_of_add_right_le (locateWide_le h)

/-- **A directory that is found lies within the archive.** -/
theorem locate_le (h : locate medium archive = .ok extent) :
    extent.start + extent.size ≤ archive.length := by
  rw [locate_eq] at h
  split at h
  · cases h
  split at h
  · cases h
  next position hfound =>
    obtain ⟨-, hroom, -⟩ := lastEnd?_eq_some hfound
    exact locateAt_le (by rw [endLength] at *; omega) h

theorem length_octets_extent (h : extent.start + extent.size ≤ archive.length) :
    (extent.octets archive).length = extent.size := by
  rw [Extent.octets, Bytes.slice, List.length_take, List.length_drop]
  omega

/-- Every place in an archive can be looked for: a file on a disk is no longer than its offsets can
tell. -/
def Medium.Holds (medium : Medium) (archive : Bytes) : Prop :=
  ∀ offset ≤ archive.length, medium.seek offset = .ok ()

theorem Medium.holds_memory (archive : Bytes) : Medium.memory.Holds archive := fun _ _ => rfl

/-- **The scan is the walk of the directory that is found.** -/
theorem scan_eq (hmedium : medium.Holds archive) (h : locate medium archive = .ok extent) :
    scan limits medium archive
      = scanFrom limits (extent.octets archive).length (extent.octets archive) 0 [] := by
  have hstart := hmedium extent.start (Nat.le_trans (Nat.le_add_right _ _) (locate_le h))
  rw [scan, h]
  change (medium.seek extent.start >>= fun _ => _) = _
  rw [hstart]
  rfl

/-- Where no directory is found the scan fails alike. -/
theorem scan_eq_error {cause : ArchiveError} (h : locate medium archive = .error cause) :
    scan limits medium archive = .error cause := by
  rw [scan, h]
  rfl

end GuardedArchive.Zip
