import GuardedArchive.Proofs.Zip.Walking

/-!
# Proofs/Zip/Machine — the scan on numbers of eight octets and buffers of their length

    locate, turn … turn        with every sum, difference and index checked

Numbers of naturals and slices of lists never fail; those of a machine may.  Here the scan is taken
in the steps of a machine: the end record is searched in a buffer from behind, each sum is one of
eight octets, each field is read at an index of a buffer, and the loop over the records reads from
what is left of the directory and counts what it consumes.  **No step faults, and the answer is that
of the scan** (`scan_faultless`), whatever the archive holds.
-/

namespace GuardedArchive.Zip.Machine

/-- How a step of a machine can go wrong: an index outside of a buffer, a sum that eight octets do
not hold, a difference below zero. -/
inductive Fault
  | outside
  | overflow
  | underflow
deriving DecidableEq, Repr

/-- The sum of two numbers of eight octets. -/
def add (a b : Nat) : Except Fault Nat :=
  if Bytes.maxCount < a + b then .error .overflow else .ok (a + b)

/-- The difference of two numbers. -/
def sub (a b : Nat) : Except Fault Nat := if a < b then .error .underflow else .ok (a - b)

/-- The number in the field of `width` octets at an index of a buffer. -/
def fieldAt (buffer : Bytes) (offset width : Nat) : Except Fault Nat := do
  let stop ← add offset width
  if buffer.length < stop then .error .outside else .ok (Bytes.field buffer offset width)

/-- The last index below a bound of a mark in a buffer, looked for from behind. -/
def findMark (mark : Nat) (buffer : Bytes) : (bound : Nat) → Except Fault (Option Nat)
  | 0 => return none
  | index + 1 => do
    let found ← fieldAt buffer index 4
    if found = mark then return some index else findMark mark buffer index

/-- The directory in front of the wide end record at `offset`. -/
def wideExtent (archive : Bytes) (offset : Nat) : Except Fault (Except ArchiveError Extent) := do
  let record := Bytes.slice archive offset wideLength
  if record.length < wideLength then return .error (.io .unexpectedEnd)
  let mark ← fieldAt record 0 4
  if mark ≠ wideMark then return .error (.invalidArchive .wideRecordMissing)
  let size ← fieldAt record 40 8
  return Extent.before offset size

/-- The directory that the wide end record bounds, for an end record at `position`. -/
def locateWide (archive : Bytes) (position : Nat) :
    Except Fault (Except ArchiveError Extent) := do
  if position < locatorLength then return .error (.invalidArchive .locatorMissing)
  let start ← sub position locatorLength
  let locator := Bytes.slice archive start locatorLength
  if locator.length < locatorLength then return .error (.io .unexpectedEnd)
  let mark ← fieldAt locator 0 4
  if mark ≠ locatorMark then return .error (.invalidArchive .locatorMissing)
  let offset ← fieldAt locator 8 8
  wideExtent archive offset

/-- The directory of an archive in memory. -/
def locate (archive : Bytes) : Except Fault (Except ArchiveError Extent) := do
  if archive.length < endLength then return .error (.invalidArchive .tooShort)
  let searched ← add endLength maxCommentLength
  let start ← sub archive.length (min archive.length searched)
  let tail := Bytes.slice archive start (min archive.length searched)
  match ← findMark endMark tail (tail.length - endLength + 1) with
  | none => return .error (.invalidArchive .endRecordMissing)
  | some found =>
    let position ← add start found
    let entries ← fieldAt tail (← add found 10) 2
    let size ← fieldAt tail (← add found 12) 4
    let offset ← fieldAt tail (← add found 16) 4
    if entries ≠ 0xffff ∧ size ≠ 0xffffffff ∧ offset ≠ 0xffffffff then
      return Extent.before position size
    else locateWide archive position

/-- The loop between two records: what the reader has left of the directory, how many octets were
consumed, how many records were counted, and the names that are held. -/
structure Loop where
  left : Bytes
  consumed : Nat := 0
  count : Nat := 0
  names : List Bytes := []

/-- What a turn of the loop comes to. -/
inductive Turn
  | next (s : Loop)
  | done (answer : Except ArchiveError Nat)

/-- What a turn makes of the record with this fixed part, the last of `count`, at the front of what
is left. -/
def takeRecord (limits : Limits) (s : Loop) (count : Nat) (header : Bytes) :
    Except Fault Turn := do
  let nameLength ← fieldAt header 28 2
  let extraLength ← fieldAt header 30 2
  let commentLength ← fieldAt header 32 2
  let name := Bytes.slice s.left directoryLength nameLength
  if name.length < nameLength then
    return .done (.error (.invalidArchive .directoryTruncated))
  let skip ← add extraLength commentLength
  let skipped := Bytes.slice s.left (directoryLength + nameLength) skip
  if skipped.length ≠ skip then return .done (.error (.invalidArchive .directoryTruncated))
  let taken ← add (← add directoryLength nameLength) skip
  let consumed ← add s.consumed taken
  let left := s.left.drop (directoryLength + nameLength + skip)
  if limits.maxEntryNameLength < nameLength then return .next ⟨left, consumed, count, s.names⟩
  else if s.names.contains name then
    return .done (.error (.violation (.duplicateEntry (Utf8.decodeLossy name))))
  else return .next ⟨left, consumed, count, name :: s.names⟩

/-- **One turn of the loop** over a directory of `size` octets. -/
def turn (limits : Limits) (size : Nat) (s : Loop) : Except Fault Turn := do
  let needed ← add s.consumed directoryLength
  if size < needed then return .done (.ok s.count)
  let header := s.left.take directoryLength
  if header.length < directoryLength then
    return .done (.error (.invalidArchive .directoryTruncated))
  let mark ← fieldAt header 0 4
  if mark ≠ directoryMark then return .done (.ok s.count)
  let count ← add s.count 1
  match limits.checkEntryCount count with
  | .error e => return .done (.error e)
  | .ok () => takeRecord limits s count header

/-- So many turns of the loop lead from one state to another. -/
inductive Turns (limits : Limits) (size : Nat) : Nat → Loop → Loop → Prop
  | none (s : Loop) : Turns limits size 0 s s
  | cons {n : Nat} {s s' s'' : Loop} (first : turn limits size s = .ok (.next s'))
      (more : Turns limits size n s' s'') : Turns limits size (n + 1) s s''

variable {limits : Limits} {archive buffer directory : Bytes} {extent : Extent}
  {a b offset width mark position : Nat} {s s' : Loop}

/-! ## Steps that do not fault -/

theorem ok_bind {α β : Type} (x : α) (f : α → Except Fault β) : (Except.ok x >>= f) = f x := rfl

theorem add_eq (h : a + b ≤ Bytes.maxCount) : add a b = .ok (a + b) := if_neg (Nat.not_lt.mpr h)

theorem sub_eq (h : b ≤ a) : sub a b = .ok (a - b) := if_neg (Nat.not_lt.mpr h)

theorem fieldAt_eq (h : offset + width ≤ buffer.length) (hbuffer : buffer.length ≤ Bytes.maxCount) :
    fieldAt buffer offset width = .ok (Bytes.field buffer offset width) := by
  rw [fieldAt, add_eq (Nat.le_trans h hbuffer), ok_bind, if_neg (Nat.not_lt.mpr h)]

/-- A mark stands where the field of its width holds it. -/
theorem startsWith_iff_field {bs : Bytes} (mark : Nat) (hmark : mark < Bytes.capacity 4)
    (h : 4 ≤ bs.length) :
    startsWith mark bs ↔ Bytes.field bs 0 4 = mark := by
  have hfront : Bytes.slice bs 0 4 = bs.take 4 := rfl
  constructor
  · intro hs
    rw [Bytes.field, hfront, beq_iff_eq.mp hs, Bytes.toNat_ofNat 4 mark hmark]
  · rintro rfl
    rw [startsWith, ofNat_field (by omega), hfront]
    exact beq_self_eq_true _

/-- What is answered where a mark is missing, and otherwise goes on, does not fault if that does
not. -/
theorem mark_bind {α : Type} {bs : Bytes} {x y : α} {more : Except Fault α} (mark : Nat)
    (hmark : mark < Bytes.capacity 4) (h : 4 ≤ bs.length) (hbs : bs.length ≤ Bytes.maxCount)
    (hmore : startsWith mark bs → more = .ok y) :
    (fieldAt bs 0 4 >>= fun found => if found ≠ mark then pure x else more)
      = .ok (if !startsWith mark bs then x else y) := by
  have hiff := startsWith_iff_field mark hmark h
  rw [fieldAt_eq h hbs, ok_bind]
  by_cases hfound : startsWith mark bs
  · rw [if_neg (not_not.mpr (hiff.mp hfound)), if_neg (by simpa using hfound), hmore hfound]
  · rw [if_pos (mt hiff.mpr hfound), if_pos (by simpa using hfound)]
    rfl

/-! ## The directory that is found -/

/-- **The search from behind finds the last mark**, or that there is none. -/
theorem findMark_spec (hmark : mark < Bytes.capacity 4) (hbuffer : buffer.length ≤ Bytes.maxCount) :
    ∀ bound : Nat, bound + 3 ≤ buffer.length →
      (∃ i < bound, findMark mark buffer bound = .ok (some i) ∧ startsWith mark (buffer.drop i)
          ∧ ∀ j, i < j → j < bound → ¬startsWith mark (buffer.drop j))
        ∨ findMark mark buffer bound = .ok none
          ∧ ∀ j < bound, ¬startsWith mark (buffer.drop j) := by
  intro bound
  induction bound with
  | zero => exact fun _ => .inr ⟨rfl, fun j hj => absurd hj (Nat.not_lt_zero j)⟩
  | succ index ih =>
    intro hbound
    have hhere : startsWith mark (buffer.drop index) ↔ Bytes.field buffer index 4 = mark := by
      rw [startsWith_iff_field mark hmark (by rw [List.length_drop]; omega), field_drop,
        Nat.add_zero]
    rw [findMark, fieldAt_eq (by omega) hbuffer, ok_bind]
    by_cases hfound : Bytes.field buffer index 4 = mark
    · rw [if_pos hfound]
      exact .inl ⟨index, Nat.lt_succ_self _, rfl, hhere.mpr hfound, fun j hj hlt =>
        absurd (Nat.le_of_lt_succ hlt) (Nat.not_le.mpr hj)⟩
    have hnot := mt hhere.mp hfound
    rw [if_neg hfound]
    rcases ih (by omega) with ⟨i, hi, hfind, hat, hlater⟩ | ⟨hfind, hnone⟩
    · refine .inl ⟨i, Nat.lt_succ_of_lt hi, hfind, hat, fun j hj hlt => ?_⟩
      rcases Nat.lt_succ_iff_lt_or_eq.mp hlt with hlt | rfl
      · exact hlater j hj hlt
      · exact hnot
    · refine .inr ⟨hfind, fun j hlt => ?_⟩
      rcases Nat.lt_succ_iff_lt_or_eq.mp hlt with hlt | rfl
      · exact hnone j hlt
      · exact hnot

/-- In memory every offset can be looked for. -/
theorem locateWide_memory (archive : Bytes) (position : Nat) :
    Zip.locateWide .memory archive position
      = let locator := Bytes.slice archive (position - locatorLength) locatorLength
        let offset := (Locator.ofBytes locator).offset
        let record := Bytes.slice archive offset wideLength
        if position < locatorLength then .error (.invalidArchive .locatorMissing)
        else if !startsWith locatorMark locator then .error (.invalidArchive .locatorMissing)
        else if record.length < wideLength then .error (.io .unexpectedEnd)
        else if !startsWith wideMark record then .error (.invalidArchive .wideRecordMissing)
        else Extent.before offset (WideRecord.ofBytes record).size := by
  rw [Zip.locateWide]
  dsimp only
  split
  · rfl
  split
  · rfl
  change (if _ then _ else _) = _
  split
  · rfl
  split <;> rfl

/-- **The wide record is read without a fault**, wherever it is looked for. -/
theorem wideExtent_spec (archive : Bytes) (offset : Nat) :
    let record := Bytes.slice archive offset wideLength
    wideExtent archive offset = .ok (if record.length < wideLength then .error (.io .unexpectedEnd)
      else if !startsWith wideMark record then .error (.invalidArchive .wideRecordMissing)
      else Extent.before offset (WideRecord.ofBytes record).size) := by
  intro record
  have hshort : record.length ≤ wideLength := List.length_take_le _ _
  have hfits : record.length ≤ Bytes.maxCount := Nat.le_trans hshort (by decide)
  rw [wideExtent]
  by_cases hcut : record.length < wideLength
  · rw [if_pos hcut, if_pos hcut]
    rfl
  have hlong : wideLength ≤ record.length := Nat.not_lt.mp hcut
  rw [if_neg hcut, if_neg hcut]
  refine mark_bind wideMark (by decide) (Nat.le_trans (by decide) hlong) hfits fun _ => ?_
  rw [fieldAt_eq (Nat.le_trans (by decide) hlong) hfits]
  rfl

/-- **The wide record is looked for without a fault**, whatever its locator holds. -/
theorem locateWide_spec (hposition : position ≤ archive.length) :
    locateWide archive position = .ok (Zip.locateWide .memory archive position) := by
  rw [locateWide, locateWide_memory]
  by_cases hfront : position < locatorLength
  · rw [if_pos hfront]
    exact congrArg Except.ok (if_pos hfront).symm
  have hlocator : (Bytes.slice archive (position - locatorLength) locatorLength).length
      = 20 := length_slice (by omega)
  rw [if_neg hfront, sub_eq (Nat.not_lt.mp hfront), ok_bind]
  dsimp only
  rw [if_neg hfront]
  generalize Bytes.slice archive (position - locatorLength) locatorLength = locator at hlocator ⊢
  have hfits : locator.length ≤ Bytes.maxCount := hlocator ▸ by decide
  rw [if_neg (by rw [hlocator]; decide)]
  refine mark_bind locatorMark (by decide) (by omega) hfits fun _ => ?_
  rw [fieldAt_eq (by omega) hfits, ok_bind]
  exact wideExtent_spec archive _

/-- The tail of an archive that is searched for the mark of an end record. -/
theorem tail_eq (archive : Bytes) :
    archive.length - min archive.length (endLength + maxCommentLength) = searchStart archive
      ∧ Bytes.slice archive (searchStart archive)
        (min archive.length (endLength + maxCommentLength))
          = archive.drop (searchStart archive) := by
  refine ⟨by rw [searchStart]; omega, List.take_of_length_le ?_⟩
  rw [List.length_drop, searchStart]
  omega

/-- **The end record that is found in the tail is the last.** -/
theorem findMark_tail (hlength : archive.length ≤ Bytes.maxCount)
    (hlong : endLength ≤ archive.length) :
    let tail := archive.drop (searchStart archive)
    ∃ found, findMark endMark tail (tail.length - endLength + 1) = .ok found
      ∧ lastEnd? archive = found.map (searchStart archive + ·) := by
  intro tail
  have hsearched : searchStart archive + tail.length = archive.length := by
    rw [List.length_drop, searchStart]
    omega
  have hroom : endLength ≤ tail.length := by
    rw [List.length_drop, searchStart]
    omega
  have hdrop : ∀ i, tail.drop i = archive.drop (searchStart archive + i) := fun i =>
    List.drop_drop
  have hfits : tail.length ≤ Bytes.maxCount := by omega
  rcases findMark_spec (by decide : endMark < Bytes.capacity 4) hfits (tail.length - endLength + 1)
    (by rw [endLength] at *; omega) with ⟨i, hi, hfind, hat, hlater⟩ | ⟨hfind, hnone⟩
  · have hbound : searchStart archive + i < archive.length - endLength + 1 := by omega
    refine ⟨some i, hfind, lastEnd?_eq_some_iff.mpr ⟨Nat.le_add_right _ _, hbound, ?_, ?_⟩⟩
    · rwa [← hdrop]
    · intro later hlt hbound
      obtain ⟨j, rfl⟩ := Nat.exists_eq_add_of_le
        (Nat.le_trans (Nat.le_add_right _ i) (Nat.le_of_lt hlt))
      rw [← hdrop]
      exact hlater j (Nat.lt_of_add_lt_add_left hlt) (by omega)
  · refine ⟨none, hfind, lastEnd?_eq_none_iff.mpr fun position hstart hbound => ?_⟩
    obtain ⟨j, rfl⟩ := Nat.exists_eq_add_of_le hstart
    rw [← hdrop]
    exact hnone j (by omega)

/-- The fields of an end record in the tail are read as from its own octets. -/
theorem fieldAt_tail {i : Nat} (hlength : archive.length ≤ Bytes.maxCount)
    (hroom : searchStart archive + i + endLength ≤ archive.length)
    (h : offset + width ≤ endLength) :
    add i offset = .ok (i + offset)
      ∧ fieldAt (archive.drop (searchStart archive)) (i + offset) width
        = .ok (Bytes.field (Bytes.slice archive (searchStart archive + i) endLength) offset
          width) := by
  refine ⟨add_eq (by omega), ?_⟩
  rw [fieldAt_eq (by rw [List.length_drop]; omega) (by rw [List.length_drop]; omega), field_drop,
    field_slice h, Nat.add_assoc]

/-- **The directory is looked for without a fault**, and found where the scan finds it. -/
theorem locate_spec (hlength : archive.length ≤ Bytes.maxCount) :
    locate archive = .ok (Zip.locate .memory archive) := by
  obtain ⟨hstart, htail⟩ := tail_eq archive
  rw [locate, locate_eq]
  by_cases hshort : archive.length < endLength
  · rw [if_pos hshort, if_pos hshort]
    rfl
  obtain ⟨found, hfind, hlast⟩ := findMark_tail hlength (Nat.not_lt.mp hshort)
  rw [if_neg hshort, if_neg hshort, add_eq (by decide), ok_bind, sub_eq (Nat.min_le_left _ _),
    ok_bind, hstart]
  dsimp only
  rw [htail, hfind, ok_bind, hlast]
  rcases found with _ | i
  · rfl
  have hroom : searchStart archive + i + endLength ≤ archive.length := by
    have hbound : searchStart archive + i < archive.length - endLength + 1 :=
      (lastEnd?_eq_some hlast).2.1
    omega
  obtain ⟨hentries, hentries'⟩ := fieldAt_tail hlength hroom (by decide : 10 + 2 ≤ endLength)
  obtain ⟨hsize, hsize'⟩ := fieldAt_tail hlength hroom (by decide : 12 + 4 ≤ endLength)
  obtain ⟨hoffset, hoffset'⟩ := fieldAt_tail hlength hroom (by decide : 16 + 4 ≤ endLength)
  dsimp only [Option.map_some]
  rw [add_eq (by omega), ok_bind, hentries, ok_bind, hentries', ok_bind, hsize, ok_bind, hsize',
    ok_bind, hoffset, ok_bind, hoffset', ok_bind, Classic.locateAt, EndRecord.ofBytes]
  dsimp only
  split
  · rfl
  · exact locateWide_spec (by omega)

/-- There is room in eight octets for a record more than a directory that is found. -/
theorem size_add_le (hlength : archive.length ≤ Bytes.maxCount)
    (h : Zip.locate .memory archive = .ok extent) :
    extent.size + directoryLength ≤ Bytes.maxCount := by
  rw [locate_eq] at h
  split at h
  · cases h
  split at h
  · cases h
  rw [Classic.locateAt] at h
  split at h
  · rw [(Classic.before_eq_ok h).2]
    exact Nat.le_trans (Nat.add_le_add_right (Nat.le_of_lt (field_lt_capacity _ 12 4)) _)
      (by decide)
  · have hle := locateWide_le h
    rw [wideLength] at hle
    rw [directoryLength]
    omega

/-! ## One turn -/

/-- Between two records the reader has left what was not consumed, and each record that was counted
took its fixed part at least. -/
structure Loop.Sound (directory : Bytes) (s : Loop) : Prop where
  left : s.left = directory.drop s.consumed
  consumed_le : s.consumed ≤ directory.length
  count_le : s.count * directoryLength ≤ s.consumed

theorem Loop.Sound.length_left (h : s.Sound directory) :
    s.consumed + s.left.length = directory.length := by
  rw [h.left, List.length_drop, Nat.add_sub_cancel' h.consumed_le]

/-- The loop behind one record more. -/
def Loop.behind (s : Loop) (r : DirectoryRecord) (rest : Bytes) (names : List Bytes) : Loop :=
  ⟨rest, s.consumed + r.encode.length, s.count + 1, names⟩

theorem Loop.Sound.behind {r : DirectoryRecord} {rest : Bytes} (h : s.Sound directory)
    (hleft : s.left = r.encode ++ rest) (names : List Bytes) :
    (s.behind r rest names).Sound directory := by
  have hlength := h.length_left
  have hfixed : directoryLength ≤ r.encode.length :=
    r.length_encode ▸ Nat.le_add_right _ _
  have hcount := h.count_le
  rw [hleft, List.length_append] at hlength
  refine ⟨?_, ?_, ?_⟩
  · rw [Loop.behind, ← List.drop_drop, ← h.left, hleft, List.drop_left]
  · exact Nat.le_trans (Nat.add_le_add_left (Nat.le_add_right _ _) _) (Nat.le_of_eq hlength)
  · rw [Loop.behind, Nat.succ_mul]
    exact Nat.add_le_add hcount hfixed

/-- No more records are counted than there is room for. -/
theorem Loop.Sound.count_le_div (h : s.Sound directory) :
    s.count ≤ directory.length / directoryLength :=
  (Nat.le_div_iff_mul_le (by decide)).mpr (Nat.le_trans h.count_le h.consumed_le)

/-- Where there is room for one record more, its fixed part is read whole. -/
theorem Loop.Sound.room (h : s.Sound directory)
    (hroom : s.consumed + directoryLength ≤ directory.length) :
    (s.left.take directoryLength).length = directoryLength
      ∧ s.count + 1 ≤ directory.length / directoryLength := by
  have hleft := h.length_left
  have hcount := h.count_le
  refine ⟨by rw [List.length_take]; omega, (Nat.le_div_iff_mul_le (by decide)).mpr ?_⟩
  rw [Nat.succ_mul]
  omega

theorem fieldAt_header {left : Bytes} (hleft : directoryLength ≤ left.length)
    (h : offset + width ≤ directoryLength) :
    fieldAt (left.take directoryLength) offset width = .ok (Bytes.field left offset width) := by
  have hfront : left.take directoryLength = Bytes.slice left 0 directoryLength := rfl
  have hlength : (left.take directoryLength).length = directoryLength := by
    rw [List.length_take, Nat.min_eq_left hleft]
  rw [fieldAt_eq (by omega) (by rw [hlength]; decide), hfront, field_slice h, Nat.zero_add]

/-- **A record is taken without a fault.** -/
theorem takeRecord_encode {r : DirectoryRecord} {rest : Bytes} (hr : r.HasParts)
    (hleft : s.left = r.encode ++ rest) (hfits : s.consumed + r.encode.length ≤ Bytes.maxCount)
    (limits : Limits) : takeRecord limits s (s.count + 1) (s.left.take directoryLength)
      = .ok (if limits.maxEntryNameLength < r.name.length then .next (s.behind r rest s.names)
        else if s.names.contains r.name then
          .done (.error (.violation (.duplicateEntry (Utf8.decodeLossy r.name))))
        else .next (s.behind r rest (r.name :: s.names))) := by
  have hlength := r.length_encode
  have hlong : directoryLength ≤ s.left.length := by
    rw [hleft, List.length_append]
    omega
  obtain ⟨hname, hextra, hcomment⟩ := DirectoryRecord.lengths_encode hr rest
  have htake := r.slice_name rest
  rw [← hleft] at hname hextra hcomment htake
  have hskip : (Bytes.slice s.left (directoryLength + r.name.length)
      (r.extra.length + r.comment.length)).length = r.extra.length + r.comment.length :=
    length_slice (by rw [hleft, List.length_append]; omega)
  have hall : directoryLength + r.name.length + (r.extra.length + r.comment.length)
      = r.encode.length := by
    rw [hlength, Nat.add_assoc]
  rw [takeRecord, fieldAt_header hlong (by decide), fieldAt_header hlong (by decide),
    fieldAt_header hlong (by decide), hname, hextra, hcomment]
  simp only [ok_bind, htake, Nat.lt_irrefl, if_false]
  rw [add_eq (by omega), ok_bind, hskip, if_neg (not_not.mpr rfl), add_eq (by omega), ok_bind,
    add_eq (by omega), ok_bind, add_eq (by omega), ok_bind, hall, hleft, List.drop_left]
  split
  · rfl
  split <;> rfl

/-- **A record that is cut off is found to be.** -/
theorem takeRecord_cut (hcut : DirectoryRecord.next s.left = .cut) (limits : Limits) (count : Nat) :
    takeRecord limits s count (s.left.take directoryLength)
      = .ok (.done (.error (.invalidArchive .directoryTruncated))) := by
  obtain ⟨hlong, -, hshort⟩ := DirectoryRecord.next_eq_cut_iff.mp hcut
  have hextra := field_lt_capacity s.left 30 2
  have hcomment := field_lt_capacity s.left 32 2
  rw [DirectoryRecord.variableLength] at hshort
  rw [takeRecord, fieldAt_header hlong (by decide), fieldAt_header hlong (by decide),
    fieldAt_header hlong (by decide)]
  simp only [ok_bind]
  split
  · rfl
  next hname =>
    have hskip : Bytes.field s.left 30 2 + Bytes.field s.left 32 2 ≤ Bytes.maxCount :=
      Nat.le_trans (Nat.add_le_add (Nat.le_of_lt hextra) (Nat.le_of_lt hcomment)) (by decide)
    rw [Bytes.slice, List.length_take, List.length_drop] at hname
    rw [add_eq hskip, ok_bind, if_pos]
    · rfl
    rw [Bytes.slice, List.length_take, List.length_drop]
    omega

/-- A turn agrees with the scan: it takes one record, or ends with what the scan answers. -/
inductive Turn.Agrees (limits : Limits) (directory : Bytes) (s : Loop) : Turn → Prop
  | next {s' : Loop} (sound : s'.Sound directory) (count : s'.count = s.count + 1)
      (consumed : s.consumed + directoryLength ≤ s'.consumed)
      (scan : ∀ fuel, scanFrom limits (fuel + 1) s.left s.count s.names
        = scanFrom limits fuel s'.left s'.count s'.names) : Agrees limits directory s (.next s')
  | done {answer : Except ArchiveError Nat}
      (scan : ∀ fuel, scanFrom limits (fuel + 1) s.left s.count s.names = answer) :
      Agrees limits directory s (.done answer)

/-- The record that is taken is the one that the scan goes on behind. -/
theorem agrees_record {r : DirectoryRecord} {rest : Bytes} (h : s.Sound directory)
    (hnext : DirectoryRecord.next s.left = .record r rest)
    (hcheck : limits.checkEntryCount (s.count + 1) = .ok ()) :
    Turn.Agrees limits directory s
      (if limits.maxEntryNameLength < r.name.length then .next (s.behind r rest s.names)
        else if s.names.contains r.name then
          .done (.error (.violation (.duplicateEntry (Utf8.decodeLossy r.name))))
        else .next (s.behind r rest (r.name :: s.names))) := by
  obtain ⟨hleft, -⟩ := DirectoryRecord.eq_encode_of_next hnext
  have hfixed : s.consumed + directoryLength ≤ s.consumed + r.encode.length :=
    Nat.add_le_add_left (r.length_encode ▸ Nat.le_add_right _ _) _
  have hscan : ∀ fuel, scanFrom limits (fuel + 1) s.left s.count s.names
      = if limits.maxEntryNameLength < r.name.length then
          scanFrom limits fuel rest (s.count + 1) s.names
        else if s.names.contains r.name then
          .error (.violation (.duplicateEntry (Utf8.decodeLossy r.name)))
        else scanFrom limits fuel rest (s.count + 1) (r.name :: s.names) := fun fuel => by
    rw [scanFrom, hnext, hcheck]
    rfl
  split
  next hlong =>
    refine .next (h.behind hleft _) rfl hfixed fun fuel => ?_
    rw [hscan, if_pos hlong]
    rfl
  next hlong =>
    split
    next hseen => exact .done fun fuel => by rw [hscan, if_neg hlong, if_pos hseen]
    next hnew =>
      refine .next (h.behind hleft _) rfl hfixed fun fuel => ?_
      rw [hscan, if_neg hlong, if_neg hnew]
      rfl

/-- Where one record more is refused, the scan fails alike, whether the record is cut off or not. -/
theorem agrees_refused {cause : ArchiveError} (hlong : directoryLength ≤ s.left.length)
    (hmark : startsWith directoryMark s.left)
    (hcheck : limits.checkEntryCount (s.count + 1) = .error cause) :
    Turn.Agrees limits directory s (.done (.error cause)) := by
  refine .done fun fuel => ?_
  rw [scanFrom]
  cases hnext : DirectoryRecord.next s.left with
  | none =>
    exact (DirectoryRecord.next_eq_none_iff.mp hnext).elim
      (fun hshort => absurd hlong (Nat.not_le.mpr hshort)) fun hother => absurd hmark hother
  | cut =>
    rw [hcheck]
    rfl
  | record r rest =>
    rw [hcheck]
    rfl

/-- A turn where no record stands. -/
theorem turn_of_none (hsize : directory.length + directoryLength ≤ Bytes.maxCount)
    (h : s.Sound directory) (hnone : DirectoryRecord.next s.left = .none) :
    turn limits directory.length s = .ok (.done (.ok s.count)) := by
  have hleft := h.length_left
  rw [turn, add_eq (by omega), ok_bind]
  by_cases hroom : directory.length < s.consumed + directoryLength
  · exact if_pos hroom
  have hlong : directoryLength ≤ s.left.length := by omega
  have hother : ¬startsWith directoryMark s.left :=
    (DirectoryRecord.next_eq_none_iff.mp hnone).resolve_left (Nat.not_lt.mpr hlong)
  have hmark : startsWith directoryMark s.left ↔ Bytes.field s.left 0 4 = directoryMark :=
    startsWith_iff_field directoryMark (by decide) (Nat.le_trans (by decide) hlong)
  rw [if_neg hroom]
  dsimp only
  rw [if_neg (by rw [List.length_take]; omega), fieldAt_header hlong (by decide), ok_bind,
    if_pos (mt hmark.mpr hother)]
  rfl

/-- A turn where the mark and the fixed part of a record stand. -/
theorem turn_of_mark (hsize : directory.length + directoryLength ≤ Bytes.maxCount)
    (h : s.Sound directory) (hlong : directoryLength ≤ s.left.length)
    (hmark : startsWith directoryMark s.left) :
    turn limits directory.length s = match limits.checkEntryCount (s.count + 1) with
      | .error e => .ok (.done (.error e))
      | .ok () => takeRecord limits s (s.count + 1) (s.left.take directoryLength) := by
  have hleft := h.length_left
  have hcount := h.count_le
  have hfield : Bytes.field s.left 0 4 = directoryMark :=
    (startsWith_iff_field directoryMark (by decide) (Nat.le_trans (by decide) hlong)).mp hmark
  rw [turn, add_eq (by omega), ok_bind, if_neg (by omega)]
  dsimp only
  rw [if_neg (by rw [List.length_take]; omega), fieldAt_header hlong (by decide), ok_bind,
    if_neg (not_not.mpr hfield), add_eq (by rw [directoryLength] at *; omega), ok_bind]
  rfl

/-- **One turn of the loop does not fault**, and agrees with the scan. -/
theorem turn_spec (limits : Limits) (hsize : directory.length + directoryLength ≤ Bytes.maxCount)
    (h : s.Sound directory) :
    ∃ t, turn limits directory.length s = .ok t ∧ t.Agrees limits directory s := by
  cases hnext : DirectoryRecord.next s.left with
  | none =>
    exact ⟨_, turn_of_none hsize h hnext, .done fun _ => scanFrom_of_next_eq_none hnext _ _ _⟩
  | cut =>
    obtain ⟨hlong, hmark, -⟩ := DirectoryRecord.next_eq_cut_iff.mp hnext
    rw [turn_of_mark hsize h hlong hmark]
    cases hcheck : limits.checkEntryCount (s.count + 1) with
    | error e => exact ⟨_, rfl, agrees_refused hlong hmark hcheck⟩
    | ok _ =>
      refine ⟨_, takeRecord_cut hnext limits _, .done fun fuel => ?_⟩
      rw [scanFrom, hnext, hcheck]
      rfl
  | record r rest =>
    obtain ⟨hall, hmark, -, -⟩ := DirectoryRecord.next_eq_record_iff.mp hnext
    obtain ⟨hencode, hr⟩ := DirectoryRecord.eq_encode_of_next hnext
    have hlong := Nat.le_of_add_right_le hall
    rw [turn_of_mark hsize h hlong hmark]
    cases hcheck : limits.checkEntryCount (s.count + 1) with
    | error e => exact ⟨_, rfl, agrees_refused hlong hmark hcheck⟩
    | ok _ =>
      have hfits : s.consumed + r.encode.length ≤ Bytes.maxCount := by
        have hleft := h.length_left
        rw [hencode, List.length_append] at hleft
        omega
      exact ⟨_, takeRecord_encode hr hencode hfits limits, agrees_record h hnext hcheck⟩

/-! ## The run -/

/-- **Turn after turn** the counter tells what was taken, each turn takes one record, and the scan
goes on from there. -/
theorem Turns.spec {n : Nat} (hsize : directory.length + directoryLength ≤ Bytes.maxCount)
    (h : s.Sound directory) (hturns : Turns limits directory.length n s s') :
    s'.Sound directory ∧ s'.count = s.count + n := by
  induction hturns with
  | none s => exact ⟨h, rfl⟩
  | cons first more ih =>
    obtain ⟨t, hturn, hagrees⟩ := turn_spec limits hsize h
    obtain rfl := Except.ok.inj (hturn.symm.trans first)
    obtain ⟨hsound, hcount, -, -⟩ | _ := hagrees
    obtain ⟨hsound', hcount'⟩ := ih hsound
    exact ⟨hsound', by omega⟩

/-- **The loop ends**, and answers what the scan does where that may take as many records as octets
are left. -/
theorem exists_turns (limits : Limits)
    (hsize : directory.length + directoryLength ≤ Bytes.maxCount) :
    ∀ (fuel : Nat) (s : Loop), s.Sound directory → s.left.length ≤ fuel →
      ∃ n s', Turns limits directory.length n s s' ∧ turn limits directory.length s'
        = .ok (.done (scanFrom limits fuel s.left s.count s.names)) := by
  intro fuel
  induction fuel with
  | zero =>
    intro s h hleft
    obtain ⟨t, hturn, hagrees⟩ := turn_spec limits hsize h
    have hnone : DirectoryRecord.next s.left = .none :=
      DirectoryRecord.next_eq_none_iff.mpr (.inl (Nat.lt_of_le_of_lt hleft (by decide)))
    rcases hagrees with ⟨hsound, -, hconsumed, -⟩ | hscan
    · have hlength := h.length_left
      have hle := hsound.consumed_le
      rw [directoryLength] at hconsumed
      omega
    · rw [← hscan 0, scanFrom_of_next_eq_none hnone] at hturn
      exact ⟨0, s, .none s, hturn⟩
  | succ fuel ih =>
    intro s h hleft
    obtain ⟨t, hturn, hagrees⟩ := turn_spec limits hsize h
    rcases hagrees with ⟨hsound, -, hconsumed, hscan⟩ | hscan
    · have hlength := h.length_left
      have hlength' := hsound.length_left
      obtain ⟨n, s', hturns, hdone⟩ := ih _ hsound (by rw [directoryLength] at hconsumed; omega)
      exact ⟨n + 1, s', .cons hturn hturns, by rw [hdone, hscan]⟩
    · exact ⟨0, s, .none s, by rw [hturn, hscan]⟩

/-- **The scan in the steps of a machine.**  Whatever an archive holds whose length eight octets
tell, as those of all buffers are, its directory is looked for without a fault and lies within it.
No turn of the loop faults; between two turns the counter tells what was taken from the directory,
so that a record's fixed part is read whole wherever there is room for one, and no more records are
counted than there is room for.  The loop ends with what the scan answers. -/
theorem scan_faultless (limits : Limits) (hlength : archive.length ≤ Bytes.maxCount) :
    locate archive = .ok (Zip.locate .memory archive)
    ∧ (∀ cause, Zip.locate .memory archive = .error cause →
      scan limits .memory archive = .error cause)
    ∧ ∀ extent, Zip.locate .memory archive = .ok extent →
      extent.start + extent.size ≤ archive.length
      ∧ (∀ n s, Turns limits extent.size n { left := extent.octets archive } s →
        (∃ t, turn limits extent.size s = .ok t)
        ∧ s.left = (extent.octets archive).drop s.consumed
        ∧ s.consumed + s.left.length = extent.size
        ∧ s.count = n ∧ n ≤ extent.size / directoryLength
        ∧ (s.consumed + directoryLength ≤ extent.size →
          (s.left.take directoryLength).length = directoryLength
            ∧ n + 1 ≤ extent.size / directoryLength))
      ∧ ∃ n s, Turns limits extent.size n { left := extent.octets archive } s
        ∧ turn limits extent.size s = .ok (.done (scan limits .memory archive)) := by
  refine ⟨locate_spec hlength, fun cause => scan_eq_error, fun extent hlocate => ?_⟩
  have hle := locate_le hlocate
  have hoctets := length_octets_extent hle
  have hsize := size_add_le hlength hlocate
  have hscan : scan limits .memory archive = scanFrom limits (extent.octets archive).length
    (extent.octets archive) 0 [] := scan_eq (Medium.holds_memory archive) hlocate
  rw [← hoctets] at hsize ⊢
  have hstart : Loop.Sound (extent.octets archive) { left := extent.octets archive } :=
    ⟨rfl, Nat.zero_le _, Nat.le_refl _⟩
  refine ⟨hoctets ▸ hle, fun n s hturns => ?_, ?_⟩
  · obtain ⟨hsound, hcount⟩ := hturns.spec hsize hstart
    obtain ⟨t, hturn, -⟩ := turn_spec limits hsize hsound
    obtain rfl : s.count = n := hcount.trans (Nat.zero_add n)
    exact ⟨⟨t, hturn⟩, hsound.left, hsound.length_left, rfl, hsound.count_le_div, hsound.room⟩
  · rw [hscan]
    exact exists_turns limits hsize _ _ hstart (Nat.le_refl _)

/-- A wide record, its locator and an end record with full fields, for any offset and size. -/
def leadingAnywhere (offset size : Nat) : Bytes :=
  WideRecord.encode { entriesHere := 0, entries := 0, size := size, offset := 0 }
    ++ Locator.encode { offset := offset } ++ EndRecord.encode
      { entriesHere := 0xffff, entries := 0xffff, size := 0xffffffff, offset := 0xffffffff }

/-- The largest offset and the largest size are answered without a fault, and a directory with a
repeated name in its turns. -/
theorem scan_faultless_leadingAnywhere :
    locate (leadingAnywhere Bytes.maxCount 0) = .ok (.error (.io .unexpectedEnd))
    ∧ locate (leadingAnywhere 0 Bytes.maxCount)
      = .ok (.error (.invalidArchive .sizeExceedsPosition))
    ∧ locate repeatedArchive = .ok (.ok ⟨62, 142⟩)
    ∧ ∃ n s, Turns {} 142 n { left := Extent.octets ⟨62, 142⟩ repeatedArchive } s
      ∧ turn {} 142 s = .ok (.done (scan {} .memory repeatedArchive)) := by
  have hlocate : Zip.locate .memory repeatedArchive = .ok ⟨62, 142⟩ :=
    eq_ok_of_toOption (by decide +kernel)
  refine ⟨?_, ?_, ?_, ?_⟩
  · rw [(scan_faultless {} (by decide +kernel)).1]
    decide +kernel
  · rw [(scan_faultless {} (by decide +kernel)).1]
    decide +kernel
  · rw [(scan_faultless {} (by decide +kernel)).1, hlocate]
  · exact ((scan_faultless {} (by decide +kernel)).2.2 _ hlocate).2.2

end GuardedArchive.Zip.Machine
