import GuardedArchive.Proofs.Zip.Encoding

/-!
# Proofs/Zip/Scanning — what the scan makes of an archive without wide records

    front  ++  directory records  ++  end record  ++  comment

The scan takes the last mark of an end record for that of the archive, and a field that has all its
bits set for the word that a wide record follows.  So it finds the directory of such an archive
**exactly where it is clear**: where no such mark stands behind the end record's own and no field is
full (`Classic.locate_eq_ok_iff`).  What it then counts are the records (`scan_classic`).  A comment
with a mark in it is taken for the end of the archive (`scan_misled`).
-/

namespace GuardedArchive.Zip

/-! ## The last mark -/

/-- The mark begins the octets `bs` at `i`, at a position below the bound; `bs` begins at
`first`. -/
def MarkAt (mark bound first : Nat) (bs : Bytes) (i : Nat) : Prop :=
  first + i < bound ∧ startsWith mark (bs.drop i)

theorem startsWith_nil (mark : Nat) : ¬startsWith mark [] := fun h =>
  absurd (four_le_of_startsWith h) (by simp)

theorem markAt_succ {mark bound first i : Nat} {b : UInt8} {bs : Bytes} :
    MarkAt mark bound first (b :: bs) (i + 1) ↔ MarkAt mark bound (first + 1) bs i := by
  rw [MarkAt, MarkAt, List.drop_succ_cons, Nat.add_right_comm, Nat.add_assoc]

/-- **The last mark is found**, or what was found before if there is none. -/
theorem lastMark_spec (mark bound : Nat) : ∀ (bs : Bytes) (first : Nat) (found : Option Nat),
    (∃ i, lastMark mark bound first bs found = some (first + i) ∧ MarkAt mark bound first bs i
        ∧ ∀ j, i < j → ¬MarkAt mark bound first bs j)
      ∨ lastMark mark bound first bs found = found ∧ ∀ j, ¬MarkAt mark bound first bs j
  | [], first, found => .inr ⟨rfl, fun j h => startsWith_nil mark (by simpa using h.2)⟩
  | b :: bs, first, found => by
    rw [lastMark]
    rcases lastMark_spec mark bound bs (first + 1)
      (if first < bound ∧ startsWith mark (b :: bs) then some first else found)
      with ⟨i, hfound, hi, hlast⟩ | ⟨hfound, hnone⟩
    · refine .inl ⟨i + 1, by rw [hfound, Nat.add_right_comm, Nat.add_assoc], markAt_succ.mpr hi, ?_⟩
      rintro (_ | j) hj
      · exact absurd hj (Nat.not_lt_zero _)
      · exact mt markAt_succ.mp (hlast j (Nat.lt_of_succ_lt_succ hj))
    · have hlater : ∀ j, ¬MarkAt mark bound first (b :: bs) (j + 1) := fun j =>
        mt markAt_succ.mp (hnone j)
      by_cases hhere : first < bound ∧ startsWith mark (b :: bs)
      · rw [if_pos hhere] at hfound
        refine .inl ⟨0, by rw [if_pos hhere, hfound, Nat.add_zero], hhere, ?_⟩
        rintro (_ | j) hj
        · exact absurd hj (Nat.lt_irrefl 0)
        · exact hlater j
      · rw [if_neg hhere] at hfound
        refine .inr ⟨by rw [if_neg hhere, hfound], ?_⟩
        rintro (_ | j)
        · exact hhere
        · exact hlater j

/-- **Where a mark stands, the last one is at it or behind it.** -/
theorem exists_lastMark {mark bound first i : Nat} {bs : Bytes}
    (h : MarkAt mark bound first bs i) (found : Option Nat) : ∃ k, i ≤ k
      ∧ lastMark mark bound first bs found = some (first + k) ∧ MarkAt mark bound first bs k
      ∧ ∀ j, k < j → ¬MarkAt mark bound first bs j := by
  rcases lastMark_spec mark bound bs first found with ⟨k, hk, hmark, hlast⟩ | ⟨-, hnone⟩
  · exact ⟨k, Nat.not_lt.mp fun hlt => hlast i hlt h, hk, hmark, hlast⟩
  · exact absurd h (hnone i)

/-! ## Counting the records -/

/-- The names that the scan holds against later ones: those that are not too long. -/
def heldNames (limits : Limits) (rs : List DirectoryRecord) : List Bytes :=
  (rs.map (·.name)).filter (·.length ≤ limits.maxEntryNameLength)

theorem heldNames_cons (limits : Limits) (r : DirectoryRecord) (rs : List DirectoryRecord) :
    heldNames limits (r :: rs) = if limits.maxEntryNameLength < r.name.length then
      heldNames limits rs else r.name :: heldNames limits rs := by
  rw [heldNames, List.map_cons, List.filter_cons]
  by_cases h : limits.maxEntryNameLength < r.name.length
  · rw [if_pos h, if_neg (by simpa using h)]
    rfl
  · rw [if_neg h, if_pos (by simpa using h)]
    rfl

theorem next_nil : DirectoryRecord.next [] = .none := rfl

/-- The scan of a record: it is counted, and its name held unless that is too long. -/
theorem scanFrom_cons {limits : Limits} {r : DirectoryRecord} (h : r.HasParts) (fuel : Nat)
    (rest : Bytes) (count : Nat) (seen : List Bytes) :
    scanFrom limits (fuel + 1) (r.encode ++ rest) count seen
      = if limits.maxEntryCount < count + 1 then
          .error (.violation (.entryCount (count + 1) limits.maxEntryCount))
        else if limits.maxEntryNameLength < r.name.length then
          scanFrom limits fuel rest (count + 1) seen
        else if r.name ∈ seen then
          .error (.violation (.duplicateEntry (Utf8.decodeLossy r.name)))
        else scanFrom limits fuel rest (count + 1) (r.name :: seen) := by
  rw [scanFrom, DirectoryRecord.next_encode h, Limits.checkEntryCount]
  simp only [← List.contains_iff_mem]
  split <;> rfl

/-- **Records are counted where they are not too many and no name that is held comes twice.** -/
theorem scanFrom_encode {limits : Limits} : ∀ {rs : List DirectoryRecord} {fuel count : Nat}
    (seen : List Bytes), (∀ r ∈ rs, r.HasParts) → rs.length ≤ fuel →
      count ≤ limits.maxEntryCount →
        (scanFrom limits fuel (rs.flatMap DirectoryRecord.encode) count seen
            = .ok (count + rs.length)
          ↔ count + rs.length ≤ limits.maxEntryCount ∧ (heldNames limits rs).Nodup
            ∧ ∀ name ∈ heldNames limits rs, name ∉ seen)
  | [], 0, count, seen, _, _, hc => by simp [scanFrom, heldNames, hc]
  | [], fuel + 1, count, seen, _, _, hc => by simp [scanFrom, next_nil, heldNames, hc]
  | r :: rs, 0, _, _, _, hf, _ => absurd hf (Nat.not_succ_le_zero _)
  | r :: rs, fuel + 1, count, seen, hp, hf, _ => by
    rw [List.flatMap_cons, scanFrom_cons (hp r List.mem_cons_self), heldNames_cons,
      List.length_cons, ← Nat.add_assoc, Nat.add_right_comm]
    by_cases hmany : limits.maxEntryCount < count + 1
    · rw [if_pos hmany]
      exact iff_of_false (fun h => by cases h) fun h => absurd h.1 (by omega)
    have ih := fun seen => scanFrom_encode seen
      (fun r' hr' => hp r' (List.mem_cons_of_mem _ hr')) (Nat.le_of_succ_le_succ hf)
      (Nat.not_lt.mp hmany)
    rw [if_neg hmany]
    by_cases hlong : limits.maxEntryNameLength < r.name.length
    · rw [if_pos hlong, if_pos hlong, ih seen]
    rw [if_neg hlong, if_neg hlong]
    by_cases hseen : r.name ∈ seen
    · rw [if_pos hseen]
      exact iff_of_false (fun h => by cases h) fun h => h.2.2 _ List.mem_cons_self hseen
    · rw [if_neg hseen, ih (r.name :: seen), List.nodup_cons, List.forall_mem_cons]
      have hnew : (∀ name ∈ heldNames limits rs, name ≠ r.name) ↔ r.name ∉ heldNames limits rs :=
        ⟨fun h hr => h _ hr rfl, fun h name hn he => h (he ▸ hn)⟩
      simp only [List.mem_cons, not_or, forall_and, hseen, not_false_eq_true, true_and]
      refine and_congr_right fun _ => ?_
      rw [hnew, and_left_comm, and_assoc]

/-! ## Archives without wide records -/

/-- An archive without wide records: anything in front, directory records, and a comment behind the
end record. -/
structure Classic where
  front : Bytes
  records : List DirectoryRecord
  comment : Bytes

namespace Classic

/-- The directory of the archive. -/
def directory (a : Classic) : Bytes := a.records.flatMap DirectoryRecord.encode

/-- The end record of the archive, which tells count, size, offset and the length of the comment. -/
def endRecord (a : Classic) : EndRecord where
  entriesHere := a.records.length
  entries := a.records.length
  size := a.directory.length
  offset := a.front.length
  comment := a.comment

/-- The octets of the archive. -/
def octets (a : Classic) : Bytes := a.front ++ (a.directory ++ a.endRecord.encode)

/-- Where its directory stands. -/
def extent (a : Classic) : Extent := ⟨a.front.length, a.directory.length⟩

/-- What the end record tells fits its fields, and so do the parts of the records. -/
structure Fits (a : Classic) : Prop where
  count : a.records.length ≤ 0xffff
  size : a.directory.length ≤ 0xffffffff
  offset : a.front.length ≤ 0xffffffff
  comment : a.comment.length ≤ maxCommentLength
  parts : ∀ r ∈ a.records, r.HasParts

/-- No mark of an end record stands behind that of the archive's own end record, with room for an
end record from there on. -/
def EndsOnce (a : Classic) : Prop :=
  ∀ i, 0 < i → i ≤ a.comment.length → ¬startsWith endMark (a.endRecord.encode.drop i)

/-- A field of the end record has all its bits set. -/
def IsFull (a : Classic) : Prop :=
  a.records.length = 0xffff ∨ a.directory.length = 0xffffffff ∨ a.front.length = 0xffffffff

theorem not_isFull_iff {a : Classic} : ¬a.IsFull ↔ a.records.length ≠ 0xffff
    ∧ a.directory.length ≠ 0xffffffff ∧ a.front.length ≠ 0xffffffff := by
  rw [IsFull, not_or, not_or]

/-- **The end record can only be taken for what it is.** -/
structure IsClear (a : Classic) : Prop where
  endsOnce : a.EndsOnce
  notFull : ¬a.IsFull

variable {a : Classic} {medium : Medium}

/-- Where the end record stands. -/
def endPosition (a : Classic) : Nat := a.front.length + a.directory.length

theorem length_endRecord (a : Classic) :
    a.endRecord.encode.length = endLength + a.comment.length := by
  simp only [EndRecord.encode, fields_cons, fields_nil, endRecord, List.length_append,
    Bytes.length_ofNat, List.length_nil, endLength]

theorem length_octets (a : Classic) :
    a.octets.length = a.endPosition + (endLength + a.comment.length) := by
  rw [octets, List.length_append, List.length_append, length_endRecord, endPosition, Nat.add_assoc]

theorem drop_endPosition (a : Classic) (i : Nat) :
    a.octets.drop (a.endPosition + i) = a.endRecord.encode.drop i := by
  rw [octets, ← List.append_assoc, ← List.drop_drop, List.drop_left' (by simp [endPosition])]

theorem startsWith_endRecord (a : Classic) : startsWith endMark a.endRecord.encode :=
  startsWith_fields _ _

/-- The first octets of the archive that are searched for the mark. -/
def searched (a : Classic) : Nat := a.octets.length - (endLength + maxCommentLength)

theorem searched_le (h : a.Fits) : a.searched ≤ a.endPosition := by
  have hcomment := h.comment
  rw [searched, length_octets]
  omega

/-- A mark among the octets searched, by its distance from the end record. -/
theorem markAt_iff (h : a.Fits) (i : Nat) :
    MarkAt endMark (a.octets.length - endLength + 1) a.searched (a.octets.drop a.searched)
        (a.endPosition - a.searched + i)
      ↔ i ≤ a.comment.length ∧ startsWith endMark (a.endRecord.encode.drop i) := by
  have hbound : ∀ position room : Nat, position + i < position + (endLength + room) - endLength + 1
      ↔ i ≤ room := fun position room => by omega
  rw [MarkAt, List.drop_drop, ← Nat.add_assoc, Nat.add_sub_cancel' (searched_le h),
    drop_endPosition, length_octets]
  rw [hbound]

/-- **The mark that is found is that of the end record, or stands behind it.** -/
theorem exists_found (h : a.Fits) : ∃ i, i ≤ a.comment.length
    ∧ lastMark endMark (a.octets.length - endLength + 1) a.searched (a.octets.drop a.searched) none
      = some (a.endPosition + i)
    ∧ (i = 0 ↔ a.EndsOnce) := by
  have hfirst := searched_le h
  have hmark := markAt_iff h
  generalize a.searched = first at hfirst hmark ⊢
  generalize a.octets.length - endLength + 1 = bound at hmark ⊢
  have hself := (hmark 0).mpr ⟨Nat.zero_le _, a.startsWith_endRecord⟩
  rw [Nat.add_zero] at hself
  obtain ⟨k, hk, hfound, hat, hlast⟩ := exists_lastMark hself none
  obtain ⟨i, rfl⟩ := Nat.exists_eq_add_of_le hk
  obtain ⟨hle, hi⟩ := (hmark i).mp hat
  refine ⟨i, hle, by rw [hfound, ← Nat.add_assoc, Nat.add_sub_cancel' hfirst], ?_, ?_⟩
  · rintro rfl j hj hle hmark'
    exact hlast _ (Nat.add_lt_add_left hj _) ((hmark j).mpr ⟨hle, hmark'⟩)
  · intro honce
    by_contra hne
    exact honce i (Nat.pos_of_ne_zero hne) hle hi

/-- The directory that the end record at a position tells of. -/
def locateAt (medium : Medium) (archive : Bytes) (position : Nat) : Except ArchiveError Extent :=
  let record := EndRecord.ofBytes (Bytes.slice archive position endLength)
  if record.entries ≠ 0xffff ∧ record.size ≠ 0xffffffff ∧ record.offset ≠ 0xffffffff then
    Extent.before position record.size
  else locateWide medium archive position

theorem locate_octets {position : Nat}
    (hfound : lastMark endMark (a.octets.length - endLength + 1) a.searched
      (a.octets.drop a.searched) none = some position) :
    locate medium a.octets = locateAt medium a.octets position := by
  have hlen : ¬a.octets.length < endLength := by
    rw [length_octets]
    omega
  rw [searched] at hfound
  rw [locate]
  simp only [hlen, if_false, hfound]
  rfl

/-- The end record is read back. -/
theorem ofBytes_endRecord (h : a.Fits) :
    let record := EndRecord.ofBytes (Bytes.slice a.octets a.endPosition endLength)
    record.entries = a.records.length ∧ record.size = a.directory.length
      ∧ record.offset = a.front.length := by
  have hslice : Bytes.slice a.octets a.endPosition endLength = fields [(4, endMark), (2, 0), (2, 0),
      (2, a.records.length), (2, a.records.length), (4, a.directory.length), (4, a.front.length),
      (2, a.comment.length)] ++ [] := by
    rw [Bytes.slice, ← Nat.add_zero a.endPosition, drop_endPosition, List.drop_zero,
      List.append_nil]
    exact List.take_left' (by simp [endLength])
  have hcount := h.count
  have hsize := h.size
  have hoffset := h.offset
  rw [hslice]
  simp (disch := decide) only [EndRecord.ofBytes, field_later, field_first, Nat.reduceSub,
    Bytes.capacity]
  omega

theorem before_eq_ok {position size : Nat} {extent : Extent}
    (h : Extent.before position size = .ok extent) :
    position = extent.start + extent.size ∧ extent.size = size := by
  rw [Extent.before] at h
  split at h
  · cases h
  · obtain rfl := Except.ok.inj h
    exact ⟨by dsimp only; omega, rfl⟩

/-- A directory in front of a wide record ends where that begins. -/
theorem locateWide_eq_ok {archive : Bytes} {position : Nat} {extent : Extent}
    (h : locateWide medium archive position = .ok extent) :
    startsWith wideMark (Bytes.slice archive (extent.start + extent.size) wideLength) := by
  rw [locateWide] at h
  split at h
  · cases h
  dsimp only at h
  split at h
  · cases h
  obtain ⟨-, -, h⟩ := bind_eq_ok_iff.mp h
  split at h
  · cases h
  split at h
  · cases h
  next hmark =>
    rw [← (before_eq_ok h).1]
    simpa using hmark

/-- **No wide record leads to the directory**: the end record stands behind it. -/
theorem locateWide_ne (medium : Medium) (a : Classic) (position : Nat) :
    locateWide medium a.octets position ≠ .ok a.extent := by
  intro h
  have hwide := locateWide_eq_ok h
  have hend := a.startsWith_endRecord
  rw [← List.drop_zero (l := a.endRecord.encode), ← drop_endPosition, startsWith, beq_iff_eq]
    at hend
  rw [startsWith, Bytes.slice, List.take_take, beq_iff_eq] at hwide
  exact absurd (hend.symm.trans hwide) (by decide)

/-- **The directory is found exactly where the archive is clear.** -/
theorem locate_eq_ok_iff (h : a.Fits) (medium : Medium) :
    locate medium a.octets = .ok a.extent ↔ a.IsClear := by
  obtain ⟨i, hi, hfound, honce⟩ := exists_found h
  rw [locate_octets hfound, locateAt]
  constructor
  · intro hat
    split at hat
    next hnarrow =>
      have hposition := (before_eq_ok hat).1
      obtain rfl : i = 0 := Nat.add_eq_left.mp hposition
      obtain ⟨hentries, hsize, hoffset⟩ := ofBytes_endRecord h
      rw [Nat.add_zero, hentries, hsize, hoffset] at hnarrow
      exact ⟨honce.mp rfl, not_isFull_iff.mpr hnarrow⟩
    next => exact absurd hat (locateWide_ne medium a _)
  · intro hclear
    obtain rfl := honce.mpr hclear.endsOnce
    obtain ⟨hentries, hsize, hoffset⟩ := ofBytes_endRecord h
    rw [Nat.add_zero, hentries, hsize, hoffset, if_pos (not_isFull_iff.mp hclear.notFull),
      Extent.before, endPosition, if_neg (Nat.not_lt.mpr (Nat.le_add_left _ _)),
      Nat.add_sub_cancel]
    rfl

/-- **An archive with a full field is refused** unless something looks like a locator in front of
its end record. -/
theorem locate_full (h : a.Fits) (hfull : a.IsFull) (honce : a.EndsOnce)
    (hlocator : a.endPosition < locatorLength
      ∨ ¬startsWith locatorMark (a.octets.drop (a.endPosition - locatorLength)))
    (medium : Medium) : locate medium a.octets = .error (.invalidArchive .locatorMissing) := by
  obtain ⟨i, -, hfound, hi⟩ := exists_found h
  obtain rfl := hi.mpr honce
  obtain ⟨hentries, hsize, hoffset⟩ := ofBytes_endRecord h
  rw [locate_octets hfound, locateAt]
  rw [Nat.add_zero, hentries, hsize, hoffset, if_neg (mt not_isFull_iff.mpr (not_not_intro hfull)),
    locateWide]
  by_cases hshort : a.endPosition < locatorLength
  · rw [if_pos hshort]
    rfl
  · have hnone := hlocator.resolve_left hshort
    have hslice : startsWith locatorMark
        (Bytes.slice a.octets (a.endPosition - locatorLength) locatorLength) = false := by
      rw [startsWith, Bytes.slice, List.take_take]
      exact Bool.eq_false_iff.mpr hnone
    simp only [if_neg hshort, hslice, Bool.not_false, if_true]
    rfl

theorem octets_extent (a : Classic) : a.extent.octets a.octets = a.directory := by
  rw [Extent.octets, extent, octets, Bytes.slice, List.drop_left, List.take_left]

theorem length_le_length_flatMap_encode : ∀ rs : List DirectoryRecord,
    rs.length ≤ (rs.flatMap DirectoryRecord.encode).length
  | [] => Nat.le_refl _
  | r :: rs => by
    have ih := length_le_length_flatMap_encode rs
    rw [List.length_cons, List.flatMap_cons, List.length_append, DirectoryRecord.length_encode,
      directoryLength]
    omega

/-- **The scan walks the records of the directory**, as their fields hold them. -/
theorem records_extent (h : a.Fits) :
    a.extent.records a.octets = a.records.map DirectoryRecord.stored := by
  rw [Extent.records, octets_extent, directory]
  exact DirectoryRecord.upTo_flatMap_encode (length_le_length_flatMap_encode a.records) h.parts

/-- **The scan of a directory that is found counts its records.** -/
theorem scan_of_locate (h : a.Fits) (limits : Limits)
    (hlocate : locate medium a.octets = .ok a.extent) :
    scan limits medium a.octets = .ok a.records.length
      ↔ a.records.length ≤ limits.maxEntryCount ∧ (heldNames limits a.records).Nodup := by
  have hseek : medium.seek a.extent.start = .ok () := by
    cases medium with
    | memory => rfl
    | disk => exact if_neg (Nat.not_lt.mpr (Nat.le_trans h.offset (by decide)))
  have hscan : scan limits medium a.octets
      = scanFrom limits a.directory.length a.directory 0 [] := by
    rw [scan, hlocate]
    change (medium.seek a.extent.start >>= fun _ => _) = _
    rw [hseek, octets_extent]
    rfl
  have hcount := scanFrom_encode [] h.parts (length_le_length_flatMap_encode a.records)
    (Nat.zero_le limits.maxEntryCount)
  rw [Nat.zero_add] at hcount
  rw [hscan, directory, hcount]
  simp

end Classic

/-- **The scan of an archive without wide records.**  The directory is found exactly where no mark
of an end record stands behind the end record's own and no field is full.  Its records are then
counted, whatever stands in front and in the comment, if they are not too many and no name that is
held comes twice.  An archive with a full field is refused. -/
theorem scan_classic (limits : Limits) (medium : Medium) (a : Classic) (h : a.Fits) :
    (locate medium a.octets = .ok a.extent ↔ a.IsClear)
      ∧ (a.IsClear → (scan limits medium a.octets = .ok a.records.length
        ↔ a.records.length ≤ limits.maxEntryCount ∧ (heldNames limits a.records).Nodup))
      ∧ (a.IsFull → a.EndsOnce → (a.endPosition < locatorLength
          ∨ ¬startsWith locatorMark (a.octets.drop (a.endPosition - locatorLength))) →
        scan limits medium a.octets = .error (.invalidArchive .locatorMissing)) := by
  refine ⟨a.locate_eq_ok_iff h medium, fun hclear => ?_, fun hfull honce hlocator => ?_⟩
  · exact a.scan_of_locate h limits ((a.locate_eq_ok_iff h medium).mpr hclear)
  · rw [scan, a.locate_full h hfull honce hlocator]
    rfl

/-! ## A comment, plain and misleading -/

/-- An archive with the empty file `a`, and a comment. -/
def commented (comment : Bytes) : Classic :=
  let w := ({} : Writer).add ⟨[0x61], .stored, fileMode⟩ []
  ⟨w.octets, w.records, comment⟩

theorem fits_commented {comment : Bytes} (h : comment.length ≤ maxCommentLength) :
    (commented comment).Fits where
  count := by change (commented []).records.length ≤ _; decide
  size := by change (commented []).directory.length ≤ _; decide
  offset := by change (commented []).front.length ≤ _; decide
  comment := h
  parts r hr := by
    obtain rfl := List.mem_singleton.mp hr
    constructor <;> decide

/-- The scan passes a comment without a mark. -/
theorem scan_commented : (commented (Bytes.ofString "note")).Fits
    ∧ (commented (Bytes.ofString "note")).IsClear
    ∧ scan {} .disk (commented (Bytes.ofString "note")).octets = .ok 1 := by
  have hfits : (commented (Bytes.ofString "note")).Fits := fits_commented (by decide)
  have honce : ∀ i < 5, 0 < i →
      ¬startsWith endMark ((commented (Bytes.ofString "note")).endRecord.encode.drop i) := by
    decide
  have hclear : (commented (Bytes.ofString "note")).IsClear :=
    ⟨fun i hi hle => honce i (Nat.lt_succ_of_le hle) hi, Classic.not_isFull_iff.mpr (by decide)⟩
  exact ⟨hfits, hclear, ((scan_classic {} .disk _ hfits).2.1 hclear).mpr ⟨by decide, by decide⟩⟩

/-- Octets that look like the end record of an archive without entries. -/
def feignedEnd : Bytes :=
  EndRecord.encode { entriesHere := 0, entries := 0, size := 0, offset := 0 }

/-- **A comment that looks like an end record hides the directory**: its one record is not
counted. -/
theorem scan_misled : (commented feignedEnd).Fits
    ∧ (commented feignedEnd).records.length = 1
    ∧ (commented feignedEnd).records.length ≤ ({} : Limits).maxEntryCount
    ∧ ((commented feignedEnd).records.map (·.name)).Nodup
    ∧ scan {} .memory (commented feignedEnd).octets = .ok 0 :=
  ⟨fits_commented (by decide), rfl, by decide, by decide,
    eq_ok_of_toOption (by decide +kernel)⟩

end GuardedArchive.Zip
