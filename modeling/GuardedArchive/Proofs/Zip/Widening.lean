import GuardedArchive.Proofs.Zip.Decoding
import GuardedArchive.Proofs.Zip.Locating

/-!
# Proofs/Zip/Widening — a wide end record leads to the same directory

    front  ++  directory  ++  end record
    front  ++  directory  ++  wide record  ++  locator  ++  end record

Where no field of the end record is full it tells the size of the directory in front of it; where
one is, the locator in front of it leads to the wide record, which tells that size too.  So one
directory is found in both archives and **scanned with the same result** (`scan_widely`), whatever
stands in front of it, in the extension of the wide record and in the comment.
-/

namespace GuardedArchive.Zip

variable {front directory : Bytes} {w : WideRecord} {l : Locator} {e e' : EndRecord}
  {medium : Medium}

/-- An archive with a directory behind some octets and an end record behind it. -/
def narrowly (front directory : Bytes) (e : EndRecord) : Bytes := front ++ directory ++ e.encode

/-- The same with a wide record and its locator in front of the end record. -/
def widely (front directory : Bytes) (w : WideRecord) (l : Locator) (e : EndRecord) : Bytes :=
  front ++ directory ++ w.encode ++ l.encode ++ e.encode

/-- An end record without a full field that tells the size of the directory. -/
structure EndRecord.Tells (e : EndRecord) (directory : Bytes) : Prop where
  count : e.entries < 0xffff
  size : e.size = directory.length
  size_lt : e.size < 0xffffffff
  offset : e.offset < 0xffffffff

/-- An end record with a full field behind a locator that leads to a wide record which tells the
size of the directory. -/
structure LeadsTo (w : WideRecord) (l : Locator) (e : EndRecord) (front directory : Bytes) :
    Prop where
  full : e.entries = 0xffff ∨ e.size = 0xffffffff ∨ e.offset = 0xffffffff
  offset : l.offset = front.length + directory.length
  offset_le : l.offset ≤ Bytes.maxCount
  size : w.size = directory.length

/-! ## The records read back -/

theorem Locator.length_encode (l : Locator) : l.encode.length = locatorLength := by
  simp [encode, locatorLength]

theorem WideRecord.length_encode (w : WideRecord) :
    w.encode.length = wideLength + w.extension.length := by
  simp only [encode, fields_cons, fields_nil, List.length_append, Bytes.length_ofNat,
    List.length_nil, wideLength]

theorem Locator.ofBytes_encode (h : l.offset ≤ Bytes.maxCount) :
    (ofBytes l.encode).offset = l.offset := by
  have hmod : l.offset % Bytes.capacity 8 = l.offset := Nat.mod_eq_of_lt (Nat.lt_succ_of_le h)
  rw [ofBytes, encode, ← List.append_nil (fields _)]
  simp (disch := decide) only [field_later, field_first, Nat.reduceSub, hmod]

theorem WideRecord.ofBytes_encode (h : w.size ≤ Bytes.maxCount) :
    (ofBytes (w.encode.take wideLength)).size = w.size := by
  have hmod : w.size % Bytes.capacity 8 = w.size := Nat.mod_eq_of_lt (Nat.lt_succ_of_le h)
  have hfront : w.encode.take wideLength = Bytes.slice w.encode 0 wideLength := rfl
  have hfield : Bytes.field (Bytes.slice w.encode 0 wideLength) 40 8 = Bytes.field w.encode 40 8 :=
    field_slice (by decide)
  rw [ofBytes, hfront, hfield, encode]
  simp (disch := decide) only [field_later, field_first, Nat.reduceSub, hmod]

/-! ## The directory that is found -/

theorem Extent.before_add (start size : Nat) :
    before (start + size) size = .ok ⟨start, size⟩ := by
  rw [before, if_neg (Nat.not_lt.mpr (Nat.le_add_left _ _)), Nat.add_sub_cancel]

theorem locateAt_narrowly (h : e.Tells directory) :
    Classic.locateAt medium (narrowly front directory e) (front ++ directory).length
      = .ok ⟨front.length, directory.length⟩ := by
  obtain ⟨hcount, hsize, hoffset⟩ := EndRecord.ofBytes_encode (front ++ directory) e
  have hc := h.count
  have hs := h.size_lt
  have ho := h.offset
  rw [Classic.locateAt, narrowly]
  rw [hcount, hsize, hoffset, if_pos (by omega), Nat.mod_eq_of_lt (by omega), h.size,
    List.length_append, Extent.before_add]

/-- The locator stands in front of the end record. -/
theorem slice_locator (front directory : Bytes) (w : WideRecord) (l : Locator) (e : EndRecord) :
    Bytes.slice (widely front directory w l e) (front ++ directory ++ w.encode).length locatorLength
      = l.encode := by
  rw [widely, List.append_assoc, Bytes.slice, List.drop_left, ← l.length_encode, List.take_left]

/-- The wide record stands behind the directory. -/
theorem slice_wideRecord (front directory : Bytes) (w : WideRecord) (l : Locator) (e : EndRecord) :
    Bytes.slice (widely front directory w l e) (front.length + directory.length) wideLength
      = w.encode.take wideLength := by
  rw [widely, List.append_assoc, List.append_assoc, ← List.length_append, Bytes.slice,
    List.drop_left]
  exact List.take_append_of_le_length (by rw [w.length_encode]; exact Nat.le_add_right _ _)

theorem startsWith_wideRecord (w : WideRecord) :
    startsWith wideMark (w.encode.take wideLength) := by
  rw [startsWith, List.take_take]
  exact startsWith_fields _ _

theorem startsWith_locator (l : Locator) : startsWith locatorMark l.encode := by
  rw [Locator.encode, ← List.append_nil (fields _)]
  exact startsWith_fields _ _

/-- **The locator leads to the wide record, and that to the directory.** -/
theorem locateWide_widely (hmedium : medium.Holds (widely front directory w l e))
    (h : LeadsTo w l e front directory) :
    locateWide medium (widely front directory w l e)
        (front ++ directory ++ w.encode ++ l.encode).length
      = .ok ⟨front.length, directory.length⟩ := by
  have hposition : (front ++ directory ++ w.encode ++ l.encode).length
      = (front ++ directory ++ w.encode).length + locatorLength := by
    rw [List.length_append, Locator.length_encode]
  have hlong : (w.encode.take wideLength).length = wideLength := by
    rw [List.length_take, w.length_encode]
    omega
  have hseek : medium.seek (front.length + directory.length) = .ok () := by
    refine hmedium _ ?_
    simp only [widely, List.length_append]
    omega
  have hsize : w.size ≤ Bytes.maxCount := by
    have hoffset := h.offset_le
    rw [h.offset] at hoffset
    rw [h.size]
    omega
  rw [locateWide, hposition, if_neg (by omega), Nat.add_sub_cancel]
  simp only [slice_locator, startsWith_locator, Locator.ofBytes_encode h.offset_le, h.offset,
    hseek, slice_wideRecord, hlong, startsWith_wideRecord, WideRecord.ofBytes_encode hsize]
  rw [h.size]
  exact Extent.before_add _ _

theorem locateAt_widely (hmedium : medium.Holds (widely front directory w l e))
    (h : LeadsTo w l e front directory) :
    Classic.locateAt medium (widely front directory w l e)
        (front ++ directory ++ w.encode ++ l.encode).length
      = .ok ⟨front.length, directory.length⟩ := by
  obtain ⟨hcount, hsize, hoffset⟩ :=
    EndRecord.ofBytes_encode (front ++ directory ++ w.encode ++ l.encode) e
  have hfull := h.full
  rw [Classic.locateAt, ← locateWide_widely hmedium h]
  rw [widely, hcount, hsize, hoffset, if_neg (by omega)]

theorem octets_extent_append (front directory back : Bytes) :
    Extent.octets ⟨front.length, directory.length⟩ (front ++ directory ++ back) = directory := by
  rw [Extent.octets, Bytes.slice, List.append_assoc, List.drop_left, List.take_left]

/-- **One directory is scanned with the same result behind either end record**: where the comment is
not too long for any end record to be found, both lead to it. -/
theorem scan_widely (limits : Limits) (hmedium : medium.Holds (widely front directory w l e'))
    (hnarrow : e.Tells directory) (hwide : LeadsTo w l e' front directory)
    (hcomment : e'.comment = e.comment) (hlast : e.IsLast) (hlast' : e'.IsLast) :
    scan limits medium (narrowly front directory e)
        = scan limits medium (widely front directory w l e')
      ∧ (e.comment.length ≤ maxCommentLength →
        locate medium (narrowly front directory e) = .ok ⟨front.length, directory.length⟩
          ∧ locate medium (widely front directory w l e')
            = .ok ⟨front.length, directory.length⟩) := by
  have hlocate := locate_append medium (front ++ directory) hlast
  have hlocate' := locate_append medium (front ++ directory ++ w.encode ++ l.encode) hlast'
  rw [← narrowly, locateAt_narrowly hnarrow] at hlocate
  rw [← widely, locateAt_widely hmedium hwide, hcomment] at hlocate'
  by_cases hlong : maxCommentLength < e.comment.length
  · rw [if_pos hlong] at hlocate hlocate'
    rw [scan_eq_error hlocate, scan_eq_error hlocate']
    exact ⟨rfl, fun hle => absurd hlong (Nat.not_lt.mpr hle)⟩
  · rw [if_neg hlong] at hlocate hlocate'
    have hholds : medium.Holds (narrowly front directory e) := fun offset hle => by
      refine hmedium offset (Nat.le_trans hle ?_)
      simp only [narrowly, widely, List.length_append, EndRecord.length_encode, hcomment]
      omega
    have hsame : Extent.octets ⟨front.length, directory.length⟩ (widely front directory w l e')
        = directory := by
      rw [widely, List.append_assoc, List.append_assoc, octets_extent_append]
    rw [scan_eq hholds hlocate, scan_eq hmedium hlocate', hsame, narrowly, octets_extent_append]
    exact ⟨rfl, fun _ => ⟨hlocate, hlocate'⟩⟩

/-- The directory of two entries. -/
def twoRecords : Bytes := twoEntries.records.flatMap DirectoryRecord.encode

/-- The end record of two entries, with a comment. -/
def plainEnd : EndRecord :=
  { entriesHere := 2, entries := 2, size := twoRecords.length, offset := twoEntries.octets.length
    comment := Bytes.ofString "note" }

/-- An end record with full fields and the same comment. -/
def fullEnd : EndRecord :=
  { entriesHere := 0xffff, entries := 0xffff, size := 0xffffffff, offset := 0xffffffff
    comment := Bytes.ofString "note" }

/-- The wide record of two entries, with an extension. -/
def wideEnd : WideRecord :=
  { entriesHere := 2, entries := 2, size := twoRecords.length, offset := twoEntries.octets.length
    extension := [1, 2, 3] }

/-- The locator of that record. -/
def wideLocator : Locator := { offset := twoEntries.octets.length + twoRecords.length }

/-- Two entries with a comment are counted behind either end record. -/
theorem scan_widely_twoEntries : plainEnd.Tells twoRecords
    ∧ LeadsTo wideEnd wideLocator fullEnd twoEntries.octets twoRecords
    ∧ plainEnd.IsLast ∧ fullEnd.IsLast
    ∧ scan {} .memory (narrowly twoEntries.octets twoRecords plainEnd) = .ok 2
    ∧ scan {} .memory (widely twoEntries.octets twoRecords wideEnd wideLocator fullEnd)
      = .ok 2 := by
  have htells : plainEnd.Tells twoRecords := ⟨by decide, rfl, by decide +kernel, by decide +kernel⟩
  have hleads : LeadsTo wideEnd wideLocator fullEnd twoEntries.octets twoRecords :=
    ⟨.inl rfl, rfl, by decide +kernel, rfl⟩
  have hplain : ∀ i < 5, 0 < i → ¬startsWith endMark (plainEnd.encode.drop i) := by decide +kernel
  have hfull : ∀ i < 5, 0 < i → ¬startsWith endMark (fullEnd.encode.drop i) := by decide +kernel
  have hlast : plainEnd.IsLast := fun i hi hle => hplain i (Nat.lt_succ_of_le hle) hi
  have hlast' : fullEnd.IsLast := fun i hi hle => hfull i (Nat.lt_succ_of_le hle) hi
  have hscan : scan {} .memory (narrowly twoEntries.octets twoRecords plainEnd) = .ok 2 :=
    eq_ok_of_toOption (by decide +kernel)
  refine ⟨htells, hleads, hlast, hlast', hscan, ?_⟩
  rw [← (scan_widely {} (Medium.holds_memory _) htells hleads rfl hlast hlast').1, hscan]

end GuardedArchive.Zip
