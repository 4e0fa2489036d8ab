import GuardedArchive.Proofs.Zip.Agreement
import GuardedArchive.Proofs.Zip.Scanning

/-!
# Proofs/Zip/Reading — what the reader makes of an archive that ends with its end record

The reader tries the marks of end records from the last one on.  In an archive without a comment the
marks behind the end record's own leave too little room for an end record, so that it comes to this
one and takes its directory (`Classic.claimAt_endPosition`).  It reads there what the records stand
for, one entry for each (`Classic.readDirectory_octets`).
-/

namespace GuardedArchive.Zip

/-! ## Marks -/

/-- The marks found come before those found earlier, and none of them stands in front. -/
theorem marksOnto_eq (mark : Nat) : ∀ (bs : Bytes) (position : Nat) (found : List Nat),
    ∃ later, marksOnto mark position bs found = later ++ found ∧ ∀ q ∈ later, position ≤ q
  | [], _, found => ⟨[], rfl, by simp⟩
  | b :: bs, position, found => by
    rw [marksOnto]
    obtain ⟨later, heq, hle⟩ := marksOnto_eq mark bs (position + 1)
      (if startsWith mark (b :: bs) then position :: found else found)
    have hle' : ∀ q ∈ later, position ≤ q := fun q hq => Nat.le_of_succ_le (hle q hq)
    by_cases hmark : startsWith mark (b :: bs)
    · refine ⟨later ++ [position], by rw [heq, if_pos hmark, List.append_cons], fun q hq => ?_⟩
      rcases List.mem_append.mp hq with hq | hq
      · exact hle' q hq
      · exact Nat.le_of_eq (List.mem_singleton.mp hq).symm
    · exact ⟨later, by rw [heq, if_neg hmark], hle'⟩

/-- The marks that stand at the first octet and behind it. -/
theorem marksOnto_of_startsWith {mark : Nat} {bs : Bytes} (h : startsWith mark bs)
    (position : Nat) (found : List Nat) : ∃ later,
      marksOnto mark position bs found = later ++ position :: found
        ∧ ∀ q ∈ later, position < q := by
  cases bs with
  | nil => exact absurd h (startsWith_nil mark)
  | cons b bs =>
    rw [marksOnto, if_pos h]
    exact marksOnto_eq mark bs (position + 1) (position :: found)

/-- The marks in a second part come before those in the first. -/
theorem marksOnto_append (mark : Nat) : ∀ (bs more : Bytes) (position : Nat) (found : List Nat),
    ∃ found', marksOnto mark position (bs ++ more) found
      = marksOnto mark (position + bs.length) more found'
  | [], _, _, found => ⟨found, rfl⟩
  | b :: bs, more, position, found => by
    rw [List.cons_append, marksOnto, List.length_cons, Nat.add_comm bs.length, ← Nat.add_assoc]
    exact marksOnto_append mark bs more (position + 1) _

/-! ## End records -/

/-- No end record stands where the archive has too few octets left. -/
theorem claimAt_eq_error {archive : Bytes} {position : Nat}
    (h : archive.length < position + endLength) : ∃ e, claimAt archive position = .error e := by
  have hshort : ((archive.drop position).drop (endLength - 1)).isEmpty := by
    rw [List.drop_drop, List.isEmpty_iff, List.drop_eq_nil_iff]
    simp only [endLength] at h ⊢
    omega
  exact ⟨_, by rw [claimAt]; exact if_pos (.inl hshort)⟩

/-- Positions that lead to no directory are passed by. -/
theorem readFrom_append {archive : Bytes} (e : ArchiveError) (rest : List Nat) :
    ∀ {positions : List Nat}, (∀ q ∈ positions, ∃ e', claimAt archive q = .error e') →
      readFrom archive e (positions ++ rest) = readFrom archive e rest
  | [], _ => rfl
  | q :: positions, h => by
    obtain ⟨e', hq⟩ := h q List.mem_cons_self
    rw [List.cons_append, readFrom]
    simp only [hq]
    exact readFrom_append e rest fun q' hq' => h q' (List.mem_cons_of_mem q hq')

/-- Records that stand for entries are read as those. -/
theorem readRecords_encode (rest : Bytes) {ds : List DirectoryRecord} {rs : List Record}
    (hparts : ∀ d ∈ ds, d.HasParts)
    (h : List.Forall₂ (fun d r => Record.ofDirectory 0 d.stored = .ok r) ds rs) :
    readRecords 0 ds.length (ds.flatMap DirectoryRecord.encode ++ rest) = .ok rs := by
  induction h with
  | nil => rfl
  | @cons d r ds rs hd _ ih =>
    obtain ⟨hd', hparts⟩ := List.forall_mem_cons.mp hparts
    rw [List.flatMap_cons, List.append_assoc, List.length_cons, readRecords,
      DirectoryRecord.next_encode hd']
    simp only [hd]
    rw [ih hparts]
    rfl

namespace Classic

variable {a : Classic}

/-- What the end record claims. -/
def claim (a : Classic) : DirectoryClaim :=
  ⟨0, 0, a.front.length, a.records.length, a.records.length, 0⟩

/-- The end record, of an archive without a comment, is read back whole. -/
theorem ofBytes_end (h : a.Fits) (hc : a.comment = []) :
    EndRecord.ofBytes (a.octets.drop a.endPosition) = a.endRecord := by
  have hcount : a.records.length % 65536 = a.records.length :=
    Nat.mod_eq_of_lt (Nat.lt_succ_of_le h.count)
  have hsize : a.directory.length % 4294967296 = a.directory.length :=
    Nat.mod_eq_of_lt (Nat.lt_succ_of_le h.size)
  have hoffset : a.front.length % 4294967296 = a.front.length :=
    Nat.mod_eq_of_lt (Nat.lt_succ_of_le h.offset)
  rw [← Nat.add_zero a.endPosition, drop_endPosition, List.drop_zero, EndRecord.encode]
  simp (disch := decide) only [EndRecord.ofBytes, field_later, field_first, Nat.reduceSub,
    Bytes.capacity, Nat.reduceMul, endRecord, hc, List.length_nil, Nat.zero_mod, hcount, hsize,
    hoffset]
  simp [Bytes.slice]

theorem startsWith_directory (hne : a.records ≠ []) : startsWith directoryMark a.directory := by
  obtain ⟨r, rs, hrs⟩ := List.exists_cons_of_ne_nil hne
  rw [directory, hrs, List.flatMap_cons, DirectoryRecord.encode_eq]
  exact startsWith_fields _ _

/-- **The end record's own claim** is that of the directory in front of it. -/
theorem narrowClaim_endRecord (a : Classic) :
    narrowClaim a.octets a.endRecord a.endPosition = .ok a.claim := by
  rw [narrowClaim]
  by_cases hne : a.records = []
  · have hempty : a.directory = [] := by rw [directory, hne, List.flatMap_nil]
    rw [if_pos (by rw [endRecord, hne]; rfl)]
    simp [endRecord, endPosition, hempty, claim]
  · obtain ⟨later, hlater, -⟩ :=
      marksOnto_of_startsWith (startsWith_directory hne) a.front.length []
    have hpos := four_le_of_startsWith (startsWith_directory hne)
    have hslice : Bytes.slice a.octets a.front.length (a.endPosition - a.front.length)
        = a.directory := by
      rw [endPosition, Nat.add_sub_cancel_left, octets, Bytes.slice, List.drop_left, List.take_left]
    have hbehind : ¬a.endPosition ≤ a.endRecord.offset := by
      simp only [endPosition, endRecord]
      omega
    rw [if_neg (by simpa [endRecord] using hne), if_neg hbehind, marksDown]
    simp only [endRecord]
    rw [hslice, hlater, List.getLast?_concat]
    simp [claim]

/-- **The end record is found to claim the directory in front of it.** -/
theorem claimAt_endPosition (h : a.Fits) (hc : a.comment = []) (hfull : ¬a.IsFull) :
    claimAt a.octets a.endPosition = .ok a.claim := by
  have hlength : a.endRecord.encode.length = endLength := by
    rw [length_endRecord, hc, List.length_nil, Nat.add_zero]
  have hdrop : a.octets.drop a.endPosition = a.endRecord.encode := a.drop_endPosition 0
  have hroom : (a.endRecord.encode.drop (endLength - 1)).isEmpty = false := by
    rw [List.isEmpty_eq_false_iff, ne_eq, List.drop_eq_nil_iff, hlength]
    decide
  have hcomment : Bytes.field a.endRecord.encode 20 2 = 0 := by
    rw [EndRecord.encode]
    simp (disch := decide) only [field_later, field_first, Nat.reduceSub, Bytes.capacity,
      endRecord, hc, List.length_nil, Nat.zero_mod]
  obtain ⟨hcount, -, hoffset⟩ := not_isFull_iff.mp hfull
  rw [claimAt, ofBytes_end h hc, hdrop, hroom, hcomment, if_neg (by simp),
    if_neg (fun hwide => hwide.1.elim hcount hoffset), narrowClaim_endRecord]

/-- **The reader takes the directory in front of the end record**, an entry for each record. -/
theorem readDirectory_octets (h : a.Fits) (hc : a.comment = []) (hfull : ¬a.IsFull)
    {rs : List Record}
    (hrs : List.Forall₂ (fun d r => Record.ofDirectory 0 d.stored = .ok r) a.records rs) :
    readDirectory a.octets = .ok (distinct rs) := by
  have hlength : a.octets.length = a.endPosition + endLength := by
    rw [length_octets, hc, List.length_nil, Nat.add_zero]
  obtain ⟨found, hfound⟩ :=
    marksOnto_append endMark (a.front ++ a.directory) a.endRecord.encode 0 []
  rw [List.length_append, Nat.zero_add, ← endPosition] at hfound
  obtain ⟨later, hlater, hbehind⟩ :=
    marksOnto_of_startsWith a.startsWith_endRecord a.endPosition found
  have hmarks : marksDown endMark a.octets 0 a.octets.length
      = later ++ a.endPosition :: found := by
    rw [marksDown, Bytes.slice, List.drop_zero, Nat.sub_zero, List.take_length, octets,
      ← List.append_assoc, hfound, hlater]
  have hread : a.claim.read a.octets = .ok rs := by
    have hdrop : a.octets.drop a.front.length = a.directory ++ a.endRecord.encode := by
      rw [octets, List.drop_left]
    simpa [DirectoryClaim.read, claim, hdrop, directory]
      using readRecords_encode a.endRecord.encode h.parts hrs
  have hskip : ∀ q ∈ later, ∃ e, claimAt a.octets q = .error e := fun q hq =>
    claimAt_eq_error (by rw [hlength]; exact Nat.add_lt_add_right (hbehind q hq) _)
  rw [readDirectory, hmarks, readFrom_append _ _ hskip, readFrom, claimAt_endPosition h hc hfull]
  simp only [hread]

end Classic

end GuardedArchive.Zip
