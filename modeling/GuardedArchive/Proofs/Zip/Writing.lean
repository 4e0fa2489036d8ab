import GuardedArchive.Proofs.Stream
import GuardedArchive.Proofs.Text.Utf8
import GuardedArchive.Proofs.Zip.Delivering
import GuardedArchive.Proofs.Zip.Reading
import GuardedArchive.Proofs.Zip.Storing

/-!
# Proofs/Zip/Writing — an archive that was written is read as what was put into it

    octets of the archive  =  …  ++  header  ++  packed content  ++  …      at the record's offset

Every record of the directory stands for one entry, whose header and content are at the offset that
it tells (`Writer.forall₂_holds`); so the archive is laid out, however large it is
(`Writer.laysOut_finish`).  As long as no number outgrows its narrow field, the directory is found
and read (`Writer.exists_read`), the archive opens with an entry for each record
(`Writer.load_finish`), and what is read of an entry is the content that was written
(`Written.openEntry_record`).
-/

namespace GuardedArchive.Zip

open GuardedArchive.Stream (Carries)

/-! ## Methods -/

/-- What the method packs holds the content. -/
def Method.IsExact : Method → Prop
  | .stored => True
  | .deflated encode _ => ∀ content, Inflate.Holds (encode content) content

/-- The streams of an encoder hold what they were made of, at every level. -/
def Encoder.IsExact (deflate : Encoder) : Prop :=
  ∀ level, (Method.deflated (deflate.stream level) (deflate.early level)).IsExact

theorem Encoder.isExact_plain : plain.IsExact := fun _ => Inflate.holds_deflateStored

/-- **A content is at most 2064 times as long as it is packed.** -/
theorem Method.IsExact.length_le {method : Method} (h : method.IsExact) (content : Bytes) :
    content.length ≤ 2064 * (method.pack content).length := by
  cases method with
  | stored => exact Nat.le_mul_of_pos_left _ (by decide)
  | deflated encode early => exact (h content).length_le

theorem Method.number_eq (method : Method) : method.number = 0 ∨ method.number = 8 := by
  cases method with
  | stored => exact .inl rfl
  | deflated encode early => exact .inr rfl

/-! ## What is written -/

/-- What is written as one entry: its heading and its content. -/
abbrev Written : Type := Heading × Bytes

namespace Written

/-- The content as it is packed. -/
def packed (e : Written) : Bytes := e.1.method.pack e.2

def checksum (e : Written) : Nat := (Checksum.crc32 e.2).toNat

/-- The local header and the packed content. -/
def body (e : Written) : Bytes :=
  Writer.header e.1 e.checksum e.packed.length e.2.length ++ e.packed

/-- The directory record for an entry at an offset. -/
def directoryRecord (e : Written) (offset : Nat) : DirectoryRecord :=
  Writer.record e.1 e.checksum e.packed.length e.2.length offset

/-- The entry that is read. -/
def record (e : Written) (offset : Nat) : Record where
  name := Utf8.decodeLossy e.1.name
  rawName := e.1.name
  comment := ""
  isEncrypted := false
  isAesEncrypted := false
  method := e.1.method.number
  checksum := e.checksum
  compressedSize := e.packed.length
  uncompressedSize := e.2.length
  headerOffset := offset
  unixMode := some e.1.mode

/-- Name and mode fit their fields, and what is packed can be read back. -/
structure Fits (e : Written) : Prop where
  name : e.1.name.length < 0x10000
  mode : 0 < e.1.mode ∧ e.1.mode < 0x10000
  exact : e.1.method.IsExact

end Written

namespace Writer

/-- The archive with more entries. -/
def addAll (w : Writer) (entries : List Written) : Writer :=
  entries.foldl (fun w e => w.add e.1 e.2) w

/-- An entry is in the archive, with its record. -/
def Holds (w : Writer) (e : Written) (d : DirectoryRecord) : Prop :=
  ∃ front back, w.octets = front ++ (e.body ++ back) ∧ d = e.directoryRecord front.length

variable {w : Writer} {e : Written} {d : DirectoryRecord} {entries : List Written}

theorem octets_add (w : Writer) (e : Written) : (w.add e.1 e.2).octets = w.octets ++ e.body :=
  List.append_assoc _ _ _

theorem records_add (w : Writer) (e : Written) :
    (w.add e.1 e.2).records = w.records ++ [e.directoryRecord w.octets.length] := rfl

theorem Holds.add (h : w.Holds e d) (more : Written) : (w.add more.1 more.2).Holds e d := by
  obtain ⟨front, back, ho, rfl⟩ := h
  exact ⟨front, back ++ more.body, by rw [octets_add, ho, List.append_assoc, List.append_assoc],
    rfl⟩

theorem holds_last (w : Writer) (e : Written) :
    (w.add e.1 e.2).Holds e (e.directoryRecord w.octets.length) :=
  ⟨w.octets, [], by rw [octets_add, List.append_nil], rfl⟩

theorem forall₂_holds_addAll : ∀ (more : List Written) {w : Writer} {entries : List Written},
    List.Forall₂ w.Holds entries w.records →
      List.Forall₂ (w.addAll more).Holds (entries ++ more) (w.addAll more).records
  | [], w, entries, h => by rwa [List.append_nil]
  | e :: more, w, entries, h => by
    have hlast : List.Forall₂ (w.add e.1 e.2).Holds (entries ++ [e]) (w.add e.1 e.2).records := by
      rw [records_add]
      exact List.rel_append (h.imp fun _ _ hh => hh.add e) (.cons (holds_last w e) .nil)
    rw [List.append_cons]
    exact forall₂_holds_addAll more hlast

/-- **Every record stands for one entry that is in the archive.** -/
theorem forall₂_holds (entries : List Written) :
    List.Forall₂ (addAll {} entries).Holds entries (addAll {} entries).records := by
  have hstart : List.Forall₂ ({} : Writer).Holds [] ({} : Writer).records := .nil
  exact forall₂_holds_addAll entries hstart

/-! ### The layout -/

theorem octets_addAll : ∀ (entries : List Written) (w : Writer),
    (w.addAll entries).octets = w.octets ++ entries.flatMap Written.body
  | [], w => (List.append_nil _).symm
  | e :: entries, w => by
    have hrest : ((w.add e.1 e.2).addAll entries).octets = _ :=
      octets_addAll entries (w.add e.1 e.2)
    rw [octets_add, List.append_assoc] at hrest
    exact hrest

/-- **Octets are laid out for entries**: the entries stand one behind the other, each with its local
header and its packed content.  Behind them stands the directory, with a record for each, in the
same order, that tells where it is. -/
def LaysOut (octets : Bytes) (entries : List Written) : Prop :=
  ∃ records back, octets
      = entries.flatMap Written.body ++ (records.flatMap DirectoryRecord.encode ++ back)
    ∧ List.Forall₂ (Holds ⟨entries.flatMap Written.body, records⟩) entries records

/-- **A finished archive is laid out for what was written**, however large it is. -/
theorem laysOut_finish (entries : List Written) : LaysOut (addAll {} entries).finish entries := by
  have hbodies : (addAll {} entries).octets = entries.flatMap Written.body :=
    octets_addAll entries {}
  have hfinish : ∃ back, (addAll {} entries).finish
      = (addAll {} entries).octets ++ ((addAll {} entries).directory ++ back) := by
    simp only [finish, List.append_assoc]
    exact ⟨_, rfl⟩
  obtain ⟨back, hfinish⟩ := hfinish
  exact ⟨(addAll {} entries).records, back, hbodies ▸ hfinish, hbodies ▸ forall₂_holds entries⟩

/-! ## Archives without wide records -/

/-- The archive needs no wide records: it has fewer than 65535 entries, and less than 4 GiB. -/
structure IsNarrow (w : Writer) : Prop where
  count : w.records.length < 0xffff
  length : w.finish.length < 0x100000000

theorem length_finish (w : Writer) :
    w.octets.length + w.directory.length + endLength ≤ w.finish.length := by
  simp only [finish, EndRecord.encode, fields_cons, fields_nil, List.length_append,
    Bytes.length_ofNat, List.length_nil, endLength]
  omega

theorem IsNarrow.room (h : w.IsNarrow) :
    w.octets.length + w.directory.length + endLength ≤ narrowMark + 1 :=
  Nat.le_trans w.length_finish (Nat.le_of_lt h.length)

/-- The archive as one without wide records. -/
def classic (w : Writer) : Classic := ⟨w.octets, w.records, []⟩

theorem IsNarrow.finish_eq (h : w.IsNarrow) : w.finish = w.classic.octets := by
  have hroom := h.room
  have hcount := h.count
  have hwide : (decide (0xffff ≤ w.records.length)
      || decide (narrowMark ≤ max w.directory.length w.octets.length)) = false := by
    rw [Bool.or_eq_false_iff, decide_eq_false_iff_not, decide_eq_false_iff_not]
    simp only [narrowMark, endLength] at hroom ⊢
    omega
  simp only [finish, hwide, narrow, Bool.false_eq_true, if_false, List.append_nil,
    List.append_assoc]
  rfl

theorem IsNarrow.fits (h : w.IsNarrow) (hparts : ∀ d ∈ w.records, d.HasParts) :
    w.classic.Fits where
  count := Nat.le_of_lt h.count
  size := by
    have := h.room
    simp only [narrowMark, endLength] at this
    change w.directory.length ≤ _
    omega
  offset := by
    have := h.room
    simp only [narrowMark, endLength] at this
    change w.octets.length ≤ _
    omega
  comment := Nat.zero_le _
  parts := hparts

theorem IsNarrow.isClear (h : w.IsNarrow) : w.classic.IsClear where
  endsOnce i hi hle := absurd hi (Nat.not_lt.mpr hle)
  notFull := by
    have hroom := h.room
    have hcount := h.count
    simp only [narrowMark, endLength] at hroom
    rw [Classic.not_isFull_iff]
    change w.records.length ≠ _ ∧ w.directory.length ≠ _ ∧ w.octets.length ≠ _
    omega

end Writer

/-! ## Entries -/

theorem textOf_nameFlags (name : Bytes) :
    Record.textOf (nameFlags name) name = Utf8.decodeLossy name := by
  rw [nameFlags]
  by_cases h : name.any (0x80 ≤ ·)
  · rw [if_pos h, Record.textOf, if_pos (by decide)]
  · rw [if_neg h, Record.textOf, if_neg (by decide), Utf8.decodeLossy_of_ascii]
    simpa using h

theorem textOf_nil (flags : Nat) : Record.textOf flags [] = "" := by
  rw [Record.textOf]
  split <;> rfl

/-- A record tells all of its entry, with what its extra fields say. -/
theorem ofDirectory_eq_ok {d : DirectoryRecord} {r : Record}
    (hextra : Record.readExtra d.extra.length d.extra (Record.ofDirectoryRecord d) = .ok r)
    (hmethod : d.method ≠ Record.aesMethod) (hoffset : r.headerOffset ≤ Bytes.maxCount) :
    Record.ofDirectory 0 d = .ok r := by
  have haes : ¬(d.method = Record.aesMethod ∧ (!r.isAesEncrypted) = true) := fun h => hmethod h.1
  rw [Record.ofDirectory, hextra]
  simp only [bind, Except.bind, pure, Except.pure, if_neg haes, Nat.add_zero,
    if_neg (Nat.not_lt.mpr hoffset)]

theorem modeOf_mode {mode : Nat} (h : 0 < mode ∧ mode < 0x10000) (madeBy : Nat) :
    Record.modeOf madeBy (mode * 65536) = some mode := by
  have hdiv : mode * 65536 / 65536 = mode := Nat.mul_div_cancel _ (by decide)
  rw [Record.modeOf, hdiv, if_neg (by omega), if_pos (by omega)]

theorem nameFlags_even (name : Bytes) : nameFlags name % 2 = 0 ∧ nameFlags name < 0x10000 := by
  rw [nameFlags]
  split <;> decide

namespace Written

variable {e : Written} {offset : Nat}

/-- The entry stands within the reach of narrow fields: its place and its packed size are below
their mark. -/
structure IsSmall (e : Written) (offset : Nat) : Prop where
  packed : e.packed.length < Writer.narrowMark
  offset : offset < Writer.narrowMark

/-- The size of the content does not fit a narrow field. -/
def isWide (e : Written) : Bool := Writer.narrowMark ≤ e.2.length

/-- The extra fields of the directory record. -/
def wideFields (e : Written) (offset : Nat) : Bytes :=
  if e.isWide then
    fields [(2, 1), (2, 24), (8, e.2.length), (8, e.packed.length), (8, offset)]
  else []

theorem length_wideFields_le (e : Written) (offset : Nat) : (e.wideFields offset).length ≤ 28 := by
  rw [wideFields]
  split <;> simp

theorem IsSmall.directoryRecord_eq (h : e.IsSmall offset) : e.directoryRecord offset =
    { madeBy := 813, versionNeeded := if e.isWide then 45 else 20, flags := nameFlags e.1.name
      method := e.1.method.number, time := 0, date := headerDate, checksum := e.checksum
      compressedSize := Writer.narrow e.isWide e.packed.length
      uncompressedSize := Writer.narrow e.isWide e.2.length, disk := 0, internalAttributes := 0
      externalAttributes := e.1.mode * 65536, headerOffset := Writer.narrow e.isWide offset
      name := e.1.name, extra := e.wideFields offset, comment := [] } := by
  have hwide : decide (Writer.narrowMark ≤ max (max e.packed.length e.2.length) offset)
      = e.isWide := by
    have hp := h.packed
    have ho := h.offset
    rw [isWide, decide_eq_decide]
    omega
  rw [directoryRecord, Writer.record]
  simp only [hwide, wideFields]

/-- The content is far from what can be told. -/
theorem IsSmall.length_le (h : e.IsSmall offset) (hf : e.Fits) : e.2.length ≤ Bytes.maxOffset := by
  have hpacked : (e.1.method.pack e.2).length < Writer.narrowMark := h.packed
  have hle := hf.exact.length_le e.2
  rw [Writer.narrowMark] at hpacked
  rw [Bytes.maxOffset]
  omega

theorem IsSmall.hasParts (h : e.IsSmall offset) (hf : e.Fits) :
    (e.directoryRecord offset).HasParts := by
  rw [h.directoryRecord_eq]
  exact ⟨hf.name, Nat.lt_of_le_of_lt (e.length_wideFields_le offset) (by decide),
    Nat.zero_lt_succ _⟩

theorem narrow_lt {wide : Bool} {n : Nat} (h : wide = false → n < Writer.narrowMark) :
    Writer.narrow wide n < 0x100000000 := by
  cases wide with
  | true => exact (by decide : Writer.narrowMark < 0x100000000)
  | false => exact Nat.lt_trans (h rfl) (by decide)

/-- The numbers of the record fit their fields. -/
theorem IsSmall.stored_eq (h : e.IsSmall offset) (hf : e.Fits) :
    (e.directoryRecord offset).stored = e.directoryRecord offset := by
  have hp : Writer.narrow e.isWide e.packed.length < 0x100000000 := narrow_lt fun _ => h.packed
  have ho : Writer.narrow e.isWide offset < 0x100000000 := narrow_lt fun _ => h.offset
  have hs : Writer.narrow e.isWide e.2.length < 0x100000000 :=
    narrow_lt fun hn => Nat.not_le.mp (of_decide_eq_false hn)
  have hversion : (if e.isWide then 45 else 20) < 0x10000 := by split <;> decide
  have hmode := hf.mode
  have hflags := (nameFlags_even e.1.name).2
  have hchecksum : e.checksum < 0x100000000 := UInt32.toNat_lt _
  have hmethod := e.1.method.number_eq
  rw [h.directoryRecord_eq]
  simp only [DirectoryRecord.stored, headerDate, DirectoryRecord.mk.injEq, true_and, and_true]
  omega

/-- **The record stands for the entry**, also where the size is told in a wide field. -/
theorem IsSmall.ofDirectory_eq (h : e.IsSmall offset) (hf : e.Fits) :
    Record.ofDirectory 0 (e.directoryRecord offset).stored = .ok (e.record offset) := by
  have hs : e.2.length ≤ Bytes.maxCount := Nat.le_trans (h.length_le hf) (by decide)
  have ho : offset ≤ Bytes.maxCount := Nat.le_of_lt (Nat.lt_trans h.offset (by decide))
  have hp : e.packed.length ≤ Bytes.maxCount := Nat.le_of_lt (Nat.lt_trans h.packed (by decide))
  have hmethod : e.1.method.number ≠ Record.aesMethod := by
    rcases e.1.method.number_eq with h | h <;> rw [h] <;> decide
  rw [h.stored_eq hf, h.directoryRecord_eq]
  refine ofDirectory_eq_ok ?_ hmethod ho
  rw [Record.ofDirectoryRecord]
  simp only [textOf_nameFlags, textOf_nil, modeOf_mode hf.mode, (nameFlags_even e.1.name).1]
  rw [wideFields]
  cases hwide : e.isWide with
  | true => exact Record.readExtra_wide hs hp ho _ _
  | false => rfl

/-- The local header of an entry. -/
def header (e : Written) : Bytes := Writer.header e.1 e.checksum e.packed.length e.2.length

/-- The content is found behind the local header. -/
theorem lengthOf?_header (hf : e.Fits) (rest : Bytes) :
    LocalHeader.lengthOf? (e.header ++ rest) = some e.header.length := by
  refine LocalHeader.lengthOf?_encode hf.name ?_ rest
  dsimp only
  split <;> simp

theorem checkAtEnd_checksum (e : Written) : Archive.checkAtEnd e.checksum e.2 = [] := if_pos rfl

/-- The reads of an entry's packed content. -/
def reads (e : Written) (raw : Bytes) : List Read :=
  match e.1.method with
  | .stored => Archive.storedReads e.checksum raw
  | .deflated .. => Inflate.reads raw (Archive.checkAtEnd e.checksum)

/-- **The reads of what was packed carry the content.** -/
theorem carries_reads (hf : e.Fits) : Carries (e.reads e.packed) e.2 := by
  have hexact := hf.exact
  rw [reads, packed]
  cases hmethod : e.1.method with
  | stored =>
    change Carries (Archive.storedReads e.checksum e.2) e.2
    rw [Archive.storedReads, checkAtEnd_checksum, List.append_nil]
    exact Stream.carries_readsOf e.2
  | deflated encode early =>
    rw [hmethod] at hexact
    obtain ⟨front, hcarries, hreads⟩ :=
      Inflate.reads_eq (hexact e.2) (Archive.checkAtEnd e.checksum)
    change Carries (Inflate.reads (encode e.2) _) e.2
    rw [hreads, checkAtEnd_checksum, List.append_nil]
    exact hcarries

/-- **An entry is opened where its record says it is**, and what is read of it is the content that
was written. -/
theorem openEntry_record {archive : Archive} {fs : FileSystem} {front back : Bytes}
    (hf : e.Fits) (hs : e.IsSmall front.length)
    (ho : archive.source.octets fs = front ++ (e.body ++ back)) :
    ∃ entry, archive.openEntry (e.record front.length) fs = .ok entry
      ∧ entry.descriptor = (e.record front.length).descriptor
      ∧ ∀ fs', archive.source.octets fs' = archive.source.octets fs →
        Carries (entry.reads fs') e.2 := by
  have hbody : e.body = e.header ++ e.packed := rfl
  have hseek : archive.source.medium.seek front.length = .ok () := by
    have hreach : ¬Bytes.maxOffset < front.length :=
      Nat.not_lt.mpr (Nat.le_of_lt (Nat.lt_trans hs.offset (by decide)))
    cases archive.source with
    | memory octets => rfl
    | disk file => exact if_neg hreach
  have hstart : archive.contentStart (e.record front.length) fs
      = .ok (front.length + e.header.length) := by
    rw [Archive.contentStart, show (e.record front.length).headerOffset = front.length from rfl,
      hseek, ho, List.drop_left, hbody, List.append_assoc, lengthOf?_header hf]
    rfl
  have hslice : Bytes.slice (archive.source.octets fs) (front.length + e.header.length)
      e.packed.length = e.packed := by
    rw [ho, hbody, Bytes.slice, ← List.drop_drop, List.drop_left, List.append_assoc,
      List.drop_left, List.take_left]
  refine ⟨⟨(e.record front.length).descriptor, fun fs' => e.reads
    (Bytes.slice (archive.source.octets fs') (front.length + e.header.length)
      e.packed.length)⟩, ?_, rfl, fun fs' hfs' => ?_⟩
  · rw [Archive.openEntry, hstart]
    simp only [record, reads]
    cases e.1.method <;> rfl
  · change Carries (e.reads (Bytes.slice (archive.source.octets fs') _ _)) e.2
    rw [hfs', hslice]
    exact e.carries_reads hf

end Written

/-! ## The whole archive -/

/-- The entry stands in the octets where its record says. -/
def StandsIn (octets : Bytes) (e : Written) (r : Record) : Prop :=
  ∃ front back, octets = front ++ (e.body ++ back) ∧ e.IsSmall front.length
    ∧ r = e.record front.length

/-- The records stand for entries that can be read back. -/
abbrev Records (octets : Bytes) (entries : List Written) (records : List Record) : Prop :=
  List.Forall₂ (fun e r => e.Fits ∧ StandsIn octets e r) entries records

/-- **Entries whose archive can be read back** under the limits: they fit their fields, have
different names and are not too many, and the archive is narrow. -/
structure IsLegible (limits : Limits) (entries : List Written) : Prop where
  fits : ∀ e ∈ entries, e.Fits
  names : (entries.map fun e => Utf8.decodeLossy e.1.name).Nodup
  count : entries.length ≤ limits.maxEntryCount
  narrow : (Writer.addAll {} entries).IsNarrow

namespace Writer

variable {w : Writer} {e : Written} {d : DirectoryRecord} {entries : List Written}

theorem Holds.isSmall (hw : w.IsNarrow) (h : w.Holds e d) : ∃ front back,
    w.finish = front ++ (e.body ++ back) ∧ e.IsSmall front.length
      ∧ d = e.directoryRecord front.length := by
  obtain ⟨front, back, ho, rfl⟩ := h
  have hlength : w.octets.length = front.length + e.body.length + back.length := by
    rw [ho, List.length_append, List.length_append, Nat.add_assoc]
  have hbody : e.packed.length ≤ e.body.length := by
    rw [Written.body, List.length_append]
    exact Nat.le_add_left _ _
  have hroom := hw.room
  refine ⟨front, back ++ (w.classic.directory ++ w.classic.endRecord.encode), ?_,
    ⟨?_, ?_⟩, rfl⟩
  · rw [hw.finish_eq, Classic.octets, classic, ho]
    simp only [List.append_assoc]
  all_goals
    simp only [endLength] at hroom
    omega

theorem exists_records (hw : w.IsNarrow) {ds : List DirectoryRecord}
    (h : List.Forall₂ w.Holds entries ds) (hfits : ∀ e ∈ entries, e.Fits) :
    (∀ d ∈ ds, d.HasParts) ∧ ∃ rs,
      List.Forall₂ (fun d r => Record.ofDirectory 0 d.stored = .ok r) ds rs
        ∧ List.Forall₂ (StandsIn w.finish) entries rs := by
  induction h with
  | nil => exact ⟨fun _ hd => absurd hd List.not_mem_nil, [], .nil, .nil⟩
  | cons hhead _ ih =>
    obtain ⟨hfit, hmore⟩ := List.forall_mem_cons.mp hfits
    obtain ⟨hparts, rs, hread, hstand⟩ := ih hmore
    obtain ⟨front, back, ho, hsmall, rfl⟩ := hhead.isSmall hw
    exact ⟨List.forall_mem_cons.mpr ⟨hsmall.hasParts hfit, hparts⟩, _ :: rs,
      .cons (hsmall.ofDirectory_eq hfit) hread, .cons ⟨front, back, ho, hsmall, rfl⟩ hstand⟩

theorem map_name_of_standsIn {octets : Bytes} {rs : List Record}
    (h : List.Forall₂ (StandsIn octets) entries rs) :
    rs.map (·.name) = entries.map fun e => Utf8.decodeLossy e.1.name := by
  induction h with
  | nil => rfl
  | cons hhead _ ih =>
    obtain ⟨front, back, -, -, rfl⟩ := hhead
    rw [List.map_cons, List.map_cons, ih]
    rfl

theorem map_of_holds {α : Type} {f : Written → α} {g : DirectoryRecord → α}
    (hg : ∀ e offset, g (Written.directoryRecord e offset) = f e) {ds : List DirectoryRecord}
    (h : List.Forall₂ w.Holds entries ds) : ds.map g = entries.map f := by
  induction h with
  | nil => rfl
  | cons hhead _ ih =>
    obtain ⟨front, back, -, rfl⟩ := hhead
    rw [List.map_cons, List.map_cons, ih, hg]

/-- **The directory that was written is found and read**, with a record for each entry. -/
theorem exists_read {limits : Limits} (h : IsLegible limits entries) (medium : Medium) :
    (addAll {} entries).classic.Fits
      ∧ locate medium (addAll {} entries).finish = .ok (addAll {} entries).classic.extent
      ∧ ∃ rs, readDirectory (addAll {} entries).finish = .ok rs
        ∧ List.Forall₂ (StandsIn (addAll {} entries).finish) entries rs := by
  obtain ⟨hfits, hnames, -, hw⟩ := h
  obtain ⟨hparts, rs, hread, hstand⟩ := exists_records hw (forall₂_holds entries) hfits
  have hdistinct : distinct rs = rs := distinct_eq_self (by rwa [map_name_of_standsIn hstand])
  have hfit := hw.fits hparts
  refine ⟨hfit, ?_, rs, ?_, hstand⟩
  · rw [hw.finish_eq]
    exact (Classic.locate_eq_ok_iff hfit medium).mpr hw.isClear
  · rw [hw.finish_eq, Classic.readDirectory_octets hfit rfl hw.isClear.notFull hread, hdistinct]

/-- **An archive that was written opens with a record for each entry.** -/
theorem load_finish {limits : Limits} {source : Source} {fs : FileSystem}
    (h : IsLegible limits entries) (ho : source.octets fs = (addAll {} entries).finish) :
    ∃ rs, Archive.load limits source fs = .ok ⟨source, rs⟩
      ∧ Records (source.octets fs) entries rs := by
  obtain ⟨hfit, hlocate, rs, hread, hstand⟩ := exists_read h source.medium
  have hholds := forall₂_holds entries
  have hraw : ((addAll {} entries).records.map (·.name)).Nodup := by
    rw [map_of_holds (fun _ _ => rfl) hholds]
    refine List.Nodup.of_map Utf8.decodeLossy ?_
    rw [List.map_map]
    exact h.names
  rw [h.narrow.finish_eq] at hlocate
  have hscan := (Classic.scan_of_locate hfit limits hlocate).mpr
    ⟨hholds.length_eq ▸ h.count, hraw.sublist List.filter_sublist⟩
  refine ⟨rs, Archive.load_eq_ok_iff.mpr ⟨ho ▸ hread, ?_, rfl⟩,
    (List.forall₂_and_left _ _).mpr ⟨h.fits, ho ▸ hstand⟩⟩
  rw [ho, h.narrow.finish_eq, hscan]
  exact congrArg Except.ok (hholds.length_eq.symm.trans hstand.length_eq)

end Writer

end GuardedArchive.Zip
