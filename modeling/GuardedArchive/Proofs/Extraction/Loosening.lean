import GuardedArchive.Proofs.Entry.Grammar
import GuardedArchive.Proofs.Extraction.Admission
import GuardedArchive.Proofs.Extraction.Concord
import GuardedArchive.Proofs.Text.Utf8

/-!
# Proofs/Extraction/Loosening — larger limits allow no less

What is extracted within some limits is extracted within larger ones too, with the same report and
the same files (`extraction_loosens`).

Each check that passes, passes with a larger bound, so each step of an extraction **extends** the
step with the smaller one.  The scan alone asks more where names may be longer: it looks for
repetitions only among the names that are not too long.  But an extraction checks the length of
every name that the reader shows, so where the reader shows the records that were scanned, under
names that are no shorter, none was too long for the scan.
-/

namespace GuardedArchive

/-- **Each bound is at most the other.**  The ratio is a number, as every finite one is. -/
structure Limits.AtMost (limits limits' : Limits) : Prop where
  entryCount : limits.maxEntryCount ≤ limits'.maxEntryCount
  entrySize : limits.maxEntrySize ≤ limits'.maxEntrySize
  compressionRatio : ¬limits'.maxCompressionRatio.lt limits.maxCompressionRatio
  isNumber : ¬limits.maxCompressionRatio.isNaN
  totalSize : limits.maxTotalSize ≤ limits'.maxTotalSize
  entryNameLength : limits.maxEntryNameLength ≤ limits'.maxEntryNameLength

variable {limits limits' : Limits} {name normal : String} {count size compressed : Nat}

/-! ## Checks -/

/-- What is above the larger of two numbers is above the smaller. -/
theorem Binary64.lt_of_not_lt {x y z : Binary64} (hx : ¬x.isNaN) (hxy : ¬y.lt x)
    (hyz : y.lt z) : x.lt z := by
  simp only [Binary64.lt, Bool.and_eq_true, Bool.not_eq_true', decide_eq_true_eq] at *
  obtain ⟨⟨hy, hz⟩, hlt⟩ := hyz
  simp only [hy, Bool.eq_false_of_not_eq_true hx, true_and] at *
  exact ⟨hz, by omega⟩

namespace Limits.AtMost

theorem checkEntryCount (h : limits.AtMost limits') (hc : limits.checkEntryCount count = .ok ()) :
    limits'.checkEntryCount count = .ok () :=
  checkEntryCount_eq_ok_iff.mpr ((checkEntryCount_eq_ok_iff.mp hc).trans h.entryCount)

theorem checkTotalSize (h : limits.AtMost limits') (hc : limits.checkTotalSize size = .ok ()) :
    limits'.checkTotalSize size = .ok () :=
  checkTotalSize_eq_ok_iff.mpr ((checkTotalSize_eq_ok_iff.mp hc).trans h.totalSize)

theorem checkCompressionRatio (h : limits.AtMost limits')
    (hc : limits.checkCompressionRatio name compressed size = .ok ()) :
    limits'.checkCompressionRatio name compressed size = .ok () := by
  rw [Limits.checkCompressionRatio] at hc ⊢
  split_ifs at hc ⊢ with hzero
  · rfl
  · dsimp only at hc ⊢
    rw [if_neg fun hlt => ?_]
    rw [if_pos (Binary64.lt_of_not_lt h.isNumber h.compressionRatio hlt)] at hc
    cases hc

theorem checkSize {entry : EntryDescriptor} (h : limits.AtMost limits')
    (hc : entry.checkSize limits = .ok ()) : entry.checkSize limits' = .ok () := by
  rw [EntryDescriptor.checkSize] at hc ⊢
  cases hd : entry.declaredSize with
  | none =>
    rw [hd] at hc
    cases hc
  | some size =>
    rw [hd] at hc
    dsimp only at hc ⊢
    split_ifs at hc with hsize
    rw [if_neg (Nat.not_lt.mpr ((Nat.not_lt.mp hsize).trans h.entrySize))]
    exact h.checkCompressionRatio hc

theorem checkName (h : limits.AtMost limits') (hc : EntryName.check limits name = .ok normal) :
    EntryName.check limits' name = .ok normal := by
  simp only [EntryName.check] at hc ⊢
  split_ifs at hc with hblank hlong hcontrol hup habsolute harrow
  have hshort := (Nat.not_lt.mp hlong).trans h.entryNameLength
  rw [if_neg hblank, if_neg (Nat.not_lt.mpr hshort), if_neg hcontrol, if_neg hup,
    if_neg habsolute, if_neg harrow]
  exact hc

end Limits.AtMost

/-! ## Lengths of names -/

/-- **A name that passes its check is not too long.** -/
theorem EntryName.utf8ByteSize_le (h : check limits name = .ok normal) :
    name.utf8ByteSize ≤ limits.maxEntryNameLength :=
  (check_eq_ok_iff.mp h).1 .notLong

namespace Zip

/-- The text of a name is not shorter than the name. -/
theorem Record.length_le_textOf (flags : Nat) (octets : Bytes) :
    octets.length ≤ (textOf flags octets).utf8ByteSize := by
  rw [textOf]
  split
  · exact Utf8.length_le_decodeLossy octets
  · exact CodePage.length_le_decode octets

/-! ## The scan -/

/-- The reader shows a record under a name that is not shorter than the raw one. -/
def Shows (d : DirectoryRecord) (r : Record) : Prop := d.name.length ≤ r.name.utf8ByteSize

/-- A record whose name is decoded is shown. -/
theorem Shows.of_textOf {d : DirectoryRecord} {r : Record}
    (h : r.name = Record.textOf d.flags d.name) : Shows d r := by
  rw [Shows, h]
  exact Record.length_le_textOf d.flags d.name

/-- **The reader shows the records that are scanned**, in their order. -/
def ShowsScanned (medium : Medium) (octets : Bytes) : Prop :=
  ∀ extent records, locate medium octets = .ok extent → readDirectory octets = .ok records →
    List.Forall₂ Shows (extent.records octets) records

theorem forall₂_shows {ds : List DirectoryRecord} {rs : List Record}
    (h : ds.map (fun d => Record.textOf d.flags d.name) = rs.map (·.name)) :
    List.Forall₂ Shows ds rs := by
  have heq := List.forall₂_eq_eq_eq.symm ▸ h
  rw [List.forall₂_map_left_iff, List.forall₂_map_right_iff] at heq
  exact heq.imp fun _ _ h => .of_textOf h.symm

/-- **What was written is shown as it is scanned.** -/
theorem showsScanned_finish {entries : List Written} (h : IsLegible limits entries)
    (medium : Medium) : ShowsScanned medium (Writer.addAll {} entries).finish := by
  intro extent records hlocate hread
  obtain ⟨hfit, hlocate', rs, hread', hstand⟩ := Writer.exists_read h medium
  obtain rfl := Except.ok.inj (hlocate'.symm.trans hlocate)
  obtain rfl := Except.ok.inj (hread'.symm.trans hread)
  rw [h.narrow.finish_eq, Classic.records_extent hfit]
  refine forall₂_shows ?_
  rw [List.map_map, Writer.map_name_of_standsIn hstand]
  refine Writer.map_of_holds (fun e offset => ?_) (Writer.forall₂_holds entries)
  have hflags : nameFlags e.1.name % 0x10000 = nameFlags e.1.name :=
    Nat.mod_eq_of_lt (nameFlags_even e.1.name).2
  exact (congrArg (Record.textOf · e.1.name) hflags).trans (textOf_nameFlags e.1.name)

/-- Where the names that are shown are not too long, those that were scanned are not. -/
theorem forall_length_le_of_shows {ds : List DirectoryRecord} {rs : List Record} {bound : Nat}
    (h : List.Forall₂ Shows ds rs) (hrs : ∀ r ∈ rs, r.name.utf8ByteSize ≤ bound) :
    ∀ d ∈ ds, d.name.length ≤ bound := by
  induction h with
  | nil => exact fun _ hd => absurd hd List.not_mem_nil
  | cons hhead _ ih =>
    obtain ⟨hr, hrs⟩ := List.forall_mem_cons.mp hrs
    exact List.forall_mem_cons.mpr ⟨Nat.le_trans hhead hr, ih hrs⟩

/-- **Where no name is too long**, larger limits do not change a scan that succeeds. -/
theorem scanFrom_of_atMost (h : limits.AtMost limits') : ∀ {fuel : Nat} {directory : Bytes}
    {count n : Nat} {seen : List Bytes},
    (∀ d ∈ DirectoryRecord.upTo fuel directory, d.name.length ≤ limits.maxEntryNameLength) →
    scanFrom limits fuel directory count seen = .ok n →
      scanFrom limits' fuel directory count seen = .ok n
  | 0, _, _, _, _, _, hs => hs
  | fuel + 1, directory, count, n, seen, hnames, hs => by
    rw [scanFrom] at hs ⊢
    rw [DirectoryRecord.upTo] at hnames
    cases hnext : DirectoryRecord.next directory with
    | none =>
      rw [hnext] at hs
      exact hs
    | cut =>
      rw [hnext] at hs
      obtain ⟨_, -, he⟩ := bind_eq_ok_iff.mp hs
      cases he
    | record r rest =>
      rw [hnext] at hs hnames
      obtain ⟨hname, hrest⟩ := List.forall_mem_cons.mp hnames
      obtain ⟨_, hcount, hs⟩ := bind_eq_ok_iff.mp hs
      refine bind_eq_ok_iff.mpr ⟨(), h.checkEntryCount hcount, ?_⟩
      rw [if_neg (Nat.not_lt.mpr hname)] at hs
      rw [if_neg (Nat.not_lt.mpr (hname.trans h.entryNameLength))]
      split at hs
      · cases hs
      next hseen =>
        rw [if_neg hseen]
        exact scanFrom_of_atMost h hrest hs

theorem scan_of_atMost {medium : Medium} {octets : Bytes} (h : limits.AtMost limits')
    (hnames : ∀ extent, locate medium octets = .ok extent →
      ∀ d ∈ extent.records octets, d.name.length ≤ limits.maxEntryNameLength)
    (hs : scan limits medium octets = .ok count) : scan limits' medium octets = .ok count := by
  obtain ⟨extent, hlocate, hs⟩ := bind_eq_ok_iff.mp hs
  obtain ⟨_, hseek, hs⟩ := bind_eq_ok_iff.mp hs
  exact bind_eq_ok_iff.mpr ⟨extent, hlocate, bind_eq_ok_iff.mpr
    ⟨(), hseek, scanFrom_of_atMost h (hnames extent hlocate) hs⟩⟩

/-- **An archive whose names are not too long is opened within larger limits too.** -/
theorem Archive.load_of_atMost {source : Source} {fs : FileSystem} {archive : Archive}
    (h : limits.AtMost limits') (hshows : ShowsScanned source.medium (source.octets fs))
    (hl : Archive.load limits source fs = .ok archive)
    (hnames : ∀ r ∈ archive.records, r.name.utf8ByteSize ≤ limits.maxEntryNameLength) :
    Archive.load limits' source fs = .ok archive := by
  obtain ⟨hread, hscan, hsource⟩ := Archive.load_eq_ok_iff.mp hl
  exact Archive.load_eq_ok_iff.mpr ⟨hread, scan_of_atMost h (fun extent hlocate =>
    forall_length_le_of_shows (hshows extent _ hlocate hread) hnames) hscan, hsource⟩

end Zip

namespace Extraction

open GuardedArchive.Stream (copyFrom copyChunks)
open Zip (Archive Entry ShowsScanned Source)

variable {ι : Type} {dest : Destination} {entry : EntryDescriptor}
  {openEntry : ι → FileSystem → Except ArchiveError Entry} {seen : List String}
  {placement : Placement} {loc : Location} {before fs : FileSystem} {report : ExtractionReport}

/-! ## One entry -/

theorem Admissible.of_atMost (h : limits.AtMost limits') (ha : Admissible limits entry) :
    Admissible limits' entry where
  name := h.checkName ha.name
  size := h.checkSize ha.size
  notLink := ha.notLink
  named := ha.named

theorem judge_of_atMost (h : limits.AtMost limits')
    (hj : judge limits dest seen entry = .ok placement) :
    judge limits' dest seen entry = .ok placement := by
  obtain ⟨ha, hnew, hp⟩ := judge_eq_ok_iff.mp hj
  exact judge_eq_ok_iff.mpr ⟨ha.of_atMost h, hnew, hp⟩

theorem acceptChunk_extends (h : limits.AtMost limits') (name : String) (loc : Location)
    (chunk : Bytes) (total : Nat) : Effect.Extends (acceptChunk limits' name loc chunk total)
      (acceptChunk limits name loc chunk total) := by
  intro s _ s' ha
  obtain ⟨hentry, htotal, hcount, rfl⟩ := acceptChunk_eq_ok ha
  rw [acceptChunk_apply, if_neg (Nat.not_lt.mpr (hentry.trans h.entrySize)),
    if_neg (Nat.not_lt.mpr hcount), if_neg (Nat.not_lt.mpr (htotal.trans h.totalSize))]

/-- **A copy that succeeds is the same** where each chunk that was taken is taken in the same
way. -/
theorem copyFrom_of_extends {σ : Type} {accept accept' : Bytes → Nat → Effect σ Unit}
    (h : ∀ chunk total, (accept' chunk total).Extends (accept chunk total)) :
    ∀ (reads : List Read) {total n : Nat} {s : σ},
      (copyFrom accept reads total s).result = .ok n →
        copyFrom accept' reads total s = copyFrom accept reads total s
  | [], _, _, _, _ => rfl
  | .interrupted :: reads, _, _, _, hok => copyFrom_of_extends h reads hok
  | .failure _ :: _, _, _, _, hok => by cases hok
  | .data chunk :: reads, total, n, s, hok => by
    simp only [copyFrom] at hok ⊢
    by_cases hc : chunk.isEmpty
    · rw [if_pos hc, if_pos hc]
    by_cases hcount : Bytes.maxCount < total + chunk.length
    · rw [if_pos hcount, if_pos hcount]
    simp only [if_neg hc, if_neg hcount] at hok ⊢
    rcases ha : accept chunk (total + chunk.length) s with ⟨e | _, s'⟩
    · rw [ha] at hok
      cases hok
    · rw [ha] at hok
      rw [h chunk _ s () s' ha]
      exact copyFrom_of_extends h reads hok

theorem writeFile_extends (h : limits.AtMost limits') (name : String) (p : Path) :
    (writeFile limits' name p).Extends (writeFile limits name p) := by
  intro s _ s' hw
  rw [writeFile] at hw ⊢
  rcases hc : s.files.create p with e | ⟨loc, fs⟩
  · rw [hc] at hw
    exact hw
  rw [hc] at hw
  dsimp only at hw ⊢
  rcases hr : (copyChunks (acceptChunk limits name loc) (s.reader fs)
    { s with files := fs }).result with e | n
  · rw [hr] at hw
    cases hw
  · have hsame : copyChunks (acceptChunk limits' name loc) (s.reader fs) { s with files := fs }
        = copyChunks (acceptChunk limits name loc) (s.reader fs) { s with files := fs } :=
      copyFrom_of_extends (acceptChunk_extends h name loc) _ hr
    rw [hsame]
    exact hw

theorem checkTotal_extends (h : limits.AtMost limits') :
    (checkTotal limits').Extends (checkTotal limits) := .look fun _ _ => h.checkTotalSize

/-- **An entry that is placed is placed within larger limits too**, in the same way. -/
theorem extractEntry_extends (h : limits.AtMost limits') (dest : Destination)
    (entry : EntryDescriptor) :
    (extractEntry limits' dest entry).Extends (extractEntry limits dest entry) := by
  refine .bind (.look fun s _ => judge_of_atMost h) fun placement => ?_
  cases placement with
  | root => exact .refl _
  | directory name p => exact .refl _
  | file name p =>
    refine .bind (.refl _) fun _ => .bind (.refl _) fun _ => ?_
    exact .bind (writeFile_extends h entry.name p) fun _ =>
      .bind (checkTotal_extends h) fun _ => .refl _

/-! ## A whole extraction -/

theorem countEntry_extends (h : limits.AtMost limits') :
    (countEntry limits').Extends (countEntry limits) :=
  .bind (.refl _) fun _ => .look fun _ _ => h.checkEntryCount

theorem extractEach_extends (h : limits.AtMost limits') (dest : Destination)
    (openEntry : ι → FileSystem → Except ArchiveError Entry) : ∀ items : List ι,
    (extractEach limits' dest openEntry items).Extends (extractEach limits dest openEntry items)
  | [] => checkTotal_extends h
  | _ :: items =>
    .bind (countEntry_extends h) fun _ => .bind (.refl _) fun entry => .bind (.refl _) fun _ =>
      .bind (extractEntry_extends h dest entry.descriptor) fun _ =>
        extractEach_extends h dest openEntry items

/-- **What is extracted within some limits is extracted within larger ones**, to the same end. -/
theorem run_extends (h : limits.AtMost limits') (dest : Destination)
    (openEntry : ι → FileSystem → Except ArchiveError Entry) (items : List ι) :
    Effect.Extends (run limits' dest openEntry items) (run limits dest openEntry items) := by
  intro fs report fs' hrun
  obtain ⟨s, heach, hreport⟩ := run_eq_ok_iff.mp hrun
  exact run_eq_ok_iff.mpr ⟨s, extractEach_extends h dest openEntry items _ _ _ heach, hreport⟩

/-- **Loosening limits never breaks an extraction**: where the reader shows the records that are
scanned, what succeeds within some limits does within larger ones, with the same report and the same
files. -/
theorem extraction_loosens (limits limits' : Limits) (dest : Destination) (source : Source)
    (before fs : FileSystem) (report : ExtractionReport) (h : limits.AtMost limits')
    (hshows : ShowsScanned source.medium (source.octets before))
    (hrun : ofSource limits dest source before = (.ok report, fs)) :
    ofSource limits' dest source before = (.ok report, fs) := by
  obtain ⟨archive, hl, hrun⟩ := ofSource_eq_ok_iff.mp hrun
  obtain ⟨s, heach, -⟩ := run_eq_ok_iff.mp hrun
  have hnames : ∀ r ∈ archive.records, r.name.utf8ByteSize ≤ limits.maxEntryNameLength :=
    fun r hr => EntryName.utf8ByteSize_le
      ((Places.of_extractEach heach).admissible (describes_openEntry archive) r hr).name
  exact ofSource_eq_ok_iff.mpr ⟨archive, Archive.load_of_atMost h hshows hl hnames,
    run_extends h dest archive.openEntry archive.records _ _ _ hrun⟩

/-! ## A directory with a file in it, and more room -/

/-- Limits with more room than those that stand where none are chosen. -/
def roomier : Limits where
  maxEntryCount := 20000
  maxEntryNameLength := 8192

theorem atMost_roomier : Limits.AtMost {} roomier := by
  constructor <;> decide

/-- The directory and the file are extracted within more room too. -/
theorem smallArchive_loosens : Limits.AtMost {} roomier ∧ ShowsScanned .disk smallArchive
    ∧ ∃ fs', ofSource roomier ⟨[[0x74]]⟩ (.disk [[0x7a]])
        ((holding smallArchive).put [[0x74]] .directory) = (.ok ⟨.ofString "/t", 2, 1, 1, 2⟩, fs')
      ∧ fs'.node? [[0x74], [0x64], [0x66]] = some (.file [0x31, 0x32]) := by
  have hshows : ShowsScanned .disk smallArchive := Zip.showsScanned_finish isLegible_smallTree .disk
  have hoctets : (Source.disk [[0x7a]]).octets ((holding smallArchive).put [[0x74]] .directory)
      = smallArchive := rfl
  obtain ⟨fs', hrun, hnode⟩ := ofSource_holding
  have hsame := extraction_loosens {} roomier ⟨[[0x74]]⟩ (.disk [[0x7a]])
    ((holding smallArchive).put [[0x74]] .directory) fs' _ atMost_roomier (hoctets ▸ hshows) hrun
  exact ⟨atMost_roomier, hshows, fs', hsame, hnode⟩

end Extraction

end GuardedArchive
