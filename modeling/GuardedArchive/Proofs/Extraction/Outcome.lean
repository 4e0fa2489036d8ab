import Mathlib
import GuardedArchive.Proofs.Extraction.Denotation
import GuardedArchive.Proofs.Extraction.Running
import GuardedArchive.Proofs.Zip.Agreement

/-!
# Proofs/Extraction/Outcome — a finished extraction is what its entries denote

An extraction into an empty directory that succeeds leaves there what its entries denote and nothing
else, changes nothing outside, and reports what it did (`extraction_denotes`).

`Built` carries this through the turns.  As what stands below the root is what the entries placed so
far denote, no link stands on any way there, and every path leads where it says; and as no two names
noted are the same, a file is written where nothing stands.
-/

namespace GuardedArchive.Extraction

open GuardedArchive.Stream (delivered)
open Zip (Archive Entry Record Source)

/-- So far the extraction has done what the entries denote, and noted their names. -/
structure Built (before : FileSystem) (dest : Destination) (entries : List Exposed)
    (s : Extraction) : Prop where
  extracted : Extracted before dest entries (s.report dest) s.files
  names : ∀ name, name ∈ s.tally.names
    ↔ ∃ entry ∈ entries, entry.1.location ≠ [] ∧ entry.1.placedName = name

variable {ι : Type} {limits : Limits} {dest : Destination} {before fs fs' : FileSystem}
  {openEntry : ι → FileSystem → Except ArchiveError Entry} {item : ι} {items : List ι}
  {exposed : ι → Exposed} {entries : List Exposed} {s s' : Extraction} {report : ExtractionReport}

/-- Whatever happens below the root, this is what opening an item exposes. -/
def Exposes (root : Location) (before : FileSystem)
    (openEntry : ι → FileSystem → Except ArchiveError Entry) (exposed : ι → Exposed) : Prop :=
  ∀ item fs fs' entry, SameOutside root before fs → SameOutside root before fs' →
    openEntry item fs = .ok entry →
      entry.descriptor = (exposed item).1 ∧ delivered (entry.reads fs') = (exposed item).2

/-! ## Names -/

/-- The names noted with one more entry. -/
theorem Built.mem_insertName_iff {entry : Exposed} {t : Tally} (h : Built before dest entries s)
    (hne : entry.1.location ≠ []) (ht : t.names = s.tally.names) (name : String) :
    name ∈ (t.insertName entry.1.placedName).names
      ↔ ∃ e ∈ entries ++ [entry], e.1.location ≠ [] ∧ e.1.placedName = name := by
  rw [mem_insertName, ht, h.names]
  simp only [List.mem_append, List.mem_singleton, or_and_right, exists_or, exists_eq_left]
  rw [or_comm, eq_comm (a := name)]
  exact or_congr_right (iff_and_self.mpr fun _ => hne)

/-- **An entry that is not noted has a location of its own.** -/
theorem Built.location_ne {entry : Exposed} (h : Built before dest entries s)
    (hn : entry.1.placedName ∉ s.tally.names) (hne : entry.1.location ≠ []) :
    ∀ e ∈ entries, e.1.location ≠ entry.1.location := fun e he heq =>
  hn ((h.names _).mpr ⟨e, he, fun hl => hne (heq.symm.trans hl),
    EntryDescriptor.placedName_eq_iff.mpr heq⟩)

/-- Opening the file of an entry changes nothing outside the root. -/
theorem Extracted.sameOutside_create {d : EntryDescriptor} {loc : Location} {fs'' : FileSystem}
    (hroot : IsEmptyRoot before dest.root) (h : Extracted before dest entries report fs)
    (hm : dest.makeDirectoryWithin (above dest d) fs = (.ok (), fs'))
    (hc : fs'.create (dest.pathOf d) = .ok (loc, fs'')) : SameOutside dest.root before fs'' := by
  obtain ⟨hloc, hnode⟩ := h.create hroot hm hc
  obtain ⟨rfl, hne, -, -⟩ := FileSystem.create_eq_ok hc
  rw [hloc] at hne ⊢
  exact (h.outside.trans fun l hl => outside_of_way h.root hnode (.inr hl)).put hne _

/-! ## One turn -/

/-- A root that is placed denotes nothing. -/
theorem Built.root {entry : Exposed} (h : Built before dest entries s)
    (hd : entry.1.isDirectory) (hl : entry.1.location = []) (opened : Entry) :
    Built before dest (entries ++ [entry]) (s.inHand opened) where
  extracted := by
    refine h.extracted.snoc (.of_root dest.root hl s.files) (fun hne => absurd hl hne) rfl rfl
      ?_ ?_ ?_
    · rw [if_pos hd]
      rfl
    · simp only [hl, ne_eq, not_true, decide_false, Bool.and_false]
      rfl
    · rw [if_pos hd]
      rfl
  names name := by
    rw [show (s.inHand opened).tally.names = s.tally.names from rfl, h.names]
    simp [hl]

/-- **A directory that is placed is what its entry denotes.** -/
theorem Built.directory {entry : Exposed} (hroot : IsEmptyRoot before dest.root)
    (h : Built before dest entries s) (hne : entry.1.location ≠ []) (hd : entry.1.isDirectory)
    (hn : entry.1.placedName ∉ s.tally.names) (opened : Entry)
    (hm : dest.makeDirectoryWithin (dest.pathOf entry.1) s.files = (.ok (), fs)) :
    Built before dest (entries ++ [entry]) { (s.inHand opened).noted entry.1 with
      files := fs, directoriesCreated := s.directoriesCreated + 1 } where
  extracted := by
    have ha := Destination.makeDirectoryWithin_addsDirectories hm
    rw [Destination.pathOf, dest.base_eq hroot.proper] at hm
    have hnode := h.extracted.makeDirectoryWithin hroot entry.1.isProper_location hm
    refine h.extracted.snoc (.of_directory hd ha h.extracted.root hnode)
      (fun _ => h.location_ne hn hne) rfl ?_ ?_ ?_ ?_
    · simp only [report, noted, inHand, counted, insertName_entries]
      rfl
    · rw [if_pos hd]
      rfl
    · rw [if_pos (by simp [hd, hne])]
      rfl
    · simp only [report, noted, inHand, counted, insertName_octets, if_pos hd]
      rfl
  names := h.mem_insertName_iff hne rfl

/-- **A file that is placed is what its entry denotes**: a new file, as no file of another entry
stands there, with the octets that the reader delivered. -/
theorem Built.file {entry : Exposed} {loc : Location} (hroot : IsEmptyRoot before dest.root)
    (h : Built before dest entries s) (hne : entry.1.location ≠ []) (hf : ¬entry.1.isDirectory)
    (hn : entry.1.placedName ∉ s.tally.names) (opened : Entry) (unread : FileSystem → List Read)
    (hm : dest.makeDirectoryWithin (above dest entry.1) s.files = (.ok (), fs))
    (hc : fs.create (dest.pathOf entry.1) = .ok (loc, fs')) :
    Built before dest (entries ++ [entry]) { (s.inHand opened).noted entry.1 with
      files := fs.put loc (.file entry.2)
      tally := { ((s.inHand opened).noted entry.1).tally with
        octets := ((s.inHand opened).noted entry.1).tally.octets + entry.2.length }
      filesExtracted := s.filesExtracted + 1
      reader := unread } where
  extracted := by
    have ha := Destination.makeDirectoryWithin_addsDirectories hm
    obtain ⟨hloc, hnode⟩ := h.extracted.create hroot hm hc
    have hfree : s.files.node? (dest.root ++ entry.1.location) = none := by
      refine ha.grows.free (hloc ▸ ((FileSystem.create_eq_ok hc).2.2.1.eq_none_of_file ?_))
      intro content hfile
      rw [hloc, ha.file_iff] at hfile
      obtain ⟨e, he, hl⟩ := h.extracted.location_of_file hne hfile
      exact h.location_ne hn hne e he hl
    rw [hloc]
    refine h.extracted.snoc (.of_file hf hne ha h.extracted.root hnode hfree)
      (fun _ => h.location_ne hn hne) rfl ?_ ?_ ?_ ?_
    · simp only [report, noted, inHand, counted, insertName_entries]
      rfl
    · rw [if_neg hf]
      rfl
    · rw [if_neg (by simp [hf])]
      rfl
    · simp only [report, noted, inHand, counted, insertName_octets, if_neg hf]
      rfl
  names := h.mem_insertName_iff hne rfl

/-- **A turn that places its item adds what it exposes.** -/
theorem Built.turn (hroot : IsEmptyRoot before dest.root)
    (hx : Exposes dest.root before openEntry exposed) (h : Built before dest entries s)
    (ht : turn limits dest openEntry item s = (.ok (), s')) :
    Built before dest (entries ++ [exposed item]) s' := by
  cases Turn.of_turn ht with
  | @handled opened _ _ _ ho hh =>
    have hout := h.extracted.outside
    rw [(hx item _ _ opened hout hout ho).1] at hh
    cases hh with
    | root hj =>
      obtain ⟨-, hd, -, hp⟩ := judge_eq_ok hj
      have hl := placementOf_eq_root hp.symm
      exact h.root (hd hl) hl opened
    | directory hj hm =>
      obtain ⟨-, -, hn, hp⟩ := judge_eq_ok hj
      obtain ⟨hne, hd, -, -⟩ := placementOf_eq_directory hp.symm
      exact h.directory hroot hne hd (hn hne) opened hm
    | @file fs fs' loc unread hj hm hc =>
      obtain ⟨-, -, hn, hp⟩ := judge_eq_ok hj
      obtain ⟨hne, hf, -, -⟩ := placementOf_eq_file hp.symm
      have hcontent : delivered ((s.inHand opened).reader fs') = (exposed item).2 :=
        (hx item _ _ opened hout (h.extracted.sameOutside_create hroot hm hc) ho).2
      rw [hcontent]
      exact h.file hroot hne hf (hn hne) opened unread hm hc

/-! ## A whole extraction -/

/-- **Every item that is placed adds what it exposes.** -/
theorem Places.built (hroot : IsEmptyRoot before dest.root)
    (hx : Exposes dest.root before openEntry exposed) (h : Places limits dest openEntry items s s')
    (hs : Built before dest entries s) : Built before dest (entries ++ items.map exposed) s' := by
  induction h generalizing entries with
  | nil => rwa [List.map_nil, List.append_nil]
  | cons ht _ ih =>
    have := ih (hs.turn hroot hx ht)
    rwa [List.append_assoc, List.singleton_append, ← List.map_cons] at this

/-- Nothing is denoted by no entries. -/
theorem Built.start (hroot : IsEmptyRoot before dest.root) :
    Built before dest [] { files := before } where
  extracted := {
    root := hroot.directory
    tree := fun loc node hne => by simp [hroot.empty loc hne]
    outside := fun _ _ => rfl
    distinct := .nil
    target := rfl
    entriesProcessed := rfl
    filesExtracted := rfl
    directoriesCreated := rfl
    bytesWritten := rfl }
  names := by simp

/-- **A successful extraction of items is what they expose.** -/
theorem run_extracted (hroot : IsEmptyRoot before dest.root)
    (hx : Exposes dest.root before openEntry exposed)
    (h : run limits dest openEntry items before = (.ok report, fs')) :
    Extracted before dest (items.map exposed) report fs' := by
  rw [run_apply] at h
  cases hrun : extractEach limits dest openEntry items { files := before } with
  | mk result s =>
    rw [hrun] at h
    cases result with
    | error e => cases h
    | ok _ =>
      obtain ⟨rfl, rfl⟩ : s.report dest = report ∧ s.files = fs' := by simpa [Except.map] using h
      exact ((Places.of_extractEach hrun).built hroot hx (.start hroot)).extracted

/-! ## Archives -/

/-- What an archive exposes of a record that can be opened: what it declares, and the octets that
its reader delivers. -/
def exposedBy (archive : Archive) (fs : FileSystem) (r : Record) : Exposed :=
  (r.descriptor, match archive.openEntry r fs with
    | .error _ => []
    | .ok entry => delivered (entry.reads fs))

theorem load_congr {source : Source} (h : source.octets fs' = source.octets fs) :
    Archive.load limits source fs' = Archive.load limits source fs := by
  rw [Archive.load, Archive.load, h]

theorem openEntry_congr {archive : Archive} {r : Record}
    (h : archive.source.octets fs' = archive.source.octets fs) :
    archive.openEntry r fs' = archive.openEntry r fs := by
  rw [Archive.openEntry, Archive.openEntry, Archive.contentStart, Archive.contentStart, h]

/-- The reads of an open entry depend on the octets of the archive. -/
theorem reads_congr {archive : Archive} {r : Record} {entry : Entry} {fs₁ fs₂ : FileSystem}
    (ho : archive.openEntry r fs = .ok entry)
    (h : archive.source.octets fs₂ = archive.source.octets fs₁) :
    entry.reads fs₂ = entry.reads fs₁ := by
  obtain ⟨-, start, readsOf, hreads⟩ := openEntry_eq_ok ho
  rw [hreads, hreads, h]

/-- **What an archive exposes depends on its octets.** -/
theorem exposedBy_congr {archive : Archive}
    (h : archive.source.octets fs' = archive.source.octets fs) :
    exposedBy archive fs' = exposedBy archive fs := by
  funext r
  rw [exposedBy, exposedBy, openEntry_congr h]
  rcases ho : archive.openEntry r fs with e | entry
  · rfl
  · dsimp only
    rw [reads_congr ho h]

/-- An archive that can be opened is not touched by what happens below an empty root. -/
theorem octets_sameOutside {source : Source} {archive : Archive} {root : Location}
    (hroot : IsEmptyRoot before root) (hl : Archive.load limits source before = .ok archive)
    (h : SameOutside root before fs) : source.octets fs = source.octets before := by
  cases source with
  | memory => rfl
  | disk file =>
    have hfile : ¬root <+: file := by
      rintro ⟨rel, rfl⟩
      have hempty : (Source.disk (root ++ rel)).octets before = [] := by
        rw [Source.octets, FileSystem.contentAt]
        by_cases hrel : rel = []
        · rw [hrel, List.append_nil, hroot.directory root List.prefix_rfl]
        · rw [hroot.empty rel hrel]
      obtain ⟨-, hscan, -⟩ := Archive.load_eq_ok_iff.mp hl
      rw [hempty] at hscan
      obtain ⟨extent, hlocate, -⟩ := Zip.scan_eq_ok hscan
      cases hlocate
    rw [Source.octets, Source.octets, FileSystem.contentAt, FileSystem.contentAt, h file hfile]

/-- **An archive outside exposes the same whatever happens below the root.** -/
theorem exposes_openEntry {source : Source} {archive : Archive} {root : Location}
    (hroot : IsEmptyRoot before root) (hl : Archive.load limits source before = .ok archive) :
    Exposes root before archive.openEntry (exposedBy archive before) := by
  intro r fs fs' entry hfs hfs' ho
  have hsource := (Archive.load_eq_ok_iff.mp hl).2.2
  have hoctets : ∀ {fs}, SameOutside root before fs →
      archive.source.octets fs = archive.source.octets before :=
    fun hfs => hsource ▸ octets_sameOutside hroot hl hfs
  have hsame := ho
  rw [openEntry_congr (hoctets hfs)] at hsame
  refine ⟨(openEntry_eq_ok ho).1, ?_⟩
  rw [exposedBy, hsame]
  dsimp only
  rw [reads_congr ho (hoctets hfs')]

/-- Entries that are given with their reads. -/
def ofReads (entry : EntryDescriptor × List Read) (_ : FileSystem) : Except ArchiveError Entry :=
  .ok ⟨entry.1, fun _ => entry.2⟩

/-- **A successful extraction into an empty directory leaves there what its entries denote**, and
reports it, for every list of entries and for every archive. -/
theorem extraction_denotes (limits : Limits) (dest : Destination) (before fs : FileSystem)
    (report : ExtractionReport) (hroot : IsEmptyRoot before dest.root) :
    (∀ entries : List (EntryDescriptor × List Read),
      run limits dest ofReads entries before = (.ok report, fs) →
        Extracted before dest (entries.map fun e => (e.1, delivered e.2)) report fs)
      ∧ ∀ source, ofSource limits dest source before = (.ok report, fs) →
        ∃ archive, Archive.load limits source before = .ok archive
          ∧ Extracted before dest (archive.records.map (exposedBy archive before)) report fs
          ∧ report.entriesProcessed = archive.records.length := by
  constructor
  · intro entries h
    refine run_extracted hroot (fun e _ _ opened _ _ ho => ?_) h
    obtain rfl := Except.ok.inj ho
    exact ⟨rfl, rfl⟩
  · intro source h
    rw [ofSource_apply] at h
    cases hl : Archive.load limits source before with
    | error e =>
      rw [hl] at h
      cases h
    | ok archive =>
      rw [hl] at h
      have hx := run_extracted hroot (exposes_openEntry hroot hl) h
      refine ⟨archive, rfl, hx, ?_⟩
      rw [hx.entriesProcessed, List.length_map, Nat.min_eq_left (Archive.length_records_le hl)]

/-! ## A file in a directory -/

/-- The directory `t`, with nothing in it. -/
def emptyTarget : FileSystem where
  nodes := [([[0x74]], .directory)]

/-- The file `a/b` with one octet. -/
def nested : EntryDescriptor × List Read :=
  ({ name := "a/b", declaredSize := some 1, compressedSize := 1 }, [.data [0x31]])

theorem isEmptyRoot_emptyTarget : IsEmptyRoot emptyTarget [[0x74]] where
  proper := by
    rintro name hn
    obtain rfl := List.mem_singleton.mp hn
    constructor <;> decide
  directory above hab := by
    rcases List.prefix_cons_iff.mp hab with rfl | ⟨rest, rfl, hrest⟩
    · rfl
    · obtain rfl := List.prefix_nil.mp hrest
      rfl
  empty loc hne := by
    cases loc with
    | nil => exact absurd rfl hne
    | cons name rest => rfl

theorem run_nested : run {} ⟨[[0x74]]⟩ ofReads [nested] emptyTarget
    = (.ok ⟨.ofString "/t", 1, 1, 0, 1⟩, (run {} ⟨[[0x74]]⟩ ofReads [nested] emptyTarget).2) := by
  have hj : judge {} ⟨[[0x74]]⟩ [] nested.1 = .ok (.file "a/b" (.ofString "/t/a/b")) :=
    eq_ok_of_toOption (by decide +kernel)
  rw [run_apply]
  dsimp only
  rw [extractEach_cons, turn_apply]
  simp only [ofReads, extractEntry_apply, inHand, counted, Tally.recordEntry, hj]
  cbv

/-- Extracting `a/b` into `t` leaves what it denotes. -/
theorem extracted_nested : IsEmptyRoot emptyTarget [[0x74]]
    ∧ Extracted emptyTarget ⟨[[0x74]]⟩ [(nested.1, [0x31])] ⟨.ofString "/t", 1, 1, 0, 1⟩
      (run {} ⟨[[0x74]]⟩ ofReads [nested] emptyTarget).2 :=
  ⟨isEmptyRoot_emptyTarget, (extraction_denotes {} ⟨[[0x74]]⟩ emptyTarget _ _
    isEmptyRoot_emptyTarget).1 [nested] run_nested⟩

end GuardedArchive.Extraction
