import GuardedArchive.Proofs.Extraction.Admission
import GuardedArchive.Proofs.Extraction.Concord

/-!
# Proofs/Extraction/Listing — listing tells what an extraction does

Where an archive that lies outside the target is extracted, listing it answers what was declared of
the entries that the extraction accepted, in their order, and the report counts these; where the
archive cannot be opened, both fail alike (`listing_agrees`).

Both open the archive by the same rules, and all that an extraction changes lies below the target,
so what the extraction opens, listing finds (`describeEntry_of_openEntry`).  Both count the entries
again; but an archive is not opened where it has too many, so neither count is ever too high
(`Archive.not_someTurn_tooMany`, `listEach_eq_mapM`).
-/

namespace GuardedArchive.Extraction

open Zip (Archive Entry IsLegible Record Source Writer Written)

variable {ι : Type} {limits : Limits} {dest : Destination}
  {openEntry : ι → FileSystem → Except ArchiveError Entry} {describe : ι → EntryDescriptor}
  {items : List ι} {entry : EntryDescriptor} {entries others : List EntryDescriptor}
  {s s' s'' : Extraction} {fs fs' fs₁ : FileSystem} {loc root file : Location}
  {archive target : Path} {report : ExtractionReport}

/-! ## What an extraction accepts -/

/-- **What is declared of the entries that are opened and accepted**, in the order of their
turns. -/
def accepted (limits : Limits) (dest : Destination)
    (openEntry : ι → FileSystem → Except ArchiveError Entry) :
    List ι → Extraction → List EntryDescriptor
  | [], _ => []
  | item :: rest, s =>
    match limits.checkEntryCount s.counted.tally.entries, openEntry item s.files with
    | .ok (), .ok opened =>
      match judge limits dest s.tally.names opened.descriptor with
      | .error _ => []
      | .ok _ => opened.descriptor :: match turn limits dest openEntry item s with
        | (.ok (), s') => accepted limits dest openEntry rest s'
        | (.error _, _) => []
    | _, _ => []

/-- **All items that were placed were accepted.** -/
theorem Places.accepted_eq (hd : Describes openEntry describe)
    (h : Places limits dest openEntry items s s') :
    accepted limits dest openEntry items s = items.map describe := by
  induction h with
  | nil => rfl
  | @cons item _ s _ _ ht _ ih =>
    rw [accepted, List.map_cons, ← ih, ht]
    cases Turn.of_turn ht with
    | handled hn ho hh =>
      have hj := hh.accepted
      rw [hn, ho]
      simp only [inHand, counted, Tally.recordEntry] at hj
      dsimp only
      rw [hj, hd _ _ _ ho]

/-! ## What is counted -/

/-- **The counts have grown by those of the entries**, as long as a count holds them. -/
structure Counts (entries : List EntryDescriptor) (s s' : Extraction) : Prop where
  processed : s.tally.entries + entries.length ≤ Bytes.maxCount →
    s'.tally.entries = s.tally.entries + entries.length
  files : s'.filesExtracted = s.filesExtracted + entries.countP (!·.isDirectory)
  directories : s'.directoriesCreated
    = s.directoriesCreated + entries.countP fun e => e.isDirectory && !e.placedName.isEmpty

theorem Counts.append (h : Counts entries s s') (h' : Counts others s' s'') :
    Counts (entries ++ others) s s'' where
  processed hfits := by
    rw [List.length_append] at hfits ⊢
    have hfirst := h.processed (by omega)
    rw [h'.processed (by omega), hfirst, Nat.add_assoc]
  files := by rw [h'.files, h.files, List.countP_append, Nat.add_assoc]
  directories := by rw [h'.directories, h.directories, List.countP_append, Nat.add_assoc]

theorem Handles.counts {opened : Entry}
    (h : Handles limits dest entry (s.inHand opened) (.ok ()) s') : Counts [entry] s s' := by
  have hempty : entry.placedName.isEmpty ↔ entry.location = [] := EntryName.isEmpty_sanitizedPath _
  have hcount : s.tally.entries + 1 ≤ Bytes.maxCount →
      s.counted.tally.entries = s.tally.entries + 1 := Nat.min_eq_left
  generalize hresult : (Except.ok () : Except ArchiveError Unit) = result at h
  cases h with
  | refused | noDirectory | noParent | notOpened | cutOff => cases hresult
  | root hj =>
    obtain ⟨-, hnamed, -, hp⟩ := judge_eq_ok hj
    have hloc := placementOf_eq_root hp.symm
    refine ⟨hcount, ?_, ?_⟩ <;> simp [inHand, counted, hnamed hloc, hempty.mpr hloc]
  | directory hj =>
    obtain ⟨-, -, -, hp⟩ := judge_eq_ok hj
    obtain ⟨hne, hd, -, -⟩ := placementOf_eq_directory hp.symm
    refine ⟨fun hfits => Eq.trans ?_ (hcount hfits), ?_, ?_⟩
    · simp [noted, inHand]
    · simp [noted, inHand, counted, hd]
    · simp [inHand, counted, hd, mt hempty.mp hne]
  | file hj =>
    obtain ⟨-, -, -, hp⟩ := judge_eq_ok hj
    obtain ⟨-, hf, -, -⟩ := placementOf_eq_file hp.symm
    refine ⟨fun hfits => Eq.trans ?_ (hcount hfits), ?_, ?_⟩
    · simp [noted, inHand]
    · simp [inHand, counted, hf]
    · simp [noted, inHand, counted, hf]

theorem Places.counts (hd : Describes openEntry describe)
    (h : Places limits dest openEntry items s s') : Counts (items.map describe) s s' := by
  induction h with
  | nil => exact ⟨fun _ => rfl, rfl, rfl⟩
  | @cons item rest s s' s'' ht _ ih =>
    have hfirst : Counts [describe item] s s' := by
      cases Turn.of_turn ht with
      | handled _ ho hh => exact hd _ _ _ ho ▸ hh.counts
    exact hfirst.append ih

/-! ## What stays as it is -/

/-- **What an extraction does outside the root** leaves every file as it was. -/
theorem Confined.contentAt_eq (h : Confined limits dest entries fs fs')
    (hout : ¬dest.root <+: loc) : fs'.contentAt loc = fs.contentAt loc := by
  have hfile : ∀ content, fs'.node? loc = some (.file content) →
      fs.node? loc = some (.file content) := fun content hf =>
    (h.file loc content hf).resolve_right fun ⟨_, _, ho⟩ => hout ho.below.1
  have hgrown := h.grows.node loc
  rw [FileSystem.contentAt, FileSystem.contentAt]
  generalize fs'.node? loc = after at hfile hgrown ⊢
  generalize fs.node? loc = before at hfile hgrown ⊢
  cases hgrown with
  | same => rfl
  | directory => rfl
  | file content => cases hfile content rfl
  | content before after => rw [hfile after rfl]

/-- **What can be opened can be found**: an entry is described where it has been opened. -/
theorem describeEntry_of_openEntry {opened : Archive} {r : Record} {e : Entry}
    (h : opened.openEntry r fs = .ok e) : opened.describeEntry r fs = .ok r.descriptor := by
  rw [Archive.openEntry] at h
  split at h
  · cases h
  obtain ⟨start, hstart, -⟩ := bind_eq_ok_iff.mp h
  exact bind_eq_ok_iff.mpr ⟨start, hstart, rfl⟩

theorem describeEntry_congr {opened : Archive} {r : Record}
    (h : opened.source.octets fs' = opened.source.octets fs) :
    opened.describeEntry r fs' = opened.describeEntry r fs := by
  rw [Archive.describeEntry, Archive.describeEntry, Archive.contentStart, Archive.contentStart, h]

/-! ## The count of entries -/

/-- **As many entries as the limit allows are described without a word on their count.** -/
theorem listEach_eq_mapM (describe : ι → Except ArchiveError EntryDescriptor) :
    ∀ {items : List ι} {count : Nat}, count + items.length ≤ limits.maxEntryCount →
      listEach limits describe count items = items.mapM describe
  | [], _, _ => rfl
  | item :: items, count, h => by
    rw [List.length_cons] at h
    have hcount : limits.checkEntryCount (count + 1) = .ok () :=
      Limits.checkEntryCount_eq_ok_iff.mpr (by omega)
    rw [listEach, hcount, List.mapM_cons, listEach_eq_mapM describe (by omega)]
    rfl

/-- **No entry of an archive that is open is one too many** for an extraction. -/
theorem Archive.not_someTurn_tooMany {source : Source} {opened : Archive}
    (hl : Archive.load limits source fs = .ok opened) (dest : Destination) (before : FileSystem) :
    ¬SomeTurn limits dest opened.openEntry
      (fun _ s => ∃ e, limits.checkEntryCount s.counted.tally.entries = .error e)
      opened.records { files := before } := by
  rintro ⟨done, r, rest, s₁, hrecords, hdone, e, he⟩
  have hlen := Archive.length_records_le_maxEntryCount hl
  rw [hrecords, List.length_append, List.length_cons] at hlen
  rw [hdone.checkEntryCount (by omega)] at he
  cases he

/-! ## Listing and extracting -/

theorem mapM_eq_ok {f : ι → Except ArchiveError EntryDescriptor} : ∀ {items : List ι},
    (∀ item ∈ items, f item = .ok (describe item)) → items.mapM f = .ok (items.map describe)
  | [], _ => rfl
  | item :: items, h => by
    obtain ⟨hitem, hitems⟩ := List.forall_mem_cons.mp h
    rw [List.mapM_cons, hitem, mapM_eq_ok hitems]
    rfl

/-- **An archive is extracted where it can be read and opened, and the target written to.** -/
theorem extract_eq_ok_iff : extract limits archive target fs = (.ok report, fs')
    ↔ ∃ file root fs₁, Access.readableFile fs archive = .ok file
      ∧ Access.writableDirectory target fs = (.ok root, fs₁)
      ∧ ofSource limits ⟨root⟩ (.disk file) fs₁ = (.ok report, fs') := by
  constructor
  · intro h
    obtain ⟨file, fs₀, hlook, h⟩ := Effect.bind_eq_ok_iff.mp h
    obtain ⟨hread, rfl⟩ := Prod.mk.inj hlook
    obtain ⟨⟨root⟩, fs₁, hdest, h⟩ := Effect.bind_eq_ok_iff.mp h
    rw [ofPath_apply] at hdest
    obtain ⟨hok, rfl⟩ := Prod.mk.inj hdest
    refine ⟨file, root, _, hread, Prod.ext ?_ rfl, h⟩
    rcases hw : (Access.writableDirectory target fs).1 with e | root' <;> rw [hw] at hok
    · cases hok
    · exact congrArg Except.ok (congrArg Destination.root (Except.ok.inj hok))
  · rintro ⟨file, root, fs₁, hread, hdir, h⟩
    rw [extract_eq hread hdir, h]

/-- The archive has the same octets once the directories for the target are made. -/
theorem octets_writableDirectory (hread : Access.readableFile fs archive = .ok file)
    (hdir : Access.writableDirectory target fs = (.ok root, fs₁)) :
    (Source.disk file).octets fs₁ = (Source.disk file).octets fs := by
  have hadds := Access.writableDirectory_addsDirectories target fs
  rw [hdir] at hadds
  obtain ⟨content, hc⟩ := Access.readableFile_eq_ok hread
  exact octets_adds hadds (FileSystem.canonicalize_eq_ok_iff.mp hc).2.node?_eq

/-- **The descriptors tell what the report counts**, and each is in order. -/
structure Tells (limits : Limits) (entries : List EntryDescriptor) (report : ExtractionReport) :
    Prop where
  processed : entries.length = report.entriesProcessed
  count : entries.length ≤ limits.maxEntryCount
  admissible : ∀ entry ∈ entries, Admissible limits entry
  files : report.filesExtracted = entries.countP (!·.isDirectory)
  directories : report.directoriesCreated
    = entries.countP fun e => e.isDirectory && !e.placedName.isEmpty

/-- **An archive whose records were placed** has descriptors that tell what was done. -/
theorem Places.tells {source : Source} {opened : Archive} {before : FileSystem}
    (hl : Archive.load limits source fs = .ok opened)
    (h : Places limits dest opened.openEntry opened.records { files := before } s) :
    Tells limits (opened.records.map (·.descriptor)) (s.report dest) := by
  have hd := describes_openEntry opened
  have hcounts := h.counts hd
  have hprocessed := hcounts.processed (by
    rw [List.length_map]
    exact (Nat.zero_add _).trans_le (Archive.length_records_le hl))
  constructor
  · exact ((Nat.zero_add _).symm.trans hprocessed.symm)
  · rw [List.length_map]
    exact Archive.length_records_le_maxEntryCount hl
  · exact List.forall_mem_map.mpr (h.admissible hd)
  · exact hcounts.files.trans (Nat.zero_add _)
  · exact hcounts.directories.trans (Nat.zero_add _)

/-- **Where the records of an archive outside the root were placed, they are listed.** -/
theorem Places.listEach_eq {opened : Archive} (hsource : opened.source = .disk file)
    (hl : Archive.load limits (.disk file) fs = .ok opened) (hout : ¬dest.root <+: file)
    (hoctets : (Source.disk file).octets fs₁ = (Source.disk file).octets fs)
    (h : Places limits dest opened.openEntry opened.records { files := fs₁ } s) :
    listEach limits (opened.describeEntry · fs) 0 opened.records
      = .ok (opened.records.map (·.descriptor)) := by
  have hlen := Archive.length_records_le_maxEntryCount hl
  rw [listEach_eq_mapM _ (by rwa [Nat.zero_add])]
  refine mapM_eq_ok fun r hr => ?_
  obtain ⟨done, s₁, e, hdone, ho⟩ := h.opened r hr
  have hsame : opened.source.octets s₁.files = opened.source.octets fs := by
    rw [hsource, ← hoctets]
    exact (hdone.confined (describes_openEntry opened)).contentAt_eq hout
  rw [← describeEntry_congr hsame, describeEntry_of_openEntry ho]

/-- **What was written is listed.** -/
theorem list_written {entries : List Written} (hlegible : IsLegible limits entries)
    (hread : Access.readableFile fs archive = .ok file)
    (ho : (Source.disk file).octets fs = (Writer.addAll {} entries).finish) :
    list limits archive fs = .ok (entries.map (·.exposed.1)) := by
  obtain ⟨rs, hload, hrs⟩ := Writer.load_finish hlegible ho
  have hdescribed : ∀ r ∈ rs, Archive.describeEntry ⟨.disk file, rs⟩ r fs = .ok r.descriptor := by
    intro r hr
    obtain ⟨e, hfits, hstands⟩ := exists_written hrs r hr
    obtain ⟨-, entry, hopen, -⟩ := Written.openEntry (a := ⟨.disk file, rs⟩) hfits hstands
    exact describeEntry_of_openEntry hopen
  have hdeclared := declared_written hlegible ho
  rw [declared, hload] at hdeclared
  have hlen := Archive.length_records_le_maxEntryCount hload
  rw [list, hread]
  dsimp only [bind, Except.bind]
  rw [hload]
  dsimp only
  rw [listEach_eq_mapM _ (by rwa [Nat.zero_add]), mapM_eq_ok hdescribed]
  exact congrArg Except.ok hdeclared

/-- The archive file does not lie below the directory that the target leads to. -/
def LiesOutside (archive target : Path) (fs : FileSystem) : Prop :=
  ∀ file root fs₁, Access.readableFile fs archive = .ok file →
    Access.writableDirectory target fs = (.ok root, fs₁) → ¬root <+: file

/-- **Listing and extracting agree.**  An archive outside the target that is extracted is listed as
the descriptors that the extraction accepted, in their order, and these tell what the report counts.
An archive that cannot be opened fails both alike, and no archive that is open has an entry too
many. -/
theorem listing_agrees (limits : Limits) (archive target : Path) (fs : FileSystem) :
    (∀ report fs', LiesOutside archive target fs →
      extract limits archive target fs = (.ok report, fs') →
        ∃ entries file root fs₁ opened, list limits archive fs = .ok entries
          ∧ Tells limits entries report ∧ Access.readableFile fs archive = .ok file
          ∧ Access.writableDirectory target fs = (.ok root, fs₁)
          ∧ Archive.load limits (.disk file) fs₁ = .ok opened
          ∧ entries = accepted limits ⟨root⟩ opened.openEntry opened.records { files := fs₁ })
    ∧ (∀ file root fs₁ e, Access.readableFile fs archive = .ok file →
      Access.writableDirectory target fs = (.ok root, fs₁) →
      (Archive.load limits (.disk file) fs = .error e
        ∨ Archive.load limits (.disk file) fs₁ = .error e) →
        list limits archive fs = .error e ∧ extract limits archive target fs = (.error e, fs₁))
    ∧ ∀ source opened, Archive.load limits source fs = .ok opened →
      (∀ dest before, ¬SomeTurn limits dest opened.openEntry
        (fun _ s => ∃ e, limits.checkEntryCount s.counted.tally.entries = .error e)
        opened.records { files := before })
      ∧ ∀ describe, listEach limits describe 0 opened.records = opened.records.mapM describe := by
  refine ⟨fun report fs' hout hx => ?_, fun file root fs₁ e hread hdir he => ?_,
    fun source opened hl => ⟨?_, fun describe => ?_⟩⟩
  · obtain ⟨file, root, fs₁, hread, hdir, hrun⟩ := extract_eq_ok_iff.mp hx
    obtain ⟨opened, hl, hrun⟩ := ofSource_eq_ok_iff.mp hrun
    obtain ⟨s, heach, rfl, -⟩ := run_eq_ok_iff.mp hrun
    have hplaces := Places.of_extractEach heach
    have hoctets := octets_writableDirectory hread hdir
    have hl₀ : Archive.load limits (.disk file) fs = .ok opened := load_congr hoctets ▸ hl
    refine ⟨_, file, root, fs₁, opened, ?_, hplaces.tells hl, hread, hdir, hl,
      (hplaces.accepted_eq (describes_openEntry opened)).symm⟩
    rw [list, hread]
    dsimp only [bind, Except.bind]
    rw [hl₀]
    exact hplaces.listEach_eq (Archive.load_eq_ok_iff.mp hl).2.2 hl₀ (hout _ _ _ hread hdir) hoctets
  · have hsame : Archive.load limits (.disk file) fs₁ = Archive.load limits (.disk file) fs :=
      load_congr (octets_writableDirectory hread hdir)
    have he : Archive.load limits (.disk file) fs = .error e := he.elim id fun h => hsame ▸ h
    constructor
    · rw [list, hread]
      dsimp only [bind, Except.bind]
      rw [he]
    · rw [extract_eq hread hdir, ofSource_apply, hsame, he]
  · exact Archive.not_someTurn_tooMany hl
  · refine listEach_eq_mapM describe ?_
    rw [Nat.zero_add]
    exact Archive.length_records_le_maxEntryCount hl

/-! ## A directory with a file in it, and no archive -/

theorem liesOutside_holding (content : Bytes) :
    LiesOutside (.ofString "/z") (.ofString "/t") (holding content) := by
  intro file root fs₁ hread hdir
  obtain rfl := Except.ok.inj ((readableFile_holding content).symm.trans hread)
  obtain rfl := Except.ok.inj
    (congrArg Prod.fst ((writableDirectory_holding content).symm.trans hdir))
  decide

/-- The directory and the file are listed as they were written and as they are extracted, and an
empty file is refused alike. -/
theorem smallArchive_listed :
    (list {} (.ofString "/z") (holding smallArchive) = .ok (smallTree.map (·.exposed.1))
      ∧ Tells {} (smallTree.map (·.exposed.1)) ⟨.ofString "/t", 2, 1, 1, 2⟩)
    ∧ list {} (.ofString "/z") (holding []) = .error (.invalidArchive .tooShort)
    ∧ (extract {} (.ofString "/z") (.ofString "/t") (holding [])).1
      = .error (.invalidArchive .tooShort) := by
  constructor
  · obtain ⟨fs', hrun, -⟩ := extract_holding
    have hwritten := list_written isLegible_smallTree (readableFile_holding smallArchive) rfl
    obtain ⟨entries, -, -, -, -, hlist, htells, -⟩ :=
      (listing_agrees {} (.ofString "/z") (.ofString "/t") (holding smallArchive)).1 _ fs'
        (liesOutside_holding smallArchive) hrun
    obtain rfl := Except.ok.inj (hlist.symm.trans hwritten)
    exact ⟨hwritten, htells⟩
  · have hempty : Archive.load {} (.disk [[0x7a]]) (holding [])
        = .error (.invalidArchive .tooShort) := rfl
    obtain ⟨hlist, hextract⟩ :=
      (listing_agrees {} (.ofString "/z") (.ofString "/t") (holding [])).2.1 _ _ _ _
        (readableFile_holding []) (writableDirectory_holding []) (.inl hempty)
    exact ⟨hlist, by rw [hextract]⟩

end GuardedArchive.Extraction
