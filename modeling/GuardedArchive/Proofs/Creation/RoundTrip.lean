import GuardedArchive.Proofs.Creation.Itself
import GuardedArchive.Proofs.Creation.Opening
import GuardedArchive.Proofs.Extraction.Concord

/-!
# Proofs/Creation/RoundTrip — what comes back from the archive of a tree

When a tree is archived, nothing but the count of its entries is asked.  Its archive is extracted
into an empty directory exactly where the entries of its plan are acceptable
(`compressed_extracts_iff`), so that there are archives which their own limits refuse
(`compressed_refused`).

A tree with clean names that keeps all limits is archived, and comes back as it was, up to what is
no regular file and has none below it (`tree_comes_back`).
-/

namespace GuardedArchive.Creation

open Extraction (Acceptable Extracted plainEngine)
open FileSystem (Fresh IsListed IsOrdinary IsReadable IsTree NamesEmpty)
open Zip (Encoder Method)

variable {limits : Limits} {settings : CreationSettings} {deflate : Encoder} {method : Method}
  {fs fs' : FileSystem} {planned : List Planned} {root archive : Location}

/-! ## What was archived could be read -/

theorem isReadable_of_text (hs : IsOrdinary fs) (hl : IsListed fs)
    (htext : ∀ file ∈ filesBelow fs root, ∀ name ∈ file.1, (Utf8.decode? name).isSome) :
    IsReadable fs root where
  asked loc node _ hn _ _ := (hs.spelled _ _ hn).checkPath
  text loc content hn := by
    by_cases hne : loc = []
    · rw [hne]
      exact fun _ hname => absurd hname List.not_mem_nil
    · exact htext (loc, content) ((mem_filesBelow_iff hl).mpr ⟨hne, hn⟩)

/-- **Where a tree was archived outside of it**, it could be read, its entries were not too many,
and the archive is that of its plan. -/
theorem compressDirectory_eq_ok {folder path : Path} {requested : String}
    {creation : CreationReport} (hs : IsOrdinary fs) (hl : IsListed fs)
    (hroot : Access.readableDirectory fs folder = .ok root) (hfresh : Fresh fs path archive)
    (hmade : Temporary.file settings.temporaryPrefix
      ("-" ++ ArchiveName.normalize settings requested) fs
        = (.ok path, fs.put archive (.file [])))
    (hout : ¬root <+: archive)
    (h : compressDirectory .faultless deflate limits settings folder requested fs
      = (.ok creation, fs')) :
    IsReadable fs root ∧ (plan (fs.depthFirst root)).length ≤ limits.maxEntryCount
      ∧ creation = reportOf path (plan (fs.depthFirst root)) (leftOut root (fs.depthFirst root))
      ∧ fs' = fs.put archive
        (.file (writerOf (methodOf deflate settings) (plan (fs.depthFirst root))).finish) := by
  obtain ⟨root', archive', path', own, planned, hroot', hfree, hmade', hpassed, rfl, hcount, rfl,
    rfl⟩ := compressDirectory_eq_ok_cases hs.toIsSound hl h
  obtain rfl : root' = root := Except.ok.inj (hroot'.symm.trans hroot)
  obtain rfl : path' = path := Except.ok.inj (Prod.mk.inj (hmade'.symm.trans hmade)).1
  obtain rfl : archive' = archive :=
    Place.vacant.inj (Except.ok.inj (hfree.vacant.symm.trans hfresh.resolveSteps_eq))
  rw [FileSystem.depthFirst_put hout] at hpassed hcount ⊢
  refine ⟨isReadable_of_text hs hl fun file hf => ?_, hcount, ?_, rfl⟩
  · exact (hpassed _ (mem_filterMap_foundFile?_iff.mp hf)).text (by simp [foundFile?])
  · rw [FileSystem.depthFirst_put hout]

/-! ## Trees that keep the limits -/

/-- What the files hold is bounded by the length of the archive. -/
theorem octetsOf_le (hmethod : method.IsExact) (planned : List Planned) :
    octetsOf planned ≤ 2064 * (writerOf method planned).octets.length := by
  induction planned using List.reverseRecOn with
  | nil => exact Nat.zero_le _
  | append_singleton front p ih =>
    have hpacked : p.content.length ≤ 2064 * (p.written method).packed.length :=
      p.content_written method ▸ (p.isExact_written hmethod).length_le _
    have hbody : (p.written method).body.length
        = (p.written method).header.length + (p.written method).packed.length :=
      List.length_append
    have hp : octetsOf [p] = p.content.length := rfl
    rw [writerOf_concat, Zip.Writer.octets_add, octetsOf_append, List.length_append, hp]
    omega

/-- What a narrow archive holds can be told. -/
theorem octetsOf_le_maxOffset (hmethod : method.IsExact)
    (hnarrow : (writerOf method planned).IsNarrow) : octetsOf planned ≤ Bytes.maxOffset := by
  have hfinish := (writerOf method planned).length_finish
  have hlength := hnarrow.length
  have hoctets := octetsOf_le hmethod planned
  rw [Bytes.maxOffset]
  omega

theorem Plans.sum_le (h : Plans (fs.depthFirst root) planned) (hmethod : method.IsExact)
    (hnarrow : (writerOf method planned).IsNarrow) :
    ((filesBelow fs root).map (·.2.length)).sum ≤ Bytes.maxCount := by
  have hoctets := octetsOf_le_maxOffset hmethod hnarrow
  rw [octetsOf_eq, h.files] at hoctets
  exact Nat.le_trans hoctets (by decide)

theorem length_lt (hnarrow : (writerOf method planned).IsNarrow) : planned.length < 0xffff := by
  have hrecords := (Zip.Writer.forall₂_holds (planned.map (Planned.written method))).length_eq
  rw [List.length_map] at hrecords
  exact hrecords ▸ hnarrow.count

/-- **A tree keeps the limits** when it is archived: its names, each of its files, and all of them
together.  A stored file keeps every bound on the ratio that is at least one. -/
structure KeepsLimits (limits : Limits) (method : Method) (fs : FileSystem)
    (root : Location) : Prop where
  fileName : ∀ file ∈ filesBelow fs root,
    (Path.joined file.1).length ≤ limits.maxEntryNameLength
  directoryName : ∀ d ∈ directoriesBelow fs root,
    (Path.joined d).length + 1 ≤ limits.maxEntryNameLength
  size : ∀ file ∈ filesBelow fs root, file.2.length ≤ limits.maxEntrySize
  ratio : ∀ file ∈ filesBelow fs root,
    method = .stored ∧ limits.maxCompressionRatio.lt Binary64.one = false
      ∨ limits.checkCompressionRatio (Utf8.decodeLossy (Path.joined file.1))
        (method.pack file.2).length file.2.length = .ok ()
  total : ((filesBelow fs root).map (·.2.length)).sum ≤ limits.maxTotalSize
  count : (filesBelow fs root).length + (directoriesBelow fs root).length ≤ limits.maxEntryCount

/-- The bound on the ratio does not ask for the name. -/
theorem checkCompressionRatio_of_name {name : String} {compressed size : Nat}
    (h : limits.checkCompressionRatio name compressed size = .ok ()) (name' : String) :
    limits.checkCompressionRatio name' compressed size = .ok () := by
  rw [Limits.checkCompressionRatio] at h ⊢
  split
  · rfl
  next hne =>
    rw [if_neg hne] at h
    dsimp only at h ⊢
    split at h
    · cases h
    next hlt => rw [if_neg hlt]

theorem KeepsLimits.isInBounds (h : KeepsLimits limits method fs root)
    (hplans : Plans (fs.depthFirst root) planned) (hknown : octetsOf planned ≤ Bytes.maxOffset)
    {p : Planned} (hp : p ∈ planned) : p.IsInBounds limits method := by
  cases p with
  | directory d =>
    have hd : d ∈ directoriesBelow fs root :=
      mem_directoriesBelow_iff.mpr ((hplans.directories d).mp hp)
    refine ⟨?_, Nat.zero_le _, Nat.zero_le _, fun _ => rfl⟩
    rw [Planned.name, List.length_append]
    exact h.directoryName d hd
  | file l content =>
    have hf : (l, content) ∈ filesBelow fs root := hplans.mem_file_iff.mp hp
    have hle : content.length ≤ octetsOf planned := List.le_sum_of_mem (List.mem_map_of_mem hp)
    refine ⟨h.fileName _ hf, h.size _ hf, Nat.le_trans hle hknown, fun name => ?_⟩
    rcases h.ratio _ hf with ⟨hstored, hone⟩ | hratio
    · have hpacked : ((Planned.file l content).written method).packed = content := by
        rw [Planned.written, Zip.Written.packed, hstored]
        rfl
      rw [hpacked]
      exact Limits.checkCompressionRatio_self hone name _
    · exact checkCompressionRatio_of_name hratio name

/-- The plan of a tree with clean names is clean. -/
theorem Plans.isClean (hl : IsListed fs) (h : Plans (fs.depthFirst root) planned)
    (hclean : ∀ file ∈ filesBelow fs root, ∀ name ∈ file.1, name.IsClean) : IsClean planned where
  named p hp := (h.isProper (isWalk_depthFirst hl root) hp).1
  clean p hp := by
    obtain ⟨file, hf, hpre⟩ := h.exists_file_below hp
    exact fun name hn => hclean file hf name (hpre.subset hn)

/-- **The plan of a clean tree that keeps the limits is acceptable.** -/
theorem KeepsLimits.acceptable (h : KeepsLimits limits method fs root) (htree : IsTree fs)
    (hl : IsListed fs) (hplans : Plans (fs.depthFirst root) planned) (hc : IsClean planned)
    (hmethod : method.IsExact) (hnarrow : (writerOf method planned).IsNarrow) :
    Acceptable limits (planned.map (Planned.exposed method)) := by
  have hknown := octetsOf_le_maxOffset hmethod hnarrow
  refine hplans.acceptable htree hl hc (fun p hp => h.isInBounds hplans hknown hp) ?_ ?_ ?_
  · rw [hplans.length_eq]
    exact h.count
  · rw [octetsOf_eq, hplans.files]
    exact h.total
  · exact Nat.le_trans hknown (by decide)

/-! ## A tree with one file -/

theorem check_tight : ({ maxEntrySize := 1 } : Limits).check = .ok () := rfl

/-- An engine that admits one octet for each entry. -/
def tightEngine : Engine := ⟨{ maxEntrySize := 1 }, {}, check_tight, plainEngine.settings_ok⟩

theorem isOrdinary_oneFile : IsOrdinary oneFile := .of_nodes isSound_oneFile (by decide)

theorem plan_oneFile : plan (oneFile.depthFirst [[0x73]])
    = [.directory [[0x61]], .file [[0x61], [0x66]] [0x31, 0x32]] := by cbv

theorem plans_oneFile : Plans (oneFile.depthFirst [[0x73]]) (plan (oneFile.depthFirst [[0x73]])) :=
  plans_plan (FileSystem.nodup_depthFirst isListed_oneFile [[0x73]])

theorem isNarrow_oneFile :
    (writerOf (methodOf .plain {}) (plan (oneFile.depthFirst [[0x73]]))).IsNarrow := by
  rw [plan_oneFile]
  exact ⟨by decide +kernel, by decide +kernel⟩

theorem namesEmpty_oneFile : NamesEmpty oneFile (.ofString "/s/e") [[0x73], [0x65]] where
  leads := by cbv
  empty loc hne := by
    cases loc with
    | nil => exact absurd rfl hne
    | cons name rest => rfl

theorem room_oneFile : ∀ p ∈ plan (oneFile.depthFirst [[0x73]]),
    (Location.path ([[0x73], [0x65]] ++ (p.exposed (methodOf .plain {})).1.location)).raw.length
      < FileSystem.maxPathLength := by
  rw [plan_oneFile]
  decide +kernel

theorem room_kept_oneFile : ∀ loc node, IsKept oneFile [[0x73]] loc node →
    (Location.path ([[0x73], [0x65]] ++ loc)).raw.length < FileSystem.maxPathLength := by
  intro loc node hk
  by_cases hne : loc = []
  · subst hne
    decide
  obtain ⟨p, hp, rfl, -⟩ := plans_oneFile.exists_of_isKept isSound_oneFile.tree isListed_oneFile
    hne hk
  rw [plan_oneFile] at hp
  exact (by decide : ∀ p ∈ [Planned.directory [[0x61]], .file [[0x61], [0x66]] [0x31, 0x32]],
    (Location.path ([[0x73], [0x65]] ++ p.location)).raw.length < FileSystem.maxPathLength) p hp

theorem clean_oneFile :
    ∀ file ∈ filesBelow oneFile [[0x73]], ∀ name ∈ file.1, name.IsClean := by
  rw [filesBelow_oneFile]
  have ha : Name.IsClean [0x61] := ⟨"a", by cbv, by decide +kernel⟩
  have hf : Name.IsClean [0x66] := ⟨"f", by cbv, by decide +kernel⟩
  simpa using ⟨ha, hf⟩

theorem keepsLimits_oneFile : KeepsLimits {} (methodOf .plain {}) oneFile [[0x73]] where
  fileName := by rw [filesBelow_oneFile]; decide
  directoryName := by rw [directoriesBelow_oneFile]; decide
  size := by rw [filesBelow_oneFile]; decide
  ratio := by
    rw [filesBelow_oneFile]
    exact fun file hf => .inr (by obtain rfl := List.mem_singleton.mp hf; decide +kernel)
  total := by rw [filesBelow_oneFile]; decide
  count := by rw [filesBelow_oneFile, directoriesBelow_oneFile]; decide

/-- The file system with the archive of the tree. -/
def oneFileArchived : FileSystem :=
  oneFile.put oneArchive
    (.file (writerOf (methodOf .plain {}) (plan (oneFile.depthFirst [[0x73]]))).finish)

theorem namesEmpty_oneFileArchived :
    NamesEmpty oneFileArchived (.ofString "/s/e") [[0x73], [0x65]] :=
  namesEmpty_oneFile.put fresh_oneFile (by decide) _

theorem compressDirectory_oneFile (hcount : 2 ≤ limits.maxEntryCount) :
    compressDirectory .faultless .plain limits {} (.ofString "/s") "z" oneFile
      = (.ok (reportOf (.ofString "/m/zipshield-aaaaaa-z.zip")
          (plan (oneFile.depthFirst [[0x73]])) (leftOut [[0x73]] (oneFile.depthFirst [[0x73]]))),
        oneFileArchived) :=
  compressDirectory_ok isSound_oneFile isListed_oneFile readableDirectory_oneFile
    isReadable_oneFile (by rw [filesBelow_oneFile]; decide) fresh_oneFile rfl file_oneFile
    (by decide) .plain (by rw [plan_oneFile]; exact hcount)

/-! ## Which archives are extracted -/

/-- **What was archived is extracted into an empty directory exactly where its entries are
acceptable**: their names, sizes and ratios keep the limits, and no two of them get in each other's
way when their names are made clean. -/
theorem compressed_extracts_iff (engine : Engine) {folder path target : Path} {place : Location}
    {requested : String} {made : FileSystem} {node : Node} {creation : CreationReport}
    (hdeflate : deflate.IsExact) (hs : IsOrdinary fs) (hl : IsListed fs)
    (hroot : Access.readableDirectory fs folder = .ok root)
    (hmade : Temporary.file engine.settings.temporaryPrefix
      ("-" ++ ArchiveName.normalize engine.settings requested) fs = (.ok path, made))
    (hat : made.nodeAt false path = .ok (archive, node)) (hout : ¬root <+: archive)
    (hshort : archive.path.raw.length < FileSystem.maxPathLength)
    (hnarrow : (writerOf (methodOf deflate engine.settings) (plan (fs.depthFirst root))).IsNarrow)
    (hcreated : engine.compressDirectory folder requested deflate .faultless fs
      = (.ok creation, fs'))
    (hempty : NamesEmpty fs' target place)
    (hroom : ∀ p ∈ plan (fs.depthFirst root),
      (Location.path
          (place ++ (p.exposed (methodOf deflate engine.settings)).1.location)).raw.length
        < FileSystem.maxPathLength) :
    (∃ report, (engine.extract creation.archivePath target fs').1 = .ok report)
      ↔ Acceptable engine.limits ((plan (fs.depthFirst root)).map
        (Planned.exposed (methodOf deflate engine.settings))) := by
  have hmethod := isExact_methodOf hdeflate engine.settings
  obtain ⟨hfresh, hend, rfl⟩ := FileSystem.fresh_of_file hs.tree hmade hat
  obtain ⟨hreadable, hcount, rfl, rfl⟩ :=
    compressDirectory_eq_ok hs hl hroot hfresh hmade hout hcreated
  exact extract_ok_iff hs hfresh hend hshort
    (isWritable_of_readable hl hreadable (plans_plan (FileSystem.nodup_depthFirst hl root)))
    hmethod hcount hnarrow hempty hroom

/-- The file and its directory are extracted under the usual limits. -/
theorem compressed_extracts : ∃ creation fs',
    plainEngine.compressDirectory (.ofString "/s") "z" .plain .faultless oneFile
        = (.ok creation, fs')
      ∧ ∃ report, (plainEngine.extract creation.archivePath (.ofString "/s/e") fs').1
        = .ok report := by
  have hcreated : plainEngine.compressDirectory (.ofString "/s") "z" .plain .faultless oneFile
    = (.ok _, oneFileArchived) := compressDirectory_oneFile (by decide)
  refine ⟨_, _, hcreated, ?_⟩
  rw [compressed_extracts_iff plainEngine Encoder.isExact_plain isOrdinary_oneFile
    isListed_oneFile readableDirectory_oneFile file_oneFile nodeAt_oneArchive (by decide)
    (by decide) isNarrow_oneFile hcreated namesEmpty_oneFileArchived room_oneFile]
  exact keepsLimits_oneFile.acceptable isSound_oneFile.tree isListed_oneFile plans_oneFile
    (plans_oneFile.isClean isListed_oneFile clean_oneFile)
    (isExact_methodOf Encoder.isExact_plain _) isNarrow_oneFile

/-- **An archive is refused under the limits that it was made under**: it has a file that is too
large to be extracted. -/
theorem compressed_refused : ∃ creation fs',
    tightEngine.compressDirectory (.ofString "/s") "z" .plain .faultless oneFile
        = (.ok creation, fs')
      ∧ NamesEmpty fs' (.ofString "/s/e") [[0x73], [0x65]]
      ∧ ¬∃ report, (tightEngine.extract creation.archivePath (.ofString "/s/e") fs').1
        = .ok report := by
  refine ⟨_, _, compressDirectory_oneFile (by decide), namesEmpty_oneFileArchived,
    fun hreport => ?_⟩
  have hacc := (extract_ok_iff isOrdinary_oneFile fresh_oneFile rfl (by decide)
    (isWritable_of_readable isListed_oneFile isReadable_oneFile plans_oneFile)
    (isExact_methodOf Encoder.isExact_plain _) (by rw [plan_oneFile]; decide) isNarrow_oneFile
    namesEmpty_oneFileArchived room_oneFile).mp hreport
  rw [plan_oneFile] at hacc
  have hsize := (hacc.admissible _ (List.mem_of_getLast? rfl)).size
  revert hsize
  decide +kernel

/-! ## Trees that come back -/

/-- **A tree came back**: what is found is what was kept of it, octet for octet, and the report on
the extraction has the counts of that on the creation. -/
structure CameBack (fs : FileSystem) (root : Location) (creation : CreationReport)
    (place : Location) (extraction : ExtractionReport) (fs' : FileSystem) : Prop where
  tree : ∀ loc node, loc ≠ [] → (fs'.node? (place ++ loc) = some node ↔ IsKept fs root loc node)
  files : extraction.filesExtracted = creation.filesAdded
  directories : extraction.directoriesCreated = creation.directoriesAdded
  octets : extraction.bytesWritten = creation.bytesWritten
  entries : extraction.entriesProcessed = creation.totalEntries

theorem CameBack.of_extracted {before : FileSystem} {place : Location} {path : Path}
    {extraction : ExtractionReport} (htree : IsTree fs) (hl : IsListed fs)
    (hplans : Plans (fs.depthFirst root) planned) (hc : IsClean planned)
    (hcount : planned.length ≤ Bytes.maxCount) (skipped : List Path)
    (h : Extracted before ⟨place⟩ (planned.map (Planned.exposed method)) extraction fs') :
    CameBack fs root (reportOf path planned skipped) place extraction fs' where
  tree loc node hne := (h.tree loc node hne).trans (hc.denotes_iff htree hl hplans method hne)
  files := h.filesExtracted.trans (hc.countP_files method)
  directories := h.directoriesCreated.trans (hc.countP_directories method)
  octets := h.bytesWritten.trans (hc.octetsOf_exposed method)
  entries := by
    rw [h.entriesProcessed, List.length_map, Nat.min_eq_left hcount]
    exact length_eq_add planned

/-- **A tree with clean names that keeps the limits comes back**: it is archived, and from the
archive it is extracted into every empty directory, up to what is no regular file and has none
below it. -/
theorem tree_comes_back (engine : Engine) {folder path : Path} {requested : String}
    {made : FileSystem} {node : Node} (hdeflate : deflate.IsExact) (hs : IsOrdinary fs)
    (hl : IsListed fs) (hroot : Access.readableDirectory fs folder = .ok root)
    (hclean : ∀ file ∈ filesBelow fs root, ∀ name ∈ file.1, name.IsClean)
    (hlimits : KeepsLimits engine.limits (methodOf deflate engine.settings) fs root)
    (hnarrow : (writerOf (methodOf deflate engine.settings) (plan (fs.depthFirst root))).IsNarrow)
    (hmade : Temporary.file engine.settings.temporaryPrefix
      ("-" ++ ArchiveName.normalize engine.settings requested) fs = (.ok path, made))
    (hat : made.nodeAt false path = .ok (archive, node)) (hout : ¬root <+: archive)
    (hshort : archive.path.raw.length < FileSystem.maxPathLength) :
    ∃ creation fs',
      engine.compressDirectory folder requested deflate .faultless fs = (.ok creation, fs')
      ∧ ∀ target place, NamesEmpty fs' target place →
        (∀ loc node, IsKept fs root loc node →
          (Location.path (place ++ loc)).raw.length < FileSystem.maxPathLength) →
        ∃ extraction fs'', engine.extract creation.archivePath target fs' = (.ok extraction, fs'')
          ∧ CameBack fs root creation place extraction fs'' := by
  have hmethod := isExact_methodOf hdeflate engine.settings
  obtain ⟨hfresh, hend, rfl⟩ := FileSystem.fresh_of_file hs.tree hmade hat
  have hplans := plans_plan (FileSystem.nodup_depthFirst hl root)
  have hc := hplans.isClean hl hclean
  have hreadable : IsReadable fs root := isReadable_of_text hs hl fun file hf name hn => by
    obtain ⟨s, hdecoded, -⟩ := hclean file hf name hn
    rw [hdecoded]
    rfl
  have hcount : (plan (fs.depthFirst root)).length ≤ engine.limits.maxEntryCount :=
    length_plan hl root ▸ hlimits.count
  refine ⟨_, _, compressDirectory_ok hs.toIsSound hl hroot hreadable
    (hplans.sum_le hmethod hnarrow) hfresh hend hmade hout deflate hcount,
    fun target place hempty hroom => ?_⟩
  have hplan := isWritable_of_readable hl hreadable hplans
  have hacc := hlimits.acceptable hs.tree hl hplans hc hmethod hnarrow
  have hroom' : ∀ p ∈ plan (fs.depthFirst root),
      (Location.path
          (place ++ (p.exposed (methodOf deflate engine.settings)).1.location)).raw.length
        < FileSystem.maxPathLength := fun p hp => by
    rw [hc.location _ hp]
    exact hroom _ _ (hplans.isKept hs.tree hl hp)
  obtain ⟨extraction, hx⟩ :=
    (extract_ok_iff hs hfresh hend hshort hplan hmethod hcount hnarrow hempty hroom').mpr hacc
  have hresult : Extraction.extract engine.limits path target _ = (.ok extraction, _) :=
    Prod.ext hx rfl
  refine ⟨extraction, _, hresult, .of_extracted hs.tree hl hplans hc
    (Nat.le_trans (Nat.le_of_lt (length_lt hnarrow)) (by decide)) _
    (extract_extracted hs hfresh hend hshort hplan hmethod hcount hnarrow hempty hresult)⟩

/-- The tree comes back in the empty directory. -/
theorem oneFile_comes_back : ∃ creation fs' extraction fs'',
    plainEngine.compressDirectory (.ofString "/s") "z" .plain .faultless oneFile
        = (.ok creation, fs')
      ∧ plainEngine.extract creation.archivePath (.ofString "/s/e") fs' = (.ok extraction, fs'')
      ∧ CameBack oneFile [[0x73]] creation [[0x73], [0x65]] extraction fs'' := by
  obtain ⟨creation, fs', hcreated, hback⟩ := tree_comes_back plainEngine Encoder.isExact_plain
    isOrdinary_oneFile isListed_oneFile readableDirectory_oneFile clean_oneFile keepsLimits_oneFile
    isNarrow_oneFile file_oneFile nodeAt_oneArchive (by decide) (by decide)
  have hsame := hcreated.symm.trans (compressDirectory_oneFile (by decide))
  obtain rfl : fs' = oneFileArchived := (Prod.mk.inj hsame).2
  obtain ⟨extraction, fs'', hextracted, hcame⟩ :=
    hback _ _ namesEmpty_oneFileArchived room_kept_oneFile
  exact ⟨creation, _, extraction, fs'', hcreated, hextracted, hcame⟩

end GuardedArchive.Creation
