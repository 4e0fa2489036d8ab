import GuardedArchive.Proofs.Creation.Contents
import GuardedArchive.Proofs.Extraction.Ordinary
import GuardedArchive.Proofs.FileSystem.Walk

/-!
# Proofs/Creation/Directory — a tree becomes an archive, if its entries are not too many

The archive is made at a free place outside of the tree, so that the walk and the reads find the
tree as it was.  With `F` regular files in `D` directories the archive is written where `F + D`
entries are allowed, and holds the plan of the walk (`Archived`); otherwise the count stops it
(`compressDirectory_archived`).
-/

namespace GuardedArchive

namespace FileSystem

variable {fs fs' : FileSystem} {p : Path} {loc root : Location}

/-! ## The archive file -/

/-- In a tree, nothing stands below the free place of a file either. -/
theorem Fresh.of_isFree (htree : IsTree fs) (h : Temporary.IsFree fs p loc) : Fresh fs p loc :=
  .of_resolveSteps htree h.vacant

theorem Fresh.isFree (h : Fresh fs p loc) (hend : p.endsWithSlash = false) :
    Temporary.IsFree fs p loc := ⟨h.resolveSteps_eq, hend⟩

/-- With a file in the free place it is still a tree. -/
theorem Fresh.isTree_file (htree : IsTree fs) (h : Fresh fs p loc) (content : Bytes) :
    IsTree (fs.put loc (.file content)) := by
  have hn : fs.node? loc = none := by simpa using h.free []
  exact htree.put (htree.isPlain h.leads) h.ne_nil (hn ▸ .file content)

theorem Fresh.isListed_put (hl : IsListed fs) (h : Fresh fs p loc) (node : Node) :
    IsListed (fs.put loc node) := by
  have hn : fs.node? loc = none := by simpa using h.free []
  obtain ⟨dir, name, rfl, hd, hlast, hfit⟩ := h.leads.vacant_last
  refine hl.put h.ne_nil hn ?_ ?_ node
  · exact (hl.isProper hd).append fun _ hm =>
      List.mem_singleton.mp hm ▸ Path.isProper_of_mem_steps (List.mem_of_getLast? hlast)
  · intro name' hm
    rcases List.mem_append.mp hm with hm | hm
    · exact hl.length_le hd name' hm
    · exact List.mem_singleton.mp hm ▸ hfit

/-- **A temporary file stands where its path leads.** -/
theorem fresh_of_file {pre suf : String} {made : FileSystem} {node : Node} (htree : IsTree fs)
    (hmade : Temporary.file pre suf fs = (.ok p, made))
    (hat : made.nodeAt false p = .ok (loc, node)) :
    Fresh fs p loc ∧ p.endsWithSlash = false ∧ made = fs.put loc (.file []) := by
  rcases Temporary.file_cases pre suf fs with ⟨e, hfile⟩ | ⟨q, at', hfree, hfile⟩
  · rw [hfile] at hmade
    cases (Prod.mk.inj hmade).1
  · obtain ⟨hq, rfl⟩ := Prod.mk.inj (hfile.symm.trans hmade)
    obtain rfl := Except.ok.inj hq
    rw [hfree.nodeAt] at hat
    obtain rfl := (Prod.mk.inj (Except.ok.inj hat)).1
    exact ⟨.of_isFree htree hfree, hfree.noSlash, rfl⟩

/-! ## The tree -/

/-- **A tree can be read**: the system can be asked for the paths of its directories and files, and
the names on the way to a file are text. -/
structure IsReadable (fs : FileSystem) (root : Location) : Prop where
  asked : ∀ loc node, loc ≠ [] → fs.node? (root ++ loc) = some node →
    (∀ target, node ≠ .link target) → node ≠ .pipe →
      checkPath (Location.path (root ++ loc)) = .ok ()
  text : ∀ loc content, fs.node? (root ++ loc) = some (.file content) →
    ∀ name ∈ loc, (Utf8.decode? name).isSome

theorem IsReadable.of_nodes (root : Location) (hspelled : ∀ e ∈ fs.nodes, IsSpelled e.1)
    (htext : ∀ e ∈ fs.nodes, ∀ name ∈ e.1, (Utf8.decode? name).isSome) : IsReadable fs root where
  asked loc node hne hn _ _ := by
    rw [node?, if_neg fun h => hne (List.append_eq_nil_iff.mp h).2] at hn
    exact (hspelled _ (mem_of_find? hn)).checkPath
  text loc content hn name hname := by
    by_cases hnil : root ++ loc = []
    · rw [node?, if_pos hnil] at hn
      cases hn
    · rw [node?, if_neg hnil] at hn
      exact htext _ (mem_of_find? hn) name (List.mem_append_right _ hname)

/-- What stands in a tree is found by its path. -/
theorem IsTree.nodeAt_path (htree : IsTree fs) (hl : IsListed fs) {node : Node}
    (hn : fs.node? loc = some node) (hlink : ∀ target, node ≠ .link target)
    (hc : checkPath loc.path = .ok ()) : fs.nodeAt false loc.path = .ok (loc, node) :=
  (htree _ _ hn).nodeAt (hl.isProper hn) ⟨hl.length_le hn, hc⟩ hn hlink false

end FileSystem

namespace Creation

open FileSystem (Fresh IsListed IsReadable IsSound)
open GuardedArchive.Stream (Carries)
open Zip (Archive Encoder Method Source)

variable {limits : Limits} {settings : CreationSettings} {deflate : Encoder} {method : Method}
  {fs fs' : FileSystem} {source path : Path} {root archive : Location} {requested : String}
  {planned : List Planned}

/-- The regular files below a location, in the order of a walk. -/
def filesBelow (fs : FileSystem) (root : Location) : List (Location × Bytes) :=
  (fs.depthFirst root).filterMap foundFile?

/-- The directories below a location that regular files stand in. -/
def directoriesBelow (fs : FileSystem) (root : Location) : List Location :=
  directoriesOf (filesBelow fs root)

theorem mem_filesBelow_iff {loc : Location} {content : Bytes} (hl : IsListed fs) :
    (loc, content) ∈ filesBelow fs root
      ↔ loc ≠ [] ∧ fs.node? (root ++ loc) = some (.file content) :=
  mem_filterMap_foundFile?_iff.trans (FileSystem.mem_depthFirst_iff hl)

theorem mem_directoriesBelow_iff {d : Location} :
    d ∈ directoriesBelow fs root ↔ ∃ file ∈ filesBelow fs root, d ∈ ancestors file.1 := by
  rw [directoriesBelow, directoriesOf, List.mem_dedup, List.mem_flatMap]

theorem isWalk_depthFirst (hl : IsListed fs) (root : Location) : IsWalk (fs.depthFirst root) := by
  refine ⟨FileSystem.nodup_depthFirst hl root, fun e he => ?_⟩
  obtain ⟨hne, hn⟩ := (FileSystem.mem_depthFirst_iff hl).mp he
  exact ⟨hne, (hl.isProper hn).of_append.2⟩

/-- **A walk goes through a readable tree**, whatever is in the archive. -/
theorem passable_depthFirst (hs : IsSound fs) (hl : IsListed fs) (hreadable : IsReadable fs root)
    (hfresh : Fresh fs path archive) : ∀ e ∈ fs.depthFirst root,
      Passable ⟨fs, archive, path, method⟩ root e := by
  rintro ⟨loc, node⟩ he
  obtain ⟨hne, hn⟩ := (FileSystem.mem_depthFirst_iff hl).mp he
  have hfree : fs.node? archive = none := by simpa using hfresh.free []
  refine ⟨(hl.isProper hn).of_append.2, fun hd => ?_, fun hf => ?_, fun file hf octets => ?_⟩
  · obtain rfl : node = .directory := hd
    exact hreadable.asked loc _ hne hn Node.directory_ne_link (by simp)
  · cases node with
    | file content => exact hreadable.text loc content hn
    | directory | link | pipe => exact absurd rfl hf
  · cases node with
    | file content =>
      obtain rfl := Option.some.inj hf
      have hapart : root ++ loc ≠ archive := fun he => by
        rw [← he, hn] at hfree
        cases hfree
      have hfile : (fs.put archive (.file octets)).node? (root ++ loc) = some (.file content) := by
        rw [fs.node?_put hfresh.ne_nil, if_neg (Ne.symm hapart), hn]
      exact ⟨_, hapart, (hfresh.isTree_file hs.tree octets).nodeAt_path (hfresh.isListed_put hl _)
        hfile (Node.file_ne_link content)
        (hreadable.asked loc _ hne hn (Node.file_ne_link content) (by simp))⟩
    | directory | link | pipe => cases hf

/-! ## The archive -/

/-- An archive holds what was planned: a record for each entry, under its name, and what is read of
the entry is its content. -/
def HoldsPlan (a : Archive) (fs : FileSystem) (planned : List Planned) : Prop :=
  List.Forall₂ (fun p r => r.rawName = p.name
    ∧ ∃ entry, a.openEntry r fs = .ok entry ∧ Carries (entry.reads fs) p.content) planned a.records

/-- **A tree was archived**: the archive was written with what the walk calls for, each entry under
a name of its own, and the report counts it.  However large it is, its octets are laid out for the
entries, and what each entry has packed carries its content.  Unless it needs wide records, the
archive opens and holds the plan. -/
structure Archived (limits : Limits) (method : Method) (fs : FileSystem) (root archive : Location)
    (planned : List Planned) (report : CreationReport) (fs' : FileSystem) : Prop where
  plans : Plans (fs.depthFirst root) planned
  nodup : (planned.map Planned.name).Nodup
  files : fs' = fs.put archive (.file (writerOf method planned).finish)
  laidOut : Zip.Writer.LaysOut (fs'.contentAt archive) (planned.map (Planned.written method))
  carries : ∀ p ∈ planned,
    Carries ((p.written method).reads (p.written method).packed) p.content
  opens : (writerOf method planned).IsNarrow →
    ∃ a, Archive.load limits (.disk archive) fs' = .ok a ∧ HoldsPlan a fs' planned
  filesAdded : report.filesAdded = (filesBelow fs root).length
  directoriesAdded : report.directoriesAdded = (directoriesBelow fs root).length
  bytesWritten : report.bytesWritten = ((filesBelow fs root).map (·.2.length)).sum

theorem octetsOf_eq : ∀ planned : List Planned,
    octetsOf planned = ((planned.filterMap Planned.file?).map (·.2.length)).sum
  | [] => rfl
  | .directory _ :: planned => by
    rw [List.filterMap_cons_none rfl, ← octetsOf_eq planned]
    exact Nat.zero_add _
  | .file loc content :: planned => by
    have hfile : (Planned.file loc content).file? = some (loc, content) := rfl
    rw [List.filterMap_cons_some hfile, List.map_cons, List.sum_cons, ← octetsOf_eq planned]
    rfl

/-- **Writing goes on from the empty file that was made**, and discards it when that fails. -/
theorem withArchive_eq (disk : Disk) (build : Effect Creation Unit)
    (hfree : Temporary.IsFree fs path archive)
    (hmade : Temporary.file settings.temporaryPrefix
      ("-" ++ ArchiveName.normalize settings requested) fs
        = (.ok path, fs.put archive (.file []))) :
    withArchive disk settings requested build fs
      = match (build >>= fun _ => finish)
            { files := fs.put archive (.file [])
              archive := archive
              report := { archivePath := path }
              disk := disk } with
        | (.error e, s) => (.error e, Temporary.discardFile path s.files)
        | (.ok (), s) => (.ok s.report, s.files) := by
  have hask : Operation.ask (·.nodeAt false path) (fs.put archive (.file []))
      = (.ok (archive, .file []), fs.put archive (.file [])) := by
    rw [Operation.ask, Effect.look, hfree.nodeAt]
    rfl
  rcases hbuild : (build >>= fun _ => finish)
      ⟨fs.put archive (.file []), archive, {}, [], { archivePath := path }, disk⟩
    with ⟨_ | _, s⟩ <;>
  · rw [withArchive, Effect.bind_apply, hmade]
    simp only [Effect.onFailure, bind, hask] at hbuild ⊢
    rw [hbuild]

section

variable (build : Effect Creation Unit) (hfresh : Fresh fs path archive)
  (hend : path.endsWithSlash = false)
  (hmade : Temporary.file settings.temporaryPrefix ("-" ++ ArchiveName.normalize settings requested)
    fs = (.ok path, fs.put archive (.file [])))
include hfresh hend hmade

/-- The archive is finished where the building of it succeeds. -/
theorem withArchive_ok {planned : List Planned} {skipped : List Path}
    (h : build (Draft.holding ⟨fs, archive, path, method⟩ [] [])
      = (.ok (), Draft.holding ⟨fs, archive, path, method⟩ planned skipped)) :
    withArchive .faultless settings requested build fs
      = (.ok (reportOf path planned skipped),
        fs.put archive (.file (writerOf method planned).finish)) := by
  have hbuild : build ⟨fs.put archive (.file []), archive, {}, [], { archivePath := path },
    .faultless⟩ = (.ok (), Draft.holding ⟨fs, archive, path, method⟩ planned skipped) := h
  have hfinish : finish (Draft.holding ⟨fs, archive, path, method⟩ planned skipped)
      = (.ok (), (Draft.holding ⟨fs, archive, path, method⟩ planned skipped).save
        (writerOf method planned).finish) := rfl
  rw [withArchive_eq _ build (hfresh.isFree hend) hmade, Effect.bind_apply, hbuild]
  simp only [hfinish]
  rw [save, Draft.holding, FileSystem.put_put]

theorem withArchive_error {disk : Disk} {e : ArchiveError}
    (h : (build ⟨fs.put archive (.file []), archive, {}, [], { archivePath := path }, disk⟩).1
      = .error e) : (withArchive disk settings requested build fs).1 = .error e := by
  obtain ⟨s, hbuild⟩ : ∃ s, build ⟨fs.put archive (.file []), archive, {}, [],
    { archivePath := path }, disk⟩ = (.error e, s) := ⟨_, Prod.ext h rfl⟩
  rw [withArchive_eq _ build (hfresh.isFree hend) hmade, Effect.bind_apply, hbuild]

end

/-- **What was planned is read back from its archive.** -/
theorem exists_holdsPlan (hplan : IsWritable planned) (hmethod : method.IsExact)
    (hcount : planned.length ≤ limits.maxEntryCount) (hnarrow : (writerOf method planned).IsNarrow)
    (ho : (Source.disk archive).octets fs = (writerOf method planned).finish) :
    ∃ a, Archive.load limits (.disk archive) fs = .ok a ∧ HoldsPlan a fs planned := by
  obtain ⟨rs, hload, hrs⟩ :=
    Zip.Writer.load_finish (hplan.isLegible hmethod hcount hnarrow) ho
  refine ⟨_, hload, (List.forall₂_map_left_iff.mp hrs).imp ?_⟩
  rintro p r ⟨hfits, front, back, ho, hsmall, rfl⟩
  have hopens : ∃ entry, Archive.openEntry ⟨.disk archive, rs⟩ _ fs = .ok entry ∧ _ :=
    Zip.Written.openEntry_record hfits hsmall ho
  obtain ⟨entry, hopen, -, hreads⟩ := hopens
  refine ⟨Planned.name_written method p, entry, hopen, ?_⟩
  exact Planned.content_written method p ▸ hreads fs rfl

/-- The plan of a readable tree can be written. -/
theorem isWritable_of_readable (hl : IsListed fs) (hreadable : IsReadable fs root)
    (hplans : Plans (fs.depthFirst root) planned) : IsWritable planned := by
  refine hplans.isWritable (isWalk_depthFirst hl root) ?_ ?_
  · rintro ⟨loc, content⟩ hf
    exact hreadable.text loc content ((mem_filesBelow_iff hl).mp hf).2
  · rintro ⟨loc, content⟩ hf
    obtain ⟨hne, hn⟩ := (mem_filesBelow_iff hl).mp hf
    have hasked := hreadable.asked loc _ hne hn (Node.file_ne_link content) (by simp)
    have hshort := (FileSystem.checkPath_eq_ok_iff.mp hasked).2
    have hle := Path.length_joined_le root loc
    rw [FileSystem.maxPathLength] at hshort
    dsimp only
    omega

/-- **The archive of a plan is that of its tree.** -/
theorem Archived.of_plan (hl : IsListed fs) (hreadable : IsReadable fs root)
    (hmethod : method.IsExact) (hne : archive ≠ []) (hplans : Plans (fs.depthFirst root) planned)
    (hcount : planned.length ≤ limits.maxEntryCount) (skipped : List Path) :
    Archived limits method fs root archive planned (reportOf path planned skipped)
      (fs.put archive (.file (writerOf method planned).finish)) where
  plans := hplans
  nodup := hplans.nodup_names (isWalk_depthFirst hl root)
  files := rfl
  laidOut := by
    rw [fs.contentAt_put hne]
    exact Zip.Writer.laysOut_finish _
  carries p hp := by
    have hfits := (isWritable_of_readable hl hreadable hplans).fits hmethod hp
    exact Planned.content_written method p ▸ Zip.Written.carries_reads hfits
  opens hnarrow := exists_holdsPlan (isWritable_of_readable hl hreadable hplans) hmethod
    hcount hnarrow (fs.contentAt_put hne _)
  filesAdded := congrArg List.length hplans.files
  directoriesAdded := hplans.perm_directories.length_eq
  bytesWritten := by
    rw [reportOf, octetsOf_eq, hplans.files]
    rfl

/-- The walk of what stands below a location, when it has begun. -/
def walkBelow (limits : Limits) (method : Method) (root : Location) : Effect Creation Unit :=
  fun s => addEach limits method root (s.files.depthFirst root) s

/-- An archive outside of the tree is not found by the walk. -/
theorem walkBelow_holding (limits : Limits) (method : Method) (hout : ¬root <+: archive) :
    walkBelow limits method root (Draft.holding ⟨fs, archive, path, method⟩ [] [])
      = addEach limits method root (fs.depthFirst root)
        (Draft.holding ⟨fs, archive, path, method⟩ [] []) := by
  have hwalk : (fs.put archive (.file (writerOf method []).octets)).depthFirst root
      = fs.depthFirst root := FileSystem.depthFirst_put hout _
  rw [walkBelow, Draft.holding, hwalk]

/-- **The walk through a readable tree ends with its plan**, or is stopped by the count. -/
theorem walkBelow_ends (limits : Limits) (method : Method) (hs : IsSound fs)
    (hl : IsListed fs) (hreadable : IsReadable fs root)
    (hcounted : ((filesBelow fs root).map (·.2.length)).sum ≤ Bytes.maxCount)
    (hfresh : Fresh fs path archive) (hout : ¬root <+: archive) :
    Draft.Ends ⟨fs, archive, path, method⟩ limits (plan (fs.depthFirst root))
      (leftOut root (fs.depthFirst root))
      (walkBelow limits method root (Draft.holding ⟨fs, archive, path, method⟩ [] [])) := by
  have hplans := plans_plan (FileSystem.nodup_depthFirst hl root)
  have hends : Draft.Ends _ limits _ ([] ++ leftOut root (fs.depthFirst root)) _ :=
    addEach_ends ⟨fs, archive, path, method⟩ (Nat.zero_le _)
      (fun _ hp => absurd hp List.not_mem_nil) (passable_depthFirst hs hl hreadable hfresh)
      (by rw [← plan, octetsOf_eq, hplans.files]; exact hcounted)
  rw [walkBelow_holding limits method hout]
  exact hends

section

variable (hs : IsSound fs) (hl : IsListed fs)
  (hroot : Access.readableDirectory fs source = .ok root) (hreadable : IsReadable fs root)
  (hcounted : ((filesBelow fs root).map (·.2.length)).sum ≤ Bytes.maxCount)
  (hfresh : Fresh fs path archive) (hend : path.endsWithSlash = false)
  (hmade : Temporary.file settings.temporaryPrefix ("-" ++ ArchiveName.normalize settings requested)
    fs = (.ok path, fs.put archive (.file [])))
  (hout : ¬root <+: archive)
include hroot

theorem compressDirectory_eq (disk : Disk) (deflate : Encoder) (limits : Limits)
    (settings : CreationSettings) (requested : String) :
    compressDirectory disk deflate limits settings source requested fs
      = withArchive disk settings requested
        (walkBelow limits (methodOf deflate settings) root) fs := by
  rw [compressDirectory, Effect.bind_apply, Effect.look, hroot]
  rfl

include hs hl hreadable hcounted hfresh hend hmade hout

/-- **A tree whose plan is not too long is archived.** -/
theorem compressDirectory_ok (deflate : Encoder)
    (hcount : (plan (fs.depthFirst root)).length ≤ limits.maxEntryCount) :
    compressDirectory .faultless deflate limits settings source requested fs
      = (.ok (reportOf path (plan (fs.depthFirst root)) (leftOut root (fs.depthFirst root))),
        fs.put archive
          (.file (writerOf (methodOf deflate settings) (plan (fs.depthFirst root))).finish)) := by
  have hends := walkBelow_ends limits (methodOf deflate settings) hs hl hreadable hcounted hfresh
    hout
  rw [compressDirectory_eq hroot, withArchive_ok _ hfresh hend hmade (hends.of_le hcount)]

theorem compressDirectory_error (deflate : Encoder)
    (hcount : limits.maxEntryCount < (plan (fs.depthFirst root)).length) :
    (compressDirectory .faultless deflate limits settings source requested fs).1
      = .error (tooMany limits) := by
  have hends := walkBelow_ends limits (methodOf deflate settings) hs hl hreadable hcounted hfresh
    hout
  rw [Draft.Ends, if_neg (Nat.not_le.mpr hcount)] at hends
  rw [compressDirectory_eq hroot]
  exact withArchive_error _ hfresh hend hmade hends

end

theorem length_plan (hl : IsListed fs) (root : Location) : (plan (fs.depthFirst root)).length
    = (filesBelow fs root).length + (directoriesBelow fs root).length :=
  (plans_plan (FileSystem.nodup_depthFirst hl root)).length_eq

/-- **A tree is archived exactly where its entries are not too many**: one for each regular file and
one for each directory that they stand in.  Otherwise the count of one too many is the error. -/
theorem compressDirectory_archived (limits : Limits) {node : Node} (hdeflate : deflate.IsExact)
    (hs : IsSound fs) (hl : IsListed fs) (hroot : Access.readableDirectory fs source = .ok root)
    (hreadable : IsReadable fs root)
    (hcounted : ((filesBelow fs root).map (·.2.length)).sum ≤ Bytes.maxCount)
    (hmade : Temporary.file settings.temporaryPrefix
      ("-" ++ ArchiveName.normalize settings requested) fs = (.ok path, fs'))
    (hat : fs'.nodeAt false path = .ok (archive, node)) (hout : ¬root <+: archive) :
    ((filesBelow fs root).length + (directoriesBelow fs root).length ≤ limits.maxEntryCount →
      ∃ report planned fs'',
        compressDirectory .faultless deflate limits settings source requested fs
          = (.ok report, fs'')
        ∧ Archived limits (methodOf deflate settings) fs root archive planned report fs'')
      ∧ (limits.maxEntryCount < (filesBelow fs root).length + (directoriesBelow fs root).length →
        (compressDirectory .faultless deflate limits settings source requested fs).1
          = .error (.violation (.entryCount (limits.maxEntryCount + 1) limits.maxEntryCount))) := by
  obtain ⟨hfresh, hend, rfl⟩ := FileSystem.fresh_of_file hs.tree hmade hat
  rw [← length_plan hl]
  constructor
  · intro hcount
    exact ⟨_, _, _, compressDirectory_ok hs hl hroot hreadable hcounted hfresh hend hmade hout
      deflate hcount, .of_plan hl hreadable (isExact_methodOf hdeflate settings)
        hfresh.ne_nil (plans_plan (FileSystem.nodup_depthFirst hl root)) hcount _⟩
  · exact compressDirectory_error hs hl hroot hreadable hcounted hfresh hend hmade hout deflate

/-! ## A tree with one file -/

/-- The file `f` in the directory `/s/a`, next to an empty directory and a link; temporary files are
made in `/m`. -/
def oneFile : FileSystem where
  nodes := [([[0x6d]], .directory), ([[0x73]], .directory), ([[0x73], [0x61]], .directory),
    ([[0x73], [0x61], [0x66]], .file [0x31, 0x32]), ([[0x73], [0x65]], .directory),
    ([[0x73], [0x6c]], .link (.ofString "/m"))]
  temporaryDirectory := [[0x6d]]

theorem isSound_oneFile : IsSound oneFile where
  tree := FileSystem.isTree_of_nodes (by decide)
  proper := fun _ hn => absurd hn List.not_mem_nil
  here := rfl

theorem isListed_oneFile : IsListed oneFile := ⟨by decide, by decide, by decide⟩

theorem isReadable_oneFile : IsReadable oneFile [[0x73]] := .of_nodes _ (by decide) (by decide)

theorem readableDirectory_oneFile :
    Access.readableDirectory oneFile (.ofString "/s") = .ok [[0x73]] := by cbv

theorem filesBelow_oneFile : filesBelow oneFile [[0x73]] = [([[0x61], [0x66]], [0x31, 0x32])] := by
  cbv

theorem directoriesBelow_oneFile : directoriesBelow oneFile [[0x73]] = [[[0x61]]] := by
  rw [directoriesBelow, filesBelow_oneFile]
  decide

/-- The archive for the tree. -/
def oneArchive : Location := [[0x6d], Bytes.ofString "zipshield-aaaaaa-z.zip"]

theorem file_oneFile : Temporary.file ({} : CreationSettings).temporaryPrefix
    ("-" ++ ArchiveName.normalize {} "z") oneFile
      = (.ok (.ofString "/m/zipshield-aaaaaa-z.zip"), oneFile.put oneArchive (.file [])) := by
  have hname : ArchiveName.normalize {} "z" = "z.zip" := by decide +kernel
  rw [hname]
  cbv

theorem nodeAt_oneArchive : (oneFile.put oneArchive (.file [])).nodeAt false
    (.ofString "/m/zipshield-aaaaaa-z.zip") = .ok (oneArchive, .file []) := by cbv

theorem fresh_oneFile : Fresh oneFile (.ofString "/m/zipshield-aaaaaa-z.zip") oneArchive :=
  (FileSystem.fresh_of_file isSound_oneFile.tree file_oneFile nodeAt_oneArchive).1

/-- The file and its directory are archived where two entries are allowed. -/
theorem archived_oneFile :
    (∃ report planned fs', compressDirectory .faultless .plain {} {} (.ofString "/s") "z" oneFile
        = (.ok report, fs')
      ∧ Archived {} (methodOf .plain {}) oneFile [[0x73]]
        [[0x6d], Bytes.ofString "zipshield-aaaaaa-z.zip"] planned report fs')
      ∧ (compressDirectory .faultless .plain { maxEntryCount := 1 } {} (.ofString "/s") "z"
          oneFile).1 = .error (.violation (.entryCount 2 1)) := by
  have harchived := fun limits => compressDirectory_archived limits Encoder.isExact_plain
    isSound_oneFile isListed_oneFile readableDirectory_oneFile isReadable_oneFile
    (by rw [filesBelow_oneFile]; decide) file_oneFile nodeAt_oneArchive (by decide)
  rw [filesBelow_oneFile, directoriesBelow_oneFile] at harchived
  exact ⟨(harchived {}).1 (by decide), (harchived { maxEntryCount := 1 }).2 (by decide)⟩

end Creation

end GuardedArchive
