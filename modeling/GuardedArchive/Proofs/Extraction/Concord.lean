import GuardedArchive.Engine
import GuardedArchive.Proofs.Extraction.Atomic
import GuardedArchive.Proofs.Extraction.Lockstep
import GuardedArchive.Proofs.Extraction.Ordinary

/-!
# Proofs/Extraction/Concord — the ways to extract an archive agree

An archive is extracted into its target, into a directory that is then moved to the target, or into
a temporary one.  In an ordinary file system each of them extracts it from the same octets into an
empty directory (`Prepared`), so that all end alike (`Prepared.endAlike`); what is done behind the
extraction takes nothing of that back (`extractAtomic_endAlike`, `extractTemporary_endAlike`).  So
the ways **agree** (`extractions_agree`).  They do not where the target is named in a link to a
directory, which only the atomic extraction refuses (`extractAtomic_refuses_link`).
-/

namespace GuardedArchive.Extraction

open FileSystem
open Zip (Archive Source)

variable {limits : Limits} {archive target p staging temporary : Path}
  {fs fs' fs₁ fs₂ fs₃ : FileSystem}
  {file root root' parent : Location} {name : Name} {content : Bytes}
  {entries : List EntryDescriptor}

/-! ## Extractions that end alike -/

/-- **Two extractions end alike**: with the same error, or with the same counts and the same tree
below the one root as below the other. -/
inductive EndAlike (root root' : Location) : Except ArchiveError ExtractionReport × FileSystem →
    Except ArchiveError ExtractionReport × FileSystem → Prop
  | failed (e : ArchiveError) (fs fs' : FileSystem) :
      EndAlike root root' (.error e, fs) (.error e, fs')
  | extracted {report report' : ExtractionReport} {fs fs' : FileSystem}
      (counts : report'.counts = report.counts) (target : report.target = root.path)
      (target' : report'.target = root'.path)
      (tree : ∀ rel, fs'.node? (root' ++ rel) = fs.node? (root ++ rel)) :
      EndAlike root root' (.ok report, fs) (.ok report', fs')

theorem EndAlike.trans {root'' : Location}
    {x y z : Except ArchiveError ExtractionReport × FileSystem} (h : EndAlike root root' x y)
    (h' : EndAlike root' root'' y z) : EndAlike root root'' x z := by
  cases h with
  | failed e fs fs' =>
    cases h' with
    | failed _ _ fs'' => exact .failed e fs fs''
  | extracted counts target _ tree =>
    cases h' with
    | extracted counts' _ target'' tree' =>
      exact .extracted (counts'.trans counts) target target''
        fun rel => (tree' rel).trans (tree rel)

/-- The report names the destination. -/
theorem target_of_ofSource {dest : Destination} {source : Source} {report : ExtractionReport}
    (h : ofSource limits dest source fs = (.ok report, fs')) : report.target = dest.path := by
  rw [ofSource_apply] at h
  rcases hl : Archive.load limits source fs with e | ar <;> rw [hl] at h
  · cases h
  · dsimp only at h
    rw [run_apply] at h
    generalize (extractEach limits dest ar.openEntry ar.records { files := fs }).1 = result at h
    rcases result with e | _
    · cases h
    · obtain rfl := Except.ok.inj (Prod.mk.inj h).1
      rfl

/-! ## One archive, two empty directories -/

/-- There is room for the entries below a root: no path of theirs comes to the limit. -/
structure HasRoom (root : Location) (entries : List EntryDescriptor) : Prop where
  short : root.path.raw.length < maxPathLength
  entries : ∀ entry ∈ entries,
    (Location.path (root ++ entry.location)).raw.length < maxPathLength

/-- An empty directory stands where the archive is to be extracted, and nothing but directories was
made for it. -/
structure Prepared (fs : FileSystem) (root : Location) (fs₁ : FileSystem) : Prop where
  ordinary : IsOrdinary fs₁
  adds : AddsDirectories fs fs₁
  empty : IsEmptyRoot fs₁ root

theorem Prepared.of_nodeAt (hs : IsOrdinary fs₁) (ha : AddsDirectories fs fs₁)
    (hat : fs₁.nodeAt true p = .ok (root, .directory))
    (hempty : ∀ rel, rel ≠ [] → fs₁.node? (root ++ rel) = none) : Prepared fs root fs₁ :=
  ⟨hs, ha, .of_canonicalize hs.proper hs.isPlain (hs.canonicalize_of_nodeAt hat) hempty⟩

theorem Prepared.of_fresh (hs : IsOrdinary fs) (hf : Fresh fs p root) (hroot : IsSpelled root) :
    Prepared fs root (fs.put root .directory) := by
  have hd : (fs.put root .directory).node? root = some .directory := by
    rw [fs.node?_put hf.ne_nil, if_pos rfl]
  have hadds := makeDirectory_addsDirectories
    (makeDirectory_eq_ok_iff.mpr ⟨root, hf.resolveSteps_eq, rfl⟩)
  refine .of_nodeAt (hs.put hf hroot) hadds (hf.nodeAt hf.grows hd true) fun rel hrel => ?_
  rw [fs.node?_put hf.ne_nil, if_neg (by simpa using hrel), hf.free]

theorem Prepared.isSpelled (h : Prepared fs root fs₁) : IsSpelled root :=
  h.ordinary.spelled root _ (h.empty.directory root List.prefix_rfl)

theorem askable_of_short {a b : Site} {loc : Location} (ha : IsSpelled a.root)
    (hb : IsSpelled b.root) (hlen : (Location.path (a.root ++ loc)).raw.length < maxPathLength)
    (hlen' : (Location.path (b.root ++ loc)).raw.length < maxPathLength) : Askable a b loc := by
  intro above hab
  have hshort : ∀ root : Location, (Location.path (root ++ loc)).raw.length < maxPathLength →
      (Location.path (root ++ above)).raw.length ≤ maxPathLength := fun root hlen =>
    (Path.raw_path_above ((List.prefix_append_right_inj root).mpr hab)).length_le.trans hlen.le
  rw [ha.checkPath_append (hshort _ hlen), hb.checkPath_append (hshort _ hlen')]

theorem declared_congr {source : Source} (h : source.octets fs' = source.octets fs) :
    declared limits source fs' = declared limits source fs := by
  rw [declared, declared, load_congr h]

/-- **Extractions of one archive into two empty directories end alike.** -/
theorem Prepared.endAlike (h : Prepared fs root fs₁) (h' : Prepared fs root' fs₂)
    (hn : fs.node? file = some (.file content))
    (hroom : HasRoom root (declared limits (.disk file) fs))
    (hroom' : HasRoom root' (declared limits (.disk file) fs)) :
    EndAlike root root' (ofSource limits ⟨root⟩ (.disk file) fs₁)
      (ofSource limits ⟨root'⟩ (.disk file) fs₂) := by
  have hoctets := octets_adds h.adds hn
  have hoctets' := octets_adds h'.adds hn
  have hstart : Alike ⟨root, fs₁⟩ ⟨root', fs₂⟩ fs₁ fs₂ :=
    .start h.empty h'.empty h.isSpelled.fits h'.isSpelled.fits
  have hask : ∀ entry ∈ declared limits (.disk file) fs₁,
      Askable ⟨root, fs₁⟩ ⟨root', fs₂⟩ entry.location := by
    intro entry hentry
    rw [declared_congr hoctets] at hentry
    exact askable_of_short h.isSpelled h'.isSpelled (hroom.entries entry hentry)
      (hroom'.entries entry hentry)
  obtain ⟨hcounts, halike⟩ :=
    ofSource_alike hstart h.empty h'.empty (hoctets'.trans hoctets.symm) hask
  dsimp only at hcounts halike
  rcases hx : ofSource limits ⟨root⟩ (.disk file) fs₁ with ⟨e | report, fs₃⟩ <;>
    rcases hy : ofSource limits ⟨root'⟩ (.disk file) fs₂ with ⟨e' | report', fs₄⟩ <;>
    rw [hx, hy] at hcounts halike
  · obtain rfl : e' = e := Except.error.inj hcounts
    exact .failed e' fs₃ fs₄
  · cases hcounts
  · cases hcounts
  · exact .extracted (Except.ok.inj hcounts) (target_of_ofSource hx) (target_of_ofSource hy)
      halike.node

/-! ## Into the target -/

/-- **A target that can be extracted to in every way**: absent or an empty directory, under a name
in a directory that can be written to. -/
structure IsTarget (fs : FileSystem) (target : Path) (parent : Location) (name : Name) : Prop where
  check : checkPath target = .ok ()
  last : target.steps.getLast? = some (.into name)
  fits : name.length ≤ maxNameLength
  writable : Access.existingDirectory fs (parentOf target) = .ok parent
  free : fs.node? (parent ++ [name]) = none ∨ fs.node? (parent ++ [name]) = some .directory
  empty : ∀ rel, rel ≠ [] → fs.node? (parent ++ [name] ++ rel) = none

namespace IsTarget

theorem fileName? (h : IsTarget fs target parent name) : target.fileName? = some name :=
  Path.fileName?_of_steps h.last

theorem names (hs : IsSound fs) (h : IsTarget fs target parent name) :
    Names fs target parent name :=
  names_of_fileName? hs h.fileName? (Access.existingDirectory_eq_ok h.writable).2

theorem fresh (hs : IsSound fs) (h : IsTarget fs target parent name)
    (hn : fs.node? (parent ++ [name]) = none) : Fresh fs target (parent ++ [name]) :=
  (h.names hs).fresh hs.tree h.check h.last h.fits hn

theorem isSpelled (hs : IsOrdinary fs) (h : IsTarget fs target parent name)
    (hshort : (Location.path (parent ++ [name])).raw.length < maxPathLength) :
    IsSpelled (parent ++ [name]) := by
  have hd := (canonicalize_eq_ok_iff.mp (Access.existingDirectory_eq_ok h.writable).2).2.node?_eq
  exact hs.isSpelled_concat hd h.check h.last h.fits hshort

/-- **The target is extracted to where its name is in its parent.** -/
theorem exists_prepared (hs : IsOrdinary fs) (h : IsTarget fs target parent name)
    (hshort : (Location.path (parent ++ [name])).raw.length < maxPathLength)
    (hread : Access.readableFile fs archive = .ok file) (limits : Limits) :
    ∃ fs₁, Prepared fs (parent ++ [name]) fs₁ ∧ extract limits archive target fs
      = ofSource limits ⟨parent ++ [name]⟩ (.disk file) fs₁ := by
  rcases h.free with hn | hd
  · have hfresh := h.fresh hs.toIsSound hn
    have hspelled := h.isSpelled hs hshort
    exact ⟨_, .of_fresh hs hfresh hspelled,
      extract_eq hread (hfresh.writableDirectory hs hspelled)⟩
  · have hat : ∀ followLast, fs.nodeAt followLast target = .ok (parent ++ [name], .directory) :=
      fun _ => (h.names hs.toIsSound).nodeAt h.check h.fits hd
    exact ⟨fs, .of_nodeAt hs (.refl fs) (hat true) h.empty,
      extract_eq hread (writableDirectory_of_existingDirectory (hs.existingDirectory (hat false)))⟩

/-- Whether the target stands is known. -/
theorem targetExists (hs : IsSound fs) (h : IsTarget fs target parent name) :
    ∃ existed, Extraction.targetExists target fs = .ok existed
      ∧ (fs.node? (parent ++ [name]) = none ∧ existed = false
        ∨ fs.node? (parent ++ [name]) = some .directory ∧ existed = true) := by
  rw [Extraction.targetExists]
  rcases h.free with hn | hd
  · refine ⟨false, ?_, .inl ⟨hn, rfl⟩⟩
    rw [(h.fresh hs hn).nodeAt_eq_error]
  · have hempty : fs.children (parent ++ [name]) = [] :=
      children_eq_nil_iff.mpr fun other => h.empty [other] (List.cons_ne_nil _ _)
    refine ⟨true, ?_, .inr ⟨hd, rfl⟩⟩
    rw [(h.names hs).nodeAt h.check h.fits hd]
    dsimp only
    rw [if_pos hempty]

end IsTarget

/-! ## Into a fresh directory -/

/-- What is made at a free place is extracted to where it stands. -/
theorem extract_path (hs : IsOrdinary fs) (hf : Fresh fs p root) (hroot : IsSpelled root)
    (hproper : file.IsProper) (hn : fs.node? file = some (.file content)) (limits : Limits) :
    extract limits file.path p (fs.put root .directory)
      = ofSource limits ⟨root⟩ (.disk file) (fs.put root .directory) := by
  have hprepared := Prepared.of_fresh hs hf hroot
  have hd : (fs.put root .directory).node? root = some .directory :=
    hprepared.empty.directory root List.prefix_rfl
  have hread := hprepared.ordinary.readableFile_path hproper (hprepared.adds.kept hn)
  exact extract_eq hread (writableDirectory_of_existingDirectory
    (hprepared.ordinary.existingDirectory (hf.nodeAt hf.grows hd false)))

theorem Fresh.root_eq (hf : Fresh fs p root)
    (hat : (fs.put root .directory).nodeAt false p = .ok (root', .directory)) : root' = root := by
  have hd : (fs.put root .directory).node? root = some .directory := by
    rw [fs.node?_put hf.ne_nil, if_pos rfl]
  rw [hf.nodeAt hf.grows hd false] at hat
  exact (Prod.mk.inj (Except.ok.inj hat)).1.symm

/-- What can be read is a file at a location of its own. -/
theorem node?_of_readableFile (hs : IsSound fs) (h : Access.readableFile fs archive = .ok file) :
    file.IsProper ∧ ∃ content, fs.node? file = some (.file content) := by
  obtain ⟨content, hc⟩ := Access.readableFile_eq_ok h
  exact ⟨(hs.canonicalize hc).1, content, (canonicalize_eq_ok_iff.mp hc).2.node?_eq⟩

/-- **An extraction into a temporary directory ends as the extraction there does.** -/
theorem extractTemporary_endAlike {pre : String} (hs : IsOrdinary fs)
    (hread : Access.readableFile fs archive = .ok file)
    (hdir : Temporary.directory pre fs = (.ok temporary, fs₃))
    (hat : fs₃.nodeAt false temporary = .ok (root, .directory))
    (hshort : root.path.raw.length < maxPathLength) (limits : Limits) :
    Prepared fs root fs₃ ∧ EndAlike root root (ofSource limits ⟨root⟩ (.disk file) fs₃)
      (extractTemporary limits pre archive fs) := by
  obtain ⟨hproper, content, hn⟩ := node?_of_readableFile hs.toIsSound hread
  rcases directory_cases hs.tree pre with ⟨e, he⟩ | ⟨p, made, hf, he⟩
  · rw [he] at hdir
    cases (Prod.mk.inj hdir).1
  · obtain ⟨hpath, rfl⟩ := Prod.mk.inj (he.symm.trans hdir)
    obtain rfl := Except.ok.inj hpath
    obtain rfl := Fresh.root_eq hf hat
    have hroot := hf.isSpelled hs hshort
    refine ⟨.of_fresh hs hf hroot, ?_⟩
    rw [extractTemporary, Effect.bind_apply, Effect.look, hread]
    dsimp only
    rw [Effect.bind_apply, he]
    dsimp only
    rw [Effect.onFailure, extract_path hs hf hroot hproper hn]
    rcases hx : ofSource limits ⟨root⟩ (.disk file) (fs.put root .directory) with ⟨e | report, fs₂⟩
    · exact .failed e _ _
    · exact .extracted rfl (target_of_ofSource hx) (target_of_ofSource hx) fun _ => rfl

/-! ## Into a directory that is moved -/

/-- **An atomic extraction ends as the extraction into its staging directory does**, but that the
tree stands in the place of the target. -/
theorem extractAtomic_endAlike (hs : IsOrdinary fs)
    (hread : Access.readableFile fs archive = .ok file) (h : IsTarget fs target parent name)
    (hshort : (Location.path (parent ++ [name])).raw.length < maxPathLength)
    (hstaging : Temporary.stagingIn parent.path stagingPrefix fs = (.ok staging, fs₂))
    (hat : fs₂.nodeAt false staging = .ok (root, .directory))
    (hshort' : root.path.raw.length < maxPathLength) (limits : Limits) :
    Prepared fs root fs₂ ∧ EndAlike root (parent ++ [name])
      (ofSource limits ⟨root⟩ (.disk file) fs₂) (extractAtomic limits archive target fs) := by
  obtain ⟨hproper, content, hn⟩ := node?_of_readableFile hs.toIsSound hread
  have hin : NamedIn fs target parent name :=
    .of_existingDirectory hs.toIsSound h.fileName? h.writable
  rcases stagingIn_cases hs.tree hin.proper hin.plain hin.directory with
    ⟨e, hst⟩ | ⟨n, hf, hst⟩
  · rw [hst] at hstaging
    cases (Prod.mk.inj hstaging).1
  obtain ⟨hpath, rfl⟩ := Prod.mk.inj (hst.symm.trans hstaging)
  obtain rfl := Except.ok.inj hpath
  obtain rfl := Fresh.root_eq hf hat
  have hroot := hf.isSpelled hs hshort'
  refine ⟨.of_fresh hs hf hroot, ?_⟩
  obtain ⟨existed, hexists, hplace⟩ := h.targetExists hs.toIsSound
  have hparent := writableDirectory_of_existingDirectory h.writable
  have hextract := extract_path hs hf hroot hproper hn limits
  rcases hx : ofSource limits ⟨parent ++ [stagingName n]⟩ (.disk file)
    (fs.put (parent ++ [stagingName n]) .directory) with ⟨e | report, fs₃⟩ <;> rw [hx] at hextract
  · rw [extractAtomic_staged hread hexists hparent hin hst, Effect.bind_apply, fillAndMove,
      Effect.onFailure, Effect.bind_apply, hextract]
    exact .failed e _ _
  · obtain ⟨fs₄, hatomic, htree⟩ := extractAtomic_eq_ok hs.toIsSound hread hexists hparent hin hf
      hst (h.isSpelled hs hshort) hplace h.empty hextract
    rw [hatomic]
    exact .extracted rfl (target_of_ofSource hx) rfl htree

/-! ## All ways -/

/-- **The ways to extract an archive agree.**  In a file system that does not come near the limits,
an archive file that can be read is extracted into a target that is absent or an empty directory,
under a name in a directory that can be written to; and a staging directory and a temporary one can
be made.  Then the extraction into the target, the atomic one and that into the temporary directory
end alike: with the same error, or with the same counts and the same tree. -/
theorem extractions_agree (engine : Engine) (hs : IsOrdinary fs)
    (hread : Access.readableFile fs archive = .ok file) (htarget : IsTarget fs target parent name)
    (hstaging : Temporary.stagingIn parent.path stagingPrefix fs = (.ok staging, fs₂))
    (hstagingAt : fs₂.nodeAt false staging = .ok (root, .directory))
    (htemporary : Temporary.directory engine.settings.temporaryPrefix fs = (.ok temporary, fs₃))
    (htemporaryAt : fs₃.nodeAt false temporary = .ok (root', .directory))
    (hroom : ∀ r ∈ [parent ++ [name], root, root'],
      HasRoom r (declared engine.limits (.disk file) fs)) :
    EndAlike (parent ++ [name]) (parent ++ [name]) (engine.extract archive target fs)
        (engine.extractAtomic archive target fs)
      ∧ EndAlike (parent ++ [name]) root' (engine.extract archive target fs)
        (engine.extractTemporary archive fs) := by
  obtain ⟨-, content, hn⟩ := node?_of_readableFile hs.toIsSound hread
  have hroomTarget := hroom _ List.mem_cons_self
  have hroomStaging := hroom _ (List.mem_cons_of_mem _ List.mem_cons_self)
  have hroomTemporary := hroom root' (by simp)
  obtain ⟨fs₁, hprepared, hextract⟩ :=
    htarget.exists_prepared hs hroomTarget.short hread engine.limits
  obtain ⟨hstaged, hatomic⟩ := extractAtomic_endAlike hs hread htarget hroomTarget.short hstaging
    hstagingAt hroomStaging.short engine.limits
  obtain ⟨htemp, htemporaryEnd⟩ := extractTemporary_endAlike hs hread htemporary htemporaryAt
    hroomTemporary.short engine.limits
  rw [Engine.extract, hextract]
  exact ⟨(hprepared.endAlike hstaged hn hroomTarget hroomStaging).trans hatomic,
    (hprepared.endAlike htemp hn hroomTarget hroomTemporary).trans htemporaryEnd⟩

/-! ## A directory with a file in it, extracted to `/t` -/

/-- An engine with the limits and settings that stand where none are chosen. -/
def plainEngine : Engine := ⟨{}, {}, rfl, rfl⟩

theorem isTarget_holding (content : Bytes) :
    IsTarget (holding content) (.ofString "/t") [] [0x74] where
  check := by cbv
  last := by cbv
  fits := by decide
  writable := by cbv
  free := .inl (by cbv)
  empty rel _ := by simp [holding, node?, find?]

theorem readableFile_holding (content : Bytes) :
    Access.readableFile (holding content) (.ofString "/z") = .ok [[0x7a]] := by cbv

theorem writableDirectory_holding (content : Bytes) :
    Access.writableDirectory (.ofString "/t") (holding content)
      = (.ok [[0x74]], (holding content).put [[0x74]] .directory) := by cbv

theorem isEmptyRoot_holding (content : Bytes) :
    IsEmptyRoot ((holding content).put [[0x74]] .directory) [[0x74]] := by
  have hs := isOrdinary_holding content
  have hf : Fresh (holding content) (.ofString "/t") [[0x74]] := .of_resolveSteps hs.tree (by cbv)
  have hmade : ((holding content).put [[0x74]] .directory).canonicalize (.ofString "/t")
      = .ok ([[0x74]], .directory) := by cbv
  exact hf.isEmptyRoot hs.toIsSound hmade

/-- The archive is extracted into the directory `t`. -/
theorem ofSource_holding : ∃ fs', ofSource {} ⟨[[0x74]]⟩ (.disk [[0x7a]])
      ((holding smallArchive).put [[0x74]] .directory) = (.ok ⟨.ofString "/t", 2, 1, 1, 2⟩, fs')
    ∧ fs'.node? [[0x74], [0x64], [0x66]] = some (.file [0x31, 0x32]) :=
  ofSource_smallArchive rfl (isEmptyRoot_holding smallArchive) (by decide +kernel)
    (by decide +kernel)

/-- The archive is extracted to `/t`. -/
theorem extract_holding : ∃ fs', plainEngine.extract (.ofString "/z") (.ofString "/t")
      (holding smallArchive) = (.ok ⟨.ofString "/t", 2, 1, 1, 2⟩, fs')
    ∧ fs'.node? [[0x74], [0x64], [0x66]] = some (.file [0x31, 0x32]) := by
  obtain ⟨fs', hrun, hnode⟩ := ofSource_holding
  exact ⟨fs', (extract_eq (readableFile_holding _) (writableDirectory_holding _)).trans hrun, hnode⟩

/-- The directory and the file are extracted to `/t` in all ways. -/
theorem extractions_agree_smallArchive :
    (∃ fs', plainEngine.extract (.ofString "/z") (.ofString "/t") (holding smallArchive)
          = (.ok ⟨.ofString "/t", 2, 1, 1, 2⟩, fs')
        ∧ fs'.node? [[0x74], [0x64], [0x66]] = some (.file [0x31, 0x32]))
      ∧ EndAlike [[0x74]] [[0x74]]
        (plainEngine.extract (.ofString "/z") (.ofString "/t") (holding smallArchive))
        (plainEngine.extractAtomic (.ofString "/z") (.ofString "/t") (holding smallArchive))
      ∧ EndAlike [[0x74]] [[0x6d], Bytes.ofString "zipshield-aaaaaa"]
        (plainEngine.extract (.ofString "/z") (.ofString "/t") (holding smallArchive))
        (plainEngine.extractTemporary (.ofString "/z") (holding smallArchive)) := by
  have hroom : ∀ root ∈ [[[0x74]], [Bytes.ofString ".zipshield-staging-aaaaaa"],
      [[0x6d], Bytes.ofString "zipshield-aaaaaa"]],
      HasRoom root (declared plainEngine.limits (.disk [[0x7a]]) (holding smallArchive)) := by
    rw [show plainEngine.limits = {} from rfl, declared_written isLegible_smallTree rfl]
    intro root hr
    simp only [List.mem_cons, List.not_mem_nil, or_false] at hr
    rcases hr with rfl | rfl | rfl <;> exact ⟨by decide +kernel, by decide +kernel⟩
  refine ⟨extract_holding, ?_⟩
  -- nothing but the room for the entries depends on what is in the archive
  generalize smallArchive = content at hroom ⊢
  have hread : Access.readableFile (holding content) (.ofString "/z") = .ok [[0x7a]] := by cbv
  have hstaging : Temporary.stagingIn (Location.path []) stagingPrefix (holding content)
      = (.ok (.ofString "/.zipshield-staging-aaaaaa"),
        (holding content).put [Bytes.ofString ".zipshield-staging-aaaaaa"] .directory) := by cbv
  have htemporary : Temporary.directory plainEngine.settings.temporaryPrefix (holding content)
      = (.ok (.ofString "/m/zipshield-aaaaaa"),
        (holding content).put [[0x6d], Bytes.ofString "zipshield-aaaaaa"] .directory) := by cbv
  exact extractions_agree plainEngine (isOrdinary_holding content) hread (isTarget_holding content)
    hstaging (by cbv) htemporary (by cbv) hroom

/-! ## A link to the parent -/

/-- The link `l` leads to the directory `/d`, and the file `z` is an archive without entries. -/
def linkedParent : FileSystem where
  nodes := [([[0x64]], .directory), ([[0x6c]], .link (.ofString "/d")),
    ([[0x7a]], .file ([0x50, 0x4b, 0x05, 0x06] ++ List.replicate 18 0))]

/-- **Only an atomic extraction refuses a target that is named in a link to a directory.** -/
theorem extractAtomic_refuses_link :
    IsOrdinary linkedParent
      ∧ Access.readableFile linkedParent (.ofString "/z") = .ok [[0x7a]]
      ∧ linkedParent.nodeAt true (parentOf (.ofString "/l/t")) = .ok ([[0x64]], .directory)
      ∧ linkedParent.nodeAt false (.ofString "/l/t") = .error (.system .noEntry)
      ∧ (plainEngine.extract (.ofString "/z") (.ofString "/l/t") linkedParent).1
        = .ok ⟨.ofString "/d/t", 0, 0, 0, 0⟩
      ∧ (plainEngine.extractTemporary (.ofString "/z") linkedParent).1
        = .ok ⟨.ofString "/zipshield-aaaaaa", 0, 0, 0, 0⟩
      ∧ (plainEngine.extractAtomic (.ofString "/z") (.ofString "/l/t") linkedParent).1
        = .error (.violation (.linkPath (.ofString "/l"))) := by
  refine ⟨.of_nodes ⟨isTree_of_flat (by decide), fun _ hn => absurd hn List.not_mem_nil, rfl⟩ ?_,
    ?_, ?_, ?_, ?_, ?_, ?_⟩
  · decide
  all_goals cbv

end GuardedArchive.Extraction
