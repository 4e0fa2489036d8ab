import GuardedArchive.Proofs.Creation.Directory

/-!
# Proofs/Creation/AllOrNothing — an archive is written whole, or nothing is left of it

    fs  --  empty file  -->  fs + archive  --  entries  -->  fs + archive'  --  finish or discard

Every step of the writing changes the archive alone, wherever it fails (`StaysInArchive`), so that
the files are those before with one file more all the time, and discarding that one file restores
them (`withArchive_allOrNothing`).  Nothing is assumed of the files: the archive may even be made
inside of the tree that is written into it.  Nor is anything of the disk, which may lose a source
midway or not let the archive be finished.
-/

namespace GuardedArchive.Creation

open Zip (Encoder Heading Method)

variable {α β : Type} {s s' s'' : Creation} {limits : Limits} {settings : CreationSettings}
  {requested : String}

/-! ## Steps that stay in the archive -/

/-- **Nothing has changed but what is in the archive**, and what is counted and warned of. -/
structure InArchive (s s' : Creation) : Prop where
  archive : s'.archive = s.archive
  archivePath : s'.report.archivePath = s.report.archivePath
  files : s'.files = s.files ∨ ∃ octets, s'.files = s.files.put s.archive (.file octets)

namespace InArchive

theorem refl (s : Creation) : InArchive s s := ⟨rfl, rfl, .inl rfl⟩

theorem trans (h : InArchive s s') (h' : InArchive s' s'') : InArchive s s'' where
  archive := h'.archive.trans h.archive
  archivePath := h'.archivePath.trans h.archivePath
  files := by
    rcases h'.files with he' | ⟨octets, he'⟩
    · rw [he']
      exact h.files
    · rw [he', h.archive]
      rcases h.files with he | ⟨_, he⟩ <;> rw [he]
      · exact .inr ⟨octets, rfl⟩
      · exact .inr ⟨octets, FileSystem.put_put ..⟩

theorem save (s : Creation) (octets : Bytes) : InArchive s (s.save octets) :=
  ⟨rfl, rfl, .inr ⟨octets, rfl⟩⟩

/-- What was put where the archive is has been replaced, if anything. -/
theorem files_put {fs : FileSystem} {octets : Bytes} (h : InArchive s s')
    (hs : s.files = fs.put s.archive (.file octets)) :
    ∃ octets', s'.files = fs.put s.archive (.file octets') := by
  rcases h.files with he | ⟨octets', he⟩
  · exact ⟨octets, he.trans hs⟩
  · rw [hs, FileSystem.put_put] at he
    exact ⟨octets', he⟩

end InArchive

/-- A step changes nothing outside of the archive, whether it fails or not. -/
def StaysInArchive (x : Effect Creation α) : Prop := ∀ s, InArchive s (x s).2

namespace StaysInArchive

theorem pure (a : α) : StaysInArchive (Pure.pure a) := InArchive.refl

theorem fail (e : ArchiveError) : StaysInArchive (Effect.fail e : Effect Creation α) :=
  InArchive.refl

theorem look (f : Creation → Except ArchiveError α) : StaysInArchive (Effect.look f) :=
  InArchive.refl

/-- **A sequence of steps stays in the archive**, also where it breaks off. -/
theorem bind {x : Effect Creation α} {f : α → Effect Creation β} (hx : StaysInArchive x)
    (hf : ∀ a, StaysInArchive (f a)) : StaysInArchive (x >>= f) := fun s => by
  have hfirst := hx s
  rw [Effect.bind_apply]
  rcases hrun : x s with ⟨e | a, s₁⟩ <;> rw [hrun] at hfirst
  · exact hfirst
  · exact hfirst.trans (hf a s₁)

theorem addFile (heading : Heading) (source : Path) :
    StaysInArchive (Creation.addFile heading source) := fun s => by
  rw [Creation.addFile]
  dsimp only
  split
  next => exact .refl s
  next =>
    split
    next => exact .save s _
    next =>
      split
      next => exact .save s _
      next => split <;> exact ⟨rfl, rfl, .inr ⟨_, rfl⟩⟩

theorem addDirectory (name : Bytes) : StaysInArchive (Creation.addDirectory name) := fun _ =>
  ⟨rfl, rfl, .inr ⟨_, rfl⟩⟩

/-- Also where it fails. -/
theorem finish : StaysInArchive Creation.finish := fun s => by
  rw [Creation.finish]
  split
  next => exact .refl s
  next => exact .save s _

theorem skip (path : Path) : StaysInArchive (Creation.skip path) := fun _ => ⟨rfl, rfl, .inl rfl⟩

theorem checkCount (limits : Limits) : StaysInArchive (Creation.checkCount limits) := .look _

theorem checkOpened (path : Path) : StaysInArchive (Creation.checkOpened path) := InArchive.refl

theorem addAncestors (limits : Limits) : ∀ names : List Bytes,
    StaysInArchive (Creation.addAncestors limits names)
  | [] => .pure ()
  | name :: rest => by
    have hrest := addAncestors limits rest
    rw [Creation.addAncestors]
    refine .bind (.look _) fun known => ?_
    split
    · exact .bind (.checkCount limits) fun _ => .bind (.addDirectory name) fun _ => hrest
    · exact hrest

/-- **A whole walk stays in the archive**, wherever it is stopped. -/
theorem addEach (limits : Limits) (method : Method) (root : Location) :
    ∀ found : List (Location × Node), StaysInArchive (Creation.addEach limits method root found)
  | [] => .pure ()
  | (relative, node) :: rest => by
    have hrest := addEach limits method root rest
    cases node with
    | directory =>
      rw [Creation.addEach]
      exact .bind (.checkOpened _) fun _ => hrest
    | file content =>
      rw [Creation.addEach]
      dsimp only
      split
      · exact .bind (.addAncestors limits _) fun _ => .bind (.checkCount limits) fun _ =>
          .bind (.addFile _ _) fun _ => hrest
      · exact .bind (.fail _) fun _ => hrest
    | link target =>
      rw [addEach_other rfl]
      exact .bind (.skip _) fun _ => hrest
    | pipe =>
      rw [addEach_other rfl]
      exact .bind (.skip _) fun _ => hrest

end StaysInArchive

/-! ## All or nothing -/

/-- **One regular file has been made** at a free place, the path leads to it, and nothing else has
changed. -/
def GainsFile (fs : FileSystem) (p : Path) (fs' : FileSystem) : Prop :=
  ∃ loc octets, fs.node? loc = none ∧ fs' = fs.put loc (.file octets)
    ∧ ∀ followLast, fs'.nodeAt followLast p = .ok (loc, .file octets)

/-- **All or nothing**: a failure leaves the files as they were, and a success adds the archive that
it reports. -/
def AllOrNothing (fs : FileSystem) : Except ArchiveError CreationReport × FileSystem → Prop
  | (.error _, fs') => fs' = fs
  | (.ok report, fs') => GainsFile fs report.archivePath fs'

theorem AllOrNothing.eq_of_error {fs : FileSystem} {e : ArchiveError}
    {x : Except ArchiveError CreationReport × FileSystem} (h : AllOrNothing fs x)
    (he : x.1 = .error e) : x = (.error e, fs) := by
  obtain ⟨_, fs'⟩ := x
  obtain rfl := he
  exact Prod.ext rfl h

/-- **What is written by steps that stay in the archive is written whole, or not at all.** -/
theorem withArchive_allOrNothing (disk : Disk) {build : Effect Creation Unit}
    (hbuild : StaysInArchive build) (settings : CreationSettings) (requested : String)
    (fs : FileSystem) : AllOrNothing fs (withArchive disk settings requested build fs) := by
  rcases Temporary.file_cases settings.temporaryPrefix
    ("-" ++ ArchiveName.normalize settings requested) fs with ⟨e, hmade⟩ | ⟨p, loc, hfree, hmade⟩
  · rw [withArchive, Effect.bind_apply, hmade]
    rfl
  · rw [withArchive_eq disk build hfree hmade]
    let begun : Creation := ⟨fs.put loc (.file []), loc, {}, [], { archivePath := p }, disk⟩
    have hin : InArchive begun ((build >>= fun _ => finish) begun).2 :=
      hbuild.bind (fun _ => .finish) begun
    obtain ⟨octets, hfiles⟩ := hin.files_put rfl
    rcases hrun : (build >>= fun _ => finish) begun with ⟨e | _, s⟩ <;> rw [hrun] at hin hfiles
    · show Temporary.discardFile p s.files = fs
      rw [hfiles]
      exact hfree.discardFile octets
    · show GainsFile fs s.report.archivePath s.files
      rw [hin.archivePath, hfiles]
      exact ⟨loc, octets, hfree.node?_eq, rfl, hfree.nodeAt octets⟩

theorem compressFile_allOrNothing (disk : Disk) (deflate : Encoder) (settings : CreationSettings)
    (source : Path) (requested : String) (fs : FileSystem) :
    AllOrNothing fs (compressFile disk deflate settings source requested fs) := by
  rw [compressFile, Effect.bind_apply, Effect.look]
  rcases Access.readableFile fs source with e | loc
  · rfl
  · dsimp only
    rcases loc.getLast? with _ | name
    · rfl
    · exact withArchive_allOrNothing disk (.addFile _ _) settings requested fs

theorem compressDirectory_allOrNothing (disk : Disk) (deflate : Encoder) (limits : Limits)
    (settings : CreationSettings) (source : Path) (requested : String) (fs : FileSystem) :
    AllOrNothing fs (compressDirectory disk deflate limits settings source requested fs) := by
  rcases hroot : Access.readableDirectory fs source with e | root
  · rw [compressDirectory, Effect.bind_apply, Effect.look, hroot]
    rfl
  · rw [compressDirectory_eq hroot]
    have hwalk : StaysInArchive (walkBelow limits (methodOf deflate settings) root) := fun s =>
      StaysInArchive.addEach limits _ root (s.files.depthFirst root) s
    exact withArchive_allOrNothing disk hwalk settings requested fs

/-- **An archive is written whole, or nothing is left of it**, from whatever files, under whatever
name and on whatever disk: also where a source fails in the middle of its content, and where the
archive cannot be finished.  That holds for a file, for a tree, and for whatever else stays in the
archive while it is written, so also where a step fails for reasons of its own. -/
theorem creation_all_or_nothing (disk : Disk) (deflate : Encoder) (limits : Limits)
    (settings : CreationSettings) (source : Path) (requested : String) (fs : FileSystem) :
    AllOrNothing fs (compressFile disk deflate settings source requested fs)
      ∧ AllOrNothing fs (compressDirectory disk deflate limits settings source requested fs)
      ∧ ∀ build, StaysInArchive build →
        AllOrNothing fs (withArchive disk settings requested build fs) :=
  ⟨compressFile_allOrNothing disk deflate settings source requested fs,
    compressDirectory_allOrNothing disk deflate limits settings source requested fs,
    fun _ hbuild => withArchive_allOrNothing disk hbuild settings requested fs⟩

/-- **A source that breaks off ends the writing** with its error. -/
theorem addFile_of_failure {heading : Heading} {source : Path} {found : Location} {content : Bytes}
    {e : ArchiveError} (hapart : found ≠ s.archive)
    (hat : ∀ octets, (s.files.put s.archive (.file octets)).nodeAt false source
      = .ok (found, .file content))
    (hcopy : (Stream.copyChunks (fun chunk _ read => (.ok (), read ++ chunk))
      (s.disk.reads source content) ([] : Bytes)).result = .error e) :
    (Creation.addFile heading source s).1 = .error e := by
  have hat : (s.save (s.writer.begun heading)).files.nodeAt false source
    = .ok (found, .file content) := hat _
  have hsource : (s.save (s.writer.begun heading)).readSource heading.method source content
      = some content := by
    simp only [readSource, hat]
    exact if_neg hapart
  simp only [addFile, FileSystem.read, hat, hsource, hcopy]

/-- A disk that loses every source behind its first octet, and that is full when an archive is to be
finished. -/
def failingDisk : Disk where
  reads _ content := [.data (content.take 1), .failure (.other "lost")]
  finishing _ := some (.other "full")

/-- The file is found, whatever is in the archive. -/
theorem nodeAt_oneFile (octets : Bytes) :
    ((oneFile.put oneArchive (.file [])).put oneArchive (.file octets)).nodeAt false
      (.ofString "/s/a/f") = .ok ([[0x73], [0x61], [0x66]], .file [0x31, 0x32]) := by cbv

theorem compressFile_failingDisk :
    (compressFile failingDisk .plain {} (.ofString "/s/a/f") "z" oneFile).1
      = .error (.io (.other "lost")) := by
  have hread : Access.readableFile oneFile (.ofString "/s/a/f")
      = .ok [[0x73], [0x61], [0x66]] := by cbv
  rw [compressFile, Effect.bind_apply, Effect.look, hread]
  exact withArchive_error _ fresh_oneFile rfl file_oneFile
    (addFile_of_failure (by decide) nodeAt_oneFile rfl)

theorem compressDirectory_failingDisk :
    (compressDirectory failingDisk .plain {} {} (.ofString "/s/e") "z" oneFile).1
      = .error (.io (.other "full")) := by
  have hroot : Access.readableDirectory oneFile (.ofString "/s/e") = .ok [[0x73], [0x65]] := by cbv
  have hempty : (oneFile.put oneArchive (.file [])).depthFirst [[0x73], [0x65]] = [] := by cbv
  rw [compressDirectory_eq hroot, withArchive_eq _ _ (fresh_oneFile.isFree rfl) file_oneFile]
  simp only [Effect.bind_apply, walkBelow, hempty]
  rfl

/-- The tree with one file is archived with its directory, or leaves nothing where one entry is
allowed.  On a disk that fails, nothing is left of a file that breaks off, nor of an archive that
cannot be finished; and so it is for a build that stops after its first directory. -/
theorem oneFile_all_or_nothing :
    (∃ report fs', compressDirectory .faultless .plain {} {} (.ofString "/s") "z" oneFile
          = (.ok report, fs')
        ∧ GainsFile oneFile (.ofString "/m/zipshield-aaaaaa-z.zip") fs')
      ∧ compressDirectory .faultless .plain { maxEntryCount := 1 } {} (.ofString "/s") "z" oneFile
        = (.error (.violation (.entryCount 2 1)), oneFile)
      ∧ compressFile failingDisk .plain {} (.ofString "/s/a/f") "z" oneFile
        = (.error (.io (.other "lost")), oneFile)
      ∧ compressDirectory failingDisk .plain {} {} (.ofString "/s/e") "z" oneFile
        = (.error (.io (.other "full")), oneFile)
      ∧ withArchive .faultless {} "z"
          (addDirectory [0x61] >>= fun _ => .fail (.io (.other "full"))) oneFile
        = (.error (.io (.other "full")), oneFile) := by
  have hall := fun disk limits source =>
    creation_all_or_nothing disk .plain limits {} (.ofString source) "z" oneFile
  have hcounted : ((filesBelow oneFile [[0x73]]).map (·.2.length)).sum ≤ Bytes.maxCount := by
    rw [filesBelow_oneFile]
    decide
  have hlength : (plan (oneFile.depthFirst [[0x73]])).length = 2 := by
    rw [length_plan isListed_oneFile, filesBelow_oneFile, directoriesBelow_oneFile]
    rfl
  refine ⟨?_, (hall .faultless { maxEntryCount := 1 } "/s").2.1.eq_of_error ?_,
    (hall failingDisk {} "/s/a/f").1.eq_of_error compressFile_failingDisk,
    (hall failingDisk {} "/s/e").2.1.eq_of_error compressDirectory_failingDisk,
    ((hall .faultless {} "/s").2.2 _ ?_).eq_of_error ?_⟩
  · have hok : compressDirectory .faultless .plain {} {} (.ofString "/s") "z" oneFile = _ :=
      compressDirectory_ok isSound_oneFile isListed_oneFile readableDirectory_oneFile
        isReadable_oneFile hcounted fresh_oneFile rfl file_oneFile (by decide) .plain
        (by rw [hlength]; decide)
    have hgains := (hall .faultless {} "/s").2.1
    rw [hok] at hgains
    exact ⟨_, _, hok, hgains⟩
  · exact compressDirectory_error isSound_oneFile isListed_oneFile readableDirectory_oneFile
      isReadable_oneFile hcounted fresh_oneFile rfl file_oneFile (by decide) .plain
      (by rw [hlength]; decide)
  · exact .bind (.addDirectory _) fun _ => .fail _
  · rw [withArchive_eq _ _ (fresh_oneFile.isFree rfl) file_oneFile]
    rfl

end GuardedArchive.Creation
