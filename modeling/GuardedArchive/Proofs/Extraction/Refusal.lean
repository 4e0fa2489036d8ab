import GuardedArchive.Proofs.Extraction.Admission
import GuardedArchive.Proofs.Stream.Copying

/-!
# Proofs/Extraction/Refusal — what is declared refuses an entry before anything is done for it

    name ─▸ size ─▸ link ─▸ unnamed ─▸ repeated │ note ─▸ directories ─▸ content ─▸ count
                    nothing has changed         │ the name is noted

An entry is judged as a whole before the first change, so that one that is **refused** (`Refused`)
leaves everything as it was, its reader too.  Behind the line the name is noted first and the entry
is counted last.  So an entry that is **placed** (`Placed`) has its name noted, is counted once, and
has as many octets counted as were read for it; one that fails behind the line is not counted
(`extractEntry_refused_or_placed`).
-/

namespace GuardedArchive

/-! ## What a copy has read -/

/-- **A copy that succeeds has read a start of what there is**, and that is all that the reader
delivers. -/
theorem Stream.copyFrom_eq_ok {σ : Type}
    {accept : Bytes → Nat → σ → Except ArchiveError Unit × σ} {reads : List Read} {total n : Nat}
    {s : σ} (h : (copyFrom accept reads total s).result = .ok n) :
    ∃ consumed, reads = consumed ++ (copyFrom accept reads total s).unread
      ∧ delivered reads = (chunksOf consumed).flatten := by
  induction reads generalizing total s with
  | nil => exact ⟨[], rfl, rfl⟩
  | cons read reads ih =>
    cases read with
    | interrupted =>
      obtain ⟨consumed, hreads, hdelivered⟩ := ih h
      exact ⟨.interrupted :: consumed, congrArg _ hreads, hdelivered⟩
    | failure e => cases h
    | data chunk =>
      by_cases hne : chunk = []
      · subst hne
        exact ⟨[.data []], rfl, rfl⟩
      have hempty : ¬chunk.isEmpty := by simpa using hne
      rw [copyFrom, if_neg hempty] at h
      rw [copyFrom, if_neg hempty, delivered, if_neg hempty]
      dsimp only at h ⊢
      split at h
      · cases h
      next hcount =>
        rw [if_neg hcount]
        split at h
        next s' ha =>
          obtain ⟨consumed, hreads, hdelivered⟩ := ih h
          refine ⟨.data chunk :: consumed, congrArg _ hreads, ?_⟩
          rw [hdelivered, chunksOf_data hne, List.flatten_cons]
        next => cases h

namespace Extraction

open GuardedArchive.Stream (chunksOf copyFrom copyChunks delivered)

variable {limits : Limits} {dest : Destination} {seen : List String} {entry : EntryDescriptor}
  {s s' : Extraction} {e : ArchiveError} {name : String} {p : Path}

/-! ## Refusals -/

/-- **Nothing that is declared of an entry breaks a bound**, as far as that can be told without its
place. -/
structure Declared (limits : Limits) (entry : EntryDescriptor) : Prop where
  name : ∃ normal, EntryName.check limits entry.name = .ok normal
  size : entry.checkSize limits = .ok ()
  notLink : entry.checkNotLink = .ok ()

/-- **Why an entry is refused**, the first reason that there is: its name, the sizes that it
declares, its mode, no name to place a file under, or a name that was noted before. -/
inductive Refused (limits : Limits) (seen : List String) (entry : EntryDescriptor) :
    ArchiveError → Prop
  | name {e : ArchiveError} (h : EntryName.check limits entry.name = .error e) :
    Refused limits seen entry e
  | size {e : ArchiveError} {normal : String}
    (hname : EntryName.check limits entry.name = .ok normal)
    (h : entry.checkSize limits = .error e) : Refused limits seen entry e
  | link {e : ArchiveError} {normal : String}
    (hname : EntryName.check limits entry.name = .ok normal)
    (hsize : entry.checkSize limits = .ok ()) (h : entry.checkNotLink = .error e) :
    Refused limits seen entry e
  | unnamed (hdeclared : Declared limits entry) (h : entry.placedName = "")
    (hfile : entry.isDirectory = false) : Refused limits seen entry (.violation .emptyName)
  | repeated (hdeclared : Declared limits entry) (hne : entry.placedName ≠ "")
    (h : entry.placedName ∈ seen) :
    Refused limits seen entry (.violation (.duplicateEntry entry.placedName))

theorem placedName_eq_empty_iff : entry.placedName = "" ↔ entry.location = [] := by
  rw [← String.isEmpty_iff]
  exact EntryName.isEmpty_sanitizedPath _

/-- **What is left to judge** of an entry that is declared in order is its name and its kind. -/
theorem Declared.judge_eq (h : Declared limits entry) : judge limits dest seen entry
    = if entry.placedName = "" then
        if entry.isDirectory then .ok .root else .error (.violation .emptyName)
      else if entry.placedName ∈ seen then
        .error (.violation (.duplicateEntry entry.placedName))
      else .ok (placementOf dest entry) := by
  obtain ⟨normal, hname⟩ := h.name
  obtain rfl := EntryName.check_eq_ok hname
  have hnoted : EntryName.sanitizedPath (EntryName.normalizeSeparators entry.name)
      = entry.placedName := rfl
  have hcontained : checkContained (dest.resolve entry.placedName) dest.path
      = .ok (dest.pathOf entry) := dest.checkContained_resolve _
  rw [judge, hname, h.size, h.notLink]
  dsimp only [bind, Except.bind]
  rw [hnoted]
  by_cases hplaced : entry.placedName = ""
  · rw [if_pos (String.isEmpty_iff.mpr hplaced), if_pos hplaced]
    rfl
  · have hloc : entry.location ≠ [] := mt placedName_eq_empty_iff.mpr hplaced
    rw [if_neg (mt String.isEmpty_iff.mp hplaced), if_neg hplaced, hcontained, placementOf,
      if_neg hloc, EntryName.checkDuplicate]
    dsimp only
    by_cases hseen : entry.placedName ∈ seen
    · rw [if_pos hseen, if_pos (List.contains_iff_mem.mpr hseen)]
    · rw [if_neg hseen, if_neg (mt List.contains_iff_mem.mp hseen)]
      rfl

/-- **An entry is judged in error exactly where there is a reason to refuse it.**  The containment
check is none: the path of a sanitized name is contained. -/
theorem judge_eq_error_iff : judge limits dest seen entry = .error e
    ↔ Refused limits seen entry e := by
  constructor
  · intro h
    have hjudge := h
    rw [judge] at h
    rcases bind_eq_error_iff.mp h with hname | ⟨normal, hname, h⟩
    · exact .name hname
    rcases bind_eq_error_iff.mp h with hsize | ⟨_, hsize, h⟩
    · exact .size hname hsize
    rcases bind_eq_error_iff.mp h with hlink | ⟨_, hlink, -⟩
    · exact .link hname hsize hlink
    have hdeclared : Declared limits entry := ⟨⟨normal, hname⟩, hsize, hlink⟩
    rw [hdeclared.judge_eq] at hjudge
    split_ifs at hjudge with hplaced hd hseen
    · obtain rfl := Except.error.inj hjudge
      exact .unnamed hdeclared hplaced (eq_false_of_ne_true hd)
    · obtain rfl := Except.error.inj hjudge
      exact .repeated hdeclared hplaced hseen
  · intro h
    cases h with
    | name h => rw [judge, h]; rfl
    | size hname h => rw [judge, hname, h]; rfl
    | link hname hsize h => rw [judge, hname, hsize, h]; rfl
    | unnamed hdeclared h hfile =>
      rw [hdeclared.judge_eq, if_pos h, if_neg (ne_true_of_eq_false hfile)]
    | repeated hdeclared hne h => rw [hdeclared.judge_eq, if_neg hne, if_pos h]

/-- Where there is no reason to refuse an entry, what is declared of it is in order. -/
theorem Declared.of_not_refused (h : ∀ e, ¬Refused limits seen entry e) :
    Declared limits entry := by
  rcases hname : EntryName.check limits entry.name with e | normal
  · exact absurd (.name hname) (h e)
  rcases hsize : entry.checkSize limits with e | _
  · exact absurd (.size hname hsize) (h e)
  rcases hlink : entry.checkNotLink with e | _
  · exact absurd (.link hname hsize hlink) (h e)
  exact ⟨⟨normal, hname⟩, hsize, hlink⟩

theorem checkNotLink_eq_ok_iff : entry.checkNotLink = .ok () ↔ entry.isLink = false := by
  rw [EntryDescriptor.checkNotLink]
  split <;> simp_all

/-- **There is a reason to refuse an entry where any of the five checks fails by itself.** -/
theorem exists_refused_iff : (∃ e, Refused limits seen entry e)
    ↔ (∃ e, EntryName.check limits entry.name = .error e)
      ∨ (∃ e, entry.checkSize limits = .error e) ∨ entry.isLink = true
      ∨ (entry.placedName = "" ∧ entry.isDirectory = false)
      ∨ entry.placedName ≠ "" ∧ entry.placedName ∈ seen := by
  constructor
  · rintro ⟨e, h⟩
    cases h with
    | name h => exact .inl ⟨e, h⟩
    | size _ h => exact .inr (.inl ⟨e, h⟩)
    | link _ _ h =>
      refine .inr (.inr (.inl (Bool.eq_true_of_not_eq_false fun hlink => ?_)))
      rw [checkNotLink_eq_ok_iff.mpr hlink] at h
      cases h
    | unnamed _ h hfile => exact .inr (.inr (.inr (.inl ⟨h, hfile⟩)))
    | repeated _ hne h => exact .inr (.inr (.inr (.inr ⟨hne, h⟩)))
  · intro h
    by_contra hnone
    have hdeclared := Declared.of_not_refused (not_exists.mp hnone)
    obtain ⟨normal, hname⟩ := hdeclared.name
    rcases h with ⟨e, h⟩ | ⟨e, h⟩ | h | ⟨h, hfile⟩ | ⟨hne, h⟩
    · exact hnone ⟨e, .name h⟩
    · exact hnone ⟨e, .size hname h⟩
    · exact Bool.false_ne_true ((checkNotLink_eq_ok_iff.mp hdeclared.notLink).symm.trans h)
    · exact hnone ⟨_, .unnamed hdeclared h hfile⟩
    · exact hnone ⟨_, .repeated hdeclared hne h⟩

/-! ## Placements -/

/-- **What an entry has changed that was placed**, and that nothing else has changed.  What names
the destination itself changes nothing.  `opened` is the tree in which the file is open, and
`consumed` are the reads that were made. -/
inductive Placed (dest : Destination) (entry : EntryDescriptor) (s : Extraction) : Extraction → Prop
  | root (hname : entry.placedName = "") (hd : entry.isDirectory = true) : Placed dest entry s s
  | directory {fs : FileSystem} (hname : entry.placedName ≠ "") (hd : entry.isDirectory = true)
    (hnew : entry.placedName ∉ s.tally.names)
    (hm : dest.makeDirectoryWithin (dest.pathOf entry) s.files = (.ok (), fs)) :
    Placed dest entry s
      { s with
        files := fs
        tally := { s.tally with names := entry.placedName :: s.tally.names }
        directoriesCreated := s.directoriesCreated + 1 }
  | file {fs opened : FileSystem} {loc : Location} {consumed unread : List Read}
    (hname : entry.placedName ≠ "") (hd : entry.isDirectory = false)
    (hnew : entry.placedName ∉ s.tally.names)
    (hm : dest.makeDirectoryWithin (above dest entry) s.files = (.ok (), fs))
    (hc : fs.create (dest.pathOf entry) = .ok (loc, opened))
    (hreads : s.reader opened = consumed ++ unread) :
    Placed dest entry s
      { s with
        files := fs.put loc (.file (chunksOf consumed).flatten)
        tally := { s.tally with
          octets := s.tally.octets + (chunksOf consumed).flatten.length
          names := entry.placedName :: s.tally.names }
        filesExtracted := s.filesExtracted + 1
        reader := fun _ => unread }

theorem insertName_new {t : Tally} (h : name ∉ t.names) :
    t.insertName name = { t with names := name :: t.names } :=
  if_neg (mt List.contains_iff_mem.mp h)

/-- **A file that is written has the octets that were read**, and they are counted. -/
theorem writeFile_eq_ok (h : writeFile limits name p s = (.ok (), s')) :
    ∃ loc opened consumed unread, s.files.create p = .ok (loc, opened)
      ∧ s.reader opened = consumed ++ unread
      ∧ s' = { s with
        files := s.files.put loc (.file (chunksOf consumed).flatten)
        tally := { s.tally with octets := s.tally.octets + (chunksOf consumed).flatten.length }
        reader := fun _ => unread } := by
  rcases writeFile_cases limits name p s with ⟨e, -, hw⟩ | ⟨loc, opened, written, octets, reader,
    hc, -, hstate, hok⟩
  · rw [hw] at h
    cases h
  rw [h] at hstate hok
  obtain ⟨hwritten, hoctets⟩ := hok rfl
  rw [writeFile, hc] at h
  obtain ⟨hresult, hleft⟩ := Prod.mk.inj h
  rcases hr : (copyChunks (acceptChunk limits name loc) (s.reader opened)
    { s with files := opened }).result with e | n
  · rw [hr] at hresult
    cases hresult
  obtain ⟨consumed, hreads, hdelivered⟩ := Stream.copyFrom_eq_ok hr
  refine ⟨loc, opened, consumed, _, hc, hreads, ?_⟩
  have hreader : reader = fun _ => _ := ((congrArg Extraction.reader hleft).trans
    (congrArg Extraction.reader hstate)).symm
  refine hstate.trans ?_
  rw [hreader, hoctets, hwritten, hdelivered]
  rfl

/-- **A file is placed** by what its directory, its content and the bound on all octets leave. -/
theorem placed_of_file (hname : entry.placedName ≠ "") (hd : entry.isDirectory = false)
    (hnew : entry.placedName ∉ s.tally.names)
    (h : (makeParent dest (dest.pathOf entry) >>= fun _ =>
      writeFile limits entry.name (dest.pathOf entry) >>= fun _ => checkTotal limits >>= fun _ =>
        .modify fun s => { s with filesExtracted := s.filesExtracted + 1 })
        { s with tally := s.tally.insertName entry.placedName } = (.ok (), s')) :
    Placed dest entry s s' := by
  have hloc : entry.location ≠ [] := fun he => hname (placedName_eq_empty_iff.mpr he)
  rw [insertName_new hnew] at h
  obtain ⟨_, s₁, hparent, h⟩ := Effect.bind_eq_ok_iff.mp h
  obtain ⟨_, s₂, hwrite, h⟩ := Effect.bind_eq_ok_iff.mp h
  obtain ⟨_, s₃, htotal, hcount⟩ := Effect.bind_eq_ok_iff.mp h
  rw [makeParent, parent?_pathOf hloc] at hparent
  dsimp only at hparent
  rw [onFiles_apply] at hparent
  obtain ⟨hm, rfl⟩ := Prod.mk.inj hparent
  obtain ⟨loc, opened, consumed, unread, hc, hreads, rfl⟩ := writeFile_eq_ok hwrite
  obtain ⟨-, rfl⟩ := Prod.mk.inj htotal
  obtain ⟨-, rfl⟩ := Prod.mk.inj hcount
  exact .file hname hd hnew (Prod.ext hm rfl) hc hreads

/-- **An entry that succeeds is placed.** -/
theorem placed_of_extractEntry (h : extractEntry limits dest entry s = (.ok (), s')) :
    Placed dest entry s s' := by
  have hh := extractEntry_handles limits dest entry s
  have hends := extractEntry_apply limits dest entry s
  rw [h] at hh hends
  dsimp only at hh
  cases hh with
  | root hj =>
    obtain ⟨-, hroot, -, hp⟩ := judge_eq_ok hj
    have hloc := placementOf_eq_root hp.symm
    exact .root (placedName_eq_empty_iff.mpr hloc) (hroot hloc)
  | directory hj hm =>
    obtain ⟨-, -, hnew, hp⟩ := judge_eq_ok hj
    obtain ⟨hloc, hd, -⟩ := placementOf_eq_directory hp.symm
    rw [noted, insertName_new (hnew hloc)]
    exact .directory (mt placedName_eq_empty_iff.mp hloc) hd (hnew hloc) hm
  | file hj hm hc =>
    obtain ⟨-, -, hnew, hp⟩ := judge_eq_ok hj
    obtain ⟨hloc, hd, -⟩ := placementOf_eq_file hp.symm
    rw [hj] at hends
    exact placed_of_file (mt placedName_eq_empty_iff.mp hloc) (eq_false_of_ne_true hd) (hnew hloc)
      hends.symm

/-! ## Failures -/

/-- **An entry fails untouched or noted.**  Either there is a reason to refuse it and nothing has
changed, or its name is noted and it is not counted. -/
theorem refused_or_noted (h : extractEntry limits dest entry s = (.error e, s')) :
    Refused limits s.tally.names entry e ∧ s' = s
      ∨ entry.placedName ∉ s.tally.names
        ∧ s'.tally.names = entry.placedName :: s.tally.names
        ∧ s'.filesExtracted = s.filesExtracted
        ∧ s'.directoriesCreated = s.directoriesCreated := by
  have hnew : ∀ {placement}, judge limits dest s.tally.names entry = .ok placement →
      placement ≠ .root → entry.placedName ∉ s.tally.names := fun hj hplace => by
    obtain ⟨-, -, hnew, hp⟩ := judge_eq_ok hj
    refine hnew fun hloc => hplace (hp.trans ?_)
    rw [placementOf, if_pos hloc]
  have hnames : entry.placedName ∉ s.tally.names →
      (s.noted entry).tally.names = entry.placedName :: s.tally.names := fun hnew => by
    rw [noted, insertName_new hnew]
  have hh := extractEntry_handles limits dest entry s
  rw [h] at hh
  dsimp only at hh
  cases hh with
  | refused hj => exact .inl ⟨judge_eq_error_iff.mp hj, rfl⟩
  | noDirectory hj | noParent hj | notOpened hj | cutOff hj =>
    have hn := hnew hj (by simp)
    exact .inr ⟨hn, hnames hn, rfl, rfl⟩

/-- **An entry is refused untouched or handled to its end.**  Each reason that its declaration gives
to refuse it leaves everything as it was: the files, the counts, the names and the reader.  There is
a reason exactly where one of the five checks fails by itself.  An entry that succeeds has changed
what `Placed` lists, and one that fails for another reason has its name noted and is not counted. -/
theorem extractEntry_refused_or_placed (limits : Limits) (dest : Destination)
    (entry : EntryDescriptor) (s : Extraction) :
    (∀ e, Refused limits s.tally.names entry e →
      extractEntry limits dest entry s = (.error e, s))
    ∧ ((∃ e, Refused limits s.tally.names entry e)
      ↔ (∃ e, EntryName.check limits entry.name = .error e)
        ∨ (∃ e, entry.checkSize limits = .error e) ∨ entry.isLink = true
        ∨ (entry.placedName = "" ∧ entry.isDirectory = false)
        ∨ entry.placedName ≠ "" ∧ entry.placedName ∈ s.tally.names)
    ∧ (∀ s', extractEntry limits dest entry s = (.ok (), s') → Placed dest entry s s')
    ∧ ∀ e s', extractEntry limits dest entry s = (.error e, s') →
      Refused limits s.tally.names entry e ∧ s' = s
        ∨ entry.placedName ∉ s.tally.names
          ∧ s'.tally.names = entry.placedName :: s.tally.names
          ∧ s'.filesExtracted = s.filesExtracted
          ∧ s'.directoriesCreated = s.directoriesCreated := by
  refine ⟨fun e h => ?_, exists_refused_iff, fun s' => placed_of_extractEntry,
    fun e s' => refused_or_noted⟩
  rw [extractEntry_apply, judge_eq_error_iff.mpr h]

/-- An entry that is placed and then met again. -/
theorem extractEntry_refused_or_placed_again : ∃ s',
    extractEntry {} ⟨[[0x74]]⟩ understated.1
      { files := emptyTarget, reader := fun _ => understated.2 } = (.ok (), s')
    ∧ s'.filesExtracted = 1 ∧ s'.tally.octets = 3
    ∧ extractEntry {} ⟨[[0x74]]⟩ understated.1 s'
      = (.error (.violation (.duplicateEntry "a")), s') := by
  have hj : judge {} ⟨[[0x74]]⟩ [] understated.1 = .ok (.file "a" (.ofString "/t/a")) :=
    eq_ok_of_toOption (by decide +kernel)
  have hplaced : extractEntry {} ⟨[[0x74]]⟩ understated.1
      { files := emptyTarget, reader := fun _ => understated.2 }
      = (.ok (), {
        files := emptyTarget.put [[0x74], [0x61]] (.file [0x31, 0x32, 0x33])
        tally := { octets := 3, names := ["a"] }
        filesExtracted := 1 }) := by
    rw [extractEntry_apply, hj]
    cbv
  have hname : understated.1.placedName = "a" := by decide +kernel
  have hdeclared : Declared {} understated.1 :=
    ⟨⟨"a", eq_ok_of_toOption (by decide +kernel)⟩, eq_ok_of_toOption (by decide +kernel),
      eq_ok_of_toOption (by decide +kernel)⟩
  refine ⟨_, hplaced, rfl, rfl, ?_⟩
  refine (extractEntry_refused_or_placed {} ⟨[[0x74]]⟩ understated.1 _).1 _ ?_
  rw [← hname]
  exact .repeated hdeclared (by rw [hname]; decide) (by rw [hname]; exact List.mem_cons_self)

end Extraction

end GuardedArchive
