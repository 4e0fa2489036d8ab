import GuardedArchive.Proofs.Extraction.Bounds
import GuardedArchive.Proofs.Stream

/-!
# Proofs/Extraction/Admission — exactly when one entry is placed

A copy within the bounds succeeds exactly where the reader comes to the end of its content and the
bounds **admit** what it delivers (`copyFrom_ok_iff`), however this is cut into chunks.  An entry is
accepted exactly where what is declared of it is **admissible** and its name is new
(`judge_eq_ok_iff`).  Both together, with the directories and the file that are made for it, say
when an entry is placed (`extractEntry_ok_iff`).
-/

namespace GuardedArchive

/-! ## Readers that come to an end -/

namespace Stream

/-- The reader comes to the end of its content. -/
def endsWell : List Read → Bool
  | [] => true
  | .interrupted :: rest => endsWell rest
  | .failure _ :: _ => false
  | .data chunk :: rest => chunk.isEmpty || endsWell rest

theorem Carries.endsWell {reads : List Read} {content : Bytes} (h : Carries reads content) :
    Stream.endsWell reads := by
  induction h with
  | nil => rfl
  | cons _ _ ih => rw [Stream.endsWell, ih, Bool.or_true]

theorem Carries.delivered_eq {reads : List Read} {content : Bytes} (h : Carries reads content) :
    delivered reads = content := by
  induction h with
  | nil => rfl
  | cons hne _ ih => rw [delivered, if_neg (by simpa using hne), ih]

end Stream

namespace Extraction

open GuardedArchive.Stream (copyFrom copyChunks delivered endsWell)

variable {limits : Limits} {dest : Destination} {entry : EntryDescriptor} {seen : List String}
  {placement : Placement} {s : Extraction} {total octets : Nat}

/-! ## Copying -/

/-- **The bounds admit** so many octets more, on top of those of the entry and those of all. -/
structure Admits (limits : Limits) (total octets more : Nat) : Prop where
  entry : total + more ≤ limits.maxEntrySize
  all : octets + more ≤ limits.maxTotalSize
  count : octets + more ≤ Bytes.maxCount

theorem Admits.mono {more less : Nat} (h : Admits limits total octets more) (hle : less ≤ more) :
    Admits limits total octets less where
  entry := Nat.le_trans (Nat.add_le_add_left hle _) h.entry
  all := Nat.le_trans (Nat.add_le_add_left hle _) h.all
  count := Nat.le_trans (Nat.add_le_add_left hle _) h.count

theorem admits_add {length more : Nat} : Admits limits total octets (length + more)
    ↔ Admits limits (total + length) (octets + length) more := by
  constructor <;> rintro ⟨he, ha, hc⟩ <;> constructor <;> omega

/-- A chunk is taken exactly where the bounds admit it. -/
theorem acceptChunk_of_admits {chunk : Bytes} (name : String) (loc : Location)
    (h : Admits limits total s.tally.octets chunk.length) :
    acceptChunk limits name loc chunk (total + chunk.length) s = (.ok (), { s with
      tally := { s.tally with octets := s.tally.octets + chunk.length }
      files := s.files.append loc chunk }) := by
  rw [acceptChunk_apply, if_neg (Nat.not_lt.mpr h.entry), if_neg (Nat.not_lt.mpr h.count),
    if_neg (Nat.not_lt.mpr h.all)]

theorem admits_of_acceptChunk {chunk : Bytes} {name : String} {loc : Location}
    (h : (acceptChunk limits name loc chunk (total + chunk.length) s).1 = .ok ()) :
    Admits limits total s.tally.octets chunk.length := by
  obtain ⟨he, ha, hc, -⟩ := acceptChunk_eq_ok (Prod.ext h rfl)
  exact ⟨he, ha, hc⟩

/-- **A copy succeeds exactly where the reader comes to its end and the bounds admit all that it
delivers**, whatever the chunks are. -/
theorem copyFrom_ok_iff (limits : Limits) (name : String) (loc : Location) :
    ∀ (reads : List Read) {total : Nat} {s : Extraction}, Admits limits total s.tally.octets 0 →
      total ≤ s.tally.octets →
        ((∃ n, (copyFrom (acceptChunk limits name loc) reads total s).result = .ok n)
          ↔ endsWell reads ∧ Admits limits total s.tally.octets (delivered reads).length)
  | [], _, _, hs, _ => ⟨fun _ => ⟨rfl, hs⟩, fun _ => ⟨_, rfl⟩⟩
  | .interrupted :: reads, _, _, hs, hle => copyFrom_ok_iff limits name loc reads hs hle
  | .failure _ :: _, _, _, _, _ => by simp [copyFrom, endsWell]
  | .data chunk :: reads, total, s, hs, hle => by
    rw [copyFrom, delivered, endsWell]
    by_cases hc : chunk.isEmpty
    · rw [if_pos hc, if_pos hc, hc]
      exact ⟨fun _ => ⟨rfl, hs⟩, fun _ => ⟨_, rfl⟩⟩
    rw [if_neg hc, if_neg hc, List.length_append, admits_add, Bool.or_eq_true,
      or_iff_right hc]
    dsimp only
    by_cases hadmits : Admits limits total s.tally.octets chunk.length
    · have hcount := hadmits.count
      rw [if_neg (by omega), acceptChunk_of_admits name loc hadmits]
      exact copyFrom_ok_iff limits name loc reads
        (admits_add.mp (by rwa [Nat.add_zero])) (Nat.add_le_add_right hle _)
    · constructor
      · rintro ⟨n, hn⟩
        split at hn
        · cases hn
        · rcases ha : acceptChunk limits name loc chunk (total + chunk.length) s with ⟨_ | _, s'⟩
          · rw [ha] at hn
            cases hn
          · exact absurd (admits_of_acceptChunk (by rw [ha])) hadmits
      · rintro ⟨-, h⟩
        exact absurd ((admits_add.mpr h).mono (Nat.le_add_right _ _)) hadmits

/-! ## Judging -/

/-- **What is declared of the entry is in order**, and a file has a location of its own. -/
structure Admissible (limits : Limits) (entry : EntryDescriptor) : Prop where
  name : EntryName.check limits entry.name = .ok (EntryName.normalizeSeparators entry.name)
  size : entry.checkSize limits = .ok ()
  notLink : entry.checkNotLink = .ok ()
  named : entry.location = [] → entry.isDirectory

/-- **An entry is accepted exactly where it is admissible and new**, for the place of its
location. -/
theorem judge_eq_ok_iff : judge limits dest seen entry = .ok placement
    ↔ Admissible limits entry ∧ (entry.location ≠ [] → entry.placedName ∉ seen)
      ∧ placement = placementOf dest entry := by
  constructor
  · intro h
    obtain ⟨hname, hnamed, hnew, hp⟩ := judge_eq_ok h
    obtain ⟨_, -, h⟩ := bind_eq_ok_iff.mp h
    obtain ⟨_, hsize, h⟩ := bind_eq_ok_iff.mp h
    obtain ⟨_, hlink, -⟩ := bind_eq_ok_iff.mp h
    exact ⟨⟨hname, hsize, hlink, hnamed⟩, hnew, hp⟩
  · rintro ⟨h, hnew, hp⟩
    have hempty := EntryName.isEmpty_sanitizedPath (EntryName.normalizeSeparators entry.name)
    rw [hp, judge, placementOf, h.name, h.size, h.notLink]
    dsimp only [bind, Except.bind]
    by_cases hloc : entry.location = []
    · rw [if_pos (hempty.mpr hloc), if_pos hloc, if_pos (h.named hloc)]
      rfl
    · have hdup : EntryName.checkDuplicate seen (EntryName.sanitizedPath
          (EntryName.normalizeSeparators entry.name)) = .ok () :=
        EntryName.checkDuplicate_eq_ok_iff.mpr (hnew hloc)
      rw [if_neg (mt hempty.mp hloc), if_neg hloc, dest.checkContained_resolve]
      dsimp only
      rw [hdup]
      rfl

/-! ## One entry -/

/-- What an entry for a file needs: its directory is made, its file opened, and the bounds admit
all that its reader delivers. -/
def Filed (limits : Limits) (dest : Destination) (entry : EntryDescriptor) (s : Extraction) :
    Prop :=
  ∃ fs loc fs', dest.makeDirectoryWithin (above dest entry) s.files = (.ok (), fs)
    ∧ fs.create (dest.pathOf entry) = .ok (loc, fs')
    ∧ endsWell (s.reader fs') ∧ Admits limits 0 s.tally.octets (delivered (s.reader fs')).length

theorem writeFile_ok_iff {p : Path} (name : String) (hs : Admits limits 0 s.tally.octets 0) :
    (writeFile limits name p s).1 = .ok () ↔ ∃ loc fs, s.files.create p = .ok (loc, fs)
      ∧ endsWell (s.reader fs)
      ∧ Admits limits 0 s.tally.octets (delivered (s.reader fs)).length := by
  rw [writeFile]
  rcases s.files.create p with e | ⟨loc, fs⟩
  · simp
  · have hcopy := copyFrom_ok_iff limits name loc (s.reader fs)
      (s := { s with files := fs }) hs (Nat.zero_le _)
    simp only [Except.ok.injEq, Prod.mk.injEq]
    rw [← copyChunks] at hcopy
    constructor
    · intro h
      refine ⟨loc, fs, ⟨rfl, rfl⟩, hcopy.mp ?_⟩
      rcases hr : (copyChunks (acceptChunk limits name loc) (s.reader fs)
        { s with files := fs }).result with e | n
      · rw [hr] at h
        cases h
      · exact ⟨n, rfl⟩
    · rintro ⟨_, _, ⟨rfl, rfl⟩, h⟩
      obtain ⟨n, hn⟩ := hcopy.mpr h
      rw [hn]
      rfl

/-- The octets of all entries are within their bound behind a file that was written. -/
theorem checkTotal_writeFile {p : Path} {name : String} {s' : Extraction}
    (hs : Admits limits 0 s.tally.octets 0) (hw : writeFile limits name p s = (.ok (), s')) :
    limits.checkTotalSize s'.tally.octets = .ok () := by
  obtain ⟨loc, fs, hc, -, hadmits⟩ := (writeFile_ok_iff name hs).mp (by rw [hw])
  rcases writeFile_cases limits name p s with ⟨e, -, he⟩ | ⟨loc', fs', written, octets, reader,
    hc', -, hstate, hok⟩
  · rw [hw] at he
    cases he
  · obtain ⟨rfl, rfl⟩ := (Prod.mk.inj (Except.ok.inj (hc.symm.trans hc')))
    rw [hw] at hstate hok
    obtain ⟨rfl, rfl⟩ := hok rfl
    obtain rfl : s' = _ := hstate
    exact Limits.checkTotalSize_eq_ok_iff.mpr hadmits.all

/-- What an entry needs to be placed. -/
structure Fit (limits : Limits) (dest : Destination) (entry : EntryDescriptor) (s : Extraction) :
    Prop where
  admissible : Admissible limits entry
  new : entry.location ≠ [] → entry.placedName ∉ s.tally.names
  directory : entry.location ≠ [] → entry.isDirectory →
    (dest.makeDirectoryWithin (dest.pathOf entry) s.files).1 = .ok ()
  file : ¬entry.isDirectory → Filed limits dest entry s

/-- **A file is placed exactly where it is filed.** -/
theorem placeFile_ok_iff (hloc : entry.location ≠ []) (hs : Admits limits 0 s.tally.octets 0) :
    ((makeParent dest (dest.pathOf entry) >>= fun _ =>
        writeFile limits entry.name (dest.pathOf entry) >>= fun _ => checkTotal limits >>= fun _ =>
          .modify fun s => { s with filesExtracted := s.filesExtracted + 1 })
        (s.noted entry)).1 = .ok () ↔ Filed limits dest entry s := by
  have hfiles : (s.noted entry).files = s.files := rfl
  simp only [Effect.bind_apply, makeParent, parent?_pathOf hloc, onFiles_apply, hfiles, Filed]
  rcases dest.makeDirectoryWithin (above dest entry) s.files with ⟨e | _, fs⟩
  · simp
  have hs' : Admits limits 0 ({ s.noted entry with files := fs } : Extraction).tally.octets 0 := by
    simpa [noted] using hs
  have hwrite := writeFile_ok_iff (p := dest.pathOf entry) entry.name hs'
  dsimp only at hwrite ⊢
  rcases hw : writeFile limits entry.name (dest.pathOf entry)
    { s.noted entry with files := fs } with ⟨e | _, s'⟩
  · rw [hw] at hwrite
    constructor
    · intro h
      cases h
    · rintro ⟨_, loc, fs', hm, h⟩
      obtain rfl := (Prod.mk.inj hm).2
      cases hwrite.mpr ⟨loc, fs', by simpa [noted] using h⟩
  · rw [hw] at hwrite
    refine ⟨fun _ => ?_, fun _ => ?_⟩
    · obtain ⟨loc, fs', h⟩ := hwrite.mp rfl
      exact ⟨fs, loc, fs', rfl, by simpa [noted] using h⟩
    · simp only [checkTotal, Effect.look, checkTotal_writeFile hs' hw]
      rfl

/-- **An entry is placed exactly where it is fit to be.** -/
theorem extractEntry_ok_iff (hs : Admits limits 0 s.tally.octets 0) :
    (extractEntry limits dest entry s).1 = .ok () ↔ Fit limits dest entry s := by
  rw [extractEntry_apply]
  rcases hj : judge limits dest s.tally.names entry with e | placement
  · refine ⟨fun h => (by cases h), fun h => ?_⟩
    rw [judge_eq_ok_iff.mpr ⟨h.admissible, h.new, rfl⟩] at hj
    cases hj
  obtain ⟨hadmissible, hnew, hp⟩ := judge_eq_ok_iff.mp hj
  rw [hp, placementOf]
  by_cases hloc : entry.location = []
  · have hd := hadmissible.named hloc
    rw [if_pos hloc]
    exact ⟨fun _ => ⟨hadmissible, hnew, fun hne => absurd hloc hne, fun hf => absurd hd hf⟩,
      fun _ => rfl⟩
  rw [if_neg hloc]
  by_cases hd : entry.isDirectory
  · rw [if_pos hd]
    dsimp only
    rcases hm : dest.makeDirectoryWithin (dest.pathOf entry) s.files with ⟨e | _, fs⟩
    · refine ⟨fun h => (by cases h), fun h => ?_⟩
      have := h.directory hloc hd
      rw [hm] at this
      cases this
    · exact ⟨fun _ => ⟨hadmissible, hnew, fun _ _ => by rw [hm], fun hf => absurd hd hf⟩,
        fun _ => rfl⟩
  · rw [if_neg hd]
    dsimp only
    rw [← noted, placeFile_ok_iff hloc hs]
    exact ⟨fun h => ⟨hadmissible, hnew, fun _ hd' => absurd hd' hd, fun _ => h⟩,
      fun h => h.file hd⟩

/-! ## Turns -/

variable {ι : Type} {openEntry : ι → FileSystem → Except ArchiveError Zip.Entry}
  {describe : ι → EntryDescriptor} {items : List ι} {s' : Extraction}

/-- An entry that is placed was accepted. -/
theorem Handles.accepted (h : Handles limits dest entry s (.ok ()) s') :
    judge limits dest s.tally.names entry = .ok (placementOf dest entry) := by
  generalize hresult : (Except.ok () : Except ArchiveError Unit) = result at h
  cases h with
  | root hj | directory hj | file hj =>
    obtain ⟨-, -, hp⟩ := judge_eq_ok_iff.mp hj
    rw [hj, hp]
  | refused | noDirectory | noParent | notOpened | cutOff => cases hresult

/-- **What is declared of the items that were placed is in order.** -/
theorem Places.admissible (hd : Describes openEntry describe)
    (h : Places limits dest openEntry items s s') :
    ∀ item ∈ items, Admissible limits (describe item) := by
  induction h with
  | nil => exact fun _ hi => absurd hi List.not_mem_nil
  | cons ht _ ih =>
    refine List.forall_mem_cons.mpr ⟨?_, ih⟩
    cases Turn.of_turn ht with
    | handled _ ho hh => exact hd _ _ _ ho ▸ (judge_eq_ok_iff.mp hh.accepted).1

end Extraction

end GuardedArchive
