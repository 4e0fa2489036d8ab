import GuardedArchive.Proofs.Extraction.Bounds
import GuardedArchive.Proofs.FileSystem.Direct

/-!
# Proofs/Extraction/Stopping — what an extraction that is stopped leaves

    items = done ++ item :: rest
      done      extracted, as it would be if there were nothing else
      item      stopped: directories above its location at most, and a start of its file
      rest      never looked at

The checks of the octets behind an entry do not fail, so the entries before the one that stops an
extraction are an extraction that succeeds.  `Leaves` says what the stopped one adds to it; the
outcome is the same whatever comes behind (`extraction_stops`).
-/

namespace GuardedArchive

/-! ## Which errors a step can have -/

/-- The error that there are too many entries. -/
def ArchiveError.IsEntryCount (e : ArchiveError) : Prop :=
  ∃ current max, e = .violation (.entryCount current max)

/-- An answer that is not the error that there are too many entries. -/
def NoEntryCount {α : Type} (x : Except ArchiveError α) : Prop :=
  ∀ e, x = .error e → ¬e.IsEntryCount

namespace NoEntryCount

variable {α β : Type}

theorem ok (a : α) : NoEntryCount (.ok a) := fun _ he => by cases he

theorem error {e : ArchiveError} (h : ¬e.IsEntryCount) : NoEntryCount (.error e : Except _ α) := by
  intro e' he
  rwa [← Except.error.inj he]

theorem of_ne {e : ArchiveError}
    (h : ∀ current max, e ≠ .violation (.entryCount current max)) :
    NoEntryCount (.error e : Except _ α) := by
  refine error ?_
  rintro ⟨current, max, he⟩
  exact h current max he

theorem io (e : IoError) : NoEntryCount (.error (.io e) : Except _ α) := of_ne (by simp)

theorem bind {x : Except ArchiveError α} {f : α → Except ArchiveError β} (hx : NoEntryCount x)
    (hf : ∀ a, NoEntryCount (f a)) : NoEntryCount (x >>= f) := by
  rcases x with e | a
  · exact error (hx e rfl)
  · exact hf a

/-- Two steps do not have the error where neither does. -/
theorem effect {σ : Type} {x : Effect σ α} {f : α → Effect σ β} (hx : ∀ s, NoEntryCount (x s).1)
    (hf : ∀ a s, NoEntryCount (f a s).1) (s : σ) : NoEntryCount ((x >>= f) s).1 := by
  rw [Effect.bind_apply]
  rcases hr : x s with ⟨e | a, s'⟩
  · exact error (hx s e (by rw [hr]))
  · exact hf a s'

end NoEntryCount

namespace Extraction

open FileSystem (AddsDirectories)
open GuardedArchive.Stream (copyFrom delivered)
open Zip (Archive Entry Record Source)

variable {ι : Type} {limits : Limits} {dest : Destination}
  {openEntry : ι → FileSystem → Except ArchiveError Entry} {exposed : ι → Exposed}
  {item : ι} {items : List ι} {entries : List Exposed} {s s' : Extraction}
  {before fs fs' : FileSystem} {e : ArchiveError} {report : ExtractionReport}

theorem noEntryCount_judge (limits : Limits) (dest : Destination) (seen : List String)
    (entry : EntryDescriptor) : NoEntryCount (judge limits dest seen entry) := by
  have hcheck : NoEntryCount (EntryName.check limits entry.name) := by
    rw [EntryName.check]
    split_ifs <;> first | exact .ok _ | exact .of_ne (by simp)
  have hratio : ∀ c u, NoEntryCount (limits.checkCompressionRatio entry.name c u) := by
    intro c u
    rw [Limits.checkCompressionRatio]
    dsimp only
    split_ifs <;> first | exact .ok _ | exact .of_ne (by simp)
  have hsize : NoEntryCount (entry.checkSize limits) := by
    rw [EntryDescriptor.checkSize]
    split
    · exact .of_ne (by simp)
    · split_ifs
      · exact .of_ne (by simp)
      · exact hratio _ _
  have hlink : NoEntryCount entry.checkNotLink := by
    rw [EntryDescriptor.checkNotLink]
    split_ifs <;> first | exact .ok _ | exact .of_ne (by simp)
  have hcontained : ∀ p q, NoEntryCount (checkContained p q) := by
    intro p q
    rw [checkContained]
    split_ifs <;> first | exact .ok _ | exact .of_ne (by simp)
  have hduplicate : ∀ name, NoEntryCount (EntryName.checkDuplicate seen name) := by
    intro name
    rw [EntryName.checkDuplicate]
    split_ifs <;> first | exact .ok _ | exact .of_ne (by simp)
  refine hcheck.bind fun normal => hsize.bind fun _ => hlink.bind fun _ => ?_
  dsimp only
  split
  · split
    · exact .ok _
    · exact .of_ne (by simp)
  · exact (hcontained _ _).bind fun path => (hduplicate _).bind fun _ => .ok _

theorem noEntryCount_makeDirectoryWithin (dest : Destination) (p : Path) (fs : FileSystem) :
    NoEntryCount (dest.makeDirectoryWithin p fs).1 := by
  refine NoEntryCount.effect (fun fs => ?_)
    (fun _ => NoEntryCount.effect (fun fs => ?_) fun found fs => ?_) fs
  · rw [Operation.makeTree]
    rcases fs.makeTree p with ⟨e | _, fs'⟩
    · exact .io e
    · exact .ok _
  · show NoEntryCount ((fs.canonicalize p).mapError .io)
    rcases fs.canonicalize p with e | found
    · exact .io e
    · exact .ok _
  · split
    split_ifs
    · exact .ok _
    · exact .of_ne (by simp)

theorem noEntryCount_onFiles {op : Operation Unit} (h : ∀ fs, NoEntryCount (op fs).1)
    (s : Extraction) : NoEntryCount (onFiles op s).1 := by
  rw [onFiles_apply]
  exact h s.files

theorem noEntryCount_place (limits : Limits) (dest : Destination) (entry : EntryDescriptor)
    (s : Extraction) : NoEntryCount (place limits dest entry s).1 := by
  have hmodify : ∀ (f : Extraction → Extraction) s, NoEntryCount (Effect.modify f s).1 :=
    fun _ _ => .ok _
  refine NoEntryCount.effect (fun s => noEntryCount_judge limits dest s.tally.names entry)
    (fun where' => ?_) s
  rcases where' with _ | ⟨name, p⟩ | ⟨name, p⟩
  · exact fun _ => .ok _
  · refine NoEntryCount.effect (hmodify _) fun _ => NoEntryCount.effect
      (noEntryCount_onFiles (noEntryCount_makeDirectoryWithin dest p)) fun _ =>
        NoEntryCount.effect (hmodify _) fun _ _ => .ok _
  · refine NoEntryCount.effect (hmodify _) fun _ => NoEntryCount.effect ?_ fun _ =>
      NoEntryCount.effect ?_ fun _ _ => .ok _
    · rw [makeParent]
      rcases p.parent? with _ | parent
      · exact fun _ => .ok _
      · exact noEntryCount_onFiles (noEntryCount_makeDirectoryWithin dest parent)
    · intro s
      rw [openOutput]
      split
      · exact .io _
      · exact .ok _

theorem noEntryCount_checkTotalSize (limits : Limits) (n : Nat) :
    NoEntryCount (limits.checkTotalSize n) := by
  rw [Limits.checkTotalSize]
  split_ifs <;> first | exact .ok _ | exact .of_ne (by simp)

theorem noEntryCount_copyFrom (limits : Limits) (name : String) (loc : Location) :
    ∀ (reads : List Read) (total : Nat) (s : Extraction),
    NoEntryCount (copyFrom (acceptChunk limits name loc) reads total s).result
  | [], _, _ => .ok _
  | .interrupted :: reads, total, s => noEntryCount_copyFrom limits name loc reads total s
  | .failure e :: _, _, _ => .io e
  | .data chunk :: reads, total, s => by
    rw [copyFrom]
    by_cases hc : chunk.isEmpty
    · rw [if_pos hc]
      exact .ok _
    rw [if_neg hc]
    dsimp only
    split
    · exact .io _
    · rw [acceptChunk_apply]
      by_cases hsize : limits.maxEntrySize < total + chunk.length
      · rw [if_pos hsize]
        exact .of_ne (by simp)
      rw [if_neg hsize]
      by_cases hfits : Bytes.maxCount < s.tally.octets + chunk.length
      · rw [if_pos hfits]
        exact .io _
      rw [if_neg hfits]
      by_cases htotal : limits.maxTotalSize < s.tally.octets + chunk.length
      · rw [if_pos htotal]
        exact .of_ne (by simp)
      rw [if_neg htotal]
      exact noEntryCount_copyFrom limits name loc reads _ _

theorem noEntryCount_fillPlaced (limits : Limits) (name : String) (file : Option Location)
    (s : Extraction) : NoEntryCount (fillPlaced limits name file s).1 := by
  rcases file with _ | loc
  · exact .ok _
  · refine NoEntryCount.effect (fun s => ?_)
      (fun _ => NoEntryCount.effect (fun s => ?_) fun _ _ => .ok _) s
    · have h := noEntryCount_copyFrom limits name loc (s.reader s.files) 0 s
      rw [fill, Stream.copyChunks]
      rcases hr : copyFrom (acceptChunk limits name loc) (s.reader s.files) 0 s with
        ⟨e | n, _, _⟩
      · exact .error (h e (by rw [hr]))
      · exact .ok _
    · exact noEntryCount_checkTotalSize limits s.tally.octets

/-- **Only the count of the entries tells that they are too many.** -/
theorem noEntryCount_turn (hn : limits.checkEntryCount s.counted.tally.entries = .ok ())
    (ho : ∀ fs, NoEntryCount (openEntry item fs)) :
    NoEntryCount (turn limits dest openEntry item s).1 := by
  rw [turn_apply, hn]
  rcases hr : openEntry item s.files with e | entry
  · exact .error (ho s.files e hr)
  · dsimp only
    rw [extractEntry_eq]
    exact NoEntryCount.effect (noEntryCount_place limits dest entry.descriptor)
      (noEntryCount_fillPlaced limits entry.descriptor.name) _

theorem noEntryCount_openEntry (archive : Archive) (r : Record) (fs : FileSystem) :
    NoEntryCount (archive.openEntry r fs) := by
  have hseek : NoEntryCount (archive.source.medium.seek r.headerOffset) := by
    rcases archive.source.medium with _ | _
    · exact .ok _
    · rw [Zip.Medium.seek]
      split_ifs <;> first | exact .ok _ | exact .io _
  have hstart : NoEntryCount (archive.contentStart r fs) := by
    refine hseek.bind fun _ => ?_
    split <;> first | exact .ok _ | exact .of_ne (by simp [Zip.malformed])
  have hreads : ∀ x : Except ArchiveError (FileSystem → List Read), NoEntryCount x →
      NoEntryCount (do
        let reads ← x
        if r.isAesEncrypted then throw (.invalidArchive .wrongPassword)
        return (⟨r.descriptor, reads⟩ : Entry)) := by
    refine fun x hx => hx.bind fun reads => ?_
    split
    · exact .of_ne (by simp)
    · exact .ok _
  rw [Archive.openEntry]
  split
  · exact .of_ne (by simp [Zip.unsupported])
  · refine hstart.bind fun start => ?_
    dsimp only
    split
    · exact hreads _ (.ok _)
    · exact hreads _ (.ok _)
    · exact hreads _ (.of_ne (by simp [Zip.unsupported]))

/-! ## The octets behind an entry -/

theorem countFile_eq_ok (h : countFile limits s = (.ok (), s')) :
    limits.checkTotalSize s'.tally.octets = .ok () := by
  obtain ⟨_, s₁, hc, hm⟩ := Effect.bind_eq_ok_iff.mp h
  obtain rfl := (Prod.mk.inj hc).2
  obtain rfl := (Prod.mk.inj hm).2
  exact (Prod.mk.inj hc).1

/-- **Behind an entry that is placed the octets are within their bound.** -/
theorem turn_checkTotalSize (hs : limits.checkTotalSize s.tally.octets = .ok ())
    (ht : turn limits dest openEntry item s = (.ok (), s')) :
    limits.checkTotalSize s'.tally.octets = .ok () := by
  rw [turn_eq] at ht
  rcases hn : limits.checkEntryCount s.counted.tally.entries with e | _ <;> rw [hn] at ht
  · cases ht
  · obtain ⟨⟨name, file⟩, s₁, hp, hf⟩ := Effect.bind_eq_ok_iff.mp ht
    rcases file with _ | loc
    · have hprep := takeUp_prepares limits dest openEntry item s
      rw [hp] at hprep
      obtain rfl := (Prod.mk.inj hf).2
      rwa [hprep.octets]
    · obtain ⟨_, s₂, -, hcount⟩ := Effect.bind_eq_ok_iff.mp hf
      exact countFile_eq_ok hcount

theorem Places.checkTotalSize (h : Places limits dest openEntry items s s')
    (hs : limits.checkTotalSize s.tally.octets = .ok ()) :
    limits.checkTotalSize s'.tally.octets = .ok () := by
  induction h with
  | nil => exact hs
  | cons ht _ ih => exact ih (turn_checkTotalSize hs ht)

/-- **Items that were placed are an extraction that succeeds.** -/
theorem Places.run_eq (h : Places limits dest openEntry items { files := before } s) :
    run limits dest openEntry items before = (.ok (s.report dest), s.files) := by
  have hend := h.extractEach_eq []
  rw [List.append_nil] at hend
  rw [run_apply, hend, extractEach, checkTotal, Effect.look,
    h.checkTotalSize (Limits.checkTotalSize_eq_ok_iff.mpr (Nat.zero_le _))]
  rfl

/-! ## The count of entries -/

theorem Turn.entries_le (h : Turn limits dest openEntry item s (.ok ()) s') :
    s'.tally.entries ≤ s.tally.entries + 1 := by
  cases h with
  | handled hn ho hh =>
    cases hh with
    | root | directory | file =>
      simp only [noted, inHand, counted, insertName_entries]
      exact Nat.min_le_left _ _

theorem Places.entries_le (h : Places limits dest openEntry items s s') :
    s'.tally.entries ≤ s.tally.entries + items.length := by
  induction h with
  | nil => exact Nat.le_refl _
  | cons ht _ ih =>
    have := (Turn.of_turn ht).entries_le
    rw [List.length_cons]
    omega

/-- **Behind fewer items than the limit allows there is room for one more.** -/
theorem Places.checkEntryCount (h : Places limits dest openEntry items { files := before } s)
    (hlt : items.length < limits.maxEntryCount) :
    limits.checkEntryCount s.counted.tally.entries = .ok () := by
  refine Limits.checkEntryCount_eq_ok_iff.mpr ?_
  calc s.counted.tally.entries ≤ s.tally.entries + 1 := Nat.min_le_left _ _
    _ ≤ 0 + items.length + 1 := Nat.succ_le_succ h.entries_le
    _ ≤ limits.maxEntryCount := by omega

/-- **As many entries as the limit allows are never too many.** -/
theorem extractEach_noEntryCount (hlen : items.length ≤ limits.maxEntryCount)
    (ho : ∀ item fs, NoEntryCount (openEntry item fs)) :
    NoEntryCount (extractEach limits dest openEntry items { files := before }).1 := by
  have hends := extractEach_ends limits dest openEntry items { files := before }
  generalize (extractEach limits dest openEntry items { files := before }).1 = result at hends ⊢
  cases hends with
  | placed => exact noEntryCount_checkTotalSize limits _
  | @stopped done rest item s₁ _ e hitems h ht =>
    rw [hitems, List.length_append, List.length_cons] at hlen
    have hn := h.checkEntryCount (by omega)
    have hturn : NoEntryCount (turn limits dest openEntry item s₁).1 :=
      noEntryCount_turn hn (ho item)
    rwa [ht] at hturn

/-! ## What the stopped entry leaves -/

/-- A node below the root that an entry may leave when it is stopped. -/
inductive LeftAt (entry : Exposed) : Location → Node → Prop
  | above {loc : Location} (hpre : loc <+: entry.1.location) (hne : loc ≠ entry.1.location) :
      LeftAt entry loc .directory
  | file {content : Bytes} (hf : ¬entry.1.isDirectory) (hpre : content <+: entry.2) :
      LeftAt entry entry.1.location (.file content)

/-- **What an entry that was stopped leaves**: in places that were free, below the root, directories
above its location and a file there that holds a start of what was delivered.  Nothing else has
changed. -/
def Leaves (root : Location) (entry : Exposed) (fs fs' : FileSystem) : Prop :=
  ∀ loc, fs'.node? loc = fs.node? loc ∨ fs.node? loc = none ∧ ∃ rel node, rel ≠ []
    ∧ loc = root ++ rel ∧ fs'.node? loc = some node ∧ LeftAt entry rel node

theorem Leaves.refl (root : Location) (entry : Exposed) (fs : FileSystem) :
    Leaves root entry fs fs := fun _ => .inl rfl

variable {loc l : Location} {entry : Exposed}

/-- What is free on a way below the root is below the root. -/
theorem Extracted.below_of_free (h : Extracted before dest entries report fs)
    (hn : fs.node? l = none) (hl : l <+: dest.root ++ loc) :
    ∃ rel, rel ≠ [] ∧ l = dest.root ++ rel ∧ rel <+: loc := by
  rcases prefix_root_append hl with hr | ⟨rel, rfl, hrel⟩
  · rw [h.root l hr] at hn
    cases hn
  · refine ⟨rel, ?_, rfl, hrel⟩
    rintro rfl
    rw [List.append_nil, h.root _ List.prefix_rfl] at hn
    cases hn

/-- **Where a directory below the root cannot be made, at most directories above it are made.** -/
theorem Extracted.makeDirectoryWithin_error (hroot : IsEmptyRoot before dest.root)
    (h : Extracted before dest entries report fs) (hloc : loc.IsProper)
    (hm : dest.makeDirectoryWithin (Location.path (dest.root ++ loc)) fs = (.error e, fs'))
    (l : Location) : fs'.node? l = fs.node? l
      ∨ fs.node? l = none ∧ fs'.node? l = some .directory
        ∧ ∃ rel, rel ≠ [] ∧ l = dest.root ++ rel ∧ rel <+: loc ∧ rel ≠ loc := by
  have hproper := hroot.proper.append hloc
  have hfree := h.linkless loc
  have hfiles := dest.makeDirectoryWithin_files (Location.path (dest.root ++ loc)) fs
  rw [hm] at hfiles
  rcases hr : fs.makeTree (Location.path (dest.root ++ loc)) with ⟨e₁ | _, fs₁⟩ <;>
    rw [hr] at hfiles
  · obtain rfl : fs' = fs₁ := hfiles
    by_cases hne : dest.root ++ loc = []
    · have hsame := FileSystem.makeTree_path_nil fs
      rw [← hne, hr] at hsame
      obtain rfl : fs' = fs := hsame
      exact .inl rfl
    · refine (FileSystem.makeTree_error_linkless hproper hne hfree hr l).imp id ?_
      rintro ⟨⟨hpre, hlast⟩, hn, hd⟩
      obtain ⟨rel, hrel, rfl, habove⟩ := h.below_of_free hn hpre
      exact ⟨hn, hd, rel, hrel, rfl, habove, fun he => hlast (he ▸ rfl)⟩
  · have hok := Destination.makeDirectoryWithin_eq_ok_iff.mpr
      ⟨hr, _, _, FileSystem.canonicalize_of_makeTree hproper hfree hr, List.prefix_append _ _⟩
    rw [hm] at hok
    cases hok

/-- The directories above a file are what its entry may leave. -/
theorem Extracted.leaves_above (hroot : IsEmptyRoot before dest.root)
    (h : Extracted before dest entries report fs) (hne : entry.1.location ≠ [])
    (hm : dest.makeDirectoryWithin (above dest entry.1) fs = (.ok (), fs')) :
    Leaves dest.root entry fs fs' := by
  rw [above, dest.base_eq hroot.proper] at hm
  intro l
  have ha := Destination.makeDirectoryWithin_addsDirectories hm
  refine (ha.node l).imp id ?_
  rintro ⟨hn, hd⟩
  refine ⟨hn, ?_⟩
  have hnode := h.makeDirectoryWithin hroot entry.1.isProper_location.dropLast hm l
  split at hnode
  next hl =>
    obtain ⟨rel, hrel, rfl, hpre⟩ := h.below_of_free hn hl
    obtain ⟨hpre, hlast⟩ := (prefix_dropLast_iff hne).mp hpre
    exact ⟨rel, _, hrel, rfl, hd, .above hpre hlast⟩
  next =>
    rw [hn, hd] at hnode
    cases hnode

/-- A file that was begun is what its entry may leave, with the directories above it. -/
theorem Extracted.leaves_file {at' : Location} {fs'' : FileSystem} {written : Bytes}
    (hroot : IsEmptyRoot before dest.root) (h : Extracted before dest entries report fs)
    (hne : entry.1.location ≠ []) (hf : ¬entry.1.isDirectory)
    (hnew : ∀ e ∈ entries, e.1.location ≠ entry.1.location)
    (hm : dest.makeDirectoryWithin (above dest entry.1) fs = (.ok (), fs'))
    (hc : fs'.create (dest.pathOf entry.1) = .ok (at', fs'')) (hw : written <+: entry.2) :
    Leaves dest.root entry fs (fs'.put at' (.file written)) := by
  obtain ⟨rfl, -⟩ := h.create hroot hm hc
  obtain ⟨-, hat, hg, -⟩ := FileSystem.create_eq_ok hc
  have ha := Destination.makeDirectoryWithin_addsDirectories hm
  intro l
  rw [fs'.node?_put hat]
  split
  next hl =>
    have hfree : fs.node? (dest.root ++ entry.1.location) = none := by
      refine ha.grows.free (hg.eq_none_of_file fun content hfile => ?_)
      obtain ⟨e, he, heq⟩ := h.location_of_file hne (ha.file_iff.mp hfile)
      exact hnew e he heq
    exact .inr ⟨hl ▸ hfree, entry.1.location, _, hne, hl.symm, rfl, .file hf hw⟩
  next => exact h.leaves_above hroot hne hm l

/-- **A turn that stops the extraction leaves no more than that.** -/
theorem Built.leaves (hroot : IsEmptyRoot before dest.root)
    (hx : Exposes dest.root before openEntry exposed) (h : Built before dest entries s)
    (ht : Extraction.turn limits dest openEntry item s = (.error e, s')) :
    Leaves dest.root (exposed item) s.files s'.files := by
  cases Turn.of_turn ht with
  | tooMany | unopened => exact .refl _ _ _
  | @handled opened _ _ _ ho hh =>
    have hout := h.extracted.outside
    rw [(hx item _ _ opened hout hout ho).1] at hh
    cases hh with
    | refused => exact .refl _ _ _
    | noDirectory hj hm =>
      rw [Destination.pathOf, dest.base_eq hroot.proper] at hm
      intro l
      refine (h.extracted.makeDirectoryWithin_error hroot (exposed item).1.isProper_location hm
        l).imp id ?_
      rintro ⟨hn, hd, rel, hrel, rfl, hpre, hlast⟩
      exact ⟨hn, rel, _, hrel, rfl, hd, .above hpre hlast⟩
    | noParent hj hm =>
      obtain ⟨hne, -⟩ := placementOf_eq_file (judge_eq_ok hj).2.2.2.symm
      rw [above, dest.base_eq hroot.proper] at hm
      intro l
      refine (h.extracted.makeDirectoryWithin_error hroot
        (exposed item).1.isProper_location.dropLast hm l).imp id ?_
      rintro ⟨hn, hd, rel, hrel, rfl, hpre, -⟩
      obtain ⟨hpre, hlast⟩ := (prefix_dropLast_iff hne).mp hpre
      exact ⟨hn, rel, _, hrel, rfl, hd, .above hpre hlast⟩
    | notOpened hj hm =>
      obtain ⟨hne, -⟩ := placementOf_eq_file (judge_eq_ok hj).2.2.2.symm
      exact h.extracted.leaves_above hroot hne hm
    | @cutOff _ fs₁ fs₂ at' written _ _ hj hm hc hw =>
      obtain ⟨-, -, hn, hp⟩ := judge_eq_ok hj
      obtain ⟨hne, hf, -, -⟩ := placementOf_eq_file hp.symm
      have hdelivered : delivered ((s.inHand opened).reader fs₂) = (exposed item).2 :=
        (hx item _ _ opened hout (h.extracted.sameOutside_create hroot hm hc) ho).2
      exact h.extracted.leaves_file hroot hne hf (h.location_ne (hn hne) hne) hm hc
        (hdelivered ▸ hw)

/-! ## A whole extraction -/

/-- **An extraction was stopped**: the items before the one that stopped it are an extraction that
succeeds, that one adds what it leaves, and those behind it have no effect. -/
def Stopped (limits : Limits) (dest : Destination)
    (openEntry : ι → FileSystem → Except ArchiveError Entry) (exposed : ι → Exposed)
    (items : List ι) (before : FileSystem) (e : ArchiveError) (fs : FileSystem) : Prop :=
  ∃ done item rest report fs₁, items = done ++ item :: rest
    ∧ run limits dest openEntry done before = (.ok report, fs₁)
    ∧ Extracted before dest (done.map exposed) report fs₁
    ∧ Leaves dest.root (exposed item) fs₁ fs
    ∧ ∀ more, run limits dest openEntry (done ++ item :: more) before = (.error e, fs)

theorem run_stopped (hroot : IsEmptyRoot before dest.root)
    (hx : Exposes dest.root before openEntry exposed)
    (h : run limits dest openEntry items before = (.error e, fs)) :
    Stopped limits dest openEntry exposed items before e fs := by
  have hends := extractEach_ends limits dest openEntry items { files := before }
  rw [run_apply] at h
  rcases hrun : extractEach limits dest openEntry items { files := before } with ⟨result, s'⟩
  rw [hrun] at h hends
  dsimp only at h hends
  cases hends with
  | placed hp =>
    rw [hp.checkTotalSize (Limits.checkTotalSize_eq_ok_iff.mpr (Nat.zero_le _))] at h
    cases h
  | @stopped done rest item s₁ _ e₁ hitems hp ht =>
    obtain ⟨rfl, rfl⟩ : e₁ = e ∧ s'.files = fs := by simpa [Except.map] using h
    have hbuilt := hp.built hroot hx (.start hroot)
    rw [List.nil_append] at hbuilt
    refine ⟨done, item, rest, s₁.report dest, s₁.files, hitems, hp.run_eq, hbuilt.extracted,
      hbuilt.leaves hroot hx ht, fun more => ?_⟩
    rw [run_apply, hp.extractEach_eq, extractEach_cons, ht]
    rfl

/-- **An extraction into an empty directory that fails has extracted the entries before the one that
stopped it**, and of that one left at most directories above its location and a start of its file;
what comes behind has no effect.  This holds for every list of entries and for every archive; an
archive that is not opened has nothing extracted, and one that is has never too many entries. -/
theorem extraction_stops (limits : Limits) (dest : Destination) (before fs : FileSystem)
    (e : ArchiveError) :
    (IsEmptyRoot before dest.root → ∀ entries : List (EntryDescriptor × List Read),
      run limits dest ofReads entries before = (.error e, fs) →
        Stopped limits dest ofReads (fun e => (e.1, delivered e.2)) entries before e fs)
      ∧ ∀ source, ofSource limits dest source before = (.error e, fs) →
        Archive.load limits source before = .error e ∧ fs = before
          ∨ ∃ archive, Archive.load limits source before = .ok archive ∧ ¬e.IsEntryCount
            ∧ (IsEmptyRoot before dest.root →
              Stopped limits dest archive.openEntry (exposedBy archive before) archive.records
                before e fs) := by
  constructor
  · intro hroot entries h
    refine run_stopped hroot (fun e _ _ opened _ _ ho => ?_) h
    obtain rfl := Except.ok.inj ho
    exact ⟨rfl, rfl⟩
  · intro source h
    rw [ofSource_apply] at h
    rcases hl : Archive.load limits source before with e₁ | archive <;> rw [hl] at h <;>
      dsimp only at h
    · obtain ⟨rfl, rfl⟩ : e₁ = e ∧ before = fs := by simpa using h
      exact .inl ⟨rfl, rfl⟩
    · refine .inr ⟨archive, rfl, ?_, fun hroot => run_stopped hroot (exposes_openEntry hroot hl) h⟩
      have hcount : NoEntryCount (extractEach limits dest archive.openEntry archive.records
          { files := before }).1 := extractEach_noEntryCount
        (Archive.length_records_le_maxEntryCount hl) (noEntryCount_openEntry archive)
      rw [run_apply] at h
      rcases hrun : extractEach limits dest archive.openEntry archive.records { files := before }
        with ⟨_ | _, s'⟩ <;> rw [hrun] at h hcount
      · obtain ⟨he, -⟩ := Prod.mk.inj h
        exact hcount e (congrArg Except.error (Except.error.inj he))
      · cases (Prod.mk.inj h).1

/-- The file `c/d`, whose content fails behind its first octet. -/
def broken : EntryDescriptor × List Read :=
  ({ name := "c/d", declaredSize := some 2, compressedSize := 2 },
    [.data [0x32], .failure .checksumMismatch])

/-- The extraction behind `a/b`. -/
def afterNested : Extraction where
  files := { nodes := [([[0x74]], .directory), ([[0x74], [0x61]], .directory),
    ([[0x74], [0x61], [0x62]], .file [0x31])] }
  tally := { entries := 1, octets := 1, names := ["a/b"] }
  filesExtracted := 1

theorem turn_nested : turn {} ⟨[[0x74]]⟩ ofReads nested { files := emptyTarget }
    = (.ok (), afterNested) := by
  have hj : judge {} ⟨[[0x74]]⟩ [] nested.1 = .ok (.file "a/b" (.ofString "/t/a/b")) :=
    eq_ok_of_toOption (by decide +kernel)
  rw [turn_apply]
  simp only [ofReads, extractEntry_apply, inHand, counted, Tally.recordEntry, hj]
  cbv

/-- Behind `a/b` the octet of `c/d` is written before its content fails. -/
theorem turn_broken : ∃ s, turn {} ⟨[[0x74]]⟩ ofReads broken afterNested
      = (.error (.io .checksumMismatch), s)
    ∧ s.files.node? [[0x74], [0x63], [0x64]] = some (.file [0x32]) := by
  have hj : judge {} ⟨[[0x74]]⟩ ["a/b"] broken.1 = .ok (.file "c/d" (.ofString "/t/c/d")) :=
    eq_ok_of_toOption (by decide +kernel)
  refine ⟨(turn {} ⟨[[0x74]]⟩ ofReads broken afterNested).2, ?_, ?_⟩
  all_goals
    rw [turn_apply]
    simp only [ofReads, extractEntry_apply, inHand, counted, afterNested, Tally.recordEntry, hj]
    cbv

/-- Extracting `a/b`, `c/d` and `a/b` again stops at `c/d`, of which an octet stays. -/
theorem stopped_broken : IsEmptyRoot emptyTarget [[0x74]]
    ∧ ∃ fs, run {} ⟨[[0x74]]⟩ ofReads [nested, broken, nested] emptyTarget
        = (.error (.io .checksumMismatch), fs)
      ∧ fs.node? [[0x74], [0x63], [0x64]] = some (.file [0x32])
      ∧ Stopped {} ⟨[[0x74]]⟩ ofReads (fun e => (e.1, delivered e.2)) [nested, broken, nested]
        emptyTarget (.io .checksumMismatch) fs := by
  obtain ⟨s, ht, hfile⟩ := turn_broken
  have hrun : run {} ⟨[[0x74]]⟩ ofReads [nested, broken, nested] emptyTarget
      = (.error (.io .checksumMismatch), s.files) := by
    rw [run_apply, extractEach_cons, turn_nested]
    dsimp only
    rw [extractEach_cons, ht]
    rfl
  exact ⟨isEmptyRoot_emptyTarget, s.files, hrun, hfile,
    (extraction_stops {} ⟨[[0x74]]⟩ emptyTarget s.files _).1 isEmptyRoot_emptyTarget _ hrun⟩

end Extraction

end GuardedArchive
