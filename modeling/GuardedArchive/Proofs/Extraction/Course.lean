import Mathlib
import GuardedArchive.Proofs.Extraction.Running

/-!
# Proofs/Extraction/Course — an extraction read by read

    between ──▸ between                                      an entry without content is placed
    between ──▸ writing ──▸ … ──▸ written ──▸ between        a file is written, read by read
    … ──▸ ended                                              the extraction is through, or stopped

A `Moment` of an extraction is its state together with what the file system alone does not tell: the
files that were opened for writing, with the octets that went into each, and how many entries were
opened.  `Step` takes it from one moment to the next, one read at a time, and an extraction is the
way that the steps take from its start (`extractEach_steps`).  So what every step keeps holds all
along, also in the middle of a file.
-/

namespace GuardedArchive.Extraction

open GuardedArchive.Stream (copyFrom copyChunks Copied)
open Zip (Entry)

variable {ι : Type} {limits : Limits} {dest : Destination}
  {openEntry : ι → FileSystem → Except ArchiveError Entry} {item : ι} {items rest : List ι}
  {s s' : Extraction} {name : String} {loc : Location} {reads : List Read} {total opened : Nat}

/-! ## An entry up to its first read, and from there on -/

/-- Opens the file of an entry. -/
def openOutput (p : Path) : Effect Extraction Location := fun s =>
  match s.files.create p with
  | .error e => (.error (.io e), s)
  | .ok (loc, fs) => (.ok loc, { s with files := fs })

/-- Writes what the reader delivers to the file at `loc`. -/
def fill (limits : Limits) (name : String) (loc : Location) : Effect Extraction Unit := fun s =>
  let copied := copyChunks (acceptChunk limits name loc) (s.reader s.files) s
  (copied.result.map fun _ => (), { copied.state with reader := fun _ => copied.unread })

theorem writeFile_apply (limits : Limits) (name : String) (p : Path) (s : Extraction) :
    writeFile limits name p s = (openOutput p >>= fill limits name) s := by
  rw [writeFile, Effect.bind_apply, openOutput]
  rcases s.files.create p with e | ⟨loc, fs⟩ <;> rfl

/-- What is done for an entry before its content is read: it answers the file that was opened, if
the entry has one. -/
def place (limits : Limits) (dest : Destination) (entry : EntryDescriptor) :
    Effect Extraction (Option Location) := do
  match ← Effect.look fun s => judge limits dest s.tally.names entry with
  | .root => return none
  | .directory name p =>
    noteName name
    onFiles (dest.makeDirectoryWithin p)
    .modify fun s => { s with directoriesCreated := s.directoriesCreated + 1 }
    return none
  | .file name p =>
    noteName name
    makeParent dest p
    return some (← openOutput p)

/-- What is done behind the content of a file. -/
def countFile (limits : Limits) : Effect Extraction Unit := do
  checkTotal limits
  .modify fun s => { s with filesExtracted := s.filesExtracted + 1 }

/-- What is done for an entry from its first read on. -/
def fillPlaced (limits : Limits) (name : String) : Option Location → Effect Extraction Unit
  | none => pure ()
  | some loc => do
    fill limits name loc
    countFile limits

/-- **An entry is placed up to its first read, and filled from there on.** -/
theorem extractEntry_eq (limits : Limits) (dest : Destination) (entry : EntryDescriptor)
    (s : Extraction) : extractEntry limits dest entry s
      = (place limits dest entry >>= fillPlaced limits entry.name) s := by
  simp only [extractEntry, place, Effect.bind_apply, Effect.look]
  rcases judge limits dest s.tally.names entry with e | ⟨_ | ⟨name, p⟩ | ⟨name, p⟩⟩
  · rfl
  · rfl
  · simp only [Effect.bind_apply, noteName, Effect.modify, onFiles_apply]
    rcases dest.makeDirectoryWithin p s.files with ⟨_ | _, _⟩ <;> rfl
  · simp only [Effect.bind_apply, noteName, Effect.modify, writeFile_apply]
    rcases makeParent dest p _ with ⟨_ | _, s₁⟩
    · rfl
    · dsimp only
      rcases openOutput p s₁ with ⟨_ | loc, s₂⟩
      · rfl
      · simp only [fillPlaced, countFile, Effect.bind_apply, Effect.pure_apply]
        rcases fill limits entry.name loc s₂ with ⟨_ | _, _⟩ <;> rfl

/-- Opens an item that was counted, and places its entry up to the first read. -/
def takeUp (limits : Limits) (dest : Destination)
    (openEntry : ι → FileSystem → Except ArchiveError Entry) (item : ι) :
    Effect Extraction (String × Option Location) := do
  let entry ← Effect.look fun s => openEntry item s.files
  .modify fun s => { s with reader := entry.reads }
  return (entry.descriptor.name, ← place limits dest entry.descriptor)

theorem takeUp_apply (limits : Limits) (dest : Destination)
    (openEntry : ι → FileSystem → Except ArchiveError Entry) (item : ι) (s : Extraction) :
    takeUp limits dest openEntry item s.counted = match openEntry item s.files with
      | .error e => (.error e, s.counted)
      | .ok entry =>
        ((place limits dest entry.descriptor (s.inHand entry)).1.map (entry.descriptor.name, ·),
          (place limits dest entry.descriptor (s.inHand entry)).2) := by
  simp only [takeUp, Effect.bind_apply, Effect.look, Effect.modify]
  rw [show s.counted.files = s.files from rfl]
  rcases openEntry item s.files with e | entry
  · rfl
  dsimp only
  rw [show ({ s.counted with reader := entry.reads } : Extraction) = s.inHand entry from rfl]
  rcases place limits dest entry.descriptor (s.inHand entry) with ⟨_ | _, _⟩ <;> rfl

/-- **A turn counts its item, takes it up and fills its file.** -/
theorem turn_eq (limits : Limits) (dest : Destination)
    (openEntry : ι → FileSystem → Except ArchiveError Entry) (item : ι) (s : Extraction) :
    turn limits dest openEntry item s = match limits.checkEntryCount s.counted.tally.entries with
      | .error e => (.error e, s.counted)
      | .ok () => (takeUp limits dest openEntry item >>= fun p => fillPlaced limits p.1 p.2)
          s.counted := by
  rw [turn_apply]
  rcases limits.checkEntryCount s.counted.tally.entries with e | _
  · rfl
  dsimp only
  rw [Effect.bind_apply, takeUp_apply]
  rcases openEntry item s.files with e | entry
  · rfl
  dsimp only
  rw [extractEntry_eq, Effect.bind_apply]
  rcases place limits dest entry.descriptor (s.inHand entry) with ⟨_ | _, _⟩ <;> rfl

/-! ## Moments and steps -/

/-- Where an extraction is: between two entries, in the middle of a file, behind the content of a
file, or at its end. -/
inductive Stage (ι : Type)
  | between (rest : List ι)
  | writing (name : String) (loc : Location) (reads : List Read) (total : Nat) (rest : List ι)
  | written (rest : List ι)
  | ended (result : Except ArchiveError Unit)

/-- The stage behind a result: an error ends the extraction. -/
def Stage.behind {α : Type} (next : Stage ι) : Except ArchiveError α → Stage ι
  | .ok _ => next
  | .error e => .ended (.error e)

/-- A moment of an extraction: the files that were opened for writing, the last one first, each with
the octets that went into it, and how many entries were opened. -/
structure Moment (ι : Type) where
  stage : Stage ι
  state : Extraction
  outputs : List (Location × Bytes)
  opened : Nat

/-- The moment before the first entry. -/
def Moment.start (items : List ι) (fs : FileSystem) : Moment ι :=
  ⟨.between items, { files := fs }, [], 0⟩

/-- **What an extraction does next.** -/
inductive Step (limits : Limits) (dest : Destination)
    (openEntry : ι → FileSystem → Except ArchiveError Entry) : Moment ι → Moment ι → Prop
  | tooMany {item : ι} {rest : List ι} {s : Extraction} {outputs : List (Location × Bytes)}
      {opened : Nat} {e : ArchiveError}
      (hn : limits.checkEntryCount s.counted.tally.entries = .error e) :
      Step limits dest openEntry ⟨.between (item :: rest), s, outputs, opened⟩
        ⟨.ended (.error e), s.counted, outputs, opened⟩
  | notPlaced {item : ι} {rest : List ι} {s s' : Extraction} {outputs : List (Location × Bytes)}
      {opened : Nat} {e : ArchiveError}
      (hn : limits.checkEntryCount s.counted.tally.entries = .ok ())
      (hp : takeUp limits dest openEntry item s.counted = (.error e, s')) :
      Step limits dest openEntry ⟨.between (item :: rest), s, outputs, opened⟩
        ⟨.ended (.error e), s', outputs, opened + 1⟩
  | placed {item : ι} {rest : List ι} {s s' : Extraction} {outputs : List (Location × Bytes)}
      {opened : Nat} {name : String}
      (hn : limits.checkEntryCount s.counted.tally.entries = .ok ())
      (hp : takeUp limits dest openEntry item s.counted = (.ok (name, none), s')) :
      Step limits dest openEntry ⟨.between (item :: rest), s, outputs, opened⟩
        ⟨.between rest, s', outputs, opened + 1⟩
  | fileOpened {item : ι} {rest : List ι} {s s' : Extraction} {outputs : List (Location × Bytes)}
      {opened : Nat} {name : String} {loc : Location}
      (hn : limits.checkEntryCount s.counted.tally.entries = .ok ())
      (hp : takeUp limits dest openEntry item s.counted = (.ok (name, some loc), s')) :
      Step limits dest openEntry ⟨.between (item :: rest), s, outputs, opened⟩
        ⟨.writing name loc (s'.reader s'.files) 0 rest, s', (loc, []) :: outputs, opened + 1⟩
  | interrupted {name : String} {loc : Location} {reads : List Read} {total : Nat} {rest : List ι}
      {s : Extraction} {outputs : List (Location × Bytes)} {opened : Nat} :
      Step limits dest openEntry
        ⟨.writing name loc (.interrupted :: reads) total rest, s, outputs, opened⟩
        ⟨.writing name loc reads total rest, s, outputs, opened⟩
  | taken {name : String} {loc : Location} {chunk content : Bytes} {reads : List Read}
      {total : Nat} {rest : List ι} {s s' : Extraction} {outputs : List (Location × Bytes)}
      {opened : Nat} (hc : ¬chunk.isEmpty) (hcount : ¬Bytes.maxCount < total + chunk.length)
      (ha : acceptChunk limits name loc chunk (total + chunk.length) s = (.ok (), s')) :
      Step limits dest openEntry
        ⟨.writing name loc (.data chunk :: reads) total rest, s, (loc, content) :: outputs, opened⟩
        ⟨.writing name loc reads (total + chunk.length) rest, s',
          (loc, content ++ chunk) :: outputs, opened⟩
  | refused {name : String} {loc : Location} {chunk : Bytes} {reads : List Read} {total : Nat}
      {rest : List ι} {s s' : Extraction} {outputs : List (Location × Bytes)} {opened : Nat}
      {e : ArchiveError} (hc : ¬chunk.isEmpty)
      (hcount : ¬Bytes.maxCount < total + chunk.length)
      (ha : acceptChunk limits name loc chunk (total + chunk.length) s = (.error e, s')) :
      Step limits dest openEntry
        ⟨.writing name loc (.data chunk :: reads) total rest, s, outputs, opened⟩
        ⟨.ended (.error e), { s' with reader := fun _ => reads }, outputs, opened⟩
  | uncounted {name : String} {loc : Location} {chunk : Bytes} {reads : List Read} {total : Nat}
      {rest : List ι} {s : Extraction} {outputs : List (Location × Bytes)} {opened : Nat}
      (hc : ¬chunk.isEmpty) (hcount : Bytes.maxCount < total + chunk.length) :
      Step limits dest openEntry
        ⟨.writing name loc (.data chunk :: reads) total rest, s, outputs, opened⟩
        ⟨.ended (.error (.io .byteCountOverflow)), { s with reader := fun _ => reads }, outputs,
          opened⟩
  | failed {name : String} {loc : Location} {reads : List Read} {total : Nat} {rest : List ι}
      {s : Extraction} {outputs : List (Location × Bytes)} {opened : Nat} {e : IoError} :
      Step limits dest openEntry
        ⟨.writing name loc (.failure e :: reads) total rest, s, outputs, opened⟩
        ⟨.ended (.error (.io e)), { s with reader := fun _ => reads }, outputs, opened⟩
  | exhausted {name : String} {loc : Location} {total : Nat} {rest : List ι} {s : Extraction}
      {outputs : List (Location × Bytes)} {opened : Nat} :
      Step limits dest openEntry ⟨.writing name loc [] total rest, s, outputs, opened⟩
        ⟨.written rest, { s with reader := fun _ => [] }, outputs, opened⟩
  | emptied {name : String} {loc : Location} {chunk : Bytes} {reads : List Read} {total : Nat}
      {rest : List ι} {s : Extraction} {outputs : List (Location × Bytes)} {opened : Nat}
      (hc : chunk.isEmpty) :
      Step limits dest openEntry
        ⟨.writing name loc (.data chunk :: reads) total rest, s, outputs, opened⟩
        ⟨.written rest, { s with reader := fun _ => reads }, outputs, opened⟩
  | checked {rest : List ι} {s s' : Extraction} {outputs : List (Location × Bytes)} {opened : Nat}
      {result : Except ArchiveError Unit} (hf : countFile limits s = (result, s')) :
      Step limits dest openEntry ⟨.written rest, s, outputs, opened⟩
        ⟨(Stage.between rest).behind result, s', outputs, opened⟩
  | through {s : Extraction} {outputs : List (Location × Bytes)} {opened : Nat} :
      Step limits dest openEntry ⟨.between [], s, outputs, opened⟩
        ⟨.ended (limits.checkTotalSize s.tally.octets), s, outputs, opened⟩

/-- What an extraction does in some steps. -/
abbrev Steps (limits : Limits) (dest : Destination)
    (openEntry : ι → FileSystem → Except ArchiveError Entry) : Moment ι → Moment ι → Prop :=
  Relation.ReflTransGen (Step limits dest openEntry)

/-! ## The way of an extraction -/

variable {outputs : List (Location × Bytes)} {content : Bytes}

/-- **A copy into a file goes read by read**, to the end of the content or of the extraction. -/
theorem copyFrom_steps (limits : Limits) (dest : Destination)
    (openEntry : ι → FileSystem → Except ArchiveError Entry) (name : String) (loc : Location)
    (rest : List ι) (outputs : List (Location × Bytes)) (opened : Nat) (reads : List Read)
    (total : Nat) (s : Extraction) (content : Bytes)
    {copied : Copied Extraction}
    (h : copyFrom (acceptChunk limits name loc) reads total s = copied) :
    ∃ content', Steps limits dest openEntry
      ⟨.writing name loc reads total rest, s, (loc, content) :: outputs, opened⟩
      ⟨(Stage.written rest).behind copied.result,
        { copied.state with reader := fun _ => copied.unread }, (loc, content') :: outputs,
        opened⟩ := by
  induction reads generalizing total s content with
  | nil =>
    subst h
    exact ⟨content, .single .exhausted⟩
  | cons read reads ih =>
    rcases read with chunk | _ | e
    · rw [copyFrom] at h
      by_cases hc : chunk.isEmpty
      · rw [if_pos hc] at h
        subst h
        exact ⟨content, .single (.emptied hc)⟩
      rw [if_neg hc] at h
      dsimp only at h
      by_cases hcount : Bytes.maxCount < total + chunk.length
      · rw [if_pos hcount] at h
        subst h
        exact ⟨content, .single (.uncounted hc hcount)⟩
      rw [if_neg hcount] at h
      rcases ha : acceptChunk limits name loc chunk (total + chunk.length) s with ⟨e | _, s'⟩ <;>
        rw [ha] at h
      · subst h
        exact ⟨content, .single (.refused hc hcount ha)⟩
      · obtain ⟨content', hsteps⟩ := ih _ _ (content ++ chunk) h
        exact ⟨content', hsteps.head (.taken hc hcount ha)⟩
    · obtain ⟨content', hsteps⟩ := ih total s content h
      exact ⟨content', hsteps.head .interrupted⟩
    · subst h
      exact ⟨content, .single .failed⟩

/-- **A turn is a way of steps**, to the next entry or to the end of the extraction. -/
theorem turn_steps (limits : Limits) (dest : Destination)
    (openEntry : ι → FileSystem → Except ArchiveError Entry) (item : ι) (rest : List ι)
    (s : Extraction) (outputs : List (Location × Bytes)) (opened : Nat)
    {result : Except ArchiveError Unit} (h : turn limits dest openEntry item s = (result, s')) :
    ∃ outputs' opened', Steps limits dest openEntry
      ⟨.between (item :: rest), s, outputs, opened⟩
      ⟨(Stage.between rest).behind result, s', outputs', opened'⟩ := by
  rw [turn_eq] at h
  rcases hn : limits.checkEntryCount s.counted.tally.entries with e | _ <;> rw [hn] at h
  · obtain ⟨rfl, rfl⟩ := Prod.mk.inj h
    exact ⟨outputs, opened, .single (.tooMany hn)⟩
  dsimp only at h
  rw [Effect.bind_apply] at h
  rcases hp : takeUp limits dest openEntry item s.counted with ⟨e | ⟨name, _ | loc⟩, s₁⟩ <;>
    rw [hp] at h
  · obtain ⟨rfl, rfl⟩ := Prod.mk.inj h
    exact ⟨outputs, opened + 1, .single (.notPlaced hn hp)⟩
  · obtain ⟨rfl, rfl⟩ := Prod.mk.inj h
    exact ⟨outputs, opened + 1, .single (.placed hn hp)⟩
  · obtain ⟨content, hcopy⟩ := copyFrom_steps limits dest openEntry name loc rest outputs
      (opened + 1) (s₁.reader s₁.files) 0 s₁ [] rfl
    refine ⟨(loc, content) :: outputs, opened + 1, .head (.fileOpened hn hp) (hcopy.trans ?_)⟩
    simp only [fillPlaced, Effect.bind_apply, fill, copyChunks] at h
    generalize copyFrom (acceptChunk limits name loc) (s₁.reader s₁.files) 0 s₁ = copied at h ⊢
    obtain ⟨e | n, state, unread⟩ := copied
    · obtain ⟨rfl, rfl⟩ := Prod.mk.inj h
      exact .refl
    · exact .single (.checked h)

/-- **An extraction is the way that the steps take from its start to its end.** -/
theorem extractEach_steps (limits : Limits) (dest : Destination)
    (openEntry : ι → FileSystem → Except ArchiveError Entry) : ∀ (items : List ι) (s : Extraction)
    (outputs : List (Location × Bytes)) (opened : Nat), ∃ outputs' opened',
      Steps limits dest openEntry ⟨.between items, s, outputs, opened⟩
        ⟨.ended (extractEach limits dest openEntry items s).1,
          (extractEach limits dest openEntry items s).2, outputs', opened'⟩
  | [], s, outputs, opened => ⟨outputs, opened, .single .through⟩
  | item :: items, s, outputs, opened => by
    rw [extractEach_cons]
    rcases ht : turn limits dest openEntry item s with ⟨result, s'⟩
    obtain ⟨outputs₁, opened₁, hturn⟩ :=
      turn_steps limits dest openEntry item items s outputs opened ht
    rcases result with e | _
    · exact ⟨outputs₁, opened₁, hturn⟩
    · obtain ⟨outputs₂, opened₂, hrest⟩ :=
        extractEach_steps limits dest openEntry items s' outputs₁ opened₁
      exact ⟨outputs₂, opened₂, hturn.trans hrest⟩

end GuardedArchive.Extraction
