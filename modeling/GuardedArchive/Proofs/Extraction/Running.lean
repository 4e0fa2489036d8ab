import GuardedArchive.Extraction.Archive
import GuardedArchive.Proofs.Effect
import GuardedArchive.Proofs.Extraction.Handling

/-!
# Proofs/Extraction/Running — an extraction turn by turn

    turn item              what is done for one item: it is counted, opened and handled
    Places items s s'      every item of `items` had its turn, and each was placed

An extraction places the items before the one that stops it, if any does (`extractEach_ends`), and
goes on from there as if it began there (`Places.extractEach_eq`).  `turn_ends` lists the ways of
one turn; so what a turn keeps, an extraction keeps, and what an extraction did, some turn did.
-/

namespace GuardedArchive.Extraction

open Zip

variable {ι : Type} {limits : Limits} {dest : Destination}
  {openEntry : ι → FileSystem → Except ArchiveError Entry} {item : ι} {items more : List ι}
  {s s' s'' : Extraction} {result : Except ArchiveError Unit}

/-- What is declared of an item does not depend on when it is opened. -/
def Describes (openEntry : ι → FileSystem → Except ArchiveError Entry)
    (describe : ι → EntryDescriptor) : Prop :=
  ∀ item fs entry, openEntry item fs = .ok entry → entry.descriptor = describe item

/-! ## One turn -/

/-- What is done for one item. -/
def turn (limits : Limits) (dest : Destination)
    (openEntry : ι → FileSystem → Except ArchiveError Entry) (item : ι) :
    Effect Extraction Unit := do
  countEntry limits
  let entry ← Effect.look fun s => openEntry item s.files
  .modify fun s => { s with reader := entry.reads }
  extractEntry limits dest entry.descriptor

/-- The state with one more entry counted. -/
def counted (s : Extraction) : Extraction := { s with tally := s.tally.recordEntry }

/-- The state with an opened entry in hand. -/
def inHand (s : Extraction) (entry : Entry) : Extraction :=
  { s.counted with reader := entry.reads }

/-- **The ways of a turn**: the item is one too many, cannot be opened, or is handled. -/
inductive Turn (limits : Limits) (dest : Destination)
    (openEntry : ι → FileSystem → Except ArchiveError Entry) (item : ι) (s : Extraction) :
    Except ArchiveError Unit → Extraction → Prop
  | tooMany {e : ArchiveError} (hn : limits.checkEntryCount s.counted.tally.entries = .error e) :
      Turn limits dest openEntry item s (.error e) s.counted
  | unopened {e : ArchiveError} (hn : limits.checkEntryCount s.counted.tally.entries = .ok ())
      (ho : openEntry item s.files = .error e) :
      Turn limits dest openEntry item s (.error e) s.counted
  | handled {entry : Entry} {result : Except ArchiveError Unit} {s' : Extraction}
      (hn : limits.checkEntryCount s.counted.tally.entries = .ok ())
      (ho : openEntry item s.files = .ok entry)
      (hh : Handles limits dest entry.descriptor (s.inHand entry) result s') :
      Turn limits dest openEntry item s result s'

theorem turn_apply (limits : Limits) (dest : Destination)
    (openEntry : ι → FileSystem → Except ArchiveError Entry) (item : ι) (s : Extraction) :
    turn limits dest openEntry item s = match limits.checkEntryCount s.counted.tally.entries with
      | .error e => (.error e, s.counted)
      | .ok () => match openEntry item s.files with
        | .error e => (.error e, s.counted)
        | .ok entry => extractEntry limits dest entry.descriptor (s.inHand entry) := by
  simp only [turn, countEntry, Effect.bind_apply, Effect.modify, Effect.look, inHand, counted]
  cases limits.checkEntryCount s.tally.recordEntry.entries with
  | error e => rfl
  | ok _ =>
    dsimp only
    cases openEntry item s.files <;> rfl

/-- **A turn ends in one of these ways.** -/
theorem turn_ends (limits : Limits) (dest : Destination)
    (openEntry : ι → FileSystem → Except ArchiveError Entry) (item : ι) (s : Extraction) :
    Turn limits dest openEntry item s (turn limits dest openEntry item s).1
      (turn limits dest openEntry item s).2 := by
  rw [turn_apply]
  cases hn : limits.checkEntryCount s.counted.tally.entries with
  | error e => exact .tooMany hn
  | ok _ =>
    cases ho : openEntry item s.files with
    | error e => exact .unopened hn ho
    | ok entry => exact .handled hn ho (extractEntry_handles limits dest entry.descriptor _)

theorem Turn.of_turn (h : turn limits dest openEntry item s = (result, s')) :
    Turn limits dest openEntry item s result s' := by
  have ht := turn_ends limits dest openEntry item s
  rwa [h] at ht

/-! ## Turns in a row -/

/-- The items have their turns in order, and each is placed. -/
inductive Places (limits : Limits) (dest : Destination)
    (openEntry : ι → FileSystem → Except ArchiveError Entry) :
    List ι → Extraction → Extraction → Prop
  | nil {s : Extraction} : Places limits dest openEntry [] s s
  | cons {item : ι} {rest : List ι} {s s' s'' : Extraction}
      (h : turn limits dest openEntry item s = (.ok (), s'))
      (hs : Places limits dest openEntry rest s' s'') :
      Places limits dest openEntry (item :: rest) s s''

theorem extractEach_cons (item : ι) (items : List ι) (s : Extraction) :
    extractEach limits dest openEntry (item :: items) s
      = match turn limits dest openEntry item s with
        | (.ok (), s') => extractEach limits dest openEntry items s'
        | (.error e, s') => (.error e, s') := by
  rw [turn_apply]
  simp only [extractEach, countEntry, Effect.bind_apply, Effect.modify, Effect.look, inHand,
    counted]
  cases limits.checkEntryCount s.tally.recordEntry.entries with
  | error e => rfl
  | ok _ =>
    dsimp only
    cases openEntry item s.files with
    | error e => rfl
    | ok entry =>
      dsimp only
      rcases extractEntry limits dest entry.descriptor _ with ⟨_ | _, _⟩ <;> rfl

/-- **Behind the items that were placed an extraction goes on with the others.** -/
theorem Places.extractEach_eq (h : Places limits dest openEntry items s s') (more : List ι) :
    extractEach limits dest openEntry (items ++ more) s
      = extractEach limits dest openEntry more s' := by
  induction h with
  | nil => rfl
  | cons ht _ ih => rw [List.cons_append, extractEach_cons, ht, ← ih]

/-- **The turn of some item** comes, behind those that were placed, in a state of which `P`
holds. -/
def SomeTurn (limits : Limits) (dest : Destination)
    (openEntry : ι → FileSystem → Except ArchiveError Entry) (P : ι → Extraction → Prop)
    (items : List ι) (s : Extraction) : Prop :=
  ∃ done item rest s₁, items = done ++ item :: rest ∧ Places limits dest openEntry done s s₁
    ∧ P item s₁

theorem not_someTurn_nil {P : ι → Extraction → Prop} (s : Extraction) :
    ¬SomeTurn limits dest openEntry P [] s := by
  rintro ⟨done, item, rest, s₁, he, -⟩
  exact absurd he.symm (List.append_ne_nil_of_right_ne_nil _ (List.cons_ne_nil _ _))

/-- An item that stops the extraction has the last turn. -/
theorem someTurn_cons_of_error {P : ι → Extraction → Prop} {e : ArchiveError}
    (ht : turn limits dest openEntry item s = (.error e, s')) :
    SomeTurn limits dest openEntry P (item :: items) s ↔ P item s := by
  constructor
  · rintro ⟨done, other, rest, s₁, he, hp, h⟩
    cases hp with
    | nil =>
      obtain rfl : item = other := (List.cons.inj he).1
      exact h
    | cons ht' =>
      obtain rfl := (List.cons.inj he).1
      rw [ht] at ht'
      cases ht'
  · exact fun h => ⟨[], item, items, s, rfl, .nil, h⟩

/-- Behind an item that is placed the others have their turns. -/
theorem someTurn_cons_of_ok {P : ι → Extraction → Prop}
    (ht : turn limits dest openEntry item s = (.ok (), s')) :
    SomeTurn limits dest openEntry P (item :: items) s
      ↔ P item s ∨ SomeTurn limits dest openEntry P items s' := by
  constructor
  · rintro ⟨done, other, rest, s₁, he, hp, h⟩
    cases hp with
    | nil =>
      obtain rfl : item = other := (List.cons.inj he).1
      exact .inl h
    | @cons _ done _ s₂ _ ht' hp =>
      obtain ⟨rfl, rfl⟩ := List.cons.inj he
      rw [ht] at ht'
      obtain rfl : s' = s₂ := (Prod.mk.inj ht').2
      exact .inr ⟨done, other, rest, s₁, rfl, hp, h⟩
  · rintro (h | ⟨done, other, rest, s₁, rfl, hp, h⟩)
    · exact ⟨[], item, items, s, rfl, .nil, h⟩
    · exact ⟨item :: done, other, rest, s₁, rfl, .cons ht hp, h⟩

/-- **How an extraction ends**: all items are placed, and the octets of all of them are judged; or
one item stops it. -/
inductive Ends (limits : Limits) (dest : Destination)
    (openEntry : ι → FileSystem → Except ArchiveError Entry) (items : List ι) (s : Extraction) :
    Except ArchiveError Unit → Extraction → Prop
  | placed {s' : Extraction} (h : Places limits dest openEntry items s s') :
      Ends limits dest openEntry items s (limits.checkTotalSize s'.tally.octets) s'
  | stopped {done rest : List ι} {item : ι} {s₁ s' : Extraction} {e : ArchiveError}
      (hitems : items = done ++ item :: rest) (h : Places limits dest openEntry done s s₁)
      (ht : turn limits dest openEntry item s₁ = (.error e, s')) :
      Ends limits dest openEntry items s (.error e) s'

theorem Ends.cons (ht : turn limits dest openEntry item s = (.ok (), s'))
    (h : Ends limits dest openEntry items s' result s'') :
    Ends limits dest openEntry (item :: items) s result s'' := by
  cases h with
  | placed h => exact .placed (.cons ht h)
  | stopped hitems h ht' => exact .stopped (by rw [hitems, List.cons_append]) (.cons ht h) ht'

/-- **An extraction places items until it is through or one of them stops it.** -/
theorem extractEach_ends (limits : Limits) (dest : Destination)
    (openEntry : ι → FileSystem → Except ArchiveError Entry) : ∀ (items : List ι) (s : Extraction),
    Ends limits dest openEntry items s (extractEach limits dest openEntry items s).1
      (extractEach limits dest openEntry items s).2
  | [], _ => .placed .nil
  | item :: items, s => by
    rw [extractEach_cons]
    cases ht : turn limits dest openEntry item s with
    | mk result s' =>
      cases result with
      | error e => exact .stopped (List.nil_append _).symm .nil ht
      | ok _ => exact (extractEach_ends limits dest openEntry items s').cons ht

/-- **An extraction that succeeds has placed all items.** -/
theorem Places.of_extractEach (h : extractEach limits dest openEntry items s = (.ok (), s')) :
    Places limits dest openEntry items s s' := by
  have hends := extractEach_ends limits dest openEntry items s
  rw [h] at hends
  generalize hresult : (Except.ok () : Except ArchiveError Unit) = result at hends
  dsimp only at hends
  cases hends with
  | placed hp => exact hp
  | stopped => cases hresult

/-- **Every item that was placed was opened**, behind those that were placed before. -/
theorem Places.opened (h : Places limits dest openEntry items s s') : ∀ item ∈ items,
    ∃ done s₁ opened, Places limits dest openEntry done s s₁
      ∧ openEntry item s₁.files = .ok opened := by
  induction h with
  | nil => exact fun _ hi => absurd hi List.not_mem_nil
  | @cons item _ s _ _ ht _ ih =>
    refine List.forall_mem_cons.mpr ⟨?_, fun other hi => ?_⟩
    · cases Turn.of_turn ht with
      | handled _ ho _ => exact ⟨[], s, _, .nil, ho⟩
    · obtain ⟨done, s₁, opened, hp, ho⟩ := ih other hi
      exact ⟨item :: done, s₁, opened, .cons ht hp, ho⟩

/-! ## Archives -/

/-- **An entry that is open** has what its record declares, and its reads depend on nothing but the
octets of its content at the time. -/
theorem openEntry_eq_ok {archive : Archive} {r : Record} {fs : FileSystem} {entry : Entry}
    (h : archive.openEntry r fs = .ok entry) : entry.descriptor = r.descriptor
      ∧ ∃ (start : Nat) (readsOf : Bytes → List Read), ∀ fs', entry.reads fs'
        = readsOf (Bytes.slice (archive.source.octets fs') start r.compressedSize) := by
  have hlast : ∀ {x : Except ArchiveError (FileSystem → List Read)}, (x >>= fun reads => do
      if r.isAesEncrypted then throw (.invalidArchive .wrongPassword)
      return (⟨r.descriptor, reads⟩ : Entry)) = .ok entry →
        ∃ reads, x = .ok reads ∧ entry = ⟨r.descriptor, reads⟩ := by
    intro x hx
    obtain ⟨reads, hreads, hx⟩ := bind_eq_ok_iff.mp hx
    split at hx
    · cases hx
    · exact ⟨reads, hreads, (Except.ok.inj hx).symm⟩
  rw [Archive.openEntry] at h
  split at h
  · cases h
  obtain ⟨start, -, h⟩ := bind_eq_ok_iff.mp h
  dsimp only at h
  split at h
  · obtain ⟨reads, hreads, rfl⟩ := hlast h
    obtain rfl := Except.ok.inj hreads
    exact ⟨rfl, start, Archive.storedReads r.checksum, fun _ => rfl⟩
  · obtain ⟨reads, hreads, rfl⟩ := hlast h
    obtain rfl := Except.ok.inj hreads
    exact ⟨rfl, start, (Inflate.reads · (Archive.checkAtEnd r.checksum)), fun _ => rfl⟩
  · obtain ⟨reads, hreads, -⟩ := hlast h
    cases hreads

/-- An entry is opened under what its record declares. -/
theorem describes_openEntry (archive : Archive) :
    Describes archive.openEntry (·.descriptor) := fun _ _ _ h => (openEntry_eq_ok h).1

theorem run_apply (items : List ι) (fs : FileSystem) : run limits dest openEntry items fs
    = ((extractEach limits dest openEntry items { files := fs }).1.map fun _ =>
        (extractEach limits dest openEntry items { files := fs }).2.report dest,
      (extractEach limits dest openEntry items { files := fs }).2.files) := by
  rw [run]
  rcases extractEach limits dest openEntry items { files := fs } with ⟨_ | _, _⟩ <;> rfl

/-- **A run succeeds where all items are placed**, and answers what was done. -/
theorem run_eq_ok_iff {fs fs' : FileSystem} {report : ExtractionReport} :
    run limits dest openEntry items fs = (.ok report, fs')
      ↔ ∃ s, extractEach limits dest openEntry items { files := fs } = (.ok (), s)
        ∧ s.report dest = report ∧ s.files = fs' := by
  rw [run]
  rcases extractEach limits dest openEntry items { files := fs } with ⟨_ | _, s⟩ <;> simp

theorem ofSource_apply (limits : Limits) (dest : Destination) (source : Source) (fs : FileSystem) :
    ofSource limits dest source fs
      = match Archive.load limits source fs with
        | .error e => (.error e, fs)
        | .ok archive => run limits dest archive.openEntry archive.records fs := by
  rw [ofSource, Effect.bind_apply, Effect.look]
  cases Archive.load limits source fs <;> rfl

/-- **An archive is extracted where it is opened and the run over its records succeeds.** -/
theorem ofSource_eq_ok_iff {source : Source} {fs fs' : FileSystem} {report : ExtractionReport} :
    ofSource limits dest source fs = (.ok report, fs')
      ↔ ∃ archive, Archive.load limits source fs = .ok archive
        ∧ run limits dest archive.openEntry archive.records fs = (.ok report, fs') := by
  rw [ofSource_apply]
  cases Archive.load limits source fs <;> simp

end GuardedArchive.Extraction
