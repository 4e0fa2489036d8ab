import GuardedArchive.Proofs.Extraction.Confinement
import GuardedArchive.Proofs.Extraction.Outcome
import GuardedArchive.Proofs.Extraction.Relocation

/-!
# Proofs/Extraction/Lockstep — one extraction into two places

The same entries are extracted into two sites.  What an entry is judged by does not depend on where
it goes (`judge_cases`), so that both extractions take the same turns: each leaves them
**alongside**, with the same counts and the same tree below their roots, or stops both with the same
error (`Alongside.turn`).  By induction on the entries two extractions into empty directories end
alike (`ofSource_alike`).
-/

namespace GuardedArchive

/-- What a report counts. -/
def ExtractionReport.counts (r : ExtractionReport) : Nat × Nat × Nat × Nat :=
  (r.entriesProcessed, r.filesExtracted, r.directoriesCreated, r.bytesWritten)

namespace Extraction

open GuardedArchive.Stream (copyFrom)
open Zip (Archive Entry Source)

/-- **Two extractions are equally far**: they hold the same below their roots, have counted the
same, and their readers deliver the same. -/
structure Alongside (a b : Site) (s s' : Extraction) : Prop where
  files : Alike a b s.files s'.files
  tally : s'.tally = s.tally
  filesExtracted : s'.filesExtracted = s.filesExtracted
  directoriesCreated : s'.directoriesCreated = s.directoriesCreated
  reader : ∀ fs fs', a.Holds fs → b.Holds fs' → s'.reader fs' = s.reader fs

/-- Two steps have the same answer and leave the extractions equally far. -/
structure InStep (a b : Site) (x y : Except ArchiveError Unit × Extraction) : Prop where
  result : y.1 = x.1
  state : Alongside a b x.2 y.2

variable {ι : Type} {limits : Limits} {a b : Site} {s s' : Extraction} {entry : EntryDescriptor}
  {openEntry : ι → FileSystem → Except ArchiveError Entry} {describe : ι → EntryDescriptor}
  {item : ι} {items : List ι} {rel : Location} {name : String} {source : Source}
  {x y f g : Effect Extraction Unit}

/-- **Steps in a row stay in step** where each of them does. -/
theorem InStep.bind (h : InStep a b (x s) (y s'))
    (hnext : ∀ s s', Alongside a b s s' → InStep a b (f s) (g s')) :
    InStep a b ((x >>= fun _ => f) s) ((y >>= fun _ => g) s') := by
  rw [Effect.bind_apply, Effect.bind_apply]
  obtain ⟨hresult, hstate⟩ := h
  rcases hx : x s with ⟨e | _, s₁⟩ <;> rcases hy : y s' with ⟨e' | _, s₂⟩ <;>
    rw [hx, hy] at hresult hstate
  · exact ⟨hresult, hstate⟩
  · cases hresult
  · cases hresult
  · exact hnext s₁ s₂ hstate

/-! ## One entry -/

/-- **An entry is judged by itself**: it is refused for the same reason, or goes to its location,
whatever the destination. -/
theorem judge_cases (limits : Limits) (seen : List String) (entry : EntryDescriptor) :
    (∃ e, ∀ dest, judge limits dest seen entry = .error e)
      ∨ ∀ dest, judge limits dest seen entry = .ok (placementOf dest entry) := by
  simp only [judge]
  rcases hcheck : EntryName.check limits entry.name with e | normal
  · exact .inl ⟨e, fun _ => rfl⟩
  obtain rfl := EntryName.check_eq_ok hcheck
  rcases entry.checkSize limits with e | _
  · exact .inl ⟨e, fun _ => rfl⟩
  rcases entry.checkNotLink with e | _
  · exact .inl ⟨e, fun _ => rfl⟩
  have hempty := EntryName.isEmpty_sanitizedPath (EntryName.normalizeSeparators entry.name)
  dsimp only [bind, Except.bind]
  by_cases hloc : entry.location = []
  · simp only [hempty.mpr hloc, if_true]
    by_cases hd : entry.isDirectory
    · refine .inr fun dest => ?_
      rw [if_pos hd, placementOf, if_pos hloc]
      rfl
    · refine .inl ⟨.violation .emptyName, fun dest => ?_⟩
      rw [if_neg hd]
      rfl
  · simp only [if_neg (mt hempty.mp hloc), Destination.checkContained_resolve]
    rcases EntryName.checkDuplicate seen
      (EntryName.sanitizedPath (EntryName.normalizeSeparators entry.name)) with e | _
    · exact .inl ⟨e, fun _ => rfl⟩
    · refine .inr fun dest => ?_
      rw [placementOf, if_neg hloc]
      rfl

namespace Alongside

/-- A change of what is counted, made on both sides. -/
theorem noteName (h : Alongside a b s s') (name : String) :
    InStep a b (Extraction.noteName name s) (Extraction.noteName name s') where
  result := rfl
  state := { h with tally := congrArg (Tally.insertName · name) h.tally }

/-- A step on the files that ends alike at both sites. -/
theorem onFiles (h : Alongside a b s s') {op op' : Operation Unit}
    (hresult : (op' s'.files).1 = (op s.files).1)
    (halike : Alike a b (op s.files).2 (op' s'.files).2) :
    InStep a b (Extraction.onFiles op s) (Extraction.onFiles op' s') := by
  rw [onFiles_apply, onFiles_apply]
  exact ⟨hresult, { h with files := halike }⟩

theorem checkTotal (h : Alongside a b s s') :
    InStep a b (Extraction.checkTotal limits s) (Extraction.checkTotal limits s') where
  result := congrArg (fun t : Tally => limits.checkTotalSize t.octets) h.tally
  state := h

theorem acceptChunk (h : Alongside a b s s') (hrel : rel ≠ []) (chunk : Bytes) (total : Nat) :
    InStep a b (Extraction.acceptChunk limits name (a.root ++ rel) chunk total s)
      (Extraction.acceptChunk limits name (b.root ++ rel) chunk total s') := by
  rw [Extraction.acceptChunk, Extraction.acceptChunk, h.tally]
  rcases limits.checkEntrySize name total with e | _
  · exact ⟨rfl, h⟩
  · dsimp only
    rcases s.tally.addOctets chunk.length with e | tally
    · exact ⟨rfl, h⟩
    · dsimp only
      rcases limits.checkTotalSize tally.octets with e | _
      · exact ⟨rfl, { h with tally := rfl }⟩
      · exact ⟨rfl, { h with tally := rfl, files := h.files.append hrel chunk }⟩

/-- **The same reads are copied with the same outcome.** -/
theorem copyFrom (hrel : rel ≠ []) : ∀ (reads : List Read) (total : Nat) {s s' : Extraction},
    Alongside a b s s' →
      let copied := copyFrom (Extraction.acceptChunk limits name (a.root ++ rel)) reads total s
      let copied' := Stream.copyFrom (Extraction.acceptChunk limits name (b.root ++ rel)) reads
        total s'
      copied'.result = copied.result ∧ copied'.unread = copied.unread
        ∧ Alongside a b copied.state copied'.state
  | [], _, _, _, h => ⟨rfl, rfl, h⟩
  | .interrupted :: reads, total, _, _, h => copyFrom hrel reads total h
  | .failure _ :: _, _, _, _, h => ⟨rfl, rfl, h⟩
  | .data chunk :: reads, total, s, s', h => by
    dsimp only
    rw [Stream.copyFrom, Stream.copyFrom]
    by_cases hc : chunk.isEmpty
    · rw [if_pos hc, if_pos hc]
      exact ⟨rfl, rfl, h⟩
    rw [if_neg hc, if_neg hc]
    dsimp only
    by_cases hfits : Bytes.maxCount < total + chunk.length
    · rw [if_pos hfits, if_pos hfits]
      exact ⟨rfl, rfl, h⟩
    rw [if_neg hfits, if_neg hfits]
    obtain ⟨hresult, hstate⟩ := h.acceptChunk hrel chunk
      (total + chunk.length)
    rcases ha : Extraction.acceptChunk limits name (a.root ++ rel) chunk (total + chunk.length) s
      with ⟨e | _, s₁⟩ <;>
      rcases hb : Extraction.acceptChunk limits name (b.root ++ rel) chunk (total + chunk.length) s'
        with ⟨e' | _, s₂⟩ <;> rw [ha, hb] at hresult hstate
    · exact ⟨congrArg Except.error (Except.error.inj hresult), rfl, hstate⟩
    · cases hresult
    · cases hresult
    · exact copyFrom hrel reads _ hstate

/-- **A file is written with the same outcome.** -/
theorem writeFile (h : Alongside a b s s') (hne : entry.location ≠ [])
    (hask : Askable a b entry.location) :
    InStep a b
      (Extraction.writeFile limits entry.name (Location.path (a.root ++ entry.location)) s)
      (Extraction.writeFile limits entry.name (Location.path (b.root ++ entry.location)) s') := by
  rw [Extraction.writeFile, Extraction.writeFile]
  rcases h.files.create entry.isProper_location hne hask with
    ⟨e, hc, hc'⟩ | ⟨rel, fs₁, fs₂, hrel, hc, hc', halike⟩ <;> rw [hc, hc']
  · exact ⟨rfl, h⟩
  · have hopen : Alongside a b { s with files := fs₁ } { s' with files := fs₂ } :=
      { h with files := halike }
    dsimp only
    rw [h.reader fs₁ fs₂ halike.left halike.right, Stream.copyChunks, Stream.copyChunks]
    obtain ⟨hresult, hunread, hstate⟩ := hopen.copyFrom hrel
      (s.reader fs₁) 0
    exact ⟨by rw [hresult], { hstate with reader := fun _ _ _ _ => hunread }⟩

theorem makeDirectoryWithin (h : Alongside a b s s') {loc : Location} (hloc : loc.IsProper)
    (hask : Askable a b loc) :
    InStep a b
      (Extraction.onFiles
        (Destination.makeDirectoryWithin ⟨a.root⟩ (Location.path (a.root ++ loc))) s)
      (Extraction.onFiles
        (Destination.makeDirectoryWithin ⟨b.root⟩ (Location.path (b.root ++ loc))) s') := by
  obtain ⟨hresult, halike⟩ := h.files.makeDirectoryWithin hloc hask
  exact h.onFiles hresult halike

theorem above_site {fs : FileSystem} (hs : a.Holds fs) :
    above ⟨a.root⟩ entry = Location.path (a.root ++ entry.location.dropLast) := by
  rw [above, Destination.base_eq _ hs.proper]

theorem pathOf_site {fs : FileSystem} (hs : a.Holds fs) :
    Destination.pathOf ⟨a.root⟩ entry = Location.path (a.root ++ entry.location) := by
  rw [Destination.pathOf, Destination.base_eq _ hs.proper]

theorem makeParent (h : Alongside a b s s') (hne : entry.location ≠ [])
    (hask : Askable a b entry.location) :
    InStep a b (Extraction.makeParent ⟨a.root⟩ (Destination.pathOf ⟨a.root⟩ entry) s)
      (Extraction.makeParent ⟨b.root⟩ (Destination.pathOf ⟨b.root⟩ entry) s') := by
  rw [Extraction.makeParent, Extraction.makeParent, parent?_pathOf hne, parent?_pathOf hne,
    above_site h.files.left, above_site h.files.right]
  exact h.makeDirectoryWithin entry.isProper_location.dropLast
    (hask.of_above (List.dropLast_prefix _))

/-- **An entry is handled with the same outcome.** -/
theorem extractEntry (h : Alongside a b s s') (hask : Askable a b entry.location) :
    InStep a b (Extraction.extractEntry limits ⟨a.root⟩ entry s)
      (Extraction.extractEntry limits ⟨b.root⟩ entry s') := by
  rw [Extraction.extractEntry, Extraction.extractEntry, Effect.bind_apply, Effect.bind_apply,
    Effect.look, Effect.look, h.tally]
  rcases judge_cases limits s.tally.names entry with ⟨e, hj⟩ | hj <;> rw [hj, hj]
  · exact ⟨rfl, h⟩
  · dsimp only
    rw [placementOf, placementOf]
    by_cases hloc : entry.location = []
    · rw [if_pos hloc, if_pos hloc]
      exact ⟨rfl, h⟩
    rw [if_neg hloc, if_neg hloc]
    by_cases hd : entry.isDirectory
    · rw [if_pos hd, if_pos hd, pathOf_site h.files.left, pathOf_site h.files.right]
      refine (h.noteName entry.placedName).bind fun _ _ h => ?_
      refine (h.makeDirectoryWithin entry.isProper_location hask).bind fun _ _ h => ?_
      exact ⟨rfl, { h with directoriesCreated := congrArg (· + 1) h.directoriesCreated }⟩
    · rw [if_neg hd, if_neg hd]
      refine (h.noteName entry.placedName).bind fun _ _ h => ?_
      refine (h.makeParent hloc hask).bind fun _ _ h => ?_
      rw [pathOf_site h.files.left, pathOf_site h.files.right]
      refine (h.writeFile hloc hask).bind fun _ _ h => ?_
      refine h.checkTotal.bind fun _ _ h => ?_
      exact ⟨rfl, { h with filesExtracted := congrArg (· + 1) h.filesExtracted }⟩

end Alongside

/-! ## A whole extraction -/

/-- Items open the same and are read the same at both sites. -/
def OpensAlike (a b : Site) (openEntry : ι → FileSystem → Except ArchiveError Entry) : Prop :=
  ∀ item fs fs', a.Holds fs → b.Holds fs' → openEntry item fs' = openEntry item fs
    ∧ ∀ entry, openEntry item fs = .ok entry →
      ∀ fs₁ fs₂, a.Holds fs₁ → b.Holds fs₂ → entry.reads fs₂ = entry.reads fs₁

/-- **The turn of an item has the same outcome.** -/
theorem Alongside.turn (h : Alongside a b s s') (ho : OpensAlike a b openEntry)
    (hd : Describes openEntry describe) (hask : Askable a b (describe item).location) :
    InStep a b (turn limits ⟨a.root⟩ openEntry item s)
      (turn limits ⟨b.root⟩ openEntry item s') := by
  have hcounted : Alongside a b s.counted s'.counted :=
    { h with tally := congrArg Tally.recordEntry h.tally }
  obtain ⟨hsame, hreads⟩ := ho item s.files s'.files h.files.left h.files.right
  rw [turn_apply, turn_apply, hcounted.tally, hsame]
  rcases limits.checkEntryCount s.counted.tally.entries with e | _
  · exact ⟨rfl, hcounted⟩
  · rcases hopen : openEntry item s.files with e | entry
    · exact ⟨rfl, hcounted⟩
    · rw [← hd item _ _ hopen] at hask
      have hhand : Alongside a b (s.inHand entry) (s'.inHand entry) :=
        { hcounted with reader := hreads entry hopen }
      exact hhand.extractEntry hask

/-- **The items are extracted with the same outcome**, by induction on the items: each turn leaves
the extractions equally far, or stops both. -/
theorem Alongside.extractEach (ho : OpensAlike a b openEntry) (hd : Describes openEntry describe) :
    ∀ {items : List ι} {s s' : Extraction}, Alongside a b s s' →
      (∀ item ∈ items, Askable a b (describe item).location) →
        InStep a b (extractEach limits ⟨a.root⟩ openEntry items s)
          (extractEach limits ⟨b.root⟩ openEntry items s')
  | [], _, _, h, _ => h.checkTotal
  | item :: items, s, s', h, hask => by
    rw [extractEach_cons, extractEach_cons]
    obtain ⟨hresult, hstate⟩ := h.turn ho hd (hask item List.mem_cons_self)
    rcases ht : Extraction.turn limits ⟨a.root⟩ openEntry item s with ⟨e | _, s₁⟩ <;>
      rcases ht' : Extraction.turn limits ⟨b.root⟩ openEntry item s' with ⟨e' | _, s₂⟩ <;>
      rw [ht, ht'] at hresult hstate
    · exact ⟨hresult, hstate⟩
    · cases hresult
    · cases hresult
    · exact hstate.extractEach ho hd fun other hother => hask other (List.mem_cons_of_mem _ hother)

/-- An empty root is a site where nothing has changed. -/
theorem IsEmptyRoot.holds (h : IsEmptyRoot a.before a.root)
    (hfit : ∀ name ∈ a.root, name.length ≤ FileSystem.maxNameLength) : a.Holds a.before :=
  ⟨h.proper, hfit, h.directory, fun _ _ => rfl⟩

/-- Empty roots are alike. -/
theorem Alike.start (ha : IsEmptyRoot a.before a.root) (hb : IsEmptyRoot b.before b.root)
    (hfit : ∀ name ∈ a.root, name.length ≤ FileSystem.maxNameLength)
    (hfit' : ∀ name ∈ b.root, name.length ≤ FileSystem.maxNameLength) :
    Alike a b a.before b.before := by
  have hnode : ∀ {site : Site}, IsEmptyRoot site.before site.root → ∀ rel,
      site.before.node? (site.root ++ rel) = if rel = [] then some .directory else none := by
    intro site hs rel
    split
    next he => rw [he, List.append_nil, hs.directory _ List.prefix_rfl]
    next hne => exact hs.empty rel hne
  refine ⟨ha.holds hfit, hb.holds hfit', fun rel => ?_, fun rel target => ?_⟩
  · rw [hnode ha, hnode hb]
  · rw [hnode ha]
    split <;> simp

/-- **Extracting an archive into two empty directories has the same outcome**: the same error, or
the same counts, and in either case the same tree below the roots. -/
theorem ofSource_alike (h : Alike a b a.before b.before) (ha : IsEmptyRoot a.before a.root)
    (hb : IsEmptyRoot b.before b.root) (hoctets : source.octets b.before = source.octets a.before)
    (hask : ∀ entry ∈ declared limits source a.before, Askable a b entry.location) :
    (ofSource limits ⟨b.root⟩ source b.before).1.map ExtractionReport.counts
        = (ofSource limits ⟨a.root⟩ source a.before).1.map ExtractionReport.counts
      ∧ Alike a b (ofSource limits ⟨a.root⟩ source a.before).2
        (ofSource limits ⟨b.root⟩ source b.before).2 := by
  rw [ofSource_apply, ofSource_apply, load_congr hoctets]
  rw [declared] at hask
  rcases hl : Archive.load limits source a.before with e | archive
  · exact ⟨rfl, h⟩
  · rw [hl] at hask
    dsimp only at hask ⊢
    have hl' : Archive.load limits source b.before = .ok archive := by rw [load_congr hoctets, hl]
    have hsource := (Archive.load_eq_ok_iff.mp hl).2.2
    have hsame : ∀ {fs fs'}, a.Holds fs → b.Holds fs' →
        archive.source.octets fs' = archive.source.octets fs := fun {fs fs'} hfs hfs' => by
      rw [hsource, octets_sameOutside hb hl' hfs'.outside, hoctets,
        octets_sameOutside ha hl hfs.outside]
    have hopens : OpensAlike a b archive.openEntry := fun r fs fs' hfs hfs' =>
      ⟨openEntry_congr (hsame hfs hfs'), fun entry ho fs₁ fs₂ h₁ h₂ => reads_congr ho (hsame h₁ h₂)⟩
    have hstart : Alongside a b { files := a.before } { files := b.before } :=
      ⟨h, rfl, rfl, rfl, fun _ _ _ _ => rfl⟩
    obtain ⟨hresult, hstate⟩ := hstart.extractEach hopens (describes_openEntry archive)
      fun r hr => hask r.descriptor (List.mem_map_of_mem hr)
    rw [run_apply, run_apply, hresult]
    refine ⟨?_, hstate.files⟩
    generalize (extractEach limits ⟨a.root⟩ archive.openEntry archive.records
      { files := a.before }).1 = result
    rcases result with e | _
    · rfl
    · exact congrArg Except.ok (by
        simp only [ExtractionReport.counts, report, hstate.tally, hstate.filesExtracted,
          hstate.directoriesCreated])

end Extraction

end GuardedArchive
