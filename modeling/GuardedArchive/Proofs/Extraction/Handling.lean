import GuardedArchive.Proofs.Effect
import GuardedArchive.Proofs.Extraction.Judging
import GuardedArchive.Proofs.FileSystem.Making

/-!
# Proofs/Extraction/Handling — all that handling one entry can do

`Handles` lists how the handling of an entry can end, with the state that it leaves: the entry is
refused, names the destination, gets its directory or does not, or its file is written as far as the
bounds and the reader allow.  `extractEntry_handles` says there is no other way, so that whatever
each of these ways keeps, an extraction keeps.
-/

namespace GuardedArchive

/-! ## What a reader delivers -/

/-- The octets that a reader delivers before it ends or fails. -/
def Stream.delivered : List Read → Bytes
  | [] => []
  | .interrupted :: rest => delivered rest
  | .failure _ :: _ => []
  | .data chunk :: rest => if chunk.isEmpty then [] else chunk ++ delivered rest

/-! ## Directories in the destination -/

namespace Destination

variable {dest : Destination} {p : Path} {fs fs' : FileSystem}

/-- The check behind the making changes nothing. -/
theorem makeDirectoryWithin_files (dest : Destination) (p : Path) (fs : FileSystem) :
    (dest.makeDirectoryWithin p fs).2 = (fs.makeTree p).2 := by
  rw [makeDirectoryWithin, Effect.bind_apply, ← Operation.makeTree_files]
  rcases Operation.makeTree p fs with ⟨_ | _, fs'⟩
  · rfl
  · dsimp only
    rw [Effect.bind_apply]
    have hsame : (Operation.ask (·.canonicalize p) fs').2 = fs' := rfl
    rcases hask : Operation.ask (·.canonicalize p) fs' with ⟨_ | ⟨loc, node⟩, fs''⟩ <;>
      rw [hask] at hsame
    · exact hsame
    · dsimp only
      split <;> exact hsame

theorem makeDirectoryWithin_addsDirectories {result : Except ArchiveError Unit}
    (h : dest.makeDirectoryWithin p fs = (result, fs')) : FileSystem.AddsDirectories fs fs' := by
  obtain rfl : (fs.makeTree p).2 = fs' := by rw [← dest.makeDirectoryWithin_files, h]
  exact fs.makeTree_addsDirectories p

/-- **A directory was made in the destination** where the path leads to one behind its root. -/
theorem makeDirectoryWithin_eq_ok_iff : dest.makeDirectoryWithin p fs = (.ok (), fs')
    ↔ fs.makeTree p = (.ok (), fs')
      ∧ ∃ loc node, fs'.canonicalize p = .ok (loc, node) ∧ dest.root <+: loc := by
  rw [makeDirectoryWithin, Effect.bind_eq_ok_iff]
  constructor
  · rintro ⟨_, fs₁, hm, h⟩
    obtain ⟨⟨loc, node⟩, fs₂, hask, hcheck⟩ := Effect.bind_eq_ok_iff.mp h
    obtain ⟨hc, rfl⟩ := Operation.ask_eq_ok_iff.mp hask
    dsimp only at hcheck
    split at hcheck
    next hp =>
      obtain rfl : fs₂ = fs' := by simpa using hcheck
      exact ⟨Operation.makeTree_eq_ok_iff.mp hm, loc, node, hc, List.isPrefixOf_iff_prefix.mp hp⟩
    next => cases hcheck
  · rintro ⟨hm, loc, node, hc, hp⟩
    refine ⟨(), fs', Operation.makeTree_eq_ok_iff.mpr hm, Effect.bind_eq_ok_iff.mpr ?_⟩
    refine ⟨(loc, node), fs', Operation.ask_eq_ok_iff.mpr ⟨hc, rfl⟩, ?_⟩
    dsimp only
    rw [if_pos (List.isPrefixOf_iff_prefix.mpr hp), Effect.pure_apply]

end Destination

namespace Extraction

open GuardedArchive.Stream (copyFrom copyChunks delivered)

variable {limits : Limits} {dest : Destination} {entry : EntryDescriptor} {name : String}
  {loc : Location} {s s' : Extraction} {fs fs' : FileSystem}

/-! ## Noting a name -/

theorem mem_insertName {t : Tally} {name other : String} :
    other ∈ (t.insertName name).names ↔ other = name ∨ other ∈ t.names := by
  rw [Tally.insertName]
  split
  next h => simp_all
  next => simp

@[simp] theorem insertName_entries (t : Tally) (name : String) :
    (t.insertName name).entries = t.entries := by
  rw [Tally.insertName]
  split <;> rfl

@[simp] theorem insertName_octets (t : Tally) (name : String) :
    (t.insertName name).octets = t.octets := by
  rw [Tally.insertName]
  split <;> rfl

/-! ## Writing a file -/

theorem addOctets_eq_ok {t t' : Tally} {n : Nat} (h : t.addOctets n = .ok t') :
    t' = { t with octets := t.octets + n } := by
  rw [Tally.addOctets] at h
  split at h
  · simp at h
  · exact (Except.ok.inj h).symm

/-- A chunk is written and counted, or nothing but the count changes. -/
theorem acceptChunk_state (limits : Limits) (name : String) (loc : Location) (chunk : Bytes)
    (total : Nat) (s : Extraction) :
    acceptChunk limits name loc chunk total s = (.ok (), { s with
        tally := { s.tally with octets := s.tally.octets + chunk.length }
        files := s.files.append loc chunk })
      ∨ ∃ e octets, acceptChunk limits name loc chunk total s
        = (.error e, { s with tally := { s.tally with octets := octets } }) := by
  rw [acceptChunk]
  split
  next e _ => exact .inr ⟨e, s.tally.octets, rfl⟩
  next =>
    split
    next e _ => exact .inr ⟨e, s.tally.octets, rfl⟩
    next tally ht =>
      obtain rfl := addOctets_eq_ok ht
      split
      next e _ => exact .inr ⟨e, _, rfl⟩
      next => exact .inl rfl

/-- **What a copy into a file leaves there** follows what the file held: all that the reader
delivers where the copy succeeds, and a start of it where it fails. -/
theorem copyFrom_acceptChunk (limits : Limits) (name : String) (hloc : loc ≠ [])
    (reads : List Read) (before : Bytes) (total : Nat)
    (hs : s.files = fs.put loc (.file before)) :
    ∃ written octets, written <+: delivered reads
      ∧ (copyFrom (acceptChunk limits name loc) reads total s).state
        = { s with files := fs.put loc (.file (before ++ written))
                   tally := { s.tally with octets := octets } }
      ∧ ∀ n, (copyFrom (acceptChunk limits name loc) reads total s).result = .ok n →
        written = delivered reads ∧ octets = s.tally.octets + written.length := by
  have hsame : s = { s with files := fs.put loc (.file (before ++ []))
                            tally := { s.tally with octets := s.tally.octets } } := by
    rw [List.append_nil, ← hs]
  induction reads generalizing before total s with
  | nil => exact ⟨[], s.tally.octets, List.nil_prefix, hsame, fun _ _ => ⟨rfl, rfl⟩⟩
  | cons read reads ih =>
    cases read with
    | interrupted => exact ih before total hs hsame
    | failure e => exact ⟨[], s.tally.octets, List.nil_prefix, hsame, fun _ h => by cases h⟩
    | data chunk =>
      rw [copyFrom]
      by_cases hc : chunk.isEmpty
      · rw [if_pos hc]
        exact ⟨[], s.tally.octets, List.nil_prefix, hsame, fun _ _ => by simp [delivered, hc]⟩
      rw [if_neg hc]
      dsimp only
      split
      · exact ⟨[], s.tally.octets, List.nil_prefix, hsame, fun _ h => by cases h⟩
      rcases acceptChunk_state limits name loc chunk (total + chunk.length) s with
        ha | ⟨e, octets, ha⟩
      · rw [ha]
        dsimp only
        have hput : s.files.append loc chunk = fs.put loc (.file (before ++ chunk)) := by
          rw [hs, FileSystem.append_put fs hloc]
        obtain ⟨written, octets, hpre, hstate, hok⟩ := ih (before ++ chunk) (total + chunk.length)
          (s := { s with tally := { s.tally with octets := s.tally.octets + chunk.length }
                         files := s.files.append loc chunk }) hput (by simp [hput])
        refine ⟨chunk ++ written, octets, ?_, ?_, fun n hn => ?_⟩
        · rw [delivered, if_neg hc]
          exact (List.prefix_append_right_inj chunk).mpr hpre
        · rw [hstate, List.append_assoc]
        · obtain ⟨rfl, rfl⟩ := hok n hn
          rw [delivered, if_neg hc, List.length_append]
          exact ⟨rfl, Nat.add_assoc _ _ _⟩
      · rw [ha]
        refine ⟨[], octets, List.nil_prefix, ?_, fun _ h => by cases h⟩
        rw [List.append_nil, ← hs]

/-- **Writing a file** fails at once, or opens it and leaves in it what was delivered. -/
theorem writeFile_cases (limits : Limits) (name : String) (p : Path) (s : Extraction) :
    (∃ e, s.files.create p = .error e ∧ writeFile limits name p s = (.error (.io e), s))
      ∨ ∃ loc fs written octets reader, s.files.create p = .ok (loc, fs)
        ∧ written <+: delivered (s.reader fs)
        ∧ (writeFile limits name p s).2
          = { s with files := s.files.put loc (.file written)
                     tally := { s.tally with octets := octets }
                     reader := reader }
        ∧ ((writeFile limits name p s).1 = .ok () →
          written = delivered (s.reader fs) ∧ octets = s.tally.octets + written.length) := by
  cases hc : s.files.create p with
  | error e => exact .inl ⟨e, rfl, by rw [writeFile, hc]⟩
  | ok opened =>
    obtain ⟨loc, fs⟩ := opened
    obtain ⟨rfl, hloc, -, -⟩ := FileSystem.create_eq_ok hc
    obtain ⟨written, octets, hpre, hstate, hok⟩ := copyFrom_acceptChunk limits name hloc
      (s.reader (s.files.put loc (.file []))) [] 0
      (s := { s with files := s.files.put loc (.file []) }) rfl
    simp only [writeFile, hc, copyChunks]
    generalize copyFrom (acceptChunk limits name loc) (s.reader (s.files.put loc (.file [])))
      0 { s with files := s.files.put loc (.file []) } = copied at hstate hok ⊢
    obtain ⟨result, state, unread⟩ := copied
    refine .inr ⟨loc, _, written, octets, fun _ => unread, rfl, hpre, ?_, fun h => ?_⟩
    · dsimp only at hstate ⊢
      rw [hstate]
      rfl
    · cases result with
      | error e => cases h
      | ok n => exact hok n rfl

/-! ## The ways of an entry -/

/-- The state with the entry's name noted. -/
def noted (s : Extraction) (entry : EntryDescriptor) : Extraction :=
  { s with tally := s.tally.insertName entry.placedName }

/-- The path of the directory that an entry's file stands in. -/
def above (dest : Destination) (entry : EntryDescriptor) : Path :=
  Location.path (dest.base ++ entry.location.dropLast)

/-- **How the handling of an entry ends**, and the state that it leaves. -/
inductive Handles (limits : Limits) (dest : Destination) (entry : EntryDescriptor)
    (s : Extraction) : Except ArchiveError Unit → Extraction → Prop
  | refused {e : ArchiveError} (hj : judge limits dest s.tally.names entry = .error e) :
      Handles limits dest entry s (.error e) s
  | root (hj : judge limits dest s.tally.names entry = .ok .root) :
      Handles limits dest entry s (.ok ()) s
  | noDirectory {e : ArchiveError} {fs : FileSystem}
      (hj : judge limits dest s.tally.names entry
        = .ok (.directory entry.placedName (dest.pathOf entry)))
      (hm : dest.makeDirectoryWithin (dest.pathOf entry) s.files = (.error e, fs)) :
      Handles limits dest entry s (.error e) { s.noted entry with files := fs }
  | directory {fs : FileSystem}
      (hj : judge limits dest s.tally.names entry
        = .ok (.directory entry.placedName (dest.pathOf entry)))
      (hm : dest.makeDirectoryWithin (dest.pathOf entry) s.files = (.ok (), fs)) :
      Handles limits dest entry s (.ok ())
        { s.noted entry with files := fs, directoriesCreated := s.directoriesCreated + 1 }
  | noParent {e : ArchiveError} {fs : FileSystem}
      (hj : judge limits dest s.tally.names entry
        = .ok (.file entry.placedName (dest.pathOf entry)))
      (hm : dest.makeDirectoryWithin (above dest entry) s.files = (.error e, fs)) :
      Handles limits dest entry s (.error e) { s.noted entry with files := fs }
  | notOpened {e : IoError} {fs : FileSystem}
      (hj : judge limits dest s.tally.names entry
        = .ok (.file entry.placedName (dest.pathOf entry)))
      (hm : dest.makeDirectoryWithin (above dest entry) s.files = (.ok (), fs))
      (hc : fs.create (dest.pathOf entry) = .error e) :
      Handles limits dest entry s (.error (.io e)) { s.noted entry with files := fs }
  | cutOff {e : ArchiveError} {fs fs' : FileSystem} {loc : Location} {written : Bytes}
      {octets : Nat} {reader : FileSystem → List Read}
      (hj : judge limits dest s.tally.names entry
        = .ok (.file entry.placedName (dest.pathOf entry)))
      (hm : dest.makeDirectoryWithin (above dest entry) s.files = (.ok (), fs))
      (hc : fs.create (dest.pathOf entry) = .ok (loc, fs'))
      (hw : written <+: delivered (s.reader fs')) :
      Handles limits dest entry s (.error e)
        { s.noted entry with
          files := fs.put loc (.file written)
          tally := { (s.noted entry).tally with octets := octets }
          reader := reader }
  | file {fs fs' : FileSystem} {loc : Location} {reader : FileSystem → List Read}
      (hj : judge limits dest s.tally.names entry
        = .ok (.file entry.placedName (dest.pathOf entry)))
      (hm : dest.makeDirectoryWithin (above dest entry) s.files = (.ok (), fs))
      (hc : fs.create (dest.pathOf entry) = .ok (loc, fs')) :
      Handles limits dest entry s (.ok ())
        { s.noted entry with
          files := fs.put loc (.file (delivered (s.reader fs')))
          tally := { (s.noted entry).tally with
            octets := (s.noted entry).tally.octets + (delivered (s.reader fs')).length }
          filesExtracted := s.filesExtracted + 1
          reader := reader }

theorem onFiles_apply {α : Type} (op : Operation α) (s : Extraction) :
    onFiles op s = ((op s.files).1, { s with files := (op s.files).2 }) := by
  rw [onFiles]
  rcases op s.files with ⟨_ | _, _⟩ <;> rfl

theorem parent?_pathOf (h : entry.location ≠ []) :
    (dest.pathOf entry).parent? = some (above dest entry) := by
  obtain ⟨front, last, hl⟩ := List.eq_nil_or_concat' entry.location |>.resolve_left h
  have hproper : Location.IsProper (dest.base ++ entry.location) :=
    dest.isProper_base.append entry.isProper_location
  rw [Destination.pathOf, above, hl, List.dropLast_concat, ← List.append_assoc]
  rw [hl, ← List.append_assoc] at hproper
  exact Path.parent?_path_concat hproper

theorem extractEntry_apply (limits : Limits) (dest : Destination) (entry : EntryDescriptor)
    (s : Extraction) : extractEntry limits dest entry s
      = match judge limits dest s.tally.names entry with
        | .error e => (.error e, s)
        | .ok .root => (.ok (), s)
        | .ok (.directory name p) => match dest.makeDirectoryWithin p s.files with
          | (.error e, fs) => (.error e, { s with tally := s.tally.insertName name, files := fs })
          | (.ok (), fs) => (.ok (), { s with
              tally := s.tally.insertName name
              files := fs
              directoriesCreated := s.directoriesCreated + 1 })
        | .ok (.file name p) => (makeParent dest p >>= fun _ => writeFile limits entry.name p
            >>= fun _ => checkTotal limits >>= fun _ =>
              .modify fun s => { s with filesExtracted := s.filesExtracted + 1 })
                { s with tally := s.tally.insertName name } := by
  rw [extractEntry, Effect.bind_apply, Effect.look]
  rcases judge limits dest s.tally.names entry with e | ⟨_ | ⟨name, p⟩ | ⟨name, p⟩⟩
  · rfl
  · rfl
  · simp only [Effect.bind_apply, noteName, Effect.modify, onFiles_apply]
    rcases dest.makeDirectoryWithin p s.files with ⟨e | _, fs⟩ <;> rfl
  · rfl

/-- **Handling an entry ends in one of these ways.** -/
theorem extractEntry_handles (limits : Limits) (dest : Destination) (entry : EntryDescriptor)
    (s : Extraction) : Handles limits dest entry s (extractEntry limits dest entry s).1
      (extractEntry limits dest entry s).2 := by
  rw [extractEntry_apply]
  cases hj : judge limits dest s.tally.names entry with
  | error e => exact .refused hj
  | ok placement =>
    have hp := (judge_eq_ok hj).2.2.2
    cases placement with
    | root => exact .root hj
    | directory name p =>
      obtain ⟨-, -, rfl, rfl⟩ := placementOf_eq_directory hp.symm
      dsimp only
      cases hm : dest.makeDirectoryWithin (dest.pathOf entry) s.files with
      | mk result fs =>
        cases result with
        | error e => exact .noDirectory hj hm
        | ok _ => exact .directory hj hm
    | file name p =>
      obtain ⟨hloc, -, rfl, rfl⟩ := placementOf_eq_file hp.symm
      simp only [Effect.bind_apply, makeParent, parent?_pathOf hloc, onFiles_apply]
      cases hm : dest.makeDirectoryWithin (above dest entry) s.files with
      | mk result fs =>
        cases result with
        | error e => exact .noParent hj hm
        | ok _ =>
          dsimp only
          rcases writeFile_cases limits entry.name (dest.pathOf entry)
            { s.noted entry with files := fs } with ⟨e, hc, hw⟩ | ⟨loc, fs', written, octets,
              reader, hc, hpre, hstate, hok⟩
          · rw [noted] at hw
            rw [hw]
            exact .notOpened hj hm hc
          · cases hw : writeFile limits entry.name (dest.pathOf entry)
              { s.noted entry with files := fs } with
            | mk result state =>
              rw [hw] at hstate hok
              obtain rfl := hstate
              rw [noted] at hw
              rw [hw]
              cases result with
              | error e => exact .cutOff hj hm hc hpre
              | ok _ =>
                obtain ⟨rfl, rfl⟩ := hok rfl
                simp only [checkTotal, Effect.look, Effect.modify]
                cases limits.checkTotalSize _ with
                | error e => exact .cutOff hj hm hc hpre
                | ok _ => exact .file hj hm hc

end Extraction

end GuardedArchive
