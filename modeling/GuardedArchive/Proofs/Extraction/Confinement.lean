import GuardedArchive.Proofs.Access
import GuardedArchive.Proofs.Extraction.Running

/-!
# Proofs/Extraction/Confinement — no file is touched but the outputs of entries, below the root

A file that an extraction opens for writing is an **output** of an entry (`IsOutput`): it stands in
the destination, with directories only above it, under the last segment of the entry's sanitized
name in the directory that the parent's path leads to.  Nothing that stood anywhere goes away or
changes its kind, and files that are no outputs keep their octets (`extraction_confined`).

This holds for all links there are and wherever the extraction stops: what one turn does
(`Turn.confined`) adds up, as an output stays one while the file system grows (`IsOutput.grows`).
-/

namespace GuardedArchive.Extraction

open FileSystem (AddsDirectories Grows IsPlain)
open Zip (Archive Entry Source)

variable {ι : Type} {limits : Limits} {dest : Destination} {entry : EntryDescriptor}
  {openEntry : ι → FileSystem → Except ArchiveError Entry} {describe : ι → EntryDescriptor}
  {item : ι} {items : List ι} {s s' : Extraction} {result : Except ArchiveError Unit}
  {fs fs' : FileSystem} {loc : Location} {p : Path}

/-! ## Outputs -/

/-- **The file at `loc` is an output of a regular-file entry**: the last segment of the sanitized
name, in the directory in the destination that the path of the entry's parent leads to. -/
structure IsOutput (limits : Limits) (dest : Destination) (fs : FileSystem)
    (entry : EntryDescriptor) (loc : Location) : Prop where
  not_directory : ¬entry.isDirectory
  placed : ∃ normal path above parent segment,
    EntryName.check limits entry.name = .ok normal
      ∧ checkContained (dest.resolve (EntryName.sanitizedPath normal)) dest.path = .ok path
      ∧ path.parent? = some above ∧ fs.canonicalize above = .ok (parent, .directory)
      ∧ (EntryName.cleanSegments normal).getLast? = some segment
      ∧ dest.root <+: parent ∧ loc = parent ++ [Bytes.ofChars segment]
  isPlain : IsPlain fs loc

theorem IsOutput.grows (h : IsOutput limits dest fs entry loc) (hg : Grows fs fs') :
    IsOutput limits dest fs' entry loc where
  not_directory := h.not_directory
  placed := by
    obtain ⟨normal, path, above, parent, segment, hn, hp, ha, hc, hs, hr⟩ := h.placed
    exact ⟨normal, path, above, parent, segment, hn, hp, ha,
      FileSystem.canonicalize_grows hc hg, hs, hr⟩
  isPlain := h.isPlain.grows hg

/-- An output stands strictly below the root. -/
theorem IsOutput.below (h : IsOutput limits dest fs entry loc) :
    dest.root <+: loc ∧ dest.root ≠ loc := by
  obtain ⟨-, -, -, parent, segment, -, -, -, -, -, hr, rfl⟩ := h.placed
  refine ⟨hr.trans (List.prefix_append _ _), fun he => ?_⟩
  have hlen := hr.length_le
  rw [he, List.length_append, List.length_singleton] at hlen
  omega

/-- The turn of an item opens the file at `loc` for writing, in the file system `fs`. -/
def Opens (limits : Limits) (dest : Destination)
    (openEntry : ι → FileSystem → Except ArchiveError Entry) (item : ι) (s : Extraction)
    (fs : FileSystem) (loc : Location) : Prop :=
  ∃ entry fs', openEntry item s.files = .ok entry
    ∧ judge limits dest s.tally.names entry.descriptor
      = .ok (.file entry.descriptor.placedName (dest.pathOf entry.descriptor))
    ∧ dest.makeDirectoryWithin (above dest entry.descriptor) s.files = (.ok (), fs)
    ∧ fs.create (dest.pathOf entry.descriptor) = .ok (loc, fs')

/-- **What is opened for writing is an output** of the entry in hand. -/
theorem Opens.isOutput (hd : Describes openEntry describe)
    (h : Opens limits dest openEntry item s fs loc) :
    IsOutput limits dest fs (describe item) loc := by
  obtain ⟨entry, fs', ho, hj, hm, hc⟩ := h
  rw [← hd item s.files entry ho]
  generalize entry.descriptor = entry at hj hm hc
  obtain ⟨hcheck, -, -, hplace⟩ := judge_eq_ok hj
  obtain ⟨hne, hfile, -, -⟩ := placementOf_eq_file hplace.symm
  obtain ⟨-, parent, node, hcanon, hroot⟩ := Destination.makeDirectoryWithin_eq_ok_iff.mp hm
  obtain ⟨front, last, hloc⟩ := List.eq_nil_or_concat' entry.location |>.resolve_left hne
  have hproper : Location.IsProper (dest.base ++ entry.location) :=
    dest.isProper_base.append entry.isProper_location
  have habove : above dest entry = Location.path (dest.base ++ front) := by
    rw [above, hloc, List.dropLast_concat]
  have hpath : dest.pathOf entry = Location.path (dest.base ++ front ++ [last]) := by
    rw [Destination.pathOf, hloc, List.append_assoc]
  rw [hloc, ← List.append_assoc] at hproper
  rw [habove] at hcanon
  rw [hpath] at hc
  obtain ⟨rfl, hdir⟩ := FileSystem.create_in hproper hcanon hc
  have hleads := (FileSystem.canonicalize_eq_ok_iff.mp hcanon).2
  obtain rfl : node = .directory := by simpa [hdir] using hleads.node?_eq.symm
  -- the names on the way are those of the location, so the last segment is its last name
  obtain ⟨segment, hlast, rfl⟩ : ∃ segment, (EntryName.cleanSegments
      (EntryName.normalizeSeparators entry.name)).getLast? = some segment
        ∧ Bytes.ofChars segment = last := by
    have hget : entry.location.getLast? = some last := by rw [hloc, List.getLast?_concat]
    rwa [EntryDescriptor.location, EntryName.location, List.getLast?_map,
      Option.map_eq_some_iff] at hget
  refine ⟨hfile, ⟨_, dest.pathOf entry, above dest entry, parent, segment, hcheck,
    dest.checkContained_resolve _, parent?_pathOf hne, habove ▸ hcanon, hlast, hroot, rfl⟩, ?_⟩
  rw [FileSystem.startOf_path] at hleads
  exact (hleads.isPlain .nil).snoc hdir _

/-! ## One turn -/

/-- A file system has grown, and its new and changed files are outputs of these entries. -/
structure Confined (limits : Limits) (dest : Destination) (entries : List EntryDescriptor)
    (fs fs' : FileSystem) : Prop where
  grows : Grows fs fs'
  file : ∀ loc content, fs'.node? loc = some (.file content) →
    fs.node? loc = some (.file content) ∨ ∃ entry ∈ entries, IsOutput limits dest fs' entry loc

namespace Confined

variable {entries more : List EntryDescriptor} {fs'' : FileSystem}

theorem of_addsDirectories (entries : List EntryDescriptor) (h : AddsDirectories fs fs') :
    Confined limits dest entries fs fs' where
  grows := h.grows
  file _ _ hf := .inl (h.file_iff.mp hf)

theorem trans (h : Confined limits dest entries fs fs') (h' : Confined limits dest more fs' fs'') :
    Confined limits dest (entries ++ more) fs fs'' where
  grows := h.grows.trans h'.grows
  file loc content hf := by
    rcases h'.file loc content hf with hf | ⟨entry, he, ho⟩
    · rcases h.file loc content hf with hf | ⟨entry, he, ho⟩
      · exact .inl hf
      · exact .inr ⟨entry, List.mem_append_left _ he, ho.grows h'.grows⟩
    · exact .inr ⟨entry, List.mem_append_right _ he, ho⟩

/-- More entries allow more outputs. -/
theorem mono (h : Confined limits dest entries fs fs') (hsub : entries ⊆ more) :
    Confined limits dest more fs fs' where
  grows := h.grows
  file loc content hf := (h.file loc content hf).imp id fun ⟨entry, he, ho⟩ => ⟨entry, hsub he, ho⟩

/-- Writing to an output touches no other file. -/
theorem put (hc : fs.create p = .ok (loc, fs')) (ho : IsOutput limits dest fs entry loc)
    (content : Bytes) : Confined limits dest [entry] fs (fs.put loc (.file content)) where
  grows := FileSystem.create_put_grows hc content
  file other content' hf := by
    rw [fs.node?_put (FileSystem.create_eq_ok hc).2.1] at hf
    split at hf
    next he =>
      subst he
      exact .inr ⟨entry, List.mem_singleton.mpr rfl,
        ho.grows (FileSystem.create_put_grows hc content)⟩
    next => exact .inl hf

end Confined

/-- **One turn touches no file but an output of its entry.** -/
theorem Turn.confined (hd : Describes openEntry describe)
    (h : Turn limits dest openEntry item s result s') :
    Confined limits dest [describe item] s.files s'.files := by
  have hsame : Confined limits dest [describe item] s.files s.files :=
    .of_addsDirectories _ (.refl _)
  cases h with
  | tooMany | unopened => exact hsame
  | @handled entry _ _ hn ho hh =>
    cases hh with
    | refused | root => exact hsame
    | noDirectory hj hm | directory hj hm | noParent hj hm | notOpened hj hm =>
      exact .of_addsDirectories _ (Destination.makeDirectoryWithin_addsDirectories hm)
    | cutOff hj hm hc | file hj hm hc =>
      have hmade := Destination.makeDirectoryWithin_addsDirectories hm
      have hout := Opens.isOutput hd ⟨entry, _, ho, hj, hm, hc⟩
      exact (Confined.of_addsDirectories [] hmade).trans (.put hc hout _)

/-! ## A whole extraction -/

theorem Places.confined (hd : Describes openEntry describe)
    (h : Places limits dest openEntry items s s') :
    Confined limits dest (items.map describe) s.files s'.files := by
  induction h with
  | nil => exact .of_addsDirectories _ (.refl _)
  | cons ht _ ih => exact ((Turn.of_turn ht).confined hd).trans ih

theorem Ends.confined (hd : Describes openEntry describe)
    (h : Ends limits dest openEntry items s result s') :
    Confined limits dest (items.map describe) s.files s'.files := by
  cases h with
  | placed h => exact h.confined hd
  | @stopped done rest item s₁ _ e hitems h ht =>
    refine ((h.confined hd).trans ((Turn.of_turn ht).confined hd)).mono ?_
    rw [hitems, List.map_append, List.map_cons]
    exact List.append_subset.mpr ⟨List.subset_append_left _ _, by simp⟩

/-- In the course of an extraction the file at `loc` is opened for writing, in the file system
`fs`. -/
def OpensDuring (limits : Limits) (dest : Destination)
    (openEntry : ι → FileSystem → Except ArchiveError Entry) (items : List ι) (s : Extraction)
    (fs : FileSystem) (loc : Location) : Prop :=
  SomeTurn limits dest openEntry (fun item s₁ =>
    limits.checkEntryCount s₁.counted.tally.entries = .ok ()
      ∧ Opens limits dest openEntry item s₁ fs loc) items s

/-- What an archive declares of its entries, where it can be opened. -/
def declared (limits : Limits) (source : Source) (fs : FileSystem) : List EntryDescriptor :=
  match Archive.load limits source fs with
  | .error _ => []
  | .ok archive => archive.records.map (·.descriptor)

theorem ofSource_confined (limits : Limits) (dest : Destination) (source : Source)
    (fs : FileSystem) :
    Confined limits dest (declared limits source fs) fs (ofSource limits dest source fs).2 := by
  rw [ofSource_apply, declared]
  cases Archive.load limits source fs with
  | error e => exact .of_addsDirectories _ (.refl _)
  | ok archive =>
    dsimp only
    rw [run_apply]
    have hends := extractEach_ends limits dest archive.openEntry archive.records { files := fs }
    exact hends.confined (describes_openEntry archive)

theorem ofPath_apply (p : Path) (fs : FileSystem) :
    Destination.ofPath p fs = ((Access.writableDirectory p fs).1.map Destination.mk,
      (Access.writableDirectory p fs).2) := by
  rw [Destination.ofPath, Effect.bind_apply]
  rcases Access.writableDirectory p fs with ⟨_ | _, _⟩ <;> rfl

theorem extract_eq {limits : Limits} {archive p : Path} {file root : Location}
    {fs fs' : FileSystem} (hread : Access.readableFile fs archive = .ok file)
    (hdir : Access.writableDirectory p fs = (.ok root, fs')) :
    extract limits archive p fs = ofSource limits ⟨root⟩ (.disk file) fs' := by
  rw [extract, Effect.bind_apply, Effect.look, hread]
  dsimp only
  rw [Effect.bind_apply, ofPath_apply, hdir]
  rfl

/-- **An extraction touches no file but the outputs of its entries, below the root**, whatever the
links and wherever it stops. -/
theorem extraction_confined (limits : Limits) :
    (∀ dest source fs,
      Confined limits dest (declared limits source fs) fs (ofSource limits dest source fs).2
        ∧ ∀ archive fs' loc, Archive.load limits source fs = .ok archive →
          OpensDuring limits dest archive.openEntry archive.records { files := fs } fs' loc →
            ∃ entry ∈ declared limits source fs, IsOutput limits dest fs' entry loc)
      ∧ ∀ archive target fs, AddsDirectories fs (extract limits archive target fs).2
        ∨ ∃ file dest fs₁ node, Destination.ofPath target fs = (.ok dest, fs₁)
          ∧ fs₁.canonicalize target = .ok (dest.root, node)
          ∧ extract limits archive target fs = ofSource limits dest (.disk file) fs₁
          ∧ Confined limits dest (declared limits (.disk file) fs₁) fs
            (extract limits archive target fs).2 := by
  refine ⟨fun dest source fs => ⟨ofSource_confined limits dest source fs, ?_⟩,
    fun archive target fs => ?_⟩
  · rintro archive fs' loc hl ⟨done, r, rest, s₁, hrecords, -, -, ho⟩
    rw [declared, hl]
    refine ⟨r.descriptor, ?_, ho.isOutput (describes_openEntry archive)⟩
    exact List.mem_map.mpr ⟨r, by simp [hrecords], rfl⟩
  · rw [extract, Effect.bind_apply, Effect.look]
    cases Access.readableFile fs archive with
    | error e => exact .inl (.refl _)
    | ok file =>
      have hmade := Access.writableDirectory_addsDirectories target fs
      dsimp only
      rw [Effect.bind_apply, ofPath_apply]
      rcases hw : Access.writableDirectory target fs with ⟨e | root, fs₁⟩ <;> rw [hw] at hmade
      · exact .inl hmade
      · obtain ⟨node, hc⟩ := Access.canonicalize_of_writableDirectory hw
        exact .inr ⟨file, ⟨root⟩, fs₁, node, rfl, hc, rfl,
          (Confined.of_addsDirectories [] hmade).trans
            (ofSource_confined limits ⟨root⟩ (.disk file) fs₁)⟩

end GuardedArchive.Extraction
