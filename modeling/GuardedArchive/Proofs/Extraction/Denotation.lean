import GuardedArchive.Extraction.Archive
import GuardedArchive.Proofs.Extraction.Handling

/-!
# Proofs/Extraction/Denotation — the tree that entries denote

An entry denotes a file with the octets that its reader delivers, or a directory, at its location
below the root, and a directory at each location above that (`Denotes`).  `Extracted` says that a
directory holds what entries denote and nothing else, and that a report counts them.

One more entry is added by making its directories (`Adds.of_directory`) and writing its file into a
free place (`Adds.of_file`).
-/

namespace GuardedArchive.Extraction

open FileSystem (AddsDirectories Linkless)

/-! ## What entries denote -/

/-- What is declared of an entry, and the octets that its reader delivers. -/
abbrev Exposed := EntryDescriptor × Bytes

/-- **What an entry denotes** at a location below the root. -/
inductive Denotes (entry : Exposed) : Location → Node → Prop
  | file (hf : ¬entry.1.isDirectory) : Denotes entry entry.1.location (.file entry.2)
  | directory (hd : entry.1.isDirectory) : Denotes entry entry.1.location .directory
  | above {loc : Location} (hpre : loc <+: entry.1.location) (hne : loc ≠ entry.1.location) :
      Denotes entry loc .directory

/-- Two file systems are the same but below the root, and at it. -/
def SameOutside (root : Location) (fs fs' : FileSystem) : Prop :=
  ∀ loc, ¬root <+: loc → fs'.node? loc = fs.node? loc

/-- A directory with nothing in it, which its path leads to without links. -/
structure IsEmptyRoot (fs : FileSystem) (root : Location) : Prop where
  proper : root.IsProper
  directory : ∀ above, above <+: root → fs.node? above = some .directory
  empty : ∀ loc, loc ≠ [] → fs.node? (root ++ loc) = none

/-- How many octets the files that entries denote have together. -/
def octetsOf (entries : List Exposed) : Nat :=
  ((entries.filter fun e => !e.1.isDirectory).flatMap (·.2)).length

/-- **The file system is what the entries denote** below the root and what it was outside; no two
entries have one location; and the report counts them.  No count goes beyond `Bytes.maxCount`. -/
structure Extracted (before : FileSystem) (dest : Destination) (entries : List Exposed)
    (report : ExtractionReport) (fs : FileSystem) : Prop where
  root : ∀ above, above <+: dest.root → fs.node? above = some .directory
  tree : ∀ loc node, loc ≠ [] →
    (fs.node? (dest.root ++ loc) = some node ↔ ∃ entry ∈ entries, Denotes entry loc node)
  outside : SameOutside dest.root before fs
  distinct : ((entries.map (·.1.location)).filter (· ≠ [])).Nodup
  target : report.target = dest.path
  entriesProcessed : report.entriesProcessed = min entries.length Bytes.maxCount
  filesExtracted : report.filesExtracted = entries.countP fun e => !e.1.isDirectory
  directoriesCreated : report.directoriesCreated
    = entries.countP fun e => e.1.isDirectory && e.1.location ≠ []
  bytesWritten : report.bytesWritten = octetsOf entries

variable {dest : Destination} {before fs fs' : FileSystem} {entries : List Exposed}
  {entry : Exposed} {report report' : ExtractionReport} {loc : Location}

/-- An entry denotes its node at its location, and directories above that. -/
theorem denotes_iff {node : Node} : Denotes entry loc node
    ↔ loc = entry.1.location ∧ node = (if entry.1.isDirectory then .directory else .file entry.2)
      ∨ (loc <+: entry.1.location ∧ loc ≠ entry.1.location) ∧ node = .directory := by
  constructor
  · intro h
    cases h with
    | file hf => exact .inl ⟨rfl, (if_neg hf).symm⟩
    | directory hd => exact .inl ⟨rfl, (if_pos hd).symm⟩
    | above hpre hne => exact .inr ⟨⟨hpre, hne⟩, rfl⟩
  · rintro (⟨hl, hn⟩ | ⟨⟨hpre, hne⟩, rfl⟩)
    · rw [hl, hn]
      split
      next hd => exact .directory hd
      next hf => exact .file hf
    · exact .above hpre hne

theorem SameOutside.trans {root : Location} {fs'' : FileSystem} (h : SameOutside root fs fs')
    (h' : SameOutside root fs' fs'') : SameOutside root fs fs'' := fun loc hout => by
  rw [h' loc hout, h loc hout]

theorem SameOutside.put {root : Location} (h : SameOutside root fs fs') (hne : root ++ loc ≠ [])
    (node : Node) : SameOutside root fs (fs'.put (root ++ loc) node) := fun l hout => by
  rw [fs'.node?_put hne, if_neg, h l hout]
  rintro rfl
  exact hout (List.prefix_append _ _)

/-- **A directory that a path leads to is an empty root** where nothing stands in it. -/
theorem IsEmptyRoot.of_canonicalize {p : Path} {root : Location}
    (hproper : fs.workingDirectory.IsProper) (hplain : FileSystem.IsPlain fs fs.workingDirectory)
    (hc : fs.canonicalize p = .ok (root, .directory))
    (hempty : ∀ loc, loc ≠ [] → fs.node? (root ++ loc) = none) : IsEmptyRoot fs root where
  proper := by
    have hl := (FileSystem.canonicalize_eq_ok_iff.mp hc).2
    refine hl.isProper ?_ fun name hn => FileSystem.isProper_of_mem_lookupSteps hn
    rw [FileSystem.startOf]
    split
    · exact fun _ hn => absurd hn List.not_mem_nil
    · exact hproper
  directory above hab := by
    have hl := (FileSystem.canonicalize_eq_ok_iff.mp hc).2
    by_cases he : above = root
    · rw [he, hl.node?_eq]
    · refine hl.isPlain ?_ above hab he
      rw [FileSystem.startOf]
      split
      · exact .nil
      · exact hplain
  empty := hempty

/-! ## Ways below the root -/

/-- A location above one below the root is above the root, or below it too. -/
theorem prefix_root_append {root above : Location} (h : above <+: root ++ loc) :
    above <+: root ∨ ∃ rel, above = root ++ rel ∧ rel <+: loc := by
  rcases List.prefix_or_prefix_of_prefix h (List.prefix_append root loc) with hp | ⟨rel, rfl⟩
  · exact .inl hp
  · exact .inr ⟨rel, rfl, (List.prefix_append_right_inj root).mp h⟩

/-- **No link stands on a way below the root.** -/
theorem Extracted.linkless (h : Extracted before dest entries report fs) (loc : Location) :
    Linkless fs (dest.root ++ loc) := by
  intro above hab target hl
  rcases prefix_root_append hab with hr | ⟨rel, rfl, -⟩
  · rw [h.root above hr] at hl
    cases hl
  · by_cases hrel : rel = []
    · rw [hrel, List.append_nil, h.root _ List.prefix_rfl] at hl
      cases hl
    · obtain ⟨entry, -, hd⟩ := (h.tree rel _ hrel).mp hl
      cases hd

/-- A file below the root is that of an entry. -/
theorem Extracted.location_of_file (h : Extracted before dest entries report fs) {content : Bytes}
    (hne : loc ≠ []) (hf : fs.node? (dest.root ++ loc) = some (.file content)) :
    ∃ entry ∈ entries, entry.1.location = loc := by
  obtain ⟨entry, he, hd⟩ := (h.tree loc _ hne).mp hf
  rcases denotes_iff.mp hd with ⟨hl, -⟩ | ⟨-, hn⟩
  · exact ⟨entry, he, hl.symm⟩
  · cases hn

/-- Making a directory below the root makes the directories above it, and nothing else. -/
theorem Extracted.makeDirectoryWithin (hroot : IsEmptyRoot before dest.root)
    (h : Extracted before dest entries report fs) (hloc : loc.IsProper)
    (hm : dest.makeDirectoryWithin (Location.path (dest.root ++ loc)) fs = (.ok (), fs'))
    (l : Location) :
    fs'.node? l = if l <+: dest.root ++ loc then some .directory else fs.node? l :=
  FileSystem.makeTree_linkless (hroot.proper.append hloc) (h.linkless loc)
    (Destination.makeDirectoryWithin_eq_ok_iff.mp hm).1 l

/-- A file below the root is opened at its location, with the directories above it. -/
theorem Extracted.create {d : EntryDescriptor} {fs'' : FileSystem}
    (hroot : IsEmptyRoot before dest.root) (h : Extracted before dest entries report fs)
    (hm : dest.makeDirectoryWithin (Extraction.above dest d) fs = (.ok (), fs'))
    (hc : fs'.create (dest.pathOf d) = .ok (loc, fs'')) : loc = dest.root ++ d.location
      ∧ ∀ l, fs'.node? l
        = if l <+: dest.root ++ d.location.dropLast then some .directory else fs.node? l := by
  have ha := Destination.makeDirectoryWithin_addsDirectories hm
  rw [Extraction.above, dest.base_eq hroot.proper] at hm
  rw [Destination.pathOf, dest.base_eq hroot.proper] at hc
  exact ⟨FileSystem.create_linkless (hroot.proper.append d.isProper_location)
    ((h.linkless d.location).adds ha) hc,
    h.makeDirectoryWithin hroot d.isProper_location.dropLast hm⟩

/-! ## One entry more -/

theorem octetsOf_append (entries : List Exposed) (entry : Exposed) : octetsOf (entries ++ [entry])
    = octetsOf entries + if entry.1.isDirectory then 0 else entry.2.length := by
  rw [octetsOf, octetsOf, List.filter_append, List.flatMap_append, List.length_append]
  cases hd : entry.1.isDirectory <;> simp [hd]

theorem prefix_dropLast_iff {above : Location} (hne : loc ≠ []) :
    above <+: loc.dropLast ↔ above <+: loc ∧ above ≠ loc := by
  obtain ⟨front, last, rfl⟩ := List.eq_nil_or_concat' loc |>.resolve_left hne
  rw [List.dropLast_concat]
  constructor
  · intro h
    refine ⟨h.trans (List.prefix_append _ _), fun he => ?_⟩
    have hlen := h.length_le
    rw [he, List.length_append, List.length_singleton] at hlen
    omega
  · rintro ⟨h, hne⟩
    exact (List.prefix_concat_iff.mp h).resolve_left hne

/-- A change of the files adds what the entry denotes below the root, and nothing else. -/
structure Adds (root : Location) (entry : Exposed) (fs fs' : FileSystem) : Prop where
  upper : ∀ above, above <+: root → fs'.node? above = fs.node? above
  tree : ∀ loc node, loc ≠ [] → (fs'.node? (root ++ loc) = some node
    ↔ fs.node? (root ++ loc) = some node ∨ Denotes entry loc node)
  outside : SameOutside root fs fs'

/-- An entry for the root denotes nothing below it. -/
theorem Adds.of_root (root : Location) (hl : entry.1.location = []) (fs : FileSystem) :
    Adds root entry fs fs where
  upper _ _ := rfl
  tree loc node hne := by
    refine ⟨.inl, fun h => h.resolve_right fun hd => hne ?_⟩
    cases hd with
    | file | directory => exact hl
    | above hpre =>
      rw [hl] at hpre
      exact List.prefix_nil.mp hpre
  outside _ _ := rfl

/-- The directories on a way below the root are added to what is outside of it. -/
theorem outside_of_way {root : Location}
    (hroot : ∀ above, above <+: root → fs.node? above = some .directory)
    (hnode : ∀ l, fs'.node? l = if l <+: root ++ loc then some .directory else fs.node? l)
    {l : Location} (hl : l <+: root ∨ ¬root <+: l) : fs'.node? l = fs.node? l := by
  rw [hnode]
  split
  next hpre =>
    rcases prefix_root_append hpre with hp | ⟨rel, rfl, -⟩
    · exact (hroot l hp).symm
    · rcases hl with hp | hout
      · exact (hroot _ hp).symm
      · exact absurd (List.prefix_append _ _) hout
  next => rfl

/-- **A directory below the root, with those above it, is what its entry denotes.** -/
theorem Adds.of_directory {root : Location} (hd : entry.1.isDirectory)
    (ha : AddsDirectories fs fs')
    (hroot : ∀ above, above <+: root → fs.node? above = some .directory)
    (hnode : ∀ l, fs'.node? l
      = if l <+: root ++ entry.1.location then some .directory else fs.node? l) :
    Adds root entry fs fs' where
  upper above hab := outside_of_way hroot hnode (.inl hab)
  outside loc hout := outside_of_way hroot hnode (.inr hout)
  tree loc node hne := by
    constructor
    · intro hn
      simp only [hnode, List.prefix_append_right_inj] at hn
      split at hn
      next hpre =>
        obtain rfl := Option.some.inj hn
        by_cases he : loc = entry.1.location
        · exact .inr (he ▸ .directory hd)
        · exact .inr (.above hpre he)
      next => exact .inl hn
    · rintro (hn | hn)
      · exact ha.kept hn
      · simp only [hnode, List.prefix_append_right_inj]
        cases hn with
        | file hf => exact absurd hd hf
        | directory => rw [if_pos List.prefix_rfl]
        | above hpre => rw [if_pos hpre]

/-- **A file in a free place below the root, with the directories above it, is what its entry
denotes.** -/
theorem Adds.of_file {root : Location} (hf : ¬entry.1.isDirectory)
    (hne : entry.1.location ≠ []) (ha : AddsDirectories fs fs')
    (hroot : ∀ above, above <+: root → fs.node? above = some .directory)
    (hnode : ∀ l, fs'.node? l
      = if l <+: root ++ entry.1.location.dropLast then some .directory else fs.node? l)
    (hfree : fs.node? (root ++ entry.1.location) = none) :
    Adds root entry fs (fs'.put (root ++ entry.1.location) (.file entry.2)) := by
  have hat : root ++ entry.1.location ≠ [] := by simp [hne]
  have hother : ∀ {l}, (l <+: root ∨ ¬root <+: l) → root ++ entry.1.location ≠ l := by
    rintro _ (hp | hout) rfl
    · have hlen := hp.length_le
      rw [List.length_append] at hlen
      exact hne (List.length_eq_zero_iff.mp (by omega))
    · exact hout (List.prefix_append _ _)
  have hsame : ∀ l, (l <+: root ∨ ¬root <+: l) →
      (fs'.put (root ++ entry.1.location) (.file entry.2)).node? l = fs.node? l := by
    intro l hl
    rw [fs'.node?_put hat, if_neg (hother hl)]
    exact outside_of_way hroot hnode hl
  refine ⟨fun above hab => hsame above (.inl hab), fun loc node _ => ?_,
    fun loc hout => hsame loc (.inr hout)⟩
  simp only [fs'.node?_put hat, List.append_cancel_left_eq]
  simp only [denotes_iff, if_neg hf]
  by_cases he : entry.1.location = loc
  · rw [if_pos he, ← he, hfree]
    simp [eq_comm]
  · rw [if_neg he]
    constructor
    · intro hn
      simp only [hnode, List.prefix_append_right_inj, prefix_dropLast_iff hne] at hn
      split at hn
      next hpre => exact .inr (.inr ⟨hpre, (Option.some.inj hn).symm⟩)
      next => exact .inl hn
    · rintro (hn | ⟨hself, -⟩ | ⟨hpre, rfl⟩)
      · exact ha.kept hn
      · exact absurd hself.symm he
      · simp only [hnode, List.prefix_append_right_inj, prefix_dropLast_iff hne, if_pos hpre]

/-- **With one more entry of a location of its own** the tree, and a report that counts it, are what
the entries denote. -/
theorem Extracted.snoc (h : Extracted before dest entries report fs)
    (hadds : Adds dest.root entry fs fs')
    (hnew : entry.1.location ≠ [] → ∀ e ∈ entries, e.1.location ≠ entry.1.location)
    (htarget : report'.target = report.target)
    (hentries : report'.entriesProcessed = min (report.entriesProcessed + 1) Bytes.maxCount)
    (hfiles : report'.filesExtracted
      = report.filesExtracted + if entry.1.isDirectory then 0 else 1)
    (hdirectories : report'.directoriesCreated
      = report.directoriesCreated + if entry.1.isDirectory && entry.1.location ≠ [] then 1 else 0)
    (hbytes : report'.bytesWritten
      = report.bytesWritten + if entry.1.isDirectory then 0 else entry.2.length) :
    Extracted before dest (entries ++ [entry]) report' fs' where
  root above hab := by rw [hadds.upper above hab, h.root above hab]
  tree loc node hne := by
    rw [hadds.tree loc node hne, h.tree loc node hne]
    simp only [List.mem_append, List.mem_singleton, or_and_right, exists_or, exists_eq_left]
  outside := h.outside.trans hadds.outside
  distinct := by
    rw [List.map_append, List.filter_append]
    refine List.nodup_append.mpr ⟨h.distinct, (List.pairwise_singleton _ _).filter _, ?_⟩
    intro a ha b hb
    obtain ⟨ha, -⟩ := List.mem_filter.mp ha
    obtain ⟨e, he, rfl⟩ := List.mem_map.mp ha
    obtain ⟨hb, hne⟩ := List.mem_filter.mp hb
    have hb : b = entry.1.location := by simpa using hb
    rw [hb] at hne ⊢
    exact hnew (by simpa using hne) e he
  target := htarget.trans h.target
  entriesProcessed := by
    rw [hentries, h.entriesProcessed, List.length_append, List.length_singleton]
    generalize Bytes.maxCount = bound
    omega
  filesExtracted := by
    rw [hfiles, h.filesExtracted, List.countP_append, List.countP_singleton]
    cases entry.1.isDirectory <;> rfl
  directoriesCreated := by
    rw [hdirectories, h.directoriesCreated, List.countP_append, List.countP_singleton]
  bytesWritten := by rw [hbytes, h.bytesWritten, octetsOf_append]

end GuardedArchive.Extraction
