import GuardedArchive.Extraction.Entry
import GuardedArchive.Proofs.Effect
import GuardedArchive.Proofs.Entry.Location

/-!
# Proofs/Extraction/Judging — where an accepted entry goes

An entry that is accepted goes to the path of its location below the destination, and the lexical
containment check lets every such path through (`checkContained_resolve`).  `judge_eq_ok` reads an
acceptance off as the rules it decides: the name passed its check, the location is new or is the
destination itself, and the placement is told by the location and the kind.
-/

namespace GuardedArchive

/-- The location below the destination that an entry stands for. -/
def EntryDescriptor.location (entry : EntryDescriptor) : Location :=
  EntryName.location (EntryName.normalizeSeparators entry.name)

/-- The relative path that an entry is noted under. -/
def EntryDescriptor.placedName (entry : EntryDescriptor) : String :=
  EntryName.sanitizedPath (EntryName.normalizeSeparators entry.name)

theorem EntryDescriptor.isProper_location (entry : EntryDescriptor) : entry.location.IsProper :=
  EntryName.isProper_location _

/-- **Entries are noted under one name exactly where they have one location.** -/
theorem EntryDescriptor.placedName_eq_iff {a b : EntryDescriptor} :
    a.placedName = b.placedName ↔ a.location = b.location := EntryName.sanitizedPath_eq_iff

namespace EntryName

/-- An accepted name is answered with its separators normal. -/
theorem check_eq_ok {limits : Limits} {name normal : String} (h : check limits name = .ok normal) :
    normal = normalizeSeparators name := by
  simp only [check] at h
  split_ifs at h
  exact (Except.ok.inj h).symm

theorem checkDuplicate_eq_ok_iff {seen : List String} {name : String} :
    checkDuplicate seen name = .ok () ↔ name ∉ seen := by
  rw [checkDuplicate]
  split <;> simp_all

end EntryName

namespace Destination

variable (dest : Destination)

/-- The location that the destination's path names where no name is a link; it is the root, where
paths can spell that. -/
def base : Location := dest.path.locationFrom []

theorem isProper_base : dest.base.IsProper := Path.isProper_locationFrom _

theorem base_eq (h : dest.root.IsProper) : dest.base = dest.root := Path.locationFrom_path h

theorem foldl_join : ∀ (segments : List (List Char)) (p : Path), p.isAbsolute →
    (∀ s ∈ segments, Name.IsProper (Bytes.ofChars s)) →
      (segments.foldl (fun p s => p.join (.ofString (String.ofList s))) p).isAbsolute
        ∧ (segments.foldl (fun p s => p.join (.ofString (String.ofList s))) p).locationFrom []
          = p.locationFrom [] ++ segments.map Bytes.ofChars
  | [], p, hp, _ => ⟨hp, (List.append_nil _).symm⟩
  | s :: segments, p, hp, hs => by
    have hn : Name.IsProper (Bytes.ofChars s) := hs s List.mem_cons_self
    have hj : (p.join (.ofString (String.ofList s))).isAbsolute := Path.isAbsolute_join hp hn
    obtain ⟨ha, hl⟩ := foldl_join segments _ hj fun t ht => hs t (List.mem_cons_of_mem _ ht)
    refine ⟨ha, hl.trans ?_⟩
    have hstep : (p.join (.ofString (String.ofList s))).locationFrom []
        = p.locationFrom [] ++ [Bytes.ofChars s] := Path.locationFrom_join hp hn
    rw [hstep, List.map_cons, List.append_assoc, List.singleton_append]

theorem resolve_sanitizedPath (normal : String) :
    (dest.resolve (EntryName.sanitizedPath normal)).isAbsolute
      ∧ (dest.resolve (EntryName.sanitizedPath normal)).locationFrom []
        = dest.base ++ EntryName.location normal := by
  rw [resolve, EntryName.filter_splitOn_sanitizedPath]
  refine foldl_join _ _ (Path.isAbsolute_path _) fun s hs => ?_
  obtain ⟨t, -, rfl⟩ := List.mem_map.mp hs
  exact Segment.isProper_sanitizeChars t

/-- **The containment check lets the path of every sanitized name through**, in its normal form. -/
theorem checkContained_resolve (normal : String) :
    checkContained (dest.resolve (EntryName.sanitizedPath normal)) dest.path
      = .ok (Location.path (dest.base ++ EntryName.location normal)) := by
  obtain ⟨ha, hl⟩ := dest.resolve_sanitizedPath normal
  have hproper := dest.isProper_base.append (EntryName.isProper_location normal)
  have hroot : dest.path.normalize = dest.base.path :=
    Path.normalize_eq_path (Path.isAbsolute_path _)
  rw [checkContained, Path.normalize_eq_path ha, hl, hroot,
    if_pos ((Path.isWithin_path hproper dest.isProper_base).mpr (List.prefix_append _ _))]

/-- The path that an entry goes to. -/
def pathOf (entry : EntryDescriptor) : Path := Location.path (dest.base ++ entry.location)

end Destination

namespace Extraction

variable {limits : Limits} {dest : Destination} {seen : List String} {entry : EntryDescriptor}
  {placement : Placement}

/-- Where an accepted entry goes, by its location and its kind. -/
def placementOf (dest : Destination) (entry : EntryDescriptor) : Placement :=
  if entry.location = [] then .root
  else if entry.isDirectory then .directory entry.placedName (dest.pathOf entry)
  else .file entry.placedName (dest.pathOf entry)

theorem placementOf_eq_root (h : placementOf dest entry = .root) : entry.location = [] := by
  rw [placementOf] at h
  split_ifs at h with hloc
  exact hloc

theorem placementOf_eq_directory {name : String} {p : Path}
    (h : placementOf dest entry = .directory name p) : entry.location ≠ [] ∧ entry.isDirectory
      ∧ name = entry.placedName ∧ p = dest.pathOf entry := by
  rw [placementOf] at h
  split_ifs at h with hloc hd
  obtain ⟨rfl, rfl⟩ : entry.placedName = name ∧ dest.pathOf entry = p := by simpa using h
  exact ⟨hloc, hd, rfl, rfl⟩

theorem placementOf_eq_file {name : String} {p : Path}
    (h : placementOf dest entry = .file name p) : entry.location ≠ [] ∧ ¬entry.isDirectory
      ∧ name = entry.placedName ∧ p = dest.pathOf entry := by
  rw [placementOf] at h
  split_ifs at h with hloc hd
  obtain ⟨rfl, rfl⟩ : entry.placedName = name ∧ dest.pathOf entry = p := by simpa using h
  exact ⟨hloc, hd, rfl, rfl⟩

/-- **What an acceptance says**: the name is in order, a regular file has a location of its own, and
no entry before it was noted under the same name. -/
theorem judge_eq_ok (h : judge limits dest seen entry = .ok placement) :
    EntryName.check limits entry.name = .ok (EntryName.normalizeSeparators entry.name)
      ∧ (entry.location = [] → entry.isDirectory)
      ∧ (entry.location ≠ [] → entry.placedName ∉ seen)
      ∧ placement = placementOf dest entry := by
  rw [judge] at h
  obtain ⟨normal, hcheck, h⟩ := bind_eq_ok_iff.mp h
  obtain ⟨_, -, h⟩ := bind_eq_ok_iff.mp h
  obtain ⟨_, -, h⟩ := bind_eq_ok_iff.mp h
  obtain rfl := EntryName.check_eq_ok hcheck
  have hempty := EntryName.isEmpty_sanitizedPath (EntryName.normalizeSeparators entry.name)
  dsimp only at h
  by_cases hloc : entry.location = []
  · rw [if_pos (hempty.mpr hloc)] at h
    split at h
    next hd =>
      refine ⟨hcheck, fun _ => hd, fun hne => absurd hloc hne, ?_⟩
      rw [placementOf, if_pos hloc]
      exact (Except.ok.inj h).symm
    next => cases h
  · rw [if_neg (mt hempty.mp hloc), dest.checkContained_resolve] at h
    obtain ⟨path, hpath, h⟩ := bind_eq_ok_iff.mp h
    obtain ⟨_, hdup, h⟩ := bind_eq_ok_iff.mp h
    obtain rfl := Except.ok.inj hpath
    have hnew := EntryName.checkDuplicate_eq_ok_iff.mp hdup
    refine ⟨hcheck, fun he => absurd he hloc, fun _ => hnew, ?_⟩
    rw [placementOf, if_neg hloc]
    exact (Except.ok.inj h).symm

end Extraction

end GuardedArchive
