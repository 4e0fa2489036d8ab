import GuardedArchive.Proofs.Extraction.Target
import GuardedArchive.Proofs.FileSystem.OpenWays

/-!
# Proofs/Extraction/Ordinary — where nothing comes near the limits for paths

A location is **spelled** when the system can be asked for its path.  In an **ordinary** file system
whatever stands is spelled, so that what a path leads to has its canonical location
(`IsOrdinary.canonicalize_of_nodeAt`).  A directory is then one to write to where it stands
(`IsOrdinary.existingDirectory`) and where it has just been made (`Fresh.writableDirectory`), and a
file can be read again by the path of its location (`IsOrdinary.readableFile_path`).
-/

namespace GuardedArchive

namespace FileSystem

variable {fs : FileSystem} {p : Path} {loc root : Location} {node : Node}

/-- A location whose path can be asked for, with a slash behind it. -/
structure IsSpelled (loc : Location) : Prop where
  fits : ∀ name ∈ loc, name.length ≤ maxNameLength
  zeroFree : ∀ name ∈ loc, (0 : UInt8) ∉ name
  short : loc.path.raw.length < maxPathLength

instance (loc : Location) : Decidable (IsSpelled loc) :=
  decidable_of_iff ((∀ name ∈ loc, name.length ≤ maxNameLength) ∧ (∀ name ∈ loc, (0 : UInt8) ∉ name)
      ∧ loc.path.raw.length < maxPathLength)
    ⟨fun h => ⟨h.1, h.2.1, h.2.2⟩, fun h => ⟨h.fits, h.zeroFree, h.short⟩⟩

/-- The octet zero is in the path of a location where it is in one of the names. -/
theorem zero_mem_path_iff : (0 : UInt8) ∈ loc.path.raw ↔ ∃ name ∈ loc, (0 : UInt8) ∈ name := by
  rw [Location.path, List.mem_cons, Path.mem_joined_iff (by decide)]
  exact or_iff_right (by decide)

theorem IsSpelled.checkPath (h : IsSpelled loc) : checkPath loc.path = .ok () := by
  refine checkPath_eq_ok_iff.mpr ⟨⟨fun hz => ?_, Path.isEmpty_path loc⟩, h.short.le⟩
  obtain ⟨name, hn, hz⟩ := zero_mem_path_iff.mp hz
  exact h.zeroFree name hn hz

theorem IsSpelled.hasPath (h : IsSpelled loc) : HasPath loc := ⟨h.fits, h.checkPath⟩

/-- **Below a spelled location only the names below decide** if a short path can be asked for. -/
theorem IsSpelled.checkPath_append (h : IsSpelled root)
    (hlen : (Location.path (root ++ loc)).raw.length ≤ maxPathLength) :
    FileSystem.checkPath (Location.path (root ++ loc))
      = if ∃ name ∈ loc, (0 : UInt8) ∈ name then .error .zeroOctetInPath else .ok () := by
  have hzero : (Location.path (root ++ loc)).raw.contains 0 = true
      ↔ ∃ name ∈ loc, (0 : UInt8) ∈ name := by
    rw [List.contains_iff_mem, zero_mem_path_iff]
    constructor
    · rintro ⟨name, hn, hz⟩
      exact ⟨name, (List.mem_append.mp hn).resolve_left fun hm => h.zeroFree name hm hz, hz⟩
    · rintro ⟨name, hn, hz⟩
      exact ⟨name, List.mem_append_right root hn, hz⟩
  simp only [FileSystem.checkPath, hzero, Path.isEmpty_path, if_neg (Nat.not_lt.mpr hlen),
    Bool.false_eq_true, if_false]

/-- **A file system that does not come near the limits**: whatever stands has a path. -/
structure IsOrdinary (fs : FileSystem) : Prop extends IsSound fs where
  spelled : ∀ loc node, fs.node? loc = some node → IsSpelled loc

namespace IsOrdinary

/-- It is enough that what is stored is spelled. -/
theorem of_nodes (hs : IsSound fs) (h : ∀ e ∈ fs.nodes, IsSpelled e.1) : IsOrdinary fs where
  toIsSound := hs
  spelled _ _ hn := of_node?_eq (by decide) h hn

theorem fill (h : IsOrdinary fs) (hf : Fresh fs p root) (hroot : IsSpelled root)
    (hnode : Node.Grown none (some node)) : IsOrdinary (fs.put root node) where
  toIsSound := by
    have hn : fs.node? root = none := by simpa using hf.free []
    exact h.toIsSound.grows (h.tree.put (h.tree.isPlain hf.leads) hf.ne_nil (hn ▸ hnode))
      (.put hf.ne_nil (hn ▸ hnode))
  spelled loc node hn := by
    rw [fs.node?_put hf.ne_nil] at hn
    split at hn
    next he => exact he ▸ hroot
    next => exact h.spelled loc node hn

theorem put (h : IsOrdinary fs) (hf : Fresh fs p root) (hroot : IsSpelled root) :
    IsOrdinary (fs.put root .directory) := h.fill hf hroot .directory

/-- The last name of a path is spelled in a directory, where the location is short. -/
theorem isSpelled_concat {dir : Location} {name : Name} (h : IsOrdinary fs)
    (hd : fs.node? dir = some .directory) (hc : checkPath p = .ok ())
    (hlast : p.steps.getLast? = some (.into name)) (hfit : name.length ≤ maxNameLength)
    (hshort : (Location.path (dir ++ [name])).raw.length < maxPathLength) :
    IsSpelled (dir ++ [name]) := by
  have hdir := h.spelled dir _ hd
  have hzero := zero_not_mem_of_mem_steps hc (List.mem_of_getLast? hlast)
  refine ⟨?_, ?_, hshort⟩
  · simpa [or_imp, forall_and] using ⟨hdir.fits, hfit⟩
  · simpa [or_imp, forall_and] using ⟨hdir.zeroFree, hzero⟩

/-- **What a path leads to has its canonical location.** -/
theorem canonicalize_of_nodeAt (h : IsOrdinary fs) (hat : fs.nodeAt true p = .ok (loc, node)) :
    fs.canonicalize p = .ok (loc, node) := by
  obtain ⟨hc, hl⟩ := nodeAt_eq_ok_iff.mp hat
  exact canonicalize_eq_ok_iff.mpr
    ⟨hc, hl.spell_occupied fun loc node hn => (h.spelled loc node hn).short⟩

/-- What stands behind directories only is found by the path of its location. -/
theorem nodeAt_path (h : IsOrdinary fs) (hloc : loc.IsProper) (hn : fs.node? loc = some node)
    (hnode : ∀ target, node ≠ .link target) (followLast : Bool) :
    fs.nodeAt followLast loc.path = .ok (loc, node) :=
  (h.tree loc node hn).nodeAt hloc (h.spelled loc node hn).hasPath hn hnode followLast

/-- **A directory that a path names is one to write to.** -/
theorem existingDirectory (h : IsOrdinary fs) (hat : fs.nodeAt false p = .ok (loc, .directory)) :
    Access.existingDirectory fs p = .ok loc := by
  obtain ⟨hc, hl⟩ := nodeAt_eq_ok_iff.mp hat
  have hthrough : fs.nodeAt true p = .ok (loc, .directory) :=
    nodeAt_eq_ok_iff.mpr ⟨hc, hl.followed Node.directory_ne_link⟩
  rw [Access.existingDirectory, Access.nodeNotLink, lstat, hat, Access.canonical,
    h.canonicalize_of_nodeAt hthrough]
  rfl

/-- **A file that a path names can be read.** -/
theorem readableFile (h : IsOrdinary fs) {content : Bytes}
    (hat : fs.nodeAt false p = .ok (loc, .file content)) : Access.readableFile fs p = .ok loc := by
  obtain ⟨hc, hl⟩ := nodeAt_eq_ok_iff.mp hat
  have hthrough : fs.nodeAt true p = .ok (loc, .file content) :=
    nodeAt_eq_ok_iff.mpr ⟨hc, hl.followed (Node.file_ne_link content)⟩
  rw [Access.readableFile, Access.nodeNotLink, lstat, hat, Access.canonical,
    h.canonicalize_of_nodeAt hthrough]
  rfl

/-- **A file is read by the path of its location.** -/
theorem readableFile_path (h : IsOrdinary fs) {content : Bytes} (hloc : loc.IsProper)
    (hn : fs.node? loc = some (.file content)) : Access.readableFile fs loc.path = .ok loc :=
  h.readableFile (h.nodeAt_path hloc hn (Node.file_ne_link content) false)

end IsOrdinary

namespace Fresh

/-- A free place with a short path is spelled. -/
theorem isSpelled (hs : IsOrdinary fs) (h : Fresh fs p root)
    (hshort : root.path.raw.length < maxPathLength) : IsSpelled root := by
  obtain ⟨dir, name, rfl, hd, hlast, hfit⟩ := h.leads.vacant_last
  exact hs.isSpelled_concat hd h.check hlast hfit hshort

/-- Nothing stands at a free place. -/
theorem nodeAt_eq_error (h : Fresh fs p root) :
    fs.nodeAt false p = .error (.system .noEntry) := by
  obtain ⟨still, hlook, -⟩ := exists_lookupSteps p
  rw [FileSystem.nodeAt, resolve, hlook]
  by_cases hs : still = []
  · rw [hs, List.append_nil, h.resolveSteps_eq]
    rfl
  · have hpast := h.leads.walk_past hs false
    rw [startOf] at hpast
    rw [resolveSteps, placeOf, h.check]
    dsimp only
    rw [hpast]
    rfl

/-- **A directory is made at a free place**, and nothing is missing above it. -/
theorem makeTree (h : Fresh fs p root) : fs.makeTree p = (.ok (), fs.put root .directory) := by
  have hm : fs.makeDirectory p = .ok (fs.put root .directory) :=
    makeDirectory_eq_ok_iff.mpr ⟨root, h.resolveSteps_eq, rfl⟩
  obtain ⟨parents, hanc⟩ : ∃ parents, p.ancestors = p :: parents := ⟨_, rfl⟩
  rw [FileSystem.makeTree, hanc, makeTreeOf, (checkPath_eq_ok_iff.mp h.check).1.2, hm]
  rfl

/-- **What is made at a free place can be written to.** -/
theorem writableDirectory (hs : IsOrdinary fs) (h : Fresh fs p root) (hroot : IsSpelled root) :
    Access.writableDirectory p fs = (.ok root, fs.put root .directory) := by
  have hd : (fs.put root .directory).node? root = some .directory := by
    rw [fs.node?_put h.ne_nil, if_pos rfl]
  have hmissing : fs.lstat p = .error (.system .noEntry) := by
    rw [lstat, h.nodeAt_eq_error]
    rfl
  rw [Access.writableDirectory, Effect.bind_apply, Effect.look, hmissing]
  dsimp only
  rw [if_pos rfl, Effect.bind_apply, Operation.makeTree, h.makeTree]
  dsimp only
  rw [Effect.look, (hs.put h hroot).existingDirectory (h.nodeAt h.grows hd false)]

end Fresh

/-- Where a directory can be written to, nothing is made for it. -/
theorem writableDirectory_of_existingDirectory (h : Access.existingDirectory fs p = .ok loc) :
    Access.writableDirectory p fs = (.ok loc, fs) := by
  have hstat : fs.lstat p = .ok .directory := by
    rw [lstat, (Access.existingDirectory_eq_ok h).1]
    rfl
  rw [Access.writableDirectory, Effect.bind_apply, Effect.look, hstat]
  exact congrArg (·, fs) h

end FileSystem

end GuardedArchive
