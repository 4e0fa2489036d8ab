import GuardedArchive.Access
import GuardedArchive.Proofs.Effect
import GuardedArchive.Proofs.FileSystem.Ways

/-!
# Proofs/Access — a directory to write to is where its path leads

`writableDirectory` adds directories at most, those that are missing on the way of a path that leads
nowhere (`writableDirectory_files`), and what it answers is the canonical location of the path in
the file system that it leaves.
-/

namespace GuardedArchive.Access

open FileSystem (AddsDirectories)

variable {fs fs' : FileSystem} {p : Path} {loc : Location}

theorem canonical_eq_ok_iff {found : Location × Node} :
    canonical fs p = .ok found ↔ fs.canonicalize p = .ok found := mapError_eq_ok_iff

theorem nodeNotLink_eq_ok {node : Node} (h : nodeNotLink fs p = .ok node) :
    fs.lstat p = .ok node ∧ ∀ target, node ≠ .link target := by
  rw [nodeNotLink] at h
  split at h
  next => cases h
  next => cases h
  next => cases h
  next found hlink hl =>
    obtain rfl := Except.ok.inj h
    exact ⟨hl, fun target he => hlink target he⟩

/-- What stands at a path and is no link is what its canonical location holds. -/
theorem canonical_of_lstat {node found : Node} (hl : fs.lstat p = .ok node)
    (hnode : ∀ target, node ≠ .link target) (hc : fs.canonicalize p = .ok (loc, found)) :
    found = node ∧ fs.nodeAt false p = .ok (loc, node) := by
  obtain ⟨at', hn⟩ := FileSystem.lstat_eq_ok_iff.mp hl
  have hthrough := (FileSystem.nodeAt_eq_ok_iff.mp hn).2.followed hnode
  have hcanon := (FileSystem.canonicalize_eq_ok_iff.mp hc).2.unspelled
  obtain ⟨rfl, rfl⟩ := Place.occupied.inj (hcanon.unique hthrough)
  exact ⟨rfl, hn⟩

/-- **A directory that can be written to stands at its canonical location.** -/
theorem existingDirectory_eq_ok (h : existingDirectory fs p = .ok loc) :
    fs.nodeAt false p = .ok (loc, .directory) ∧ fs.canonicalize p = .ok (loc, .directory) := by
  obtain ⟨node, hn, h⟩ := bind_eq_ok_iff.mp h
  obtain ⟨hl, hnode⟩ := nodeNotLink_eq_ok hn
  split at h
  next =>
    obtain ⟨⟨loc', found⟩, hc, he⟩ := bind_eq_ok_iff.mp h
    obtain rfl : loc' = loc := Except.ok.inj he
    have hc := canonical_eq_ok_iff.mp hc
    obtain ⟨rfl, hat⟩ := canonical_of_lstat hl hnode hc
    exact ⟨hat, hc⟩
  next => cases h

/-- A file that can be read stands at its canonical location. -/
theorem readableFile_eq_ok (h : readableFile fs p = .ok loc) :
    ∃ content, fs.canonicalize p = .ok (loc, .file content) := by
  obtain ⟨node, -, h⟩ := bind_eq_ok_iff.mp h
  obtain ⟨⟨loc', found⟩, hc, he⟩ := bind_eq_ok_iff.mp h
  rcases found with _ | content | _ | _ <;> dsimp only at he
  · cases he
  · obtain rfl : loc' = loc := Except.ok.inj he
    exact ⟨content, canonical_eq_ok_iff.mp hc⟩
  · cases he
  · cases he

/-- So does a directory that can be listed. -/
theorem readableDirectory_eq_ok (h : readableDirectory fs p = .ok loc) :
    fs.canonicalize p = .ok (loc, .directory) := by
  obtain ⟨node, -, h⟩ := bind_eq_ok_iff.mp h
  obtain ⟨⟨loc', found⟩, hc, he⟩ := bind_eq_ok_iff.mp h
  rcases found with _ | content | _ | _ <;> dsimp only at he
  · obtain rfl : loc' = loc := Except.ok.inj he
    exact canonical_eq_ok_iff.mp hc
  · cases he
  · cases he
  · cases he

/-- **A path is checked once its directory is there**, or is refused before. -/
theorem writableDirectory_cases (p : Path) (fs : FileSystem) : ∃ fs', AddsDirectories fs fs'
    ∧ (writableDirectory p fs = (existingDirectory fs' p, fs')
      ∨ ∃ e, writableDirectory p fs = (.error e, fs')) := by
  rw [writableDirectory, Effect.bind_apply, Effect.look]
  rcases hl : fs.lstat p with e | node
  · by_cases he : e = .system .noEntry
    · subst he
      refine ⟨(fs.makeTree p).2, fs.makeTree_addsDirectories p, ?_⟩
      simp only [if_true, Effect.bind_apply, Operation.makeTree]
      rcases fs.makeTree p with ⟨e | _, fs'⟩
      · exact .inr ⟨_, rfl⟩
      · exact .inl rfl
    · refine ⟨fs, .refl fs, .inr ⟨.io e, ?_⟩⟩
      split <;> rename_i hm <;> split at hm <;> simp_all
  · exact ⟨fs, .refl fs, .inl rfl⟩

/-- **Directories are made only where nothing stands at the path.** -/
theorem writableDirectory_files (p : Path) (fs : FileSystem) : (writableDirectory p fs).2
    = if fs.lstat p = .error (.system .noEntry) then (fs.makeTree p).2 else fs := by
  rw [writableDirectory, Effect.bind_apply, Effect.look]
  rcases hl : fs.lstat p with e | node
  · by_cases he : e = .system .noEntry
    · subst he
      simp only [if_true, Effect.bind_apply, Operation.makeTree]
      rcases fs.makeTree p with ⟨e | _, fs'⟩ <;> rfl
    · rw [if_neg (by simpa using he)]
      split
      next hm => split at hm <;> simp_all
      next hm => split at hm <;> simp_all
  · rfl

theorem writableDirectory_addsDirectories (p : Path) (fs : FileSystem) :
    AddsDirectories fs (writableDirectory p fs).2 := by
  obtain ⟨fs', ha, h | ⟨e, h⟩⟩ := writableDirectory_cases p fs <;> rw [h] <;> exact ha

/-- What is answered is a directory to write to in the file system that is left. -/
theorem existingDirectory_of_writableDirectory (h : writableDirectory p fs = (.ok loc, fs')) :
    existingDirectory fs' p = .ok loc := by
  obtain ⟨fs₁, -, hw | ⟨e, hw⟩⟩ := writableDirectory_cases p fs <;> rw [hw] at h
  · obtain ⟨he, rfl⟩ := Prod.mk.inj h
    exact he
  · cases h

/-- **The location of a directory to write to is where its path leads through all links.** -/
theorem canonicalize_of_writableDirectory (h : writableDirectory p fs = (.ok loc, fs')) :
    ∃ node, fs'.canonicalize p = .ok (loc, node) :=
  ⟨_, (existingDirectory_eq_ok (existingDirectory_of_writableDirectory h)).2⟩

end GuardedArchive.Access
