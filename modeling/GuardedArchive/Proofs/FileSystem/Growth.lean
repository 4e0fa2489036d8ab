import GuardedArchive.FileSystem.Change

/-!
# Proofs/FileSystem/Growth — what stands stays what it is

A change **grows** a file system when it only fills free places, with directories and files, and
gives files other content: nothing that stands goes away or turns into something else, and links and
pipes are never made.  Growing is reflexive and transitive, so a sequence of such changes is one
(`Grows.trans`).  `AddsDirectories` is the narrower change that makes directories and nothing else.
-/

namespace GuardedArchive

namespace Node

theorem directory_ne_link (target : Path) : directory ≠ link target := by simp

theorem file_ne_link (content : Bytes) (target : Path) : file content ≠ link target := by simp

end Node

/-- How what stands at a location may change: a free place takes a directory or a file, and a file
takes other content. -/
inductive Node.Grown : Option Node → Option Node → Prop
  | same (node : Option Node) : Grown node node
  | directory : Grown none (some .directory)
  | file (content : Bytes) : Grown none (some (.file content))
  | content (before after : Bytes) : Grown (some (.file before)) (some (.file after))

namespace Node.Grown

theorem trans {a b c : Option Node} (hab : Grown a b) (hbc : Grown b c) : Grown a c := by
  cases hab with
  | same => exact hbc
  | directory =>
    cases hbc
    exact .directory
  | file content =>
    cases hbc with
    | same => exact .file content
    | content _ after => exact .file after
  | content before after =>
    cases hbc with
    | same => exact .content before after
    | content _ last => exact .content before last

/-- A directory, a link or a pipe is what it was. -/
theorem eq_of_not_file {node : Node} {b : Option Node} (h : Grown (some node) b)
    (hf : ∀ content, node ≠ .file content) : b = some node := by
  cases h with
  | same => rfl
  | content before _ => exact absurd rfl (hf before)

/-- Where a file may come to stand, it may hold anything. -/
theorem file_of_file {a : Option Node} {content : Bytes} (h : Grown a (some (.file content)))
    (content' : Bytes) : Grown a (some (.file content')) := by
  cases h with
  | same => exact .content content content'
  | file => exact .file content'
  | content before => exact .content before content'

/-- Where a file came to stand and none stood before, the place was free. -/
theorem eq_none_of_file {a : Option Node} {content : Bytes} (h : Grown a (some (.file content)))
    (hf : ∀ before, a ≠ some (.file before)) : a = none := by
  cases h with
  | same => exact absurd rfl (hf content)
  | file => rfl
  | content before => exact absurd rfl (hf before)

/-- What is free now was free before. -/
theorem eq_none {a : Option Node} (h : Grown a none) : a = none := by
  cases h
  rfl

end Node.Grown

namespace FileSystem

/-- **Nothing that stands goes away or changes its kind**, and no link or pipe is made. -/
structure Grows (fs fs' : FileSystem) : Prop where
  node : ∀ loc, Node.Grown (fs.node? loc) (fs'.node? loc)
  workingDirectory : fs'.workingDirectory = fs.workingDirectory

namespace Grows

variable {fs fs' fs'' : FileSystem} {loc : Location}

theorem refl (fs : FileSystem) : Grows fs fs := ⟨fun _ => .same _, rfl⟩

theorem trans (h : Grows fs fs') (h' : Grows fs' fs'') : Grows fs fs'' where
  node loc := (h.node loc).trans (h'.node loc)
  workingDirectory := h'.workingDirectory.trans h.workingDirectory

theorem put (hloc : loc ≠ []) {node : Node} (h : Node.Grown (fs.node? loc) (some node)) :
    Grows fs (fs.put loc node) where
  node other := by
    rw [node?_put fs hloc]
    split
    next he => exact he ▸ h
    next => exact .same _
  workingDirectory := rfl

theorem directory (h : Grows fs fs') (hd : fs.node? loc = some .directory) :
    fs'.node? loc = some .directory :=
  (hd ▸ h.node loc : Node.Grown _ _).eq_of_not_file fun _ => by simp

theorem link (h : Grows fs fs') {target : Path} (hl : fs.node? loc = some (.link target)) :
    fs'.node? loc = some (.link target) :=
  (hl ▸ h.node loc : Node.Grown _ _).eq_of_not_file fun _ => by simp

theorem free (h : Grows fs fs') (hn : fs'.node? loc = none) : fs.node? loc = none :=
  (hn ▸ h.node loc : Node.Grown _ _).eq_none

/-- What stands is still there, and is a link only if it was that link. -/
theorem occupied (h : Grows fs fs') {node : Node} (hn : fs.node? loc = some node) :
    ∃ node', fs'.node? loc = some node' ∧ ((∀ t, node ≠ .link t) → ∀ t, node' ≠ .link t) := by
  have hg := h.node loc
  rw [hn] at hg
  generalize hm : fs'.node? loc = after at hg
  cases hg with
  | same => exact ⟨node, rfl, id⟩
  | content before after => exact ⟨_, rfl, fun _ _ => by simp⟩

end Grows

/-- Directories are made in free places, and nothing else changes. -/
structure AddsDirectories (fs fs' : FileSystem) : Prop where
  node : ∀ loc, fs'.node? loc = fs.node? loc
    ∨ fs.node? loc = none ∧ fs'.node? loc = some .directory
  workingDirectory : fs'.workingDirectory = fs.workingDirectory

namespace AddsDirectories

variable {fs fs' fs'' : FileSystem} {loc : Location}

theorem refl (fs : FileSystem) : AddsDirectories fs fs := ⟨fun _ => .inl rfl, rfl⟩

theorem trans (h : AddsDirectories fs fs') (h' : AddsDirectories fs' fs'') :
    AddsDirectories fs fs'' where
  node loc := by
    rcases h.node loc with h₁ | ⟨hn, hd⟩ <;> rcases h'.node loc with h₂ | ⟨hn', hd'⟩
    · exact .inl (h₂.trans h₁)
    · exact .inr ⟨h₁ ▸ hn', hd'⟩
    · exact .inr ⟨hn, h₂.trans hd⟩
    · exact .inr ⟨hn, hd'⟩
  workingDirectory := h'.workingDirectory.trans h.workingDirectory

theorem put (hloc : loc ≠ []) (h : fs.node? loc = none) :
    AddsDirectories fs (fs.put loc .directory) where
  node other := by
    rw [node?_put fs hloc]
    split
    next he => exact .inr ⟨he ▸ h, rfl⟩
    next => exact .inl rfl
  workingDirectory := rfl

theorem grows (h : AddsDirectories fs fs') : Grows fs fs' where
  node loc := by
    rcases h.node loc with he | ⟨hn, hd⟩
    · exact he ▸ .same _
    · rw [hn, hd]; exact .directory
  workingDirectory := h.workingDirectory

/-- What stands stays. -/
theorem kept (h : AddsDirectories fs fs') {node : Node} (hn : fs.node? loc = some node) :
    fs'.node? loc = some node := by
  rcases h.node loc with he | ⟨hfree, -⟩
  · exact he.trans hn
  · rw [hn] at hfree
    cases hfree

/-- Files are as they were, and no new ones are there. -/
theorem file_iff (h : AddsDirectories fs fs') {content : Bytes} :
    fs'.node? loc = some (.file content) ↔ fs.node? loc = some (.file content) := by
  rcases h.node loc with he | ⟨hn, hd⟩
  · rw [he]
  · simp [hn, hd]

end AddsDirectories

end FileSystem

end GuardedArchive
