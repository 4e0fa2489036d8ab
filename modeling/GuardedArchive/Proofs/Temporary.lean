import GuardedArchive.Proofs.FileSystem.Moving
import GuardedArchive.Temporary

/-!
# Proofs/Temporary — a file under a fresh name, and what its removal leaves

A temporary file is made at a free place (`file_cases`), and its path leads to it from then on,
whatever is written into it (`IsFree.nodeAt`).  So nothing is left of it when it is discarded: the
files are what they were before it was made (`IsFree.discardFile`).
-/

namespace GuardedArchive.Temporary

open FileSystem

variable {fs fs' : FileSystem} {p : Path} {loc : Location}

/-- The first free name is one under which something could be made. -/
theorem firstFree_eq_ok {make : Path → Except IoError FileSystem} {path : Nat → Path} :
    ∀ {count n : Nat}, firstFree make path count n = .ok (p, fs') →
      ∃ m, p = path m ∧ make (path m) = .ok fs'
  | 0, _, h => by cases h
  | count + 1, n, h => by
    rw [firstFree] at h
    split at h
    next fs₁ hm =>
      obtain ⟨rfl, rfl⟩ := Prod.mk.inj (Except.ok.inj h)
      exact ⟨n, rfl, hm⟩
    next =>
      split at h
      · exact firstFree_eq_ok h
      · cases h

/-- The path comes to a free place, and does not ask for a directory there. -/
structure IsFree (fs : FileSystem) (p : Path) (loc : Location) : Prop where
  vacant : fs.resolveSteps false p p.steps = .ok (.vacant loc)
  noSlash : p.endsWithSlash = false

/-- **A file is made where the path comes to a free place.** -/
theorem createNew_eq_ok_iff : createNew fs p = .ok fs'
    ↔ ∃ loc, IsFree fs p loc ∧ fs' = fs.put loc (.file []) := by
  rw [createNew]
  constructor
  · intro h
    split at h
    · cases h
    next hslash =>
      split at h
      · cases h
      · cases h
      next loc hr => exact ⟨loc, ⟨hr, by simpa using hslash⟩, (Except.ok.inj h).symm⟩
  · rintro ⟨loc, ⟨hr, hslash⟩, rfl⟩
    simp only [hslash, hr, Bool.false_eq_true, if_false]

/-- **A temporary file is empty, at a free place**, or nothing is made. -/
theorem file_cases (pre suf : String) (fs : FileSystem) :
    (∃ e, file pre suf fs = (.error e, fs))
      ∨ ∃ p loc, IsFree fs p loc ∧ file pre suf fs = (.ok p, fs.put loc (.file [])) := by
  rw [file, fresh]
  rcases hfirst : firstFree (createNew fs)
    (pathWith (Location.path fs.temporaryDirectory) pre suf) (fs.nodes.length + 1) 0
    with e | ⟨p, fs'⟩
  · exact .inl ⟨_, rfl⟩
  · obtain ⟨n, rfl, hmake⟩ := firstFree_eq_ok hfirst
    obtain ⟨loc, hfree, rfl⟩ := createNew_eq_ok_iff.mp hmake
    exact .inr ⟨_, loc, hfree, rfl⟩

namespace IsFree

theorem node?_eq (h : IsFree fs p loc) : fs.node? loc = none :=
  (placeOf_eq_ok_iff.mp h.vacant).2.vacant.1

theorem ne_nil (h : IsFree fs p loc) : loc ≠ [] := by
  rintro rfl
  cases h.node?_eq

/-- **The path leads to the file that was made**, whatever is in it. -/
theorem nodeAt (h : IsFree fs p loc) (octets : Bytes) (followLast : Bool) :
    (fs.put loc (.file octets)).nodeAt followLast p = .ok (loc, .file octets) := by
  obtain ⟨hc, hl⟩ := placeOf_eq_ok_iff.mp h.vacant
  have hg : Grows fs (fs.put loc (.file octets)) := .put h.ne_nil (h.node?_eq ▸ .file octets)
  have hfile : (fs.put loc (.file octets)).node? loc = some (.file octets) := by
    rw [fs.node?_put h.ne_nil, if_pos rfl]
  refine nodeAt_eq_ok_iff.mpr ⟨hc, ?_⟩
  rw [hg.startOf, lookupSteps, h.noSlash]
  exact hl.fill hg hfile (Node.file_ne_link octets) fun hfollow => absurd hfollow Bool.false_ne_true

/-- **Discarding the file that was made restores what was there before**, whatever was written
into it. -/
theorem discardFile (h : IsFree fs p loc) (octets : Bytes) :
    Temporary.discardFile p (fs.put loc (.file octets)) = fs := by
  have hremove : (fs.put loc (.file octets)).removeFile p = .ok fs := by
    rw [removeFile, h.nodeAt octets false]
    exact congrArg Except.ok (fs.erase_put h.ne_nil h.node?_eq _)
  rw [Temporary.discardFile, hremove]

end IsFree

end GuardedArchive.Temporary
