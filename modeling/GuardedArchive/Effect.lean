import GuardedArchive.Error.Basic
import GuardedArchive.FileSystem.Change

/-!
# Effect — steps that change a state and may fail

What a step has done to the state stays when it fails, as with files on a disk.  `Operation` is a
step on a file system.
-/

namespace GuardedArchive

/-- A step that changes a state and answers or fails. -/
def Effect (σ α : Type) : Type := σ → Except ArchiveError α × σ

namespace Effect

variable {σ α β : Type}

instance : Monad (Effect σ) where
  pure a := fun s => (.ok a, s)
  bind x f := fun s => match x s with
    | (.ok a, s') => f a s'
    | (.error e, s') => (.error e, s')

/-- Fails and leaves the state as it is. -/
def fail (e : ArchiveError) : Effect σ α := fun s => (.error e, s)

/-- Answers what a look at the state gives. -/
def look (f : σ → Except ArchiveError α) : Effect σ α := fun s => (f s, s)

/-- Answers a value or an error, whatever the state. -/
def ofExcept (x : Except ArchiveError α) : Effect σ α := fun s => (x, s)

/-- Changes the state. -/
def modify (f : σ → σ) : Effect σ Unit := fun s => (.ok (), f s)

/-- Runs a step, and after a failure of it changes the state. -/
def onFailure (x : Effect σ α) (f : σ → σ) : Effect σ α := fun s =>
  match x s with
  | (.ok a, s') => (.ok a, s')
  | (.error e, s') => (.error e, f s')

@[simp] theorem pure_apply (a : α) (s : σ) : (pure a : Effect σ α) s = (.ok a, s) := rfl

theorem bind_apply (x : Effect σ α) (f : α → Effect σ β) (s : σ) :
    (x >>= f) s = match x s with
      | (.ok a, s') => f a s'
      | (.error e, s') => (.error e, s') := rfl

end Effect

/-- A step on a file system. -/
abbrev Operation (α : Type) : Type := Effect FileSystem α

namespace Operation

variable {α : Type}

/-- Answers what the file system tells, or fails to tell. -/
def ask (f : FileSystem → Except IoError α) : Operation α :=
  .look fun fs => (f fs).mapError .io

/-- Changes the file system, unless that fails. -/
def change (f : FileSystem → Except IoError FileSystem) : Operation Unit := fun fs =>
  match f fs with
  | .ok fs' => (.ok (), fs')
  | .error e => (.error (.io e), fs)

/-- Makes a directory and those that are missing above it. -/
def makeTree (p : Path) : Operation Unit := fun fs =>
  match fs.makeTree p with
  | (.ok (), fs') => (.ok (), fs')
  | (.error e, fs') => (.error (.io e), fs')

end Operation

end GuardedArchive
