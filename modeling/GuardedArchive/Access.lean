import GuardedArchive.Effect

/-!
# Access — the paths that may be read from and written to

Every archive, source and target goes through one of these checks.  The path as given must not name
a link, and the answer is the location without links that it leads to.
-/

namespace GuardedArchive.Access

/-- The node at a path that exists and is no link. -/
def nodeNotLink (fs : FileSystem) (p : Path) : Except ArchiveError Node :=
  match fs.lstat p with
  | .error (.system .noEntry) => .error (.invalidInput (.pathMissing p))
  | .error e => .error (.io e)
  | .ok (.link _) => .error (.violation (.linkPath p))
  | .ok node => .ok node

/-- The location that a path leads to, with the node there. -/
def canonical (fs : FileSystem) (p : Path) : Except ArchiveError (Location × Node) :=
  (fs.canonicalize p).mapError fun e => .io (.notCanonical p e)

/-- **A regular file to read.** -/
def readableFile (fs : FileSystem) (p : Path) : Except ArchiveError Location := do
  let _ ← nodeNotLink fs p
  match ← canonical fs p with
  | (loc, .file _) => pure loc
  | _ => throw (.invalidInput (.notRegularFile p))

/-- **A directory to list.** -/
def readableDirectory (fs : FileSystem) (p : Path) : Except ArchiveError Location := do
  let _ ← nodeNotLink fs p
  match ← canonical fs p with
  | (loc, .directory) => pure loc
  | _ => throw (.invalidInput (.notDirectory p))

/-- A directory to write to, once it is there. -/
def existingDirectory (fs : FileSystem) (p : Path) : Except ArchiveError Location := do
  match ← nodeNotLink fs p with
  | .directory => return (← canonical fs p).1
  | _ => throw (.invalidInput (.notDirectory p))

/-- **A directory to write to**, made with what is missing above it where nothing stands. -/
def writableDirectory (p : Path) : Operation Location := do
  let missing ← .look fun fs => match fs.lstat p with
    | .ok _ => .ok false
    | .error (.system .noEntry) => .ok true
    | .error e => .error (.io e)
  if missing then Operation.makeTree p
  .look fun fs => existingDirectory fs p

end GuardedArchive.Access
