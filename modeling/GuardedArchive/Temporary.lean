import GuardedArchive.Effect

/-!
# Temporary — files and directories under fresh names

A fresh name is a prefix, a tag of six letters and a suffix; the first tag that is free is taken.
What is made belongs to its owner alone.
-/

namespace GuardedArchive.Temporary

/-- The permissions of a temporary file. -/
def fileMode : Nat := 0o600

/-- The permissions of a temporary directory. -/
def directoryMode : Nat := 0o700

/-- How many letters a tag has. -/
def tagLength : Nat := 6

/-- A number in letters, low digit first; `length` of them. -/
def letters : Nat → Nat → Bytes
  | 0, _ => []
  | length + 1, n => UInt8.ofNat (0x61 + n % 26) :: letters length (n / 26)

/-- The tag with a number. -/
def tag (n : Nat) : Bytes := letters tagLength n

/-- The path of a name with a tag in a directory. -/
def pathWith (directory : Path) (pre suf : String) (n : Nat) : Path :=
  directory.join ⟨Bytes.ofString pre ++ tag n ++ Bytes.ofString suf⟩

/-- Makes a new regular file in a free place. -/
def createNew (fs : FileSystem) (p : Path) : Except IoError FileSystem :=
  if p.endsWithSlash then .error (.system .isDirectory)
  else match fs.resolveSteps false p p.steps with
  | .error e => .error e
  | .ok (.occupied _ _) => .error (.system .exists)
  | .ok (.vacant loc) => .ok (fs.put loc (.file []))

/-- Tries the names with the tags from `n` on, `count` of them, until one is free. -/
def firstFree (make : Path → Except IoError FileSystem) (path : Nat → Path) :
    Nat → Nat → Except IoError (Path × FileSystem)
  | 0, _ => .error (.system .exists)
  | count + 1, n =>
    match make (path n) with
    | .ok fs => .ok (path n, fs)
    | .error e =>
      if e = .system .exists then firstFree make path count (n + 1) else .error e

/-- Makes something under the first free name. -/
def fresh (make : FileSystem → Path → Except IoError FileSystem) (path : Nat → Path) :
    Operation Path := fun fs =>
  match firstFree (make fs) path (fs.nodes.length + 1) 0 with
  | .ok (p, fs') => (.ok p, fs')
  | .error e => (.error (.io e), fs)

/-- Makes an empty file in the directory for temporary files. -/
def file (pre suf : String) : Operation Path := fun fs =>
  fresh createNew (pathWith (Location.path fs.temporaryDirectory) pre suf) fs

/-- Makes an empty directory in the directory for temporary files. -/
def directory (pre : String) : Operation Path := fun fs =>
  fresh FileSystem.makeDirectory (pathWith (Location.path fs.temporaryDirectory) pre "") fs

/-- Makes an empty directory in a given one, under an absolute path. -/
def stagingIn (parent : Path) (pre : String) : Operation Path := fun fs =>
  let absolute := (Location.path fs.workingDirectory).join parent
  fresh FileSystem.makeDirectory (pathWith absolute pre "") fs

/-- Removes a file; nothing happens where none can be removed. -/
def discardFile (p : Path) (fs : FileSystem) : FileSystem :=
  match fs.removeFile p with
  | .ok fs' => fs'
  | .error _ => fs

/-- Removes a directory with all that is below it; nothing happens where none stands. -/
def discardTree (p : Path) (fs : FileSystem) : FileSystem :=
  match fs.nodeAt false p with
  | .ok (loc, .directory) => fs.eraseTree loc
  | _ => fs

end GuardedArchive.Temporary
