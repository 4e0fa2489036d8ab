import GuardedArchive.FileSystem.Lookup

/-!
# FileSystem/Change — making, writing, moving and removing

Each change is a function of the file system that answers the new one.  Nothing that exists is
replaced, except that `create` empties a regular file and that `rename` takes the place of an empty
directory.  `makeTree` makes a directory with what is missing above it, and keeps what it made when
it fails.
-/

namespace GuardedArchive.FileSystem

/-- Makes a directory; its path must lead to a free place. -/
def makeDirectory (fs : FileSystem) (p : Path) : Except IoError FileSystem :=
  match fs.resolveSteps false p p.steps with
  | .error e => .error e
  | .ok (.occupied _ _) => .error (.system .exists)
  | .ok (.vacant loc) => .ok (fs.put loc .directory)

/-- Makes a directory and those that are missing above it; `paths` are it and its parents, nearest
first. -/
def makeTreeOf (fs : FileSystem) : List Path → Except IoError Unit × FileSystem
  | [] => (.error .treeNotCreated, fs)
  | p :: parents =>
    if p.isEmpty then (.ok (), fs)
    else match fs.makeDirectory p with
    | .ok fs' => (.ok (), fs')
    | .error e =>
      if e = .system .noEntry then
        match fs.makeTreeOf parents with
        | (.error e', fs') => (.error e', fs')
        | (.ok (), fs') =>
          match fs'.makeDirectory p with
          | .ok fs'' => (.ok (), fs'')
          | .error e' => if fs'.isDirectory p then (.ok (), fs') else (.error e', fs')
      else if fs.isDirectory p then (.ok (), fs) else (.error e, fs)

/-- **Makes a directory and those that are missing above it.** -/
def makeTree (fs : FileSystem) (p : Path) : Except IoError Unit × FileSystem :=
  fs.makeTreeOf p.ancestors

/-- Opens a regular file for writing, empty, and makes it in a free place; never through a link in
the last place.  A pipe in the way is answered at once, as for a call that does not block; one that
blocks waits until somebody opens the pipe for reading, and no file changes meanwhile. -/
def create (fs : FileSystem) (p : Path) : Except IoError (Location × FileSystem) :=
  if p.endsWithSlash then .error (.system .isDirectory)
  else match fs.resolveSteps false p p.steps with
  | .error e => .error e
  | .ok (.vacant loc) => .ok (loc, fs.put loc (.file []))
  | .ok (.occupied loc (.file _)) => .ok (loc, fs.put loc (.file []))
  | .ok (.occupied _ .directory) => .error (.system .isDirectory)
  | .ok (.occupied _ (.link _)) => .error (.system .linkLoop)
  | .ok (.occupied _ .pipe) => .error (.system .noReader)

/-- The content of the regular file at a location, or nothing. -/
def contentAt (fs : FileSystem) (loc : Location) : Bytes :=
  match fs.node? loc with
  | some (.file content) => content
  | _ => []

/-- Writes octets at the end of the file at a location. -/
def append (fs : FileSystem) (loc : Location) (octets : Bytes) : FileSystem :=
  fs.put loc (.file (fs.contentAt loc ++ octets))

/-- Removes an empty directory. -/
def removeDirectory (fs : FileSystem) (p : Path) : Except IoError FileSystem :=
  match fs.nodeAt false p with
  | .error e => .error e
  | .ok (loc, .directory) =>
    if fs.children loc = [] ∧ loc ≠ [] then .ok (fs.erase loc) else .error (.system .notEmpty)
  | .ok _ => .error (.system .notDirectory)

/-- Removes a file, link or pipe. -/
def removeFile (fs : FileSystem) (p : Path) : Except IoError FileSystem :=
  match fs.nodeAt false p with
  | .error e => .error e
  | .ok (_, .directory) => .error (.system .isDirectory)
  | .ok (loc, _) => .ok (fs.erase loc)

/-- The file system with the tree at `source` moved to `target`. -/
def moveTree (fs : FileSystem) (source target : Location) : FileSystem :=
  { fs with nodes := fs.nodes.map fun e =>
      if source.isPrefixOf e.1 then (target ++ e.1.drop source.length, e.2) else e }

/-- Moves the tree at a location to a path: to a free place, a directory to an empty one, and what
is no directory onto what is none. -/
def rename (fs : FileSystem) (source : Location) (p : Path) : Except IoError FileSystem :=
  match fs.resolveSteps false p p.steps with
  | .error e => .error e
  | .ok (.vacant target) =>
    if source.isPrefixOf target then .error (.system .invalidArgument)
    else .ok (fs.moveTree source target)
  | .ok (.occupied target node) =>
    if source = target then .ok fs
    else match fs.node? source, node with
    | some .directory, .directory =>
      if fs.children target = [] ∧ target ≠ [] then .ok ((fs.erase target).moveTree source target)
      else .error (.system .notEmpty)
    | some .directory, _ => .error (.system .notDirectory)
    | _, .directory => .error (.system .isDirectory)
    | _, _ => .ok ((fs.erase target).moveTree source target)

end GuardedArchive.FileSystem
