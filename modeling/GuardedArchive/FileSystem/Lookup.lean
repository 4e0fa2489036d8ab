import GuardedArchive.Error.Io
import GuardedArchive.FileSystem.Basic

/-!
# FileSystem/Lookup — where a path leads

A path leads from the working directory, or from the top, step by step; every step is taken in a
directory, and a link on the way is replaced by the steps of its target, forty times at most.
`walk` does this; whether a link in the last place is replaced too is up to the caller.  It ends at
a node, or at a free place in a directory.  `canonicalize` asks for each location on the way by its
own path, which may be too long where the path that leads there is not.
-/

namespace GuardedArchive

/-- Where a path leads: to a node, or to a free place in a directory. -/
inductive Place
  | occupied (loc : Location) (node : Node)
  | vacant (loc : Location)
deriving DecidableEq, Repr

/-- The node at a place, with its location. -/
def Place.node : Place → Except IoError (Location × Node)
  | .vacant _ => .error (.system .noEntry)
  | .occupied loc node => .ok (loc, node)

namespace FileSystem

/-- The longest name of one directory entry, in octets. -/
def maxNameLength : Nat := 255

/-- The longest path, in octets. -/
def maxPathLength : Nat := 4095

/-- How many links one path can lead through. -/
def maxLinks : Nat := 40

/-- The steps of a path that is to lead to a node: a slash at the end asks for a directory. -/
def lookupSteps (p : Path) : List Step := if p.endsWithSlash then p.steps ++ [.stay] else p.steps

/-- The steps behind a name want a directory there: they go up at once, or stay to the end. -/
def wantDirectory : List Step → Bool
  | [.stay] => true
  | .stay :: rest => wantDirectory rest
  | .up :: _ => true
  | _ => false

/-- The path of a location is not too long to ask for it; a slash says that a directory is
wanted. -/
def isSpellable (loc : Location) (rest : List Step) : Bool :=
  loc.path.raw.length + (if wantDirectory rest then 1 else 0) ≤ maxPathLength

/-- **Takes the steps from `here`**, through at most `links` links; `spelled` asks that each
location on the way have a path. -/
def walk (fs : FileSystem) (followLast spelled : Bool) :
    Nat → Location → List Step → Except SystemError Place
  | _, here, [] =>
    match fs.node? here with
    | none => .error .noEntry
    | some node => .ok (.occupied here node)
  | links, here, step :: rest =>
    match fs.node? here with
    | none => .error .noEntry
    | some .directory =>
      match step with
      | .stay => walk fs followLast spelled links here rest
      | .up => walk fs followLast spelled links here.dropLast rest
      | .into name =>
        let next := here ++ [name]
        if maxNameLength < name.length ∨ spelled ∧ !isSpellable next rest then .error .nameTooLong
        else match fs.node? next with
        | none => if rest = [] then .ok (.vacant next) else .error .noEntry
        | some (.link target) =>
          if rest = [] ∧ followLast = false then .ok (.occupied next (.link target))
          else match links with
          | 0 => .error .linkLoop
          | links + 1 =>
            walk fs followLast spelled links (if target.isAbsolute then [] else here)
              (lookupSteps target ++ rest)
        | some _ => walk fs followLast spelled links next rest
    | some _ => .error .notDirectory
termination_by links _ steps => (links, steps.length)

/-- A path that the system can be asked about. -/
def checkPath (p : Path) : Except IoError Unit :=
  if p.raw.contains 0 then .error .zeroOctetInPath
  else if p.isEmpty then .error (.system .noEntry)
  else if maxPathLength < p.raw.length then .error (.system .nameTooLong)
  else .ok ()

/-- The place that the given steps of a path lead to, where `spelled` asks for paths on the way. -/
def placeOf (fs : FileSystem) (followLast spelled : Bool) (p : Path) (steps : List Step) :
    Except IoError Place :=
  match checkPath p with
  | .error e => .error e
  | .ok () =>
    let start := if p.isAbsolute then [] else fs.workingDirectory
    match fs.walk followLast spelled maxLinks start steps with
    | .error e => .error (.system e)
    | .ok place => .ok place

/-- The place that the given steps of a path lead to. -/
def resolveSteps (fs : FileSystem) (followLast : Bool) (p : Path) (steps : List Step) :
    Except IoError Place :=
  fs.placeOf followLast false p steps

/-- The place that a path leads to. -/
def resolve (fs : FileSystem) (followLast : Bool) (p : Path) : Except IoError Place :=
  fs.resolveSteps followLast p (lookupSteps p)

/-- The node that a path leads to, with its location. -/
def nodeAt (fs : FileSystem) (followLast : Bool) (p : Path) : Except IoError (Location × Node) :=
  (fs.resolve followLast p).bind Place.node

/-- The node at a path, which may be a link. -/
def lstat (fs : FileSystem) (p : Path) : Except IoError Node := (fs.nodeAt false p).map (·.2)

/-- The node that a path leads to through links. -/
def stat (fs : FileSystem) (p : Path) : Except IoError Node := (fs.nodeAt true p).map (·.2)

/-- A directory stands where the path leads. -/
def isDirectory (fs : FileSystem) (p : Path) : Bool :=
  match fs.stat p with
  | .ok .directory => true
  | _ => false

/-- **The location without links that a path leads to**, with the node there. -/
def canonicalize (fs : FileSystem) (p : Path) : Except IoError (Location × Node) :=
  (fs.placeOf true true p (lookupSteps p)).bind Place.node

/-- The content of the regular file that a path leads to. -/
def read (fs : FileSystem) (followLast : Bool) (p : Path) : Except IoError Bytes :=
  match fs.nodeAt followLast p with
  | .error e => .error e
  | .ok (_, .file content) => .ok content
  | .ok (_, .directory) => .error (.system .isDirectory)
  | .ok (_, .link _) => .error (.system .linkLoop)
  | .ok (_, .pipe) => .ok []

end FileSystem

end GuardedArchive
