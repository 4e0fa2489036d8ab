import GuardedArchive.Text.Utf8

/-!
# Path/Basic — paths as they are spelled, and the steps they name

A path is the octet string that names a file, kept as it was spelled: `a//b/.` and `a/b` are two
paths.  Cutting it at the slashes gives its pieces; the pieces that are neither empty nor `.` are
the ones that move, and `Path.steps` says how.  `parent?`, `fileName?` and `join` work on the
spelling, so that a message shows the path the caller wrote.
-/

namespace GuardedArchive

/-- The name of one directory entry: any octets but the slash and zero. -/
abbrev Name := Bytes

/-- A place in a file tree without links: the names from the top directory down. -/
abbrev Location := List Name

/-- A path as it is spelled. -/
structure Path where
  raw : Bytes
deriving DecidableEq, Repr

/-- One move of a walk along a path. -/
inductive Step
  | stay
  | up
  | into (name : Name)
deriving DecidableEq, Repr

namespace Path

/-- The octet `/`. -/
def slash : UInt8 := 0x2f

/-- The piece `.`, which stays where it is. -/
def dot : Bytes := [0x2e]

/-- The piece `..`, which goes up. -/
def dotDot : Bytes := [0x2e, 0x2e]

def ofString (s : String) : Path := ⟨Bytes.ofString s⟩

/-- The text of a path, with U+FFFD for what is not UTF-8. -/
def display (p : Path) : String := Utf8.decodeLossy p.raw

def isEmpty (p : Path) : Bool := p.raw.isEmpty

/-- A path that starts at the top directory. -/
def isAbsolute (p : Path) : Bool := p.raw.head? == some slash

/-- A path spelled with a slash at its end. -/
def endsWithSlash (p : Path) : Bool := p.raw.getLast? == some slash

/-- What stands between the slashes. -/
def pieces (p : Path) : List Bytes := p.raw.splitOn slash

/-- Pieces joined by slashes. -/
def joined (ps : List Bytes) : Bytes := [slash].intercalate ps

/-- The move that a piece names, if any. -/
def stepOf (piece : Bytes) : Option Step :=
  if piece = [] then none
  else if piece = dot then some .stay
  else if piece = dotDot then some .up
  else some (.into piece)

/-- The moves that a path names, from its start. -/
def steps (p : Path) : List Step := p.pieces.filterMap stepOf

/-- A piece that is a component of the path wherever it stands. -/
def moves (piece : Bytes) : Bool := piece ≠ [] && piece ≠ dot

/-- The pieces that are kept in front of every parent: the empty one of an absolute path, and the
`.` that starts a relative one. -/
def anchor (p : Path) : List Bytes :=
  if p.isAbsolute || p.pieces.head? == some dot then p.pieces.take 1 else []

/-- The pieces after the anchor, last first, from the last one that moves. -/
def reversedBody (p : Path) : List Bytes :=
  (p.pieces.drop p.anchor.length).reverse.dropWhile (!moves ·)

/-- The path without its last component; a path without components has no parent, and that of a
single `.` is empty. -/
def parent? (p : Path) : Option Path :=
  match p.reversedBody with
  | [] => if p.anchor = [dot] then some ⟨[]⟩ else none
  | _ :: rest =>
    let kept := (rest.dropWhile (!moves ·)).reverse
    if p.isAbsolute then some ⟨slash :: joined kept⟩ else some ⟨joined (p.anchor ++ kept)⟩

/-- The last component, if it is a name. -/
def fileName? (p : Path) : Option Name :=
  match p.reversedBody with
  | [] => none
  | last :: _ => if last = dotDot then none else some last

/-- The path `q` as seen from the directory `p`; an absolute `q` is itself. -/
def join (p q : Path) : Path :=
  if q.isAbsolute then q
  else if p.isEmpty || p.endsWithSlash then ⟨p.raw ++ q.raw⟩
  else ⟨p.raw ++ slash :: q.raw⟩

/-- The path and its parents, nearest first, at most `count` of them. -/
def ancestorsUpTo : Nat → Path → List Path
  | 0, _ => []
  | count + 1, p => p :: (match p.parent? with
    | none => []
    | some q => ancestorsUpTo count q)

/-- The path and all its parents, nearest first. -/
def ancestors (p : Path) : List Path := ancestorsUpTo (p.raw.length + 1) p

end Path

/-- The absolute path of a location. -/
def Location.path (loc : Location) : Path := ⟨Path.slash :: Path.joined loc⟩

end GuardedArchive
