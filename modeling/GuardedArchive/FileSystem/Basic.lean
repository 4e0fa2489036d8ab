import GuardedArchive.Path.Basic

/-!
# FileSystem/Basic — a tree of directories, files, links and pipes

A file system holds a node at each of its locations.  `node?` looks a location up, `put` and `erase`
change one location and leave every other as it was (`node?_put`, `node?_erase`).  The top directory
is always there.
-/

namespace GuardedArchive

/-- What stands at a location. -/
inductive Node
  | directory
  | file (content : Bytes)
  | link (target : Path)
  | pipe
deriving DecidableEq, Repr

/-- A file tree, with the directory that relative paths start from and the one that holds temporary
files. -/
structure FileSystem where
  nodes : List (Location × Node) := []
  workingDirectory : Location := []
  temporaryDirectory : Location := []
deriving DecidableEq, Repr

namespace FileSystem

/-- The first node stored for a location. -/
def find? (loc : Location) : List (Location × Node) → Option Node
  | [] => none
  | (l, n) :: rest => if l = loc then some n else find? loc rest

/-- The list with `node` stored for `loc`, in the place of what was stored there. -/
def store (loc : Location) (node : Node) : List (Location × Node) → List (Location × Node)
  | [] => [(loc, node)]
  | (l, n) :: rest => if l = loc then (loc, node) :: rest else (l, n) :: store loc node rest

/-- What stands at a location, if anything. -/
def node? (fs : FileSystem) (loc : Location) : Option Node :=
  if loc = [] then some .directory else find? loc fs.nodes

/-- The file system with `node` at `loc`. -/
def put (fs : FileSystem) (loc : Location) (node : Node) : FileSystem :=
  { fs with nodes := store loc node fs.nodes }

/-- The file system with nothing at `loc`. -/
def erase (fs : FileSystem) (loc : Location) : FileSystem :=
  { fs with nodes := fs.nodes.filter fun e => e.1 ≠ loc }

/-- The file system with nothing at `loc` and below. -/
def eraseTree (fs : FileSystem) (loc : Location) : FileSystem :=
  { fs with nodes := fs.nodes.filter fun e => !loc.isPrefixOf e.1 }

theorem find?_store (loc other : Location) (node : Node) : ∀ ns : List (Location × Node),
    find? other (store loc node ns) = if loc = other then some node else find? other ns
  | [] => by simp [store, find?]
  | (l, n) :: rest => by
    by_cases hl : l = loc
    · subst hl; by_cases ho : l = other <;> simp [store, find?, ho]
    · by_cases ho : l = other
      · subst ho; simp [store, find?, hl, Ne.symm hl]
      · simp [store, find?, hl, ho, find?_store loc other node rest]

/-- **Storing a node changes its location and no other.** -/
theorem node?_put (fs : FileSystem) {loc : Location} (h : loc ≠ []) (node : Node)
    (other : Location) :
    (fs.put loc node).node? other = if loc = other then some node else fs.node? other := by
  by_cases ho : other = []
  · subst ho; simp [node?, h]
  · simp [node?, put, ho, find?_store]

theorem find?_filter (keep : Location → Bool) (other : Location) :
    ∀ ns : List (Location × Node),
      find? other (ns.filter fun e => keep e.1) = if keep other then find? other ns else none
  | [] => by simp [find?]
  | (l, n) :: rest => by
    have ih := find?_filter keep other rest
    by_cases hk : keep l <;> by_cases ho : l = other
    · subst ho; simp [find?, hk]
    · simp [find?, hk, ho, ih]
    · subst ho; simp [hk, ih]
    · simp [find?, hk, ho, ih]

/-- **Erasing a location leaves every other as it was.** -/
theorem node?_erase (fs : FileSystem) {loc : Location} (h : loc ≠ []) (other : Location) :
    (fs.erase loc).node? other = if loc = other then none else fs.node? other := by
  by_cases ho : other = []
  · subst ho; simp [node?, h]
  · have := find?_filter (fun l => decide (l ≠ loc)) other fs.nodes
    by_cases hl : loc = other
    · subst hl; simp_all [node?, erase]
    · simp_all [node?, erase, Ne.symm hl]

/-- The names in a directory, in the order of their octets. -/
def children (fs : FileSystem) (loc : Location) : List Name :=
  (fs.nodes.filterMap fun e => if e.1.dropLast = loc then e.1.getLast? else none).mergeSort
    fun a b => decide (a ≤ b)

/-- Everything below a location, as relative locations in the order of their paths. -/
def below (fs : FileSystem) (loc : Location) : List (Location × Node) :=
  (fs.nodes.filterMap fun e =>
    if loc.isPrefixOf e.1 && e.1 != loc then some (e.1.drop loc.length, e.2) else none).mergeSort
    fun a b => decide (Path.joined a.1 ≤ Path.joined b.1)

end FileSystem

end GuardedArchive
