import GuardedArchive.FileSystem.Lookup

/-!
# FileSystem/Walk — the order in which a tree is walked

Depth first, and by name in each directory, is the order of the locations as lists of names.
`firstFault` is the first thing that stops a walk which follows links, as no walk of an archive
that is being written does.
-/

namespace GuardedArchive.FileSystem

/-- Everything below a location, each directory before what it holds, by name; links are not
followed. -/
def depthFirst (fs : FileSystem) (loc : Location) : List (Location × Node) :=
  (fs.nodes.filterMap fun e =>
    if loc.isPrefixOf e.1 && e.1 != loc then some (e.1.drop loc.length, e.2) else none).mergeSort
    fun a b => decide (a.1 ≤ b.1)

/-- The first fault in a directory whose path leads to `loc`: a path that is too long, a link that
leads nowhere, or one to a directory that the walk is in.  `above` are those, nearest first, and the
walk goes `fuel` deep. -/
def faultBelow (fs : FileSystem) :
    Nat → (above : List (Location × Path)) → Location → Path → Option IoError
  | 0, _, _, _ => none
  | fuel + 1, above, loc, path =>
    let above := (loc, path) :: above
    if maxPathLength < path.raw.length then some (.system .nameTooLong)
    else (fs.children loc).findSome? fun name =>
      let p := path.join ⟨name⟩
      match fs.node? (loc ++ [name]) with
      | some .directory => faultBelow fs fuel above (loc ++ [name]) p
      | some (.link _) =>
        match fs.nodeAt true p with
        | .error e => some e
        | .ok (target, .directory) =>
          match above.find? (·.1 = target) with
          | some ancestor => some (.linkCycle p ancestor.2)
          | none => faultBelow fs fuel above target p
        | .ok _ => none
      | _ => none

/-- **The first fault of a walk that follows links.**  Between two links the walk goes down, and
each link leads to a directory that it is not in, so its depth is bounded by the square of the
nodes. -/
def firstFault (fs : FileSystem) (p : Path) : Option IoError :=
  match fs.nodeAt true p with
  | .error e => some e
  | .ok (loc, .directory) => fs.faultBelow ((fs.nodes.length + 1) * (fs.nodes.length + 1)) [] loc p
  | .ok _ => none

end GuardedArchive.FileSystem
