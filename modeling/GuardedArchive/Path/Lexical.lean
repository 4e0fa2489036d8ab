import GuardedArchive.Path.Basic

/-!
# Path/Lexical — the normal form of a path, and containment

`Path.normalize` drops the pieces that stay and lets each `..` take back the name before it; at the
top directory, and where no name stands before it, a `..` does nothing.  `Path.isWithin` compares
two paths component by component.  `Location.walk` is the same reading of a path in a tree without
links, step by step from a given directory.
-/

namespace GuardedArchive

namespace Path

/-- One part of a path: the top directory, `.` at the start, `..`, or a name. -/
inductive Component
  | root
  | here
  | up
  | name (octets : Name)
deriving DecidableEq, Repr

/-- The component that a step makes, other than at the start of a path. -/
def Component.ofStep? : Step → Option Component
  | .stay => none
  | .up => some .up
  | .into n => some (.name n)

/-- The components of a path, from its start. -/
def components (p : Path) : List Component :=
  (if p.isAbsolute then [.root] else if p.pieces.head? == some dot then [.here] else [])
    ++ p.steps.filterMap Component.ofStep?

/-- The octets of one component. -/
def Component.octets : Component → Bytes
  | .root => []
  | .here => dot
  | .up => dotDot
  | .name n => n

/-- The path spelled with these components. -/
def ofComponents : List Component → Path
  | [.root] => ⟨[slash]⟩
  | cs => ⟨joined (cs.map Component.octets)⟩

/-- Takes back the last component, but not the top directory. -/
def pop (cs : List Component) : List Component :=
  if cs.getLast? = some .root then cs else cs.dropLast

/-- The components without `.`, each `..` having taken back the component before it. -/
def normalComponents (p : Path) : List Component :=
  p.components.foldl
    (fun cs c => match c with
      | .here => cs
      | .up => pop cs
      | c => cs ++ [c])
    []

/-- The normal form of a path. -/
def normalize (p : Path) : Path := ofComponents p.normalComponents

/-- The components of `q` begin those of `p`. -/
def isWithin (p q : Path) : Bool := q.components.isPrefixOf p.components

end Path

/-- The location that the steps lead to from a location, where no name is a link. -/
def Location.walk : Location → List Step → Location
  | here, [] => here
  | here, .stay :: rest => walk here rest
  | here, .up :: rest => walk here.dropLast rest
  | here, .into name :: rest => walk (here ++ [name]) rest

/-- The location that a path names in a tree without links, from a working directory. -/
def Path.locationFrom (here : Location) (p : Path) : Location :=
  Location.walk (if p.isAbsolute then [] else here) p.steps

end GuardedArchive
