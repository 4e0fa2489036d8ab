import GuardedArchive.Proofs.FileSystem.Growth
import GuardedArchive.Proofs.Path.Spelling

/-!
# Proofs/FileSystem/Resolution — where a walk leads, rule by rule

`Leads` says by rules what `walk` computes: `walk_eq_ok_iff` has a walk answer a place exactly where
the rules lead there.  A walk that leads to a node leads there in every file system that has grown
out of the first (`Leads.grows`), and the places it answers are **free of links**: only directories
stand above them (`Leads.isPlain`).  `Leads.append` takes a walk up where another one ended, so that
what a path leads to is what its last name is in the directory that its parent leads to.
-/

namespace GuardedArchive

/-- The location of a place. -/
def Place.location : Place → Location
  | .occupied loc _ => loc
  | .vacant loc => loc

namespace FileSystem

/-- A name that a walk can take: not too long, and with a path of its own where one is asked for. -/
def Fits (spelled : Bool) (next : Location) (name : Name) (rest : List Step) : Prop :=
  ¬(maxNameLength < name.length ∨ spelled = true ∧ (!isSpellable next rest) = true)

theorem Fits.unspelled {spelled : Bool} {next : Location} {name : Name} {rest : List Step}
    (h : Fits spelled next name rest) (rest' : List Step) : Fits false next name rest' := by
  simp only [Fits, not_or] at h ⊢
  exact ⟨h.1, by simp⟩

/-- **Where steps lead from a location**, through at most so many links. -/
inductive Leads (fs : FileSystem) (followLast spelled : Bool) :
    Nat → Location → List Step → Place → Prop
  | done {links : Nat} {here : Location} {node : Node} (h : fs.node? here = some node) :
      Leads fs followLast spelled links here [] (.occupied here node)
  | stay {links : Nat} {here : Location} {rest : List Step} {place : Place}
      (hd : fs.node? here = some .directory)
      (h : Leads fs followLast spelled links here rest place) :
      Leads fs followLast spelled links here (.stay :: rest) place
  | up {links : Nat} {here : Location} {rest : List Step} {place : Place}
      (hd : fs.node? here = some .directory)
      (h : Leads fs followLast spelled links here.dropLast rest place) :
      Leads fs followLast spelled links here (.up :: rest) place
  | free {links : Nat} {here : Location} {name : Name} (hd : fs.node? here = some .directory)
      (hfit : Fits spelled (here ++ [name]) name []) (hn : fs.node? (here ++ [name]) = none) :
      Leads fs followLast spelled links here [.into name] (.vacant (here ++ [name]))
  | link {links : Nat} {here : Location} {name : Name} {target : Path}
      (hd : fs.node? here = some .directory) (hfit : Fits spelled (here ++ [name]) name [])
      (hl : fs.node? (here ++ [name]) = some (.link target)) (hlast : followLast = false) :
      Leads fs followLast spelled links here [.into name]
        (.occupied (here ++ [name]) (.link target))
  | follow {links : Nat} {here : Location} {name : Name} {rest : List Step} {target : Path}
      {place : Place} (hd : fs.node? here = some .directory)
      (hfit : Fits spelled (here ++ [name]) name rest)
      (hl : fs.node? (here ++ [name]) = some (.link target))
      (hmore : ¬(rest = [] ∧ followLast = false))
      (h : Leads fs followLast spelled links (if target.isAbsolute then [] else here)
        (lookupSteps target ++ rest) place) :
      Leads fs followLast spelled (links + 1) here (.into name :: rest) place
  | into {links : Nat} {here : Location} {name : Name} {rest : List Step} {node : Node}
      {place : Place} (hd : fs.node? here = some .directory)
      (hfit : Fits spelled (here ++ [name]) name rest)
      (hn : fs.node? (here ++ [name]) = some node) (hlink : ∀ target, node ≠ .link target)
      (h : Leads fs followLast spelled links (here ++ [name]) rest place) :
      Leads fs followLast spelled links here (.into name :: rest) place

variable {fs fs' : FileSystem} {followLast spelled : Bool} {links : Nat} {here loc : Location}
  {steps : List Step} {place : Place} {node : Node}

theorem Leads.of_walk (h : fs.walk followLast spelled links here steps = .ok place) :
    Leads fs followLast spelled links here steps place := by
  fun_induction walk fs followLast spelled links here steps with
  | case1 | case3 | case6 | case8 | case10 | case13 => cases h
  | case2 links here node hn =>
    cases h
    exact .done hn
  | case4 links here rest hd ih => exact .stay hd (ih h)
  | case5 links here rest hd ih => exact .up hd (ih h)
  | case7 links here hd name next hn hfit =>
    cases h
    exact .free hd hfit hn
  | case9 links here rest hd name next hfit target hl hlast =>
    obtain ⟨rfl, hlast⟩ := hlast
    cases h
    exact .link hd hfit hl hlast
  | case11 here rest hd name next hfit target hl hmore links ih =>
    exact .follow hd hfit hl hmore (ih h)
  | case12 links here rest hd name next hfit node hlink hn ih =>
    exact .into hd hfit hn hlink (ih h)

theorem Leads.walk_eq (h : Leads fs followLast spelled links here steps place) :
    fs.walk followLast spelled links here steps = .ok place := by
  induction h with
  | done h => rw [walk, h]
  | stay hd _ ih => rw [walk, hd]; exact ih
  | up hd _ ih => rw [walk, hd]; exact ih
  | free hd hfit hn =>
    rw [walk, hd]
    simp only [hn, if_neg hfit, if_true]
  | link hd hfit hl hlast =>
    rw [walk, hd]
    simp only [hl, if_neg hfit, hlast, and_self, if_true]
  | follow hd hfit hl hmore _ ih =>
    rw [walk, hd]
    simp only [hl, if_neg hfit, if_neg hmore]
    exact ih
  | @into links here name rest node place hd hfit hn hlink _ ih =>
    rw [walk, hd]
    simp only [if_neg hfit]
    cases node with
    | link target => exact absurd rfl (hlink target)
    | directory | file | pipe => simp only [hn]; exact ih

/-- **A walk answers a place exactly where the rules lead there.** -/
theorem walk_eq_ok_iff : fs.walk followLast spelled links here steps = .ok place
    ↔ Leads fs followLast spelled links here steps place :=
  ⟨.of_walk, Leads.walk_eq⟩

namespace Leads

/-- The rules lead to one place at most. -/
theorem unique {place' : Place} (h : Leads fs followLast spelled links here steps place)
    (h' : Leads fs followLast spelled links here steps place') : place = place' := by
  have he := h.walk_eq.symm.trans h'.walk_eq
  simpa using he

/-- The node at an occupied place is the one that stands there. -/
theorem node?_eq (h : Leads fs followLast spelled links here steps (.occupied loc node)) :
    fs.node? loc = some node := by
  generalize hp : Place.occupied loc node = place at h
  induction h with
  | done h =>
    cases hp
    exact h
  | link _ _ hl _ =>
    cases hp
    exact hl
  | free => cases hp
  | stay _ _ ih | up _ _ ih | follow _ _ _ _ _ ih | into _ _ _ _ _ ih => exact ih hp

/-- A free place is a name in a directory where nothing of that name stands. -/
theorem vacant (h : Leads fs followLast spelled links here steps (.vacant loc)) :
    fs.node? loc = none ∧ ∃ dir name, loc = dir ++ [name] ∧ fs.node? dir = some .directory := by
  generalize hp : Place.vacant loc = place at h
  induction h with
  | free hd _ hn =>
    cases hp
    exact ⟨hn, _, _, rfl, hd⟩
  | done | link => cases hp
  | stay _ _ ih | up _ _ ih | follow _ _ _ _ _ ih | into _ _ _ _ _ ih => exact ih hp

/-- **What a walk leads to, it leads to in a file system that has grown**, where the node may have
other content. -/
theorem grows (h : Leads fs followLast spelled links here steps (.occupied loc node))
    (hg : Grows fs fs') :
    ∃ node', Leads fs' followLast spelled links here steps (.occupied loc node') := by
  generalize hp : Place.occupied loc node = place at h
  induction h with
  | done h =>
    cases hp
    obtain ⟨node', hn', -⟩ := hg.occupied h
    exact ⟨node', .done hn'⟩
  | stay hd _ ih => exact (ih hp).imp fun _ h' => .stay (hg.directory hd) h'
  | up hd _ ih => exact (ih hp).imp fun _ h' => .up (hg.directory hd) h'
  | free => cases hp
  | link hd hfit hl hlast =>
    cases hp
    exact ⟨_, .link (hg.directory hd) hfit (hg.link hl) hlast⟩
  | follow hd hfit hl hmore _ ih =>
    exact (ih hp).imp fun _ h' => .follow (hg.directory hd) hfit (hg.link hl) hmore h'
  | into hd hfit hn hlink _ ih =>
    obtain ⟨node', hn', hlink'⟩ := hg.occupied hn
    exact (ih hp).imp fun _ h' => .into (hg.directory hd) hfit hn' (hlink' hlink) h'

/-- A walk that asks for paths on its way leads where one that does not leads. -/
theorem unspelled (h : Leads fs followLast spelled links here steps place) :
    Leads fs followLast false links here steps place := by
  induction h with
  | done h => exact .done h
  | stay hd _ ih => exact .stay hd ih
  | up hd _ ih => exact .up hd ih
  | free hd hfit hn => exact .free hd (hfit.unspelled _) hn
  | link hd hfit hl hlast => exact .link hd (hfit.unspelled _) hl hlast
  | follow hd hfit hl hmore _ ih => exact .follow hd (hfit.unspelled _) hl hmore ih
  | into hd hfit hn hlink _ ih => exact .into hd (hfit.unspelled _) hn hlink ih

end Leads

/-! ## Locations without links above them -/

/-- Only directories stand above the location, so that it is where its names lead by themselves. -/
def IsPlain (fs : FileSystem) (loc : Location) : Prop :=
  ∀ above, above <+: loc → above ≠ loc → fs.node? above = some .directory

namespace IsPlain

theorem nil : IsPlain fs [] := fun _ h hne => absurd (List.prefix_nil.mp h) hne

theorem dropLast (h : IsPlain fs loc) : IsPlain fs loc.dropLast := fun above ha hne => by
  refine h above (ha.trans (List.dropLast_prefix loc)) fun he => hne ?_
  have hle : loc.length ≤ loc.dropLast.length := he ▸ ha.length_le
  exact he.trans ((List.dropLast_prefix loc).eq_of_length_le hle).symm

theorem snoc (h : IsPlain fs loc) (hd : fs.node? loc = some .directory) (name : Name) :
    IsPlain fs (loc ++ [name]) := fun above ha hne => by
  rcases List.prefix_concat_iff.mp ha with he | ha
  · exact absurd he hne
  · by_cases he : above = loc
    · exact he ▸ hd
    · exact h above ha he

theorem grows (h : IsPlain fs loc) (hg : Grows fs fs') : IsPlain fs' loc :=
  fun above ha hne => hg.directory (h above ha hne)

end IsPlain

/-- **Only directories stand above the place that a walk answers.** -/
theorem Leads.isPlain (h : Leads fs followLast spelled links here steps place)
    (hh : IsPlain fs here) : IsPlain fs place.location := by
  induction h with
  | done => exact hh
  | stay _ _ ih => exact ih hh
  | up _ _ ih => exact ih hh.dropLast
  | free hd | link hd => exact hh.snoc hd _
  | follow _ _ _ _ _ ih =>
    refine ih ?_
    split
    · exact .nil
    · exact hh
  | into hd _ _ _ _ ih => exact ih (hh.snoc hd _)

theorem isProper_of_mem_lookupSteps {p : Path} {name : Name} (h : Step.into name ∈ lookupSteps p) :
    Name.IsProper name := by
  rw [lookupSteps] at h
  split at h
  · exact Path.isProper_of_mem_steps (by simpa using h)
  · exact Path.isProper_of_mem_steps h

/-- **A walk along proper names answers a place of proper names**, whatever links it follows. -/
theorem Leads.isProper (h : Leads fs followLast spelled links here steps place)
    (hhere : here.IsProper) (hsteps : ∀ name, Step.into name ∈ steps → Name.IsProper name) :
    place.location.IsProper := by
  have hnext : ∀ {here : Location} {name : Name}, here.IsProper → Name.IsProper name →
      (here ++ [name]).IsProper := fun hh hn => hh.append fun _ hm => List.mem_singleton.mp hm ▸ hn
  induction h with
  | done => exact hhere
  | stay _ _ ih => exact ih hhere fun name hn => hsteps name (List.mem_cons_of_mem _ hn)
  | up _ _ ih => exact ih hhere.dropLast fun name hn => hsteps name (List.mem_cons_of_mem _ hn)
  | free | link => exact hnext hhere (hsteps _ List.mem_cons_self)
  | follow _ _ _ _ _ ih =>
    refine ih ?_ fun name hn => ?_
    · split
      · exact fun _ hn => absurd hn List.not_mem_nil
      · exact hhere
    · rcases List.mem_append.mp hn with hn | hn
      · exact isProper_of_mem_lookupSteps hn
      · exact hsteps name (List.mem_cons_of_mem _ hn)
  | into _ _ _ _ _ ih =>
    exact ih (hnext hhere (hsteps _ List.mem_cons_self))
      fun name hn => hsteps name (List.mem_cons_of_mem _ hn)

/-! ## One walk behind another -/

/-- **A walk goes on where the walk along its first steps ended**, with the links that are left. -/
theorem Leads.walk_append {dir : Location}
    (h : Leads fs true spelled links here steps (.occupied dir node)) {more : List Step}
    (hmore : more ≠ []) : ∃ left, ∀ followLast,
      fs.walk followLast false links here (steps ++ more)
        = fs.walk followLast false left dir more := by
  generalize hp : Place.occupied dir node = place at h
  induction h with
  | done =>
    cases hp
    exact ⟨_, fun _ => rfl⟩
  | stay hd _ ih =>
    refine (ih hp).imp fun _ h' followLast => ?_
    rw [List.cons_append, walk, hd]
    exact h' followLast
  | up hd _ ih =>
    refine (ih hp).imp fun _ h' followLast => ?_
    rw [List.cons_append, walk, hd]
    exact h' followLast
  | free => cases hp
  | link _ _ _ hlast => cases hlast
  | @follow links here name rest target place hd hfit hl _ _ ih =>
    have hne : ∀ followLast, ¬(rest ++ more = [] ∧ followLast = false) := by simp [hmore]
    refine (ih hp).imp fun _ h' followLast => ?_
    rw [List.cons_append, walk, hd]
    simp only [hl, if_neg (hfit.unspelled _ : Fits false _ name (rest ++ more)),
      if_neg (hne followLast), ← List.append_assoc]
    exact h' followLast
  | @into links here name rest node place hd hfit hn hlink _ ih =>
    refine (ih hp).imp fun _ h' followLast => ?_
    rw [List.cons_append, walk, hd]
    simp only [if_neg (hfit.unspelled _ : Fits false _ name (rest ++ more))]
    cases node with
    | link target => exact absurd rfl (hlink target)
    | directory | file | pipe => simp only [hn]; exact h' followLast

/-- **A name behind a walk is looked up in the directory that the walk leads to**, and a link of
that name is not followed. -/
theorem Leads.child {dir : Location} {name : Name}
    (h : Leads fs true spelled links here steps (.occupied dir node))
    (h' : Leads fs false false links here (steps ++ [.into name]) place) :
    place.location = dir ++ [name] ∧ fs.node? dir = some .directory := by
  obtain ⟨left, hw⟩ := h.walk_append (List.cons_ne_nil (.into name) [])
  have hl := Leads.of_walk ((hw false).symm.trans h'.walk_eq)
  cases hl with
  | free hd => exact ⟨rfl, hd⟩
  | link hd => exact ⟨rfl, hd⟩
  | follow _ _ _ hmore => exact absurd ⟨rfl, rfl⟩ hmore
  | into hd _ _ _ hl =>
    cases hl
    exact ⟨rfl, hd⟩

/-! ## Places of paths -/

/-- The location that a walk along a path starts from. -/
def startOf (fs : FileSystem) (p : Path) : Location :=
  if p.isAbsolute then [] else fs.workingDirectory

theorem Grows.startOf (h : Grows fs fs') (p : Path) : fs'.startOf p = fs.startOf p := by
  rw [FileSystem.startOf, FileSystem.startOf, h.workingDirectory]

variable {p : Path}

theorem placeOf_eq_ok_iff : fs.placeOf followLast spelled p steps = .ok place
    ↔ checkPath p = .ok () ∧ Leads fs followLast spelled maxLinks (fs.startOf p) steps place := by
  rw [placeOf, ← walk_eq_ok_iff, startOf]
  cases checkPath p with
  | error e => simp
  | ok _ =>
    dsimp only
    cases fs.walk followLast spelled maxLinks (if p.isAbsolute = true then []
      else fs.workingDirectory) steps <;> simp

theorem bind_node_eq_ok_iff {x : Except IoError Place} {found : Location × Node} :
    x.bind Place.node = .ok found ↔ x = .ok (.occupied found.1 found.2) := by
  rcases x with e | place
  · simp [Except.bind]
  · cases place <;> simp [Except.bind, Place.node, Prod.ext_iff]

/-- **The canonical location of a path** is where its steps lead through all links, each location on
the way having a path. -/
theorem canonicalize_eq_ok_iff : fs.canonicalize p = .ok (loc, node) ↔ checkPath p = .ok ()
    ∧ Leads fs true true maxLinks (fs.startOf p) (lookupSteps p) (.occupied loc node) := by
  rw [canonicalize, bind_node_eq_ok_iff, placeOf_eq_ok_iff]

theorem nodeAt_eq_ok_iff : fs.nodeAt followLast p = .ok (loc, node) ↔ checkPath p = .ok ()
    ∧ Leads fs followLast false maxLinks (fs.startOf p) (lookupSteps p) (.occupied loc node) := by
  rw [nodeAt, bind_node_eq_ok_iff, resolve, resolveSteps, placeOf_eq_ok_iff]

/-- What `lstat` sees is what the path leads to, where a link in the last place is not followed. -/
theorem lstat_eq_ok_iff : fs.lstat p = .ok node ↔ ∃ loc, fs.nodeAt false p = .ok (loc, node) := by
  rw [lstat]
  rcases fs.nodeAt false p with e | ⟨loc, found⟩ <;> simp [Except.map]

/-- **A canonical location stays one when the file system grows.** -/
theorem canonicalize_grows (h : fs.canonicalize p = .ok (loc, .directory)) (hg : Grows fs fs') :
    fs'.canonicalize p = .ok (loc, .directory) := by
  obtain ⟨hc, hl⟩ := canonicalize_eq_ok_iff.mp h
  obtain ⟨node', hl'⟩ := hl.grows hg
  have hn := hl'.node?_eq
  rw [hg.directory hl.node?_eq, Option.some_inj] at hn
  exact canonicalize_eq_ok_iff.mpr ⟨hc, hg.startOf p ▸ hn ▸ hl'⟩

/-! ## Places of the paths of locations -/

@[simp] theorem startOf_path (fs : FileSystem) (loc : Location) : fs.startOf loc.path = [] :=
  if_pos (Path.isAbsolute_path loc)

/-- Looking a location's path up goes into its names. -/
theorem leads_lookupSteps_path (h : loc.IsProper) :
    Leads fs followLast spelled links [] (lookupSteps loc.path) place
      ↔ Leads fs followLast spelled links [] (loc.map .into) place := by
  rw [lookupSteps, Path.endsWithSlash_path h, Path.steps_path h]
  by_cases hne : loc = []
  · subst hne
    constructor
    · intro hl
      cases hl with
      | stay _ hl => exact hl
    · exact fun hl => .stay rfl hl
  · simp [hne]

end FileSystem

end GuardedArchive
