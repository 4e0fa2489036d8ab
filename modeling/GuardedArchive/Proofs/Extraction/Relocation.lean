import GuardedArchive.Proofs.Extraction.Denotation
import GuardedArchive.Proofs.FileSystem.OpenWays

/-!
# Proofs/Extraction/Relocation — the same tree in two places

A **site** is a directory in a file system.  Two file systems are **alike** at two sites when below
these they hold the same, without links, and elsewhere what they held before.  Whatever is done at
one location below both sites ends alike: directories are made (`Alike.makeTree`), files opened
(`Alike.create`) and written (`Alike.append`) with the same outcome, and behind it the file systems
are alike again.
-/

namespace GuardedArchive.Extraction

open FileSystem (checkPath maxPathLength maxNameLength Linkless IsPlain Leads)

/-- A directory in a file system. -/
structure Site where
  root : Location
  before : FileSystem

/-- Nothing has changed but below the root of the site, which names lead to by themselves. -/
structure Site.Holds (a : Site) (fs : FileSystem) : Prop where
  proper : a.root.IsProper
  fits : ∀ name ∈ a.root, name.length ≤ maxNameLength
  directory : ∀ above, above <+: a.root → fs.node? above = some .directory
  outside : SameOutside a.root a.before fs

/-- The place as it is at a site. -/
def Site.place (a : Site) : Place → Place
  | .occupied loc node => .occupied (a.root ++ loc) node
  | .vacant loc => .vacant (a.root ++ loc)

/-- **Below the two sites stands the same**, and no links. -/
structure Alike (a b : Site) (fs fs' : FileSystem) : Prop where
  left : a.Holds fs
  right : b.Holds fs'
  node : ∀ rel, fs'.node? (b.root ++ rel) = fs.node? (a.root ++ rel)
  linkless : ∀ rel target, fs.node? (a.root ++ rel) ≠ some (.link target)

/-- The paths of a location at both sites, and of all locations above it, can be asked about, or
cannot for the same reason. -/
def Askable (a b : Site) (loc : Location) : Prop :=
  ∀ above, above <+: loc →
    checkPath (Location.path (b.root ++ above)) = checkPath (Location.path (a.root ++ above))

variable {a b : Site} {fs fs' fs₁ fs₂ : FileSystem} {loc rel : Location} {links : Nat}
  {followLast : Bool}

theorem Askable.of_above {above : Location} (h : Askable a b loc) (hab : above <+: loc) :
    Askable a b above := fun l hl => h l (hl.trans hab)

theorem Askable.self (h : Askable a b loc) :
    checkPath (Location.path (b.root ++ loc)) = checkPath (Location.path (a.root ++ loc)) :=
  h loc List.prefix_rfl

/-! ## Ways to a site -/

theorem Site.Holds.linkless (h : a.Holds fs)
    (hfree : ∀ rel target, fs.node? (a.root ++ rel) ≠ some (.link target)) (loc : Location) :
    Linkless fs (a.root ++ loc) := fun above hab target => by
  rcases prefix_root_append hab with hp | ⟨rel, rfl, -⟩
  · simp [h.directory above hp]
  · exact hfree rel target

theorem Alike.linkless_left (h : Alike a b fs fs') (loc : Location) :
    Linkless fs (a.root ++ loc) := h.left.linkless h.linkless loc

theorem Alike.linkless_right (h : Alike a b fs fs') (loc : Location) :
    Linkless fs' (b.root ++ loc) :=
  h.right.linkless (fun rel target => h.node rel ▸ h.linkless rel target) loc

/-- **A way through the root of a site comes by the root.** -/
theorem Site.Holds.walk_eq (h : a.Holds fs) (names : Location) :
    fs.walk followLast false links [] ((a.root ++ names).map .into)
      = fs.walk followLast false links a.root (names.map .into) := by
  have hway : ∀ back front : Location, front ++ back = a.root →
      fs.walk followLast false links front ((back ++ names).map .into)
        = fs.walk followLast false links a.root (names.map .into) := by
    intro back
    induction back with
    | nil =>
      intro front hroot
      rw [List.append_nil] at hroot
      rw [hroot, List.nil_append]
    | cons name back ih =>
      intro front hroot
      have hnext : front ++ [name] ++ back = a.root := by simpa using hroot
      have hd := h.directory front ⟨_, hroot⟩
      have hd' := h.directory (front ++ [name]) ⟨_, hnext⟩
      have hfit : ¬(maxNameLength < name.length ∨ (false : Bool) = true
          ∧ (!FileSystem.isSpellable (front ++ [name]) ((back ++ names).map .into)) = true) := by
        simpa using h.fits name (hroot ▸ by simp)
      rw [List.cons_append, List.map_cons, FileSystem.walk, hd]
      simp only [if_neg hfit, hd']
      exact ih _ hnext
  exact hway a.root [] (List.nil_append _)

/-- **Ways below two sites lead to the same places.** -/
theorem Alike.walk (h : Alike a b fs fs') (followLast : Bool) (links : Nat) (names : Location) :
    ∀ rel, ∃ x : Except SystemError Place,
      fs.walk followLast false links (a.root ++ rel) (names.map .into) = x.map a.place
        ∧ fs'.walk followLast false links (b.root ++ rel) (names.map .into) = x.map b.place := by
  induction names with
  | nil =>
    intro rel
    simp only [List.map_nil, FileSystem.walk, h.node]
    rcases fs.node? (a.root ++ rel) with _ | node
    · exact ⟨.error .noEntry, rfl, rfl⟩
    · exact ⟨.ok (.occupied rel node), rfl, rfl⟩
  | cons name names ih =>
    intro rel
    obtain ⟨x, hx, hx'⟩ := ih (rel ++ [name])
    rw [← List.append_assoc] at hx hx'
    have hnode := h.node (rel ++ [name])
    have hlink := h.linkless (rel ++ [name])
    rw [← List.append_assoc, ← List.append_assoc] at hnode
    rw [← List.append_assoc] at hlink
    rw [List.map_cons, FileSystem.walk, FileSystem.walk, h.node rel]
    rcases fs.node? (a.root ++ rel) with _ | _ | _ | _ | _
    · exact ⟨.error .noEntry, rfl, rfl⟩
    · simp only [Bool.false_eq_true, false_and, or_false, hnode]
      by_cases hlong : maxNameLength < name.length
      · rw [if_pos hlong, if_pos hlong]
        exact ⟨.error .nameTooLong, rfl, rfl⟩
      · rw [if_neg hlong, if_neg hlong]
        rcases hn : fs.node? (a.root ++ rel ++ [name]) with _ | node
        · by_cases hrest : names.map Step.into = []
          · refine ⟨.ok (.vacant (rel ++ [name])), ?_, ?_⟩ <;> simp [hrest, Except.map, Site.place]
          · refine ⟨.error .noEntry, ?_, ?_⟩ <;> simp [hrest, Except.map]
        · cases node with
          | link target => exact absurd hn (hlink target)
          | directory | file | pipe => exact ⟨x, hx, hx'⟩
    all_goals exact ⟨.error .notDirectory, rfl, rfl⟩

/-- **The path of a location leads to the same place at both sites.** -/
theorem Alike.resolveSteps (h : Alike a b fs fs') (hloc : loc.IsProper)
    (hask : Askable a b loc) (followLast : Bool) : ∃ x : Except IoError Place,
      fs.resolveSteps followLast (Location.path (a.root ++ loc))
          (Location.path (a.root ++ loc)).steps = x.map a.place
        ∧ fs'.resolveSteps followLast (Location.path (b.root ++ loc))
          (Location.path (b.root ++ loc)).steps = x.map b.place := by
  obtain ⟨x, hx, hx'⟩ := h.walk followLast FileSystem.maxLinks loc []
  rw [List.append_nil] at hx hx'
  rw [← h.left.walk_eq] at hx
  rw [← h.right.walk_eq] at hx'
  rw [FileSystem.resolveSteps, FileSystem.resolveSteps, FileSystem.placeOf, FileSystem.placeOf,
    hask.self, Path.steps_path (h.left.proper.append hloc),
    Path.steps_path (h.right.proper.append hloc), Path.isAbsolute_path, Path.isAbsolute_path]
  rcases checkPath (Location.path (a.root ++ loc)) with e | _
  · exact ⟨.error e, rfl, rfl⟩
  · simp only [if_true, hx, hx']
    rcases x with e | place
    · exact ⟨.error (.system e), rfl, rfl⟩
    · exact ⟨.ok place, rfl, rfl⟩

/-- A slash behind the path of a location makes no difference to where it leads. -/
theorem resolve_path (hloc : loc.IsProper) (followLast : Bool) :
    fs.resolve followLast loc.path = fs.resolveSteps followLast loc.path loc.path.steps := by
  rw [FileSystem.resolve, FileSystem.lookupSteps, Path.endsWithSlash_path hloc]
  by_cases hne : loc = []
  · subst hne
    have hsteps : (Location.path []).steps = [] := Path.steps_path hloc
    have hstay : fs.walk followLast false FileSystem.maxLinks [] [.stay]
        = fs.walk followLast false FileSystem.maxLinks [] [] := by
      conv_lhs => rw [FileSystem.walk]
      rfl
    rw [FileSystem.resolveSteps, FileSystem.resolveSteps, FileSystem.placeOf, FileSystem.placeOf,
      hsteps, Path.isAbsolute_path]
    simp only [if_true, decide_true, List.nil_append, hstay]
  · simp [hne]

theorem Alike.isDirectory (h : Alike a b fs fs') (hloc : loc.IsProper) (hask : Askable a b loc) :
    fs'.isDirectory (Location.path (b.root ++ loc))
      = fs.isDirectory (Location.path (a.root ++ loc)) := by
  obtain ⟨x, hx, hx'⟩ := h.resolveSteps hloc hask true
  rw [FileSystem.isDirectory, FileSystem.isDirectory, FileSystem.stat, FileSystem.stat,
    FileSystem.nodeAt, FileSystem.nodeAt, resolve_path (h.left.proper.append hloc),
    resolve_path (h.right.proper.append hloc), hx, hx']
  rcases x with e | ⟨l, node⟩ | l <;> rfl

/-! ## Changes below a site -/

theorem Site.Holds.put (h : a.Holds fs) (hrel : rel ≠ []) (node : Node) :
    a.Holds (fs.put (a.root ++ rel) node) where
  proper := h.proper
  fits := h.fits
  directory above hab := by
    have hne : a.root ++ rel ≠ [] := by simp [hrel]
    rw [fs.node?_put hne, if_neg, h.directory above hab]
    rintro rfl
    have hlen := hab.length_le
    rw [List.length_append] at hlen
    exact hrel (List.length_eq_zero_iff.mp (by omega))
  outside := h.outside.put (by simp [hrel]) node

/-- **The same node at the same location below both sites** leaves them alike. -/
theorem Alike.put (h : Alike a b fs fs') (hrel : rel ≠ []) {node : Node}
    (hnode : ∀ target, node ≠ .link target) :
    Alike a b (fs.put (a.root ++ rel) node) (fs'.put (b.root ++ rel) node) where
  left := h.left.put hrel node
  right := h.right.put hrel node
  node other := by
    rw [fs.node?_put (by simp [hrel]), fs'.node?_put (by simp [hrel]), h.node]
    simp only [List.append_cancel_left_eq]
  linkless other target := by
    rw [fs.node?_put (by simp [hrel])]
    split
    · exact fun he => hnode target (Option.some.inj he)
    · exact h.linkless other target

/-- What is free below a site is not the site. -/
theorem Site.Holds.ne_nil (h : a.Holds fs) (hn : fs.node? (a.root ++ rel) ≠ some .directory) :
    rel ≠ [] := by
  rintro rfl
  rw [List.append_nil] at hn
  exact hn (h.directory _ List.prefix_rfl)

/-- A directory is made at both sites or at none. -/
theorem Alike.makeDirectory (h : Alike a b fs fs') (hloc : loc.IsProper)
    (hask : Askable a b loc) :
    (∃ e, fs.makeDirectory (Location.path (a.root ++ loc)) = .error e
        ∧ fs'.makeDirectory (Location.path (b.root ++ loc)) = .error e)
      ∨ ∃ fs₁ fs₂, fs.makeDirectory (Location.path (a.root ++ loc)) = .ok fs₁
        ∧ fs'.makeDirectory (Location.path (b.root ++ loc)) = .ok fs₂ ∧ Alike a b fs₁ fs₂ := by
  obtain ⟨x, hx, hx'⟩ := h.resolveSteps hloc hask false
  rw [FileSystem.makeDirectory, FileSystem.makeDirectory, hx, hx']
  rcases x with e | ⟨l, node⟩ | l
  · exact .inl ⟨e, rfl, rfl⟩
  · exact .inl ⟨.system .exists, rfl, rfl⟩
  · have hfree := (FileSystem.placeOf_eq_ok_iff.mp hx).2.vacant.1
    exact .inr ⟨_, _, rfl, rfl, h.put (h.left.ne_nil (by simp [hfree]))
      Node.directory_ne_link⟩

/-- The root of a site is there already. -/
theorem Site.Holds.makeTree (h : a.Holds fs) :
    fs.makeTree a.root.path = (checkPath a.root.path, fs) := by
  rcases hc : checkPath a.root.path with e | _
  · exact FileSystem.makeTree_of_checkPath_error hc
  · exact IsPlain.makeTree (fun above hab _ => h.directory above hab) h.proper
      (h.directory _ List.prefix_rfl) h.fits hc

/-- **A directory is made with what is missing above it at both sites, with the same outcome.** -/
theorem Alike.makeTree (h : Alike a b fs fs') (hloc : loc.IsProper) (hask : Askable a b loc) :
    (fs'.makeTree (Location.path (b.root ++ loc))).1
        = (fs.makeTree (Location.path (a.root ++ loc))).1
      ∧ Alike a b (fs.makeTree (Location.path (a.root ++ loc))).2
        (fs'.makeTree (Location.path (b.root ++ loc))).2 := by
  induction loc using List.reverseRecOn with
  | nil =>
    have hself := hask.self
    rw [List.append_nil, List.append_nil] at hself ⊢
    rw [h.left.makeTree, h.right.makeTree]
    exact ⟨hself, h⟩
  | append_singleton loc name ih =>
    obtain ⟨hresult, halike⟩ := ih hloc.of_append.1 (hask.of_above (List.prefix_append _ _))
    have hd := h.isDirectory hloc hask
    have hproper := h.left.proper.append hloc
    have hproper' := h.right.proper.append hloc
    have hmade := fun {fs₁ fs₂} (h₁ : Alike a b fs₁ fs₂) => h₁.makeDirectory hloc hask
    have hd₁ := fun {fs₁ fs₂} (h₁ : Alike a b fs₁ fs₂) => h₁.isDirectory hloc hask
    simp only [← List.append_assoc] at hd hproper hproper' hmade hd₁ ⊢
    rw [FileSystem.makeTree_path_concat hproper, FileSystem.makeTree_path_concat hproper']
    rcases hmade h with ⟨e, hm, hm'⟩ | ⟨fs₁, fs₂, hm, hm', h₁⟩ <;> rw [hm, hm']
    · dsimp only
      by_cases he : e = .system .noEntry
      · rw [if_pos he, if_pos he]
        rcases hr : fs.makeTree (Location.path (a.root ++ loc)) with ⟨e₁ | _, fs₁⟩ <;>
          rcases hr' : fs'.makeTree (Location.path (b.root ++ loc)) with ⟨e₂ | _, fs₂⟩ <;>
          rw [hr, hr'] at hresult halike
        · exact ⟨hresult, halike⟩
        · cases hresult
        · cases hresult
        · dsimp only at halike ⊢
          rcases hmade halike with ⟨e₃, hm, hm'⟩ | ⟨fs₃, fs₄, hm, hm', h₃⟩ <;> rw [hm, hm']
          · dsimp only
            rw [hd₁ halike]
            split <;> exact ⟨rfl, halike⟩
          · exact ⟨rfl, h₃⟩
      · rw [if_neg he, if_neg he, hd]
        split <;> exact ⟨rfl, h⟩
    · exact ⟨rfl, h₁⟩

/-- **A file is opened at both sites or at none.** -/
theorem Alike.create (h : Alike a b fs fs') (hloc : loc.IsProper) (hne : loc ≠ [])
    (hask : Askable a b loc) :
    (∃ e, fs.create (Location.path (a.root ++ loc)) = .error e
        ∧ fs'.create (Location.path (b.root ++ loc)) = .error e)
      ∨ ∃ rel fs₁ fs₂, rel ≠ []
        ∧ fs.create (Location.path (a.root ++ loc)) = .ok (a.root ++ rel, fs₁)
        ∧ fs'.create (Location.path (b.root ++ loc)) = .ok (b.root ++ rel, fs₂)
        ∧ Alike a b fs₁ fs₂ := by
  obtain ⟨x, hx, hx'⟩ := h.resolveSteps hloc hask false
  have hslash : (Location.path (a.root ++ loc)).endsWithSlash = false := by
    rw [Path.endsWithSlash_path (h.left.proper.append hloc)]
    simp [hne]
  have hslash' : (Location.path (b.root ++ loc)).endsWithSlash = false := by
    rw [Path.endsWithSlash_path (h.right.proper.append hloc)]
    simp [hne]
  rw [FileSystem.create, FileSystem.create, hslash, hslash', hx, hx']
  rcases x with e | ⟨l, node⟩ | l
  · exact .inl ⟨e, rfl, rfl⟩
  · have hn := (FileSystem.placeOf_eq_ok_iff.mp hx).2.node?_eq
    cases node with
    | file content =>
      exact .inr ⟨l, _, _, h.left.ne_nil (by simp [hn]), rfl, rfl,
        h.put (h.left.ne_nil (by simp [hn])) (Node.file_ne_link _)⟩
    | directory => exact .inl ⟨.system .isDirectory, rfl, rfl⟩
    | link target => exact .inl ⟨.system .linkLoop, rfl, rfl⟩
    | pipe => exact .inl ⟨.system .noReader, rfl, rfl⟩
  · have hfree := (FileSystem.placeOf_eq_ok_iff.mp hx).2.vacant.1
    exact .inr ⟨l, _, _, h.left.ne_nil (by simp [hfree]), rfl, rfl,
      h.put (h.left.ne_nil (by simp [hfree])) (Node.file_ne_link _)⟩

theorem Alike.append (h : Alike a b fs fs') (hrel : rel ≠ []) (octets : Bytes) :
    Alike a b (fs.append (a.root ++ rel) octets) (fs'.append (b.root ++ rel) octets) := by
  rw [FileSystem.append, FileSystem.append, FileSystem.contentAt, FileSystem.contentAt, h.node]
  exact h.put hrel (Node.file_ne_link _)

/-- **Below a site a directory is in the destination once it is made.** -/
theorem makeDirectoryWithin_apply (hproper : Location.IsProper (a.root ++ loc))
    (hfree : Linkless fs (a.root ++ loc)) :
    Destination.makeDirectoryWithin ⟨a.root⟩ (Location.path (a.root ++ loc)) fs
      = ((fs.makeTree (Location.path (a.root ++ loc))).1.mapError .io,
        (fs.makeTree (Location.path (a.root ++ loc))).2) := by
  rcases hm : fs.makeTree (Location.path (a.root ++ loc)) with ⟨e | _, fs₁⟩
  · rw [Destination.makeDirectoryWithin, Effect.bind_apply, Operation.makeTree, hm]
    rfl
  · exact Destination.makeDirectoryWithin_eq_ok_iff.mpr ⟨hm, _, _,
      FileSystem.canonicalize_of_makeTree hproper hfree hm, List.prefix_append _ _⟩

theorem Alike.makeDirectoryWithin (h : Alike a b fs fs') (hloc : loc.IsProper)
    (hask : Askable a b loc) :
    (Destination.makeDirectoryWithin ⟨b.root⟩ (Location.path (b.root ++ loc)) fs').1
        = (Destination.makeDirectoryWithin ⟨a.root⟩ (Location.path (a.root ++ loc)) fs).1
      ∧ Alike a b
        (Destination.makeDirectoryWithin ⟨a.root⟩ (Location.path (a.root ++ loc)) fs).2
        (Destination.makeDirectoryWithin ⟨b.root⟩ (Location.path (b.root ++ loc)) fs').2 := by
  obtain ⟨hresult, halike⟩ := h.makeTree hloc hask
  rw [makeDirectoryWithin_apply (h.left.proper.append hloc) (h.linkless_left loc),
    makeDirectoryWithin_apply (h.right.proper.append hloc) (h.linkless_right loc), hresult]
  exact ⟨rfl, halike⟩

end GuardedArchive.Extraction
