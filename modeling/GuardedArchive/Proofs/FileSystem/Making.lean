import GuardedArchive.Proofs.FileSystem.Resolution

/-!
# Proofs/FileSystem/Making — what making directories and files changes

`makeTree` only adds directories, whatever comes of it (`makeTree_addsDirectories`), and where it
succeeds the path leads to a directory (`leads_of_makeTree`).  `create` puts an empty file where the
path's last name is looked up, and nowhere else (`create_eq_ok`, `create_in`).  On a way without
links both work at the very locations that are named (`Linkless`).
-/

namespace GuardedArchive.FileSystem

variable {fs fs' : FileSystem} {followLast spelled : Bool} {links : Nat} {here loc : Location}
  {steps : List Step} {place : Place} {p : Path}

/-! ## Storing twice -/

theorem store_store (loc : Location) (a b : Node) : ∀ ns : List (Location × Node),
    store loc b (store loc a ns) = store loc b ns
  | [] => by simp [store]
  | (l, n) :: rest => by
    by_cases hl : l = loc <;> simp [store, hl, store_store loc a b rest]

/-- What is put last at a location counts. -/
@[simp] theorem put_put (fs : FileSystem) (loc : Location) (a b : Node) :
    (fs.put loc a).put loc b = fs.put loc b := by simp [put, store_store]

theorem contentAt_put (fs : FileSystem) (hloc : loc ≠ []) (content : Bytes) :
    (fs.put loc (.file content)).contentAt loc = content := by
  simp [contentAt, node?_put fs hloc]

/-- **Octets written to a file that was put there follow its content.** -/
theorem append_put (fs : FileSystem) (hloc : loc ≠ []) (content octets : Bytes) :
    (fs.put loc (.file content)).append loc octets = fs.put loc (.file (content ++ octets)) := by
  rw [append, contentAt_put fs hloc, put_put]

/-! ## Directories -/

/-- A directory is made exactly where the path leads to a free place. -/
theorem makeDirectory_eq_ok_iff : fs.makeDirectory p = .ok fs'
    ↔ ∃ loc, fs.resolveSteps false p p.steps = .ok (.vacant loc) ∧ fs' = fs.put loc .directory := by
  rw [makeDirectory]
  rcases fs.resolveSteps false p p.steps with e | ⟨loc, node⟩ | loc <;> simp [eq_comm]

theorem makeDirectory_addsDirectories (h : fs.makeDirectory p = .ok fs') :
    AddsDirectories fs fs' := by
  obtain ⟨loc, hr, rfl⟩ := makeDirectory_eq_ok_iff.mp h
  obtain ⟨hn, dir, name, rfl, -⟩ := (placeOf_eq_ok_iff.mp hr).2.vacant
  exact .put (by simp) hn

/-- **What every directory that is made keeps, making all of them keeps.** -/
theorem makeTreeOf_keeps {P : FileSystem → Prop} (h : P fs) :
    ∀ ps : List Path, (∀ p ∈ ps, ∀ fs₁ fs₂, P fs₁ → fs₁.makeDirectory p = .ok fs₂ → P fs₂) →
      P (fs.makeTreeOf ps).2
  | [], _ => h
  | p :: parents, hmake => by
    have hparents := makeTreeOf_keeps h parents fun q hq => hmake q (List.mem_cons_of_mem _ hq)
    have hp := hmake p List.mem_cons_self
    rw [makeTreeOf]
    split
    next => exact h
    next =>
      split
      next fs₁ hm => exact hp fs fs₁ h hm
      next e hm =>
        split
        next =>
          split
          next e' fs₁ hr =>
            rw [hr] at hparents
            exact hparents
          next fs₁ hr =>
            rw [hr] at hparents
            split
            next fs₂ hm' => exact hp fs₁ fs₂ hparents hm'
            next => split <;> exact hparents
        next => split <;> exact h

theorem makeTreeOf_addsDirectories (ps : List Path) : AddsDirectories fs (fs.makeTreeOf ps).2 :=
  makeTreeOf_keeps (.refl fs) ps fun _ _ _ _ ha hm => ha.trans (makeDirectory_addsDirectories hm)

/-- **Making a directory with what is missing above it adds directories and does nothing else**,
even where it fails. -/
theorem makeTree_addsDirectories (fs : FileSystem) (p : Path) :
    AddsDirectories fs (fs.makeTree p).2 := makeTreeOf_addsDirectories _

/-- A walk that led to a free place leads to what is made there. -/
theorem Leads.fill {node : Node} (h : Leads fs followLast spelled links here steps (.vacant loc))
    (hg : Grows fs fs') (hn : fs'.node? loc = some node) (hnode : ∀ target, node ≠ .link target)
    {follow : Bool} (hfollow : followLast = true → follow = true) :
    Leads fs' follow spelled links here steps (.occupied loc node) := by
  generalize hp : Place.vacant loc = place at h
  induction h with
  | done | link => cases hp
  | stay hh _ ih => exact .stay (hg.directory hh) (ih hp)
  | up hh _ ih => exact .up (hg.directory hh) (ih hp)
  | free hh hfit _ =>
    cases hp
    exact .into (hg.directory hh) hfit hn hnode (.done hn)
  | follow hh hfit hl hmore _ ih =>
    refine .follow (hg.directory hh) hfit (hg.link hl) ?_ (ih hp)
    rintro ⟨hrest, rfl⟩
    exact hmore ⟨hrest, by simpa using hfollow⟩
  | into hh hfit hn hlink _ ih =>
    obtain ⟨node', hn', hlink'⟩ := hg.occupied hn
    exact .into (hg.directory hh) hfit hn' (hlink' hlink) (ih hp)

theorem leads_of_makeDirectory (h : fs.makeDirectory p = .ok fs') :
    ∃ dir, Leads fs' true false maxLinks (fs.startOf p) p.steps (.occupied dir .directory) := by
  have hg := (makeDirectory_addsDirectories h).grows
  obtain ⟨loc, hr, rfl⟩ := makeDirectory_eq_ok_iff.mp h
  have hl := (placeOf_eq_ok_iff.mp hr).2
  obtain ⟨-, dir, name, rfl, -⟩ := hl.vacant
  exact ⟨_, hl.fill hg (by simp [node?_put]) Node.directory_ne_link fun _ => rfl⟩

theorem isDirectory_iff : fs.isDirectory p ↔ ∃ loc, fs.nodeAt true p = .ok (loc, .directory) := by
  rw [isDirectory, stat]
  rcases fs.nodeAt true p with e | ⟨loc, node⟩
  · simp [Except.map]
  · cases node <;> simp [Except.map]

theorem leads_of_isDirectory (hloc : loc.IsProper) (h : fs.isDirectory loc.path) :
    ∃ dir, Leads fs true false maxLinks [] (loc.map .into) (.occupied dir .directory) := by
  obtain ⟨dir, hd⟩ := isDirectory_iff.mp h
  have hl := (nodeAt_eq_ok_iff.mp hd).2
  rw [startOf_path, leads_lookupSteps_path hloc] at hl
  exact ⟨dir, hl⟩

/-- **Where a directory was made with what is missing above it, the path leads to one.** -/
theorem leads_of_makeTree (hloc : loc.IsProper) (h : fs.makeTree loc.path = (.ok (), fs')) :
    ∃ dir, Leads fs' true false maxLinks [] (loc.map .into) (.occupied dir .directory) := by
  have hmade : ∀ {fs fs' : FileSystem}, fs.makeDirectory loc.path = .ok fs' →
      ∃ dir, Leads fs' true false maxLinks [] (loc.map .into) (.occupied dir .directory) := by
    intro fs fs' hm
    have := leads_of_makeDirectory hm
    rwa [startOf_path, Path.steps_path hloc] at this
  have hanc : ∃ parents, loc.path.ancestors = loc.path :: parents := ⟨_, rfl⟩
  obtain ⟨parents, hanc⟩ := hanc
  rw [makeTree, hanc, makeTreeOf, Path.isEmpty_path] at h
  simp only [Bool.false_eq_true, if_false] at h
  split at h
  next fs₁ hm =>
    obtain rfl : fs₁ = fs' := by simpa using h
    exact hmade hm
  next e hm =>
    split at h
    next =>
      split at h
      next => simp at h
      next fs₁ hr =>
        split at h
        next fs₂ hm' =>
          obtain rfl : fs₂ = fs' := by simpa using h
          exact hmade hm'
        next =>
          split at h
          next hdir =>
            obtain rfl : fs₁ = fs' := by simpa using h
            exact leads_of_isDirectory hloc hdir
          next => simp at h
    next =>
      split at h
      next hdir =>
        obtain rfl : fs = fs' := by simpa using h
        exact leads_of_isDirectory hloc hdir
      next => simp at h

/-! ## Files -/

/-- **A file is opened at the place that the path leads to**, which is free or a regular file. -/
theorem create_eq_ok (h : fs.create p = .ok (loc, fs')) :
    fs' = fs.put loc (.file []) ∧ loc ≠ [] ∧ Node.Grown (fs.node? loc) (some (.file []))
      ∧ ∃ place, place.location = loc ∧ fs.resolveSteps false p p.steps = .ok place := by
  rw [create] at h
  split at h
  · simp at h
  split at h
  next => simp at h
  next loc' hr =>
    obtain ⟨rfl, rfl⟩ : loc' = loc ∧ fs.put loc' (.file []) = fs' := by simpa using h
    obtain ⟨hn, dir, name, rfl, -⟩ := (placeOf_eq_ok_iff.mp hr).2.vacant
    exact ⟨rfl, by simp, hn ▸ .file [], _, rfl, hr⟩
  next loc' content hr =>
    obtain ⟨rfl, rfl⟩ : loc' = loc ∧ fs.put loc' (.file []) = fs' := by simpa using h
    have hn := (placeOf_eq_ok_iff.mp hr).2.node?_eq
    refine ⟨rfl, fun he => ?_, hn ▸ .content content [], _, rfl, hr⟩
    rw [he] at hn
    simp [node?] at hn
  all_goals simp at h

theorem create_put_grows (h : fs.create p = .ok (loc, fs')) (content : Bytes) :
    Grows fs (fs.put loc (.file content)) := by
  obtain ⟨-, hloc, hgrown, -⟩ := create_eq_ok h
  exact .put hloc (hgrown.file_of_file content)

/-- **A file is opened under the path's last name in the directory that its parent leads to.** -/
theorem create_in {name : Name} {dir at' : Location} {node : Node}
    (hloc : Location.IsProper (loc ++ [name]))
    (hdir : fs.canonicalize loc.path = .ok (dir, node))
    (h : fs.create (Location.path (loc ++ [name])) = .ok (at', fs')) :
    at' = dir ++ [name] ∧ fs.node? dir = some .directory := by
  obtain ⟨-, -, -, place, rfl, hr⟩ := create_eq_ok h
  have hd := (canonicalize_eq_ok_iff.mp hdir).2
  have hl := (placeOf_eq_ok_iff.mp hr).2
  rw [startOf_path, leads_lookupSteps_path hloc.of_append.1] at hd
  rw [startOf_path, Path.steps_path hloc, List.map_append] at hl
  exact hd.child hl

/-! ## Ways without links -/

/-- No link stands on the way to a location. -/
def Linkless (fs : FileSystem) (loc : Location) : Prop :=
  ∀ above, above <+: loc → ∀ target, fs.node? above ≠ some (.link target)

theorem Linkless.adds (h : Linkless fs loc) (ha : AddsDirectories fs fs') :
    Linkless fs' loc := fun above hab target hl => by
  rcases ha.node above with he | ⟨-, hd⟩
  · exact h above hab target (he ▸ hl)
  · simp [hd] at hl

/-- **Without links the names lead where they say.** -/
theorem Leads.location_eq (names : List Name)
    (h : Leads fs followLast spelled links here (names.map .into) place)
    (hfree : Linkless fs (here ++ names)) : place.location = here ++ names := by
  induction names generalizing here with
  | nil =>
    cases h
    exact (List.append_nil here).symm
  | cons name names ih =>
    have hstep : here ++ name :: names = (here ++ [name]) ++ names := by simp
    rw [hstep] at hfree ⊢
    have hnext := hfree (here ++ [name]) (List.prefix_append _ _)
    rw [List.map_cons] at h
    generalize hrest : names.map Step.into = rest at h
    cases h with
    | free hd _ hn =>
      obtain rfl : names = [] := by simpa using hrest
      exact (List.append_nil _).symm
    | link _ _ hl => exact absurd hl (hnext _)
    | follow _ _ hl => exact absurd hl (hnext _)
    | into _ _ _ _ h => exact ih (hrest ▸ h) hfree

/-- Where no link stands on the way, a directory is made at the location that is named. -/
theorem makeDirectory_linkless (hloc : loc.IsProper) (hfree : Linkless fs loc)
    (h : fs.makeDirectory loc.path = .ok fs') : fs' = fs.put loc .directory := by
  obtain ⟨at', hr, rfl⟩ := makeDirectory_eq_ok_iff.mp h
  have hl := (placeOf_eq_ok_iff.mp hr).2
  rw [startOf_path, Path.steps_path hloc] at hl
  rw [show at' = loc from hl.location_eq loc hfree]

/-- **Where no link stands on the way, only the directories on it are made.** -/
theorem makeTreeOf_linkless (hloc : loc.IsProper) (hfree : Linkless fs loc) (ps : List Path)
    (hps : ∀ p ∈ ps, ∃ above : Location, above <+: loc ∧ p = above.path) {l : Location}
    (hl : ¬l <+: loc) : (fs.makeTreeOf ps).2.node? l = fs.node? l := by
  have hkeeps : AddsDirectories fs (fs.makeTreeOf ps).2
      ∧ (fs.makeTreeOf ps).2.node? l = fs.node? l := by
    refine makeTreeOf_keeps (P := fun fs' => AddsDirectories fs fs' ∧ fs'.node? l = fs.node? l)
      ⟨.refl fs, rfl⟩ ps ?_
    rintro p hp fs₁ fs₂ ⟨ha, hsame⟩ hm
    refine ⟨ha.trans (makeDirectory_addsDirectories hm), Eq.trans ?_ hsame⟩
    obtain ⟨above, hpre, rfl⟩ := hps p hp
    have hproper : above.IsProper := fun n hn => hloc n (hpre.subset hn)
    have hway : Linkless fs₁ above := fun a h => hfree.adds ha a (h.trans hpre)
    obtain rfl := makeDirectory_linkless hproper hway hm
    by_cases hne : above = []
    · subst hne
      by_cases hl' : l = []
      · exact absurd (hl' ▸ List.nil_prefix) hl
      · simp [node?, put, hl', find?_store, Ne.symm hl']
    · rw [fs₁.node?_put hne, if_neg fun he : above = l => hl (he ▸ hpre)]
  exact hkeeps.2

/-- **Where no link stands on its way, a directory is made at the location that is named**, with
those above it, and nothing else changes. -/
theorem makeTree_linkless (hloc : loc.IsProper) (hfree : Linkless fs loc)
    (h : fs.makeTree loc.path = (.ok (), fs')) (l : Location) :
    fs'.node? l = if l <+: loc then some .directory else fs.node? l := by
  have hadds := makeTree_addsDirectories fs loc.path
  rw [h] at hadds
  obtain ⟨dir, hleads⟩ := leads_of_makeTree hloc h
  have hdir : dir = loc := hleads.location_eq loc (hfree.adds hadds)
  subst hdir
  split
  next hpre =>
    by_cases he : l = dir
    · exact he ▸ hleads.node?_eq
    · exact hleads.isPlain .nil l hpre he
  next hpre =>
    have hsame := makeTreeOf_linkless hloc hfree dir.path.ancestors
      (fun p hp => (Path.mem_ancestors_path hloc).mp hp) hpre
    rw [makeTree] at h
    rwa [h] at hsame

/-- Where no link stands on its way, a file is opened at the location that is named. -/
theorem create_linkless {at' : Location} (hloc : loc.IsProper) (hfree : Linkless fs loc)
    (h : fs.create loc.path = .ok (at', fs')) : at' = loc := by
  obtain ⟨-, -, -, place, rfl, hr⟩ := create_eq_ok h
  have hl := (placeOf_eq_ok_iff.mp hr).2
  rw [startOf_path, Path.steps_path hloc] at hl
  exact hl.location_eq loc hfree

end GuardedArchive.FileSystem
