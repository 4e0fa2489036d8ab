import GuardedArchive.Proofs.FileSystem.Ways

/-!
# Proofs/FileSystem/Direct — where no link stands on a way, all is where it is named

A way past directories, along names that are not too long, leads to the location it names, be it
free or not (`IsPlain.leads`, `IsPlain.leads_vacant`).  On a way without links a directory that was
made, with what is missing above it, is the canonical location of its path
(`canonicalize_of_makeTree`); and where it cannot be made, it is not there, and no more than
directories above it are (`makeTree_error_linkless`).
-/

namespace GuardedArchive.FileSystem

variable {fs fs' : FileSystem} {followLast spelled : Bool} {links : Nat} {here loc : Location}
  {place : Place} {node : Node} {names : Location} {name : Name} {e : IoError}

/-! ## Ways past directories -/

/-- The names on a way are not too long. -/
theorem Leads.fits (h : Leads fs followLast spelled links here (names.map .into) place) :
    ∀ name ∈ names, name.length ≤ maxNameLength := by
  intro name hn
  obtain ⟨front, more, rfl⟩ := List.append_of_mem hn
  rw [List.map_append, List.map_cons, ← List.singleton_append, ← List.append_assoc] at h
  by_cases hmore : more.map Step.into = []
  · rw [hmore, List.append_nil] at h
    exact h.length_le
  · obtain ⟨_, _, _, h, -⟩ := h.split hmore
    exact h.length_le

theorem isPlain_next (h : IsPlain fs (here ++ name :: names)) : fs.node? here = some .directory
    ∧ IsPlain fs (here ++ [name] ++ names) := by
  refine ⟨h here (List.prefix_append _ _) (by simp), ?_⟩
  rwa [List.append_assoc, List.singleton_append]

/-- **A way past directories leads to what stands at its end.** -/
theorem IsPlain.leads (h : IsPlain fs (here ++ names))
    (hfit : ∀ name ∈ names, name.length ≤ maxNameLength)
    (hn : fs.node? (here ++ names) = some node) (hnode : ∀ target, node ≠ .link target) :
    Leads fs followLast false links here (names.map .into) (.occupied (here ++ names) node) := by
  induction names generalizing here with
  | nil =>
    rw [List.append_nil] at hn ⊢
    exact .done hn
  | cons name names ih =>
    obtain ⟨hd, hrest⟩ := isPlain_next h
    have hstep : here ++ name :: names = (here ++ [name]) ++ names := by simp
    rw [hstep] at hn ⊢
    have hto := ih hrest (fun n hm => hfit n (List.mem_cons_of_mem _ hm)) hn
    have hname : Fits false (here ++ [name]) name (names.map .into) := by
      simpa [Fits] using hfit name List.mem_cons_self
    by_cases hlast : names = []
    · subst hlast
      rw [List.append_nil] at hn
      exact .into hd hname hn hnode hto
    · refine .into hd hname (hrest _ (List.prefix_append _ _) ?_) Node.directory_ne_link hto
      simpa using hlast

/-- A way past directories to a free place leads there. -/
theorem IsPlain.leads_vacant (h : IsPlain fs (here ++ names)) (hne : names ≠ [])
    (hfit : ∀ name ∈ names, name.length ≤ maxNameLength)
    (hn : fs.node? (here ++ names) = none) :
    Leads fs followLast false links here (names.map .into) (.vacant (here ++ names)) := by
  induction names generalizing here with
  | nil => exact absurd rfl hne
  | cons name names ih =>
    obtain ⟨hd, hrest⟩ := isPlain_next h
    have hstep : here ++ name :: names = (here ++ [name]) ++ names := by simp
    rw [hstep] at hn ⊢
    have hname : Fits false (here ++ [name]) name (names.map .into) := by
      simpa [Fits] using hfit name List.mem_cons_self
    by_cases hlast : names = []
    · subst hlast
      rw [List.append_nil] at hn ⊢
      exact .free hd hname hn
    · refine .into hd hname (hrest _ (List.prefix_append _ _) (by simpa using hlast))
        Node.directory_ne_link ?_
      exact ih hrest hlast (fun n hm => hfit n (List.mem_cons_of_mem _ hm)) hn

/-- **Behind a way without links the last name is where it says**, whatever stands there. -/
theorem Leads.location_concat (hfree : Linkless fs loc)
    (h : Leads fs false false links [] ((loc ++ [name]).map .into) place) :
    place.location = loc ++ [name] := by
  rw [List.map_append, List.map_singleton] at h
  obtain ⟨_, dir, _, hto, -⟩ := h.split (List.cons_ne_nil _ _)
  obtain rfl : dir = loc := hto.location_eq loc hfree
  exact (hto.child h).1

/-! ## Directories on ways without links -/

theorem wantDirectory_into (names : List Name) : wantDirectory (names.map .into) = false := by
  cases names <;> rfl

/-- **Without links each location on a way has a path** where the last one has. -/
theorem Leads.spell (names : List Name)
    (h : Leads fs followLast spelled links here (names.map .into) place)
    (hfree : Linkless fs (here ++ names))
    (hlen : (Location.path (here ++ names)).raw.length ≤ maxPathLength) :
    Leads fs followLast true links here (names.map .into) place := by
  induction names generalizing here with
  | nil =>
    cases h with
    | done h => exact .done h
  | cons name names ih =>
    have hstep : here ++ name :: names = (here ++ [name]) ++ names := by simp
    rw [hstep] at hfree hlen
    have hnext := hfree (here ++ [name]) (List.prefix_append _ _)
    have hfits : Fits spelled (here ++ [name]) name (names.map .into) →
        Fits true (here ++ [name]) name (names.map .into) := by
      intro hfit
      have hshort := (Path.raw_path_above (List.prefix_append (here ++ [name]) names)).length_le
      rw [Fits, isSpellable, wantDirectory_into]
      rw [Fits] at hfit
      simp only [not_or, Nat.not_lt] at hfit ⊢
      refine ⟨hfit.1, ?_⟩
      simpa using hshort.trans hlen
    rw [List.map_cons] at h ⊢
    generalize hrest : names.map Step.into = rest at h hfits
    cases h with
    | free hd hfit hn => exact .free hd (hfits hfit) hn
    | link _ _ hl => exact absurd hl (hnext _)
    | follow _ _ hl => exact absurd hl (hnext _)
    | into hd hfit hn hlink h =>
      exact .into hd (hfits hfit) hn hlink (hrest ▸ ih (hrest ▸ h) hfree hlen)

/-- **Where whatever stands has a short path**, each location on a way to something has one. -/
theorem Leads.spell_occupied {steps : List Step}
    (hshort : ∀ loc node, fs.node? loc = some node →
      (Location.path loc).raw.length < maxPathLength)
    (h : Leads fs followLast spelled links here steps (.occupied loc node)) :
    Leads fs followLast true links here steps (.occupied loc node) := by
  have hfits : ∀ {next : Location} {name : Name} {rest : List Step} {node : Node},
      Fits spelled next name rest → fs.node? next = some node → Fits true next name rest := by
    intro next name rest node hfit hn
    have hlen := hshort next node hn
    have hspell : isSpellable next rest = true := by
      rw [isSpellable, decide_eq_true_eq]
      split <;> omega
    simpa [Fits, hspell] using hfit.unspelled rest
  generalize hp : Place.occupied loc node = place at h ⊢
  induction h with
  | done hn => exact .done hn
  | stay hd _ ih => exact .stay hd (ih hp)
  | up hd _ ih => exact .up hd (ih hp)
  | free => cases hp
  | link hd hfit hl hlast => exact .link hd (hfits hfit hl) hl hlast
  | follow hd hfit hl hmore _ ih => exact .follow hd (hfits hfit hl) hl hmore (ih hp)
  | into hd hfit hn hlink _ ih => exact .into hd (hfits hfit hn) hn hlink (ih hp)

theorem checkPath_of_makeTree (h : fs.makeTree loc.path = (.ok (), fs')) :
    checkPath loc.path = .ok () := by
  cases hc : checkPath loc.path with
  | ok _ => rfl
  | error e =>
    rw [makeTree_of_checkPath_error hc] at h
    cases h

/-- **A directory that was made on a way without links is the canonical location of its path.** -/
theorem canonicalize_of_makeTree (hloc : loc.IsProper) (hfree : Linkless fs loc)
    (h : fs.makeTree loc.path = (.ok (), fs')) :
    fs'.canonicalize loc.path = .ok (loc, .directory) := by
  have hadds := makeTree_addsDirectories fs loc.path
  rw [h] at hadds
  have hc := checkPath_of_makeTree h
  obtain ⟨dir, hl⟩ := leads_of_makeTree hloc h
  obtain rfl : dir = loc := hl.location_eq loc (hfree.adds hadds)
  refine canonicalize_eq_ok_iff.mpr ⟨hc, ?_⟩
  rw [startOf_path, leads_lookupSteps_path hloc]
  exact hl.spell dir (hfree.adds hadds) (checkPath_eq_ok_iff.mp hc).2

/-- A directory that cannot be made is not there. -/
theorem makeTree_error_last (hloc : loc.IsProper) (hne : loc ≠ []) (hfree : Linkless fs loc)
    (h : fs.makeTree loc.path = (.error e, fs')) : fs'.node? loc = fs.node? loc := by
  obtain ⟨front, name, rfl⟩ := List.eq_nil_or_concat' loc |>.resolve_left hne
  have hfront : (fs.makeTree (Location.path front)).2.node? (front ++ [name])
      = fs.node? (front ++ [name]) := by
    refine makeTreeOf_linkless hloc.of_append.1
      (fun above hab => hfree above (hab.trans (List.prefix_append _ _))) _
      (fun p hp => (Path.mem_ancestors_path hloc.of_append.1).mp hp) fun hp => ?_
    have hlen := hp.length_le
    rw [List.length_append, List.length_singleton] at hlen
    omega
  rw [makeTree_path_concat hloc] at h
  cases hm : fs.makeDirectory (Location.path (front ++ [name])) with
  | ok fs₁ =>
    rw [hm] at h
    cases h
  | error e₁ =>
    rw [hm] at h
    dsimp only at h
    split at h
    next =>
      rcases hr : fs.makeTree (Location.path front) with ⟨e₂ | _, fs₁⟩ <;>
        rw [hr] at h hfront <;> dsimp only at h
      · obtain rfl := (Prod.mk.inj h).2
        exact hfront
      · split at h
        next => cases h
        next =>
          split at h
          next => cases h
          next =>
            obtain rfl := (Prod.mk.inj h).2
            exact hfront
    next =>
      split at h
      next => cases h
      next =>
        obtain rfl := (Prod.mk.inj h).2
        rfl

/-- **Where a directory cannot be made on a way without links, at most directories above it are
made.** -/
theorem makeTree_error_linkless (hloc : loc.IsProper) (hne : loc ≠ []) (hfree : Linkless fs loc)
    (h : fs.makeTree loc.path = (.error e, fs')) (l : Location) : fs'.node? l = fs.node? l
      ∨ (l <+: loc ∧ l ≠ loc) ∧ fs.node? l = none ∧ fs'.node? l = some .directory := by
  have hadds := makeTree_addsDirectories fs loc.path
  rw [h] at hadds
  refine (hadds.node l).imp id fun hnew => ⟨⟨?_, ?_⟩, hnew⟩
  · by_contra hpre
    have hsame := makeTreeOf_linkless hloc hfree loc.path.ancestors
      (fun p hp => (Path.mem_ancestors_path hloc).mp hp) hpre
    rw [← makeTree, h, hnew.1, hnew.2] at hsame
    cases hsame
  · rintro rfl
    have hsame := makeTree_error_last hloc hne hfree h
    rw [hnew.1, hnew.2] at hsame
    cases hsame

/-- **The path of a directory with directories only above it is canonical.** -/
theorem IsPlain.canonicalize (hplain : IsPlain fs loc) (hloc : loc.IsProper)
    (hd : fs.node? loc = some .directory) (hfit : ∀ name ∈ loc, name.length ≤ maxNameLength)
    (hc : checkPath loc.path = .ok ()) : fs.canonicalize loc.path = .ok (loc, .directory) := by
  refine canonicalize_eq_ok_iff.mpr ⟨hc, ?_⟩
  rw [startOf_path, leads_lookupSteps_path hloc]
  have hto : Leads fs true false maxLinks [] (loc.map .into) (.occupied loc .directory) :=
    IsPlain.leads hplain hfit hd Node.directory_ne_link
  refine hto.spell loc (fun above hab target hl => ?_) (checkPath_eq_ok_iff.mp hc).2
  rw [List.nil_append] at hab
  by_cases he : above = loc
  · rw [he, hd] at hl
    cases hl
  · rw [hplain above hab he] at hl
    cases hl

end GuardedArchive.FileSystem
