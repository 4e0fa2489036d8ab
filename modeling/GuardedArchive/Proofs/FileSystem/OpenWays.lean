import GuardedArchive.Proofs.FileSystem.Moving

/-!
# Proofs/FileSystem/OpenWays — where directories and files can be made

A way is **open** when directories stand on it and behind them nothing (`IsOpen`).  A directory is
made along every open way (`IsOpen.makeTree`), and a file in every free place behind directories
(`IsPlain.create`), as long as the path is one that the system can be asked about.  What has been
made has such a path (`HasPath.of_makeTree`, `HasPath.of_create`).
-/

namespace GuardedArchive.FileSystem

variable {fs fs' : FileSystem} {loc : Location}

/-! ## Paths that the system takes -/

/-- **A location whose path the system takes**: it can be asked about, and its names are not too
long. -/
structure HasPath (loc : Location) : Prop where
  fits : ∀ name ∈ loc, name.length ≤ maxNameLength
  checkPath : FileSystem.checkPath loc.path = .ok ()

namespace HasPath

theorem of_above {above : Location} (h : HasPath loc) (hab : above <+: loc) : HasPath above where
  fits name hn := h.fits name (hab.subset hn)
  checkPath := checkPath_of_above hab h.checkPath

theorem of_makeTree (hloc : loc.IsProper) (h : fs.makeTree loc.path = (.ok (), fs')) :
    HasPath loc where
  fits := by
    obtain ⟨dir, hl⟩ := leads_of_makeTree hloc h
    exact hl.fits
  checkPath := checkPath_of_makeTree h

theorem of_create {at' : Location} (hloc : loc.IsProper)
    (h : fs.create loc.path = .ok (at', fs')) : HasPath loc := by
  obtain ⟨-, -, -, place, -, hr⟩ := create_eq_ok h
  obtain ⟨hc, hl⟩ := (resolveSteps_path hloc).mp hr
  exact ⟨hl.fits, hc⟩

end HasPath

/-! ## Behind directories -/

/-- **What stands behind directories only is found by the path of its location.** -/
theorem IsPlain.nodeAt {node : Node} (h : IsPlain fs loc) (hloc : loc.IsProper)
    (hpath : HasPath loc) (hn : fs.node? loc = some node) (hnode : ∀ target, node ≠ .link target)
    (followLast : Bool) : fs.nodeAt followLast loc.path = .ok (loc, node) := by
  refine (nodeAt_path hloc).mpr ⟨hpath.checkPath, ?_⟩
  have hplain : IsPlain fs ([] ++ loc) := h
  exact hplain.leads hpath.fits hn hnode

/-- A directory that stands is made again without a change. -/
theorem IsPlain.makeTree (h : IsPlain fs loc) (hloc : loc.IsProper)
    (hd : fs.node? loc = some .directory) (hfit : ∀ name ∈ loc, name.length ≤ maxNameLength)
    (hc : checkPath loc.path = .ok ()) : fs.makeTree loc.path = (.ok (), fs) := by
  have hto : ∀ followLast, fs.resolveSteps followLast loc.path loc.path.steps
      = .ok (.occupied loc .directory) := fun followLast =>
    (resolveSteps_path hloc).mpr ⟨hc, IsPlain.leads h hfit hd Node.directory_ne_link⟩
  have hm : fs.makeDirectory loc.path = .error (.system .exists) := by
    rw [FileSystem.makeDirectory, hto]
  have hat : fs.isDirectory loc.path :=
    isDirectory_iff.mpr ⟨loc, h.nodeAt hloc ⟨hfit, hc⟩ hd Node.directory_ne_link true⟩
  obtain ⟨parents, hanc⟩ : ∃ parents, loc.path.ancestors = loc.path :: parents := ⟨_, rfl⟩
  rw [FileSystem.makeTree, hanc, FileSystem.makeTreeOf, Path.isEmpty_path, hm]
  dsimp only
  rw [hat]
  rfl

theorem IsPlain.resolveSteps_vacant (h : IsPlain fs loc) (hloc : loc.IsProper) (hne : loc ≠ [])
    (hn : fs.node? loc = none) (hfit : ∀ name ∈ loc, name.length ≤ maxNameLength)
    (hc : checkPath loc.path = .ok ()) (followLast : Bool) :
    fs.resolveSteps followLast loc.path loc.path.steps = .ok (.vacant loc) :=
  (resolveSteps_path hloc).mpr ⟨hc, IsPlain.leads_vacant h hne hfit hn⟩

theorem IsPlain.makeDirectory (h : IsPlain fs loc) (hloc : loc.IsProper) (hne : loc ≠ [])
    (hn : fs.node? loc = none) (hfit : ∀ name ∈ loc, name.length ≤ maxNameLength)
    (hc : checkPath loc.path = .ok ()) :
    fs.makeDirectory loc.path = .ok (fs.put loc .directory) := by
  rw [FileSystem.makeDirectory, h.resolveSteps_vacant hloc hne hn hfit hc]

/-- **A file is made in a free place behind directories.** -/
theorem IsPlain.create (h : IsPlain fs loc) (hloc : loc.IsProper) (hne : loc ≠ [])
    (hn : fs.node? loc = none) (hfit : ∀ name ∈ loc, name.length ≤ maxNameLength)
    (hc : checkPath loc.path = .ok ()) :
    fs.create loc.path = .ok (loc, fs.put loc (.file [])) := by
  rw [FileSystem.create, Path.endsWithSlash_path hloc, if_neg (by simpa using hne),
    h.resolveSteps_vacant hloc hne hn hfit hc]

/-! ## Open ways -/

/-- **An open way**: directories stand on it, and behind them nothing. -/
structure IsOpen (fs : FileSystem) (loc : Location) : Prop where
  way : ∀ above, above <+: loc → fs.node? above = none ∨ fs.node? above = some .directory
  closed : ∀ above below, above <+: below → below <+: loc → fs.node? above = none →
    fs.node? below = none

namespace IsOpen

variable {name : Name}

theorem of_prefix {above : Location} (h : IsOpen fs loc) (hab : above <+: loc) :
    IsOpen fs above where
  way l hl := h.way l (hl.trans hab)
  closed l l' hl hl' := h.closed l l' hl (hl'.trans hab)

theorem linkless (h : IsOpen fs loc) : Linkless fs loc := fun above hab target hl => by
  rcases h.way above hab with hn | hd
  · rw [hn] at hl
    cases hl
  · rw [hd] at hl
    cases hl

/-- Above what stands on an open way there are directories. -/
theorem isPlain (h : IsOpen fs loc) (hd : fs.node? loc = some .directory) : IsPlain fs loc :=
  fun above hab _ => (h.way above hab).resolve_left fun hn => by
    rw [h.closed above loc hab List.prefix_rfl hn] at hd
    cases hd

/-- An open way to a free place comes to a gap. -/
theorem exists_hasGap (h : IsOpen fs loc) (hfit : ∀ name ∈ loc, name.length ≤ maxNameLength)
    (hn : fs.node? loc = none) : ∃ gap, HasGap fs loc gap := by
  induction loc using List.reverseRecOn with
  | nil => cases hn
  | append_singleton front name ih =>
    have hfront := List.prefix_append front [name]
    rcases h.way front hfront with hfree | hd
    · obtain ⟨gap, above, hab, hl⟩ :=
        ih (h.of_prefix hfront) (fun n hm => hfit n (List.mem_append_left _ hm)) hfree
      exact ⟨gap, above, hab.trans hfront, hl⟩
    · refine ⟨front ++ [name], front ++ [name], List.prefix_rfl, ?_⟩
      exact IsPlain.leads_vacant (((h.of_prefix hfront).isPlain hd).snoc hd name)
        (List.concat_ne_nil name front) hfit hn

/-- **A directory is made along an open way**, with what is missing above it. -/
theorem makeTree (h : IsOpen fs loc) (hloc : loc.IsProper)
    (hfit : ∀ name ∈ loc, name.length ≤ maxNameLength) (hc : checkPath loc.path = .ok ()) :
    ∃ fs', fs.makeTree loc.path = (.ok (), fs') := by
  rcases h.way loc List.prefix_rfl with hn | hd
  swap
  · exact ⟨fs, (h.isPlain hd).makeTree hloc hd hfit hc⟩
  induction loc using List.reverseRecOn with
  | nil => cases hn
  | append_singleton front name ih =>
    have hfront := List.prefix_append front [name]
    have hproper := hloc.of_append.1
    have hfits : ∀ n ∈ front, n.length ≤ maxNameLength := fun n hm =>
      hfit n (List.mem_append_left _ hm)
    have hcheck := checkPath_of_above hfront hc
    have hopen := h.of_prefix hfront
    rw [makeTree_path_concat hloc]
    rcases hopen.way front List.prefix_rfl with hfree | hd
    · -- The place above is free too: it is made first.
      obtain ⟨gap, hgap⟩ := hopen.exists_hasGap hfits hfree
      obtain ⟨fs', hm⟩ := ih hopen hproper hfits hcheck hfree
      have hnode := makeTree_linkless hproper hopen.linkless hm
      have hd : fs'.node? front = some .directory := by rw [hnode, if_pos List.prefix_rfl]
      have hplain : IsPlain fs' (front ++ [name]) := fun above hab hne => by
        rw [hnode, if_pos ((List.prefix_concat_iff.mp hab).resolve_left hne)]
      have hlast : fs'.node? (front ++ [name]) = none := by
        have hlong : ¬front ++ [name] <+: front := fun hp =>
          Nat.not_succ_le_self front.length (by simpa using hp.length_le)
        rw [hnode, if_neg hlong, hn]
      rw [makeDirectory_of_hasGap hloc hc hgap, hm]
      dsimp only
      rw [if_pos rfl, hplain.makeDirectory hloc (List.concat_ne_nil _ _) hlast hfit hc]
      exact ⟨_, rfl⟩
    · have hplain := (hopen.isPlain hd).snoc hd name
      rw [hplain.makeDirectory hloc (List.concat_ne_nil _ _) hn hfit hc]
      exact ⟨_, rfl⟩

end IsOpen

end GuardedArchive.FileSystem
