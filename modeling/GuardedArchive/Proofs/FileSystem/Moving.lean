import GuardedArchive.Proofs.FileSystem.Direct

/-!
# Proofs/FileSystem/Moving — what removing and moving trees changes

Each change is told by the node at every location: a tree that is erased leaves nothing at its
location and below (`node?_eraseTree`), and one that is moved is found at its new place as it was at
the old one (`node?_moveTree`).  Everything else is what it was.  A directory that was removed
leaves its place to another one of the same parent (`rename_removed`).
-/

namespace GuardedArchive.FileSystem

variable {fs fs' : FileSystem} {loc source target other : Location} {p : Path}

theorem find?_eq_none_iff {ns : List (Location × Node)} :
    find? loc ns = none ↔ ∀ e ∈ ns, e.1 ≠ loc := by
  induction ns with
  | nil => simp [find?]
  | cons e rest ih =>
    obtain ⟨l, n⟩ := e
    rw [find?]
    split
    next he => simp [he]
    next he => simp [ih, he]

/-- What stands at a location below the top is what is stored for it. -/
theorem node?_of_ne_nil (fs : FileSystem) (h : loc ≠ []) : fs.node? loc = find? loc fs.nodes :=
  if_neg h

/-! ## Removing -/

theorem node?_eraseTree (fs : FileSystem) (h : loc ≠ []) (other : Location) :
    (fs.eraseTree loc).node? other = if loc <+: other then none else fs.node? other := by
  by_cases ho : other = []
  · subst ho
    simp [node?, h]
  · rw [node?_of_ne_nil _ ho, node?_of_ne_nil _ ho, eraseTree,
      find?_filter (fun l => !loc.isPrefixOf l) other fs.nodes]
    simp only [Bool.not_eq_true', ← Bool.not_eq_true, List.isPrefixOf_iff_prefix, ite_not]

/-- What is put into a free place is stored behind the rest. -/
theorem nodes_put (fs : FileSystem) (h : loc ≠ []) (hn : fs.node? loc = none) (node : Node) :
    (fs.put loc node).nodes = fs.nodes ++ [(loc, node)] := by
  rw [node?_of_ne_nil fs h, find?_eq_none_iff] at hn
  have hstore : ∀ ns : List (Location × Node), (∀ e ∈ ns, e.1 ≠ loc) →
      store loc node ns = ns ++ [(loc, node)] := by
    intro ns hne
    induction ns with
    | nil => rfl
    | cons e rest ih =>
      obtain ⟨hhead, hrest⟩ := List.forall_mem_cons.mp hne
      rw [store, if_neg hhead, ih hrest, List.cons_append]
  exact hstore fs.nodes hn

/-- **Erasing what was put into a free place takes it back.** -/
theorem erase_put (fs : FileSystem) (h : loc ≠ []) (hn : fs.node? loc = none) (node : Node) :
    (fs.put loc node).erase loc = fs := by
  have hkept : fs.nodes.filter (fun e => e.1 ≠ loc) = fs.nodes := by
    rw [node?_of_ne_nil fs h, find?_eq_none_iff] at hn
    exact List.filter_eq_self.mpr fun e he => decide_eq_true (hn e he)
  have hlast : [(loc, node)].filter (fun e => e.1 ≠ loc) = [] := by simp
  rw [erase, fs.nodes_put h hn, List.filter_append, hkept, hlast, List.append_nil]
  rfl

/-- **A directory has no names in it** exactly where nothing stands right below it. -/
theorem children_eq_nil_iff : fs.children loc = [] ↔ ∀ name, fs.node? (loc ++ [name]) = none := by
  have hfree : ∀ name, fs.node? (loc ++ [name]) = none ↔ ∀ e ∈ fs.nodes, e.1 ≠ loc ++ [name] :=
    fun name => by rw [node?_of_ne_nil _ (List.concat_ne_nil name loc), find?_eq_none_iff]
  have hnil : fs.children loc = []
      ↔ ∀ e ∈ fs.nodes, e.1.dropLast = loc → e.1.getLast? = none := by
    rw [children, ← List.length_eq_zero_iff, List.length_mergeSort, List.length_eq_zero_iff,
      List.filterMap_eq_nil_iff]
    simp only [ite_eq_right_iff]
  simp only [hnil, hfree]
  constructor
  · rintro h name e he rfl'
    have := h e he (by rw [rfl', List.dropLast_concat])
    rw [rfl', List.getLast?_concat] at this
    cases this
  · intro h e he hloc
    rcases List.eq_nil_or_concat' e.1 with hn | ⟨front, name, hn⟩
    · rw [hn]
      rfl
    · rw [hn, List.dropLast_concat] at hloc
      exact absurd (hloc ▸ hn) (h name e he)

/-- In a tree nothing stands below a directory that has no names in it. -/
theorem IsTree.free_of_children (h : IsTree fs) (hc : fs.children loc = []) {rel : Location}
    (hne : rel ≠ []) : fs.node? (loc ++ rel) = none := by
  obtain ⟨name, rel, rfl⟩ := List.exists_cons_of_ne_nil hne
  exact h.free_below (children_eq_nil_iff.mp hc name) ⟨rel, by simp⟩

theorem removeDirectory_eq_ok (h : fs.removeDirectory p = .ok fs') : ∃ loc,
    fs.nodeAt false p = .ok (loc, .directory) ∧ fs.children loc = [] ∧ loc ≠ []
      ∧ fs' = fs.erase loc := by
  rw [removeDirectory] at h
  split at h
  next => cases h
  next loc hn =>
    split at h
    next hc => exact ⟨loc, hn, hc.1, hc.2, (Except.ok.inj h).symm⟩
    next => cases h
  next => cases h

/-! ## Moving -/

/-- Where a location of a moved tree stood. -/
theorem find?_map_move (hst : ¬source <+: target) (other : Location) :
    ∀ {ns : List (Location × Node)}, (∀ e ∈ ns, ¬target <+: e.1) →
      find? other (ns.map fun e =>
        if source.isPrefixOf e.1 then (target ++ e.1.drop source.length, e.2) else e)
      = if target <+: other then find? (source ++ other.drop target.length) ns
        else if source <+: other then none else find? other ns
  | [], _ => by simp [find?]
  | (l, n) :: rest, hfree => by
    have ih := find?_map_move hst other fun e he => hfree e (List.mem_cons_of_mem _ he)
    have hl : ¬target <+: l := hfree (l, n) List.mem_cons_self
    rw [List.map_cons]
    by_cases hs : source <+: l
    · obtain ⟨rel, rfl⟩ := hs
      rw [if_pos (List.isPrefixOf_iff_prefix.mpr (List.prefix_append _ _)), find?, ih,
        List.drop_left]
      by_cases ht : target <+: other
      · obtain ⟨o, rfl⟩ := ht
        simp only [if_pos (List.prefix_append target o), List.append_cancel_left_eq, find?,
          List.drop_left]
      · rw [if_neg ht, if_neg ht]
        have hne : target ++ rel ≠ other := fun he => ht ⟨rel, he⟩
        rw [if_neg hne, find?]
        by_cases hso : source <+: other
        · rw [if_pos hso, if_pos hso]
        · rw [if_neg hso, if_neg hso, if_neg fun he => hso ⟨rel, he⟩]
    · rw [if_neg (by simpa [List.isPrefixOf_iff_prefix] using hs), find?, ih]
      by_cases ht : target <+: other
      · obtain ⟨o, rfl⟩ := ht
        have hne : l ≠ target ++ o := fun he => hl ⟨o, he.symm⟩
        have hne' : l ≠ source ++ o := fun he => hs ⟨o, he.symm⟩
        simp only [if_pos (List.prefix_append target o), if_neg hne, find?, List.drop_left,
          if_neg hne']
      · rw [if_neg ht, if_neg ht, find?]
        by_cases hso : source <+: other
        · have hne : l ≠ other := fun he => hs (he ▸ hso)
          rw [if_pos hso, if_pos hso, if_neg hne]
        · rw [if_neg hso, if_neg hso]

/-- **A tree that was moved to a free place** is there what it was, and is gone from its old
place. -/
theorem node?_moveTree (hs : source ≠ []) (ht : target ≠ []) (hst : ¬source <+: target)
    (hfree : ∀ rel, fs.node? (target ++ rel) = none) (other : Location) :
    (fs.moveTree source target).node? other
      = if target <+: other then fs.node? (source ++ other.drop target.length)
        else if source <+: other then none else fs.node? other := by
  by_cases ho : other = []
  · subst ho
    simp [node?, hs, ht]
  · have hnodes : ∀ e ∈ fs.nodes, ¬target <+: e.1 := by
      rintro e he ⟨rel, hrel⟩
      have := hfree rel
      rw [node?_of_ne_nil _ (by simp [ht]), find?_eq_none_iff] at this
      exact this e he hrel.symm
    rw [node?_of_ne_nil _ ho, moveTree, find?_map_move hst other hnodes, node?_of_ne_nil _ ho,
      node?_of_ne_nil _ (by simp [hs])]

/-- The tree at `source` was moved to `target`, where nothing stood but, perhaps, an empty
directory. -/
structure Moved (fs : FileSystem) (source target : Location) (fs' : FileSystem) : Prop where
  free : fs.node? target = none ∨ fs.node? target = some .directory
  below : ∀ rel, rel ≠ [] → fs.node? (target ++ rel) = none
  node : ∀ other, fs'.node? other
    = if target <+: other then fs.node? (source ++ other.drop target.length)
      else if source <+: other then none else fs.node? other
  workingDirectory : fs'.workingDirectory = fs.workingDirectory

theorem Moved.of_vacant (hs : source ≠ []) (ht : target ≠ []) (hst : ¬source <+: target)
    (hfree : ∀ rel, fs.node? (target ++ rel) = none) :
    Moved fs source target (fs.moveTree source target) where
  free := .inl (by simpa using hfree [])
  below rel _ := hfree rel
  node := node?_moveTree hs ht hst hfree
  workingDirectory := rfl

theorem Moved.of_empty (hs : source ≠ []) (ht : target ≠ []) (hst : ¬source <+: target)
    (hd : fs.node? target = some .directory)
    (hfree : ∀ rel, rel ≠ [] → fs.node? (target ++ rel) = none) :
    Moved fs source target ((fs.erase target).moveTree source target) where
  free := .inr hd
  below := hfree
  node other := by
    have herased : ∀ rel, (fs.erase target).node? (target ++ rel) = none := fun rel => by
      rw [fs.node?_erase ht]
      split
      next => rfl
      next hrel => exact hfree rel fun he => hrel (by simp [he])
    -- nothing stands below the target, so the source does not
    have hts : ∀ rel, target ≠ source ++ rel := fun rel he => hst ⟨rel, he.symm⟩
    rw [node?_moveTree hs ht hst herased, fs.node?_erase ht, fs.node?_erase ht, if_neg (hts _)]
    split
    next => rfl
    next hpre => rw [if_neg fun he : target = other => hpre (he ▸ List.prefix_rfl)]
  workingDirectory := rfl

/-- **A directory takes another name** by being moved to a free place or to that of an empty
directory, unless it has the name already. -/
theorem rename_eq_ok (htree : IsTree fs) (hs : source ≠ [])
    (hsource : fs.node? source = some .directory) (h : fs.rename source p = .ok fs') :
    ∃ place, fs.resolveSteps false p p.steps = .ok place
      ∧ (source = place.location ∧ fs' = fs ∨ source ≠ place.location
        ∧ (¬source <+: place.location → Moved fs source place.location fs')) := by
  rw [rename] at h
  split at h
  next => cases h
  next target hr =>
    obtain ⟨hn, dir, name, rfl, -⟩ := (placeOf_eq_ok_iff.mp hr).2.vacant
    split at h
    next => cases h
    next hpre =>
      obtain rfl := Except.ok.inj h
      refine ⟨_, hr, .inr ⟨?_, fun hst => .of_vacant hs (List.concat_ne_nil name dir) hst
        fun rel => htree.free_below hn (List.prefix_append _ _)⟩⟩
      rintro rfl
      exact hpre (List.isPrefixOf_iff_prefix.mpr List.prefix_rfl)
  next target node hr =>
    have hn := (placeOf_eq_ok_iff.mp hr).2.node?_eq
    split at h
    next he =>
      obtain rfl := Except.ok.inj h
      exact ⟨_, hr, .inl ⟨he, rfl⟩⟩
    next hne =>
      rw [hsource] at h
      rcases node with _ | content | link | _ <;> dsimp only at h
      · split at h
        next hc =>
          obtain rfl := Except.ok.inj h
          exact ⟨_, hr, .inr ⟨hne, fun hst => .of_empty hs hc.2 hst hn
            fun rel hrel => htree.free_of_children hc.1 hrel⟩⟩
        next => cases h
      · cases h
      · cases h
      · cases h

/-! ## In one directory -/

theorem nodeAt_path (hloc : loc.IsProper) {followLast : Bool} {node : Node} :
    fs.nodeAt followLast loc.path = .ok (other, node) ↔ checkPath loc.path = .ok ()
      ∧ Leads fs followLast false maxLinks [] (loc.map .into) (.occupied other node) := by
  rw [nodeAt_eq_ok_iff, startOf_path, leads_lookupSteps_path hloc]

theorem resolveSteps_path (hloc : loc.IsProper) {followLast : Bool} {place : Place} :
    fs.resolveSteps followLast loc.path loc.path.steps = .ok place ↔ checkPath loc.path = .ok ()
      ∧ Leads fs followLast false maxLinks [] (loc.map .into) place := by
  rw [resolveSteps, placeOf_eq_ok_iff, startOf_path, Path.steps_path hloc]

theorem not_prefix_concat {dir : Location} {a b : Name} (h : a ≠ b) :
    ¬dir ++ [a] <+: dir ++ [b] := by
  rw [List.prefix_append_right_inj, List.cons_prefix_cons]
  exact fun hp => h hp.1

/-- What is above a directory is not a name in it. -/
theorem ne_concat_of_above {dir above : Location} (h : above <+: dir) (a : Name) :
    above ≠ dir ++ [a] := by
  rintro rfl
  have hlen := h.length_le
  rw [List.length_append, List.length_singleton] at hlen
  omega

/-- A name that is removed from a directory is not on the ways past it. -/
theorem IsPlain.erase {dir : Location} {a b : Name} (h : IsPlain fs (dir ++ [a])) (hne : a ≠ b) :
    IsPlain (fs.erase (dir ++ [b])) (dir ++ [a]) := fun above hab hlast => by
  rw [fs.node?_erase (List.concat_ne_nil b dir), if_neg, h above hab hlast]
  rintro rfl
  exact not_prefix_concat hne.symm hab

/-- **Where a directory was removed, another one of its parent takes its name.** -/
theorem rename_removed {dir : Location} {a b : Name} (htree : IsTree fs) (hne : a ≠ b)
    (ha : Location.IsProper (dir ++ [a])) (hb : Location.IsProper (dir ++ [b]))
    (hplain : IsPlain fs (dir ++ [a])) (hd : fs.node? (dir ++ [a]) = some .directory)
    (hat : fs.nodeAt false (Location.path (dir ++ [a])) = .ok (dir ++ [a], .directory))
    (hr : fs.removeDirectory (Location.path (dir ++ [b])) = .ok fs') :
    fs'.nodeAt false (Location.path (dir ++ [a])) = .ok (dir ++ [a], .directory)
      ∧ ∃ fs'', fs'.rename (dir ++ [a]) (Location.path (dir ++ [b])) = .ok fs''
        ∧ Moved fs (dir ++ [a]) (dir ++ [b]) fs'' := by
  obtain ⟨loc, hb', hc, -, rfl⟩ := removeDirectory_eq_ok hr
  have hfree : Linkless fs dir := fun above hab target hl => by
    rw [hplain above (hab.trans (List.prefix_append _ _)) (ne_concat_of_above hab a)] at hl
    cases hl
  obtain ⟨hcheck, hlast⟩ := (nodeAt_path hb).mp hb'
  obtain rfl : loc = dir ++ [b] := hlast.location_concat hfree
  have hbn : dir ++ [b] ≠ [] := List.concat_ne_nil b dir
  obtain ⟨hcheck', hway⟩ := (nodeAt_path ha).mp hat
  have hplain' := hplain.erase hne
  constructor
  · refine (nodeAt_path ha).mpr ⟨hcheck', ?_⟩
    refine IsPlain.leads hplain' hway.fits ?_ Node.directory_ne_link
    rw [List.nil_append, fs.node?_erase hbn, if_neg, hd]
    simpa using hne.symm
  · have hvacant : (fs.erase (dir ++ [b])).resolveSteps false (Location.path (dir ++ [b]))
        (Location.path (dir ++ [b])).steps = .ok (.vacant (dir ++ [b])) := by
      refine (resolveSteps_path hb).mpr ⟨hcheck, ?_⟩
      have hup : IsPlain (fs.erase (dir ++ [b])) (dir ++ [b]) := fun above hab hlast => by
        have hab := (List.prefix_concat_iff.mp hab).resolve_left hlast
        exact hplain' above (hab.trans (List.prefix_append _ _)) (ne_concat_of_above hab a)
      refine IsPlain.leads_vacant hup hbn hlast.fits ?_
      rw [List.nil_append, fs.node?_erase hbn, if_pos rfl]
    rw [rename, hvacant]
    dsimp only
    rw [if_neg fun hp => not_prefix_concat hne (List.isPrefixOf_iff_prefix.mp hp)]
    exact ⟨_, rfl, .of_empty (List.concat_ne_nil a dir) hbn (not_prefix_concat hne)
      hlast.node?_eq fun rel hrel => htree.free_of_children hc hrel⟩

end GuardedArchive.FileSystem
