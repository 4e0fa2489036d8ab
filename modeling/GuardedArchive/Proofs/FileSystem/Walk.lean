import GuardedArchive.FileSystem.Walk
import GuardedArchive.Proofs.FileSystem.Moving
import Mathlib.Data.List.Nodup

/-!
# Proofs/FileSystem/Walk — a walk finds everything below its start, once and in order

In a file system that stores each location once, the walk from a directory finds exactly what stands
below it (`mem_depthFirst_iff`), each location once (`nodup_depthFirst`), a directory before what it
holds and names in order (`pairwise_depthFirst`).  What stands elsewhere makes no difference to it
(`depthFirst_put`), and the content of a file none but to what is found in its place
(`depthFirst_refill`).
-/

namespace GuardedArchive.FileSystem

variable {fs : FileSystem} {root loc : Location} {node : Node}

/-- **Each location is stored once**, and its names are ones that a directory can hold. -/
structure IsListed (fs : FileSystem) : Prop where
  nodup : (fs.nodes.map (·.1)).Nodup
  proper : ∀ e ∈ fs.nodes, Location.IsProper e.1
  fits : ∀ e ∈ fs.nodes, ∀ name ∈ e.1, name.length ≤ maxNameLength

theorem find?_eq_some_iff : ∀ {ns : List (Location × Node)}, (ns.map (·.1)).Nodup →
    (find? loc ns = some node ↔ (loc, node) ∈ ns)
  | [], _ => by simp [find?]
  | (l, n) :: rest, h => by
    obtain ⟨hnew, hrest⟩ := List.nodup_cons.mp (List.map_cons ▸ h)
    rw [find?, List.mem_cons, Prod.mk.injEq]
    by_cases hl : l = loc
    · subst hl
      have hout : (l, node) ∉ rest := fun hm => hnew (List.mem_map.mpr ⟨_, hm, rfl⟩)
      rw [if_pos rfl, Option.some.injEq, or_iff_left hout, eq_comm]
      exact (and_iff_right rfl).symm
    · rw [if_neg hl, find?_eq_some_iff hrest]
      exact (or_iff_right fun he => hl he.1.symm).symm

theorem IsListed.isProper (h : IsListed fs) (hn : fs.node? loc = some node) :
    loc.IsProper :=
  of_node?_eq (fun _ hm => absurd hm List.not_mem_nil) h.proper hn

theorem IsListed.length_le (h : IsListed fs) (hn : fs.node? loc = some node) :
    ∀ name ∈ loc, name.length ≤ maxNameLength :=
  of_node?_eq (P := fun loc => ∀ name ∈ loc, name.length ≤ maxNameLength)
    (fun _ hm => absurd hm List.not_mem_nil) h.fits hn

theorem IsListed.put (h : IsListed fs) (hne : loc ≠ []) (hfree : fs.node? loc = none)
    (hproper : loc.IsProper) (hfits : ∀ name ∈ loc, name.length ≤ maxNameLength) (node : Node) :
    IsListed (fs.put loc node) := by
  have hnodes := fs.nodes_put hne hfree node
  rw [node?_of_ne_nil fs hne, find?_eq_none_iff] at hfree
  refine ⟨?_, fun e he => ?_, fun e he => ?_⟩
  · rw [hnodes, List.map_append]
    refine List.nodup_append.mpr ⟨h.nodup, List.nodup_singleton _, fun l hl l' hl' => ?_⟩
    obtain ⟨e, he, rfl⟩ := List.mem_map.mp hl
    exact List.mem_singleton.mp hl' ▸ hfree e he
  · rcases List.mem_append.mp (hnodes ▸ he) with he | he
    · exact h.proper e he
    · exact List.mem_singleton.mp he ▸ hproper
  · rcases List.mem_append.mp (hnodes ▸ he) with he | he
    · exact h.fits e he
    · exact List.mem_singleton.mp he ▸ hfits

/-! ## What the walk finds -/

/-- What is stored for a location, as the walk from `root` finds it. -/
def foundFrom (root : Location) (e : Location × Node) : Option (Location × Node) :=
  if root.isPrefixOf e.1 && e.1 != root then some (e.1.drop root.length, e.2) else none

theorem foundFrom_eq_some_iff {e : Location × Node} : foundFrom root e = some (loc, node)
    ↔ loc ≠ [] ∧ e = (root ++ loc, node) := by
  obtain ⟨l, n⟩ := e
  rw [foundFrom]
  constructor
  · intro h
    split at h
    next hbelow =>
      obtain ⟨hpre, hne⟩ := by simpa using hbelow
      obtain ⟨rel, rfl⟩ := hpre
      obtain ⟨rfl, rfl⟩ : rel = loc ∧ n = node := by simpa using h
      exact ⟨fun hnil => hne (by simp [hnil]), rfl⟩
    next => cases h
  · rintro ⟨hne, he⟩
    obtain ⟨rfl, rfl⟩ := Prod.mk.inj he
    simp [hne]

theorem depthFirst_eq (fs : FileSystem) (root : Location) : fs.depthFirst root
    = (fs.nodes.filterMap (foundFrom root)).mergeSort fun a b => decide (a.1 ≤ b.1) := rfl

/-- **The walk finds exactly what stands below its start.** -/
theorem mem_depthFirst_iff (h : IsListed fs) : (loc, node) ∈ fs.depthFirst root
    ↔ loc ≠ [] ∧ fs.node? (root ++ loc) = some node := by
  rw [depthFirst_eq, List.mem_mergeSort, List.mem_filterMap]
  simp only [foundFrom_eq_some_iff]
  constructor
  · rintro ⟨e, he, hne, rfl⟩
    refine ⟨hne, ?_⟩
    rw [node?, if_neg (List.append_ne_nil_of_right_ne_nil _ hne)]
    exact (find?_eq_some_iff h.nodup).mpr he
  · rintro ⟨hne, hn⟩
    rw [node?, if_neg (List.append_ne_nil_of_right_ne_nil _ hne)] at hn
    exact ⟨_, (find?_eq_some_iff h.nodup).mp hn, hne, rfl⟩

theorem nodup_map_foundFrom : ∀ {ns : List (Location × Node)}, (ns.map (·.1)).Nodup →
    ((ns.filterMap (foundFrom root)).map (·.1)).Nodup
  | [], _ => .nil
  | e :: rest, h => by
    obtain ⟨hnew, hrest⟩ := List.nodup_cons.mp (List.map_cons ▸ h)
    have ih := nodup_map_foundFrom hrest
    rw [List.filterMap_cons]
    rcases he : foundFrom root e with _ | ⟨l, n⟩
    · exact ih
    · obtain ⟨-, rfl⟩ := foundFrom_eq_some_iff.mp he
      refine List.nodup_cons.mpr ⟨fun hm => ?_, ih⟩
      obtain ⟨⟨l', n'⟩, hmem, rfl⟩ := List.mem_map.mp hm
      obtain ⟨e', he', hfound⟩ := List.mem_filterMap.mp hmem
      obtain ⟨-, rfl⟩ := foundFrom_eq_some_iff.mp hfound
      exact hnew (List.mem_map.mpr ⟨_, he', rfl⟩)

/-- **The walk comes to each location once.** -/
theorem nodup_depthFirst (h : IsListed fs) (root : Location) :
    ((fs.depthFirst root).map (·.1)).Nodup :=
  ((List.mergeSort_perm _ _).map _).nodup_iff.mpr (nodup_map_foundFrom h.nodup)

/-- **The walk goes by the order of the locations**: a directory comes before what it holds, and
what one directory holds comes by name. -/
theorem pairwise_depthFirst (fs : FileSystem) (root : Location) :
    (fs.depthFirst root).Pairwise fun a b => a.1 ≤ b.1 := by
  refine (List.pairwise_mergeSort (fun a b c hab hbc => ?_) (fun a b => ?_) _).imp fun h =>
    of_decide_eq_true h
  · exact decide_eq_true (List.le_trans (of_decide_eq_true hab) (of_decide_eq_true hbc))
  · simpa using List.le_total a.1 b.1

/-! ## What stands elsewhere -/

theorem filterMap_foundFrom_store (hout : ¬root <+: loc) (node : Node) :
    ∀ ns : List (Location × Node),
      (store loc node ns).filterMap (foundFrom root) = ns.filterMap (foundFrom root)
  | [] => by
    have hnone : foundFrom root (loc, node) = none := by simp [foundFrom, hout]
    rw [store, List.filterMap_cons, hnone]
  | (l, n) :: rest => by
    rw [store]
    split
    next hl =>
      have hnone : ∀ n, foundFrom root (loc, n) = none := fun n => by simp [foundFrom, hout]
      rw [hl, List.filterMap_cons, List.filterMap_cons, hnone, hnone]
    next => rw [List.filterMap_cons, List.filterMap_cons, filterMap_foundFrom_store hout node rest]

/-- **A walk does not see what stands elsewhere.** -/
theorem depthFirst_put (hout : ¬root <+: loc) (node : Node) :
    (fs.put loc node).depthFirst root = fs.depthFirst root := by
  rw [depthFirst_eq, depthFirst_eq, put, filterMap_foundFrom_store hout]

/-! ## What stands in one place -/

/-- What is found, with this content where it stands at `loc`. -/
def refill (root loc : Location) (content : Bytes) (e : Location × Node) : Location × Node :=
  if root ++ e.1 = loc then (e.1, .file content) else e

theorem fst_refill (root loc : Location) (content : Bytes) (e : Location × Node) :
    (refill root loc content e).1 = e.1 := by
  rw [refill]
  split <;> rfl

/-- **The content of a file is found in its place**, and makes no difference to the walk. -/
theorem depthFirst_refill (hne : loc ≠ []) (hfree : fs.node? loc = none) (root : Location)
    (before after : Bytes) : (fs.put loc (.file after)).depthFirst root
      = ((fs.put loc (.file before)).depthFirst root).map (refill root loc after) := by
  have hrest : (fs.nodes.filterMap (foundFrom root)).map (refill root loc after)
      = fs.nodes.filterMap (foundFrom root) := by
    refine (List.map_congr_left fun e he => ?_).trans (List.map_id _)
    obtain ⟨e', he', hfound⟩ := List.mem_filterMap.mp he
    obtain ⟨-, rfl⟩ := foundFrom_eq_some_iff.mp hfound
    rw [node?_of_ne_nil fs hne, find?_eq_none_iff] at hfree
    exact if_neg (hfree _ he')
  have hlast : ([(loc, .file before)].filterMap (foundFrom root)).map (refill root loc after)
      = [(loc, .file after)].filterMap (foundFrom root) := by
    by_cases hbelow : (root.isPrefixOf loc && loc != root) = true
    · have hdrop : root ++ loc.drop root.length = loc :=
        List.prefix_iff_eq_append.mp (List.isPrefixOf_iff_prefix.mp (by simp_all))
      simp [foundFrom, hbelow, refill, hdrop]
    · simp [foundFrom, hbelow]
  have horder : ∀ found : List (Location × Node), ∀ a ∈ found, ∀ b ∈ found,
      decide (a.1 ≤ b.1)
        = decide ((refill root loc after a).1 ≤ (refill root loc after b).1) :=
    fun _ a _ b _ => by rw [fst_refill, fst_refill]
  rw [depthFirst_eq, depthFirst_eq, fs.nodes_put hne hfree, fs.nodes_put hne hfree,
    List.map_mergeSort (s := fun a b => decide (a.1 ≤ b.1)) (horder _), List.filterMap_append,
    List.filterMap_append, List.map_append, hrest, hlast]

end GuardedArchive.FileSystem
