import GuardedArchive.Creation.Archive
import GuardedArchive.Proofs.Path.Spelling
import GuardedArchive.Proofs.Zip.Writing
import Mathlib.Algebra.GroupWithZero.Nat
import Mathlib.Data.List.Dedup

/-!
# Proofs/Creation/Plan — the entries that a walk calls for

    a/b/f   ⟶   a/  a/b/  a/b/f        each directory only where it has no entry yet

Each regular file of a walk calls for an entry, behind entries for those of its ancestors that have
none.  `planNext` adds what one thing found calls for, and `plan` all of a walk.  What is planned is
told by the walk (`Plans`): the files in its order, the directories that they stand in, nothing
twice, and everything behind its ancestors.
-/

namespace GuardedArchive.Creation

open Zip (Method Written)

/-- What becomes an entry, at its location below the source. -/
inductive Planned
  | directory (loc : Location)
  | file (loc : Location) (content : Bytes)
deriving DecidableEq

namespace Planned

def location : Planned → Location
  | directory loc => loc
  | file loc _ => loc

/-- The content of the entry; a directory has none. -/
def content : Planned → Bytes
  | directory _ => []
  | file _ content => content

/-- The name of the entry: a directory's ends with a slash. -/
def name : Planned → Bytes
  | directory loc => Path.joined loc ++ [Path.slash]
  | file loc _ => Path.joined loc

def isDirectory : Planned → Bool
  | directory _ => true
  | file _ _ => false

/-- The location and content of a file. -/
def file? : Planned → Option (Location × Bytes)
  | directory _ => none
  | file loc content => some (loc, content)

/-- The location of a directory. -/
def directory? : Planned → Option Location
  | directory loc => some loc
  | file _ _ => none

/-- The entry as it is written. -/
def written (method : Method) : Planned → Written
  | directory loc => (⟨(directory loc).name, .stored, Zip.directoryMode⟩, [])
  | file loc content => (⟨(file loc content).name, method, Zip.fileMode⟩, content)

end Planned

/-- The location and content of a regular file that was found. -/
def foundFile? : Location × Node → Option (Location × Bytes)
  | (loc, .file content) => some (loc, content)
  | _ => none

/-! ## Ancestors -/

/-- The directories that a location stands in, outermost first, without the top one. -/
def ancestors (loc : Location) : List Location :=
  ((List.range loc.length).drop 1).map fun n => loc.take n

theorem ancestorNames_eq (loc : Location) :
    ancestorNames loc = (ancestors loc).map Path.joined := by
  rw [ancestorNames, ancestors, List.map_map]
  rfl

@[simp] theorem ancestors_nil : ancestors [] = [] := rfl

theorem ancestors_singleton (name : Name) : ancestors [name] = [] := rfl

theorem ancestors_concat {loc : Location} (hne : loc ≠ []) (name : Name) :
    ancestors (loc ++ [name]) = ancestors loc ++ [loc] := by
  have hpos : 1 ≤ (List.range loc.length).length := by
    rw [List.length_range]
    exact List.length_pos_iff.mpr hne
  rw [ancestors, ancestors, List.length_append, List.length_singleton, List.range_succ,
    List.drop_append_of_le_length hpos, List.map_append, List.map_singleton, List.take_left]
  refine congrArg (· ++ [loc]) (List.map_congr_left fun n hn => ?_)
  have hlt : n < loc.length := List.mem_range.mp (List.mem_of_mem_drop hn)
  exact List.take_append_of_le_length (Nat.le_of_lt hlt)

/-- **The ancestors are the locations strictly above**, without the top one. -/
theorem mem_ancestors_iff {loc above : Location} :
    above ∈ ancestors loc ↔ above ≠ [] ∧ above <+: loc ∧ above ≠ loc := by
  induction loc using List.reverseRecOn with
  | nil => simp
  | append_singleton front name ih =>
    by_cases hne : front = []
    · subst hne
      simp only [List.nil_append, ancestors_singleton, List.not_mem_nil, false_iff]
      rintro ⟨hnil, hpre, hlast⟩
      rcases List.prefix_concat_iff.mp (List.nil_append [name] ▸ hpre) with he | he
      · exact hlast he
      · exact hnil (List.prefix_nil.mp he)
    · rw [ancestors_concat hne, List.mem_append, List.mem_singleton, ih]
      constructor
      · rintro (⟨hnil, hpre, -⟩ | rfl)
        · refine ⟨hnil, hpre.trans (List.prefix_append _ _), fun he => ?_⟩
          have hlen := hpre.length_le
          rw [he, List.length_append] at hlen
          exact Nat.not_succ_le_self _ hlen
        · exact ⟨hne, List.prefix_append _ _, by simp⟩
      · rintro ⟨hnil, hpre, hlast⟩
        have hpre := (List.prefix_concat_iff.mp hpre).resolve_left hlast
        by_cases he : above = front
        · exact .inr he
        · exact .inl ⟨hnil, hpre, he⟩

theorem nodup_ancestors (loc : Location) : (ancestors loc).Nodup := by
  induction loc using List.reverseRecOn with
  | nil => exact .nil
  | append_singleton front name ih =>
    by_cases hne : front = []
    · subst hne
      exact .nil
    · rw [ancestors_concat hne]
      exact List.nodup_append.mpr ⟨ih, List.nodup_singleton _, fun a ha b hb he => by
        obtain rfl := List.mem_singleton.mp hb
        exact (mem_ancestors_iff.mp ha).2.2 he⟩

/-- **Outer directories come first** among the ancestors. -/
theorem ancestors_ordered {loc above : Location} : ∀ {front back : List Location},
    ancestors loc = front ++ above :: back → ∀ higher ∈ ancestors above, higher ∈ front := by
  induction loc using List.reverseRecOn with
  | nil =>
    exact fun h => absurd h.symm (List.append_ne_nil_of_right_ne_nil _ (List.cons_ne_nil _ _))
  | append_singleton upper name ih =>
    intro front back h higher hhigher
    by_cases hne : upper = []
    · subst hne
      exact absurd h.symm (List.append_ne_nil_of_right_ne_nil _ (List.cons_ne_nil _ _))
    rw [ancestors_concat hne] at h
    rcases List.eq_nil_or_concat' back with rfl | ⟨more, last, rfl⟩
    · obtain ⟨hfront, hlast⟩ := List.append_inj' h rfl
      obtain rfl : upper = above := (List.cons.inj hlast).1
      exact hfront ▸ hhigher
    · rw [← List.cons_append, ← List.append_assoc] at h
      exact ih (List.append_inj' h rfl).1 higher hhigher

/-! ## Planning -/

/-- The directories that a location needs entries for. -/
def missing (planned : List Planned) (loc : Location) : List Location :=
  (ancestors loc).filter fun d => .directory d ∉ planned

/-- The plan with what one thing found calls for. -/
def planNext (planned : List Planned) : Location × Node → List Planned
  | (loc, .file content) =>
    planned ++ (missing planned loc).map .directory ++ [.file loc content]
  | _ => planned

/-- **The entries that a walk calls for.** -/
def plan (walk : List (Location × Node)) : List Planned := walk.foldl planNext []

/-- **What is planned is told by the walk so far.** -/
structure Plans (walk : List (Location × Node)) (planned : List Planned) : Prop where
  files : planned.filterMap Planned.file? = walk.filterMap foundFile?
  directories : ∀ d, .directory d ∈ planned
    ↔ ∃ file ∈ walk.filterMap foundFile?, d ∈ ancestors file.1
  nodup : planned.Nodup
  preceded : ∀ front p back, planned = front ++ p :: back →
    ∀ a ∈ ancestors p.location, .directory a ∈ front

variable {planned : List Planned} {walk : List (Location × Node)} {loc : Location}
  {content : Bytes}

theorem mem_missing_iff {d : Location} :
    d ∈ missing planned loc ↔ d ∈ ancestors loc ∧ .directory d ∉ planned := by
  rw [missing, List.mem_filter, decide_eq_true_iff]

theorem plans_nil : Plans [] [] where
  files := rfl
  directories d := by simp
  nodup := .nil
  preceded front p back h := absurd h.symm
    (List.append_ne_nil_of_right_ne_nil _ (List.cons_ne_nil _ _))

theorem filterMap_file?_directories (ds : List Location) :
    (ds.map Planned.directory).filterMap Planned.file? = [] := by
  rw [List.filterMap_map]
  exact List.filterMap_eq_nil_iff.mpr fun _ _ => rfl

/-- A file that was found is planned. -/
theorem Plans.mem_file_iff (h : Plans walk planned) :
    .file loc content ∈ planned ↔ (loc, content) ∈ walk.filterMap foundFile? := by
  rw [← h.files, List.mem_filterMap]
  constructor
  · exact fun hm => ⟨_, hm, rfl⟩
  · rintro ⟨_ | ⟨l, c⟩, hm, he⟩
    · cases he
    · obtain ⟨rfl, rfl⟩ := Prod.mk.inj (Option.some.inj he)
      exact hm

/-- Behind each directory of the list the front holds what a directory needs. -/
theorem preceded_append {ps qs : List Planned}
    (hp : ∀ front p back, ps = front ++ p :: back →
      ∀ a ∈ ancestors p.location, .directory a ∈ front)
    (hq : ∀ front q back, qs = front ++ q :: back →
      ∀ a ∈ ancestors q.location, .directory a ∈ ps ++ front) :
    ∀ front p back, ps ++ qs = front ++ p :: back →
      ∀ a ∈ ancestors p.location, .directory a ∈ front := by
  intro front p back h a ha
  rcases List.append_eq_append_iff.mp h with ⟨more, rfl, hqs⟩ | ⟨more, rfl, hback⟩
  · exact hq more p back hqs a ha
  · rcases more with _ | ⟨p', more⟩
    · rw [List.nil_append] at hback
      have := hq [] p back hback.symm a ha
      simpa using this
    · obtain ⟨rfl, -⟩ := List.cons.inj hback
      exact hp front p more rfl a ha

theorem preceded_missing (planned : List Planned) (loc : Location) :
    ∀ front p back, (missing planned loc).map .directory = front ++ p :: back →
      ∀ a ∈ ancestors p.location, .directory a ∈ planned ++ front := by
  intro front p back h a ha
  obtain ⟨above, rest, hsplit, rfl, hrest⟩ := List.map_eq_append_iff.mp h
  obtain ⟨d, below, rfl, rfl, -⟩ := List.map_eq_cons_iff.mp hrest
  by_cases hin : .directory a ∈ planned
  · exact List.mem_append_left _ hin
  obtain ⟨outer, inner, hanc, houter, hinner⟩ := List.filter_eq_append_iff.mp hsplit
  obtain ⟨skipped, after, rfl, hskipped, hd, -⟩ := List.filter_eq_cons_iff.mp hinner
  rw [← List.append_assoc] at hanc
  have hbefore := ancestors_ordered hanc a ha
  have hnew : a ∈ above := by
    rw [← houter, List.mem_filter]
    refine ⟨?_, by simpa using hin⟩
    rcases List.mem_append.mp hbefore with ho | hs
    · exact ho
    · exact absurd (by simpa using hin) (hskipped a hs)
  exact List.mem_append_right _ (List.mem_map_of_mem hnew)

theorem mem_planNext_iff {p : Planned} : p ∈ planNext planned (loc, .file content)
    ↔ p ∈ planned ∨ (∃ d ∈ missing planned loc, p = .directory d) ∨ p = .file loc content := by
  rw [planNext, List.mem_append, List.mem_append, List.mem_map, List.mem_singleton, or_assoc]
  simp only [eq_comm]

/-- **One file more is planned behind its ancestors.** -/
theorem Plans.file (h : Plans walk planned) (hnew : loc ∉ walk.map (·.1)) :
    Plans (walk ++ [(loc, .file content)]) (planNext planned (loc, .file content)) where
  files := by
    rw [planNext, List.filterMap_append, List.filterMap_append, filterMap_file?_directories,
      List.append_nil, h.files, List.filterMap_append]
    rfl
  directories d := by
    have hlast : [(loc, Node.file content)].filterMap foundFile? = [(loc, content)] := rfl
    rw [mem_planNext_iff, List.filterMap_append, hlast]
    simp only [List.mem_append, List.mem_singleton, or_and_right, exists_or, exists_eq_left,
      mem_missing_iff, Planned.directory.injEq, exists_eq_right', reduceCtorEq, or_false]
    rw [← h.directories d]
    exact or_congr_right' fun hd => and_iff_left hd
  nodup := by
    have hdirectories : ((missing planned loc).map Planned.directory).Nodup :=
      ((nodup_ancestors loc).filter _).map fun _ _ he => Planned.directory.inj he
    have hfile : .file loc content ∉ planned ++ (missing planned loc).map .directory := fun hm => by
      rcases List.mem_append.mp hm with hm | hm
      · obtain ⟨⟨l, n⟩, he, hf⟩ := List.mem_filterMap.mp (h.mem_file_iff.mp hm)
        rcases n with _ | c | _ | _ <;> cases hf
        exact hnew (List.mem_map_of_mem he)
      · obtain ⟨d, -, hd⟩ := List.mem_map.mp hm
        cases hd
    rw [planNext]
    refine List.nodup_append.mpr ⟨List.nodup_append.mpr ⟨h.nodup, hdirectories, ?_⟩,
      List.nodup_singleton _, fun p hp q hq he => ?_⟩
    · rintro p hp q hq rfl
      obtain ⟨d, hd, rfl⟩ := List.mem_map.mp hq
      exact (mem_missing_iff.mp hd).2 hp
    · rw [he, List.mem_singleton.mp hq] at hp
      exact hfile hp
  preceded := by
    rw [planNext]
    refine preceded_append (preceded_append h.preceded (preceded_missing planned loc)) ?_
    intro front q back hq a ha
    rcases front with _ | ⟨q', front⟩
    · obtain ⟨rfl, -⟩ := List.cons.inj hq
      rw [List.append_nil, List.mem_append]
      by_cases hin : .directory a ∈ planned
      · exact .inl hin
      · exact .inr (List.mem_map_of_mem (mem_missing_iff.mpr ⟨ha, hin⟩))
    · exact absurd (List.cons.inj hq).2.symm
        (List.append_ne_nil_of_right_ne_nil _ (List.cons_ne_nil _ _))

/-- What is no regular file calls for nothing. -/
theorem Plans.other {e : Location × Node} (h : Plans walk planned) (he : foundFile? e = none) :
    Plans (walk ++ [e]) (planNext planned e) := by
  have hwalk : (walk ++ [e]).filterMap foundFile? = walk.filterMap foundFile? := by
    rw [List.filterMap_append, List.filterMap_cons, he, List.filterMap_nil, List.append_nil]
  have hnext : planNext planned e = planned := by
    obtain ⟨l, _ | c | _ | _⟩ := e
    · rfl
    · cases he
    · rfl
    · rfl
  rw [hnext]
  exact ⟨by rw [hwalk]; exact h.files, fun d => by rw [hwalk]; exact h.directories d, h.nodup,
    h.preceded⟩

theorem Plans.next {e : Location × Node} (h : Plans walk planned) (hnew : e.1 ∉ walk.map (·.1)) :
    Plans (walk ++ [e]) (planNext planned e) := by
  obtain ⟨l, _ | c | _ | _⟩ := e
  · exact h.other rfl
  · exact h.file hnew
  · exact h.other rfl
  · exact h.other rfl

theorem Plans.foldl : ∀ {more : List (Location × Node)} {walk : List (Location × Node)}
    {planned : List Planned}, Plans walk planned → ((walk ++ more).map (·.1)).Nodup →
      Plans (walk ++ more) (more.foldl planNext planned)
  | [], walk, planned, h, _ => by rwa [List.append_nil]
  | e :: more, walk, planned, h, hnodup => by
    have hnew : e.1 ∉ walk.map (·.1) := by
      rw [List.map_append, List.nodup_append] at hnodup
      exact fun hm => hnodup.2.2 _ hm _ List.mem_cons_self rfl
    rw [List.append_cons] at hnodup ⊢
    exact Plans.foldl (h.next hnew) hnodup

/-- **The plan of a walk** holds the files in its order, the directories that they stand in, nothing
twice, and everything behind its ancestors. -/
theorem plans_plan (h : (walk.map (·.1)).Nodup) : Plans walk (plan walk) :=
  Plans.foldl plans_nil h

/-! ## How much is planned -/

/-- **The directories that files stand in**, each once. -/
def directoriesOf (files : List (Location × Bytes)) : List Location :=
  (files.flatMap fun file => ancestors file.1).dedup

theorem length_eq_add : ∀ planned : List Planned, planned.length
    = (planned.filterMap Planned.file?).length + (planned.filterMap Planned.directory?).length
  | [] => rfl
  | .directory _ :: rest => congrArg (· + 1) (length_eq_add rest)
  | .file _ _ :: rest => by
    have := length_eq_add rest
    simp only [List.length_cons, List.filterMap_cons, Planned.file?, Planned.directory?]
    omega

theorem mem_filterMap_directory?_iff {d : Location} :
    d ∈ planned.filterMap Planned.directory? ↔ .directory d ∈ planned := by
  rw [List.mem_filterMap]
  constructor
  · rintro ⟨_ | _, hm, he⟩
    · exact Option.some.inj he ▸ hm
    · cases he
  · exact fun hm => ⟨_, hm, rfl⟩

theorem nodup_filterMap_directory? (h : planned.Nodup) :
    (planned.filterMap Planned.directory?).Nodup := by
  refine h.filterMap fun p q d hp hq => ?_
  rcases p with _ | _ <;> rcases q with _ | _ <;> simp_all [Planned.directory?]

/-- **The directories that are planned** are those that the files stand in. -/
theorem Plans.perm_directories (h : Plans walk planned) :
    (planned.filterMap Planned.directory?).Perm (directoriesOf (walk.filterMap foundFile?)) := by
  refine (List.perm_ext_iff_of_nodup (nodup_filterMap_directory? h.nodup)
    (List.nodup_dedup _)).mpr fun d => ?_
  rw [mem_filterMap_directory?_iff, h.directories, List.mem_dedup, List.mem_flatMap]

/-- **A plan has an entry for each file, and one for each directory that they stand in.** -/
theorem Plans.length_eq (h : Plans walk planned) : planned.length
    = (walk.filterMap foundFile?).length
      + (directoriesOf (walk.filterMap foundFile?)).length := by
  rw [length_eq_add, h.files, h.perm_directories.length_eq]

/-! ## Names -/

theorem joined_injective {l l' : Location} (h : l.IsProper) (h' : l'.IsProper)
    (he : Path.joined l = Path.joined l') : l = l' := by
  have hpath : l.path = l'.path := by rw [Location.path, Location.path, he]
  have hsteps := congrArg Path.steps hpath
  rw [Path.steps_path h, Path.steps_path h'] at hsteps
  exact (List.map_inj_right fun _ _ hi => Step.into.inj hi).mp hsteps

/-- The spelling of a location does not end with a slash. -/
theorem joined_ne_concat_slash {l : Location} (h : l.IsProper) (hne : l ≠ []) (bs : Bytes) :
    Path.joined l ≠ bs ++ [Path.slash] := fun he => by
  have hends := Path.endsWithSlash_path h
  rw [Path.endsWithSlash, Location.path, he, ← List.cons_append, List.getLast?_concat,
    decide_eq_false hne] at hends
  simp at hends

/-- **A name tells location and kind.** -/
theorem name_injective {p q : Planned} (hp : p.location.IsProper) (hq : q.location.IsProper)
    (hp' : p.location ≠ []) (hq' : q.location ≠ []) (he : p.name = q.name) :
    p.location = q.location ∧ p.isDirectory = q.isDirectory := by
  rcases p with l | ⟨l, c⟩ <;> rcases q with l' | ⟨l', c'⟩
  · exact ⟨joined_injective hp hq (List.append_cancel_right he), rfl⟩
  · exact absurd he.symm (joined_ne_concat_slash hq hq' _)
  · exact absurd he (joined_ne_concat_slash hp hp' _)
  · exact ⟨joined_injective hp hq he, rfl⟩

/-- **What is planned stands on the way to a file that was found.** -/
theorem Plans.exists_file (h : Plans walk planned) {p : Planned} (hp : p ∈ planned) :
    ∃ file ∈ walk.filterMap foundFile?, p.location <+: file.1 ∧ p.location ≠ []
      ∨ p = .file file.1 file.2 := by
  rcases p with d | ⟨l, c⟩
  · obtain ⟨file, hf, hd⟩ := (h.directories d).mp hp
    obtain ⟨hne, hpre, -⟩ := mem_ancestors_iff.mp hd
    exact ⟨file, hf, .inl ⟨hpre, hne⟩⟩
  · exact ⟨(l, c), h.mem_file_iff.mp hp, .inr rfl⟩

theorem Plans.exists_file_below (h : Plans walk planned) {p : Planned} (hp : p ∈ planned) :
    ∃ file ∈ walk.filterMap foundFile?, p.location <+: file.1 := by
  obtain ⟨file, hf, ⟨hpre, -⟩ | he⟩ := h.exists_file hp
  · exact ⟨file, hf, hpre⟩
  · exact ⟨file, hf, he ▸ List.prefix_rfl⟩

theorem mem_filterMap_foundFile?_iff :
    (loc, content) ∈ walk.filterMap foundFile? ↔ (loc, .file content) ∈ walk := by
  rw [List.mem_filterMap]
  constructor
  · rintro ⟨⟨l, _ | c | _ | _⟩, hm, he⟩
    · cases he
    · obtain ⟨rfl, rfl⟩ := Prod.mk.inj (Option.some.inj he)
      exact hm
    · cases he
    · cases he
  · exact fun hm => ⟨_, hm, rfl⟩

/-- The locations of a walk are names below its start. -/
def IsWalk (walk : List (Location × Node)) : Prop :=
  (walk.map (·.1)).Nodup ∧ ∀ e ∈ walk, e.1 ≠ [] ∧ Location.IsProper e.1

theorem Plans.isProper (h : Plans walk planned) (hwalk : IsWalk walk) {p : Planned}
    (hp : p ∈ planned) : p.location ≠ [] ∧ p.location.IsProper := by
  obtain ⟨⟨l, c⟩, hf, ⟨⟨more, hpre⟩, hne⟩ | rfl⟩ := h.exists_file hp
  · refine ⟨hne, ?_⟩
    have hproper := (hwalk.2 _ (mem_filterMap_foundFile?_iff.mp hf)).2
    dsimp only at hpre hproper
    rw [← hpre] at hproper
    exact hproper.of_append.1
  · exact hwalk.2 _ (mem_filterMap_foundFile?_iff.mp hf)

/-- **All names that are planned are different.** -/
theorem Plans.nodup_names (h : Plans walk planned) (hwalk : IsWalk walk) :
    (planned.map Planned.name).Nodup := by
  refine h.nodup.map_on fun p hp q hq he => ?_
  obtain ⟨hpne, hpp⟩ := h.isProper hwalk hp
  obtain ⟨hqne, hqp⟩ := h.isProper hwalk hq
  obtain ⟨hloc, hkind⟩ := name_injective hpp hqp hpne hqne he
  rcases p with d | ⟨l, c⟩ <;> rcases q with d' | ⟨l', c'⟩
  · exact congrArg _ hloc
  · cases hkind
  · cases hkind
  · obtain rfl : l = l' := hloc
    have hp := mem_filterMap_foundFile?_iff.mp (h.mem_file_iff.mp hp)
    have hq := mem_filterMap_foundFile?_iff.mp (h.mem_file_iff.mp hq)
    have hnode := (List.inj_on_of_nodup_map hwalk.1 hp hq rfl)
    rw [Node.file.inj (Prod.mk.inj hnode).2]

end GuardedArchive.Creation
