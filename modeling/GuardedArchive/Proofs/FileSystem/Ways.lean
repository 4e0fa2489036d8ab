import GuardedArchive.Proofs.FileSystem.Gap

/-!
# Proofs/FileSystem/Ways — walks taken apart and put together

A walk along steps in two parts is a walk along the first and then one along the second, from where
the first has led (`Leads.split`).  Steps that stay lead nowhere else, so that a name among them is
looked up in the directory that they start from (`Leads.among_still`, `Leads.into_still`).
-/

namespace GuardedArchive.FileSystem

variable {fs fs' : FileSystem} {followLast spelled : Bool} {links : Nat} {here loc dir : Location}
  {steps still still' more : List Step} {name : Name} {node : Node} {place : Place}

namespace Leads

/-- Whoever takes steps has come by where they start. -/
theorem split_nil (h : Leads fs followLast spelled links here more place) : ∃ left dir node,
    Leads fs true false links here [] (.occupied dir node)
      ∧ Leads fs followLast spelled left dir more place := by
  obtain ⟨node, hn⟩ := h.here_occupied
  exact ⟨links, here, node, .done hn, h⟩

/-- **A walk along steps in two parts** comes by a node behind the first. -/
theorem split (h : Leads fs followLast spelled links here (steps ++ more) place)
    (hmore : more ≠ []) : ∃ left dir node,
      Leads fs true false links here steps (.occupied dir node)
        ∧ Leads fs followLast spelled left dir more place := by
  generalize hall : steps ++ more = all at h
  induction h generalizing steps with
  | done => exact absurd (List.append_eq_nil_iff.mp hall).2 hmore
  | stay hd h ih =>
    rcases steps with _ | ⟨step, steps⟩
    · subst hall
      exact split_nil (.stay hd h)
    · obtain ⟨rfl, hrest⟩ := List.cons.inj hall
      obtain ⟨left, dir, node, h₁, h₂⟩ := ih hrest
      exact ⟨left, dir, node, .stay hd h₁, h₂⟩
  | up hd h ih =>
    rcases steps with _ | ⟨step, steps⟩
    · subst hall
      exact split_nil (.up hd h)
    · obtain ⟨rfl, hrest⟩ := List.cons.inj hall
      obtain ⟨left, dir, node, h₁, h₂⟩ := ih hrest
      exact ⟨left, dir, node, .up hd h₁, h₂⟩
  | free hd hfit hn =>
    rcases steps with _ | ⟨step, steps⟩
    · subst hall
      exact split_nil (.free hd hfit hn)
    · exact absurd (List.append_eq_nil_iff.mp (List.cons.inj hall).2).2 hmore
  | link hd hfit hl hlast =>
    rcases steps with _ | ⟨step, steps⟩
    · subst hall
      exact split_nil (.link hd hfit hl hlast)
    · exact absurd (List.append_eq_nil_iff.mp (List.cons.inj hall).2).2 hmore
  | @follow links here name rest target place hd hfit hl hlast h ih =>
    rcases steps with _ | ⟨step, steps⟩
    · subst hall
      exact split_nil (.follow hd hfit hl hlast h)
    · obtain ⟨rfl, rfl⟩ := List.cons.inj hall
      obtain ⟨left, dir, node, h₁, h₂⟩ := ih (List.append_assoc _ _ _)
      exact ⟨left, dir, node, .follow hd (hfit.unspelled _) hl (by simp) h₁, h₂⟩
  | into hd hfit hn hlink h ih =>
    rcases steps with _ | ⟨step, steps⟩
    · subst hall
      exact split_nil (.into hd hfit hn hlink h)
    · obtain ⟨rfl, hrest⟩ := List.cons.inj hall
      obtain ⟨left, dir, node, h₁, h₂⟩ := ih hrest
      exact ⟨left, dir, node, .into hd (hfit.unspelled _) hn hlink h₁, h₂⟩

/-- **A walk goes on with more steps** from the directory that it has led to. -/
theorem append (h : Leads fs true false links here steps (.occupied dir node))
    (hmore : more ≠ []) (hnext : ∀ left, Leads fs followLast false left dir more place) :
    Leads fs followLast false links here (steps ++ more) place := by
  obtain ⟨left, hw⟩ := h.walk_append hmore
  exact .of_walk ((hw followLast).trans (hnext left).walk_eq)

/-- What is no link is found whether links in the last place are followed or not. -/
theorem followed (h : Leads fs followLast spelled links here steps (.occupied loc node))
    (hnode : ∀ target, node ≠ .link target) :
    Leads fs true spelled links here steps (.occupied loc node) := by
  generalize hp : Place.occupied loc node = place at h
  induction h with
  | done hn => exact .done hn
  | stay hd _ ih => exact .stay hd (ih hp)
  | up hd _ ih => exact .up hd (ih hp)
  | free => cases hp
  | link =>
    cases hp
    exact absurd rfl (hnode _)
  | follow hd hfit hl _ _ ih => exact .follow hd hfit hl (by simp) (ih hp)
  | into hd hfit hn hlink _ ih => exact .into hd hfit hn hlink (ih hp)

/-- Where a path leads through links, something stands in its last place. -/
theorem unfollowed (h : Leads fs true spelled links here steps (.occupied loc node))
    (followLast : Bool) : ∃ loc' node',
      Leads fs followLast spelled links here steps (.occupied loc' node') := by
  generalize hp : Place.occupied loc node = place at h
  induction h with
  | done hn => exact ⟨_, _, .done hn⟩
  | stay hd _ ih =>
    obtain ⟨loc', node', h⟩ := ih hp
    exact ⟨loc', node', .stay hd h⟩
  | up hd _ ih =>
    obtain ⟨loc', node', h⟩ := ih hp
    exact ⟨loc', node', .up hd h⟩
  | free => cases hp
  | link _ _ _ hlast => cases hlast
  | @follow links here name rest target place hd hfit hl _ h ih =>
    by_cases hlast : rest = [] ∧ followLast = false
    · obtain ⟨rfl, rfl⟩ := hlast
      exact ⟨_, _, .link hd hfit hl rfl⟩
    · obtain ⟨loc', node', h⟩ := ih hp
      exact ⟨loc', node', .follow hd hfit hl hlast h⟩
  | into hd hfit hn hlink _ ih =>
    obtain ⟨loc', node', h⟩ := ih hp
    exact ⟨loc', node', .into hd hfit hn hlink h⟩

/-! ## Steps that stay -/

theorem stand (hd : fs.node? here = some .directory) (hstill : ∀ s ∈ still, s = .stay)
    (h : Leads fs followLast spelled links here more place) :
    Leads fs followLast spelled links here (still ++ more) place := by
  induction still with
  | nil => exact h
  | cons step still ih =>
    obtain rfl := hstill step List.mem_cons_self
    exact .stay hd (ih fun s hs => hstill s (List.mem_cons_of_mem _ hs))

theorem of_still (hstill : ∀ s ∈ still, s = .stay)
    (h : Leads fs followLast spelled links here (still ++ more) place) :
    Leads fs followLast spelled links here more place := by
  induction still with
  | nil => exact h
  | cons step still ih =>
    obtain rfl := hstill step List.mem_cons_self
    cases h with
    | stay _ h => exact ih (fun s hs => hstill s (List.mem_cons_of_mem _ hs)) h

/-- Steps that stay can be taken behind those that lead to a directory. -/
theorem append_still (h : Leads fs true false links here steps (.occupied dir .directory))
    (hstill : ∀ s ∈ still, s = .stay) (hne : still ≠ []) :
    Leads fs followLast false links here (steps ++ still) (.occupied dir .directory) := by
  refine h.append hne fun left => ?_
  rw [← List.append_nil still]
  exact stand h.node?_eq hstill (.done h.node?_eq)

/-- Steps that stay can be left out behind those that lead to a node. -/
theorem of_append_still (h : Leads fs true spelled links here (steps ++ still) place)
    (hstill : ∀ s ∈ still, s = .stay) : Leads fs true false links here steps place := by
  by_cases hne : still = []
  · subst hne
    rw [List.append_nil] at h
    exact h.unspelled
  · obtain ⟨left, dir, node, h₁, h₂⟩ := h.split hne
    rw [← List.append_nil still] at h₂
    cases of_still hstill h₂ with
    | done hn =>
      rw [h₁.node?_eq, Option.some_inj] at hn
      exact hn ▸ h₁

/-- **A name among steps that stay is looked up where they start**, and something of that name is
there if they lead to anything. -/
theorem among_still (h : Leads fs followLast spelled links dir (still ++ .into name :: still')
    (.occupied loc node)) (hstill : ∀ s ∈ still, s = .stay) (hstill' : ∀ s ∈ still', s = .stay) :
    ∃ found, fs.node? (dir ++ [name]) = some found
      ∧ ((∀ target, found ≠ .link target) → loc = dir ++ [name]) := by
  cases of_still hstill h with
  | link _ _ hl => exact ⟨_, hl, fun hnot => absurd rfl (hnot _)⟩
  | follow _ _ hl => exact ⟨_, hl, fun hnot => absurd rfl (hnot _)⟩
  | into _ _ hn _ h =>
    refine ⟨_, hn, fun _ => ?_⟩
    rw [← List.append_nil still'] at h
    cases of_still hstill' h with
    | done => rfl

/-- **A directory is found by its name**, among steps that stay. -/
theorem into_still (hd : fs.node? dir = some .directory) (hfit : name.length ≤ maxNameLength)
    (hn : fs.node? (dir ++ [name]) = some .directory) (hstill : ∀ s ∈ still, s = .stay)
    (hstill' : ∀ s ∈ still', s = .stay) :
    Leads fs followLast false links dir (still ++ .into name :: still')
      (.occupied (dir ++ [name]) .directory) := by
  refine stand hd hstill (.into hd ?_ hn Node.directory_ne_link ?_)
  · simpa [Fits] using hfit
  · rw [← List.append_nil still']
    exact stand hn hstill' (.done hn)

/-- The names on a walk are not too long. -/
theorem length_le (h : Leads fs followLast spelled links here (steps ++ [.into name]) place) :
    name.length ≤ maxNameLength := by
  obtain ⟨left, dir, node, -, h⟩ := h.split (List.cons_ne_nil _ _)
  have hfit : ∀ {spelled next rest}, Fits spelled next name rest → name.length ≤ maxNameLength :=
    fun hfit => Nat.le_of_not_lt (not_or.mp hfit).1
  cases h with
  | free _ hf => exact hfit hf
  | link _ hf => exact hfit hf
  | follow _ hf => exact hfit hf
  | into _ hf => exact hfit hf

/-! ## Ways to a free place -/

/-- A free place bears the name of the last step, and that is not too long. -/
theorem vacant_last (h : Leads fs false spelled links here steps (.vacant loc)) : ∃ dir name,
    loc = dir ++ [name] ∧ fs.node? dir = some .directory
      ∧ steps.getLast? = some (.into name) ∧ name.length ≤ maxNameLength := by
  generalize hp : Place.vacant loc = place at h
  have hlater : ∀ {step : Step} {rest : List Step} {name : Name},
      rest.getLast? = some (.into name) → (step :: rest).getLast? = some (.into name) :=
    fun hr => by rw [List.getLast?_cons, hr, Option.getD_some]
  induction h with
  | done | link => cases hp
  | free hd hfit _ =>
    cases hp
    exact ⟨_, _, rfl, hd, rfl, Nat.le_of_not_lt (not_or.mp hfit).1⟩
  | stay _ _ ih | up _ _ ih | into _ _ _ _ _ ih =>
    obtain ⟨dir, name, hloc, hd, hlast, hfit⟩ := ih hp
    exact ⟨dir, name, hloc, hd, hlater hlast, hfit⟩
  | @follow links here name rest target place _ _ _ hmore _ ih =>
    obtain ⟨dir, name, hloc, hd, hlast, hfit⟩ := ih hp
    have hrest : rest ≠ [] := fun he => hmore ⟨he, rfl⟩
    rw [List.getLast?_append_of_ne_nil _ hrest] at hlast
    exact ⟨dir, name, hloc, hd, hlater hlast, hfit⟩

end Leads

end GuardedArchive.FileSystem
