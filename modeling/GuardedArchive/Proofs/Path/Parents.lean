import GuardedArchive.Proofs.Path.Spelling
import Mathlib.Data.List.TakeWhile
import Mathlib.Logic.Relation

/-!
# Proofs/Path/Parents — a path is its parent and one step more

    steps of p  =  steps of the parent  ++  stay … stay  ++  the last step  ++  stay … stay

The last component that moves is the step by which a path goes on from its parent
(`exists_parent?`); a path without one stays where it starts.  So whatever is **above** a path, its
parent, the parent of that and so on, is where the path comes by on its way (`Above.steps`).
-/

namespace GuardedArchive.Path

variable {p q : Path} {last : Bytes} {rest : List Bytes} {name : Name}

/-! ## Pieces -/

theorem steps_slash (raw : Bytes) : (⟨slash :: raw⟩ : Path).steps = (⟨raw⟩ : Path).steps := by
  rw [steps, pieces, splitOn_slash_cons, List.filterMap_cons_none (by simp [stepOf])]
  rfl

theorem steps_joined {ps : List Bytes} (h : ∀ piece ∈ ps, slash ∉ piece) :
    (⟨joined ps⟩ : Path).steps = ps.filterMap stepOf := by
  by_cases hne : ps = []
  · subst hne
    rfl
  · rw [steps, pieces, joined, List.splitOn_intercalate slash h hne]

/-- What stands in joined pieces stands in one of them, but for the slashes. -/
theorem mem_joined_iff {b : UInt8} (hb : b ≠ slash) :
    ∀ {ps : List Bytes}, b ∈ joined ps ↔ ∃ piece ∈ ps, b ∈ piece
  | [] => by simp [joined]
  | [piece] => by simp [joined]
  | piece :: next :: ps => by
    have ih : b ∈ joined (next :: ps) ↔ ∃ piece ∈ next :: ps, b ∈ piece := mem_joined_iff hb
    rw [joined] at ih ⊢
    rw [List.intercalate_cons_cons, List.mem_append, List.mem_append, ih]
    simp [hb]

/-- A step into a name is made by the piece that spells it. -/
theorem eq_of_stepOf {piece : Bytes} (h : stepOf piece = some (.into name)) : piece = name := by
  rw [stepOf] at h
  split_ifs at h
  · cases h
  · cases h
  · exact Step.into.inj (Option.some.inj h)

/-- The octets of a name on a path are octets of the path. -/
theorem mem_raw_of_mem_steps {b : UInt8} (hb : b ∈ name) (h : .into name ∈ p.steps) :
    b ∈ p.raw := by
  obtain ⟨piece, hp, hs⟩ := List.mem_filterMap.mp h
  have hslash : b ≠ slash := fun he => (isProper_of_mem_steps h).slash_not_mem (he ▸ hb)
  obtain rfl := eq_of_stepOf hs
  have hraw : joined p.pieces = p.raw := List.intercalate_splitOn _
  rw [← hraw]
  exact (mem_joined_iff hslash).mpr ⟨piece, hp, hb⟩

theorem slash_not_mem_piece {piece : Bytes} (h : piece ∈ p.pieces) : slash ∉ piece :=
  not_mem_of_mem_splitOn slash p.raw piece h

theorem moves_eq_false {piece : Bytes} : moves piece = false ↔ piece = [] ∨ piece = dot := by
  simp [moves, or_iff_not_imp_left]

/-- Pieces that do not move are steps that stay. -/
theorem steps_still {still : List Bytes} (h : ∀ piece ∈ still, moves piece = false) :
    ∀ step ∈ still.filterMap stepOf, step = .stay := by
  intro step hs
  obtain ⟨piece, hp, hstep⟩ := List.mem_filterMap.mp hs
  rcases moves_eq_false.mp (h piece hp) with rfl | rfl
  · cases hstep
  · exact (Option.some.inj hstep).symm

/-- What stands before the last pieces of a list that satisfy `P`. -/
theorem reverse_dropWhile_append {α : Type} (P : α → Bool) (l : List α) :
    ∃ still, l = (l.reverse.dropWhile P).reverse ++ still ∧ ∀ a ∈ still, P a = true := by
  refine ⟨(l.reverse.takeWhile P).reverse, ?_, fun a ha => ?_⟩
  · rw [← List.reverse_append, List.takeWhile_append_dropWhile, List.reverse_reverse]
  · exact List.mem_takeWhile_imp (List.mem_reverse.mp ha)

theorem pieces_eq (p : Path) : p.pieces = p.anchor ++ p.pieces.drop p.anchor.length := by
  rw [anchor]
  split
  · rcases p.pieces with _ | ⟨first, more⟩ <;> rfl
  · rfl

/-- The anchor, the body, and pieces that do not move. -/
theorem exists_still (p : Path) : ∃ still, p.pieces = p.anchor ++ (p.reversedBody.reverse ++ still)
    ∧ ∀ piece ∈ still, moves piece = false := by
  obtain ⟨still, hs, hall⟩ := reverse_dropWhile_append (!moves ·) (p.pieces.drop p.anchor.length)
  refine ⟨still, ?_, fun piece hp => by simpa using hall piece hp⟩
  rw [reversedBody, ← hs]
  exact p.pieces_eq

theorem moves_of_reversedBody (h : p.reversedBody = last :: rest) : moves last = true := by
  have hdrop : ∀ {l : List Bytes}, l.dropWhile (!moves ·) = last :: rest → moves last = true := by
    intro l hl
    have hne : l.dropWhile (!moves ·) ≠ [] := hl ▸ List.cons_ne_nil _ _
    have := List.dropWhile_get_zero_not (!moves ·) l (List.length_pos_iff.mpr hne)
    simpa [hl] using this
  exact hdrop h

/-! ## The parent -/

theorem anchor_of_isAbsolute (h : p.isAbsolute) : p.anchor = [[]] := by
  obtain ⟨raw, hr⟩ := List.head?_eq_some_iff.mp (beq_iff_eq.mp h)
  rw [anchor, h, Bool.true_or, if_pos rfl, pieces, hr, splitOn_slash_cons]
  rfl

/-- The pieces that are kept for the parent of a relative path start no absolute one. -/
theorem not_isAbsolute_joined {front more : List Bytes} (h : p.isAbsolute = false)
    (hp : p.pieces = front ++ more) : (⟨joined front⟩ : Path).isAbsolute = false := by
  rcases front with _ | ⟨first, others⟩
  · rfl
  · have hfirst : slash ∉ first := slash_not_mem_piece (by rw [hp]; exact List.mem_cons_self)
    rcases first with _ | ⟨b, bs⟩
    · -- the first piece of a path is empty where it starts with a slash, or is all there is
      rcases hraw : p.raw with _ | ⟨c, cs⟩
      · rw [pieces, hraw] at hp
        obtain ⟨-, hrest⟩ : ([] : Bytes) = [] ∧ others = [] ∧ more = [] := by simpa using hp
        rw [hrest.1]
        rfl
      · rw [pieces, hraw, List.splitOn_cons_eq_if_modifyHead] at hp
        split at hp
        next hc => simp_all [isAbsolute]
        next =>
          rcases hs : cs.splitOn slash with _ | ⟨d, ds⟩ <;> simp_all
    · have hne : b ≠ slash := fun he => hfirst (he ▸ List.mem_cons_self)
      rcases others with _ | ⟨second, others⟩ <;> simp [isAbsolute, joined, hne]

/-- A step behind steps that lead to a parent, among steps that stay. -/
structure Continues (steps front : List Step) (step : Step) : Prop where
  moves : step ≠ .stay
  steps : ∃ still still', steps = front ++ still ++ step :: still'
    ∧ (∀ s ∈ still, s = .stay) ∧ ∀ s ∈ still', s = .stay

/-- The pieces of a path with a component that moves: the anchor, those that are kept for the
parent, and the last component among pieces that do not move. -/
theorem exists_kept (h : p.reversedBody = last :: rest) : ∃ kept still still' : List Bytes,
    p.pieces = p.anchor ++ kept ++ (still ++ last :: still')
      ∧ (∀ piece ∈ still, moves piece = false) ∧ (∀ piece ∈ still', moves piece = false)
      ∧ p.parent? = some (if p.isAbsolute then ⟨slash :: joined kept⟩
        else ⟨joined (p.anchor ++ kept)⟩) := by
  obtain ⟨still', hp, hstill'⟩ := p.exists_still
  obtain ⟨still, hrest, hstill⟩ := reverse_dropWhile_append (!moves ·) rest.reverse
  rw [List.reverse_reverse] at hrest
  refine ⟨(rest.dropWhile (!moves ·)).reverse, still, still', ?_, fun piece hs => ?_, hstill', ?_⟩
  · rw [h, List.reverse_cons, hrest] at hp
    rw [hp]
    simp only [List.append_assoc, List.singleton_append]
  · simpa using hstill piece hs
  · rw [parent?, h]
    dsimp only
    split <;> rfl

/-- **A path with a component that moves goes on from its parent by that.** -/
theorem exists_parent? (h : p.reversedBody = last :: rest) : ∃ q step, p.parent? = some q
    ∧ q.isAbsolute = p.isAbsolute ∧ stepOf last = some step
    ∧ Continues p.steps q.steps step := by
  obtain ⟨kept, still, still', hp, hstill, hstill', hparent⟩ := exists_kept h
  have hmoves := moves_of_reversedBody h
  obtain ⟨step, hstep, hne⟩ : ∃ step, stepOf last = some step ∧ step ≠ .stay := by
    rw [moves] at hmoves
    rw [stepOf]
    split_ifs <;> simp_all
  have hsteps : p.steps = (p.anchor ++ kept).filterMap stepOf ++ still.filterMap stepOf
      ++ step :: still'.filterMap stepOf := by
    rw [Path.steps, hp]
    simp [hstep]
  have hcontinues : ∀ {q : Path}, q.steps = (p.anchor ++ kept).filterMap stepOf →
      Continues p.steps q.steps step := fun hq =>
    ⟨hne, _, _, hq ▸ hsteps, steps_still hstill, steps_still hstill'⟩
  have hslash : ∀ piece ∈ p.anchor ++ kept, slash ∉ piece := fun piece hm => by
    refine slash_not_mem_piece (p := p) ?_
    rw [hp]
    exact List.mem_append_left _ hm
  refine ⟨_, step, hparent, ?_⟩
  split
  next ha =>
    refine ⟨?_, hstep, hcontinues ?_⟩
    · rw [ha]
      rfl
    · rw [steps_slash, steps_joined fun piece hm => hslash piece (List.mem_append_right _ hm),
        anchor_of_isAbsolute ha]
      rfl
  next ha =>
    refine ⟨?_, hstep, hcontinues (steps_joined hslash)⟩
    rw [eq_false_of_ne_true ha]
    exact not_isAbsolute_joined (eq_false_of_ne_true ha) hp

/-- A path without a component that moves stays where it starts, and its parent is empty, if it has
one. -/
theorem steps_of_reversedBody_nil (h : p.reversedBody = []) : (∀ s ∈ p.steps, s = .stay)
    ∧ ∀ q, p.parent? = some q → q.isEmpty := by
  obtain ⟨still, hp, hstill⟩ := p.exists_still
  refine ⟨?_, fun q hq => ?_⟩
  · rw [h, List.reverse_nil, List.nil_append] at hp
    rw [Path.steps, hp]
    refine steps_still fun piece hm => (List.mem_append.mp hm).elim (fun ha => ?_) (hstill piece)
    rw [anchor] at ha
    split at ha
    next hd =>
      rcases hf : p.pieces with _ | ⟨first, more⟩ <;> rw [hf] at ha hd
      · cases ha
      · obtain rfl := List.mem_singleton.mp ha
        rcases (Bool.or_eq_true _ _).mp hd with hd | hd
        · have := anchor_of_isAbsolute hd
          rw [anchor, hd, Bool.true_or, if_pos rfl, hf] at this
          exact moves_eq_false.mpr (.inl (List.cons.inj this).1)
        · exact moves_eq_false.mpr (.inr (by simpa using hd))
    next => cases ha
  · rw [parent?, h] at hq
    dsimp only at hq
    split at hq
    · obtain rfl := Option.some.inj hq
      rfl
    · cases hq

theorem fileName?_eq_some (h : p.fileName? = some name) : name.IsProper
    ∧ ∃ q, p.parent? = some q ∧ q.isAbsolute = p.isAbsolute
      ∧ Continues p.steps q.steps (.into name) := by
  rw [fileName?] at h
  split at h
  next => cases h
  next last rest hb =>
    split at h
    next => cases h
    next hup =>
      obtain rfl := Option.some.inj h
      obtain ⟨q, step, hq, ha, hs, hc⟩ := exists_parent? hb
      obtain rfl : step = .into last := by
        rw [stepOf] at hs
        have hmoves := moves_of_reversedBody hb
        rw [moves] at hmoves
        split_ifs at hs <;> simp_all
      refine ⟨isProper_of_mem_steps (p := p) ?_, q, hq, ha, hc⟩
      obtain ⟨-, still, still', hsteps, -⟩ := hc
      rw [hsteps]
      simp

/-- **A path whose last step goes into a name has that for its last component.** -/
theorem fileName?_of_steps (h : p.steps.getLast? = some (.into name)) :
    p.fileName? = some name := by
  rcases hb : p.reversedBody with _ | ⟨last, rest⟩
  · have hstay := (steps_of_reversedBody_nil hb).1 _ (List.mem_of_getLast? h)
    cases hstay
  · obtain ⟨q, step, -, -, hs, -, still, still', hsteps, -, hstill'⟩ := exists_parent? hb
    obtain rfl : step = .into name := by
      rw [hsteps] at h
      rcases List.eq_nil_or_concat' still' with rfl | ⟨others, last', rfl⟩
      · simpa using h
      · obtain rfl := hstill' last' (by simp)
        rw [← List.cons_append, ← List.append_assoc, List.getLast?_concat] at h
        cases h
    obtain rfl := eq_of_stepOf hs
    rw [fileName?, hb]
    dsimp only
    rw [if_neg]
    rintro rfl
    cases hs

theorem joined_prefix : ∀ front more : List Bytes, joined front <+: joined (front ++ more)
  | [], _ => List.nil_prefix
  | [piece], [] => List.prefix_rfl
  | [piece], next :: more => by
    rw [joined, joined, List.singleton_append, List.intercalate_cons_cons]
    simp
  | piece :: next :: front, more => by
    obtain ⟨rest, hr⟩ := joined_prefix (next :: front) more
    rw [List.cons_append] at hr
    refine ⟨rest, ?_⟩
    simp only [joined, List.cons_append, List.intercalate_cons_cons] at hr ⊢
    rw [List.append_assoc, hr]

/-- **A path is spelled as its parent, and goes on.** -/
theorem raw_of_parent? (h : p.parent? = some q) : q.raw <+: p.raw := by
  have hraw : joined p.pieces = p.raw := List.intercalate_splitOn _
  rcases hb : p.reversedBody with _ | ⟨last, rest⟩
  · have hq := (steps_of_reversedBody_nil hb).2 q h
    rw [List.isEmpty_iff.mp hq]
    exact List.nil_prefix
  · obtain ⟨kept, still, still', hp, -, -, hparent⟩ := exists_kept hb
    obtain rfl := Option.some.inj (h.symm.trans hparent)
    rw [← hraw, hp]
    split
    next ha =>
      have hfirst : ∀ {ps : List Bytes}, ps ≠ [] → joined ([] :: ps) = slash :: joined ps :=
        fun hne => by
          rw [joined, List.intercalate_cons_of_ne_nil hne]
          rfl
      rw [anchor_of_isAbsolute ha, List.append_assoc, List.singleton_append, hfirst (by simp)]
      exact List.cons_prefix_cons.mpr ⟨rfl, joined_prefix kept _⟩
    next => exact joined_prefix _ _

/-! ## Paths above a path -/

/-- The path `q` is the parent of `p`, or the parent of that, and so on. -/
def Above (q p : Path) : Prop := Relation.TransGen (fun p q => p.parent? = some q) p q

theorem parent?_of_isEmpty (h : p.isEmpty) : p.parent? = none := by
  obtain ⟨raw⟩ := p
  obtain rfl : raw = [] := List.isEmpty_iff.mp h
  rfl

/-- A parent that is not empty is where the path comes by before it moves once more. -/
theorem continues_of_parent? (h : p.parent? = some q) (hq : q.isEmpty = false) :
    q.isAbsolute = p.isAbsolute ∧ ∃ step, Continues p.steps q.steps step := by
  rcases hb : p.reversedBody with _ | ⟨last, rest⟩
  · have := (steps_of_reversedBody_nil hb).2 q h
    rw [hq] at this
    cases this
  · obtain ⟨q', step, hq', ha, -, hc⟩ := exists_parent? hb
    obtain rfl : q' = q := Option.some.inj (hq'.symm.trans h)
    exact ⟨ha, step, hc⟩

/-- **What is above a path is where the path comes by**, and it moves on from there. -/
theorem Above.steps (h : Above q p) (hq : q.isEmpty = false) : q.isAbsolute = p.isAbsolute
    ∧ ∃ more, p.steps = q.steps ++ more ∧ ∃ step ∈ more, step ≠ .stay := by
  induction h using Relation.TransGen.head_induction_on with
  | single h =>
    obtain ⟨ha, step, hne, still, still', hs, -⟩ := continues_of_parent? h hq
    refine ⟨ha, still ++ step :: still', by rw [hs, List.append_assoc], step, by simp, hne⟩
  | @head a c h hrest ih =>
    have hc : c.isEmpty = false := by
      rw [← Bool.not_eq_true]
      intro he
      obtain ⟨d, hd, -⟩ := Relation.TransGen.head'_iff.mp hrest
      rw [parent?_of_isEmpty he] at hd
      cases hd
    obtain ⟨ha, step, hne, still, still', hs, -⟩ := continues_of_parent? h hc
    obtain ⟨ha', more, hm, -⟩ := ih
    refine ⟨ha'.trans ha, more ++ (still ++ step :: still'), ?_, step, by simp, hne⟩
    rw [hs, hm]
    simp only [List.append_assoc]

theorem Above.raw (h : Above q p) : q.raw <+: p.raw := by
  induction h using Relation.TransGen.head_induction_on with
  | single h => exact raw_of_parent? h
  | head h _ ih => exact ih.trans (raw_of_parent? h)

theorem mem_ancestorsUpTo : ∀ {count : Nat} {p : Path}, q ∈ ancestorsUpTo count p →
    q = p ∨ Above q p
  | 0, _, h => absurd h List.not_mem_nil
  | count + 1, p, h => by
    rw [ancestorsUpTo] at h
    rcases List.mem_cons.mp h with he | h
    · exact .inl he
    · rcases hp : p.parent? with _ | r <;> rw [hp] at h
      · cases h
      · rcases mem_ancestorsUpTo h with rfl | ha
        · exact .inr (.single hp)
        · exact .inr (.head hp ha)

/-- The ancestors of a parent are above the path. -/
theorem above_of_mem_ancestors {r : Path} (h : p.parent? = some r) (hq : q ∈ r.ancestors) :
    Above q p := by
  rcases mem_ancestorsUpTo hq with rfl | ha
  · exact .single h
  · exact .head h ha

end GuardedArchive.Path
