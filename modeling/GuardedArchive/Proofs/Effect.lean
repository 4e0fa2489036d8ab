import GuardedArchive.Effect

/-!
# Proofs/Effect — what the success of combined steps says of each

A sequence succeeds exactly where every step of it does, on what the one before answered.  So a
sequence of steps that succeed where others do, with the same answer and state, **extends** the
sequence of those (`Extends.bind`).
-/

namespace GuardedArchive

/-- **A sequence succeeds where both its steps do.** -/
theorem bind_eq_ok_iff {ε α β : Type} {x : Except ε α} {f : α → Except ε β} {b : β} :
    x >>= f = .ok b ↔ ∃ a, x = .ok a ∧ f a = .ok b := by
  cases x <;> simp [bind, Except.bind]

/-- A sequence fails where its first step does, or its second behind it. -/
theorem bind_eq_error_iff {ε α β : Type} {x : Except ε α} {f : α → Except ε β} {e : ε} :
    x >>= f = .error e ↔ x = .error e ∨ ∃ a, x = .ok a ∧ f a = .error e := by
  cases x <;> simp [bind, Except.bind]

/-- Another error is no answer. -/
theorem mapError_eq_ok_iff {ε ε' α : Type} {x : Except ε α} {f : ε → ε'} {a : α} :
    x.mapError f = .ok a ↔ x = .ok a := by
  cases x with
  | error e => exact iff_of_false nofun nofun
  | ok b =>
    have hok : (Except.ok b : Except ε α).mapError f = .ok b := rfl
    rw [hok, Except.ok.injEq, Except.ok.injEq]

/-- What is answered is known by the answer alone, whose equality can be decided where that of
errors is of no interest. -/
theorem eq_ok_of_toOption {ε α : Type} {x : Except ε α} {a : α} (h : x.toOption = some a) :
    x = .ok a := by
  cases x with
  | error e => cases h
  | ok b => exact congrArg Except.ok (Option.some.inj h)

theorem exists_ok_of_isSome {ε α : Type} {x : Except ε α} (h : x.toOption.isSome) :
    ∃ a, x = .ok a := by
  cases x with
  | error e => cases h
  | ok a => exact ⟨a, rfl⟩

namespace Effect

variable {σ α β : Type} {x : Effect σ α} {f : α → Effect σ β} {s s' : σ} {b : β}

theorem bind_eq_ok_iff : (x >>= f) s = (.ok b, s')
    ↔ ∃ a s₁, x s = (.ok a, s₁) ∧ f a s₁ = (.ok b, s') := by
  rw [bind_apply]
  rcases x s with ⟨_ | a, s₁⟩
  · simp
  · constructor
    · exact fun h => ⟨a, s₁, rfl, h⟩
    · rintro ⟨a', s₁', he, h⟩
      obtain ⟨rfl, rfl⟩ : a = a' ∧ s₁ = s₁' := by simpa using he
      exact h

theorem bind_bind {γ : Type} (x : Effect σ α) (f : α → Effect σ β) (g : β → Effect σ γ) :
    x >>= f >>= g = x >>= fun a => f a >>= g := by
  funext s
  simp only [bind_apply]
  rcases x s with ⟨_ | _, _⟩ <;> rfl

/-- Wherever `x` succeeds, `y` does the same. -/
def Extends (y x : Effect σ α) : Prop := ∀ s a s', x s = (.ok a, s') → y s = (.ok a, s')

namespace Extends

variable {y : Effect σ α} {g : α → Effect σ β}

theorem refl (x : Effect σ α) : x.Extends x := fun _ _ _ h => h

/-- **Steps that extend the steps of a sequence extend the sequence.** -/
theorem bind (hx : y.Extends x) (hf : ∀ a, (g a).Extends (f a)) :
    (y >>= g).Extends (x >>= f) := by
  intro s b s' h
  obtain ⟨a, s₁, ha, hb⟩ := Effect.bind_eq_ok_iff.mp h
  exact Effect.bind_eq_ok_iff.mpr ⟨a, s₁, hx s a s₁ ha, hf a s₁ b s' hb⟩

theorem look {p q : σ → Except ArchiveError α} (h : ∀ s a, p s = .ok a → q s = .ok a) :
    (Effect.look q).Extends (Effect.look p) := by
  intro s a s' hp
  obtain ⟨ha, rfl⟩ := Prod.mk.inj hp
  exact Prod.ext (h s a ha) rfl

end Extends

end Effect

namespace Operation

variable {α : Type} {fs fs' : FileSystem}

/-- A question is answered where the file system answers it, and changes nothing. -/
theorem ask_eq_ok_iff {f : FileSystem → Except IoError α} {a : α} :
    ask f fs = (.ok a, fs') ↔ f fs = .ok a ∧ fs' = fs := by
  have hask : ask f fs = ((f fs).mapError ArchiveError.io, fs) := rfl
  rw [hask, Prod.mk.injEq, mapError_eq_ok_iff, eq_comm (a := fs)]

theorem makeTree_eq_ok_iff {p : Path} :
    makeTree p fs = (.ok (), fs') ↔ fs.makeTree p = (.ok (), fs') := by
  rw [makeTree]
  rcases fs.makeTree p with ⟨_ | _, _⟩ <;> simp

theorem makeTree_files {p : Path} : (makeTree p fs).2 = (fs.makeTree p).2 := by
  rw [makeTree]
  rcases fs.makeTree p with ⟨_ | _, _⟩ <;> rfl

end Operation

end GuardedArchive
