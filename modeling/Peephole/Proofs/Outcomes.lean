import Peephole.Notice

/-!
# Proofs/Outcomes — computations that end alike

Two computations end alike if both fail for the same reason, or both succeed with values that are
related.  This is how two runs over similar trees, or under similar tables, are compared step by
step.
-/

namespace Peephole

/-- **Two computations end alike**: in the same error, or in related values. -/
inductive EndsAlike {ε α β : Type} (Related : α → β → Prop) : Except ε α → Except ε β → Prop where
  | error (error : ε) : EndsAlike Related (.error error) (.error error)
  | ok {a : α} {b : β} (h : Related a b) : EndsAlike Related (.ok a) (.ok b)

namespace EndsAlike

variable {ε α β γ δ : Type} {Related : α → β → Prop} {Next : γ → δ → Prop} {first : Except ε α}
  {second : Except ε β} {f : α → Except ε γ} {g : β → Except ε δ}

theorem refl {Related : α → α → Prop} (h : ∀ a, Related a a) (first : Except ε α) :
    EndsAlike Related first first := by
  cases first with
  | error error => exact .error error
  | ok a => exact .ok (h a)

/-- Ending alike may be weakened, and the values may be used for it. -/
theorem imp {Next : α → β → Prop} (h : EndsAlike Related first second)
    (himp : ∀ a b, first = .ok a → second = .ok b → Related a b → Next a b) :
    EndsAlike Next first second := by
  cases h with
  | error error => exact .error error
  | ok hab => exact .ok (himp _ _ rfl rfl hab)

/-- Two computations that end like the same one. -/
theorem join {Other : γ → β → Prop} {third : Except ε γ} (h : EndsAlike Related first second)
    (h' : EndsAlike Other third second) :
    EndsAlike (fun a c => ∃ b, Related a b ∧ Other c b) first third := by
  cases h with
  | error error => cases h' with | error => exact .error error
  | ok hab => cases h' with | ok hcb => exact .ok ⟨_, hab, hcb⟩

/-- Two computations that end alike and go on alike end alike. -/
theorem bind (h : EndsAlike Related first second)
    (hnext : ∀ a b, Related a b → EndsAlike Next (f a) (g b)) :
    EndsAlike Next (first >>= f) (second >>= g) := by
  cases h with
  | error error => exact .error error
  | ok hab => exact hnext _ _ hab

/-- What two computations have in front is the same. -/
theorem bind_same {g : α → Except ε δ}
    (hnext : ∀ a, first = .ok a → EndsAlike Next (f a) (g a)) :
    EndsAlike Next (first >>= f) (first >>= g) := by
  cases first with
  | error error => exact .error error
  | ok a => exact hnext a rfl

/-- Two computations that end alike and go on the same are equal from there on. -/
theorem bind_eq {g : β → Except ε γ} (h : EndsAlike Related first second)
    (hnext : ∀ a b, first = .ok a → second = .ok b → Related a b → f a = g b) :
    (first >>= f) = (second >>= g) := by
  cases h with
  | error error => rfl
  | ok hab => exact hnext _ _ rfl rfl hab

theorem of_eq {Related : α → α → Prop} {second : Except ε α} (h : first = second)
    (hrefl : ∀ a, Related a a) : EndsAlike Related first second :=
  h ▸ refl hrefl first

end EndsAlike

end Peephole
