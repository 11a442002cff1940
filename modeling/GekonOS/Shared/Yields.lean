import GekonOS.Shared.Loop

set_option autoImplicit false

namespace Loop

variable {σ ε α β : Type}

/-- `Q` holds of what `r` returns, if it returns. -/
def Yields (Q : α → Prop) (r : Except ε α) : Prop := ∀ a, r = .ok a → Q a

namespace Yields

variable {Q : α → Prop} {R : β → Prop} {r r' : Except ε α}

theorem ok {a : α} (holds : Q a) : Yields Q (.ok a : Except ε α) := by
  intro b same
  cases same
  exact holds

theorem any (r : Except ε α) : Yields (fun _ => True) r := fun _ _ => trivial

theorem bind {f : α → Except ε β} (first : Yields Q r) (next : ∀ a, Q a → Yields R (f a)) :
    Yields R (r >>= f) := by
  cases r with
  | error e =>
    intro b same
    cases same
  | ok a => exact next a (first a rfl)

theorem ite {p : Prop} [Decidable p] (yes : p → Yields Q r) (no : ¬ p → Yields Q r') :
    Yields Q (if p then r else r') := by
  by_cases holds : p
  · rw [if_pos holds]
    exact yes holds
  · rw [if_neg holds]
    exact no holds

theorem loop {I : σ → Prop} {exhausted : ε} {cond : σ → Except ε Bool} {body : σ → Except ε σ}
    {fuel : Nat} {s : σ} (start : I s) (round : ∀ s, I s → cond s = .ok true → Yields I (body s)) :
    Yields I (whileLoop exhausted cond body fuel s) := fun final result =>
  (whileLoop_preserves exhausted cond body I fuel s final start result
    fun s s' holds test next => round s holds test s' next).1

end Yields

end Loop
