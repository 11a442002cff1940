set_option autoImplicit false

/-!
# While loops with a bounded number of tests

A loop runs in `Except`, so that its condition and its body may fail; running out of fuel is a
failure of its own.
-/

namespace Loop

variable {σ ε : Type}

theorem ok_bind {α β : Type} (a : α) (f : α → Except ε β) : (.ok a >>= f) = f a := rfl

theorem error_bind {α β : Type} (e : ε) (f : α → Except ε β) :
    ((.error e : Except ε α) >>= f) = .error e := rfl

def whileLoop (exhausted : ε) (cond : σ → Except ε Bool) (body : σ → Except ε σ) :
    Nat → σ → Except ε σ
  | 0, _ => .error exhausted
  | fuel + 1, s =>
      match cond s with
      | .error e => .error e
      | .ok false => .ok s
      | .ok true =>
          match body s with
          | .error e => .error e
          | .ok s' => whileLoop exhausted cond body fuel s'

-- the states in which the body runs
def visits (cond : σ → Except ε Bool) (body : σ → Except ε σ) : Nat → σ → List σ
  | 0, _ => []
  | fuel + 1, s =>
      match cond s with
      | .ok true =>
          s :: match body s with
            | .ok s' => visits cond body fuel s'
            | .error _ => []
      | _ => []

variable (exhausted : ε) (cond : σ → Except ε Bool) (body : σ → Except ε σ)

-- An invariant and a measure below the fuel make the loop return.
theorem whileLoop_total (I : σ → Prop) (measure : σ → Nat) (fuel : Nat) (s : σ)
    (start : I s) (enough : measure s < fuel)
    (tests : ∀ s, I s → ∃ b, cond s = .ok b)
    (advances : ∀ s, I s → cond s = .ok true →
      ∃ s', body s = .ok s' ∧ I s' ∧ measure s' < measure s) :
    ∃ s', whileLoop exhausted cond body fuel s = .ok s' ∧ I s' ∧ cond s' = .ok false := by
  induction fuel generalizing s with
  | zero => omega
  | succ fuel ih =>
    obtain ⟨b, test⟩ := tests s start
    cases b with
    | false => exact ⟨s, by simp only [whileLoop, test], start, test⟩
    | true =>
      obtain ⟨next, step, kept, smaller⟩ := advances s start test
      obtain ⟨final, result, done⟩ := ih next kept (by omega)
      exact ⟨final, by simpa only [whileLoop, test, step] using result, done⟩

-- What the body preserves holds when the loop returns.
theorem whileLoop_preserves (I : σ → Prop) (fuel : Nat) (s final : σ) (start : I s)
    (result : whileLoop exhausted cond body fuel s = .ok final)
    (preserved : ∀ s s', I s → cond s = .ok true → body s = .ok s' → I s') :
    I final ∧ cond final = .ok false := by
  induction fuel generalizing s with
  | zero => simp [whileLoop] at result
  | succ fuel ih =>
    simp only [whileLoop] at result
    split at result
    next => cases result
    next test => cases result; exact ⟨start, test⟩
    next test =>
      split at result
      next => cases result
      next next step => exact ih next (preserved s next start test step) result

/-- A loop follows another one, round for round; the relation may count the rounds left. -/
theorem whileLoop_simulates {τ : Type} (R : Nat → σ → τ → Prop) (cond' : τ → Except ε Bool)
    (body' : τ → Except ε τ) {fuel : Nat} {s final : σ} {t : τ} (start : R fuel s t)
    (result : whileLoop exhausted cond body fuel s = .ok final)
    (tests : ∀ n s t, R n s t → cond' t = cond s)
    (steps : ∀ n s t next, R (n + 1) s t → cond s = .ok true → body s = .ok next →
      ∃ next', body' t = .ok next' ∧ R n next next') :
    ∃ n final', whileLoop exhausted cond' body' fuel t = .ok final' ∧ R n final final' := by
  induction fuel generalizing s t with
  | zero => simp [whileLoop] at result
  | succ fuel ih =>
    have test := tests _ s t start
    simp only [whileLoop] at result ⊢
    split at result
    next => cases result
    next stop =>
      cases result
      exact ⟨fuel + 1, t, by simp only [test, stop], start⟩
    next go =>
      split at result
      next => cases result
      next next step =>
        obtain ⟨next', step', related⟩ := steps fuel s t next start go step
        obtain ⟨n, final', done, ended⟩ := ih related result
        exact ⟨n, final', by simpa only [test, go, step'] using done, ended⟩

/-- A loop that runs its body in the states that `I` describes, one for each number from `j` on. -/
theorem whileLoop_counts {α : Type} (I : Nat → σ → Prop) (label : σ → α) (name : Nat → α) (n : Nat)
    {fuel j : Nat} {s : σ} (start : I j s) (le : j ≤ n) (enough : n - j < fuel)
    (tests : ∀ j s, j ≤ n → I j s → cond s = .ok (decide (j < n)))
    (advances : ∀ j s, j < n → I j s → ∃ s', body s = .ok s' ∧ I (j + 1) s')
    (labelled : ∀ j s, j < n → I j s → label s = name j) :
    ∃ s', whileLoop exhausted cond body fuel s = .ok s' ∧ I n s' ∧
      (visits cond body fuel s).map label = (List.range' j (n - j)).map name := by
  induction fuel generalizing j s with
  | zero => omega
  | succ fuel ih =>
    have test := tests j s le start
    by_cases more : j < n
    · rw [decide_eq_true more] at test
      obtain ⟨next, step, kept⟩ := advances j s more start
      obtain ⟨final, result, done, visited⟩ := ih kept more (by omega)
      have rounds : n - j = n - (j + 1) + 1 := by omega
      refine ⟨final, by simpa only [whileLoop, test, step] using result, done, ?_⟩
      rw [rounds, List.range'_succ, List.map_cons, ← visited, ← labelled j s more start]
      simp only [visits, test, step, List.map_cons]
    · obtain rfl : j = n := by omega
      rw [decide_eq_false more] at test
      refine ⟨s, by simp only [whileLoop, test], start, ?_⟩
      rw [Nat.sub_self]
      simp only [visits, test, List.map_nil, List.range'_zero]

/-- A loop that counts the first component of its state up to `n`. -/
theorem visits_counts {τ : Type} (step : Nat × τ → τ) {n i fuel : Nat} (t : τ) (within : i ≤ n)
    (enough : n - i < fuel) :
    (visits (ε := ε) (fun s : Nat × τ => .ok (decide (s.1 < n))) (fun s => .ok (s.1 + 1, step s))
      fuel (i, t)).map Prod.fst = List.range' i (n - i) := by
  induction fuel generalizing i t with
  | zero => omega
  | succ fuel ih =>
    by_cases more : i < n
    · have rounds : n - i = n - (i + 1) + 1 := by omega
      rw [rounds, List.range'_succ, ← ih (step (i, t)) more (by omega)]
      simp only [visits, more, decide_true, List.map_cons]
    · obtain rfl : i = n := by omega
      simp only [visits, more, decide_false, List.map_nil, Nat.sub_self, List.range'_zero]

end Loop
