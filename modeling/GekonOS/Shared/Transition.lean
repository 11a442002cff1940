import Mathlib.Data.List.Induction
import Mathlib.Data.List.ReduceOption

set_option autoImplicit false

namespace Transition

variable {σ α : Type}

inductive Run (step : σ → α → σ → Prop) (start : σ) : List α → σ → Prop
  | nil : Run step start [] start
  | snoc {labels : List α} {s s' : σ} {label : α} :
      Run step start labels s → step s label s' → Run step start (labels ++ [label]) s'

def Guarded (guard : σ → α → Prop) (step : σ → α → σ → Prop) : σ → α → σ → Prop :=
  fun s label s' => guard s label ∧ step s label s'

theorem Run.invariant {step : σ → α → σ → Prop} {I : σ → Prop} {start s : σ} {labels : List α}
    (run : Run step start labels s) (initial : I start)
    (preserved : ∀ s label s', I s → step s label s' → I s') : I s := by
  induction run with
  | nil => exact initial
  | snoc _ taken ih => exact preserved _ _ _ ih taken

variable {step : σ → α → σ → Prop} {s t u : σ} {label : α} {labels rest : List α}

theorem Run.last (run : Run step s (labels ++ [label]) u) :
    ∃ t, Run step s labels t ∧ step t label u := by
  generalize split : labels ++ [label] = all at run
  cases run with
  | nil => simp at split
  | snoc earlier taken =>
    obtain ⟨rfl, same⟩ := List.append_inj' split rfl
    cases same
    exact ⟨_, earlier, taken⟩

theorem Run.nil_eq (run : Run step s [] u) : u = s := by
  generalize none : [] = all at run
  cases run with
  | nil => rfl
  | snoc _ _ => simp at none

theorem Run.upTo (run : Run step s (labels ++ rest) u) : ∃ t, Run step s labels t := by
  induction rest using List.reverseRecOn generalizing u with
  | nil => exact ⟨u, by simpa using run⟩
  | append_singleton rest label ih =>
    rw [← List.append_assoc] at run
    obtain ⟨t, earlier, -⟩ := run.last
    exact ih earlier

theorem Run.cons (first : step s label t) (run : Run step t labels u) :
    Run step s (label :: labels) u := by
  induction run with
  | nil => exact Run.snoc Run.nil first
  | snoc _ taken ih => exact Run.snoc ih taken

theorem Run.mono {wider : σ → α → σ → Prop} (run : Run step s labels u)
    (includes : ∀ s label s', step s label s' → wider s label s') : Run wider s labels u := by
  induction run with
  | nil => exact Run.nil
  | snoc _ taken ih => exact Run.snoc ih (includes _ _ _ taken)

variable {β τ : Type}

/-- A simulation of steps is one of runs. -/
theorem Run.simulate {spec : τ → α → τ → Prop} {R : σ → τ → Prop}
    (simulates : ∀ s t label s', R s t → step s label s' → ∃ t', spec t label t' ∧ R s' t')
    {start : τ} (run : Run step s labels u) (related : R s start) :
    ∃ final, Run spec start labels final ∧ R u final := by
  induction run with
  | nil => exact ⟨start, Run.nil, related⟩
  | snoc _ taken ih =>
    obtain ⟨t, earlier, here⟩ := ih
    obtain ⟨t', next, later⟩ := simulates _ t _ _ here taken
    exact ⟨t', earlier.snoc next, later⟩

theorem Run.append_inv (run : Run step s (labels ++ rest) u) :
    ∃ t, Run step s labels t ∧ Run step t rest u := by
  induction rest using List.reverseRecOn generalizing u with
  | nil => exact ⟨u, by simpa using run, Run.nil⟩
  | append_singleton rest label ih =>
    rw [← List.append_assoc] at run
    obtain ⟨t, earlier, taken⟩ := run.last
    obtain ⟨mid, first, second⟩ := ih earlier
    exact ⟨mid, first, second.snoc taken⟩

-- the steps of a system, and between them steps that have no label
def Interleaved (step : σ → α → σ → Prop) (quiet : σ → σ → Prop) : σ → Option α → σ → Prop
  | s, some label, s' => step s label s'
  | s, none, s' => quiet s s'

/-- Steps that are not seen may be left out of a run. -/
theorem Run.erase {quiet : σ → σ → Prop} {R : σ → σ → Prop}
    (unseen : ∀ s s' t, R s t → quiet s s' → R s' t)
    (respects : ∀ s t label s', R s t → step s label s' → ∃ t', step t label t' ∧ R s' t')
    {steps : List (Option α)} (run : Run (Interleaved step quiet) s steps u) (related : R s t) :
    ∃ v, Run step t steps.reduceOption v ∧ R u v := by
  induction run with
  | nil => exact ⟨t, Run.nil, related⟩
  | @snoc steps s s' label earlier taken ih =>
    obtain ⟨v, run, here⟩ := ih
    cases label with
    | none => exact ⟨v, by simpa [List.reduceOption_append] using run, unseen _ _ _ here taken⟩
    | some label =>
      obtain ⟨w, next, later⟩ := respects _ _ _ _ here taken
      refine ⟨w, ?_, later⟩
      rw [List.reduceOption_append]
      exact run.snoc next

-- the answers to a list of calls and the state behind them
def answers (call : σ → α → β × σ) : σ → List α → List β × σ
  | s, [] => ([], s)
  | s, op :: ops =>
    let (answer, s) := call s op
    let (later, s) := answers call s ops
    (answer :: later, s)

/-- Related states that answer alike and stay related answer every list of calls alike. -/
theorem answers_simulate {call : σ → α → β × σ} {spec : τ → α → β × τ} {R : σ → τ → Prop}
    (simulates : ∀ s t op, R s t →
      (call s op).1 = (spec t op).1 ∧ R (call s op).2 (spec t op).2)
    {s : σ} {t : τ} (related : R s t) (ops : List α) :
    (answers call s ops).1 = (answers spec t ops).1 ∧
      R (answers call s ops).2 (answers spec t ops).2 := by
  induction ops generalizing s t with
  | nil => exact ⟨rfl, related⟩
  | cons op ops ih =>
    obtain ⟨same, next⟩ := simulates s t op related
    obtain ⟨later, final⟩ := ih next
    exact ⟨congrArg₂ List.cons same later, final⟩

end Transition
