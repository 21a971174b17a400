/-!
Saturation: a step that only ever adds to a state is repeated until it adds nothing. The room that is
left for additions bounds the number of rounds.
-/

namespace RegisterWeb

/-- Repeats a step as long as it uses up room. -/
def saturate {σ : Type} (room : σ → Nat) (step : σ → σ) (s : σ) : σ :=
  if room (step s) < room s then saturate room step (step s) else s
termination_by room s

/-- What a step keeps, saturation keeps. -/
theorem saturate_keeps {σ : Type} {room : σ → Nat} {step : σ → σ} (P : σ → Prop)
    (keep : ∀ s, P s → P (step s)) (s : σ) (start : P s) : P (saturate room step s) := by
  fun_induction saturate room step s with
  | case1 s h ih => exact ih (keep s start)
  | case2 s h => exact start

/-- At the end a step uses up no more room. -/
theorem saturate_stops {σ : Type} (room : σ → Nat) (step : σ → σ) (s : σ) :
    room (saturate room step s) ≤ room (step (saturate room step s)) := by
  fun_induction saturate room step s with
  | case1 s h ih => exact ih
  | case2 s h => exact Nat.le_of_not_lt h

end RegisterWeb
