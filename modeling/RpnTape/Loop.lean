/-!
# Loop — repeating a step until it gives a result

A loop need not end, so running it is a function into `Option`: `none` says that no result is ever
reached. When the program runs, such a loop does not come back.
-/

namespace RpnTape

/-- A step from a state to another state or to a result. -/
structure Loop (σ ρ : Type) where
  step : σ → σ ⊕ ρ

namespace Loop

variable {σ ρ : Type} {loop : Loop σ ρ} {s s' : σ} {r : ρ}

/-- The result that repeating the step from the state `s` leads to, if it leads to one. -/
def run (loop : Loop σ ρ) (s : σ) : Option ρ :=
  match loop.step s with
  | .inl s' => loop |>.run s'
  | .inr r => some r
partial_fixpoint

theorem run_of_inl (h : loop.step s = .inl s') : loop.run s = loop.run s' := by rw [run, h]

theorem run_of_inr (h : loop.step s = .inr r) : loop.run s = some r := by rw [run, h]

end Loop

end RpnTape
