import Mathlib.Logic.Function.Basic

/-! Bounded execution of imperative loops. A body either asks for another round or
leaves the loop; `none` stands for a round without a result and for an exhausted
budget, so a completed run is never an artefact of the budget. -/
namespace TradingPlatform.Loop

inductive Control (σ : Type) where
  | next (state : σ)
  | done (state : σ)
  deriving DecidableEq, Repr

/-- The loop test belongs to the body, which leaves by `done` when the test fails. -/
def iterate (body : σ → Option (Control σ)) : Nat → σ → Option σ
  | 0, _ => none
  | fuel + 1, s =>
    match body s with
    | none => none
    | some (.done final) => some final
    | some (.next next) => iterate body fuel next

theorem iterate_done (left : body s = some (.done final)) :
    iterate body (fuel + 1) s = some final := by
  simp [iterate,left]

theorem iterate_next (again : body s = some (.next next)) :
    iterate body (fuel + 1) s = iterate body fuel next := by
  simp [iterate,again]

/-- Budgets and bodies that do at least as much change no completed run. -/
theorem iterate_refines (refines : ∀ s c, body s = some c → body' s = some c) (more : fuel ≤ fuel')
    (result : iterate body fuel s = some t) : iterate body' fuel' s = some t := by
  induction fuel generalizing s fuel' with
  | zero => simp [iterate] at result
  | succ fuel ih =>
    obtain ⟨fuel',rfl⟩ : ∃ n, fuel' = n + 1 := ⟨fuel' - 1,by omega⟩
    simp only [iterate] at result
    split at result
    · simp at result
    · rename_i final left
      rw [iterate_done (refines s _ left)]
      exact result
    · rename_i next again
      rw [iterate_next (refines s _ again)]
      exact ih (by omega) result

/-- A loop ends when every round keeps an invariant and either leaves or lowers a measure. -/
theorem iterate_ends (I J : σ → Prop) (measure : σ → Nat)
    (round : ∀ s, I s → (∃ t, body s = some (.done t) ∧ J t) ∨
      ∃ t, body s = some (.next t) ∧ I t ∧ measure t < measure s)
    (start : I s) (enough : measure s < fuel) : ∃ t, iterate body fuel s = some t ∧ J t := by
  induction fuel generalizing s with
  | zero => omega
  | succ fuel ih =>
    rcases round s start with ⟨t,left,post⟩ | ⟨t,again,kept,lower⟩
    · exact ⟨t,iterate_done left,post⟩
    · rw [iterate_next again]
      exact ih kept (by omega)

/-- The states in which a round begins. -/
inductive Visits (body : σ → Option (Control σ)) (s : σ) : σ → Prop
  | start : Visits body s s
  | later (before : Visits body s t) (again : body t = some (.next u)) : Visits body s u

theorem Visits.keeps (I : σ → Prop) (keeps : ∀ s t, I s → body s = some (.next t) → I t) (start : I s)
    (visits : Visits body s t) : I t := by
  induction visits with
  | start => exact start
  | later before again ih => exact keeps _ _ ih again

end TradingPlatform.Loop
