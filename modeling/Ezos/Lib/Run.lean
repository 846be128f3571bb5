import Mathlib.Logic.Relation

/-!
# Runs of a labelled step relation

`Run step s ops t` says that the operations `ops`, taken in order, lead from `s` to
`t`. The rules below are the only inductions over runs that a client needs: an invariant of
one step is an invariant of a run, and runs are put together and taken apart.
-/

namespace Ezos.Lib

set_option autoImplicit false

universe u w
variable {σ : Type u} {Op : Type w}

inductive Run (step : σ → Op → σ → Prop) : σ → List Op → σ → Prop where
  | nil (s : σ) : Run step s [] s
  | cons {s t u : σ} {o : Op} {os : List Op} : step s o t → Run step t os u → Run step s (o :: os) u

namespace Run
variable {step : σ → Op → σ → Prop} {s t u : σ} {os ps : List Op}

theorem invariant {I : σ → Prop} (hstep : ∀ {s o t}, I s → step s o t → I t)
    (h : Run step s os t) (hs : I s) : I t := by
  induction h with
  | nil => exact hs
  | cons h _ ih => exact ih (hstep hs h)

theorem mono {step' : σ → Op → σ → Prop} (h : Run step s os t)
    (hstep : ∀ s o t, step s o t → step' s o t) : Run step' s os t := by
  induction h with
  | nil s => exact .nil s
  | cons h _ ih => exact .cons (hstep _ _ _ h) ih

theorem append (h : Run step s os t) (h' : Run step t ps u) : Run step s (os ++ ps) u := by
  induction h with
  | nil => exact h'
  | cons h _ ih => exact .cons h (ih h')

theorem split (h : Run step s (os ++ ps) u) : ∃ t, Run step s os t ∧ Run step t ps u := by
  induction os generalizing s with
  | nil => exact ⟨s, .nil s, h⟩
  | cons o os ih =>
    cases h with
    | cons hs hr =>
      obtain ⟨t, ht, hu⟩ := ih hr
      exact ⟨t, .cons hs ht, hu⟩

theorem single {o : Op} (h : Run step s [o] t) : step s o t := by
  cases h with
  | cons hs hr =>
    cases hr with
    | nil => exact hs

end Run

def Plays (ok : σ → Op → Prop) (run : σ → Op → σ) : σ → List Op → Prop
  | _, [] => True
  | s, o :: os => ok s o ∧ Plays ok run (run s o) os

variable {ok : σ → Op → Prop} {run : σ → Op → σ}

instance Plays.decidable [∀ s o, Decidable (ok s o)] :
    (s : σ) → (os : List Op) → Decidable (Plays ok run s os)
  | _, [] => inferInstanceAs (Decidable True)
  | s, o :: os =>
    have := Plays.decidable (run s o) os
    inferInstanceAs (Decidable (_ ∧ _))

theorem Run.of_plays {step : σ → Op → σ → Prop} {s : σ} {os : List Op}
    (hstep : ∀ s o, ok s o → step s o (run s o)) (h : Plays ok run s os) :
    Run step s os (os.foldl run s) := by
  induction os generalizing s with
  | nil => exact .nil s
  | cons o os ih => exact .cons (hstep s o h.1) (ih h.2)

end Ezos.Lib
