import SystemsProgramming.Library.Run
import Mathlib.Data.Set.Basic

/-!
# Activities that start one another

A system has activities; an activity starts because another one starts it, or from outside, as long
as its entrance is open.  Activities that are neither active nor open stay so, if whatever can start
one of them is among them: this is how a system is shut down, the causes before the effects.
-/

namespace Cascade

open Transition

variable {σ ℓ ι : Type*}

/-- How the activities of a system start. -/
structure System (step : σ → ℓ → σ → Prop) (ι : Type*) where
  /-- the activity is pending or running -/
  Active : σ → ι → Prop
  /-- the activity can start from outside -/
  Open : σ → ι → Prop
  /-- the first activity can start the second one -/
  Starts : ι → ι → Prop
  caused : ∀ {s l t}, step s l t → ∀ {i}, Active t i →
    Active s i ∨ Open s i ∨ ∃ j, Starts j i ∧ Active s j
  not_open : ∀ {s l t}, step s l t → ∀ {i}, Open t i → Open s i

namespace System

variable {step : σ → ℓ → σ → Prop} (S : System step ι) {q : Set ι} {s t : σ} {l : ℓ}

/-- No activity of `q` is active, or can start from outside. -/
def Quiet (q : Set ι) (s : σ) : Prop := ∀ i ∈ q, ¬ S.Active s i ∧ ¬ S.Open s i

/-- What can start an activity of `q` is in `q`. -/
def Closed (q : Set ι) : Prop := ∀ j i, S.Starts j i → i ∈ q → j ∈ q

variable {S}

theorem Quiet.next (h : S.Quiet q s) (hq : S.Closed q) (hstep : step s l t) : S.Quiet q t := by
  intro i hi
  refine ⟨fun hactive => ?_, fun hopen => (h i hi).2 (S.not_open hstep hopen)⟩
  rcases S.caused hstep hactive with hi' | hi' | ⟨j, hj, hj'⟩
  · exact (h i hi).1 hi'
  · exact (h i hi).2 hi'
  · exact (h j (hq j i hj hi)).1 hj'

theorem Quiet.reachable (h : S.Quiet q s) (hq : S.Closed q) (ht : Reachable step s t) :
    S.Quiet q t :=
  ht.invariant (fun _ _ _ hI hs => hI.next hq hs) h

/-- One more activity is quiet when it has stopped. -/
theorem Quiet.insert (h : S.Quiet q s) {i : ι} (hactive : ¬ S.Active s i) (hopen : ¬ S.Open s i) :
    S.Quiet (insert i q) s := by
  intro j hj
  rcases Set.mem_insert_iff.1 hj with rfl | hj
  · exact ⟨hactive, hopen⟩
  · exact h j hj

end System

end Cascade
