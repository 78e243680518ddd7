import SystemsProgramming.Library.Run

/-!
# Registers in a log

The entries of a log read and write registers.  A log is coherent at a register when every read of it
tells the value of the last write before.
-/

namespace Register

variable {E X V : Type} [DecidableEq X]

/-- What an entry says of a register. -/
inductive Access (X V : Type) where
  | write (x : X) (v : V)
  | read (x : X) (v : V)

/-- The value of the last write of `x` in a log. -/
def lastWrite (access : E → Option (Access X V)) (x : X) (v₀ : V) (log : List E) : V :=
  log.foldl (fun v e => match access e with
    | some (.write y w) => if y = x then w else v
    | _ => v) v₀

/-- Every read of `x` tells the value of the last write before. -/
def Coherent (access : E → Option (Access X V)) (x : X) (v₀ : V) (log : List E) : Prop :=
  ∀ before e after v, log = before ++ e :: after → access e = some (.read x v) →
    v = lastWrite access x v₀ before

variable {access : E → Option (Access X V)} {x y : X} {v v₀ : V} {log : List E} {e : E}

theorem lastWrite_write (h : access e = some (.write x v)) :
    lastWrite access x v₀ (log ++ [e]) = v := by
  simp [lastWrite, h]

theorem lastWrite_snoc (h : ∀ v, access e ≠ some (.write x v)) :
    lastWrite access x v₀ (log ++ [e]) = lastWrite access x v₀ log := by
  simp only [lastWrite, List.foldl_append, List.foldl_cons, List.foldl_nil]
  cases ha : access e with
  | none => rfl
  | some a =>
      cases a with
      | read y w => rfl
      | write y w =>
          refine if_neg ?_
          rintro rfl
          exact h w ha

theorem coherent_nil : Coherent access x v₀ [] := by
  intro before e after v h
  simp at h

theorem Coherent.snoc (h : Coherent access x v₀ log)
    (he : ∀ v, access e = some (.read x v) → v = lastWrite access x v₀ log) :
    Coherent access x v₀ (log ++ [e]) := by
  intro before e' after v heq ha
  rcases Transition.snoc_eq_append_cons heq with ⟨rfl, rfl, -⟩ | ⟨after, -, hlog⟩
  · exact he v ha
  · exact h before e' after v hlog ha

/-- The register holds `v`, and all reads of it were right. -/
structure Holds (access : E → Option (Access X V)) (x : X) (v₀ v : V) (log : List E) : Prop where
  last : lastWrite access x v₀ log = v
  coherent : Coherent access x v₀ log

theorem holds_nil : Holds access x v₀ v₀ [] := ⟨rfl, coherent_nil⟩

/-- An entry about other registers. -/
theorem Holds.other (h : Holds access x v₀ v log) (hw : ∀ w, access e ≠ some (.write x w))
    (hr : ∀ w, access e ≠ some (.read x w)) : Holds access x v₀ v (log ++ [e]) where
  last := (lastWrite_snoc hw).trans h.last
  coherent := h.coherent.snoc fun w he => absurd he (hr w)

/-- A read of what the register holds. -/
theorem Holds.read (h : Holds access x v₀ v log) (he : access e = some (.read x v)) :
    Holds access x v₀ v (log ++ [e]) where
  last := (lastWrite_snoc fun w hw => by rw [he] at hw; cases hw).trans h.last
  coherent := h.coherent.snoc fun w hw => by
    rw [he] at hw
    cases hw
    exact h.last.symm

/-- A write gives the register its value. -/
theorem Coherent.write (h : Coherent access x v₀ log) (he : access e = some (.write x v)) :
    Holds access x v₀ v (log ++ [e]) where
  last := lastWrite_write he
  coherent := h.snoc fun w hw => by rw [he] at hw; cases hw

end Register
