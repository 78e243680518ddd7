import SystemsProgramming.Classes5.LinkedBuffer.WriterLock
import SystemsProgramming.Classes5.SimpleSync.Spinlock

/-!
# Interrupt states that are saved in a global

`linked_write` of the rcu variant saves the interrupt state of its CPU in `lock_flags`, and
`simple_read` of the spin lock variant saves it in `flags`.  Both are globals, so the CPUs write to
the same variable; it is written after the acquire and read before the release.  Hence no CPU
restores the state of another one (`irq_restored`).
-/

namespace SavedFlags

open Transition
open LinkedBuffer (Module Request)

variable {C F : Type} [DecidableEq C]

/-- However the CPUs interleave, after its unlock a CPU has the interrupt state that it had before
the matching lock. -/
theorem irq_restored (disable : F → F) (flags : F) (irq : C → F) :
    (∀ (req : C → ℕ → Request) (m : Module) (start : C → LinkedBuffer.WriterLock.Place) tr s t c,
      Run (SpinLock.Step disable fun c => LinkedBuffer.WriterLock.code (req c))
        (SpinLock.init flags m irq start) tr s →
      SpinLock.Step disable (fun c => LinkedBuffer.WriterLock.code (req c)) s ⟨c, .restore⟩ t →
      SpinLock.EnteredWith c (t.irq c) tr) ∧
    (∀ (count : C → ℕ → ℕ) (msgPos : ℤ) (start : C → SimpleSync.Spinlock.Place) tr s t c,
      Run (SpinLock.Step disable fun c => SimpleSync.Spinlock.code (count c))
        (SpinLock.init flags msgPos irq start) tr s →
      SpinLock.Step disable (fun c => SimpleSync.Spinlock.code (count c)) s ⟨c, .restore⟩ t →
      SpinLock.EnteredWith c (t.irq c) tr) :=
  ⟨fun _ _ _ _ _ _ _ hrun hrestore => SpinLock.enteredWith_of_restore hrun hrestore,
    fun _ _ _ _ _ _ _ hrun hrestore => SpinLock.enteredWith_of_restore hrun hrestore⟩

/-- Two CPUs, the second one with interrupts disabled.  It saves its state while the first one has
the lock, and it gets the lock and writes to the global before the first one has restored. -/
def twoCpus {A : Type} (before inside : List A) : List (SpinLock.Event (Fin 2) Bool A) :=
  let stmts c as := as.map fun a => ⟨c, .stmt a⟩
  stmts 0 before ++ [⟨0, .save⟩, ⟨0, .acquire⟩] ++ stmts 1 before ++ [⟨1, .save⟩, ⟨0, .store⟩] ++
    stmts 0 inside ++ [⟨0, .load⟩, ⟨0, .release⟩, ⟨1, .acquire⟩, ⟨1, .store⟩]

theorem irq_restored_two :
    (∃ tr s t, Run (SpinLock.Step (fun _ => false) fun _ : Fin 2 =>
          LinkedBuffer.WriterLock.code fun _ => .write [1, 2] 0)
        (SpinLock.init false {} (fun c => c = 0) fun _ => {}) tr s ∧
      SpinLock.Step (fun _ => false)
        (fun _ => LinkedBuffer.WriterLock.code fun _ => .write [1, 2] 0) s ⟨0, .restore⟩ t ∧
      s.shared.flags = false ∧ t.irq 0 = true ∧ SpinLock.EnteredWith 0 (t.irq 0) tr) ∧
    (∃ tr s t, Run (SpinLock.Step (fun _ => false) fun _ : Fin 2 =>
          SimpleSync.Spinlock.code fun _ => 2)
        (SpinLock.init false 0 (fun c => c = 0) fun _ => .ready 0) tr s ∧
      SpinLock.Step (fun _ => false) (fun _ => SimpleSync.Spinlock.code fun _ => 2)
        s ⟨0, .restore⟩ t ∧
      s.shared.flags = false ∧ t.irq 0 = true ∧ SpinLock.EnteredWith 0 (t.irq 0) tr) := by
  constructor
  · have hreplay : replay (SpinLock.exec (fun _ => false) fun _ : Fin 2 =>
          LinkedBuffer.WriterLock.code fun _ => .write [1, 2] 0)
        (twoCpus [.step {}, .step {}] [.step {}])
        (SpinLock.init false {} (fun c => c = 0) fun _ => {}) = some _ := rfl
    have hrun := run_of_replay (fun _ _ _ h => h) hreplay
    exact ⟨_, _, _, hrun, rfl, rfl, rfl, (irq_restored _ _ _).1 _ _ _ _ _ _ _ hrun rfl⟩
  · have hreplay : replay (SpinLock.exec (fun _ => false) fun _ : Fin 2 =>
          SimpleSync.Spinlock.code fun _ => 2)
        (twoCpus [] [.kmalloc, .fill, .fill])
        (SpinLock.init false 0 (fun c => c = 0) fun _ => .ready 0) = some _ := rfl
    have hrun := run_of_replay (fun _ _ _ h => h) hreplay
    exact ⟨_, _, _, hrun, rfl, rfl, rfl, (irq_restored _ _ _).2 _ _ _ _ _ _ _ hrun rfl⟩

end SavedFlags
