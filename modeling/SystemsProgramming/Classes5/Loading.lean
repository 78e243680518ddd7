import SystemsProgramming.Library.ModuleLife

/-!
# Loading the modules of `Classes5`

`linked_init` and `linked_exit` call `unregister_chrdev` whether or not the module has registered its
major number, and the kernel unregisters whatever driver holds it: the module leaves nothing behind, but
whoever holds the number loses it when the module is loaded or unloaded (`linked_history`).  The
functions of `simple_module.c` unregister only what they have registered (`simple_history`).
-/

/-! ### `linked_buffer.c` -/

namespace LinkedLife

open Transition ModuleLife
open Kernel (ebusy)

/-- What the module registers: `/proc/linked` and the major number of `/dev/linked`. -/
inductive Name where
  | proc
  | major
  deriving DecidableEq

theorem Name.cases (n : Name) : n = .proc ∨ n = .major := by
  cases n <;> simp

/-- The calls of `linked_init` that fail. -/
structure InitFails where
  procCreate : Bool
  registerChrdev : Bool

/-- Whether `proc_entry` is set. -/
structure Globals where
  procEntry : Bool
  deriving DecidableEq

/-- `linked_init` -/
def linkedInit (id : ℕ) (fails : InitFails) (k : Kernel Name) : Kernel Name × Globals × ℤ :=
  let (k, procEntry) := k.register id .proc fails.procCreate
  -- `goto err`, with the result 0
  if procEntry = false then (k.unregister .major, ⟨false⟩, 0)
  else
    let (k, registered) := k.register id .major fails.registerChrdev
    if registered = false then ((k.deregister id .proc).unregister .major, ⟨true⟩, -ebusy)
    else (k, ⟨true⟩, 0)

/-- `linked_exit`, as far as it unregisters -/
def linkedExit (id : ℕ) (g : Globals) (k : Kernel Name) : Kernel Name :=
  let k := k.unregister .major
  if g.procEntry then k.deregister id .proc else k

/-- The module. -/
def code : Code Name Globals InitFails where
  init := linkedInit
  exit := linkedExit

section Calls

variable {i : ℕ} {f : InitFails} {k : Kernel Name}

theorem linkedInit_refused (h : ¬ k.Grants .proc f.procCreate) :
    linkedInit i f k = (k.unregister .major, ⟨false⟩, 0) := by
  simp [linkedInit, Kernel.register_of_not_grants h]

theorem linkedInit_granted (h : k.Grants .proc f.procCreate) : linkedInit i f k =
    if k.Grants .major f.registerChrdev then ((k.grant i .proc).grant i .major, ⟨true⟩, 0)
    else (k.unregister .major, ⟨true⟩, -ebusy) := by
  have hiff : (k.grant i .proc).Grants .major f.registerChrdev ↔ k.Grants .major f.registerChrdev :=
    Kernel.grants_grant (by decide)
  by_cases hm : k.Grants .major f.registerChrdev
  · simp [linkedInit, Kernel.register_of_grants h, Kernel.register_of_grants (hiff.2 hm), hm]
  · have hback := Kernel.deregister_grant (i := i) h.2
    simp [linkedInit, Kernel.register_of_grants h, Kernel.register_of_not_grants (mt hiff.1 hm), hm,
      hback]

/-- The exit function undoes a complete load. -/
theorem linkedExit_done (hp : k.holder .proc = some (.image i)) :
    linkedExit i ⟨true⟩ k = (k.unregister .major).unregister .proc := by
  have hheld : (k.unregister .major).holder .proc = some (.image i) := by
    rw [Kernel.unregister_holder_of_ne (by decide), hp]
  simp [linkedExit, Kernel.deregister_of_held hheld]

/-- Nobody else holds the major number when `linked_init` returns. -/
theorem linkedInit_major (id : ℕ) (f : InitFails) (k : Kernel Name) :
    (linkedInit id f k).1.holder .major ≠ some .other := by
  by_cases hp : k.Grants .proc f.procCreate
  · rw [linkedInit_granted hp]
    split
    · rw [Kernel.grant_holder_self]
      simp
    · rw [Kernel.unregister_holder_self]
      simp
  · rw [linkedInit_refused hp, Kernel.unregister_holder_self]
    simp

theorem linkedExit_major (id : ℕ) (g : Globals) (k : Kernel Name) :
    (linkedExit id g k).holder .major ≠ some .other := by
  intro h
  have hleft : (k.unregister .major).holder .major = some .other := by
    simp only [linkedExit] at h
    split at h
    · exact Kernel.holder_of_deregister h
    · exact h
  rw [Kernel.unregister_holder_self] at hleft
  cases hleft

end Calls

/-! ### Every history -/

/-- Whether another driver holds the major number after an event. -/
def othersAfter (held : Bool) : Event Name InitFails → Bool
  | .take .major => true
  | .insmod _ | .rmmod | .give .major => false
  | .take .proc | .give .proc => held

/-- The loaded image holds both names if it has its entry in `/proc`, and otherwise none. -/
structure Sound (s : State Name Globals) : Prop where
  whole : Whole (fun g => g = ⟨true⟩) s
  misused : s.kernel.misused = 0

section Histories

variable {s s' : State Name Globals} {e : Event Name InitFails} {f : InitFails}

theorem Sound.load (h : Sound s) (hi : s.image = none) : Sound (s.load code f) := by
  have hunheld := h.whole.unheld_of_none hi
  by_cases hp : s.kernel.Grants .proc f.procCreate
  · have hinit := linkedInit_granted (i := s.loads) hp
    by_cases hm : s.kernel.Grants .major f.registerChrdev
    · rw [if_pos hm] at hinit
      have hload : s.load code f =
          { kernel := (s.kernel.grant s.loads .proc).grant s.loads .major
            image := some (s.loads, ⟨true⟩)
            loads := s.loads + 1 } := by
        simp [State.load, code, hinit]
      rw [hload]
      exact ⟨whole_of_held rfl rfl (Kernel.grant_both Name.cases), h.misused⟩
    · rw [if_neg hm] at hinit
      have hload : s.load code f =
          { kernel := s.kernel.unregister .major, image := none, loads := s.loads + 1 } := by
        simp [State.load, code, hinit, ebusy]
      rw [hload]
      exact ⟨whole_of_unheld (by simp) (hunheld.unregister _), h.misused⟩
  · have hload : s.load code f =
        { kernel := s.kernel.unregister .major
          image := some (s.loads, ⟨false⟩)
          loads := s.loads + 1 } := by
      simp [State.load, code, linkedInit_refused hp]
    rw [hload]
    exact ⟨whole_of_unheld (by simp) (hunheld.unregister _), h.misused⟩

theorem Sound.unload (h : Sound s) {id : ℕ} {g : Globals} (hi : s.image = some (id, g)) :
    Sound (s.unload code id g) := by
  suffices hexit : (linkedExit id g s.kernel).Unheld ∧
      (linkedExit id g s.kernel).misused = s.kernel.misused from
    ⟨whole_of_unheld (by simp [State.unload]) hexit.1, hexit.2.trans h.misused⟩
  rcases g with ⟨_ | _⟩
  · have hunheld : s.kernel.Unheld := h.whole.unheld (by simp [hi])
    exact ⟨hunheld.unregister _, rfl⟩
  · rw [linkedExit_done (congrFun (h.whole.held hi rfl) .proc)]
    exact ⟨Kernel.unregister_both fun n => (Name.cases n).symm, rfl⟩

theorem Sound.step (h : Sound s) (hs : Step code s e s') : Sound s' := by
  cases hs with
  | insmod f hi => exact h.load hi
  | rmmod hi => exact h.unload hi
  | take hn => exact ⟨h.whole.hold (by simp [hn]) (by simp), h.misused⟩
  | give hn => exact ⟨h.whole.hold (by simp [hn]) (by simp), h.misused⟩

/-- What a step does to the major number when another driver holds it, or wants it. -/
theorem others_step (hs : Step code s e s') :
    decide (s'.kernel.holder .major = some .other) =
      othersAfter (decide (s.kernel.holder .major = some .other)) e := by
  cases hs with
  | insmod f hi => exact decide_eq_false (linkedInit_major s.loads f s.kernel)
  | @rmmod id g hi => exact decide_eq_false (linkedExit_major id g s.kernel)
  | @take n hn => cases n <;> simp [State.hold, othersAfter]
  | @give n hn => cases n <;> simp [State.hold, othersAfter]

/-- The names belong to the loaded image if it has its entry in `/proc`, and to no image otherwise:
nothing dangles, and only what is registered is unregistered.  Another driver holds the major number
exactly if it has taken it since the module was last loaded or unloaded. -/
theorem linked_history {tr : List (State Name Globals × Event Name InitFails)}
    (h : Run (Step code) start tr s) :
    (∀ n i, s.kernel.holder n = some (.image i) ↔ s.image = some (i, ⟨true⟩)) ∧
      s.kernel.misused = 0 ∧
      decide (s.kernel.holder .major = some .other) =
        (tr.map Prod.snd).foldl othersAfter false := by
  have hsound : Sound s :=
    h.invariant (fun s e s' hs hstep => hs.step hstep) ⟨whole_start, rfl⟩
  refine ⟨fun n i => ?_, hsound.misused, ?_⟩
  · rw [hsound.whole.held_iff]
    simp
  · clear hsound
    induction h with
    | nil => rfl
    | snoc hrun hs ih => rw [others_step hs, ih, List.map_append, List.foldl_append]; rfl

/-- Another driver has the major number; the load fails, and the driver loses it. -/
theorem linked_history_major_in_use :
    ∃ (s : State Name Globals) (tr : List (State Name Globals × Event Name InitFails)),
      s.image = none ∧ tr.map Prod.snd = [.take .major, .insmod ⟨false, false⟩] ∧
      decide (s.kernel.holder .major = some .other) =
        (tr.map Prod.snd).foldl othersAfter false := by
  let es : List (Event Name InitFails) := [.take .major, .insmod ⟨false, false⟩]
  have hs : (replay (ModuleLife.exec code) es start).isSome := rfl
  have h := linked_history (run_of_replay (fun _ _ _ => step_of_exec) (Option.some_get hs).symm)
  exact ⟨_, _, rfl, rfl, h.2.2⟩

end Histories

end LinkedLife

/-! ### `simple_module.c` -/

namespace SimpleLife

open Transition ModuleLife
open Kernel (ebusy)

/-- `simple_init`, which registers the major number; `fails` stands for another failure than a number
in use -/
def simpleInit (id : ℕ) (fails : Bool) (k : Kernel Unit) : Kernel Unit × Unit × ℤ :=
  let (k, registered) := k.register id () fails
  if registered = false then (k, (), -ebusy) else (k, (), 0)

/-- `simple_exit` -/
def simpleExit (_ : ℕ) (_ : Unit) (k : Kernel Unit) : Kernel Unit := k.unregister ()

/-- The module. -/
def code : Code Unit Unit Bool where
  init := simpleInit
  exit := simpleExit

section Histories

variable {s s' : State Unit Unit} {e : Event Unit Bool} {fails : Bool}

theorem load_granted (h : s.kernel.Grants () fails) : s.load code fails =
    { kernel := s.kernel.grant s.loads (), image := some (s.loads, ()), loads := s.loads + 1 } := by
  simp [State.load, code, simpleInit, Kernel.register_of_grants h]

theorem load_refused (h : ¬ s.kernel.Grants () fails) :
    s.load code fails = { kernel := s.kernel, image := none, loads := s.loads + 1 } := by
  simp [State.load, code, simpleInit, Kernel.register_of_not_grants h, ebusy]

theorem whole_step (h : Whole (fun _ => True) s) (hs : Step code s e s') :
    Whole (fun _ => True) s' := by
  cases hs with
  | insmod fails hi =>
      by_cases hg : s.kernel.Grants () fails
      · rw [load_granted hg]
        exact whole_of_held rfl trivial (funext fun _ => Kernel.grant_holder_self)
      · rw [load_refused hg]
        exact whole_of_unheld (by simp) (h.unheld_of_none hi)
  | rmmod hi =>
      refine whole_of_unheld (by simp [State.unload]) fun n i hn => ?_
      exact absurd (Kernel.unregister_holder_self.symm.trans hn) (by simp)
  | take hn => exact h.hold (by simp [hn]) (by simp)
  | give hn => exact h.hold (by simp [hn]) (by simp)

/-- The image that is loaded holds the major number, and another driver that holds it keeps it when the
module is loaded or unloaded. -/
theorem simple_history (h : Reachable (Step code) start s) :
    (∀ i, s.kernel.holder () = some (.image i) ↔ s.image = some (i, ())) ∧
      ∀ e s', s.kernel.holder () = some .other → Step code s e s' →
        s'.kernel.holder () = some .other ∨ e = .give () := by
  have hwhole : Whole (fun _ => True) s :=
    h.invariant (fun s e s' hw hstep => whole_step hw hstep) whole_start
  refine ⟨fun i => ?_, fun e s' hother hs => ?_⟩
  · rw [hwhole.held_iff]
    exact ⟨fun ⟨_, hi, _⟩ => hi, fun hi => ⟨(), hi, trivial⟩⟩
  · cases hs with
    | insmod fails hi =>
        rw [load_refused fun hg => by rw [hg.2] at hother; cases hother]
        exact Or.inl hother
    | @rmmod id g hi =>
        rw [congrFun (hwhole.held hi trivial) ()] at hother
        cases hother
    | take hn =>
        rw [hn] at hother
        cases hother
    | give hn => exact Or.inr rfl

end Histories

end SimpleLife
