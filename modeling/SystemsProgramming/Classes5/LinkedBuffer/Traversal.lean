import SystemsProgramming.Classes5.LinkedBuffer.Concurrent

/-!
# The steps inside the calls of the linked buffer module

Here the traversal of `linked_read` and the loop of `clean_list` advance one entry at a time, and
locking, inserting and unlocking are steps of their own.  The calls share a list of nodes; a node is
one allocation, so no two nodes have the same number.  The variants differ in the lock around the
traversal and the insertion, and in none of them does `clean_list` take it.
-/

namespace LinkedBuffer.Traversal

open Transition

/-- An allocated `struct data`. -/
structure Node where
  id : ℕ
  data : Data
  deriving DecidableEq

/-! ### The `next` pointers -/

/-- The node after `n`; `none` is the list head. -/
def after : List Node → Node → Option Node
  | [], _ => none
  | m :: l, n => if m = n then l.head? else after l n

/-- The `next` pointer of the cursor; a node that is not linked has none that can be followed. -/
def nextOf (l : List Node) : Option Node → Option (Option Node)
  | none => some l.head?
  | some n => if n ∈ l then some (after l n) else none

section Next

variable {l : List Node} {n m : Node}

theorem after_mem (h : after l n = some m) : m ∈ l := by
  induction l with
  | nil => cases h
  | cons a l ih =>
      rw [after] at h
      split at h
      · exact List.mem_cons_of_mem _ (List.mem_of_mem_head? h)
      · exact List.mem_cons_of_mem _ (ih h)

theorem after_append {l₁ l₂ : List Node} (h : n ∉ l₁) : after (l₁ ++ n :: l₂) n = l₂.head? := by
  induction l₁ with
  | nil => rw [List.nil_append, after, if_pos rfl]
  | cons a l₁ ih =>
      rw [List.mem_cons, not_or] at h
      rw [List.cons_append, after, if_neg (Ne.symm h.1), ih h.2]

/-- In a list without repetitions a node is not its own successor. -/
theorem after_ne (hl : l.Nodup) (h : after l n = some m) : m ≠ n := by
  by_cases hn : n ∈ l
  · obtain ⟨l₁, l₂, rfl⟩ := List.append_of_mem hn
    obtain ⟨-, hnd, hdisj⟩ := List.nodup_append.1 hl
    rw [after_append fun h₁ => hdisj n h₁ n (List.mem_cons_self ..) rfl] at h
    rintro rfl
    exact (List.nodup_cons.1 hnd).1 (List.mem_of_mem_head? h)
  · rintro rfl
    exact hn (after_mem h)

theorem nextOf_mem {cursor : Option Node} (h : nextOf l cursor = some (some m)) : m ∈ l := by
  cases cursor with
  | none => exact List.mem_of_mem_head? (Option.some.inj h)
  | some n =>
      rw [nextOf] at h
      split at h
      · exact after_mem (Option.some.inj h)
      · cases h

/-- The node after the last one seen is the first one not seen. -/
theorem nextOf_append {seen rest : List Node} (h : (seen ++ rest).Nodup) :
    nextOf (seen ++ rest) seen.getLast? = some rest.head? := by
  rcases List.eq_nil_or_concat seen with rfl | ⟨pre, n, rfl⟩
  · rfl
  · rw [List.concat_eq_append] at h ⊢
    rw [List.getLast?_concat, nextOf, if_pos (by simp), List.append_assoc, List.singleton_append,
      after_append]
    intro hn
    exact (List.nodup_append.1 (List.nodup_append.1 h).1).2.2 n hn n (List.mem_singleton_self n) rfl

theorem head?_of_nextOf {seen : List Node} (hl : l.Nodup) (hseen : seen <+: l) {next : Option Node}
    (h : nextOf l seen.getLast? = some next) : ∃ rest, l = seen ++ rest ∧ next = rest.head? := by
  obtain ⟨rest, rfl⟩ := hseen
  rw [nextOf_append hl] at h
  exact ⟨rest, rfl, (Option.some.inj h).symm⟩

end Next

/-! ### States -/

/-- Where a call is.  `seen` and `start` record the nodes that the traversal has come to and the list
at its start; no step depends on them. -/
inductive Ctrl (C : Type) where
  | ready
  /-- at the test of `total_length` in `linked_read` -/
  | checking
  /-- about to lock the list for the traversal -/
  | entering
  /-- in the traversal, about to follow the `next` pointer of the cursor -/
  | stepping (cursor : Option Node) (v : ReadVars) (seen start : List Node)
  /-- in the traversal, about to run the loop body for the node -/
  | visiting (n : Node) (v : ReadVars) (seen start : List Node)
  /-- at the end of the traversal, about to unlock -/
  | leaving (cursor : Option Node) (v : ReadVars) (seen start : List Node) (failed : Bool)
  /-- about to increment `read_count` -/
  | countingRead (v : ReadVars)
  /-- at the test of the `for` loop of `linked_write` -/
  | loop (i fPos : ℕ)
  /-- about to lock the list for the insertion -/
  | locking (i fPos : ℕ) (own : Node)
  /-- about to insert the node -/
  | inserting (i fPos : ℕ) (own : Node)
  /-- about to unlock -/
  | unlocking (i fPos : ℕ) (n : Node)
  /-- in `synchronize_rcu`, waiting for the readers of the list -/
  | syncing (i fPos : ℕ) (n : Node) (readers : List C)
  /-- about to add the length to `total_length` -/
  | adding (i fPos : ℕ) (n : Node)
  /-- about to call `clean_list` -/
  | clearing (fPos : ℕ) (own : Node)
  /-- in `clean_list`, about to unlink and free `cur` -/
  | cleaning (fPos : ℕ) (own cur : Node) (tmp : Option Node)
  /-- in `clean_list`, about to move on to `tmp` -/
  | advancing (fPos : ℕ) (own : Node) (tmp : Option Node)
  /-- at the end of `clean_list`, about to reset `total_length` -/
  | resetting (fPos : ℕ) (own : Node)
  /-- about to free the node that is not in the list, and to return -/
  | freeing (own : Node) (r : Return)
  /-- about to increment `write_count` -/
  | countingWrite (fPos : ℕ)
  | done (r : Return)

/-- The list, the counters and the lock. -/
structure Memory (C : Type) where
  list : List Node := []
  /-- the number of allocations so far -/
  nextId : ℕ := 0
  /-- the nodes given to `kfree` so far -/
  freed : List Node := []
  totalLength : ℕ := 0
  readCount : ℕ := 0
  writeCount : ℕ := 0
  /-- the call that holds the lock alone -/
  writer : Option C := none
  /-- the calls that hold the lock, or the RCU read side, together -/
  readers : List C := []

/-- The memory and the calls in progress. -/
structure State (C : Type) where
  memory : Memory C := {}
  ctrl : C → Ctrl C := fun _ => .ready

section System

variable {C : Type} [DecidableEq C]

/-! ### Steps -/

/-- `mutex_lock_interruptible`, `down_read`, `read_lock` or `rcu_read_lock` -/
def lockRead (variant : Variant) (c : C) (m : Memory C) : Option (Memory C) :=
  match variant with
  | .mutex => if m.writer = none then some { m with writer := some c } else none
  | .semaphore | .spinlock =>
    if m.writer = none then some { m with readers := c :: m.readers } else none
  | .rcu => some { m with readers := c :: m.readers }

/-- `mutex_unlock`, `up_read`, `read_unlock` or `rcu_read_unlock` -/
def unlockRead (variant : Variant) (c : C) (m : Memory C) : Memory C :=
  match variant with
  | .mutex => { m with writer := none }
  | _ => { m with readers := m.readers.erase c }

/-- `mutex_lock_interruptible`, `down_write`, `write_lock` or `spin_lock_irqsave` -/
def lockWrite (variant : Variant) (c : C) (m : Memory C) : Option (Memory C) :=
  if m.writer = none ∧ (variant = .rcu ∨ m.readers = []) then some { m with writer := some c }
  else none

/-- One step of the call `c`. -/
def callStep (variant : Variant) (input : Input) (c : C) (m : Memory C) :
    Request → Ctrl C → Option (Memory C × Ctrl C)
  | .read _ _, .ready => some (m, .checking)
  | .read _ fPos, .checking =>
    if m.totalLength < fPos then some (m, .done .early) else some (m, .entering)
  | .read _ fPos, .entering =>
    if input.Signals variant then some (m, .done (.failed .intr fPos))
    else (lockRead variant c m).map fun m => (m, .stepping none {} [] m.list)
  | .read _ _, .stepping cursor v seen start =>
    (nextOf m.list cursor).map fun
      | none => (m, .leaving none v seen start false)
      | some n => (m, .visiting n v (seen ++ [n]) start)
  | .read count fPos, .visiting n v seen start =>
    if ¬ v.Skips fPos ∧ input.faults v then some (m, .leaving (some n) v seen start true)
    else
      let (v', isOver) := readEntry count fPos n.data v
      if isOver then some (m, .leaving (some n) v' seen start false)
      else some (m, .stepping (some n) v' seen start)
  | .read _ fPos, .leaving _ v _ _ failed =>
    some (unlockRead variant c m, if failed then .done (.failed .fault fPos) else .countingRead v)
  | .read _ _, .countingRead v => some ({ m with readCount := m.readCount + 1 }, .done (.read v))
  | .write _ fPos, .ready => some (m, .loop 0 fPos)
  | .write userBuf _, .loop i fPos =>
    if h : i < userBuf.length then
      let own : Node := ⟨m.nextId, newData userBuf i h⟩
      let m' := { m with nextId := m.nextId + 1 }
      match input.outcome with
      | .noMem => some (m, .done (.failed .noMem fPos))
      | .fault => some (m', .freeing own (.failed .fault fPos))
      | _ =>
        if strncmp own.data.contents clearCommand 4 = 0 then some (m', .clearing fPos own)
        else some (m', .locking i fPos own)
    else some (m, .countingWrite fPos)
  | .write _ _, .locking i fPos own =>
    if input.Signals variant then some (m, .freeing own (.failed .intr fPos))
    else (lockWrite variant c m).map fun m => (m, .inserting i fPos own)
  | .write _ _, .inserting i fPos own =>
    some ({ m with list := m.list ++ [own] }, .unlocking i fPos own)
  | .write _ _, .unlocking i fPos n =>
    some ({ m with writer := none },
      if variant = .rcu then .syncing i fPos n m.readers else .adding i fPos n)
  | .write _ _, .syncing i fPos n readers =>
    if ∀ d ∈ readers, d ∉ m.readers then some (m, .adding i fPos n) else none
  | .write _ _, .adding i fPos n =>
    some ({ m with totalLength := m.totalLength + n.data.length },
      .loop (i + internalSize) (fPos + n.data.length))
  | .write _ _, .clearing fPos own =>
    match m.list with
    | [] => some (m, .resetting fPos own)
    | n :: l => some (m, .cleaning fPos own n l.head?)
  | .write _ _, .cleaning fPos own cur tmp =>
    some ({ m with list := m.list.erase cur, freed := m.freed ++ [cur] }, .advancing fPos own tmp)
  | .write _ _, .advancing fPos own none => some (m, .resetting fPos own)
  | .write _ _, .advancing fPos own (some n) =>
    (nextOf m.list (some n)).map fun tmp => (m, .cleaning fPos own n tmp)
  | .write _ _, .resetting fPos own =>
    some ({ m with totalLength := 0 }, .freeing own (.cleared fPos))
  | .write _ _, .freeing own r => some ({ m with freed := m.freed ++ [own] }, .done r)
  | .write _ _, .countingWrite fPos =>
    some ({ m with writeCount := m.writeCount + 1 }, .done (.wrote fPos))
  | _, _ => none

variable (variant : Variant) (req : C → Request)

/-- One step of the system. -/
def exec (s : State C) (e : Event C) : Option (State C) :=
  (callStep variant e.input e.call s.memory (req e.call) (s.ctrl e.call)).map fun r =>
    ⟨r.1, Function.update s.ctrl e.call r.2⟩

/-- `exec` as a relation. -/
def Step (s : State C) (e : Event C) (s' : State C) : Prop := exec variant req s e = some s'

end System

/-! ### The steps, one by one -/

section Moves

variable {C : Type} [DecidableEq C]

/-- The steps of `callStep`, one constructor for each kind. -/
inductive Moves (variant : Variant) (input : Input) (c : C) (m : Memory C) :
    Request → Ctrl C → Memory C → Ctrl C → Prop
  | beginRead {n f} : Moves variant input c m (.read n f) .ready m .checking
  | early {n f} : m.totalLength < f →
      Moves variant input c m (.read n f) .checking m (.done .early)
  | enter {n f} : f ≤ m.totalLength → Moves variant input c m (.read n f) .checking m .entering
  | signalRead {n f} : input.Signals variant →
      Moves variant input c m (.read n f) .entering m (.done (.failed .intr f))
  | startTraversal {n f m'} : ¬ input.Signals variant → lockRead variant c m = some m' →
      Moves variant input c m (.read n f) .entering m' (.stepping none {} [] m'.list)
  | endOfList {n f cursor v seen start} : nextOf m.list cursor = some none →
      Moves variant input c m (.read n f) (.stepping cursor v seen start) m
        (.leaving none v seen start false)
  | next {n f cursor v seen start d} : nextOf m.list cursor = some (some d) →
      Moves variant input c m (.read n f) (.stepping cursor v seen start) m
        (.visiting d v (seen ++ [d]) start)
  | copyFails {n f d v seen start} : ¬ v.Skips f → input.faults v = true →
      Moves variant input c m (.read n f) (.visiting d v seen start) m
        (.leaving (some d) v seen start true)
  | readLast {n f d v v' seen start} : readEntry n f d.data v = (v', true) →
      Moves variant input c m (.read n f) (.visiting d v seen start) m
        (.leaving (some d) v' seen start false)
  | readOn {n f d v v' seen start} : readEntry n f d.data v = (v', false) →
      Moves variant input c m (.read n f) (.visiting d v seen start) m
        (.stepping (some d) v' seen start)
  | failTraversal {n f cursor v seen start} :
      Moves variant input c m (.read n f) (.leaving cursor v seen start true)
        (unlockRead variant c m) (.done (.failed .fault f))
  | endTraversal {n f cursor v seen start} :
      Moves variant input c m (.read n f) (.leaving cursor v seen start false)
        (unlockRead variant c m) (.countingRead v)
  | countRead {n f v} : Moves variant input c m (.read n f) (.countingRead v)
      { m with readCount := m.readCount + 1 } (.done (.read v))
  | beginWrite {u f} : Moves variant input c m (.write u f) .ready m (.loop 0 f)
  | allocFails {u f₀ i f} : i < u.length → input.outcome = .noMem →
      Moves variant input c m (.write u f₀) (.loop i f) m (.done (.failed .noMem f))
  | copyFromFails {u f₀ i f} (h : i < u.length) : input.outcome = .fault →
      Moves variant input c m (.write u f₀) (.loop i f) { m with nextId := m.nextId + 1 }
        (.freeing ⟨m.nextId, newData u i h⟩ (.failed .fault f))
  | findClear {u f₀ i f} (h : i < u.length) : strncmp (newData u i h).contents clearCommand 4 = 0 →
      Moves variant input c m (.write u f₀) (.loop i f) { m with nextId := m.nextId + 1 }
        (.clearing f ⟨m.nextId, newData u i h⟩)
  | prepare {u f₀ i f} (h : i < u.length) : strncmp (newData u i h).contents clearCommand 4 ≠ 0 →
      Moves variant input c m (.write u f₀) (.loop i f) { m with nextId := m.nextId + 1 }
        (.locking i f ⟨m.nextId, newData u i h⟩)
  | endLoop {u f₀ i f} : u.length ≤ i →
      Moves variant input c m (.write u f₀) (.loop i f) m (.countingWrite f)
  | signalWrite {u f₀ i f own} : input.Signals variant →
      Moves variant input c m (.write u f₀) (.locking i f own) m (.freeing own (.failed .intr f))
  | lock {u f₀ i f own m'} : ¬ input.Signals variant → lockWrite variant c m = some m' →
      Moves variant input c m (.write u f₀) (.locking i f own) m' (.inserting i f own)
  | insert {u f₀ i f own} : Moves variant input c m (.write u f₀) (.inserting i f own)
      { m with list := m.list ++ [own] } (.unlocking i f own)
  | unlockRcu {u f₀ i f n} : variant = .rcu →
      Moves variant input c m (.write u f₀) (.unlocking i f n) { m with writer := none }
        (.syncing i f n m.readers)
  | unlock {u f₀ i f n} : variant ≠ .rcu →
      Moves variant input c m (.write u f₀) (.unlocking i f n) { m with writer := none }
        (.adding i f n)
  | synchronize {u f₀ i f n rs} : (∀ d ∈ rs, d ∉ m.readers) →
      Moves variant input c m (.write u f₀) (.syncing i f n rs) m (.adding i f n)
  | add {u f₀ i f n} : Moves variant input c m (.write u f₀) (.adding i f n)
      { m with totalLength := m.totalLength + n.data.length }
      (.loop (i + internalSize) (f + n.data.length))
  | cleanNothing {u f₀ f own} : m.list = [] →
      Moves variant input c m (.write u f₀) (.clearing f own) m (.resetting f own)
  | clean {u f₀ f own n l} : m.list = n :: l →
      Moves variant input c m (.write u f₀) (.clearing f own) m (.cleaning f own n l.head?)
  | unlink {u f₀ f own cur tmp} : Moves variant input c m (.write u f₀) (.cleaning f own cur tmp)
      { m with list := m.list.erase cur, freed := m.freed ++ [cur] } (.advancing f own tmp)
  | endClean {u f₀ f own} :
      Moves variant input c m (.write u f₀) (.advancing f own none) m (.resetting f own)
  | advance {u f₀ f own n tmp} : nextOf m.list (some n) = some tmp →
      Moves variant input c m (.write u f₀) (.advancing f own (some n)) m (.cleaning f own n tmp)
  | reset {u f₀ f own} : Moves variant input c m (.write u f₀) (.resetting f own)
      { m with totalLength := 0 } (.freeing own (.cleared f))
  | free {u f₀ own r} : Moves variant input c m (.write u f₀) (.freeing own r)
      { m with freed := m.freed ++ [own] } (.done r)
  | countWrite {u f₀ f} : Moves variant input c m (.write u f₀) (.countingWrite f)
      { m with writeCount := m.writeCount + 1 } (.done (.wrote f))

variable {variant : Variant} {input : Input} {c : C} {m m' : Memory C} {k k' : Ctrl C}

theorem moves_of_callStep_read {count fPos : ℕ}
    (h : callStep variant input c m (.read count fPos) k = some (m', k')) :
    Moves variant input c m (.read count fPos) k m' k' := by
  cases k with
  | ready => cases h; exact .beginRead
  | checking =>
      rw [callStep] at h
      split at h <;> cases h
      · exact .early ‹_›
      · exact .enter (Nat.le_of_not_lt ‹_›)
  | entering =>
      rw [callStep] at h
      split at h
      · cases h
        exact .signalRead ‹_›
      · obtain ⟨m₁, hlock, heq⟩ := Option.map_eq_some_iff.1 h
        cases heq
        exact .startTraversal ‹_› hlock
  | stepping cursor v seen start =>
      rw [callStep] at h
      obtain ⟨next, hnext, heq⟩ := Option.map_eq_some_iff.1 h
      cases next with
      | none =>
          cases heq
          exact .endOfList hnext
      | some d =>
          cases heq
          exact .next hnext
  | visiting d v seen start =>
      rw [callStep] at h
      split at h
      · rename_i hfault
        cases h
        exact .copyFails hfault.1 hfault.2
      · rcases hread : readEntry count fPos d.data v with ⟨v', isOver⟩
        rw [hread] at h
        cases isOver with
        | true =>
            cases h
            exact .readLast hread
        | false =>
            cases h
            exact .readOn hread
  | leaving cursor v seen start failed =>
      cases h
      cases failed with
      | true => exact .failTraversal
      | false => exact .endTraversal
  | countingRead v => cases h; exact .countRead
  | _ => cases h

theorem moves_of_callStep_write {userBuf : List UInt8} {fPos : ℕ}
    (h : callStep variant input c m (.write userBuf fPos) k = some (m', k')) :
    Moves variant input c m (.write userBuf fPos) k m' k' := by
  cases k with
  | ready => cases h; exact .beginWrite
  | loop i f =>
      by_cases hi : i < userBuf.length
      · rw [callStep, dif_pos hi] at h
        by_cases hc : strncmp (newData userBuf i hi).contents clearCommand 4 = 0
        · cases ho : input.outcome <;> simp only [ho, if_pos hc] at h <;> cases h
          · exact .findClear hi hc
          · exact .allocFails hi ho
          · exact .copyFromFails hi ho
          · exact .findClear hi hc
        · cases ho : input.outcome <;> simp only [ho, if_neg hc] at h <;> cases h
          · exact .prepare hi hc
          · exact .allocFails hi ho
          · exact .copyFromFails hi ho
          · exact .prepare hi hc
      · rw [callStep, dif_neg hi] at h
        cases h
        exact .endLoop (Nat.le_of_not_lt hi)
  | locking i f own =>
      rw [callStep] at h
      split at h
      · cases h
        exact .signalWrite ‹_›
      · obtain ⟨m₁, hlock, heq⟩ := Option.map_eq_some_iff.1 h
        cases heq
        exact .lock ‹_› hlock
  | inserting i f own => cases h; exact .insert
  | unlocking i f n =>
      rw [callStep] at h
      split at h <;> cases h
      · exact .unlockRcu ‹_›
      · exact .unlock ‹_›
  | syncing i f n rs =>
      rw [callStep] at h
      split at h <;> cases h
      exact .synchronize ‹_›
  | adding i f n => cases h; exact .add
  | clearing f own =>
      rw [callStep] at h
      split at h <;> cases h
      · exact .cleanNothing ‹_›
      · exact .clean ‹_›
  | cleaning f own cur tmp => cases h; exact .unlink
  | advancing f own tmp =>
      cases tmp with
      | none => cases h; exact .endClean
      | some n =>
          rw [callStep] at h
          obtain ⟨tmp, hnext, heq⟩ := Option.map_eq_some_iff.1 h
          cases heq
          exact .advance hnext
  | resetting f own => cases h; exact .reset
  | freeing own r => cases h; exact .free
  | countingWrite f => cases h; exact .countWrite
  | _ => cases h

theorem Step.moves {req : C → Request} {s s' : State C} {e : Event C}
    (h : Step variant req s e s') :
    ∃ m k, Moves variant e.input e.call s.memory (req e.call) (s.ctrl e.call) m k ∧
      s' = ⟨m, Function.update s.ctrl e.call k⟩ := by
  rw [Step, exec, Option.map_eq_some_iff] at h
  obtain ⟨⟨m, k⟩, h, rfl⟩ := h
  refine ⟨m, k, ?_, rfl⟩
  cases hreq : req e.call with
  | read count fPos =>
      rw [hreq] at h
      exact moves_of_callStep_read h
  | write userBuf fPos =>
      rw [hreq] at h
      exact moves_of_callStep_write h

omit [DecidableEq C] in
/-- The locks leave the list and the allocations alone. -/
theorem lockRead_memory (h : lockRead variant c m = some m') :
    m'.list = m.list ∧ m'.nextId = m.nextId ∧ m'.freed = m.freed := by
  cases variant with
  | mutex | semaphore | spinlock =>
      rw [lockRead] at h
      split at h <;> cases h
      exact ⟨rfl, rfl, rfl⟩
  | rcu =>
      cases h
      exact ⟨rfl, rfl, rfl⟩

omit [DecidableEq C] in
theorem lockWrite_memory (h : lockWrite variant c m = some m') :
    m'.list = m.list ∧ m'.nextId = m.nextId ∧ m'.freed = m.freed := by
  rw [lockWrite] at h
  split at h <;> cases h
  exact ⟨rfl, rfl, rfl⟩

theorem unlockRead_memory (variant : Variant) (c : C) (m : Memory C) :
    (unlockRead variant c m).list = m.list ∧ (unlockRead variant c m).nextId = m.nextId ∧
      (unlockRead variant c m).freed = m.freed := by
  cases variant <;> exact ⟨rfl, rfl, rfl⟩

end Moves

end LinkedBuffer.Traversal
