import SystemsProgramming.Classes5.LinkedBuffer.Atomicity

/-!
# Every call returns

Where `clean_list` is not disturbed, no variant deadlocks: a call that waits for the lock, or in
`synchronize_rcu`, waits for a call that can go on (`exists_step`).  And no run goes on for ever: a
traversal may be overtaken by insertions, but the calls together have only so many entries to insert
(`measure_lt`).  So every call returns (`every_call_returns`).
-/

namespace LinkedBuffer.Traversal

open Transition

section Definitions

variable {C : Type}

/-! ### The lock -/

/-- The call holds the lock for its insertion. -/
def Ctrl.inserts : Ctrl C → Bool
  | .inserting .. | .unlocking .. => true
  | _ => false

/-- What the lock says about the call. -/
structure Holds (variant : Variant) (m : Memory C) (c : C) (k : Ctrl C) : Prop where
  writer : m.writer = some c → k.inserts = true ∨ variant = .mutex ∧ k.traverses = true
  reader : c ∈ m.readers → variant ≠ .mutex ∧ k.traverses = true

/-- The call cannot go on. -/
inductive Waits (variant : Variant) (c : C) (m : Memory C) : Ctrl C → Prop
  | lockRead : lockRead variant c m = none → Waits variant c m .entering
  | lockWrite {i f own} : lockWrite variant c m = none → Waits variant c m (.locking i f own)
  | synchronize {i f n rs d} : d ∈ rs → d ∈ m.readers → Waits variant c m (.syncing i f n rs)

/-- The places of `linked_read`. -/
def Ctrl.reads : Ctrl C → Bool
  | .checking | .entering | .stepping .. | .visiting .. | .leaving .. | .countingRead _ => true
  | _ => false

/-- The places of `linked_write`. -/
def Ctrl.writes : Ctrl C → Bool
  | .loop .. | .locking .. | .inserting .. | .unlocking .. | .syncing .. | .adding .. => true
  | .clearing .. | .cleaning .. | .advancing .. | .resetting .. => true
  | .freeing .. | .countingWrite _ => true
  | _ => false

/-- The call is at a place of its own procedure. -/
def Fits (k : Ctrl C) : Request → Prop
  | .read _ _ => k.writes = false
  | .write _ _ => k.reads = false

end Definitions

section Steps

variable {C : Type} [DecidableEq C] {variant : Variant} {input : Input} {c d : C}
  {m m' : Memory C} {k k' : Ctrl C} {req : Request}

omit [DecidableEq C] in
theorem lockRead_cases (h : lockRead variant c m = some m') :
    (variant = .mutex ∧ m.writer = none ∧ m' = { m with writer := some c }) ∨
      (variant ≠ .mutex ∧ m' = { m with readers := c :: m.readers }) := by
  cases variant with
  | mutex =>
      rw [lockRead] at h
      split at h <;> cases h
      exact Or.inl ⟨rfl, ‹_›, rfl⟩
  | semaphore | spinlock =>
      rw [lockRead] at h
      split at h <;> cases h
      exact Or.inr ⟨by decide, rfl⟩
  | rcu =>
      cases h
      exact Or.inr ⟨by decide, rfl⟩

theorem Moves.fits (h : Moves variant input c m req k m' k') : Fits k' req := by
  cases h <;> rfl

omit [DecidableEq C] in
/-- Nobody holds a lock that is free. -/
theorem absurd_of_none {c : C} {p : Prop} (h : (none : Option C) = some c) : p :=
  absurd h (Option.some_ne_none c).symm

/-- What the lock says about the call that moves. -/
theorem Moves.holds (h : Moves variant input c m req k m' k') (hk : Holds variant m c k)
    (hnd : m.readers.Nodup) : Holds variant m' c k' ∧ m'.readers.Nodup := by
  cases h with
  | startTraversal _ hlock =>
      have hreader : c ∉ m.readers := fun hc => Bool.false_ne_true (hk.reader hc).2
      rcases lockRead_cases hlock with ⟨hv, -, rfl⟩ | ⟨hv, rfl⟩
      · exact ⟨⟨fun _ => Or.inr ⟨hv, rfl⟩, fun hc => absurd hc hreader⟩, hnd⟩
      · refine ⟨⟨fun hw => ?_, fun _ => ⟨hv, rfl⟩⟩, List.nodup_cons.2 ⟨hreader, hnd⟩⟩
        exact Or.inr ⟨absurd (hk.writer hw) (by simp [Ctrl.inserts, Ctrl.traverses]), rfl⟩
  | failTraversal | endTraversal =>
      by_cases hv : variant = .mutex
      · subst hv
        exact ⟨⟨absurd_of_none, fun hc => absurd rfl (hk.reader hc).1⟩, hnd⟩
      · have hunlock : unlockRead variant c m = { m with readers := m.readers.erase c } := by
          cases variant <;> first | rfl | exact absurd rfl hv
        rw [hunlock]
        refine ⟨⟨fun hw => ?_, fun hc => ?_⟩, hnd.erase c⟩
        · rcases hk.writer hw with hins | hmutex
          · cases hins
          · exact absurd hmutex.1 hv
        · exact absurd hc (hnd.not_mem_erase)
  | lock _ hlock =>
      rw [lockWrite] at hlock
      split at hlock <;> cases hlock
      exact ⟨⟨fun _ => Or.inl rfl, fun hc => absurd (hk.reader hc).2 Bool.false_ne_true⟩, hnd⟩
  | unlockRcu | unlock => exact ⟨⟨absurd_of_none, hk.reader⟩, hnd⟩
  | _ => exact ⟨⟨hk.writer, hk.reader⟩, hnd⟩

/-- And about the others. -/
theorem Moves.holds_of_ne (h : Moves variant input c m req k m' k') (hd : d ≠ c) {kd : Ctrl C}
    (hk : Holds variant m d kd) : Holds variant m' d kd := by
  cases h with
  | startTraversal _ hlock =>
      rcases lockRead_cases hlock with ⟨-, -, rfl⟩ | ⟨-, rfl⟩
      · exact ⟨fun hw => absurd (Option.some.inj hw).symm hd, hk.reader⟩
      · exact ⟨hk.writer, fun hr => hk.reader ((List.mem_cons.1 hr).resolve_left hd)⟩
  | failTraversal | endTraversal =>
      cases variant with
      | mutex => exact ⟨absurd_of_none, hk.reader⟩
      | semaphore | spinlock | rcu =>
          exact ⟨hk.writer, fun hr => hk.reader (List.mem_of_mem_erase hr)⟩
  | lock _ hlock =>
      rw [lockWrite] at hlock
      split at hlock <;> cases hlock
      exact ⟨fun hw => absurd (Option.some.inj hw).symm hd, hk.reader⟩
  | unlockRcu | unlock => exact ⟨absurd_of_none, hk.reader⟩
  | _ => exact ⟨hk.writer, hk.reader⟩

/-! ### A call that need not wait goes on -/

theorem exists_nextOf {l : List Node} {cursor : Option Node} (h : ∀ n, cursor = some n → n ∈ l) :
    ∃ next, nextOf l cursor = some next := by
  cases cursor with
  | none => exact ⟨_, rfl⟩
  | some n => exact ⟨_, if_pos (h n rfl)⟩

theorem exists_callStep_read {n f : ℕ} (hfits : Fits k (.read n f)) (hplaced : Placed m k)
    (hwaits : ¬ Waits variant c m k) (hdone : ∀ r, k ≠ .done r) :
    ∃ p, callStep variant {} c m (.read n f) k = some p := by
  cases k with
  | ready | leaving | countingRead => exact ⟨_, rfl⟩
  | checking =>
      rw [callStep]
      split <;> exact ⟨_, rfl⟩
  | entering =>
      obtain ⟨m', hlock⟩ := Option.ne_none_iff_exists'.1 fun h => hwaits (.lockRead h)
      rw [callStep, if_neg (Input.not_signals rfl), hlock]
      exact ⟨_, rfl⟩
  | stepping cursor =>
      have hcursor : ∀ n, cursor = some n → n ∈ m.list := hplaced.cursor
      obtain ⟨next, hnext⟩ := exists_nextOf hcursor
      rw [callStep, hnext]
      exact ⟨_, rfl⟩
  | visiting d v =>
      rw [callStep, if_neg fun h => Bool.false_ne_true h.2]
      cases hover : (readEntry n f d.data v).2 <;> simp [hover]
  | done r => exact absurd rfl (hdone r)
  | _ => cases hfits

theorem exists_callStep_write {u : List UInt8} {f : ℕ} (hfits : Fits k (.write u f))
    (hplaced : Placed m k) (hwaits : ¬ Waits variant c m k) (hdone : ∀ r, k ≠ .done r) :
    ∃ p, callStep variant {} c m (.write u f) k = some p := by
  cases k with
  | ready | inserting | unlocking | adding | cleaning | resetting | freeing | countingWrite =>
      exact ⟨_, rfl⟩
  | loop i =>
      by_cases hi : i < u.length
      · by_cases hcmp : strncmp (newData u i hi).contents clearCommand 4 = 0
        · exact ⟨_, by rw [callStep, dif_pos hi]; exact if_pos hcmp⟩
        · exact ⟨_, by rw [callStep, dif_pos hi]; exact if_neg hcmp⟩
      · exact ⟨_, by rw [callStep, dif_neg hi]⟩
  | locking =>
      obtain ⟨m', hlock⟩ := Option.ne_none_iff_exists'.1 fun h => hwaits (.lockWrite h)
      rw [callStep, if_neg (Input.not_signals rfl), hlock]
      exact ⟨_, rfl⟩
  | syncing i f n rs =>
      have hrs : ∀ d ∈ rs, d ∉ m.readers := fun d hd hr => hwaits (.synchronize hd hr)
      exact ⟨_, by rw [callStep, if_pos hrs]⟩
  | clearing =>
      rw [callStep]
      split <;> exact ⟨_, rfl⟩
  | advancing f own tmp =>
      cases tmp with
      | none => exact ⟨_, rfl⟩
      | some n =>
          have hn : n ∈ m.list := hplaced.targets n (List.mem_cons_self ..)
          exact ⟨_, by rw [callStep, nextOf, if_pos hn]; rfl⟩
  | done r => exact absurd rfl (hdone r)
  | _ => cases hfits

/-- A call at a place of its own, whose pointers are good, goes on unless it waits. -/
theorem exists_callStep (hfits : Fits k req) (hplaced : Placed m k) (hwaits : ¬ Waits variant c m k)
    (hdone : ∀ r, k ≠ .done r) : ∃ p, callStep variant {} c m req k = some p := by
  cases req with
  | read => exact exists_callStep_read hfits hplaced hwaits hdone
  | write => exact exists_callStep_write hfits hplaced hwaits hdone

omit [DecidableEq C] in
/-- A call that waits is outside the list. -/
theorem Waits.idle (h : Waits variant c m k) :
    k.targets = [] ∧ k.traverses = false ∧ k.inserts = false := by
  cases h <;> exact ⟨rfl, rfl, rfl⟩

omit [DecidableEq C] in
/-- Where nobody holds the lock nobody waits for it. -/
theorem not_waits_of_free (hw : m.writer = none) (hr : m.readers = []) : ¬ Waits variant c m k := by
  rintro (h | h | ⟨-, hd⟩)
  · cases variant <;> simp [lockRead, hw] at h
  · simp [lockWrite, hw, hr] at h
  · rw [hr] at hd
    cases hd

/-! ### The measure -/

/-- The passes of the loop of `linked_write` from offset `i` on. -/
def passes (u : List UInt8) (i : ℕ) : ℕ := (u.length - i + 3) / internalSize

theorem passes_of_lt {u : List UInt8} {i : ℕ} (h : i < u.length) :
    passes u i = passes u (i + internalSize) + 1 := by
  simp only [passes, internalSize]
  omega

/-- The entries that a call may still insert. -/
def Ctrl.pending (u : List UInt8) : Ctrl C → ℕ
  | .ready => passes u 0
  | .loop i _ => passes u i
  | .locking i _ _ | .inserting i _ _ => passes u (i + internalSize) + 1
  | .unlocking i _ _ | .syncing i _ _ _ | .adding i _ _ => passes u (i + internalSize)
  | _ => 0

/-- The steps that a call has left, at most, where the list never gets longer than `p`. -/
def Ctrl.rank (u : List UInt8) (p : ℕ) : Ctrl C → ℕ
  | .done _ => 0
  | .countingRead _ | .countingWrite _ | .freeing _ _ => 1
  | .leaving .. | .resetting _ _ => 2
  | .stepping _ _ seen _ => 2 * (p - seen.length) + 3
  | .visiting _ _ seen _ => 2 * (p - seen.length) + 4
  | .cleaning .. => 2 * p + 3
  | .advancing .. => 2 * p + 4
  | .entering | .clearing _ _ => 2 * p + 5
  | .checking => 2 * p + 6
  | .loop i _ => 2 * p + 6 + 6 * passes u i
  | .locking i _ _ => 2 * p + 6 + 6 * passes u (i + internalSize) + 5
  | .inserting i _ _ => 2 * p + 6 + 6 * passes u (i + internalSize) + 4
  | .unlocking i _ _ => 2 * p + 6 + 6 * passes u (i + internalSize) + 3
  | .syncing i _ _ _ => 2 * p + 6 + 6 * passes u (i + internalSize) + 2
  | .adding i _ _ => 2 * p + 6 + 6 * passes u (i + internalSize) + 1
  | .ready => 2 * p + 7 + 6 * passes u 0

omit [DecidableEq C] in
theorem rank_mono (u : List UInt8) (k : Ctrl C) {p p' : ℕ} (h : p' ≤ p) :
    k.rank u p' ≤ k.rank u p := by
  cases k <;> simp only [Ctrl.rank] <;> omega

/-- The step of a call inserts no more than the call was going to, and brings it nearer to its end. -/
theorem Moves.rank_lt (h : Moves variant input c m req k m' k') (hplaced : Placed m k)
    (hseen : Seen m'.list req k') (others : ℕ) :
    m'.list.length + k'.pending req.userBuf ≤ m.list.length + k.pending req.userBuf ∧
      k'.rank req.userBuf (m'.list.length + k'.pending req.userBuf + others) <
        k.rank req.userBuf (m.list.length + k.pending req.userBuf + others) := by
  cases h with
  | startTraversal _ hlock =>
      rw [(lockRead_memory hlock).1]
      simp only [Ctrl.pending, Ctrl.rank, List.length_nil]
      omega
  | next =>
      have hlength := hseen.1.length_le
      simp only [List.length_append, List.length_singleton] at hlength
      simp only [Ctrl.pending, Ctrl.rank, List.length_append, List.length_singleton]
      omega
  | failTraversal | endTraversal =>
      rw [(unlockRead_memory variant c m).1]
      simp only [Ctrl.pending, Ctrl.rank]
      omega
  | beginRead | beginWrite =>
      simp only [Ctrl.pending, Ctrl.rank]
      omega
  | copyFromFails hi | findClear hi | prepare hi =>
      simp only [Ctrl.pending, Ctrl.rank, Request.userBuf, passes_of_lt hi]
      omega
  | lock _ hlock =>
      rw [(lockWrite_memory hlock).1]
      simp only [Ctrl.pending, Ctrl.rank]
      omega
  | insert =>
      simp only [Ctrl.pending, Ctrl.rank, List.length_append, List.length_singleton]
      omega
  | @unlink u f₀ f own cur tmp =>
      have hcur : cur ∈ m.list := hplaced.targets cur (List.mem_cons_self ..)
      have hpos := List.length_pos_of_mem hcur
      simp only [Ctrl.pending, Ctrl.rank, List.length_erase_of_mem hcur]
      omega
  | _ =>
      simp only [Ctrl.pending, Ctrl.rank]
      omega

end Steps

/-! ### Runs -/

section Runs

variable {C : Type} [DecidableEq C] {variant : Variant} {req : C → Request} {s s' : State C}
  {e : Event C} {tr : List (State C × Event C)}

/-- What holds in the states of undisturbed runs. -/
structure Sane (variant : Variant) (req : C → Request) (s : State C) : Prop where
  inv : Inv s
  seen : ∀ c, Seen s.memory.list (req c) (s.ctrl c)
  fits : ∀ c, Fits (s.ctrl c) (req c)
  holds : ∀ c, Holds variant s.memory c (s.ctrl c)
  nodup : s.memory.readers.Nodup

omit [DecidableEq C] in
theorem sane_init : Sane variant req ({} : State C) := by
  refine ⟨inv_init, fun c => seen_of_not_traverses rfl, fun c => ?_, fun c => ⟨nofun, nofun⟩,
    List.nodup_nil⟩
  cases req c <;> rfl

theorem Sane.step (hS : Sane variant req s) (hu : Undisturbed variant s e)
    (h : Step variant req s e s') : Sane variant req s' := by
  have hinv : Inv s' := hS.inv.step hu h
  have hseen := seen_step hS.inv hS.seen h
  obtain ⟨m, k, hm, rfl⟩ := h.moves
  obtain ⟨hholds, hnodup⟩ := hm.holds (hS.holds e.call) hS.nodup
  refine ⟨hinv, hseen, ?_, ?_, hnodup⟩
  · exact (Function.forall_update_iff s.ctrl fun c k => Fits k (req c)).2
      ⟨hm.fits, fun c _ => hS.fits c⟩
  · exact (Function.forall_update_iff s.ctrl fun c k => Holds variant m c k).2
      ⟨hholds, fun c hc => hm.holds_of_ne hc (hS.holds c)⟩

/-- A call that need not wait takes a step. -/
theorem Sane.exists_step_of (hS : Sane variant req s) {c : C}
    (hwaits : ¬ Waits variant c s.memory (s.ctrl c)) (hdone : ∀ r, s.ctrl c ≠ .done r) :
    ∃ s', Step variant req s ⟨c, {}⟩ s' := by
  obtain ⟨p, hp⟩ := exists_callStep (hS.fits c) (hS.inv.placed c) hwaits hdone
  exact ⟨_, by rw [Step, exec, hp]; rfl⟩

/-- No deadlock: where a call has not returned, some call takes a step, in which nothing fails and no
signal arrives. -/
theorem Sane.exists_step (hS : Sane variant req s) {c : C} (hc : ∀ r, s.ctrl c ≠ .done r) :
    ∃ d s', Undisturbed variant s ⟨d, {}⟩ ∧ Step variant req s ⟨d, {}⟩ s' := by
  -- a call in the loop of `clean_list` goes on
  by_cases hclean : ∀ d, (s.ctrl d).targets = []
  swap
  · obtain ⟨d, hd⟩ := not_forall.1 hclean
    obtain ⟨s', hs'⟩ := hS.exists_step_of (c := d) (fun hw => hd hw.idle.1)
      (fun r hr => hd (by rw [hr]; rfl))
    refine ⟨_, s', ?_, hs'⟩
    rw [Undisturbed]
    split <;> first | trivial | exact absurd (by simp only [*]; rfl) hd
  -- a call that holds the lock goes on
  by_cases hlock : ∀ d, (s.ctrl d).traverses = false ∧ (s.ctrl d).inserts = false
  swap
  · obtain ⟨d, hd⟩ := not_forall.1 hlock
    obtain ⟨s', hs'⟩ := hS.exists_step_of (c := d) (fun hw => hd hw.idle.2)
      (fun r hr => hd (by rw [hr]; exact ⟨rfl, rfl⟩))
    refine ⟨_, s', ?_, hs'⟩
    rw [Undisturbed]
    split <;> first | trivial | exact absurd (by simp only [*]; exact ⟨rfl, rfl⟩) hd
  -- otherwise the lock is free
  have hwriter : s.memory.writer = none := by
    by_contra hne
    obtain ⟨d, hd⟩ := Option.ne_none_iff_exists'.1 hne
    rcases (hS.holds d).writer hd with hins | ⟨-, htrav⟩
    · rw [(hlock d).2] at hins
      cases hins
    · rw [(hlock d).1] at htrav
      cases htrav
  have hreaders : s.memory.readers = [] := by
    refine List.eq_nil_iff_forall_not_mem.2 fun d hd => ?_
    have htrav := ((hS.holds d).reader hd).2
    rw [(hlock d).1] at htrav
    cases htrav
  obtain ⟨s', hs'⟩ := hS.exists_step_of (not_waits_of_free hwriter hreaders) hc
  exact ⟨_, s', undisturbed_of_outside fun d _ => ⟨(hlock d).1, hclean d⟩, hs'⟩

/-! ### Termination -/

variable [Fintype C]

/-- The entries in the list, and those the calls may still insert. -/
def potential (req : C → Request) (s : State C) : ℕ :=
  s.memory.list.length + ∑ c, (s.ctrl c).pending (req c).userBuf

/-- The steps that the calls have left, at most. -/
def measure (req : C → Request) (s : State C) : ℕ :=
  ∑ c, (s.ctrl c).rank (req c).userBuf (potential req s)

/-- The share of one call in the potential. -/
theorem potential_eq (req : C → Request) (m : Memory C) (ctrl : C → Ctrl C) (c : C) :
    potential req ⟨m, ctrl⟩ = m.list.length + (ctrl c).pending (req c).userBuf +
      ∑ d ∈ Finset.univ.erase c, (ctrl d).pending (req d).userBuf := by
  rw [potential, ← Finset.add_sum_erase _ _ (Finset.mem_univ c), Nat.add_assoc]

theorem measure_lt (hS : Sane variant req s) (h : Step variant req s e s') :
    measure req s' < measure req s := by
  have hseen := seen_step hS.inv hS.seen h e.call
  obtain ⟨m, k, hm, rfl⟩ := h.moves
  dsimp only at hseen
  rw [Function.update_self] at hseen
  have hothers : ∑ d ∈ Finset.univ.erase e.call,
      (Function.update s.ctrl e.call k d).pending (req d).userBuf =
        ∑ d ∈ Finset.univ.erase e.call, (s.ctrl d).pending (req d).userBuf :=
    Finset.sum_congr rfl fun d hd => by rw [Function.update_of_ne (Finset.ne_of_mem_erase hd)]
  have hbefore := potential_eq req s.memory s.ctrl e.call
  have hafter := potential_eq req m (Function.update s.ctrl e.call k) e.call
  rw [hothers, Function.update_self] at hafter
  obtain ⟨hpending, hrank⟩ := hm.rank_lt (hS.inv.placed e.call) hseen
    (∑ d ∈ Finset.univ.erase e.call, (s.ctrl d).pending (req d).userBuf)
  rw [← hbefore, ← hafter] at hrank
  have hle : potential req ⟨m, Function.update s.ctrl e.call k⟩ ≤ potential req s := by
    rw [hafter, show potential req s = _ from hbefore]
    omega
  refine Finset.sum_lt_sum (fun d _ => ?_) ⟨e.call, Finset.mem_univ _, ?_⟩
  · dsimp only
    by_cases hd : d = e.call
    · rw [hd, Function.update_self]
      exact hrank.le
    · rw [Function.update_of_ne hd]
      exact rank_mono _ _ hle
  · dsimp only
    rw [Function.update_self]
    exact hrank

/-- Where `clean_list` is not disturbed no state is stuck before all calls have returned, not even where
no signal ends a wait, and no run goes on for ever. -/
theorem every_call_returns (variant : Variant) (req : C → Request) :
    (∀ tr s, Run (Step variant req) {} tr s → (∀ p ∈ tr, Undisturbed variant p.1 p.2) →
      (∃ c s', Undisturbed variant s ⟨c, {}⟩ ∧ Step variant req s ⟨c, {}⟩ s') ∨
        ∀ c, ∃ r, s.ctrl c = .done r) ∧
    ∀ f : ℕ → State C, f 0 = {} →
      ¬ ∀ n, ∃ e, Undisturbed variant (f n) e ∧ Step variant req (f n) e (f (n + 1)) := by
  refine ⟨fun tr s h hu => ?_, fun f h₀ hf => ?_⟩
  · have hS : Sane variant req s :=
      h.invariant_of (fun _ _ _ hu hS hs => hS.step hu hs) hu sane_init
    by_contra hstuck
    obtain ⟨hstep, hdone⟩ := not_or.1 hstuck
    obtain ⟨c, hc⟩ := not_forall.1 hdone
    exact hstep (hS.exists_step fun r hr => hc ⟨r, hr⟩)
  · have hS : ∀ n, Sane variant req (f n) := by
      intro n
      induction n with
      | zero => exact h₀ ▸ sane_init
      | succ n ih =>
          obtain ⟨e, hu, he⟩ := hf n
          exact ih.step hu he
    refine not_infinite_of_measure (measure req)
      (fun s e s' (h : Sane variant req s ∧ Step variant req s e s') => measure_lt h.1 h.2) f
      fun n => ?_
    obtain ⟨e, -, he⟩ := hf n
    exact ⟨e, hS n, he⟩

end Runs

/-- In the mutex variant a reader traverses while a writer waits for the lock: some call goes on. -/
theorem every_call_returns_writer_waits :
    ∃ s : State Bool, s.memory.writer = some false ∧ (∃ own, s.ctrl true = .locking 0 0 own) ∧
      ∃ c s', Undisturbed .mutex s ⟨c, {}⟩ ∧
        Step .mutex (fun c => if c then .write [1, 2, 3, 4] 0 else .read 4 0) s ⟨c, {}⟩ s' := by
  let req : Bool → Request := fun c => if c then .write [1, 2, 3, 4] 0 else .read 4 0
  let events : List (Event Bool) := List.replicate 2 ⟨true, {}⟩ ++ List.replicate 3 ⟨false, {}⟩
  have hs : (replay (exec .mutex req) events {}).isSome := rfl
  have hrun : Run (Step .mutex req) {} _ _ :=
    run_of_replay (fun _ _ _ h => h) (Option.some_get hs).symm
  refine ⟨_, rfl, ⟨_, rfl⟩, ((every_call_returns .mutex req).1 _ _ hrun (by decide)).resolve_right ?_⟩
  intro hdone
  obtain ⟨r, hr⟩ := hdone true
  cases hr

end LinkedBuffer.Traversal
