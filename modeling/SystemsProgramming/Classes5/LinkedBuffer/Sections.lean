import SystemsProgramming.Classes5.LinkedBuffer.Clearing

/-!
# Locked sections without interruption

A call that takes its steps with no other call in between goes through its locked sections and
`clean_list` as if they were single steps (`solo_of_moves`).  So every run with these as single steps
is a run of the steps inside the calls (`run_of_sections`).
-/

namespace LinkedBuffer.Traversal

open Transition

section Steps

variable {C : Type} [DecidableEq C] {variant : Variant} {input : Input} {c : C} {req : Request}
  {m : Memory C}

/-! ### The steps of one call -/

/-- Steps of call `c` with no other call in between. -/
def Solo (variant : Variant) (c : C) (req : Request) :
    Memory C × Ctrl C → Memory C × Ctrl C → Prop :=
  Relation.ReflTransGen fun p q => ∃ input, callStep variant input c p.1 req p.2 = some q

theorem Solo.head {m' : Memory C} {k k' : Ctrl C} {p : Memory C × Ctrl C} (input : Input)
    (h : callStep variant input c m req k = some (m', k')) (h' : Solo variant c req (m', k') p) :
    Solo variant c req (m, k) p :=
  Relation.ReflTransGen.head ⟨input, h⟩ h'

theorem Solo.single {m' : Memory C} {k k' : Ctrl C} (input : Input)
    (h : callStep variant input c m req k = some (m', k')) :
    Solo variant c req (m, k) (m', k') :=
  Relation.ReflTransGen.single ⟨input, h⟩

/-- The traversal from the nodes `pre` on, under its lock. -/
theorem solo_traversal (variant : Variant) (c : C) (count fPos : ℕ) (faults : ReadVars → Bool) {pre rest : List Node}
    (hl : m.list = pre ++ rest) (hnd : m.list.Nodup) (v : ReadVars) (start : List Node) :
    ∃ cursor seen, Solo variant c (.read count fPos) (m, .stepping pre.getLast? v pre start)
      (m, .leaving cursor (readLoop count fPos faults (rest.map Node.data) v).1 seen start
        (readLoop count fPos faults (rest.map Node.data) v).2.isSome) := by
  have hnext : nextOf m.list pre.getLast? = some rest.head? := by
    rw [hl] at hnd ⊢
    exact nextOf_append hnd
  induction rest generalizing pre v with
  | nil => exact ⟨none, pre, .single {} (by rw [callStep, hnext]; rfl)⟩
  | cons d rest ih =>
      have hvisit : ∀ {p}, Solo variant c (.read count fPos) (m, .visiting d v (pre ++ [d]) start) p →
          Solo variant c (.read count fPos) (m, .stepping pre.getLast? v pre start) p :=
        fun h => .head {} (by rw [callStep, hnext]; rfl) h
      rw [List.map_cons, readLoop]
      by_cases hfault : ¬ v.Skips fPos ∧ faults v = true
      · rw [if_pos hfault]
        exact ⟨some d, pre ++ [d],
          hvisit (.single { faults := faults } (by rw [callStep, if_pos hfault]; rfl))⟩
      · rw [if_neg hfault]
        have hstep : callStep variant { faults := faults } c m (.read count fPos)
            (.visiting d v (pre ++ [d]) start) = if (readEntry count fPos d.data v).2
              then some (m, .leaving (some d) (readEntry count fPos d.data v).1 (pre ++ [d]) start false)
              else some (m, .stepping (some d) (readEntry count fPos d.data v).1 (pre ++ [d]) start) := by
          rw [callStep, if_neg hfault]
        cases hover : (readEntry count fPos d.data v).2 with
        | true =>
            simp only [hover, if_true] at hstep ⊢
            exact ⟨some d, pre ++ [d], hvisit (.single _ hstep)⟩
        | false =>
            simp only [hover, Bool.false_eq_true, if_false] at hstep ⊢
            have hl' : m.list = (pre ++ [d]) ++ rest := by
              rw [hl, List.append_assoc, List.singleton_append]
            have hnext' : nextOf m.list (pre ++ [d]).getLast? = some rest.head? := by
              rw [hl'] at hnd ⊢
              exact nextOf_append hnd
            obtain ⟨cursor, seen, h⟩ := ih hl' (readEntry count fPos d.data v).1 hnext'
            rw [List.getLast?_concat] at h
            exact ⟨cursor, seen, hvisit (.head _ hstep h)⟩

/-- The loop of `clean_list` from the first node on. -/
theorem solo_cleaning {u : List UInt8} {f₀ fPos : ℕ} {own cur : Node} {rest : List Node}
    (hl : m.list = cur :: rest) :
    Solo variant c (.write u f₀) (m, .cleaning fPos own cur rest.head?)
      ({ m with list := [], freed := m.freed ++ cur :: rest }, .resetting fPos own) := by
  induction rest generalizing m cur with
  | nil =>
      refine .head {} rfl ?_
      rw [hl, List.erase_cons_head]
      exact .single {} rfl
  | cons n rest ih =>
      let m₁ : Memory C := { m with list := n :: rest, freed := m.freed ++ [cur] }
      have hadvance : callStep variant {} c m₁ (.write u f₀) (.advancing fPos own (some n)) =
          some (m₁, .cleaning fPos own n rest.head?) := by
        rw [callStep, nextOf, if_pos (List.mem_cons_self ..), after, if_pos rfl]
        rfl
      have hrest := ih (m := m₁) rfl
      rw [List.append_assoc, List.singleton_append] at hrest
      refine .head {} rfl ?_
      rw [hl, List.erase_cons_head]
      exact .head {} hadvance hrest

/-! ### The locked sections -/

/-- No call holds the lock. -/
def Memory.Free (m : Memory C) : Prop := m.writer = none ∧ m.readers = []

theorem lockRead_of_free (variant : Variant) (c : C) (h : m.Free) :
    ∃ m₁, lockRead variant c m = some m₁ ∧ m₁.list = m.list ∧ unlockRead variant c m₁ = m := by
  rcases m with ⟨l, i, f, t, r, w, writer, readers⟩
  obtain ⟨rfl, rfl⟩ : writer = none ∧ readers = [] := h
  cases variant with
  | mutex => exact ⟨_, rfl, rfl, rfl⟩
  | semaphore | spinlock | rcu => exact ⟨_, rfl, rfl, by simp [unlockRead]⟩

/-- The locked section of `linked_read`. -/
theorem solo_read (variant : Variant) (c : C) (count fPos : ℕ) (faults : ReadVars → Bool)
    (hfree : m.Free) (hnd : m.list.Nodup) :
    Solo variant c (.read count fPos) (m, .entering)
      (m, if (readLoop count fPos faults (m.list.map Node.data) {}).2.isSome
        then .done (.failed .fault fPos)
        else .countingRead (readLoop count fPos faults (m.list.map Node.data) {}).1) := by
  obtain ⟨m₁, hlock, hl, hunlock⟩ := lockRead_of_free variant c hfree
  obtain ⟨cursor, seen, htraversal⟩ := solo_traversal variant c count fPos faults
    (List.nil_append m₁.list).symm (hl ▸ hnd) {} m₁.list
  have henter : callStep variant {} c m (.read count fPos) .entering =
      some (m₁, .stepping none {} [] m₁.list) := by
    rw [callStep, if_neg (Input.not_signals rfl)]
    exact Option.map_eq_some_iff.2 ⟨m₁, hlock, rfl⟩
  rw [hl] at htraversal henter
  refine .head {} henter (htraversal.trans (Solo.single {} ?_))
  rw [callStep, hunlock]

/-- The locked section of `linked_write`. -/
theorem solo_insert {u : List UInt8} {f₀ i fPos : ℕ} {own : Node} (hs : ¬ input.Signals variant)
    (hfree : m.Free) : Solo variant c (.write u f₀) (m, .locking i fPos own)
      ({ m with list := m.list ++ [own] }, .adding i fPos own) := by
  rcases m with ⟨l, i', f, t, r, w, writer, readers⟩
  obtain ⟨rfl, rfl⟩ : writer = none ∧ readers = [] := hfree
  refine .head input (by rw [callStep, if_neg hs, lockWrite, if_pos ⟨rfl, Or.inr rfl⟩]; rfl) ?_
  refine .head {} rfl ?_
  by_cases hv : variant = .rcu
  · refine .head {} (by rw [callStep, if_pos hv]) (.single {} ?_)
    rw [callStep, if_pos (List.forall_mem_nil _)]
  · exact .single {} (by rw [callStep, if_neg hv])

/-- `clean_list` -/
theorem solo_clean (variant : Variant) (c : C) (m : Memory C) (u : List UInt8) (f₀ fPos : ℕ)
    (own : Node) :
    ∃ freed, Solo variant c (.write u f₀) (m, .clearing fPos own)
      ({ m with list := [], freed := freed, totalLength := 0 }, .freeing own (.cleared fPos)) := by
  cases hl : m.list with
  | nil =>
      refine ⟨m.freed, .head {} (by rw [callStep, hl]) (.single {} ?_)⟩
      rw [callStep, ← hl]
  | cons n l =>
      exact ⟨_, .head {} (by rw [callStep, hl]) ((solo_cleaning hl).trans (Solo.single {} rfl))⟩

/-! ### One step -/

/-- The globals of the module. -/
def Memory.module (m : Memory C) : Module where
  buffer := m.list.map Node.data
  totalLength := m.totalLength
  readCount := m.readCount
  writeCount := m.writeCount

/-- The same place between two sections. -/
inductive Matches (req : Request) : Ctrl C → LinkedBuffer.Ctrl → Prop
  | ready : Matches req .ready .ready
  | checking : Matches req .checking .checking
  | reading : Matches req .entering .reading
  | countingRead {v} : Matches req (.countingRead v) (.countingRead v)
  | loop {i f} : Matches req (.loop i f) (.loop i f)
  | locking {i f own} : Matches req (.locking i f own) (.locking i f own.data)
  | adding {i f n} : Matches req (.adding i f n) (.adding i f n.data)
  | clearing {f own} : Matches req (.clearing f own) (.clearing f)
  | countingWrite {f} : Matches req (.countingWrite f) (.countingWrite f)
  | freeing {u f own r} : req = .write u f → Matches req (.freeing own r) (.returning r)
  | returning {r} : Matches req (.done r) (.returning r)
  | done {r} : Matches req (.done r) (.done r)

theorem readLoop_error {count fPos : ℕ} {faults : ReadVars → Bool} {l : List Data} {v v' : ReadVars}
    {e : Errno} (h : readLoop count fPos faults l v = (v', some e)) : e = .fault := by
  induction l generalizing v with
  | nil => cases h
  | cons d l ih =>
      rw [readLoop] at h
      split at h
      · cases h
        rfl
      · dsimp only at h
        split at h
        · cases h
        · exact ih h

/-- A step between sections is a sequence of steps of the call. -/
theorem solo_of_moves {M' : Module} {k : Ctrl C} {K K' : LinkedBuffer.Ctrl}
    (hM : LinkedBuffer.Moves variant input m.module req K M' K') (hfree : m.Free)
    (hnd : m.list.Nodup) (hk : Matches req k K) :
    ∃ m' k', Solo variant c req (m, k) (m', k') ∧ m'.module = M' ∧ m'.Free ∧ Matches req k' K' := by
  cases hM with
  | beginWrite =>
      cases hk
      exact ⟨m, _, .single {} rfl, rfl, hfree, .loop⟩
  | @allocFails u f₀ i f hi ho =>
      cases hk
      refine ⟨m, _, .single input ?_, rfl, hfree, .returning⟩
      rw [callStep, dif_pos hi, ho]
  | @copyFails u f₀ i f hi ho =>
      cases hk
      refine ⟨{ m with nextId := m.nextId + 1 }, .freeing ⟨m.nextId, newData u i hi⟩ _,
        .single input ?_, rfl, hfree, .freeing rfl⟩
      rw [callStep, dif_pos hi, ho]
  | @findClear u f₀ i f hi hcmp =>
      cases hk
      refine ⟨{ m with nextId := m.nextId + 1 }, .clearing f ⟨m.nextId, newData u i hi⟩,
        .single {} ?_, rfl, hfree, .clearing⟩
      rw [callStep, dif_pos hi]
      exact if_pos hcmp
  | @prepare u f₀ i f hi hcmp =>
      cases hk
      refine ⟨{ m with nextId := m.nextId + 1 }, .locking i f ⟨m.nextId, newData u i hi⟩,
        .single {} ?_, rfl, hfree, .locking⟩
      rw [callStep, dif_pos hi]
      exact if_neg hcmp
  | endLoop hi =>
      cases hk
      refine ⟨m, _, .single {} ?_, rfl, hfree, .countingWrite⟩
      rw [callStep, dif_neg (Nat.not_lt_of_le hi)]
  | signalWrite hs =>
      cases hk
      exact ⟨m, _, .single input (by rw [callStep, if_pos hs]), rfl, hfree, .freeing rfl⟩
  | insert hs =>
      cases hk
      refine ⟨_, _, solo_insert hs hfree, ?_, hfree, .adding⟩
      rw [Memory.module, List.map_append]
      rfl
  | add =>
      cases hk
      exact ⟨_, _, .single {} rfl, rfl, hfree, .loop⟩
  | @clean u f₀ f =>
      cases hk
      obtain ⟨freed, h⟩ := solo_clean variant c m u f₀ f _
      exact ⟨_, _, h, rfl, hfree, .freeing rfl⟩
  | countWrite =>
      cases hk
      exact ⟨_, _, .single {} rfl, rfl, hfree, .returning⟩
  | beginRead =>
      cases hk
      exact ⟨m, _, .single {} rfl, rfl, hfree, .checking⟩
  | early hlt =>
      cases hk
      exact ⟨m, _, .single {} (by rw [callStep]; exact if_pos hlt), rfl, hfree, .returning⟩
  | enter hle =>
      cases hk
      refine ⟨m, _, .single {} ?_, rfl, hfree, .reading⟩
      rw [callStep]
      exact if_neg (Nat.not_lt_of_le hle)
  | signalRead hs =>
      cases hk
      exact ⟨m, _, .single input (by rw [callStep, if_pos hs]), rfl, hfree, .returning⟩
  | @readFails n f v e hloop =>
      cases hk
      obtain rfl := readLoop_error hloop
      have h := solo_read variant c n f input.faults hfree hnd
      rw [show readLoop n f input.faults (m.list.map Node.data) {} = _ from hloop] at h
      exact ⟨m, _, h, rfl, hfree, .returning⟩
  | @read n f v hloop =>
      cases hk
      have h := solo_read variant c n f input.faults hfree hnd
      rw [show readLoop n f input.faults (m.list.map Node.data) {} = _ from hloop] at h
      exact ⟨m, _, h, rfl, hfree, .countingRead⟩
  | countRead =>
      cases hk
      exact ⟨_, _, .single {} rfl, rfl, hfree, .returning⟩
  | @ret req r =>
      cases hk with
      | freeing hreq =>
          subst hreq
          exact ⟨_, _, .single {} rfl, rfl, hfree, .done⟩
      | returning => exact ⟨m, _, Relation.ReflTransGen.refl, rfl, hfree, .done⟩

omit [DecidableEq C] in
theorem Matches.outside {k : Ctrl C} {K : LinkedBuffer.Ctrl} (h : Matches req k K) : k.Outside := by
  cases h <;> exact ⟨rfl, rfl⟩

end Steps

/-! ### Runs -/

section Runs

variable {C : Type} [DecidableEq C] {variant : Variant} {req : C → Request} {s : State C} {c : C}

/-- The state between two sections, and the same with the nodes and the lock. -/
structure Refined (req : C → Request) (S : LinkedBuffer.State C) (s : State C) : Prop where
  module : s.memory.module = S.module
  free : s.memory.Free
  inv : Inv s
  ctrl : ∀ c, Matches (req c) (s.ctrl c) (S.ctrl c)

theorem undisturbed_of_outside {e : Event C} (h : ∀ d ≠ e.call, (s.ctrl d).Outside) :
    Undisturbed variant s e := by
  rw [Undisturbed]
  split
  · exact Or.inr h
  · rename_i hcall
    refine Or.inr fun d => ?_
    by_cases hd : d = e.call
    · rw [hd, hcall]
      rfl
    · exact (h d hd).2
  · trivial

/-- The steps of one call, taken in a state of the system. -/
theorem run_of_solo {p : Memory C × Ctrl C} (h : Solo variant c (req c) (s.memory, s.ctrl c) p)
    (hI : Inv s) (hout : ∀ d ≠ c, (s.ctrl d).Outside) :
    ∃ tr, Run (Step variant req) s tr ⟨p.1, Function.update s.ctrl c p.2⟩ ∧
      Inv ⟨p.1, Function.update s.ctrl c p.2⟩ := by
  induction h with
  | refl =>
      refine ⟨[], ?_, ?_⟩ <;> rw [Function.update_eq_self]
      · exact .nil
      · exact hI
  | @tail p q _ hstep ih =>
      obtain ⟨tr, hrun, hI⟩ := ih
      obtain ⟨input, hstep⟩ := hstep
      have hexec : Step variant req ⟨p.1, Function.update s.ctrl c p.2⟩ ⟨c, input⟩
          ⟨q.1, Function.update s.ctrl c q.2⟩ := by
        rw [Step, exec]
        dsimp only
        rw [Function.update_self, hstep]
        simp
      refine ⟨_, hrun.snoc hexec, hI.step (undisturbed_of_outside fun d hd => ?_) hexec⟩
      dsimp only
      rw [Function.update_of_ne hd]
      exact hout d hd

/-- Every run with single-step sections is one of the steps inside the calls. -/
theorem run_of_sections {tr : List (LinkedBuffer.State C × Event C)} {S : LinkedBuffer.State C}
    (h : Run (LinkedBuffer.Step variant req) (init C) tr S) :
    ∃ tr' s, Run (Step variant req) {} tr' s ∧ Refined req S s := by
  refine h.simulate (fun S e S' s hS hR => ?_) ⟨rfl, ⟨rfl, rfl⟩, inv_init, fun _ => .ready⟩
  obtain ⟨M, K, hM, rfl⟩ := hS.moves
  rw [← hR.module] at hM
  obtain ⟨m, k, hsolo, hm, hfree, hk⟩ :=
    solo_of_moves (c := e.call) hM hR.free hR.inv.sound.nodup (hR.ctrl e.call)
  obtain ⟨tr', hrun, hI⟩ := run_of_solo hsolo hR.inv fun d _ => (hR.ctrl d).outside
  refine ⟨tr', _, hrun, hm, hfree, hI, fun d => ?_⟩
  dsimp only
  by_cases hd : d = e.call
  · rw [hd, Function.update_self, Function.update_self]
    exact hk
  · rw [Function.update_of_ne hd, Function.update_of_ne hd]
    exact hR.ctrl d

end Runs

end LinkedBuffer.Traversal
