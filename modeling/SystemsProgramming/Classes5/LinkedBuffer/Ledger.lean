import SystemsProgramming.Classes5.LinkedBuffer.Clearing

/-!
# The nodes of concurrent calls

Where `clean_list` is not disturbed, every node that a call has allocated is, at any time, in exactly
one place: in the list, given to `kfree`, or in the hands of one call.  So when all calls have returned
no node has leaked.
-/

namespace LinkedBuffer.Traversal

open Transition

section Steps

variable {C : Type} [DecidableEq C] {variant : Variant} {input : Input} {c : C}
  {m m' : Memory C} {k k' : Ctrl C} {req : Request}

/-- The nodes in the list, and those freed, by number. -/
def Memory.ids (m : Memory C) : Multiset ℕ := m.list.map Node.id + m.freed.map Node.id

/-- The node in the hands of the call. -/
def Ctrl.ids (k : Ctrl C) : Multiset ℕ := k.own.toList.map Node.id

omit [DecidableEq C] in
/-- A step that neither allocates nor moves a node. -/
theorem ids_congr (hl : m'.list = m.list) (hi : m'.nextId = m.nextId) (hf : m'.freed = m.freed)
    (hk : k'.own = k.own) :
    m'.ids + k'.ids + Multiset.range m.nextId = m.ids + k.ids + Multiset.range m'.nextId := by
  rw [Memory.ids, Memory.ids, Ctrl.ids, Ctrl.ids, hl, hi, hf, hk]

/-- The nodes that a step adds are those it allocates. -/
theorem Moves.ids (h : Moves variant input c m req k m' k') (hplaced : Placed m k) :
    m'.ids + k'.ids + Multiset.range m.nextId = m.ids + k.ids + Multiset.range m'.nextId := by
  cases h with
  | startTraversal _ hlock =>
      obtain ⟨hl, hi, hf⟩ := lockRead_memory hlock
      exact ids_congr hl hi hf rfl
  | failTraversal | endTraversal =>
      obtain ⟨hl, hi, hf⟩ := unlockRead_memory variant c m
      exact ids_congr hl hi hf rfl
  | lock _ hlock =>
      obtain ⟨hl, hi, hf⟩ := lockWrite_memory hlock
      exact ids_congr hl hi hf rfl
  | copyFromFails | findClear | prepare =>
      show m.ids + {m.nextId} + Multiset.range m.nextId = m.ids + 0 + Multiset.range (m.nextId + 1)
      rw [Multiset.range_succ, ← Multiset.singleton_add, Multiset.add_zero, Multiset.add_assoc]
  | @insert u f₀ i f own =>
      congr 1
      show (↑((m.list ++ [own]).map Node.id) + ↑(m.freed.map Node.id) + 0 : Multiset ℕ) =
        ↑(m.list.map Node.id) + ↑(m.freed.map Node.id) + {own.id}
      rw [List.map_append, ← Multiset.coe_add, Multiset.add_zero, add_right_comm]
      rfl
  | @free u f₀ own r =>
      congr 1
      show (↑(m.list.map Node.id) + ↑((m.freed ++ [own]).map Node.id) + 0 : Multiset ℕ) =
        ↑(m.list.map Node.id) + ↑(m.freed.map Node.id) + {own.id}
      rw [List.map_append, ← Multiset.coe_add, Multiset.add_zero, ← Multiset.add_assoc]
      rfl
  | @unlink u f₀ f own cur tmp =>
      congr 2
      have hcur : cur ∈ m.list := hplaced.targets cur (List.mem_cons_self ..)
      have hlist : (m.list.map Node.id : Multiset ℕ) =
          {cur.id} + ↑((m.list.erase cur).map Node.id) :=
        Multiset.coe_eq_coe.2 ((List.perm_cons_erase hcur).map Node.id)
      show (↑((m.list.erase cur).map Node.id) + ↑((m.freed ++ [cur]).map Node.id) : Multiset ℕ) =
        ↑(m.list.map Node.id) + ↑(m.freed.map Node.id)
      rw [hlist, List.map_append, ← Multiset.coe_add, List.map_singleton, ← Multiset.coe_singleton]
      ac_rfl
  | _ => exact ids_congr rfl rfl rfl rfl

end Steps

/-! ### Runs -/

section Runs

variable {C : Type} [DecidableEq C] [Fintype C] {variant : Variant} {req : C → Request}
  {s s' : State C} {e : Event C} {tr : List (State C × Event C)}

/-- The nodes in the list, those freed and those in the hands of a call are all that were allocated,
each once. -/
def Accounted (s : State C) : Prop :=
  s.memory.ids + ∑ c, (s.ctrl c).ids = Multiset.range s.memory.nextId

theorem Accounted.step (hA : Accounted s) (hI : Inv s) (h : Step variant req s e s') :
    Accounted s' := by
  obtain ⟨m, k, hm, rfl⟩ := h.moves
  have hids := hm.ids (hI.placed e.call)
  have hothers : ∑ c ∈ Finset.univ.erase e.call, (Function.update s.ctrl e.call k c).ids =
      ∑ c ∈ Finset.univ.erase e.call, (s.ctrl c).ids :=
    Finset.sum_congr rfl fun d hd => by rw [Function.update_of_ne (Finset.ne_of_mem_erase hd)]
  rw [Accounted, ← Finset.add_sum_erase _ _ (Finset.mem_univ e.call)] at hA ⊢
  dsimp only
  rw [hothers, Function.update_self]
  rw [← hA] at hids
  refine (Multiset.add_right_inj (s := s.memory.ids + (s.ctrl e.call).ids)).1 ?_
  rw [← hids]
  ac_rfl

/-- At any time the nodes are where they should be, and when all calls have returned no node has
leaked. -/
theorem no_node_leaks (h : Run (Step variant req) {} tr s)
    (hu : ∀ p ∈ tr, Undisturbed variant p.1 p.2) :
    Accounted s ∧ ((∀ c, ∃ r, s.ctrl c = .done r) →
      ((s.memory.list ++ s.memory.freed).map Node.id).Perm (List.range s.memory.nextId)) := by
  have hstep : ∀ s e s', Undisturbed variant s e → Inv s ∧ Accounted s → Step variant req s e s' →
      Inv s' ∧ Accounted s' :=
    fun s e s' hu hI hs => ⟨hI.1.step hu hs, hI.2.step hI.1 hs⟩
  have hinit : Accounted ({} : State C) := by simp [Accounted, Memory.ids, Ctrl.ids, Ctrl.own]
  obtain ⟨-, hA⟩ := h.invariant_of hstep hu ⟨inv_init, hinit⟩
  refine ⟨hA, fun hdone => ?_⟩
  have hhands : ∑ c, (s.ctrl c).ids = 0 := Finset.sum_eq_zero fun c _ => by
    obtain ⟨r, hr⟩ := hdone c
    rw [hr]
    rfl
  rw [Accounted, hhands, Multiset.add_zero, Memory.ids, Multiset.coe_add, ← List.map_append] at hA
  exact Multiset.coe_eq_coe.1 hA

end Runs

/-- An entry is written and cleared, then the list is cleared again and read. -/
theorem no_node_leaks_two_clears : ∃ s : State (Fin 3), s.memory.nextId = 3 ∧
    ((s.memory.list ++ s.memory.freed).map Node.id).Perm (List.range s.memory.nextId) := by
  let events : List (Event (Fin 3)) :=
    List.replicate 12 ⟨0, {}⟩ ++ List.replicate 5 ⟨1, {}⟩ ++ List.replicate 6 ⟨2, {}⟩
  have hs : (replay (exec .mutex twoClearsAndRead) events {}).isSome := rfl
  have hrun : Run (Step .mutex twoClearsAndRead) {} _ _ :=
    run_of_replay (fun _ _ _ h => h) (Option.some_get hs).symm
  exact ⟨_, rfl, (no_node_leaks hrun (by decide)).2 fun c => by fin_cases c <;> exact ⟨_, rfl⟩⟩

end LinkedBuffer.Traversal
