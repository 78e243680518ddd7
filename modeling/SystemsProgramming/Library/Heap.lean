import Mathlib.Data.List.Perm.Basic
import Mathlib.Data.List.Nodup

/-!
# Blocks that are allocated and freed

A heap keeps the blocks that have been allocated and not freed.  A block is a number that the heap
never hands out again, so a second `free` of it is not defined, whatever is allocated in between.
`Heap.Owns` says which blocks a program has to account for.
-/

/-- The live blocks, and the number of allocations so far. -/
structure Heap where
  live : List ℕ
  next : ℕ
  nodup : live.Nodup
  lt_next : ∀ p ∈ live, p < next

namespace Heap

variable {h : Heap} {p : ℕ} {ps ps' : List ℕ}

/-- Nothing has been allocated. -/
def empty : Heap where
  live := []
  next := 0
  nodup := List.nodup_nil
  lt_next := fun _ hp => absurd hp List.not_mem_nil

theorem next_notMem (h : Heap) : h.next ∉ h.live := fun hp => Nat.lt_irrefl _ (h.lt_next _ hp)

/-- A new block, the number `h.next`. -/
def alloc (h : Heap) : Heap where
  live := h.next :: h.live
  next := h.next + 1
  nodup := List.nodup_cons.2 ⟨h.next_notMem, h.nodup⟩
  lt_next := by
    intro p hp
    rcases List.mem_cons.1 hp with rfl | hp
    · exact Nat.lt_succ_self _
    · exact Nat.lt_succ_of_lt (h.lt_next p hp)

/-- The block must be live. -/
def free (h : Heap) (p : ℕ) : Option Heap :=
  if p ∈ h.live then
    some
      { live := h.live.erase p
        next := h.next
        nodup := h.nodup.erase p
        lt_next := fun _ hq => h.lt_next _ (List.mem_of_mem_erase hq) }
  else none

/-- The live blocks are `ps`, each once. -/
def Owns (h : Heap) (ps : List ℕ) : Prop := h.live.Perm ps

theorem owns_empty : empty.Owns [] := List.Perm.refl []

theorem Owns.perm (ho : h.Owns ps) (hp : ps.Perm ps') : h.Owns ps' := List.Perm.trans ho hp

theorem Owns.nodup (ho : h.Owns ps) : ps.Nodup := (List.Perm.nodup_iff ho).1 h.nodup

theorem Owns.alloc (ho : h.Owns ps) : h.alloc.Owns (h.next :: ps) := List.Perm.cons _ ho

/-- A block that is owned can be freed, and is not owned any more. -/
theorem Owns.free (ho : h.Owns (p :: ps)) : ∃ h', h.free p = some h' ∧ h'.Owns ps := by
  have hmem : p ∈ h.live := (List.Perm.mem_iff ho).2 (List.mem_cons_self ..)
  refine ⟨_, if_pos hmem, ?_⟩
  have herase := List.Perm.erase p ho
  rwa [List.erase_cons_head] at herase

theorem Owns.live_eq_nil (ho : h.Owns []) : h.live = [] := List.Perm.eq_nil ho

end Heap
