import SystemsProgramming.Classes5.LinkedBuffer.Traversal
import SystemsProgramming.Library.Heap

/-!
# The blocks of the linked buffer module

`linked_write` and `linked_exit`, alone, with every `kzalloc` and `kfree`.  To free a block that is
not live, or one that is still in the list, is a fault.  Whatever the passes of the loop do, no call
faults, and between calls the live blocks are the nodes of the list (`ledger_balanced`).
-/

namespace LinkedBuffer.Blocks

open Traversal (Node)

/-! ### The calls with their blocks -/

/-- What the code must not do with a block. -/
inductive BlockFault where
  | notLive
  | linked
  deriving DecidableEq

/-- The globals of the module, with the blocks of the heap. -/
structure State where
  heap : Heap := .empty
  list : List Node := []
  totalLength : ℕ := 0
  readCount : ℕ := 0
  writeCount : ℕ := 0

/-- The globals without the blocks. -/
def State.module (s : State) : Module where
  buffer := s.list.map Node.data
  totalLength := s.totalLength
  readCount := s.readCount
  writeCount := s.writeCount

/-- `kfree` -/
def kfree (p : ℕ) (s : State) : Except BlockFault State :=
  if p ∈ s.list.map Node.id then .error .linked
  else
    match s.heap.free p with
    | none => .error .notLive
    | some heap => .ok { s with heap }

/-- The loop of `clean_list`, from the nodes that are left: `list_del` and `kfree`. -/
def cleanLoop : List Node → State → Except BlockFault State
  | [], s => .ok s
  | n :: l, s => do
    let s ← kfree n.id { s with list := s.list.erase n }
    cleanLoop l s

/-- `clean_list` -/
def cleanList (s : State) : Except BlockFault State := do
  let s ← cleanLoop s.list s
  return { s with totalLength := 0 }

/-- `list_add_tail`, and the addition to `total_length` -/
def State.insert (s : State) (own : Node) : State :=
  { s with list := s.list ++ [own], totalLength := s.totalLength + own.data.length }

/-- The loop of `linked_write`, from the offsets that are left. -/
def writeLoop (variant : Variant) (env : ℕ → Outcome) (userBuf : List UInt8) :
    List ℕ → State → ℕ → Except BlockFault (State × ℕ × Except Errno ℕ)
  | [], s, fPos => .ok ({ s with writeCount := s.writeCount + 1 }, fPos, .ok userBuf.length)
  | i :: is, s, fPos =>
    if h : i < userBuf.length then
      let own : Node := ⟨s.heap.next, newData userBuf i h⟩
      let s' := { s with heap := s.heap.alloc }
      match env i with
      | .noMem => .ok (s, fPos, .error .noMem)
      | .fault => do
        let s ← kfree own.id s'
        return (s, fPos, .error .fault)
      | o =>
        if strncmp own.data.contents clearCommand 4 = 0 then do
          let s ← cleanList s'
          let s ← kfree own.id s
          return (s, fPos, .ok userBuf.length)
        else if variant.interruptible ∧ o = .signal then do
          let s ← kfree own.id s'
          return (s, fPos, .error .intr)
        else
          writeLoop variant env userBuf is (s'.insert own) (fPos + own.data.length)
    else .ok ({ s with writeCount := s.writeCount + 1 }, fPos, .ok userBuf.length)

/-- `linked_write` -/
def linkedWrite (variant : Variant) (env : ℕ → Outcome) (s : State) (userBuf : List UInt8)
    (fPos : ℕ) : Except BlockFault (State × ℕ × Except Errno ℕ) :=
  writeLoop variant env userBuf (offsets userBuf.length) s fPos

/-- `linked_exit`, as far as the list goes -/
def linkedExit (s : State) : Except BlockFault State := cleanList s

/-! ### The ledger -/

/-- The live blocks are the nodes of the list, and `own`. -/
def Holds (own : List ℕ) (s : State) : Prop := s.heap.Owns (own ++ s.list.map Node.id)

/-- The live blocks are the nodes of the list, each once. -/
def Balanced (s : State) : Prop := s.heap.Owns (s.list.map Node.id)

/-- A block that is not in the list is freed once. -/
theorem kfree_own {p : ℕ} {s : State} (h : Holds [p] s) :
    ∃ heap, kfree p s = .ok { s with heap } ∧ Balanced { s with heap } := by
  have hnotMem : p ∉ s.list.map Node.id := (List.nodup_cons.1 h.nodup).1
  obtain ⟨heap, hfree, howns⟩ := Heap.Owns.free h
  refine ⟨heap, ?_, howns⟩
  unfold kfree
  rw [if_neg hnotMem, hfree]

/-- `clean_list` frees the nodes of the list, each once. -/
theorem cleanLoop_eq {own : List ℕ} {s : State} (h : Holds own s) :
    ∃ heap, cleanLoop s.list s = .ok { s with heap, list := [] } ∧ heap.Owns own := by
  obtain ⟨heap, l, totalLength, readCount, writeCount⟩ := s
  dsimp only
  induction l generalizing heap with
  | nil =>
      unfold Holds at h
      rw [List.map_nil, List.append_nil] at h
      exact ⟨heap, rfl, h⟩
  | cons n l ih =>
      have hnext : Holds (n.id :: own) ⟨heap, l, totalLength, readCount, writeCount⟩ :=
        h.perm List.perm_middle
      have hnotMem : n.id ∉ l.map Node.id := fun hn =>
        (List.nodup_cons.1 hnext.nodup).1 (List.mem_append_right _ hn)
      obtain ⟨heap', hfree, howns⟩ := Heap.Owns.free hnext
      obtain ⟨heap'', hloop, howns'⟩ := ih heap' howns
      refine ⟨heap'', ?_, howns'⟩
      rw [← hloop, cleanLoop, List.erase_cons_head]
      unfold kfree
      rw [if_neg hnotMem, hfree]
      rfl

theorem cleanList_eq {own : List ℕ} {s : State} (h : Holds own s) :
    ∃ heap, cleanList s = .ok { s with heap, list := [], totalLength := 0 } ∧ heap.Owns own := by
  obtain ⟨heap, hloop, howns⟩ := cleanLoop_eq h
  refine ⟨heap, ?_, howns⟩
  unfold cleanList
  rw [hloop]
  rfl

/-- The clear command frees the nodes, and then the block that held the command. -/
theorem cleanList_kfree {s : State} (h : Balanced s) : ∃ heap heap',
    cleanList { s with heap := s.heap.alloc } =
        .ok { s with heap, list := [], totalLength := 0 } ∧
      kfree s.heap.next { s with heap, list := [], totalLength := 0 } =
        .ok { s with heap := heap', list := [], totalLength := 0 } ∧
      Balanced { s with heap := heap', list := [], totalLength := 0 } := by
  have hown : Holds [s.heap.next] { s with heap := s.heap.alloc } := Heap.Owns.alloc h
  obtain ⟨heap, hclean, howns⟩ := cleanList_eq hown
  have hlast : Holds [s.heap.next] { s with heap, list := [], totalLength := 0 } := howns
  obtain ⟨heap', hfree, hbalanced⟩ := kfree_own hlast
  exact ⟨heap, heap', hclean, hfree, hbalanced⟩

/-- The new block goes to the list. -/
theorem insert_balanced {s : State} (h : Balanced s) (data : Data) :
    Balanced (State.insert { s with heap := s.heap.alloc } ⟨s.heap.next, data⟩) := by
  unfold Balanced State.insert
  rw [List.map_append]
  exact (Heap.Owns.alloc h).perm (List.perm_append_singleton ..).symm

theorem module_insert (s : State) (own : Node) :
    (s.insert own).module =
      { s.module with
        buffer := s.module.buffer ++ [own.data]
        totalLength := s.module.totalLength + own.data.length } := by
  unfold State.insert State.module
  rw [List.map_append]
  rfl

/-- The loop of `linked_write` keeps the ledger, and does what it does without the blocks. -/
theorem writeLoop_balanced (variant : Variant) (env : ℕ → Outcome) (userBuf : List UInt8)
    (is : List ℕ) {s : State} (fPos : ℕ) (h : Balanced s) :
    ∃ s', writeLoop variant env userBuf is s fPos =
        .ok (s', (LinkedBuffer.writeLoop variant env userBuf is s.module fPos).fPos,
          (LinkedBuffer.writeLoop variant env userBuf is s.module fPos).ret) ∧
      s'.module = (LinkedBuffer.writeLoop variant env userBuf is s.module fPos).module ∧
      Balanced s' := by
  induction is generalizing s fPos with
  | nil => exact ⟨_, rfl, rfl, h⟩
  | cons i is ih =>
      rw [writeLoop, LinkedBuffer.writeLoop]
      by_cases hi : i < userBuf.length
      · rw [dif_pos hi, dif_pos hi]
        dsimp only
        have hown : Holds [s.heap.next] { s with heap := s.heap.alloc } := Heap.Owns.alloc h
        obtain ⟨heap, hfree, hbalanced⟩ := kfree_own hown
        obtain ⟨heap₁, heap₂, hclean, hlast, hempty⟩ := cleanList_kfree h
        have hinsert := ih (fPos + (newData userBuf i hi).length)
          (insert_balanced h (newData userBuf i hi))
        rw [module_insert] at hinsert
        cases ho : env i with
        | noMem => exact ⟨s, rfl, rfl, h⟩
        | fault =>
            simp only [hfree, bind, Except.bind, pure, Except.pure]
            exact ⟨_, rfl, rfl, hbalanced⟩
        | ok =>
            by_cases hcmp : strncmp (newData userBuf i hi).contents clearCommand 4 = 0
            · simp only [if_pos hcmp, hclean, hlast, bind, Except.bind, pure, Except.pure]
              exact ⟨_, rfl, rfl, hempty⟩
            · simp only [if_neg hcmp, reduceCtorEq, and_false, if_false]
              exact hinsert
        | signal =>
            by_cases hcmp : strncmp (newData userBuf i hi).contents clearCommand 4 = 0
            · simp only [if_pos hcmp, hclean, hlast, bind, Except.bind, pure, Except.pure]
              exact ⟨_, rfl, rfl, hempty⟩
            · by_cases hv : variant.interruptible = true
              · simp only [if_neg hcmp, hv, and_self, if_true, hfree, bind, Except.bind, pure,
                  Except.pure]
                exact ⟨_, rfl, rfl, hbalanced⟩
              · simp only [if_neg hcmp, hv]
                exact hinsert
      · rw [dif_neg hi, dif_neg hi]
        exact ⟨_, rfl, rfl, h⟩

/-! ### Sequences of calls -/

/-- A call of `linked_write`, with what its passes find. -/
structure WriteCall where
  env : ℕ → Outcome
  userBuf : List UInt8
  fPos : ℕ

/-- The calls one after the other. -/
def runWrites (variant : Variant) : List WriteCall → State → Except BlockFault State
  | [], s => .ok s
  | c :: cs, s => do
    let (s, _) ← linkedWrite variant c.env s c.userBuf c.fPos
    runWrites variant cs s

/-- No call faults; between calls the ledger is balanced, and the list is that of the calls without
the blocks. -/
theorem runWrites_balanced {variant : Variant} {calls : List WriteCall} {s : State}
    (h : Balanced s) :
    ∃ s', runWrites variant calls s = .ok s' ∧ Balanced s' ∧
      s'.module = calls.foldl
        (fun m c => (LinkedBuffer.linkedWrite variant c.env m c.userBuf c.fPos).module)
        s.module := by
  induction calls generalizing s with
  | nil => exact ⟨s, rfl, h, rfl⟩
  | cons c calls ih =>
      obtain ⟨s', hcall, hmodule, hbalanced⟩ :=
        writeLoop_balanced variant c.env c.userBuf (offsets c.userBuf.length) c.fPos h
      obtain ⟨s'', hrun, hbalanced', hmodule'⟩ := ih hbalanced
      refine ⟨s'', ?_, hbalanced', ?_⟩
      · unfold runWrites linkedWrite
        rw [hcall]
        exact hrun
      · rw [hmodule', hmodule, List.foldl_cons]
        rfl

/-- Between calls the list is that of the calls without the blocks, and the live blocks are its nodes,
each once; no block is freed twice or in the list; and `linked_exit` leaves no live block. -/
theorem ledger_balanced (variant : Variant) (calls : List WriteCall) :
    ∃ s, runWrites variant calls {} = .ok s ∧
      s.module = calls.foldl
        (fun m c => (LinkedBuffer.linkedWrite variant c.env m c.userBuf c.fPos).module) {} ∧
      s.heap.live.Perm (s.list.map Node.id) ∧ (s.list.map Node.id).Nodup ∧
      ∃ s', linkedExit s = .ok s' ∧ s'.list = [] ∧ s'.heap.live = [] := by
  have hempty : Balanced {} := Heap.owns_empty
  obtain ⟨s, hrun, hbalanced, hmodule⟩ := runWrites_balanced hempty
  have hexit : Holds [] s := hbalanced
  obtain ⟨heap, hclean, howns⟩ := cleanList_eq hexit
  exact ⟨s, hrun, hmodule, hbalanced, hbalanced.nodup, _, hclean, rfl, howns.live_eq_nil⟩

/-- The second `kzalloc` of a write fails and leaves its first entry, a clear command follows, and then
another entry. -/
theorem ledger_balanced_cleared :
    ∃ s, s.module.buffer.map Data.bytes = [[103, 104]] ∧
      s.heap.live.Perm (s.list.map Node.id) ∧ (s.list.map Node.id).Nodup ∧
      ∃ s', linkedExit s = .ok s' ∧ s'.list = [] ∧ s'.heap.live = [] := by
  let calls : List WriteCall :=
    [⟨fun i => if i = 4 then .noMem else .ok, [97, 98, 99, 100, 101, 102], 0⟩,
      ⟨fun _ => .ok, clearCommand, 0⟩, ⟨fun _ => .ok, [103, 104], 0⟩]
  obtain ⟨s, -, hmodule, hlive, hnodup, hexit⟩ := ledger_balanced .mutex calls
  exact ⟨s, by rw [hmodule]; decide, hlive, hnodup, hexit⟩

end LinkedBuffer.Blocks
