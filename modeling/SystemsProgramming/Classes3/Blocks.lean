import SystemsProgramming.Classes3.Advanced
import SystemsProgramming.Classes3.Circular.Resizing
import SystemsProgramming.Classes3.Jiffies
import SystemsProgramming.Library.Heap
import SystemsProgramming.Library.Run

/-!
# The blocks of the devices

`circular_proc_write`, `prname_write`, `prname_read` and `jiffies_read` with every `kmalloc` and
`kfree`.  To free a block that is not live is a fault, and no call does it; but some exits leave a
block behind.  `ledger_iff` says in which runs the block of the circular device stays the only one.
-/

namespace Devices

open Memory Transition
open Circular (Device ReadResult enomem efault decimalLong)
open Advanced (Prname jiffiesText sprintf)

/-! ### The calls with their blocks -/

/-- What the code must not do. -/
inductive BlockFault where
  | access (e : Fault)
  | notLive
  deriving DecidableEq

/-- The globals of the modules, with the blocks of the heap. -/
structure State where
  heap : Heap
  /-- the block that `buffer` points to -/
  buffer : ℕ
  device : Device
  prname : Prname

/-- An access to the cells of a block. -/
def access {α : Type} (x : Except Fault α) : Except BlockFault α := x.mapError .access

/-- `kfree` -/
def kfree (p : ℕ) (s : State) : Except BlockFault State :=
  match s.heap.free p with
  | none => .error .notLive
  | some heap => .ok { s with heap }

/-- `circular_proc_write` from the second `kmalloc` on -/
def moveTo (value : ℤ) (newBuffer : List UInt8) (s : State) : Except BlockFault State := do
  let newBlock := s.heap.next
  let s := { s with heap := s.heap.alloc }
  let newBuffer ← access (copyCells s.device.buffer (min value s.device.buffSize).toNat newBuffer)
  let buffSize := value.bmod intCard
  let s ← kfree s.buffer s
  let currPosition ← access (remainder s.device.currPosition (buffSize - 1))
  let buffer ← access (store newBuffer (buffSize - 1) 0)
  return { s with buffer := newBlock, device := { buffSize, currPosition, buffer } }

section Calls

variable (kstrtol : List UInt8 → Option ℤ)

/-- `circular_proc_write` of the `count` bytes `userBuf` -/
def circularProcWrite (tempBlock newBlock : Option (ℕ → UInt8)) (userBuf : List (Option UInt8))
    (s : State) : Except BlockFault (State × ℤ) :=
  match kmalloc (userBuf.length + 1) tempBlock with
  | none => .ok (s, -enomem)
  | some _ =>
    let tempBuf := s.heap.next
    let s := { s with heap := s.heap.alloc }
    match copyFromUser userBuf with
    | none => .ok (s, -efault)
    | some bytes =>
      match kstrtol ((bytes ++ [0]).takeWhile (· ≠ 0)) with
      | none => .ok (s, -efault)
      | some value => do
        let s ← kfree tempBuf s
        match kmalloc value newBlock with
        | none => return (s, -enomem)
        | some newBuffer => do
          let s ← moveTo value newBuffer s
          return (s, userBuf.length)

/-- `prname_write`, which frees its block on no exit -/
def prnameWrite (alive : ℤ → Bool) (tempBlock : Option (ℕ → UInt8))
    (userBuf : List (Option UInt8)) (s : State) : Except BlockFault (State × ℤ) := do
  let (prname, ret) ← access (Advanced.prnameWrite kstrtol alive tempBlock userBuf s.prname)
  return ({ s with heap := s.heap.alloc, prname }, ret)

/-- `prname_read` -/
def prnameRead (task : ℤ → Option (List UInt8)) (nameBlock : Option (ℕ → UInt8)) (fPos : ℤ)
    (writable : ℕ) (s : State) : Except BlockFault (State × ReadResult) :=
  match s.prname.lookup with
  | none => .ok (s, ⟨-efault, fPos, []⟩)
  | some procId =>
    match task procId with
    | none => .ok (s, ⟨0, fPos, []⟩)
    | some comm =>
      match kmalloc (comm.length + 1) nameBlock with
      | none => .ok (s, ⟨-enomem, fPos, []⟩)
      | some (_ : List UInt8) =>
        let prnameBuffer := s.heap.next
        let s := { s with heap := s.heap.alloc }
        -- this exit does not free the block
        if (comm.length : ℤ) ≤ fPos then .ok (s, ⟨0, fPos, []⟩)
        else if writable < comm.length then do
          let s ← kfree prnameBuffer s
          return (s, ⟨-efault, fPos, comm.take writable⟩)
        else do
          let s ← kfree prnameBuffer s
          return (s, ⟨comm.length, fPos + comm.length, comm⟩)

/-- `jiffies_read` -/
def jiffiesRead (block : Option (ℕ → UInt8)) (jiffies : ℕ) (fPos : ℤ) (writable : ℕ) (s : State) :
    Except BlockFault (State × ReadResult) :=
  match kmalloc 50 block with
  | none => .ok (s, ⟨-enomem, fPos, []⟩)
  | some buff => do
    let buffBlock := s.heap.next
    let s := { s with heap := s.heap.alloc }
    let buff ← access (sprintf buff (jiffiesText jiffies))
    let toCopy ← access (strlen buff)
    if (toCopy : ℤ) ≤ fPos then
      let s ← kfree buffBlock s
      return (s, ⟨0, fPos, []⟩)
    else if writable < toCopy then
      let s ← kfree buffBlock s
      return (s, ⟨-efault, fPos, buff.take writable⟩)
    else
      let s ← kfree buffBlock s
      return (s, ⟨toCopy, fPos + toCopy, buff.take toCopy⟩)

/-- The calls, with what they find outside the modules. -/
inductive Call where
  | circularProcWrite (tempBlock newBlock : Option (ℕ → UInt8)) (userBuf : List (Option UInt8))
  | prnameWrite (alive : ℤ → Bool) (tempBlock : Option (ℕ → UInt8)) (userBuf : List (Option UInt8))
  | prnameRead (task : ℤ → Option (List UInt8)) (nameBlock : Option (ℕ → UInt8)) (fPos : ℤ)
      (writable : ℕ)
  | jiffiesRead (block : Option (ℕ → UInt8)) (jiffies : ℕ) (fPos : ℤ) (writable : ℕ)

/-- One call. -/
def exec (s : State) : Call → Except BlockFault State
  | .circularProcWrite tempBlock newBlock userBuf =>
    Prod.fst <$> circularProcWrite kstrtol tempBlock newBlock userBuf s
  | .prnameWrite alive tempBlock userBuf =>
    Prod.fst <$> prnameWrite kstrtol alive tempBlock userBuf s
  | .prnameRead task nameBlock fPos writable =>
    Prod.fst <$> prnameRead task nameBlock fPos writable s
  | .jiffiesRead block jiffies fPos writable =>
    Prod.fst <$> jiffiesRead block jiffies fPos writable s

/-- A call that does not fault. -/
def Step (s : State) (c : Call) (t : State) : Prop := exec kstrtol s c = .ok t

end Calls

/-! ### The ledger -/

/-- The only live block is the one of the circular device. -/
def Balanced (s : State) : Prop := s.heap.live = [s.buffer]

/-- Beside the block of the circular device there are `n` live blocks. -/
def Leaves (n : ℕ) (s : State) : Prop := ∃ ps, s.heap.Owns (s.buffer :: ps) ∧ ps.length = n

/-- The call frees its blocks: the text could be copied and is a number, or there is no block for
it; a read of `prname` is not at its end. -/
def frees (kstrtol : List UInt8 → Option ℤ) (s : State) : Call → Bool
  | .circularProcWrite tempBlock _ userBuf =>
    (kmalloc (userBuf.length + 1) tempBlock).isNone ||
      ((copyFromUser userBuf).bind fun bytes =>
        kstrtol ((bytes ++ [0]).takeWhile (· ≠ 0))).isSome
  | .prnameWrite .. => false
  | .prnameRead task nameBlock fPos _ =>
    match s.prname.lookup.bind task with
    | none => true
    | some comm => (kmalloc (comm.length + 1) nameBlock).isNone || decide (fPos < comm.length)
  | .jiffiesRead .. => true

theorem leaves_zero_iff {s : State} : Leaves 0 s ↔ Balanced s := by
  unfold Leaves Balanced
  constructor
  · rintro ⟨ps, howns, hlength⟩
    obtain rfl := List.eq_nil_of_length_eq_zero hlength
    exact List.perm_singleton.1 howns
  · intro h
    exact ⟨[], List.Perm.of_eq h, rfl⟩

/-- With the blocks the call does what it does without them, and leaves `n` of them. -/
def Agrees {α : Type} (n : ℕ) :
    Except BlockFault (State × α) → Except Fault (Device × Prname × α) → Prop
  | .ok (s, a), .ok (d, p, b) => (s.device, s.prname, a) = (d, p, b) ∧ Leaves n s
  | .error (.access e), .error e' => e = e'
  | _, _ => False

section Agrees

variable {kstrtol : List UInt8 → Option ℤ} {n : ℕ} {s : State}

theorem kfree_of_owns {p : ℕ} {ps : List ℕ} (h : s.heap.Owns (p :: ps)) :
    ∃ heap, kfree p s = .ok { s with heap } ∧ heap.Owns ps := by
  obtain ⟨heap, hfree, howns⟩ := h.free
  refine ⟨heap, ?_, howns⟩
  unfold kfree
  rw [hfree]

/-- A call that frees the block it got leaves what there was. -/
theorem Leaves.kfree_alloc (h : Leaves n s) :
    ∃ heap, kfree s.heap.next { s with heap := s.heap.alloc } = .ok { s with heap } ∧
      Leaves n { s with heap } := by
  obtain ⟨ps, howns, hlength⟩ := h
  have halloc : (State.heap { s with heap := s.heap.alloc }).Owns (s.heap.next :: s.buffer :: ps) :=
    howns.alloc
  obtain ⟨heap, hfree, howns'⟩ := kfree_of_owns halloc
  exact ⟨heap, hfree, ps, howns', hlength⟩

/-- A call that does not leaves one more. -/
theorem Leaves.alloc (h : Leaves n s) (prname : Prname) :
    Leaves (n + 1) { s with heap := s.heap.alloc, prname } := by
  obtain ⟨ps, howns, hlength⟩ := h
  refine ⟨s.heap.next :: ps, howns.alloc.perm (List.Perm.swap ..), ?_⟩
  rw [List.length_cons, hlength]

/-- A move frees the old block, and the new one takes its place. -/
theorem agrees_moveTo (h : Leaves n s) (value ret : ℤ) (newBuffer : List UInt8) :
    Agrees n
      (do
        let s ← moveTo value newBuffer s
        return (s, ret))
      ((fun r => (r.1, s.prname, r.2)) <$> do
        let d ← Circular.moveTo value newBuffer s.device
        return (d, ret)) := by
  obtain ⟨ps, howns, hlength⟩ := h
  have halloc : (State.heap { s with heap := s.heap.alloc }).Owns (s.buffer :: s.heap.next :: ps) :=
    howns.alloc.perm (List.Perm.swap ..)
  obtain ⟨heap, hfree, howns'⟩ := kfree_of_owns halloc
  unfold moveTo Circular.moveTo
  dsimp only at hfree ⊢
  cases copyCells s.device.buffer (min value s.device.buffSize).toNat newBuffer with
  | error e => rfl
  | ok newBuffer =>
      simp only [access, Except.mapError, bind, Except.bind, hfree]
      cases remainder s.device.currPosition (value.bmod intCard - 1) with
      | error e => rfl
      | ok currPosition =>
          dsimp only
          cases store newBuffer (value.bmod intCard - 1) 0 with
          | error e => rfl
          | ok buffer => exact ⟨rfl, ps, howns', hlength⟩

theorem agrees_circularProcWrite (h : Leaves n s) (tempBlock newBlock : Option (ℕ → UInt8))
    (userBuf : List (Option UInt8)) :
    Agrees (n + (!frees kstrtol s (.circularProcWrite tempBlock newBlock userBuf)).toNat)
      (circularProcWrite kstrtol tempBlock newBlock userBuf s)
      ((fun r => (r.1, s.prname, r.2)) <$>
        Circular.circularProcWrite kstrtol tempBlock newBlock userBuf s.device) := by
  unfold circularProcWrite Circular.circularProcWrite Circular.readValue frees
  dsimp only
  cases kmalloc (userBuf.length + 1) tempBlock with
  | none => exact ⟨rfl, h⟩
  | some block =>
      dsimp only
      cases copyFromUser userBuf with
      | none => exact ⟨rfl, h.alloc s.prname⟩
      | some bytes =>
          dsimp only [Option.bind_some]
          cases kstrtol ((bytes ++ [0]).takeWhile (· ≠ 0)) with
          | none => exact ⟨rfl, h.alloc s.prname⟩
          | some value =>
              obtain ⟨heap, hfree, hleaves⟩ := h.kfree_alloc
              dsimp only
              rw [hfree]
              cases kmalloc value newBlock with
              | none => exact ⟨rfl, hleaves⟩
              | some newBuffer =>
                  exact agrees_moveTo hleaves value userBuf.length newBuffer

theorem agrees_prnameWrite (h : Leaves n s) (alive : ℤ → Bool) (tempBlock : Option (ℕ → UInt8))
    (userBuf : List (Option UInt8)) :
    Agrees (n + (!frees kstrtol s (.prnameWrite alive tempBlock userBuf)).toNat)
      (prnameWrite kstrtol alive tempBlock userBuf s)
      ((fun r => (s.device, r.1, r.2)) <$>
        Advanced.prnameWrite kstrtol alive tempBlock userBuf s.prname) := by
  unfold prnameWrite
  cases Advanced.prnameWrite kstrtol alive tempBlock userBuf s.prname with
  | error e => rfl
  | ok r => exact ⟨rfl, h.alloc r.1⟩

theorem agrees_prnameRead (h : Leaves n s) (task : ℤ → Option (List UInt8))
    (nameBlock : Option (ℕ → UInt8)) (count : ℕ) (fPos : ℤ) (writable : ℕ) :
    Agrees (n + (!frees kstrtol s (.prnameRead task nameBlock fPos writable)).toNat)
      (prnameRead task nameBlock fPos writable s)
      (.ok (s.device, s.prname,
        Advanced.prnameRead task nameBlock count fPos writable s.prname)) := by
  unfold prnameRead Advanced.prnameRead frees
  dsimp only
  cases s.prname.lookup with
  | none => exact ⟨rfl, h⟩
  | some procId =>
      dsimp only [Option.bind_some]
      cases task procId with
      | none => exact ⟨rfl, h⟩
      | some comm =>
          dsimp only
          cases hblock : kmalloc (comm.length + 1) nameBlock with
          | none => exact ⟨rfl, h⟩
          | some block =>
              obtain ⟨heap, hfree, hleaves⟩ := h.kfree_alloc
              dsimp only
              by_cases hend : (comm.length : ℤ) ≤ fPos
              · rw [if_pos hend, if_pos hend, decide_eq_false (Int.not_lt.2 hend)]
                exact ⟨rfl, h.alloc s.prname⟩
              · rw [if_neg hend, if_neg hend, decide_eq_true (Int.not_le.1 hend), hfree]
                by_cases hwritable : writable < comm.length
                · rw [if_pos hwritable, if_pos hwritable]
                  exact ⟨rfl, hleaves⟩
                · rw [if_neg hwritable, if_neg hwritable]
                  exact ⟨rfl, hleaves⟩

theorem agrees_jiffiesRead (h : Leaves n s) (block : Option (ℕ → UInt8)) (jiffies count : ℕ)
    (fPos : ℤ) (writable : ℕ) :
    Agrees (n + (!frees kstrtol s (.jiffiesRead block jiffies fPos writable)).toNat)
      (jiffiesRead block jiffies fPos writable s)
      ((fun r => (s.device, s.prname, r)) <$>
        Advanced.jiffiesRead block jiffies count fPos writable) := by
  obtain ⟨heap, hfree, hleaves⟩ := h.kfree_alloc
  unfold jiffiesRead Advanced.jiffiesRead
  cases kmalloc 50 block with
  | none => exact ⟨rfl, h⟩
  | some buff =>
      dsimp only
      rw [hfree]
      cases sprintf buff (jiffiesText jiffies) with
      | error e => rfl
      | ok buff =>
          simp only [access, Except.mapError, bind, Except.bind]
          cases strlen buff with
          | error e => rfl
          | ok toCopy =>
              unfold Advanced.readText
              dsimp only
              by_cases hend : (toCopy : ℤ) ≤ fPos
              · rw [if_pos hend, if_pos hend]
                exact ⟨rfl, hleaves⟩
              · rw [if_neg hend, if_neg hend]
                by_cases hwritable : writable < toCopy
                · rw [if_pos hwritable, if_pos hwritable]
                  exact ⟨rfl, hleaves⟩
                · rw [if_neg hwritable, if_neg hwritable]
                  exact ⟨rfl, hleaves⟩

theorem Agrees.result {α : Type} {r : Except BlockFault (State × α)}
    {base : Except Fault (Device × Prname × α)} (h : Agrees n r base) :
    Prod.fst <$> r ≠ .error .notLive ∧ ∀ t, Prod.fst <$> r = .ok t → Leaves n t := by
  cases r with
  | ok r =>
      refine ⟨nofun, fun t ht => ?_⟩
      cases ht
      cases base with
      | error e => exact h.elim
      | ok b => exact h.2
  | error e =>
      cases e with
      | access e => exact ⟨nofun, nofun⟩
      | notLive => exact h.elim

/-- No call frees a block twice, and each one leaves at most one block more. -/
theorem exec_leaves (h : Leaves n s) (c : Call) :
    exec kstrtol s c ≠ .error .notLive ∧
      ∀ t, exec kstrtol s c = .ok t → Leaves (n + (!frees kstrtol s c).toNat) t := by
  cases c with
  | circularProcWrite tempBlock newBlock userBuf =>
      exact (agrees_circularProcWrite h tempBlock newBlock userBuf).result
  | prnameWrite alive tempBlock userBuf =>
      exact (agrees_prnameWrite h alive tempBlock userBuf).result
  | prnameRead task nameBlock fPos writable =>
      exact (agrees_prnameRead h task nameBlock 0 fPos writable).result
  | jiffiesRead block jiffies fPos writable =>
      exact (agrees_jiffiesRead h block jiffies 0 fPos writable).result

end Agrees

/-! ### Runs -/

section Runs

variable {kstrtol : List UInt8 → Option ℤ} {s₀ s : State} {tr : List (State × Call)}

/-- Every call that does not free its block leaves one. -/
theorem leaves_of_run (h₀ : Balanced s₀) (h : Run (Step kstrtol) s₀ tr s) :
    Leaves (tr.countP fun p => !frees kstrtol p.1 p.2) s := by
  induction h with
  | nil => exact leaves_zero_iff.2 h₀
  | @snoc tr s t c _ hs ih =>
      have hleaves := (exec_leaves ih c).2 t hs
      rw [List.countP_append, List.countP_singleton]
      cases hfrees : frees kstrtol s c with
      | true =>
          rw [hfrees] at hleaves
          exact hleaves
      | false =>
          rw [hfrees] at hleaves
          exact hleaves

theorem Balanced.step {c : Call} {t : State} (h : Balanced s) (hc : frees kstrtol s c = true)
    (hs : Step kstrtol s c t) : Balanced t := by
  have hleaves := (exec_leaves (leaves_zero_iff.2 h) c).2 t hs
  rw [hc] at hleaves
  exact leaves_zero_iff.1 hleaves

/-- No call frees a block that is not live; and the block of the circular device is the only one
between the calls exactly when every call of the run frees its own. -/
theorem ledger_iff (h₀ : Balanced s₀) (h : Run (Step kstrtol) s₀ tr s) :
    (∀ c, exec kstrtol s c ≠ .error .notLive) ∧
      s.heap.live.length = 1 + tr.countP (fun p => !frees kstrtol p.1 p.2) ∧
      ((Balanced s ∧ ∀ p ∈ tr, Balanced p.1) ↔ ∀ p ∈ tr, frees kstrtol p.1 p.2 = true) := by
  have hleaves := leaves_of_run h₀ h
  have hlength : s.heap.live.length = 1 + tr.countP (fun p => !frees kstrtol p.1 p.2) := by
    obtain ⟨ps, howns, hps⟩ := hleaves
    rw [List.Perm.length_eq howns, List.length_cons, hps, Nat.add_comm]
  refine ⟨fun c => (exec_leaves hleaves c).1, hlength, ?_, ?_⟩
  · rintro ⟨hbalanced, -⟩ p hp
    rw [show s.heap.live = _ from hbalanced, List.length_singleton] at hlength
    have hzero : tr.countP (fun p => !frees kstrtol p.1 p.2) = 0 := by omega
    have hnot := List.countP_eq_zero.1 hzero p hp
    rwa [Bool.not_eq_true', Bool.not_eq_false] at hnot
  · intro hfrees
    have hstep : ∀ s c t, frees kstrtol s c = true → Balanced s → Step kstrtol s c t → Balanced t :=
      fun _ _ _ hc hb hs => hb.step hc hs
    exact ⟨h.invariant_of hstep hfrees h₀, h.invariant_mem hstep hfrees h₀⟩

end Runs

/-- What `circular_init` leaves. -/
def loaded : State where
  heap := Heap.empty.alloc
  buffer := 0
  device := Circular.toDevice (Circular.initialRing 0)
  prname := {}

theorem balanced_loaded : Balanced loaded := rfl

/-- A read of `/dev/prname` before there is an entry, and a move to five cells. -/
theorem ledger_iff_loaded : ∃ tr s, Run (Step decimalLong) loaded tr s ∧
    tr.map Prod.snd = [.prnameRead (fun _ => none) (some fun _ => 7) 0 10,
      .circularProcWrite (some fun _ => 7) (some fun _ => 7) [some 53]] ∧
    s.heap.live.length = 1 + tr.countP (fun p => !frees decimalLong p.1 p.2) ∧
    ((Balanced s ∧ ∀ p ∈ tr, Balanced p.1) ↔ ∀ p ∈ tr, frees decimalLong p.1 p.2 = true) := by
  obtain ⟨t, hmove⟩ : ∃ t, Step decimalLong loaded
      (.circularProcWrite (some fun _ => 7) (some fun _ => 7) [some 53]) t := ⟨_, rfl⟩
  have hread : Step decimalLong loaded (.prnameRead (fun _ => none) (some fun _ => 7) 0 10)
      loaded := rfl
  have hrun := (Run.nil.snoc hread).snoc hmove
  exact ⟨_, _, hrun, rfl, (ledger_iff balanced_loaded hrun).2⟩

/-- After an entry for process `1`, with `n` blocks left behind. -/
def afterEntry (n : ℕ) : State :=
  { loaded with heap := Heap.alloc^[n] loaded.heap, prname := ⟨1, true⟩ }

/-- An entry, a read behind the name of its process, and a text that cannot be copied, each of which
leaves a block. -/
theorem blocks_left : ∃ tr, Run (Step decimalLong) loaded tr (afterEntry 3) ∧
    tr.map Prod.snd = [.prnameWrite (fun n => n = 1) (some fun _ => 7) [some 49],
      .prnameRead (fun _ => some [105, 110, 105, 116]) (some fun _ => 7) 4 10,
      .circularProcWrite (some fun _ => 7) (some fun _ => 7) [none]] ∧
    ¬ Balanced (afterEntry 3) := by
  have hentry : Step decimalLong loaded
      (.prnameWrite (fun n => n = 1) (some fun _ => 7) [some 49]) (afterEntry 1) := rfl
  have hread : Step decimalLong (afterEntry 1)
      (.prnameRead (fun _ => some [105, 110, 105, 116]) (some fun _ => 7) 4 10) (afterEntry 2) :=
    rfl
  have hwrite : Step decimalLong (afterEntry 2)
      (.circularProcWrite (some fun _ => 7) (some fun _ => 7) [none]) (afterEntry 3) := rfl
  refine ⟨_, ((Run.nil.snoc hentry).snoc hread).snoc hwrite, rfl, ?_⟩
  unfold Balanced
  decide

end Devices
