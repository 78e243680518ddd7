import SystemsProgramming.Classes3.Circular.Calls
import SystemsProgramming.Library.TerminatedRing

/-!
# The sizes of the circular device

Between calls the device is a ring with a terminator: as long as no call moves it to a block of no
cells or of one cell, every call is an operation of the ring, and no access is out of bounds.
-/

namespace Circular

open Memory

/-! ### The device as a ring -/

/-- What holds of the globals between calls. -/
structure Device.Inv (d : Device) : Prop where
  two_le : 2 ≤ d.buffSize
  pos_nonneg : 0 ≤ d.currPosition
  pos_lt : d.currPosition < d.buffSize - 1
  length_eq : (d.buffer.length : ℤ) = d.buffSize
  last : load d.buffer (d.buffSize - 1) = .ok 0

/-- The globals of a device that is the ring `r`. -/
def toDevice (r : TerminatedRing (0 : UInt8)) : Device where
  buffSize := r.cells.length
  currPosition := r.pos
  buffer := r.cells

theorem inv_toDevice (r : TerminatedRing (0 : UInt8)) : (toDevice r).Inv := by
  have htwo := r.two_le
  have hpos := r.pos_lt
  have hlast : r.cells.length - 1 < r.cells.length := by omega
  have hcast : (r.cells.length : ℤ) - 1 = ((r.cells.length - 1 : ℕ) : ℤ) := by omega
  constructor
  · show (2 : ℤ) ≤ r.cells.length
    omega
  · exact Int.natCast_nonneg _
  · show (r.pos : ℤ) < r.cells.length - 1
    omega
  · rfl
  · show load r.cells ((r.cells.length : ℤ) - 1) = .ok 0
    rw [hcast, load_natCast hlast]
    exact congrArg Except.ok (Option.some.inj ((List.getElem?_eq_getElem hlast).symm.trans r.last))

/-- A device with the invariant is a ring. -/
theorem Device.Inv.exists_ring {d : Device} (h : d.Inv) : ∃ r, d = toDevice r := by
  obtain ⟨buffSize, currPosition, buffer⟩ := d
  have hlength : (buffer.length : ℤ) = buffSize := h.length_eq
  have htwo : 2 ≤ buffSize := h.two_le
  have hnonneg : 0 ≤ currPosition := h.pos_nonneg
  have hlt : currPosition < buffSize - 1 := h.pos_lt
  have hi : buffer.length - 1 < buffer.length := by omega
  have hlast : buffer[buffer.length - 1]? = some 0 := by
    have hload : load buffer (buffSize - 1) = .ok 0 := h.last
    rw [show buffSize - 1 = ((buffer.length - 1 : ℕ) : ℤ) by omega, load_natCast hi] at hload
    rw [List.getElem?_eq_getElem hi, Except.ok.inj hload]
  refine ⟨⟨buffer, currPosition.toNat, by omega, hlast⟩, ?_⟩
  unfold toDevice
  rw [Device.mk.injEq]
  exact ⟨hlength.symm, (Int.toNat_of_nonneg hnonneg).symm, rfl⟩

/-! ### The sizes -/

section Sizes

variable (kstrtol : List UInt8 → Option ℤ)

/-- The number for which a call gets a new block. -/
def Call.newSize : Call → Option ℤ
  | .procWrite tempBlock newBlock userBuf => do
    let _ ← kmalloc (userBuf.length + 1) tempBlock
    let bytes ← copyFromUser userBuf
    let value ← kstrtol (bytes.takeWhile (· ≠ 0))
    let _ ← kmalloc value newBlock
    return value
  | _ => none

/-- The new block, if any, has at least two cells. -/
def Call.SizeOk (c : Call) : Prop := c.newSize kstrtol ≠ some 0 ∧ c.newSize kstrtol ≠ some 1

instance (c : Call) : Decidable (c.SizeOk kstrtol) := inferInstanceAs (Decidable (_ ∧ _))

/-- What the new block of a call holds. -/
def Call.contents : Call → ℕ → UInt8
  | .procWrite _ (some f) _ => f
  | _ => fun _ => 0

variable {kstrtol} {tempBlock newBlock : Option (ℕ → UInt8)} {userBuf : List (Option UInt8)} {v : ℤ}

theorem sizeOk_of_none {c : Call} (h : c.newSize kstrtol = none) : c.SizeOk kstrtol := by
  unfold Call.SizeOk
  rw [h]
  exact ⟨(Option.some_ne_none 0).symm, (Option.some_ne_none 1).symm⟩

/-- The NUL that is put behind the bytes ends the string, if no byte does. -/
theorem takeWhile_append_nul (bytes : List UInt8) :
    (bytes ++ [0]).takeWhile (· ≠ 0) = bytes.takeWhile (· ≠ 0) := by
  induction bytes with
  | nil => rfl
  | cons b bytes ih =>
      rw [List.cons_append, List.takeWhile_cons, List.takeWhile_cons, ih]

theorem readValue_eq_ok_iff : readValue kstrtol tempBlock userBuf = .ok v ↔
    ∃ block, kmalloc (userBuf.length + 1) tempBlock = some block ∧
      ∃ bytes, copyFromUser userBuf = some bytes ∧
        kstrtol (bytes.takeWhile (· ≠ 0)) = some v := by
  unfold readValue
  cases hblock : kmalloc (userBuf.length + 1) tempBlock with
  | none => simp
  | some block =>
      cases hbytes : copyFromUser userBuf with
      | none => simp
      | some bytes =>
          dsimp only
          rw [takeWhile_append_nul]
          cases hvalue : kstrtol (bytes.takeWhile (· ≠ 0)) with
          | none => simp only [Option.some.injEq, exists_eq_left', hvalue, reduceCtorEq]
          | some value =>
              simp only [Option.some.injEq, exists_eq_left', hvalue, Except.ok.injEq]

theorem newSize_eq_some_iff :
    (Call.procWrite tempBlock newBlock userBuf).newSize kstrtol = some v ↔
      readValue kstrtol tempBlock userBuf = .ok v ∧
        ∃ block, kmalloc v newBlock = some block := by
  rw [readValue_eq_ok_iff]
  simp only [Call.newSize, Option.bind_eq_bind, Option.pure_def, Option.bind_eq_some_iff,
    Option.some.injEq]
  constructor
  · rintro ⟨block, hblock, bytes, hbytes, value, hvalue, block', hblock', rfl⟩
    exact ⟨⟨block, hblock, bytes, hbytes, hvalue⟩, block', hblock'⟩
  · rintro ⟨⟨block, hblock, bytes, hbytes, hvalue⟩, block', hblock'⟩
    exact ⟨block, hblock, bytes, hbytes, v, hvalue, block', hblock', rfl⟩

/-- The errors of `readValue` are negative. -/
theorem readValue_error {e : ℤ} (h : readValue kstrtol tempBlock userBuf = .error e) : e < 0 := by
  unfold readValue at h
  split at h
  · cases h
    decide
  · split at h
    · cases h
      decide
    · split at h
      · cases h
        decide
      · cases h

/-- A call that gets no new block fails, and leaves the device as it is. -/
theorem circularProcWrite_of_none
    (h : (Call.procWrite tempBlock newBlock userBuf).newSize kstrtol = none) (d : Device) :
    ∃ e < 0, circularProcWrite kstrtol tempBlock newBlock userBuf d = .ok (d, e) := by
  unfold circularProcWrite
  split
  · next e he => exact ⟨e, readValue_error he, rfl⟩
  · next value hvalue =>
      split
      · exact ⟨-enomem, by decide, rfl⟩
      · next block hblock =>
          have hsize := newSize_eq_some_iff.2 ⟨hvalue, block, hblock⟩
          exact absurd (h.symm.trans hsize) (Option.some_ne_none _).symm

/-- The new block of a call, with its contents. -/
theorem circularProcWrite_of_some
    (h : (Call.procWrite tempBlock newBlock userBuf).newSize kstrtol = some v) (d : Device) :
    0 ≤ v ∧ v.toNat ≤ intMax ∧ circularProcWrite kstrtol tempBlock newBlock userBuf d =
      (moveTo v
        ((List.range v.toNat).map (Call.procWrite tempBlock newBlock userBuf).contents) d).map
          fun d => (d, (userBuf.length : ℤ)) := by
  obtain ⟨hvalue, block, hblock⟩ := newSize_eq_some_iff.1 h
  obtain ⟨hnonneg, hle, f, rfl, rfl⟩ := kmalloc_eq_some hblock
  refine ⟨hnonneg, hle, ?_⟩
  unfold circularProcWrite
  rw [hvalue]
  simp only [hblock]
  rfl

/-! ### Moving the ring -/

/-- Before it sets the size, the call copies the cells that both blocks have. -/
theorem copyCells_moved (r : TerminatedRing (0 : UInt8)) (block : List UInt8) :
    copyCells r.cells (min (block.length : ℤ) r.cells.length).toNat block =
      .ok (r.moved block) := by
  have hmin : (min (block.length : ℤ) r.cells.length).toNat =
      min block.length r.cells.length := by omega
  rw [hmin, copyCells_eq (Nat.min_le_right _ _) (Nat.min_le_left _ _)]
  unfold TerminatedRing.moved
  rcases Nat.le_total block.length r.cells.length with h | h
  · rw [Nat.min_eq_left h, List.drop_eq_nil_of_le (le_refl _), List.drop_eq_nil_of_le h]
  · rw [Nat.min_eq_right h, List.take_of_length_le (le_refl _), List.take_of_length_le h]

/-- A block of at least two cells takes the ring. -/
theorem moveTo_toDevice (r : TerminatedRing (0 : UInt8)) (block : List UInt8)
    (h : 2 ≤ block.length) (hle : block.length ≤ intMax) :
    moveTo block.length block (toDevice r) = .ok (toDevice (r.resize block h)) := by
  have hcast : (block.length : ℤ) - 1 = ((block.length - 1 : ℕ) : ℤ) := by omega
  have hstore : store (r.moved block) ((block.length : ℤ) - 1) 0 =
      .ok (r.resize block h).cells := by
    rw [hcast]
    exact store_natCast (by rw [TerminatedRing.length_moved]; omega) 0
  have hpos : remainder r.pos ((block.length : ℤ) - 1) =
      .ok ((r.resize block h).pos : ℤ) := by
    rw [hcast]
    exact remainder_natCast _ (by omega)
  unfold moveTo toDevice
  dsimp only
  rw [copyCells_moved, bmod_intCard_natCast hle]
  simp only [bind, Except.bind, pure, Except.pure, hpos, hstore, TerminatedRing.length_resize]

/-- A block of no cells gets its terminator before its first cell. -/
theorem moveTo_zero (r : TerminatedRing (0 : UInt8)) :
    moveTo 0 [] (toDevice r) = .error .outOfBounds := by
  have hmoved : copyCells r.cells (min 0 (r.cells.length : ℤ)).toNat [] = .ok [] := by
    have h : (min 0 (r.cells.length : ℤ)).toNat = 0 := by omega
    rw [h]
    rfl
  have hrem : remainder (r.pos : ℤ) (Int.bmod 0 intCard - 1) = .ok 0 := by
    show Except.ok ((r.pos : ℤ).tmod (-1)) = _
    rw [Int.tmod_neg, Int.tmod_one]
  unfold moveTo toDevice
  dsimp only
  rw [hmoved]
  simp only [bind, Except.bind, hrem]
  rfl

/-- A block of one cell has no cell but the terminator's. -/
theorem moveTo_one (r : TerminatedRing (0 : UInt8)) (b : UInt8) :
    moveTo 1 [b] (toDevice r) = .error .divByZero := by
  have hmoved := copyCells_moved r [b]
  have hrem : remainder (r.pos : ℤ) (Int.bmod 1 intCard - 1) = .error .divByZero := rfl
  unfold moveTo toDevice
  dsimp only
  simp only [List.length_singleton, Nat.cast_one] at hmoved
  rw [hmoved]
  rfl

/-! ### The calls on the ring -/

section Ring

variable {α : Type*} {z : α} (cell : UInt8 → α)

/-- A write puts the bytes into the ring, up to the first one that cannot be read. -/
def ringWrite : List (Option UInt8) → TerminatedRing z → TerminatedRing z
  | [], r => r
  | none :: _, r => r.mark (cell 0)
  | some b :: userBuf, r => ringWrite userBuf (r.put (cell b))

/-- A call on the ring; the cells of a new block hold `contents`. -/
def ringStep (kstrtol : List UInt8 → Option ℤ) (contents : Call → ℕ → α) (r : TerminatedRing z)
    (c : Call) : TerminatedRing z :=
  match c with
  | .write userBuf => ringWrite cell userBuf r
  | .read .. => r
  | .procWrite .. =>
    match c.newSize kstrtol with
    | none => r
    | some v =>
      if h : 2 ≤ ((List.range v.toNat).map (contents c)).length then r.resize _ h else r

end Ring

section OfRing

variable {z : UInt8}

/-- The globals of a device whose block is `r`, whatever its last cell holds. -/
def ofRing (r : TerminatedRing z) : Device where
  buffSize := r.cells.length
  currPosition := r.pos
  buffer := r.cells

theorem store_pos (r : TerminatedRing z) (b : UInt8) :
    store (ofRing r).buffer (ofRing r).currPosition b = .ok (r.mark b).cells :=
  store_natCast (lt_trans (Nat.lt_succ_self _) r.pos_lt) b

/-- The last cell is at the size less one, which is not below zero. -/
theorem buffSize_sub_one (r : TerminatedRing z) :
    (ofRing r).buffSize - 1 = ((r.cells.length - 1 : ℕ) : ℤ) := by
  have htwo := r.two_le
  show (r.cells.length : ℤ) - 1 = _
  omega

theorem remainder_pos (r : TerminatedRing z) (b : UInt8) :
    remainder ((ofRing r).currPosition + 1) ((ofRing r).buffSize - 1) =
      .ok ((r.put b).pos : ℤ) := by
  have htwo := r.two_le
  rw [buffSize_sub_one]
  exact remainder_natCast (r.pos + 1) (by omega)

theorem ofRing_mark (r : TerminatedRing z) (b : UInt8) :
    { ofRing r with buffer := (r.mark b).cells } = ofRing (r.mark b) := by
  unfold ofRing
  rw [TerminatedRing.length_mark]
  rfl

theorem ofRing_put (r : TerminatedRing z) (b : UInt8) :
    { ofRing r with buffer := (r.mark b).cells, currPosition := (r.put b).pos } =
      ofRing (r.put b) := by
  unfold ofRing
  rw [TerminatedRing.length_put]
  rfl

/-- The loop of a write never leaves the ring. -/
theorem writeLoop_ofRing (userBuf : List (Option UInt8)) (r : TerminatedRing z) :
    writeLoop userBuf (ofRing r) =
      .ok (ofRing (ringWrite id userBuf r), userBuf.any Option.isNone) := by
  induction userBuf generalizing r with
  | nil => rfl
  | cons o userBuf ih =>
      unfold writeLoop
      cases o with
      | none =>
          simp only [store_pos, bind, Except.bind, pure, Except.pure, ofRing_mark]
          rfl
      | some b =>
          simp only [store_pos, remainder_pos r b, bind, Except.bind, ofRing_put, ih]
          rfl

end OfRing

theorem exec_write_of_ok {userBuf : List (Option UInt8)} {d d' : Device} {fault : Bool}
    (h : writeLoop userBuf d = .ok (d', fault)) :
    exec kstrtol (.write userBuf) d =
      .ok (d', { ret := if fault then -efault else userBuf.length }) := by
  unfold exec circularWrite
  simp only [h, bind, Except.bind, pure, Except.pure]

theorem exec_procWrite_of_ok {d d' : Device} {ret : ℤ}
    (h : circularProcWrite kstrtol tempBlock newBlock userBuf d = .ok (d', ret)) :
    exec kstrtol (.procWrite tempBlock newBlock userBuf) d = .ok (d', { ret }) := by
  unfold exec
  simp only [h, bind, Except.bind, pure, Except.pure]

theorem exec_procWrite_of_error {d : Device} {e : Fault}
    (h : circularProcWrite kstrtol tempBlock newBlock userBuf d = .error e) :
    exec kstrtol (.procWrite tempBlock newBlock userBuf) d = .error e := by
  unfold exec
  simp only [h, bind, Except.bind]

/-- What a read finds. -/
def ringRead (fPos : ℤ) (writable : ℕ) (r : TerminatedRing (0 : UInt8)) : Answer :=
  let result := readString fPos writable r.cells (r.cells.findIdx (· = 0))
  { ret := result.ret, delivered := result.delivered }

theorem exec_read (count : ℕ) (fPos : ℤ) (writable : ℕ) (r : TerminatedRing (0 : UInt8)) :
    exec kstrtol (.read count fPos writable) (toDevice r) =
      .ok (toDevice r, ringRead fPos writable r) := by
  unfold exec circularRead
  simp only [show (toDevice r).buffer = r.cells from rfl, strlen_eq r.mem_cells, bind, Except.bind,
    pure, Except.pure]
  rfl

/-- A call with an accepted size is the call on the ring. -/
theorem exec_toDevice {c : Call} (hc : c.SizeOk kstrtol) (r : TerminatedRing (0 : UInt8)) :
    ∃ a, exec kstrtol c (toDevice r) =
      .ok (toDevice (ringStep id kstrtol Call.contents r c), a) := by
  cases c with
  | write userBuf => exact ⟨_, exec_write_of_ok (writeLoop_ofRing userBuf r)⟩
  | read count fPos writable => exact ⟨_, exec_read count fPos writable r⟩
  | procWrite tempBlock newBlock userBuf =>
      cases hsize : (Call.procWrite tempBlock newBlock userBuf).newSize kstrtol with
      | none =>
          obtain ⟨e, -, he⟩ := circularProcWrite_of_none hsize (toDevice r)
          rw [ringStep, hsize]
          exact ⟨_, exec_procWrite_of_ok he⟩
      | some v =>
          obtain ⟨hnonneg, hle, he⟩ := circularProcWrite_of_some hsize (toDevice r)
          have hne : v ≠ 0 ∧ v ≠ 1 :=
            ⟨fun h => hc.1 (h ▸ hsize), fun h => hc.2 (h ▸ hsize)⟩
          have hlength : ((List.range v.toNat).map
              (Call.procWrite tempBlock newBlock userBuf).contents).length = v.toNat := by
            rw [List.length_map, List.length_range]
          have htwo : 2 ≤ ((List.range v.toNat).map
              (Call.procWrite tempBlock newBlock userBuf).contents).length := by omega
          have hmove := moveTo_toDevice r _ htwo (hlength.trans_le hle)
          rw [hlength, Int.toNat_of_nonneg hnonneg] at hmove
          rw [hmove] at he
          rw [ringStep, hsize]
          dsimp only
          rw [dif_pos htwo]
          exact ⟨_, exec_procWrite_of_ok he⟩

/-- A call with another size faults. -/
theorem exec_fault {c : Call} (hc : ¬ c.SizeOk kstrtol) (r : TerminatedRing (0 : UInt8)) :
    ∃ e, exec kstrtol c (toDevice r) = .error e := by
  cases c with
  | write userBuf => exact absurd (sizeOk_of_none rfl) hc
  | read count fPos writable => exact absurd (sizeOk_of_none rfl) hc
  | procWrite tempBlock newBlock userBuf =>
      rcases not_and_or.1 hc with h | h
      · have hsize := not_not.1 h
        obtain ⟨-, -, he⟩ := circularProcWrite_of_some hsize (toDevice r)
        rw [Int.toNat_zero, List.range_zero, List.map_nil, moveTo_zero] at he
        exact ⟨_, exec_procWrite_of_error he⟩
      · have hsize := not_not.1 h
        obtain ⟨-, -, he⟩ := circularProcWrite_of_some hsize (toDevice r)
        rw [Int.toNat_one, List.range_one, List.map_singleton, moveTo_one] at he
        exact ⟨_, exec_procWrite_of_error he⟩

/-! ### Runs -/

/-- The ring of `circular_init`: every cell holds the terminator. -/
def initialRing {α : Type*} (z : α) : TerminatedRing z where
  cells := List.replicate initialSize z
  pos := 0
  pos_lt := by
    rw [List.length_replicate]
    decide
  last := by
    rw [List.length_replicate, List.getElem?_replicate_of_lt (by decide)]

theorem circularInit_eq {procEntry : Bool} {registered ret : ℤ} {contents : Option (ℕ → UInt8)}
    {d : Device} (h : circularInit procEntry registered contents = .ok (ret, some d)) :
    d = toDevice (initialRing 0) := by
  cases procEntry with
  | false => cases h
  | true =>
      unfold circularInit at h
      cases hblock : kmalloc (initialSize : ℤ) contents with
      | none =>
          rw [hblock] at h
          cases h
      | some buffer =>
          obtain ⟨-, -, f, -, hbuffer⟩ := kmalloc_eq_some hblock
          have hlength : buffer.length = initialSize := by
            rw [hbuffer, List.length_map, List.length_range, Int.toNat_natCast]
          have hfill : fillCells 0 initialSize buffer = .ok (initialRing 0).cells := by
            rw [fillCells_eq hlength.ge, List.drop_eq_nil_of_le hlength.le, List.append_nil]
            rfl
          rw [hblock] at h
          simp only [hfill, bind, Except.bind, pure, Except.pure] at h
          cases h
          rfl

theorem run_toDevice {cs : List Call} (h : ∀ c ∈ cs, c.SizeOk kstrtol)
    (r : TerminatedRing (0 : UInt8)) :
    run kstrtol cs (toDevice r) =
      .ok (toDevice (cs.foldl (ringStep id kstrtol Call.contents) r)) := by
  induction cs generalizing r with
  | nil => rfl
  | cons c cs ih =>
      obtain ⟨hc, hcs⟩ := List.forall_mem_cons.1 h
      obtain ⟨a, ha⟩ := exec_toDevice hc r
      unfold run
      simp only [ha, bind, Except.bind]
      exact ih hcs _

theorem run_fault {cs : List Call} (h : ∃ c ∈ cs, ¬ c.SizeOk kstrtol)
    (r : TerminatedRing (0 : UInt8)) : ∃ e, run kstrtol cs (toDevice r) = .error e := by
  induction cs generalizing r with
  | nil => exact absurd h (by simp)
  | cons c cs ih =>
      unfold run
      by_cases hc : c.SizeOk kstrtol
      · obtain ⟨a, ha⟩ := exec_toDevice hc r
        obtain ⟨c', hmem, hc'⟩ := h
        have hne : c' ≠ c := fun h => hc' (h ▸ hc)
        have hcs : ∃ c ∈ cs, ¬ c.SizeOk kstrtol :=
          ⟨c', (List.mem_cons.1 hmem).resolve_left hne, hc'⟩
        simp only [ha, bind, Except.bind]
        exact ih hcs _
      · obtain ⟨e, he⟩ := exec_fault hc r
        exact ⟨e, by simp only [he, bind, Except.bind]⟩

variable (kstrtol) in
/-- No call faults, and after every call the invariant holds. -/
def Safe (d : Device) (cs : List Call) : Prop :=
  ∀ cs', cs' <+: cs → ∃ d', run kstrtol cs' d = .ok d' ∧ d'.Inv

/-- The calls are safe exactly when none of them moves the device to a block of no cells or of one
cell. -/
theorem calls_safe_iff {procEntry : Bool} {registered ret : ℤ} {contents : Option (ℕ → UInt8)}
    {d : Device} (h : circularInit procEntry registered contents = .ok (ret, some d))
    (cs : List Call) : Safe kstrtol d cs ↔ ∀ c ∈ cs, c.SizeOk kstrtol := by
  rw [circularInit_eq h]
  constructor
  · intro hsafe
    by_contra hcs
    push Not at hcs
    obtain ⟨e, he⟩ := run_fault hcs (initialRing 0)
    obtain ⟨d', hd', -⟩ := hsafe cs List.prefix_rfl
    rw [he] at hd'
    cases hd'
  · intro hcs cs' hsub
    exact ⟨_, run_toDevice (fun c hc => hcs c (hsub.subset hc)) _, inv_toDevice _⟩

theorem calls_safe_iff_grown : ∃ d, circularInit true 0 (some fun _ => 7) = .ok (0, some d) ∧
    Safe decimalLong d [.write [some 65, none], .procWrite (some fun _ => 7) (some fun _ => 7)
      [some 50, some 48], .read 100 0 100] := by
  have hinit : circularInit true 0 (some fun _ => 7) =
      .ok (0, some (toDevice (initialRing 0))) := by decide
  exact ⟨_, hinit, (calls_safe_iff hinit _).2 (by decide)⟩

/-- The texts `0` and `1` are accepted. -/
theorem smallest_sizes_fault : ∃ d, circularInit true 0 (some fun _ => 7) = .ok (0, some d) ∧
    ¬ Safe decimalLong d [.procWrite (some fun _ => 7) (some fun _ => 7) [some 48]] ∧
    ¬ Safe decimalLong d [.procWrite (some fun _ => 7) (some fun _ => 7) [some 49]] := by
  refine ⟨toDevice (initialRing 0), by decide, fun h => ?_, fun h => ?_⟩
  · obtain ⟨d', hd', -⟩ := h _ List.prefix_rfl
    have hfault : run decimalLong [.procWrite (some fun _ => 7) (some fun _ => 7) [some 48]]
        (toDevice (initialRing 0)) = .error .outOfBounds := by decide
    rw [hfault] at hd'
    cases hd'
  · obtain ⟨d', hd', -⟩ := h _ List.prefix_rfl
    have hfault : run decimalLong [.procWrite (some fun _ => 7) (some fun _ => 7) [some 49]]
        (toDevice (initialRing 0)) = .error .divByZero := by decide
    rw [hfault] at hd'
    cases hd'

end Sizes

end Circular
