import SystemsProgramming.Classes6.Calls

/-!
# The names of the processes

`kernelps` copies the names to the buffers of the user, one after the other, until there is no
process or no buffer left (`kernelps_protocol`).  The copies leave out the terminators: a buffer
holds its name as a string exactly when the byte behind it was zero (`names_terminated_iff`).
-/

namespace LabSyscalls

open Memory

/-! ### The array of the user -/

/-- A buffer of the user. -/
structure Buffer where
  addr : ℕ
  size : ℕ

/-- The addresses of the buffer. -/
def Buffer.cells (b : Buffer) : Set ℕ := Set.Ico b.addr (b.addr + b.size)

/-- The buffers are not `NULL`, apart from each other, and can be written. -/
structure UserArray (m : UserMemory) (bufs : List Buffer) : Prop where
  nonNull : ∀ b ∈ bufs, b.addr ≠ 0
  writable : ∀ b ∈ bufs, ∀ a ∈ b.cells, m.writable a = true
  disjoint : bufs.Pairwise fun b c => ∀ a ∈ b.cells, a ∉ c.cells

/-- The array with the terminator that `kernelps` looks for. -/
def addrsOf (bufs : List Buffer) : List ℕ := bufs.map Buffer.addr ++ [0]

/-- Every name fits in its buffer. -/
def Fits (l : List (Process × Buffer)) : Prop := ∀ p ∈ l, p.1.comm.length ≤ p.2.size

/-- The memory with the names in their buffers. -/
def deliver (m : UserMemory) (l : List (Process × Buffer)) : UserMemory :=
  l.foldl (fun m p => m.write p.2.addr p.1.comm) m

/-- The addresses that the copy of the name goes to. -/
def nameCells (p : Process × Buffer) : Set ℕ := Set.Ico p.2.addr (p.2.addr + p.1.comm.length)

section Deliver

variable {m : UserMemory} {l : List (Process × Buffer)} {ps : List Process} {bufs : List Buffer}

theorem nameCells_subset {p : Process × Buffer} (h : p.1.comm.length ≤ p.2.size) :
    nameCells p ⊆ p.2.cells :=
  fun _ ha => ⟨ha.1, ha.2.trans_le (Nat.add_le_add_left h _)⟩

theorem pairwise_zip {R : Buffer → Buffer → Prop} (h : bufs.Pairwise R) :
    (ps.zip bufs).Pairwise fun p q => R p.2 q.2 := by
  induction ps generalizing bufs with
  | nil => exact List.Pairwise.nil
  | cons p ps ih =>
      cases h with
      | nil => exact List.Pairwise.nil
      | cons hb hbufs =>
          exact List.Pairwise.cons (fun q hq => hb _ (List.of_mem_zip hq).2) (ih hbufs)

/-- The names go nowhere else. -/
theorem deliver_bytes_of_notMem {a : ℕ} (h : ∀ p ∈ l, a ∉ nameCells p) :
    (deliver m l).bytes a = m.bytes a := by
  induction l generalizing m with
  | nil => rfl
  | cons p l ih =>
      rw [List.forall_mem_cons] at h
      show (deliver (m.write p.2.addr p.1.comm) l).bytes a = _
      rw [ih h.2]
      exact UserMemory.write_bytes_of_notMem h.1

/-- A buffer has what the copy of its name leaves there. -/
theorem deliver_bytes {p : Process × Buffer} (hp : p ∈ l) (hfits : Fits l)
    (hl : l.Pairwise fun p q => ∀ a ∈ p.2.cells, a ∉ q.2.cells) {a : ℕ} (ha : a ∈ p.2.cells) :
    (deliver m l).bytes a = (m.write p.2.addr p.1.comm).bytes a := by
  induction l generalizing m with
  | nil => cases hp
  | cons q l ih =>
      obtain ⟨hq, hl⟩ := List.pairwise_cons.1 hl
      obtain ⟨hfirst, hrest⟩ := List.forall_mem_cons.1 hfits
      show (deliver (m.write q.2.addr q.1.comm) l).bytes a = _
      rcases List.mem_cons.1 hp with rfl | hp
      · apply deliver_bytes_of_notMem
        intro r hr hmem
        exact hq r hr a ha (nameCells_subset (hrest r hr) hmem)
      · rw [ih hp hrest hl]
        apply UserMemory.write_bytes_congr
        apply UserMemory.write_bytes_of_notMem
        intro hmem
        exact hq p hp a (nameCells_subset hfirst hmem) ha

theorem UserArray.write (h : UserArray m bufs) (dst : ℕ) (src : List UInt8) :
    UserArray (m.write dst src) bufs := ⟨h.nonNull, h.writable, h.disjoint⟩

theorem UserArray.tail {b : Buffer} (h : UserArray m (b :: bufs)) : UserArray m bufs :=
  ⟨fun c hc => h.nonNull c (List.mem_cons_of_mem _ hc),
    fun c hc => h.writable c (List.mem_cons_of_mem _ hc), (List.pairwise_cons.1 h.disjoint).2⟩

end Deliver

/-! ### `kernelps` -/

/-- The loop delivers the names while there are buffers. -/
theorem kernelpsLoop_eq {ps : List Process} {bufs : List Buffer} {addrs : List ℕ} {iter : ℕ}
    {s : NamesState} (haddrs : addrs.drop iter = addrsOf bufs) (h : UserArray s.mem bufs)
    (hfits : Fits (ps.zip bufs)) :
    kernelpsLoop (some addrs) ps iter s =
      .ok (if ps.length ≤ bufs.length then 0 else -efault,
        { psCount := s.psCount + min ps.length (bufs.length + 1)
          mem := deliver s.mem (ps.zip bufs)
          readers := s.readers - 1 }) := by
  induction ps generalizing bufs iter s with
  | nil =>
      rw [kernelpsLoop, List.length_nil, Nat.zero_min, if_pos (Nat.zero_le _)]
      rfl
  | cons p ps ih =>
      cases bufs with
      | nil =>
          have hload : load addrs iter = .ok 0 := load_of_drop haddrs
          have hmin : min (p :: ps).length (([] : List Buffer).length + 1) = 1 := by simp
          rw [kernelpsLoop]
          dsimp only
          rw [hload, hmin, if_neg (by simp)]
          rfl
      | cons b bufs =>
          have hload : load addrs iter = .ok b.addr := load_of_drop haddrs
          obtain ⟨hfirst, hrest⟩ := List.forall_mem_cons.1 hfits
          have hcells : ∀ a ∈ nameCells (p, b), s.mem.writable a = true := fun a ha =>
            h.writable b (List.mem_cons_self ..) a (nameCells_subset hfirst ha)
          have hdrop : addrs.drop (iter + 1) = addrsOf bufs := by
            rw [← List.drop_drop, haddrs]
            rfl
          have hmin : min (p :: ps).length ((b :: bufs).length + 1) =
              1 + min ps.length (bufs.length + 1) := by
            rw [List.length_cons, List.length_cons]
            omega
          have hle : (p :: ps).length ≤ (b :: bufs).length ↔ ps.length ≤ bufs.length :=
            Nat.succ_le_succ_iff
          rw [kernelpsLoop]
          dsimp only
          rw [hload, hmin, if_congr hle rfl rfl, ← Nat.add_assoc]
          show (if b.addr = 0 then _ else _) = _
          rw [if_neg (h.nonNull b (List.mem_cons_self ..)), UserMemory.copyToUser_eq hcells]
          exact ih hdrop (h.tail.write _ _) hrest

theorem kernelpsLoop_none (ps : List Process) (iter : ℕ) (s : NamesState) :
    kernelpsLoop none ps iter s =
      .ok (0, { s with psCount := s.psCount + ps.length, readers := s.readers - 1 }) := by
  induction ps generalizing s with
  | nil => rfl
  | cons p ps ih =>
      rw [kernelpsLoop, List.length_cons, Nat.add_comm ps.length, ← Nat.add_assoc]
      exact ih _

/-- What `kernelps` leaves behind. -/
theorem kernelps_eq {ps : List Process} {bufs : List Buffer} {s : NamesState}
    (h : UserArray s.mem bufs) (hfits : Fits (ps.zip bufs)) :
    kernelps ps (some (addrsOf bufs)) s =
      .ok (if ps.length ≤ bufs.length then 0 else -efault,
        { psCount := min ps.length (bufs.length + 1)
          mem := deliver s.mem (ps.zip bufs)
          readers := s.readers }) := by
  have hloop := kernelpsLoop_eq (s := { s with psCount := 0 }.readLock) (List.drop_zero) h hfits
  unfold kernelps
  rw [hloop]
  show Except.ok (_, { psCount := 0 + _, mem := _, readers := _ : NamesState }) = _
  rw [Nat.zero_add]
  rfl

/-- What a call with an array should do. -/
structure NamesListed (ps : List Process) (bufs : List Buffer) (s : NamesState) (ret : ℤ)
    (t : NamesState) : Prop where
  ret_iff : ret = 0 ↔ ps.length ≤ bufs.length
  all : ps.length ≤ bufs.length → t.psCount = ps.length
  tooMany : bufs.length < ps.length → ret = -efault ∧ t.psCount = bufs.length + 1
  /-- a process and its buffer are at the same place, as far as both lists go -/
  names : ∀ p ∈ ps.zip bufs, ∀ i (h : i < p.1.comm.length), t.mem.bytes (p.2.addr + i) = p.1.comm[i]
  others : ∀ a, (∀ p ∈ ps.zip bufs, a ∉ nameCells p) → t.mem.bytes a = s.mem.bytes a
  released : t.readers = s.readers

theorem namesListed_kernelps {ps : List Process} {bufs : List Buffer} {s : NamesState}
    (h : UserArray s.mem bufs) (hfits : Fits (ps.zip bufs)) :
    ∃ ret t, kernelps ps (some (addrsOf bufs)) s = .ok (ret, t) ∧
      NamesListed ps bufs s ret t := by
  refine ⟨_, _, kernelps_eq h hfits, ?_⟩
  constructor
  · by_cases hle : ps.length ≤ bufs.length
    · rw [if_pos hle]
      exact iff_of_true rfl hle
    · rw [if_neg hle]
      exact iff_of_false (by decide) hle
  · intro hle
    exact Nat.min_eq_left (by omega)
  · intro hlt
    rw [if_neg (by omega)]
    exact ⟨rfl, Nat.min_eq_right hlt⟩
  · intro p hp i hi
    have hcell : p.2.addr + i ∈ p.2.cells :=
      nameCells_subset (hfits p hp) ⟨Nat.le_add_right .., Nat.add_lt_add_left hi _⟩
    rw [deliver_bytes hp hfits (pairwise_zip h.disjoint) hcell]
    exact UserMemory.write_bytes_add hi
  · exact fun a ha => deliver_bytes_of_notMem ha
  · rfl

/-- Without an array `kernelps` counts the processes; with one it delivers the names as far as there
are buffers, and as many buffers as it has counted are enough. -/
theorem kernelps_protocol (ps : List Process) (s : NamesState) :
    ∃ t₀, kernelps ps none s = .ok (0, t₀) ∧ t₀.psCount = ps.length ∧ t₀.mem = s.mem ∧
      t₀.readers = s.readers ∧
      ∀ bufs, UserArray s.mem bufs → Fits (ps.zip bufs) →
        ∃ ret t, kernelps ps (some (addrsOf bufs)) s = .ok (ret, t) ∧
          NamesListed ps bufs s ret t ∧ (t₀.psCount ≤ bufs.length → ret = 0) := by
  refine ⟨_, kernelpsLoop_none .., Nat.zero_add _, rfl, rfl, fun bufs h hfits => ?_⟩
  obtain ⟨ret, t, hcall, ht⟩ := namesListed_kernelps h hfits
  refine ⟨ret, t, hcall, ht, fun hle => ht.ret_iff.2 ?_⟩
  exact (Nat.zero_add ps.length).symm.trans_le hle

/-- Three processes for two buffers. -/
def threeProcesses : List Process := [{ comm := [97] }, { comm := [98, 99] }, { comm := [100] }]

/-- Two buffers. -/
def twoBuffers : List Buffer := [⟨100, 16⟩, ⟨200, 16⟩]

theorem userArray_twoBuffers (bytes : ℕ → UInt8) : UserArray ⟨bytes, fun _ => true⟩ twoBuffers := by
  have hapart : ∀ a ∈ Buffer.cells ⟨100, 16⟩, a ∉ Buffer.cells ⟨200, 16⟩ := fun a ha hb =>
    absurd (hb.1.trans_lt ha.2) (by decide)
  exact ⟨by decide, fun _ _ _ _ => rfl, List.pairwise_pair.2 hapart⟩

theorem kernelps_protocol_three : ∃ ret t,
    kernelps threeProcesses (some (addrsOf twoBuffers)) ⟨0, ⟨fun _ => 65, fun _ => true⟩, 4⟩ =
      .ok (ret, t) ∧ ret = -efault ∧ t.psCount = 3 ∧ t.mem.bytes 201 = 99 ∧ t.readers = 4 := by
  obtain ⟨t₀, -, -, -, -, h⟩ :=
    kernelps_protocol threeProcesses ⟨0, ⟨fun _ => 65, fun _ => true⟩, 4⟩
  have hfits : ∀ p ∈ threeProcesses.zip twoBuffers, p.1.comm.length ≤ p.2.size := by decide
  obtain ⟨ret, t, hcall, ht, -⟩ := h twoBuffers (userArray_twoBuffers _) hfits
  obtain ⟨hret, hcount⟩ := ht.tooMany (by decide)
  have hsecond : ({ comm := [98, 99] }, ⟨200, 16⟩) ∈ threeProcesses.zip twoBuffers :=
    .tail _ (.head _)
  exact ⟨ret, t, hcall, hret, hcount, ht.names _ hsecond 1 (by decide), ht.released⟩

/-! ### Strings -/

/-- Every name that `kernelps` reports is a string in its buffer. -/
def NamesTerminated (ps : List Process) (bufs : List Buffer) (s : NamesState) : Prop :=
  ∀ t, kernelps ps (some (addrsOf bufs)) s = .ok (0, t) → ∀ i < t.psCount,
    ∃ p b, ps[i]? = some p ∧ bufs[i]? = some b ∧ t.mem.StringAt b.addr p.comm

/-- The name that `pidtoname` finds is a string in the buffer. -/
def NameTerminated (task : ℤ → Option Process) (procId : ℤ) (procName : ℕ) (m : UserMemory) :
    Prop :=
  ∀ m', pidtoname task procId procName m = (0, m') →
    ∃ p, task procId = some p ∧ m'.StringAt procName p.comm

/-- The name is a string in its buffer exactly when the byte behind it was zero. -/
theorem stringAt_deliver_iff {m : UserMemory} {l : List (Process × Buffer)} {p : Process × Buffer}
    (hp : p ∈ l) (hfits : Fits l) (hl : l.Pairwise fun p q => ∀ a ∈ p.2.cells, a ∉ q.2.cells)
    (hsize : taskCommLen ≤ p.2.size) :
    (deliver m l).StringAt p.2.addr p.1.comm ↔ m.bytes (p.2.addr + p.1.comm.length) = 0 := by
  have hlength := p.1.length_lt
  have hcell : ∀ i ≤ p.1.comm.length, (deliver m l).bytes (p.2.addr + i) =
      (m.write p.2.addr p.1.comm).bytes (p.2.addr + i) := by
    intro i hi
    apply deliver_bytes hp hfits hl
    exact ⟨Nat.le_add_right .., by omega⟩
  rw [← UserMemory.stringAt_write_iff p.1.nul_notMem]
  unfold UserMemory.StringAt
  rw [hcell _ le_rfl]
  apply and_congr_right'
  apply and_congr_left'
  refine forall_congr' fun i => forall_congr' fun hi => ?_
  rw [hcell i hi.le]

theorem fits_of_size {ps : List Process} {bufs : List Buffer}
    (hsize : ∀ b ∈ bufs, taskCommLen ≤ b.size) : Fits (ps.zip bufs) := fun p hp =>
  p.1.length_lt.le.trans (hsize _ (List.of_mem_zip hp).2)

theorem namesTerminated_iff {ps : List Process} {bufs : List Buffer} {s : NamesState}
    (h : UserArray s.mem bufs) (hsize : ∀ b ∈ bufs, taskCommLen ≤ b.size) :
    NamesTerminated ps bufs s ↔ bufs.length < ps.length ∨
      ∀ p ∈ ps.zip bufs, s.mem.bytes (p.2.addr + p.1.comm.length) = 0 := by
  have hfits : Fits (ps.zip bufs) := fits_of_size hsize
  have hcall := kernelps_eq h hfits
  unfold NamesTerminated
  rw [hcall]
  by_cases hle : ps.length ≤ bufs.length
  · have hstring : ∀ p ∈ ps.zip bufs,
        ((deliver s.mem (ps.zip bufs)).StringAt p.2.addr p.1.comm ↔
          s.mem.bytes (p.2.addr + p.1.comm.length) = 0) := fun p hp =>
      stringAt_deliver_iff hp hfits (pairwise_zip h.disjoint) (hsize _ (List.of_mem_zip hp).2)
    rw [if_pos hle, or_iff_right (Nat.not_lt.2 hle), ← forall₂_congr hstring]
    constructor
    · rintro hall ⟨p, b⟩ hp
      obtain ⟨i, hi⟩ := List.mem_iff_getElem?.1 hp
      obtain ⟨hip, hib⟩ := List.getElem?_zip_eq_some.1 hi
      have hlt : i < min ps.length (bufs.length + 1) := by
        obtain ⟨hlt, -⟩ := List.getElem?_eq_some_iff.1 hip
        omega
      obtain ⟨p', b', hp', hb', hstring'⟩ := hall _ rfl i hlt
      obtain rfl : p = p' := Option.some.inj (hip.symm.trans hp')
      obtain rfl : b = b' := Option.some.inj (hib.symm.trans hb')
      exact hstring'
    · rintro hall t ht i hi
      obtain ⟨-, rfl⟩ := Prod.mk.inj (Except.ok.inj ht)
      dsimp only at hi ⊢
      have hip : i < ps.length := by omega
      have hib : i < bufs.length := by omega
      have hmem : (ps[i], bufs[i]) ∈ ps.zip bufs := by
        apply List.mem_iff_getElem?.2
        refine ⟨i, List.getElem?_zip_eq_some.2 ⟨?_, ?_⟩⟩
        · exact List.getElem?_eq_getElem hip
        · exact List.getElem?_eq_getElem hib
      exact ⟨ps[i], bufs[i], List.getElem?_eq_getElem hip, List.getElem?_eq_getElem hib,
        hall _ hmem⟩
  · rw [if_neg hle]
    refine iff_of_true (fun t ht => ?_) (Or.inl (Nat.not_le.1 hle))
    have hret : -efault = 0 := (Prod.mk.inj (Except.ok.inj ht)).1
    exact absurd hret (by decide)

theorem nameTerminated_iff {task : ℤ → Option Process} {procId : ℤ} {procName : ℕ} {m : UserMemory}
    (hwritable : ∀ a ∈ Set.Ico procName (procName + taskCommLen), m.writable a = true) :
    NameTerminated task procId procName m ↔
      ∀ p, task procId = some p → m.bytes (procName + p.comm.length) = 0 := by
  unfold NameTerminated pidtoname
  cases hp : task procId with
  | none =>
      refine iff_of_true (fun m' hm' => ?_) (fun p hp => by cases hp)
      have hret : -efault = 0 := (Prod.mk.inj hm').1
      exact absurd hret (by decide)
  | some p =>
      have hlength := p.length_lt
      have hcopy : m.copyToUser procName p.comm = (m.write procName p.comm, 0) :=
        UserMemory.copyToUser_eq fun a ha => hwritable a ⟨ha.1, ha.2.trans (by omega)⟩
      dsimp only
      rw [hcopy, if_neg (not_not.2 rfl)]
      simp only [Prod.mk.injEq, true_and, forall_eq', Option.some.injEq, exists_eq_left']
      exact UserMemory.stringAt_write_iff p.nul_notMem

/-- The names arrive as strings exactly when the bytes behind them were zero already. -/
theorem names_terminated_iff (ps : List Process) (bufs : List Buffer) (s : NamesState)
    (task : ℤ → Option Process) (procId : ℤ) (procName : ℕ) (m : UserMemory) :
    (UserArray s.mem bufs → (∀ b ∈ bufs, taskCommLen ≤ b.size) →
      (NamesTerminated ps bufs s ↔ bufs.length < ps.length ∨
        ∀ p ∈ ps.zip bufs, s.mem.bytes (p.2.addr + p.1.comm.length) = 0)) ∧
    ((∀ a ∈ Set.Ico procName (procName + taskCommLen), m.writable a = true) →
      (NameTerminated task procId procName m ↔
        ∀ p, task procId = some p → m.bytes (procName + p.comm.length) = 0)) :=
  ⟨namesTerminated_iff, nameTerminated_iff⟩

theorem names_terminated_iff_two :
    (NamesTerminated (threeProcesses.take 2) twoBuffers ⟨0, ⟨fun _ => 0, fun _ => true⟩, 0⟩ ↔
      twoBuffers.length < (threeProcesses.take 2).length ∨
        ∀ p ∈ (threeProcesses.take 2).zip twoBuffers, (0 : UInt8) = 0) ∧
    (NameTerminated (fun _ => some { comm := [97] }) 1 100 ⟨fun _ => 0, fun _ => true⟩ ↔
      ∀ p, some ({ comm := [97] } : Process) = some p → (0 : UInt8) = 0) := by
  obtain ⟨hnames, hname⟩ := names_terminated_iff (threeProcesses.take 2) twoBuffers
    ⟨0, ⟨fun _ => 0, fun _ => true⟩, 0⟩ (fun _ => some { comm := [97] }) 1 100
    ⟨fun _ => 0, fun _ => true⟩
  exact ⟨hnames (userArray_twoBuffers _) (by decide), hname fun _ _ => rfl⟩

/-- With other bytes in the buffers, both calls succeed and leave no string. -/
theorem names_unterminated :
    ¬ NamesTerminated [{ comm := [97] }] twoBuffers ⟨0, ⟨fun _ => 65, fun _ => true⟩, 0⟩ ∧
      ¬ NameTerminated (fun _ => some { comm := [97] }) 1 100 ⟨fun _ => 65, fun _ => true⟩ := by
  constructor
  · intro h
    obtain ⟨p, b, hp, hb, -, -, hlast⟩ := h _ rfl 0 (by decide)
    cases hp
    cases hb
    revert hlast
    decide
  · intro h
    obtain ⟨p, hp, -, -, hlast⟩ := h _ rfl
    cases hp
    revert hlast
    decide

end LabSyscalls
