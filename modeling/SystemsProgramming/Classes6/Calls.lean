import SystemsProgramming.Library.Memory
import SystemsProgramming.Library.UserMemory

/-!
# The system calls about processes

`topuser` and `timeuser` look for the user with the most processes and with the most CPU time,
`kernelps` lists the names of all processes, and `pidtoname` finds the name of one.  The process
list, the blocks of the allocator and the memory of the user are inputs.
-/

namespace LabSyscalls

open Memory

/-! ### Processes -/

/-- The size of `comm`, with its terminator. -/
def taskCommLen : ℕ := 16

/-- What the calls read of a `struct task_struct`. -/
structure Process where
  uid : ℕ := 0
  utime : ℕ := 0
  comm : List UInt8 := []
  uid_lt : uid < intCard := by decide
  utime_lt : utime < ulongCard := by decide
  length_lt : comm.length < taskCommLen := by decide
  nul_notMem : 0 ∉ comm := by decide

/-- `MAX_UID` -/
def maxUid : ℕ := 32767

/-- `ENOMEM` -/
def enomem : ℤ := 12

/-- `EFAULT` -/
def efault : ℤ := 14

/-! ### Users -/

/-- The variables of `topuser`. -/
structure TopVars where
  procPerUsrCnt : List ℕ
  maxCount : ℤ := 0
  maxUsr : ℕ := 0

/-- A pass of the loop of `topuser`. -/
def topuserPass (v : TopVars) (proc : Process) : Except Fault TopVars := do
  let procPerUsrCnt ← modify v.procPerUsrCnt proc.uid fun cnt => (cnt + 1) % intCard
  let cnt ← load procPerUsrCnt proc.uid
  -- an `int` is compared with a `uid_t` as an unsigned number
  if v.maxCount % intCard < cnt then
    return { procPerUsrCnt, maxCount := (cnt : ℤ).bmod intCard, maxUsr := proc.uid }
  else return { v with procPerUsrCnt }

/-- `topuser`, with what it returns and what it leaves in `*usr_id`; the sizes of the blocks are in
cells. -/
def topuser (contents : Option (ℕ → ℕ)) (ps : List Process) (usrId : ℕ) : Except Fault (ℤ × ℕ) :=
  match kmalloc maxUid contents with
  | none => .ok (-enomem, usrId)
  | some procPerUsrCnt => do
    let procPerUsrCnt ← fillCells 0 maxUid procPerUsrCnt
    let v ← ps.foldlM topuserPass { procPerUsrCnt }
    return (0, v.maxUsr)

/-- The variables of `timeuser`. -/
structure TimeVars where
  perUserCpuTime : List ℕ
  maxUser : ℕ
  maxCpu : ℕ := 0

/-- A pass of the loop of `timeuser`. -/
def timeuserPass (v : TimeVars) (proc : Process) : Except Fault TimeVars := do
  let uid : ℤ := (proc.uid : ℤ).bmod intCard
  let perUserCpuTime ← modify v.perUserCpuTime uid fun time => (time + proc.utime) % ulongCard
  let time ← load perUserCpuTime uid
  if v.maxCpu < time then
    return { perUserCpuTime, maxUser := (uid % intCard).toNat, maxCpu := time }
  else return { v with perUserCpuTime }

/-- `timeuser`; `maxUser` is what the local `max_user` holds before it is assigned. -/
def timeuser (contents : Option (ℕ → ℕ)) (maxUser : ℕ) (ps : List Process) (usrId : ℕ) :
    Except Fault (ℤ × ℕ) :=
  match kmalloc maxUid contents with
  | none => .ok (-enomem, usrId)
  | some perUserCpuTime => do
    let perUserCpuTime ← fillCells 0 maxUid perUserCpuTime
    let v ← ps.foldlM timeuserPass { perUserCpuTime, maxUser }
    return (0, v.maxUser)

/-! ### Names -/

/-- What `kernelps` works on. -/
structure NamesState where
  /-- `*ps_count` -/
  psCount : ℕ
  mem : UserMemory
  /-- the readers that hold `tasklist_lock` -/
  readers : ℕ

/-- `read_lock(&tasklist_lock)` -/
def NamesState.readLock (s : NamesState) : NamesState := { s with readers := s.readers + 1 }

/-- `read_unlock(&tasklist_lock)` -/
def NamesState.readUnlock (s : NamesState) : NamesState := { s with readers := s.readers - 1 }

/-- The loop of `kernelps`, from the processes that are left, up to the return; a `buff` that is not
`NULL` is an array of addresses. -/
def kernelpsLoop (buff : Option (List ℕ)) :
    List Process → ℕ → NamesState → Except Fault (ℤ × NamesState)
  | [], _, s => .ok (0, s.readUnlock)
  | proc :: ps, iter, s =>
    let s := { s with psCount := s.psCount + 1 }
    match buff with
    | none => kernelpsLoop buff ps iter s
    | some addrs => do
      let addr ← load addrs iter
      if addr = 0 then return (-efault, s.readUnlock)
      else
        let (mem, left) := s.mem.copyToUser addr proc.comm
        if left ≠ 0 then return (-efault, { s with mem }.readUnlock)
        else kernelpsLoop buff ps (iter + 1) { s with mem }

/-- `kernelps` -/
def kernelps (ps : List Process) (buff : Option (List ℕ)) (s : NamesState) :
    Except Fault (ℤ × NamesState) :=
  kernelpsLoop buff ps 0 { s with psCount := 0 }.readLock

/-- `pidtoname`; `task n` is the process with id `n`. -/
def pidtoname (task : ℤ → Option Process) (procId : ℤ) (procName : ℕ) (mem : UserMemory) :
    ℤ × UserMemory :=
  match task procId with
  | none => (-efault, mem)
  | some proc =>
    let (mem, left) := mem.copyToUser procName proc.comm
    if left ≠ 0 then (-efault, mem) else (0, mem)

end LabSyscalls
