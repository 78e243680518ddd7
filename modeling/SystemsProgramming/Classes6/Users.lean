import SystemsProgramming.Classes6.Calls
import SystemsProgramming.Library.Leader
import Mathlib.Algebra.Order.Group.Nat

/-!
# The users with the most processes and with the most time

Both calls keep a total for each user in a table of `MAX_UID` cells, and the leader so far.  With
totals that fit, `topuser` finds a user with the most processes (`topuser_finds`), and so does
`timeuser` for the CPU time, unless nobody has used any (`timeuser_finds_iff`).  A user from
`MAX_UID` on is outside the tables (`tables_inBounds_iff`).
-/

namespace LabSyscalls

open Memory Leader

/-! ### The tables -/

/-- An `int` holds a user's number if it is below `MAX_UID`. -/
theorem bmod_uid {n : ℕ} (h : n < maxUid) : (n : ℤ).bmod intCard = n := by
  have hle : maxUid ≤ intMax := by decide
  exact bmod_intCard_natCast (h.le.trans hle)

/-- And not inside the table otherwise. -/
theorem bmod_uid_outside {n : ℕ} (h : maxUid ≤ n) (hn : n < intCard) :
    (n : ℤ).bmod intCard < 0 ∨ (maxUid : ℤ) ≤ (n : ℤ).bmod intCard := by
  unfold maxUid at h ⊢
  unfold intCard at hn ⊢
  rw [Int.bmod_def]
  split <;> omega

/-! ### `topuser` -/

/-- The number of processes of user `u`. -/
def procCount (ps : List Process) (u : ℕ) : ℕ := ps.countP fun p => p.uid = u

/-- What `topuser` keeps: the processes of each user, and the leader. -/
structure TopInv (l : List Process) (v : TopVars) : Prop where
  procPerUsrCnt_eq : v.procPerUsrCnt = table maxUid (total Process.uid (fun _ => 1) l)
  nonneg : 0 ≤ v.maxCount
  leads : Leads Process.uid (fun _ => 1) 0 l v.maxUsr v.maxCount.toNat

theorem total_one_le (l : List Process) (u : ℕ) :
    total Process.uid (fun _ => 1) l u ≤ l.length := by
  rw [total_one]
  exact List.countP_le_length

theorem topuserPass_eq {l : List Process} {v : TopVars} {p : Process} (h : TopInv l v)
    (hp : p.uid < maxUid) (hlength : l.length < intMax) :
    ∃ v', topuserPass v p = .ok v' ∧ TopInv (l ++ [p]) v' := by
  have hcount := total_one_le l p.uid
  have hmod : (total Process.uid (fun _ => 1) l p.uid + 1) % intCard =
      total Process.uid (fun _ => 1) l p.uid + 1 := by
    apply Nat.mod_eq_of_lt
    unfold intMax at hlength
    unfold intCard
    omega
  have hmax : v.maxCount % intCard = v.maxCount := by
    apply Int.emod_eq_of_lt h.nonneg
    have hscore := h.leads.eq_score
    have hbest := total_one_le l v.maxUsr
    unfold intMax at hlength
    unfold intCard
    omega
  have htable := total_concat Process.uid (fun _ => 1) l p
  unfold topuserPass
  rw [h.procPerUsrCnt_eq, modify_table hp, hmod, ← htable]
  dsimp only [bind, Except.bind]
  rw [load_table hp, hmax, htable, Function.update_self]
  dsimp only
  by_cases hlt : v.maxCount < (total Process.uid (fun _ => 1) l p.uid + 1 : ℕ)
  · rw [if_pos hlt]
    have hbmod : ((total Process.uid (fun _ => 1) l p.uid + 1 : ℕ) : ℤ).bmod intCard =
        (total Process.uid (fun _ => 1) l p.uid + 1 : ℕ) := bmod_intCard_natCast (by omega)
    refine ⟨_, rfl, ?_, ?_, ?_⟩
    · rw [htable]
    · dsimp only
      rw [hbmod]
      exact Int.natCast_nonneg _
    · dsimp only
      rw [hbmod, Int.toNat_natCast]
      apply h.leads.overtake
      have := h.nonneg
      omega
  · rw [if_neg hlt]
    refine ⟨_, rfl, ?_, h.nonneg, ?_⟩
    · rw [htable]
    · apply h.leads.keep
      have := h.nonneg
      omega

/-- The call with its table: the loop over the processes is left. -/
theorem topuser_some (contents : ℕ → ℕ) (ps : List Process) (usrId : ℕ) :
    topuser (some contents) ps usrId =
      (ps.foldlM topuserPass { procPerUsrCnt := table maxUid fun _ => 0 } >>= fun v =>
        pure (0, v.maxUsr)) := by
  have hsize : maxUid ≤ intMax := by decide
  unfold topuser
  rw [kmalloc_natCast hsize]
  dsimp only
  rw [fillCells_table length_table]
  rfl

theorem topuserLoop_eq {ps : List Process} (hps : ∀ p ∈ ps, p.uid < maxUid)
    (hlength : ps.length ≤ intMax) :
    ∃ v, ps.foldlM topuserPass { procPerUsrCnt := table maxUid fun _ => 0 } = .ok v ∧
      TopInv ps v := by
  have hzero : (fun _ => 0) = total Process.uid (fun _ => 1) [] :=
    funext fun u => (total_nil Process.uid _ u).symm
  have hinit : TopInv [] { procPerUsrCnt := table maxUid fun _ => 0 } :=
    ⟨by rw [hzero], le_rfl, Leads.nil⟩
  apply foldlM_invariant (q := fun l p => p.uid < maxUid ∧ l.length < intMax)
    (fun _ _ _ hv hp => topuserPass_eq hv hp.1 hp.2) hinit
  rintro l₁ p l₂ rfl
  rw [List.length_append, List.length_cons] at hlength
  exact ⟨hps p (by simp), by omega⟩

/-- `topuser` finds a user with the most processes. -/
theorem topuser_finds {ps : List Process} (hps : ∀ p ∈ ps, p.uid < maxUid)
    (hlength : ps.length ≤ intMax) (contents : ℕ → ℕ) (usrId : ℕ) :
    ∃ u, topuser (some contents) ps usrId = .ok (0, u) ∧
      (∀ v, procCount ps v ≤ procCount ps u) ∧ (ps ≠ [] → ∃ p ∈ ps, p.uid = u) := by
  obtain ⟨v, hloop, hv⟩ := topuserLoop_eq hps hlength
  refine ⟨v.maxUsr, ?_, ?_, ?_⟩
  · rw [topuser_some, hloop]
    rfl
  · intro u
    unfold procCount
    rw [← total_one, ← total_one]
    exact hv.leads.total_le u
  · intro hne
    obtain ⟨p, hp⟩ := List.exists_mem_of_ne_nil ps hne
    exact hv.leads.exists_entry ⟨p, hp, one_ne_zero⟩

/-- Two processes of the superuser behind one of another user. -/
theorem topuser_finds_root : ∃ u,
    topuser (some fun _ => 5) [{ uid := 1000 }, {}, {}] 9 = .ok (0, u) ∧
    (∀ v, procCount [{ uid := 1000 }, {}, {}] v ≤ procCount [{ uid := 1000 }, {}, {}] u) ∧
    ∃ p ∈ [{ uid := 1000 }, ({} : Process), {}], p.uid = u := by
  have hps : ∀ p ∈ [{ uid := 1000 }, ({} : Process), {}], p.uid < maxUid := by decide
  obtain ⟨u, hcall, hmax, hentry⟩ := topuser_finds hps (by decide) (fun _ => 5) 9
  exact ⟨u, hcall, hmax, hentry (List.cons_ne_nil _ _)⟩

/-! ### `timeuser` -/

/-- The CPU time of the processes of user `u`. -/
def cpuTime (ps : List Process) (u : ℕ) : ℕ := total Process.uid Process.utime ps u

/-- What `timeuser` keeps: the time of each user, and the leader. -/
structure TimeInv (start : ℕ) (l : List Process) (v : TimeVars) : Prop where
  perUserCpuTime_eq : v.perUserCpuTime = table maxUid (total Process.uid Process.utime l)
  leads : Leads Process.uid Process.utime start l v.maxUser v.maxCpu

theorem timeuserPass_eq {start : ℕ} {l : List Process} {v : TimeVars} {p : Process}
    (h : TimeInv start l v) (hp : p.uid < maxUid)
    (hfits : total Process.uid Process.utime l p.uid + p.utime < ulongCard) :
    ∃ v', timeuserPass v p = .ok v' ∧ TimeInv start (l ++ [p]) v' := by
  have htable := total_concat Process.uid Process.utime l p
  have huser : ((p.uid : ℤ) % intCard).toNat = p.uid := by
    have hlt := p.uid_lt
    rw [Int.emod_eq_of_lt (Int.natCast_nonneg _) (by omega), Int.toNat_natCast]
  unfold timeuserPass
  rw [bmod_uid hp, h.perUserCpuTime_eq]
  dsimp only
  rw [modify_table hp, Nat.mod_eq_of_lt hfits, ← htable]
  dsimp only [bind, Except.bind]
  rw [load_table hp, huser, htable, Function.update_self]
  dsimp only
  by_cases hlt : v.maxCpu < total Process.uid Process.utime l p.uid + p.utime
  · rw [if_pos hlt]
    refine ⟨_, rfl, ?_, h.leads.overtake hlt⟩
    rw [htable]
  · rw [if_neg hlt]
    refine ⟨_, rfl, ?_, h.leads.keep (Nat.not_lt.1 hlt)⟩
    rw [htable]

/-- The call with its table: the loop over the processes is left. -/
theorem timeuser_some (contents : ℕ → ℕ) (maxUser : ℕ) (ps : List Process) (usrId : ℕ) :
    timeuser (some contents) maxUser ps usrId =
      (ps.foldlM timeuserPass { perUserCpuTime := table maxUid fun _ => 0, maxUser } >>= fun v =>
        pure (0, v.maxUser)) := by
  have hsize : maxUid ≤ intMax := by decide
  unfold timeuser
  rw [kmalloc_natCast hsize]
  dsimp only
  rw [fillCells_table length_table]
  rfl

theorem timeuserLoop_eq {ps : List Process} (maxUser : ℕ) (hps : ∀ p ∈ ps, p.uid < maxUid)
    (hfits : ∀ u, cpuTime ps u < ulongCard) :
    ∃ v, ps.foldlM timeuserPass { perUserCpuTime := table maxUid fun _ => 0, maxUser } = .ok v ∧
      TimeInv maxUser ps v := by
  have hzero : (fun _ => 0) = total Process.uid Process.utime [] :=
    funext fun u => (total_nil Process.uid _ u).symm
  have hinit : TimeInv maxUser [] { perUserCpuTime := table maxUid fun _ => 0, maxUser } :=
    ⟨by rw [hzero], Leads.nil⟩
  apply foldlM_invariant (q := fun l p => p.uid < maxUid ∧
      total Process.uid Process.utime l p.uid + p.utime < ulongCard)
    (fun _ _ _ hv hp => timeuserPass_eq hv hp.1 hp.2) hinit
  rintro l₁ p l₂ rfl
  refine ⟨hps p (by simp), ?_⟩
  have hlt := hfits p.uid
  unfold cpuTime at hlt
  rw [← List.singleton_append, ← List.append_assoc, total_append, total_concat,
    Function.update_self] at hlt
  omega

/-- What `timeuser` leaves in `*usr_id`. -/
theorem timeuser_eq {ps : List Process} (hps : ∀ p ∈ ps, p.uid < maxUid)
    (hfits : ∀ u, cpuTime ps u < ulongCard) (contents : ℕ → ℕ) (maxUser usrId : ℕ) :
    ∃ u score, timeuser (some contents) maxUser ps usrId = .ok (0, u) ∧
      Leads Process.uid Process.utime maxUser ps u score := by
  obtain ⟨v, hloop, hv⟩ := timeuserLoop_eq maxUser hps hfits
  refine ⟨v.maxUser, v.maxCpu, ?_, hv.leads⟩
  rw [timeuser_some, hloop]
  rfl

/-- The user has a process, and no other user has used more time. -/
def FindsTop (ps : List Process) (u : ℕ) : Prop :=
  (∃ p ∈ ps, p.uid = u) ∧ ∀ v, cpuTime ps v ≤ cpuTime ps u

/-- `timeuser` finds a user with the most CPU time exactly when a process has used some, or the
local variable that it then returns happened to hold a user with a process. -/
theorem timeuser_finds_iff {ps : List Process} (hps : ∀ p ∈ ps, p.uid < maxUid)
    (hfits : ∀ u, cpuTime ps u < ulongCard) (contents : ℕ → ℕ) (maxUser usrId : ℕ) :
    (∃ u, timeuser (some contents) maxUser ps usrId = .ok (0, u) ∧ FindsTop ps u) ↔
      (∃ p ∈ ps, 0 < p.utime) ∨ ∃ p ∈ ps, p.uid = maxUser := by
  obtain ⟨u, score, hcall, hleads⟩ := timeuser_eq hps hfits contents maxUser usrId
  rw [hcall]
  constructor
  · rintro ⟨u', hu', hentry, -⟩
    obtain rfl : u = u' := (Prod.mk.inj (Except.ok.inj hu')).2
    by_cases hused : ∃ p ∈ ps, 0 < p.utime
    · exact Or.inl hused
    · right
      simp only [not_exists, not_and, Nat.not_lt, Nat.le_zero] at hused
      rwa [hleads.eq_start hused] at hentry
  · intro h
    refine ⟨u, rfl, ?_, hleads.total_le⟩
    by_cases hused : ∃ p ∈ ps, 0 < p.utime
    · obtain ⟨p, hp, hpos⟩ := hused
      exact hleads.exists_entry ⟨p, hp, hpos.ne'⟩
    · have hentry := h.resolve_left hused
      simp only [not_exists, not_and, Nat.not_lt, Nat.le_zero] at hused
      rwa [hleads.eq_start hused]

/-- Two processes, one of which has used CPU time. -/
theorem timeuser_finds_iff_used :
    (∃ u, timeuser (some fun _ => 5) 9 [{ uid := 1000, utime := 3 }, {}] 0 = .ok (0, u) ∧
      FindsTop [{ uid := 1000, utime := 3 }, {}] u) ↔
        (∃ p ∈ [{ uid := 1000, utime := 3 }, ({} : Process)], 0 < p.utime) ∨
          ∃ p ∈ [{ uid := 1000, utime := 3 }, ({} : Process)], p.uid = 9 := by
  apply timeuser_finds_iff (by decide)
  intro u
  by_cases h : 1000 = u
  · subst h
    decide
  · by_cases h' : 0 = u
    · subst h'
      decide
    · have hzero : cpuTime [{ uid := 1000, utime := 3 }, {}] u = 0 := by
        simp [cpuTime, total, h, h']
      rw [hzero]
      decide

/-- Without CPU time the call returns what the local variable held, here `7`, which is no user with
a process. -/
theorem timeuser_finds_nobody : ∃ u, timeuser (some fun _ => 5) 7 [{ uid := 1000 }] 0 = .ok (0, u) ∧
    ¬ FindsTop [{ uid := 1000 }] u := by
  have hfits : ∀ u, cpuTime [{ uid := 1000 }] u < ulongCard := by
    intro u
    have hzero : cpuTime [{ uid := 1000 }] u = 0 :=
      total_eq_zero Process.uid Process.utime (by decide) u
    rw [hzero]
    decide
  obtain ⟨u, score, hcall, hleads⟩ := timeuser_eq (by decide) hfits (fun _ => 5) 7 0
  refine ⟨u, hcall, ?_⟩
  rw [hleads.eq_start (by decide)]
  rintro ⟨hentry, -⟩
  revert hentry
  decide

/-! ### Users outside the tables -/

theorem topuserPass_inside (v : TopVars) (p : Process) (hsize : v.procPerUsrCnt.length = maxUid)
    (hp : p.uid < maxUid) :
    ∃ v', topuserPass v p = .ok v' ∧ v'.procPerUsrCnt.length = maxUid := by
  have hlt : p.uid < v.procPerUsrCnt.length := hsize ▸ hp
  unfold topuserPass
  rw [modify_natCast hlt]
  dsimp only [bind, Except.bind]
  rw [load_natCast (by rwa [List.length_set])]
  dsimp only
  split
  · exact ⟨_, rfl, by rwa [List.length_set]⟩
  · exact ⟨_, rfl, by rwa [List.length_set]⟩

theorem topuserPass_outside (v : TopVars) (p : Process) (hsize : v.procPerUsrCnt.length = maxUid)
    (hp : ¬ p.uid < maxUid) : topuserPass v p = .error .outOfBounds := by
  unfold topuserPass
  rw [modify_outside (Or.inr (by omega))]
  rfl

theorem timeuserPass_inside (v : TimeVars) (p : Process)
    (hsize : v.perUserCpuTime.length = maxUid) (hp : p.uid < maxUid) :
    ∃ v', timeuserPass v p = .ok v' ∧ v'.perUserCpuTime.length = maxUid := by
  have hlt : p.uid < v.perUserCpuTime.length := hsize ▸ hp
  unfold timeuserPass
  rw [bmod_uid hp]
  dsimp only
  rw [modify_natCast hlt]
  dsimp only [bind, Except.bind]
  rw [load_natCast (by rwa [List.length_set])]
  dsimp only
  split
  · exact ⟨_, rfl, by rwa [List.length_set]⟩
  · exact ⟨_, rfl, by rwa [List.length_set]⟩

theorem timeuserPass_outside (v : TimeVars) (p : Process)
    (hsize : v.perUserCpuTime.length = maxUid) (hp : ¬ p.uid < maxUid) :
    timeuserPass v p = .error .outOfBounds := by
  have hindex := bmod_uid_outside (Nat.not_lt.1 hp) p.uid_lt
  rw [← hsize] at hindex
  unfold timeuserPass
  dsimp only
  rw [modify_outside hindex]
  rfl

theorem topuser_isOk_iff (contents : Option (ℕ → ℕ)) (usrId : ℕ) (ps : List Process) :
    (∃ r, topuser contents ps usrId = .ok r) ↔ contents = none ∨ ∀ p ∈ ps, p.uid < maxUid := by
  cases contents with
  | none => exact iff_of_true ⟨_, rfl⟩ (Or.inl rfl)
  | some contents =>
      have hfilled : (⟨table maxUid fun _ => 0, 0, 0⟩ : TopVars).procPerUsrCnt.length = maxUid := by
        dsimp only
        exact length_table
      rw [or_iff_right (Option.some_ne_none _), topuser_some, bind_pure_isOk_iff]
      exact foldlM_isOk_iff topuserPass_inside
        (fun v p hv hp => ⟨_, topuserPass_outside v p hv hp⟩) ps hfilled

theorem timeuser_isOk_iff (contents : Option (ℕ → ℕ)) (maxUser usrId : ℕ) (ps : List Process) :
    (∃ r, timeuser contents maxUser ps usrId = .ok r) ↔
      contents = none ∨ ∀ p ∈ ps, p.uid < maxUid := by
  cases contents with
  | none => exact iff_of_true ⟨_, rfl⟩ (Or.inl rfl)
  | some contents =>
      have hfilled :
          (⟨table maxUid fun _ => 0, maxUser, 0⟩ : TimeVars).perUserCpuTime.length = maxUid := by
        dsimp only
        exact length_table
      rw [or_iff_right (Option.some_ne_none _), timeuser_some, bind_pure_isOk_iff]
      exact foldlM_isOk_iff timeuserPass_inside
        (fun v p hv hp => ⟨_, timeuserPass_outside v p hv hp⟩) ps hfilled

/-- No call uses an index outside its table, exactly when it has no table or all users are below
`MAX_UID`. -/
theorem tables_inBounds_iff (contents contents' : Option (ℕ → ℕ)) (maxUser usrId : ℕ)
    (ps : List Process) :
    ((∃ r, topuser contents ps usrId = .ok r) ↔ contents = none ∨ ∀ p ∈ ps, p.uid < maxUid) ∧
    ((∃ r, timeuser contents' maxUser ps usrId = .ok r) ↔
      contents' = none ∨ ∀ p ∈ ps, p.uid < maxUid) :=
  ⟨topuser_isOk_iff contents usrId ps, timeuser_isOk_iff contents' maxUser usrId ps⟩

/-- A process of the user `nobody` is outside both tables. -/
theorem tables_overrun : (¬ ∃ r, topuser (some fun _ => 0) [{ uid := 65534 }] 0 = .ok r) ∧
    ¬ ∃ r, timeuser (some fun _ => 0) 0 [{ uid := 65534 }] 0 = .ok r := by
  have houtside : ¬ ∀ p ∈ [({ uid := 65534 } : Process)], p.uid < maxUid := by decide
  have hnot : ¬ (some (fun _ => 0) = (none : Option (ℕ → ℕ)) ∨
      ∀ p ∈ [({ uid := 65534 } : Process)], p.uid < maxUid) :=
    not_or.2 ⟨Option.some_ne_none _, houtside⟩
  rw [topuser_isOk_iff, timeuser_isOk_iff]
  exact ⟨hnot, hnot⟩

end LabSyscalls
