import SystemsProgramming.Classes6.Users

/-!
# The first user with the largest total

`topuser` and `timeuser` change the leader only when a user gets more than the leader.  So among the
users with the largest total they find the one who is the first to reach it, in the order of the
process list (`first_user_iff`).
-/

namespace LabSyscalls

open Memory Leader

/-! ### `topuser` -/

/-- A pass that changes the leader raises the score. -/
theorem topuserPass_leader {v v' : TopVars} {p : Process} (h : topuserPass v p = .ok v') :
    v'.maxUsr = v.maxUsr ∨ ∃ cnt, load v'.procPerUsrCnt p.uid = .ok cnt ∧
      v.maxCount % intCard < (cnt : ℕ) ∧ v'.maxCount = (cnt : ℤ).bmod intCard := by
  unfold topuserPass at h
  cases hmodify : modify v.procPerUsrCnt p.uid fun cnt => (cnt + 1) % intCard with
  | error fault =>
      rw [hmodify] at h
      cases h
  | ok procPerUsrCnt =>
      rw [hmodify] at h
      dsimp only [bind, Except.bind] at h
      cases hload : load procPerUsrCnt p.uid with
      | error fault =>
          rw [hload] at h
          cases h
      | ok cnt =>
          rw [hload] at h
          dsimp only at h
          by_cases hlt : v.maxCount % intCard < (cnt : ℕ)
          · rw [if_pos hlt] at h
            obtain rfl := Except.ok.inj h
            dsimp only
            exact Or.inr ⟨cnt, hload, hlt, rfl⟩
          · rw [if_neg hlt] at h
            obtain rfl := Except.ok.inj h
            exact Or.inl rfl

/-- `TopInv`, with the order in which the users have got their processes. -/
structure TopFirst (l : List Process) (v : TopVars) : Prop where
  inv : TopInv l v
  first : LeadsFirst Process.uid (fun _ => 1) 0 l v.maxUsr v.maxCount.toNat

theorem topuserPass_first {l : List Process} {v : TopVars} {p : Process} (h : TopFirst l v)
    (hp : p.uid < maxUid) (hlength : l.length < intMax) :
    ∃ v', topuserPass v p = .ok v' ∧ TopFirst (l ++ [p]) v' := by
  obtain ⟨hv, hfirst⟩ := h
  obtain ⟨v', hpass, hv'⟩ := topuserPass_eq hv hp hlength
  refine ⟨v', hpass, hv', hfirst.step hv'.leads fun hscore => ?_⟩
  rcases topuserPass_leader hpass with hkeep | ⟨cnt, hload, hlt, hcnt⟩
  · exact hkeep
  · -- the new score is the count, which is larger than the old one
    exfalso
    rw [hv'.procPerUsrCnt_eq, load_table hp, Except.ok.injEq] at hload
    have hle := total_one_le (l ++ [p]) p.uid
    rw [hload, List.length_append, List.length_singleton] at hle
    rw [bmod_intCard_natCast (hle.trans hlength)] at hcnt
    have hsame : v.maxCount = cnt := by
      have hnonneg := hv.nonneg
      rw [hcnt, Int.toNat_natCast] at hscore
      omega
    have hmod : v.maxCount % intCard = v.maxCount := by
      apply Int.emod_eq_of_lt hv.nonneg
      unfold intMax at hlength
      unfold intCard
      omega
    omega

theorem topuser_first {ps : List Process} (hps : ∀ p ∈ ps, p.uid < maxUid)
    (hlength : ps.length ≤ intMax) (hne : ps ≠ []) (contents : ℕ → ℕ) (usrId : ℕ) :
    ∃ u, topuser (some contents) ps usrId = .ok (0, u) ∧ First Process.uid (fun _ => 1) ps u := by
  have hzero : (fun _ => 0) = total Process.uid (fun _ => 1) [] :=
    funext fun u => (total_nil Process.uid _ u).symm
  have hinit : TopFirst [] { procPerUsrCnt := table maxUid fun _ => 0 } :=
    ⟨⟨by rw [hzero], le_rfl, Leads.nil⟩, LeadsFirst.nil⟩
  have hloop : ∃ v, ps.foldlM topuserPass { procPerUsrCnt := table maxUid fun _ => 0 } = .ok v ∧
      TopFirst ps v := by
    apply foldlM_invariant (q := fun l p => p.uid < maxUid ∧ l.length < intMax)
      (fun _ _ _ hv hp => topuserPass_first hv hp.1 hp.2) hinit
    rintro l₁ p l₂ rfl
    rw [List.length_append, List.length_cons] at hlength
    exact ⟨hps p (by simp), by omega⟩
  obtain ⟨v, hloop, -, hfirst⟩ := hloop
  refine ⟨v.maxUsr, ?_, hfirst.wins ?_⟩
  · rw [topuser_some, hloop]
    rfl
  · obtain ⟨p, hp⟩ := List.exists_mem_of_ne_nil ps hne
    have hcount : 0 < total Process.uid (fun _ => 1) ps p.uid := by
      rw [total_one, List.countP_pos_iff]
      exact ⟨p, hp, by simp⟩
    exact hcount.trans_le (hfirst.le_score p.uid)

/-! ### `timeuser` -/

/-- The comparison of a pass, with whatever the table and the user are. -/
theorem timeuserPass_compare {v v' : TimeVars} {table : Except Fault (List ℕ)} {uid : ℤ} {user : ℕ}
    (h : (do
      let perUserCpuTime ← table
      let time ← load perUserCpuTime uid
      if v.maxCpu < time then
        return ({ perUserCpuTime, maxUser := user, maxCpu := time } : TimeVars)
      else return { v with perUserCpuTime }) = .ok v') :
    v'.maxUser = v.maxUser ∨ v.maxCpu < v'.maxCpu := by
  cases table with
  | error fault => cases h
  | ok perUserCpuTime =>
      dsimp only [bind, Except.bind] at h
      cases hload : load perUserCpuTime uid with
      | error fault =>
          rw [hload] at h
          cases h
      | ok time =>
          rw [hload] at h
          dsimp only at h
          by_cases hlt : v.maxCpu < time
          · rw [if_pos hlt] at h
            obtain rfl := Except.ok.inj h
            exact Or.inr hlt
          · rw [if_neg hlt] at h
            obtain rfl := Except.ok.inj h
            exact Or.inl rfl

/-- A pass that changes the leader raises the score. -/
theorem timeuserPass_leader {v v' : TimeVars} {p : Process} (h : timeuserPass v p = .ok v') :
    v'.maxUser = v.maxUser ∨ v.maxCpu < v'.maxCpu := timeuserPass_compare h

/-- `TimeInv`, with the order in which the users have used their time. -/
structure TimeFirst (start : ℕ) (l : List Process) (v : TimeVars) : Prop where
  inv : TimeInv start l v
  first : LeadsFirst Process.uid Process.utime start l v.maxUser v.maxCpu

theorem timeuserPass_first {start : ℕ} {l : List Process} {v : TimeVars} {p : Process}
    (h : TimeFirst start l v) (hp : p.uid < maxUid)
    (hfits : total Process.uid Process.utime l p.uid + p.utime < ulongCard) :
    ∃ v', timeuserPass v p = .ok v' ∧ TimeFirst start (l ++ [p]) v' := by
  obtain ⟨hv, hfirst⟩ := h
  obtain ⟨v', hpass, hv'⟩ := timeuserPass_eq hv hp hfits
  refine ⟨v', hpass, hv', hfirst.step hv'.leads fun hscore => ?_⟩
  exact (timeuserPass_leader hpass).resolve_right fun hlt => hlt.ne' hscore

theorem timeuser_first {ps : List Process} (hps : ∀ p ∈ ps, p.uid < maxUid)
    (hfits : ∀ u, cpuTime ps u < ulongCard) (hused : ∃ p ∈ ps, 0 < p.utime) (contents : ℕ → ℕ)
    (maxUser usrId : ℕ) :
    ∃ u, timeuser (some contents) maxUser ps usrId = .ok (0, u) ∧
      First Process.uid Process.utime ps u := by
  have hzero : (fun _ => 0) = total Process.uid Process.utime [] :=
    funext fun u => (total_nil Process.uid _ u).symm
  have hinit : TimeFirst maxUser [] { perUserCpuTime := table maxUid fun _ => 0, maxUser } :=
    ⟨⟨by rw [hzero], Leads.nil⟩, LeadsFirst.nil⟩
  have hloop : ∃ v, ps.foldlM timeuserPass
      { perUserCpuTime := table maxUid fun _ => 0, maxUser } = .ok v ∧ TimeFirst maxUser ps v := by
    apply foldlM_invariant (q := fun l p => p.uid < maxUid ∧
        total Process.uid Process.utime l p.uid + p.utime < ulongCard)
      (fun _ _ _ hv hp => timeuserPass_first hv hp.1 hp.2) hinit
    rintro l₁ p l₂ rfl
    refine ⟨hps p (by simp), ?_⟩
    have hprefix : l₁ ++ [p] <+: l₁ ++ p :: l₂ := ⟨l₂, by simp⟩
    have hle : total Process.uid Process.utime (l₁ ++ [p]) p.uid ≤
        total Process.uid Process.utime (l₁ ++ p :: l₂) p.uid := total_mono hprefix p.uid
    rw [total_concat, Function.update_self] at hle
    exact hle.trans_lt (hfits p.uid)
  obtain ⟨v, hloop, -, hfirst⟩ := hloop
  refine ⟨v.maxUser, ?_, hfirst.wins ?_⟩
  · rw [timeuser_some, hloop]
    rfl
  · obtain ⟨p, hp, hpos⟩ := hused
    have htime : p.utime ≤ total Process.uid Process.utime ps p.uid := by
      unfold total
      apply List.le_sum_of_mem
      exact List.mem_map_of_mem (List.mem_filter.2 ⟨hp, by simp⟩)
    exact hpos.trans_le (htime.trans (hfirst.le_score p.uid))

/-! ### Both calls -/

/-- The calls find exactly the user who is the first to reach the largest number of processes, and the
largest CPU time, in the order of the process list. -/
theorem first_user_iff {ps : List Process} (hps : ∀ p ∈ ps, p.uid < maxUid)
    (hlength : ps.length ≤ intMax) (hfits : ∀ u, cpuTime ps u < ulongCard)
    (hused : ∃ p ∈ ps, 0 < p.utime) (contents contents' : ℕ → ℕ) (maxUser usrId u : ℕ) :
    (topuser (some contents) ps usrId = .ok (0, u) ↔ First Process.uid (fun _ => 1) ps u) ∧
      (timeuser (some contents') maxUser ps usrId = .ok (0, u) ↔
        First Process.uid Process.utime ps u) := by
  have hne : ps ≠ [] := by
    rintro rfl
    obtain ⟨p, hp, -⟩ := hused
    cases hp
  obtain ⟨most, htop, hmost⟩ := topuser_first hps hlength hne contents usrId
  obtain ⟨longest, htime, hlongest⟩ := timeuser_first hps hfits hused contents' maxUser usrId
  constructor
  · rw [htop, Except.ok.injEq, Prod.mk.injEq]
    exact ⟨fun h => h.2 ▸ hmost, fun h => ⟨rfl, hmost.unique h⟩⟩
  · rw [htime, Except.ok.injEq, Prod.mk.injEq]
    exact ⟨fun h => h.2 ▸ hlongest, fun h => ⟨rfl, hlongest.unique h⟩⟩

/-- A tie: user `1000` is the first to have two processes, and user `0` the first to have used `3`. -/
theorem first_user_iff_tie :
    (topuser (some fun _ => 5)
        [{ uid := 1000 }, { utime := 3 }, { uid := 1000, utime := 3 }, {}] 9 = .ok (0, 1000) ↔
      First Process.uid (fun _ => 1)
        [{ uid := 1000 }, { utime := 3 }, { uid := 1000, utime := 3 }, {}] 1000) ∧
    (timeuser (some fun _ => 5) 9
        [{ uid := 1000 }, { utime := 3 }, { uid := 1000, utime := 3 }, {}] 9 = .ok (0, 1000) ↔
      First Process.uid Process.utime
        [{ uid := 1000 }, { utime := 3 }, { uid := 1000, utime := 3 }, {}] 1000) := by
  apply first_user_iff (by decide) (by decide) _ (by decide)
  intro u
  by_cases h : 1000 = u
  · subst h
    decide
  · by_cases h' : 0 = u
    · subst h'
      decide
    · have hzero :
          cpuTime [{ uid := 1000 }, { utime := 3 }, { uid := 1000, utime := 3 }, {}] u = 0 := by
        simp [cpuTime, total, h, h']
      rw [hzero]
      decide

end LabSyscalls
