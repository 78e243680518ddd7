import SystemsProgramming.Classes5.LinkedBuffer.Concurrent
import SystemsProgramming.Library.Merge

/-!
# Concurrent appends

While no call meets the clear command the list only grows, one chunk for each locked section.  So
it interleaves, for each call, as many of its chunks as the call has completed locked sections
(`appends_merge`), whatever fails in between.
-/

namespace LinkedBuffer

open Transition

/-- The bytes that a call writes. -/
def Request.userBuf : Request → List UInt8
  | .read _ _ => []
  | .write userBuf _ => userBuf

/-- The number of chunks of a call. -/
def chunkCount (userBuf : List UInt8) : ℕ := (userBuf.length + 3) / internalSize

/-- Some aligned chunk of the data is `xxx&`. -/
def HasClear (userBuf : List UInt8) : Prop := ∃ k, chunk userBuf k = clearCommand

theorem lt_chunkCount_iff {u : List UInt8} {k : ℕ} :
    internalSize * k < u.length ↔ k < chunkCount u := by
  simp only [chunkCount, internalSize]
  omega

/-- There are no chunks past the end of the data. -/
theorem chunk_eq_nil {u : List UInt8} {k : ℕ} (h : chunkCount u ≤ k) : chunk u k = [] := by
  have hlt : ¬ internalSize * k < u.length := fun hk => absurd (lt_chunkCount_iff.1 hk) (by omega)
  rw [chunk, List.drop_eq_nil_of_le (Nat.le_of_not_lt hlt), List.take_nil]

instance (u : List UInt8) : Decidable (HasClear u) :=
  decidable_of_iff (∃ k < chunkCount u, chunk u k = clearCommand) <| by
    refine exists_congr fun k => and_iff_right_of_imp fun hk => ?_
    by_contra hle
    rw [chunk_eq_nil (Nat.le_of_not_lt hle)] at hk
    cases hk

section

variable {C : Type} [DecidableEq C] (variant : Variant)

/-- The call is about to insert an entry. -/
def Ctrl.isLocking : Ctrl → Bool
  | .locking _ _ _ => true
  | _ => false

/-- The step completes a locked section of the `linked_write` call `c`. -/
def inserts (c : C) (p : State C × Event C) : Bool :=
  decide (p.2.call = c) && (p.1.ctrl c).isLocking && !decide (p.2.input.Signals variant)

/-- The number of locked sections that call `c` has completed. -/
def sections (tr : List (State C × Event C)) (c : C) : ℕ := tr.countP (inserts variant c)

end

/-- How far a call that has completed `k` locked sections can be. -/
def Progress (u : List UInt8) (k : ℕ) : Ctrl → Prop
  | .ready => k = 0
  | .loop i _ => i = internalSize * k ∧ k ≤ chunkCount u
  | .locking i _ data => i = internalSize * k ∧ i < u.length ∧ data.bytes = chunk u k
  | .adding i _ _ => i + internalSize = internalSize * k ∧ k ≤ chunkCount u
  | .clearing _ => False
  | .countingWrite _ => k = chunkCount u
  | .checking | .reading | .countingRead _ => k = 0
  | .returning r | .done r =>
    match r with
    | .wrote _ => k = chunkCount u
    | .failed _ _ => k ≤ chunkCount u
    | .cleared _ => False
    | .early | .read _ => k = 0

variable {variant : Variant} {input : Input} {m m' : Module} {req : Request} {k : ℕ}
  {ctrl ctrl' : Ctrl}

theorem Progress.le {u : List UInt8} (h : Progress u k ctrl) : k ≤ chunkCount u := by
  cases ctrl with
  | locking i f data =>
      obtain ⟨rfl, hlt, -⟩ := h
      exact (lt_chunkCount_iff.1 hlt).le
  | loop i f | adding i f data => exact h.2
  | clearing => exact h.elim
  | countingWrite f => exact h.le
  | ready | checking | reading | countingRead =>
      have : k = 0 := h
      omega
  | returning r | done r =>
      cases r with
      | wrote f => exact (show k = chunkCount u from h).le
      | failed e f => exact h
      | cleared f => exact (show False from h).elim
      | early | read v =>
          have : k = 0 := h
          omega

/-- A step of a call: it inserts its next chunk, or it inserts nothing. -/
theorem Moves.progress (h : Moves variant input m req ctrl m' ctrl') (hclear : ¬ HasClear req.userBuf)
    (hp : Progress req.userBuf k ctrl) :
    (m'.buffer = m.buffer ∧ Progress req.userBuf k ctrl' ∧
        (input.Signals variant ∨ ∀ i f d, ctrl ≠ .locking i f d)) ∨
      ∃ i f d, ctrl = .locking i f d ∧ ¬ input.Signals variant ∧ m'.buffer = m.buffer ++ [d] ∧
        d.bytes = chunk req.userBuf k ∧ Progress req.userBuf (k + 1) ctrl' := by
  cases h with
  | beginWrite =>
      obtain rfl : k = 0 := hp
      exact Or.inl ⟨rfl, ⟨rfl, Nat.zero_le _⟩, Or.inr nofun⟩
  | allocFails | copyFails => exact Or.inl ⟨rfl, hp.2, Or.inr nofun⟩
  | @findClear u f₀ i f hi hc =>
      obtain ⟨rfl, -⟩ := hp
      exact absurd ⟨k, (strncmp_newData hi).1 hc⟩ hclear
  | @prepare u f₀ i f hi hc =>
      obtain ⟨rfl, -⟩ := hp
      exact Or.inl ⟨rfl, ⟨rfl, hi, newData_bytes hi⟩, Or.inr nofun⟩
  | @endLoop u f₀ i f hi =>
      obtain ⟨rfl, hle⟩ := hp
      have hlt : ¬ k < chunkCount u := fun h => absurd (lt_chunkCount_iff.2 h) (by omega)
      exact Or.inl ⟨rfl, Nat.le_antisymm hle (Nat.le_of_not_lt hlt), Or.inr nofun⟩
  | signalWrite hs => exact Or.inl ⟨rfl, hp.le, Or.inl hs⟩
  | @insert u f₀ i f d hs =>
      obtain ⟨rfl, hlt, hd⟩ := hp
      refine Or.inr ⟨_, f, d, rfl, hs, rfl, hd, ?_, lt_chunkCount_iff.1 hlt⟩
      rw [Nat.mul_succ]
  | add => exact Or.inl ⟨rfl, hp, Or.inr nofun⟩
  | clean => exact (show False from hp).elim
  | countWrite => exact Or.inl ⟨rfl, hp, Or.inr nofun⟩
  | beginRead | early | enter | read | countRead => exact Or.inl ⟨rfl, hp, Or.inr nofun⟩
  | signalRead | readFails => exact Or.inl ⟨rfl, hp.le, Or.inr nofun⟩
  | @ret _ r => exact Or.inl ⟨rfl, by cases r <;> exact hp, Or.inr nofun⟩

/-! ### Runs -/

variable {C : Type} [DecidableEq C] {req : C → Request} {tr : List (State C × Event C)} {s s' : State C}
  {e : Event C} {c : C}

theorem sections_snoc : sections variant (tr ++ [(s, e)]) c =
    sections variant tr c + if inserts variant c (s, e) then 1 else 0 := by
  simp [sections, List.countP_append, List.countP_singleton]

/-- The list interleaves the chunks inserted so far, and each call is as far as it has inserted. -/
structure Appended (variant : Variant) (req : C → Request) (tr : List (State C × Event C))
    (s : State C) : Prop where
  merge : Merge (fun c => (List.range (sections variant tr c)).map (chunk (req c).userBuf))
    (s.module.buffer.map Data.bytes)
  progress : ∀ c, Progress (req c).userBuf (sections variant tr c) (s.ctrl c)

theorem appended_init : Appended variant req [] (init C) := ⟨.nil, fun _ => rfl⟩

/-- Calls other than the one that takes the step. -/
theorem sections_snoc_of_ne (h : c ≠ e.call) :
    sections variant (tr ++ [(s, e)]) c = sections variant tr c := by
  simp [sections_snoc, inserts, h.symm]

theorem Appended.step (hA : Appended variant req tr s) (hclear : ∀ c, ¬ HasClear (req c).userBuf)
    (h : Step variant req s e s') : Appended variant req (tr ++ [(s, e)]) s' := by
  obtain ⟨m, k, hm, rfl⟩ := h.moves
  have hrest : ∀ c, c ≠ e.call → Progress (req c).userBuf
      (sections variant (tr ++ [(s, e)]) c) (s.ctrl c) := by
    intro c hc
    rw [sections_snoc_of_ne hc]
    exact hA.progress c
  have hall : Progress (req e.call).userBuf (sections variant (tr ++ [(s, e)]) e.call) k →
      ∀ c, Progress (req c).userBuf (sections variant (tr ++ [(s, e)]) c)
        (Function.update s.ctrl e.call k c) := fun hp =>
    (Function.forall_update_iff s.ctrl fun c k =>
      Progress (req c).userBuf (sections variant (tr ++ [(s, e)]) c) k).2 ⟨hp, hrest⟩
  rcases hm.progress (hclear e.call) (hA.progress e.call) with
    ⟨hbuf, hp, hno⟩ | ⟨i, f, d, hctrl, hs, hbuf, hd, hp⟩
  · have hsec : sections variant (tr ++ [(s, e)]) e.call = sections variant tr e.call := by
      have : inserts variant e.call (s, e) = false := by
        rcases hno with hs | hl
        · simp [inserts, hs]
        · cases hc : s.ctrl e.call <;> simp [inserts, hc, Ctrl.isLocking]
          exact absurd hc (hl _ _ _)
      simp [sections_snoc, this]
    have hsame : ∀ c, sections variant (tr ++ [(s, e)]) c = sections variant tr c := fun c =>
      if hc : c = e.call then hc ▸ hsec else sections_snoc_of_ne hc
    refine ⟨?_, hall (hsec ▸ hp)⟩
    simp only [hsame, hbuf]
    exact hA.merge
  · have hsec : sections variant (tr ++ [(s, e)]) e.call = sections variant tr e.call + 1 := by
      simp [sections_snoc, inserts, hctrl, Ctrl.isLocking, hs]
    refine ⟨?_, hall (hsec ▸ hp)⟩
    have hmerge := hA.merge.snoc e.call d.bytes
    have hparts : (fun c => (List.range (sections variant (tr ++ [(s, e)]) c)).map
        (chunk (req c).userBuf)) = Function.update
          (fun c => (List.range (sections variant tr c)).map (chunk (req c).userBuf)) e.call
          ((List.range (sections variant tr e.call)).map (chunk (req e.call).userBuf) ++
            [d.bytes]) := by
      funext c
      by_cases hc : c = e.call
      · subst hc
        rw [Function.update_self, hsec, List.range_succ, List.map_append, hd]
        rfl
      · rw [Function.update_of_ne hc, sections_snoc_of_ne hc]
    rw [hparts, hbuf, List.map_append]
    exact hmerge

theorem appended_of_run (hclear : ∀ c, ¬ HasClear (req c).userBuf)
    (h : Run (Step variant req) (init C) tr s) : Appended variant req tr s := by
  induction h with
  | nil => exact appended_init
  | snoc _ hs ih => exact ih.step hclear hs

/-- The list is an interleaving of the calls' chunks: of each call exactly as many, from the first
on, as it has completed locked sections; they are a prefix of its data, and all of it once the call
has returned its count. -/
theorem appends_merge (hclear : ∀ c, ¬ HasClear (req c).userBuf)
    (h : Run (Step variant req) (init C) tr s) :
    Merge (fun c => (List.range (sections variant tr c)).map (chunk (req c).userBuf))
        (s.module.buffer.map Data.bytes) ∧
      ∀ c, sections variant tr c ≤ chunkCount (req c).userBuf ∧
        ((List.range (sections variant tr c)).map (chunk (req c).userBuf)).flatten <+:
          (req c).userBuf ∧
        ∀ userBuf fPos r, req c = .write userBuf fPos →
          s.ctrl c = .returning r ∨ s.ctrl c = .done r →
          (r.result (req c)).1 = .ok userBuf.length → sections variant tr c = chunkCount userBuf := by
  have hA := appended_of_run hclear h
  refine ⟨hA.merge, fun c => ⟨(hA.progress c).le, ?_, fun userBuf fPos r hreq hc hret => ?_⟩⟩
  · rw [flatten_chunks]
    exact List.take_prefix _ _
  · have hp := hA.progress c
    rw [hreq] at hp hret
    have hr : Progress userBuf (sections variant tr c) (.done r) := by
      rcases hc with hc | hc <;> rw [hc] at hp <;> cases r <;> exact hp
    cases r with
    | wrote f => exact hr
    | cleared f => exact (show False from hr).elim
    | failed e f => cases hret
    | early | read v =>
        have hzero : userBuf.length = 0 := by simpa [Return.result, eq_comm] using hret
        have hk : sections variant tr c = 0 := hr
        rw [hk, chunkCount, hzero]
        rfl

/-- Two calls write `1 2 3 4 5` and `6 7`; the second one comes between the chunks of the first. -/
theorem appends_merge_two_calls :
    ∃ s : State Bool, s.module.buffer.map Data.bytes = [[1, 2, 3, 4], [6, 7], [5]] ∧
      Merge (fun c : Bool => if c then [[1, 2, 3, 4], [5]] else [[6, 7]])
        (s.module.buffer.map Data.bytes) := by
  let req : Bool → Request := fun c => if c then .write [1, 2, 3, 4, 5] 0 else .write [6, 7] 0
  let events : List (Event Bool) :=
    [⟨true, {}⟩, ⟨true, {}⟩, ⟨true, {}⟩, ⟨false, {}⟩, ⟨false, {}⟩, ⟨false, {}⟩, ⟨true, {}⟩,
      ⟨true, {}⟩, ⟨true, {}⟩]
  have hs : (replay (exec .mutex req) events (init Bool)).isSome := rfl
  have hrun : Run (Step .mutex req) (init Bool) _ _ :=
    run_of_replay (fun _ _ _ h => h) (Option.some_get hs).symm
  have h := (appends_merge (by decide) hrun).1
  refine ⟨(replay (exec .mutex req) events (init Bool)).get hs, rfl, ?_⟩
  convert h using 2 with c
  revert c
  decide

end LinkedBuffer
