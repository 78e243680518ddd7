import SystemsProgramming.Library.Pthread
import Mathlib.Data.Set.Insert
import Mathlib.Data.Set.Lattice
import Mathlib.Order.WellFounded

/-!
# A program that starts threads and joins them

`main` is a list of statements.  It starts threads, joins them, runs statements of its own on what it
shares with them, and frees that at last.  A thread can step once it has been started and as long as
`main` has not returned; it is joined when its function has returned.

`Orderly` is what a reader checks in the list: nothing is joined before everything is started, and
all is joined before anything is freed and before `main` returns.  Then no thread touches what has been
freed (`Sound.quiet_of_freed`), and `main` can only be stuck where the threads are (`stuck_cases`).
-/

namespace ForkJoin

open Transition

variable {σ T ε : Type}

/-- The threads: their steps on what they share, and which thread a step is of.  A step of no thread
is a statement of `main`. -/
structure Workers (σ T ε : Type) where
  exec : σ → ε → Option σ
  thread : ε → Option T
  returned : σ → T → Bool

/-- A thread whose function has returned is done. -/
structure Workers.Lawful (W : Workers σ T ε) : Prop where
  stays : ∀ {s s' e t}, W.exec s e = some s' → W.returned s t = true → W.returned s' t = true
  stops : ∀ {s e t}, W.thread e = some t → W.returned s t = true → W.exec s e = none

/-- The steps of the threads and the statements of `main` on what they share. -/
def Workers.Step (W : Workers σ T ε) (s : σ) (e : ε) (s' : σ) : Prop := W.exec s e = some s'

/-- A statement of `main`. -/
inductive Op (T ε : Type) where
  /-- `pthread_create` -/
  | create (t : T)
  /-- `pthread_join` -/
  | join (t : T)
  /-- a statement on what the threads share -/
  | call (e : ε)
  /-- `free` of what the threads share -/
  | free

/-- A state of the program. -/
structure Process (σ T ε : Type) where
  shared : σ
  created : List T
  freed : Bool
  /-- The statements that `main` has not run yet. -/
  rest : List (Op T ε)

/-- The label of a step. -/
inductive Label (ε : Type) where
  | main
  | worker (e : ε)

/-- `main` at its first statement. -/
def Process.start (s₀ : σ) (ops : List (Op T ε)) : Process σ T ε where
  shared := s₀
  created := []
  freed := false
  rest := ops

section Exec

variable [DecidableEq T] (W : Workers σ T ε)

/-- One step, when it is possible. -/
def exec (p : Process σ T ε) : Label ε → Option (Process σ T ε)
  | .main =>
    match p.rest with
    | [] => none
    | .create t :: ops => some { p with created := t :: p.created, rest := ops }
    | .join t :: ops => if W.returned p.shared t = true then some { p with rest := ops } else none
    | .call e :: ops => (W.exec p.shared e).map fun s => { p with shared := s, rest := ops }
    | .free :: ops => some { p with freed := true, rest := ops }
  | .worker e =>
    match W.thread e with
    | none => none
    | some t =>
      if t ∈ p.created ∧ p.rest.isEmpty = false then
        (W.exec p.shared e).map fun s => { p with shared := s }
      else none

end Exec

/-- The steps of `exec`, one constructor for each kind. -/
inductive Step (W : Workers σ T ε) (p : Process σ T ε) : Label ε → Process σ T ε → Prop
  | create {t ops} : p.rest = .create t :: ops →
      Step W p .main { p with created := t :: p.created, rest := ops }
  | join {t ops} : p.rest = .join t :: ops → W.returned p.shared t = true →
      Step W p .main { p with rest := ops }
  | call {e ops s} : p.rest = .call e :: ops → W.exec p.shared e = some s →
      Step W p .main { p with shared := s, rest := ops }
  | free {ops} : p.rest = .free :: ops → Step W p .main { p with freed := true, rest := ops }
  | worker {e t s} : W.thread e = some t → t ∈ p.created → p.rest ≠ [] →
      W.exec p.shared e = some s → Step W p (.worker e) { p with shared := s }

variable {W : Workers σ T ε} {p p' : Process σ T ε} {l : Label ε} {s₀ : σ} {ops : List (Op T ε)}

theorem step_of_exec [DecidableEq T] (h : exec W p l = some p') : Step W p l p' := by
  cases l with
  | main =>
      cases hr : p.rest with
      | nil => simp [exec, hr] at h
      | cons op ops =>
          cases op with
          | create t =>
              simp only [exec, hr, Option.some.injEq] at h
              exact h ▸ .create hr
          | join t =>
              simp only [exec, hr, Option.ite_none_right_eq_some, Option.some.injEq] at h
              exact h.2 ▸ .join hr h.1
          | call e =>
              simp only [exec, hr, Option.map_eq_some_iff] at h
              obtain ⟨s, hs, rfl⟩ := h
              exact .call hr hs
          | free =>
              simp only [exec, hr, Option.some.injEq] at h
              exact h ▸ .free hr
  | worker e =>
      cases ht : W.thread e with
      | none => simp [exec, ht] at h
      | some t =>
          simp only [exec, ht, Option.ite_none_right_eq_some, Option.map_eq_some_iff] at h
          obtain ⟨⟨hmem, hrest⟩, s, hs, rfl⟩ := h
          exact .worker ht hmem (by simpa using hrest) hs

theorem Step.exec_eq [DecidableEq T] (h : Step W p l p') : exec W p l = some p' := by
  cases h with
  | create hr => simp [exec, hr]
  | join hr ht => simp [exec, hr, ht]
  | call hr hs => simp [exec, hr, hs]
  | free hr => simp [exec, hr]
  | worker ht hmem hrest hs => simp [exec, ht, hmem, hrest, hs]

theorem Step.of_worker {e : ε} (h : Step W p (.worker e) p') :
    ∃ t, W.thread e = some t ∧ W.exec p.shared e = some p'.shared := by
  cases h with
  | worker ht _ _ hs => exact ⟨_, ht, hs⟩

/-! ### What the threads share -/

/-- The step of the threads in a step of the program. -/
def sharedStep (q : Process σ T ε × Label ε) : Option (σ × ε) :=
  match q.2 with
  | .worker e => some (q.1.shared, e)
  | .main =>
    match q.1.rest with
    | .call e :: _ => some (q.1.shared, e)
    | _ => none

/-- The run of the threads in a run of the program. -/
def sharedRun (tr : List (Process σ T ε × Label ε)) : List (σ × ε) := tr.filterMap sharedStep

theorem run_shared {tr : List (Process σ T ε × Label ε)}
    (h : Run (Step W) (.start s₀ ops) tr p) : Run W.Step s₀ (sharedRun tr) p.shared := by
  induction h with
  | nil => exact .nil
  | @snoc tr p p' l _ hs ih =>
      rw [sharedRun, List.filterMap_append]
      have hquiet : sharedStep (p, l) = none → p'.shared = p.shared →
          Run W.Step s₀ (tr.filterMap sharedStep ++ [(p, l)].filterMap sharedStep) p'.shared := by
        intro hnone hd
        rw [List.filterMap_cons_none hnone, List.filterMap_nil, List.append_nil, hd]
        exact ih
      cases hs with
      | create hr => exact hquiet (by simp [sharedStep, hr]) rfl
      | join hr => exact hquiet (by simp [sharedStep, hr]) rfl
      | free hr => exact hquiet (by simp [sharedStep, hr]) rfl
      | @call e ops s hr hs =>
          have hsome : sharedStep (p, .main) = some (p.shared, e) := by simp [sharedStep, hr]
          rw [List.filterMap_cons_some hsome]
          exact ih.snoc hs
      | worker _ _ _ hs => exact ih.snoc hs

theorem reachable_shared (h : Reachable (Step W) (.start s₀ ops) p) :
    Reachable W.Step s₀ p.shared := by
  obtain ⟨tr, h⟩ := h
  exact (run_shared h).reachable

/-! ### The order of the statements -/

/-- The statements start everything before they join anything, and join everything before they free
anything and before they end; some threads are already `created` or `joined`. -/
def Orderly (created joined : Set T) : List (Op T ε) → Prop
  | [] => ∀ t, t ∈ joined
  | .create t :: ops => Orderly (insert t created) joined ops
  | .join t :: ops => (∀ u, u ∈ created) ∧ Orderly created (insert t joined) ops
  | .call _ :: ops => (∀ u, u ∈ created) ∧ Orderly created joined ops
  | .free :: ops => (∀ u, u ∈ joined) ∧ Orderly created joined ops

/-- A loop that starts threads. -/
theorem orderly_creates {ι : Type} (f : ι → T) (is : List ι) {created joined : Set T}
    (h : Orderly (created ∪ {t | ∃ i ∈ is, f i = t}) joined ops) :
    Orderly created joined (is.map (fun i => .create (f i)) ++ ops) := by
  induction is generalizing created with
  | nil => simpa using h
  | cons i is ih =>
      refine ih ?_
      convert h using 1
      ext t
      simp [or_assoc, or_left_comm, eq_comm]

/-- A loop that joins threads. -/
theorem orderly_joins {ι : Type} (f : ι → T) (is : List ι) {created joined : Set T}
    (hall : ∀ u, u ∈ created) (h : Orderly created (joined ∪ {t | ∃ i ∈ is, f i = t}) ops) :
    Orderly created joined (is.map (fun i => .join (f i)) ++ ops) := by
  induction is generalizing joined with
  | nil => simpa using h
  | cons i is ih =>
      refine ⟨hall, ih ?_⟩
      convert h using 1
      ext t
      simp [or_assoc, or_left_comm, eq_comm]

/-- `main` starts two families of threads and joins them in the same order. -/
def startAndJoin {n m : ℕ} (first : Fin n → T) (second : Fin m → T) : List (Op T ε) :=
  (List.finRange n).map (fun i => .create (first i)) ++
    ((List.finRange m).map (fun i => .create (second i)) ++
      ((List.finRange n).map (fun i => .join (first i)) ++
        (List.finRange m).map (fun i => .join (second i))))

theorem orderly_startAndJoin {n m : ℕ} {first : Fin n → T} {second : Fin m → T}
    (hall : ∀ t, (∃ i, first i = t) ∨ ∃ i, second i = t) (h : Orderly Set.univ Set.univ ops) :
    Orderly ∅ ∅ (startAndJoin first second ++ ops) := by
  have huniv : ∅ ∪ {t | ∃ i ∈ List.finRange n, first i = t} ∪
      {t | ∃ i ∈ List.finRange m, second i = t} = Set.univ := by
    ext t
    simpa using hall t
  simp only [startAndJoin, List.append_assoc]
  refine orderly_creates first _ (orderly_creates second _ ?_)
  rw [huniv]
  refine orderly_joins first _ (fun _ => trivial) (orderly_joins second _ (fun _ => trivial) ?_)
  rwa [huniv]

theorem call_not_mem_startAndJoin {n m : ℕ} {first : Fin n → T} {second : Fin m → T}
    (h : ∀ e, .call e ∉ ops) (e : ε) : .call e ∉ startAndJoin first second ++ ops := by
  simp [startAndJoin, h]

theorem orderly_startAndJoin_self {n m : ℕ} {first : Fin n → T} {second : Fin m → T}
    (hall : ∀ t, (∃ i, first i = t) ∨ ∃ i, second i = t) :
    Orderly ∅ ∅ (startAndJoin first second : List (Op T ε)) := by
  rw [← List.append_nil (startAndJoin first second)]
  exact orderly_startAndJoin hall fun _ => trivial

theorem call_not_mem_startAndJoin_self {n m : ℕ} {first : Fin n → T} {second : Fin m → T} (e : ε) :
    .call e ∉ startAndJoin first second := by
  simp [startAndJoin]

/-- What holds in every reachable state. -/
def Sound (W : Workers σ T ε) (p : Process σ T ε) : Prop :=
  ∃ joined : Set T, (∀ t ∈ joined, W.returned p.shared t = true) ∧
    Orderly {t | t ∈ p.created} joined p.rest ∧ (p.freed = true → ∀ t, t ∈ joined)

theorem Sound.step (hW : W.Lawful) (hp : Sound W p) (h : Step W p l p') : Sound W p' := by
  obtain ⟨joined, hjoined, horder, hfreed⟩ := hp
  cases h with
  | @create t ops hr =>
      rw [hr] at horder
      have hset : {u | u ∈ t :: p.created} = insert t {u | u ∈ p.created} := by
        ext u
        simp
      refine ⟨joined, hjoined, ?_, hfreed⟩
      rw [hset]
      exact horder
  | @join t ops hr ht =>
      rw [hr] at horder
      refine ⟨insert t joined, ?_, horder.2, fun hf u => Set.mem_insert_of_mem _ (hfreed hf u)⟩
      rintro u (rfl | hu)
      · exact ht
      · exact hjoined u hu
  | call hr hs =>
      rw [hr] at horder
      exact ⟨joined, fun t ht => hW.stays hs (hjoined t ht), horder.2, hfreed⟩
  | free hr =>
      rw [hr] at horder
      exact ⟨joined, hjoined, horder.2, fun _ => horder.1⟩
  | worker _ _ _ hs => exact ⟨joined, fun t ht => hW.stays hs (hjoined t ht), horder, hfreed⟩

theorem sound_of_reachable (hW : W.Lawful) (hops : Orderly ∅ ∅ ops)
    (h : Reachable (Step W) (.start s₀ ops) p) : Sound W p := by
  have hset : {t | t ∈ ([] : List T)} = ∅ := by simp
  refine h.invariant (fun _ _ _ hp hs => hp.step hW hs) ⟨∅, nofun, ?_, nofun⟩
  show Orderly {t | t ∈ []} ∅ ops
  rwa [hset]

/-- When `main` has returned, so have the threads. -/
theorem Sound.returned_of_end (hp : Sound W p) (hend : p.rest = []) (t : T) :
    W.returned p.shared t = true := by
  obtain ⟨joined, hjoined, horder, -⟩ := hp
  rw [hend] at horder
  exact hjoined t (horder t)

/-- Nobody touches what has been freed. -/
theorem Sound.quiet_of_freed [DecidableEq T] (hW : W.Lawful) (hp : Sound W p) (hf : p.freed = true)
    (e : ε) : exec W p (.worker e) = none := by
  obtain ⟨joined, hjoined, -, hfreed⟩ := hp
  by_contra hne
  obtain ⟨p', hp'⟩ := Option.ne_none_iff_exists'.1 hne
  obtain ⟨t, ht, hs⟩ := (step_of_exec hp').of_worker
  rw [hW.stops ht (hjoined t (hfreed hf t))] at hs
  cases hs

/-! ### Where `main` is stuck -/

/-- The steps of `main`, and those of the threads that meet `C`. -/
def Allowed (C : ε → Prop) : Label ε → Prop
  | .main => True
  | .worker e => C e

/-- No allowed step is possible. -/
def Stuck (W : Workers σ T ε) (C : ε → Prop) (p : Process σ T ε) : Prop :=
  ∀ l p', Allowed C l → ¬ Step W p l p'

/-- When `main` has returned the program is over. -/
theorem stuck_of_end {C : ε → Prop} (hend : p.rest = []) : Stuck W C p := by
  intro l p' _ hs
  cases hs with
  | create hr | join hr | call hr | free hr =>
      rw [hend] at hr
      cases hr
  | worker _ _ hrest => exact hrest hend

/-- `main` has returned, or it waits for a thread and no thread can step, or its own statement is
blocked. -/
theorem Sound.stuck_cases {C : ε → Prop} (hp : Sound W p) (h : Stuck W C p) :
    p.rest = [] ∨
    (∃ t ops, p.rest = .join t :: ops ∧ W.returned p.shared t = false ∧
      ∀ e u, W.thread e = some u → C e → W.exec p.shared e = none) ∨
    ∃ e ops, p.rest = .call e :: ops ∧ W.exec p.shared e = none := by
  obtain ⟨joined, hjoined, horder, hfreed⟩ := hp
  cases hr : p.rest with
  | nil => exact Or.inl rfl
  | cons op ops =>
      rw [hr] at horder
      cases op with
      | create t => exact absurd (.create hr) (h .main _ trivial)
      | free => exact absurd (.free hr) (h .main _ trivial)
      | join t =>
          refine Or.inr (Or.inl ⟨t, ops, rfl, ?_, fun e u hu hC => ?_⟩)
          · rw [← Bool.not_eq_true]
            exact fun ht => h .main _ trivial (.join hr ht)
          · by_contra hne
            obtain ⟨s, hs⟩ := Option.ne_none_iff_exists'.1 hne
            exact h (.worker e) _ hC (.worker hu (horder.1 u) (by rw [hr]; exact nofun) hs)
      | call e =>
          refine Or.inr (Or.inr ⟨e, ops, rfl, ?_⟩)
          by_contra hne
          obtain ⟨s, hs⟩ := Option.ne_none_iff_exists'.1 hne
          exact h .main _ trivial (.call hr hs)

/-! ### Termination -/

theorem Step.length_le (h : Step W p l p') : p'.rest.length ≤ p.rest.length := by
  cases h with
  | worker => exact le_rfl
  | create hr | join hr | call hr | free hr =>
      rw [hr]
      exact Nat.le_succ _

theorem Step.length_lt (h : Step W p .main p') : p'.rest.length < p.rest.length := by
  cases h with
  | create hr | join hr | call hr | free hr =>
      rw [hr]
      exact Nat.lt_succ_self _

/-- What is left of `main` is the end of it. -/
theorem rest_suffix (h : Reachable (Step W) (.start s₀ ops) p) : p.rest <:+ ops := by
  refine h.invariant (I := fun p => p.rest <:+ ops) (fun p l p' hp hs => ?_) List.suffix_rfl
  cases hs with
  | worker => exact hp
  | create hr | join hr | call hr | free hr =>
      rw [hr] at hp
      exact (List.suffix_cons _ _).trans hp

/-- What `main` has run, its joins and what a call of it has brought about. -/
theorem split_of_reachable (hW : W.Lawful) {e₀ : ε} {I : σ → Prop}
    (hcall : ∀ s s', W.exec s e₀ = some s' → I s')
    (hkeep : ∀ s e s', W.exec s e = some s' → I s → I s')
    (h : Reachable (Step W) (.start s₀ ops) p) :
    ∃ done, ops = done ++ p.rest ∧ (∀ t, .join t ∈ done → W.returned p.shared t = true) ∧
      (.call e₀ ∈ done → I p.shared) := by
  refine h.invariant (I := fun p => ∃ done, ops = done ++ p.rest ∧
    (∀ t, .join t ∈ done → W.returned p.shared t = true) ∧ (.call e₀ ∈ done → I p.shared))
    (fun p l p' hp hs => ?_) ⟨[], rfl, nofun, nofun⟩
  obtain ⟨done, hops, hjoin, hI⟩ := hp
  have hmove : ∀ {op : Op T ε} {rest : List (Op T ε)}, p.rest = op :: rest →
      ops = (done ++ [op]) ++ rest := by
    intro op rest hr
    rw [hops, hr, List.append_assoc, List.singleton_append]
  cases hs with
  | worker _ _ _ hs =>
      exact ⟨done, hops, fun t ht => hW.stays hs (hjoin t ht), fun he => hkeep _ _ _ hs (hI he)⟩
  | create hr | free hr =>
      refine ⟨_, hmove hr, fun t ht => hjoin t ?_, fun he => hI ?_⟩
      · simpa using ht
      · simpa using he
  | @join t ops' hr ht =>
      refine ⟨_, hmove hr, fun u hu => ?_, fun he => hI (by simpa using he)⟩
      have hu : .join u ∈ done ∨ u = t := by simpa using hu
      rcases hu with hu | rfl
      · exact hjoin u hu
      · exact ht
  | @call e ops' s hr hs =>
      refine ⟨_, hmove hr, fun u hu => hW.stays hs (hjoin u (by simpa using hu)), fun he => ?_⟩
      have he : .call e₀ ∈ done ∨ e₀ = e := by simpa using he
      rcases he with he | rfl
      · exact hkeep _ _ _ hs (hI he)
      · exact hcall _ _ hs

/-- A `main` that frees has done so when it returns. -/
theorem freed_of_end (hfree : .free ∈ ops) (h : Reachable (Step W) (.start s₀ ops) p)
    (hend : p.rest = []) : p.freed = true := by
  have hor : .free ∈ p.rest ∨ p.freed = true := by
    refine h.invariant (I := fun p => .free ∈ p.rest ∨ p.freed = true) (fun p l p' hp hs => ?_)
      (Or.inl hfree)
    cases hs with
    | worker => exact hp
    | free => exact Or.inr rfl
    | create hr | join hr | call hr =>
        rw [hr, List.mem_cons] at hp
        exact hp.imp (fun hp => hp.resolve_left nofun) id
  rw [hend] at hor
  exact hor.resolve_left List.not_mem_nil

/-- There is no infinite run of allowed steps. -/
def Terminates (W : Workers σ T ε) (C : ε → Prop) (s₀ : σ) (ops : List (Op T ε)) : Prop :=
  ∀ g : ℕ → Process σ T ε, Reachable (Step W) (.start s₀ ops) (g 0) →
    ¬ ∀ n, ∃ l, Allowed C l ∧ Step W (g n) l (g (n + 1))

/-- If the threads do not step for ever, the program does not. -/
theorem terminates_of_workers {C : ε → Prop}
    (hbase : ∀ f : ℕ → σ, Reachable W.Step s₀ (f 0) →
      ¬ ∀ n, ∃ e, (W.thread e).isSome = true ∧ C e ∧ W.Step (f n) e (f (n + 1))) :
    Terminates W C s₀ ops := by
  intro g h₀ hg
  have hreach : ∀ n, Reachable (Step W) (.start s₀ ops) (g n) := by
    intro n
    induction n with
    | zero => exact h₀
    | succ n ih =>
        obtain ⟨tr, htr⟩ := ih
        obtain ⟨l, -, hl⟩ := hg n
        exact (htr.snoc hl).reachable
  have hanti : Antitone fun n => (g n).rest.length :=
    antitone_nat_of_succ_le fun n => by
      obtain ⟨l, -, hl⟩ := hg n
      exact hl.length_le
  -- from some point on `main` does not step any more
  let N := Function.argmin fun n => (g n).rest.length
  have hmin : ∀ n, (g N).rest.length ≤ (g n).rest.length := fun n =>
    Function.argmin_le (fun n => (g n).rest.length) n
  refine hbase (fun n => (g (N + n)).shared) (reachable_shared (hreach N)) fun n => ?_
  obtain ⟨l, hC, hl⟩ := hg (N + n)
  cases l with
  | main =>
      have hlt := hl.length_lt
      have hle : (g (N + n)).rest.length ≤ (g N).rest.length := hanti (Nat.le_add_right N n)
      have := hmin (N + n + 1)
      omega
  | worker e =>
      obtain ⟨t, ht, hs⟩ := hl.of_worker
      exact ⟨e, by rw [ht]; rfl, hC, hs⟩

/-! ### Coming to the end -/

/-- The steps that are of a thread. -/
def Workers.OwnStep (W : Workers σ T ε) (s : σ) (e : ε) (s' : σ) : Prop :=
  (W.thread e).isSome = true ∧ W.exec s e = some s'

/-- While `main` waits the threads run as they would alone. -/
theorem reachable_of_own (hall : ∀ t, t ∈ p.created) (hrest : p.rest ≠ []) {s : σ}
    (h : Reachable W.OwnStep p.shared s) : Reachable (Step W) p { p with shared := s } := by
  obtain ⟨tr, h⟩ := h
  induction h with
  | nil => exact Reachable.refl p
  | @snoc tr s s' e _ hs ih =>
      obtain ⟨t, ht⟩ := Option.isSome_iff_exists.1 hs.1
      exact ih.trans (reachable_of_step (.worker ht (hall t) hrest hs.2))

/-- If the threads can always come to their end, so can `main`. -/
theorem can_end (hW : W.Lawful) (hcall : ∀ e, .call e ∉ ops) (hops : Orderly ∅ ∅ ops)
    (hbase : ∀ s, Reachable W.Step s₀ s →
      ∃ s', Reachable W.OwnStep s s' ∧ ∀ t, W.returned s' t = true)
    (h : Reachable (Step W) (.start s₀ ops) p) : ∃ p', Reachable (Step W) p p' ∧ p'.rest = [] := by
  have hend : ∃ p', Reachable (Step W) p p' ∧ Reachable (Step W) (.start s₀ ops) p' ∧
      p'.rest = [] := by
    refine exists_reachable_of_measure (fun p => p.rest.length) (fun p h hne => ?_) h
    have hgo : ∀ {p₁ p' : Process σ T ε}, Reachable (Step W) p p₁ → p₁.rest = p.rest →
        Step W p₁ .main p' → ∃ p', Reachable (Step W) p p' ∧
          Reachable (Step W) (.start s₀ ops) p' ∧ p'.rest.length < p.rest.length := by
      intro p₁ p' h₁ hr hs
      have h' := h₁.trans (reachable_of_step hs)
      exact ⟨p', h', h.trans h', hr ▸ hs.length_lt⟩
    cases hr : p.rest with
    | nil => exact absurd hr hne
    | cons op rest =>
        rw [hr] at hgo
        cases op with
        | create t => exact hgo (Reachable.refl p) hr (.create hr)
        | free => exact hgo (Reachable.refl p) hr (.free hr)
        | call e =>
            exact absurd ((rest_suffix h).subset (by rw [hr]; exact List.mem_cons_self ..)) (hcall e)
        | join t =>
            obtain ⟨joined, -, horder, -⟩ := sound_of_reachable hW hops h
            rw [hr] at horder
            obtain ⟨s', hs', hret⟩ := hbase p.shared (reachable_shared h)
            exact hgo (reachable_of_own horder.1 (by rw [hr]; simp) hs') hr (.join hr (hret t))
  obtain ⟨p', hp', -, hnil⟩ := hend
  exact ⟨p', hp', hnil⟩

end ForkJoin

namespace Pthread.Program

open Transition ForkJoin

variable {T D L M C O : Type} [DecidableEq T] [DecidableEq M] [DecidableEq C]
  (P : Program T D L M C O)

/-- The threads of a program, for its `main`. -/
def workers : Workers (State T D L M C O) T (Event T) where
  exec := exec P
  thread e := some e.thread
  returned := P.returned

theorem workers_lawful : P.workers.Lawful where
  stays hs ht := (step_of_exec hs).returned ht
  stops {s e t} he ht := by
    obtain rfl : e.thread = t := Option.some.inj he
    exact exec_of_returned ht

theorem workers_step : P.workers.Step = Step P := by
  funext s e s'
  exact propext exec_eq_some_iff

/-- `p` is reachable when `main` runs `ops` on the data `d₀`. -/
def ReachedBy (d₀ : D) (ops : List (Op T (Event T))) (p : Process (State T D L M C O) T (Event T)) :
    Prop :=
  Reachable (ForkJoin.Step P.workers) (.start (P.init d₀) ops) p

/-- No step is possible but spurious wake-ups. -/
def StuckAt (p : Process (State T D L M C O) T (Event T)) : Prop :=
  Stuck P.workers (fun e => ¬ e.Spurious) p

/-- There is no infinite run without spurious wake-ups. -/
def Terminates (d₀ : D) (ops : List (Op T (Event T))) : Prop :=
  ForkJoin.Terminates P.workers (fun e => ¬ e.Spurious) (P.init d₀) ops

variable {P} {d₀ : D} {p : Process (State T D L M C O) T (Event T)}
  {ops : List (Op T (Event T))}

theorem ReachedBy.shared (h : P.ReachedBy d₀ ops p) :
    Reachable (Step P) (P.init d₀) p.shared := by
  have h := reachable_shared h
  rwa [workers_step] at h

/-- When `main` has returned nobody can step. -/
theorem not_progresses_of_end (hops : Orderly ∅ ∅ ops)
    (h : P.ReachedBy d₀ ops p) (hend : p.rest = []) :
    ¬ Progresses P p.shared := by
  rintro ⟨e, s', -, hs⟩
  have hnone : exec P p.shared e = none := exec_of_returned
    ((sound_of_reachable P.workers_lawful hops h).returned_of_end hend e.thread)
  rw [hs.exec_eq] at hnone
  cases hnone

section Stuck

variable (hcall : ∀ e, .call e ∉ ops) (hops : Orderly ∅ ∅ ops)
  (h : P.ReachedBy d₀ ops p) (hstuck : P.StuckAt p)

include hcall hops h hstuck

/-- `main` without statements of its own is stuck only where the threads are. -/
theorem not_progresses_of_stuck : ¬ Progresses P p.shared := by
  have hp := sound_of_reachable P.workers_lawful hops h
  rcases hp.stuck_cases hstuck with hend | ⟨t, rest, -, -, hquiet⟩ | ⟨e', rest, hr, -⟩
  · exact not_progresses_of_end hops h hend
  · rintro ⟨e, s', he, hs⟩
    have hnone : exec P p.shared e = none := hquiet e e.thread rfl he
    rw [hs.exec_eq] at hnone
    cases hnone
  · exact absurd ((rest_suffix h).subset (by rw [hr]; exact List.mem_cons_self ..)) (hcall e')

/-- Then it has returned exactly if all threads have. -/
theorem end_iff_of_stuck : p.rest = [] ↔ ∀ t, P.returned p.shared t = true := by
  have hp := sound_of_reachable P.workers_lawful hops h
  refine ⟨fun hend => hp.returned_of_end hend, fun hall => ?_⟩
  rcases hp.stuck_cases hstuck with hend | ⟨t, rest, -, ht, -⟩ | ⟨e', rest, hr, -⟩
  · exact hend
  · have hall := hall t
    rw [show P.returned p.shared t = false from ht] at hall
    cases hall
  · exact absurd ((rest_suffix h).subset (by rw [hr]; exact List.mem_cons_self ..)) (hcall e')

end Stuck

/-- A program whose threads do not run for ever without spurious wake-ups does not either. -/
theorem terminates
    (hbase : ∀ f : ℕ → State T D L M C O, Reachable (Step P) (P.init d₀) (f 0) →
      ¬ ∀ n, ∃ e : Event T, ¬ e.Spurious ∧ Step P (f n) e (f (n + 1))) :
    P.Terminates d₀ ops := by
  refine terminates_of_workers fun f hf hall => ?_
  rw [workers_step] at hf hall
  refine hbase f hf fun n => ?_
  obtain ⟨e, -, he, hs⟩ := hall n
  exact ⟨e, he, hs⟩

/-- If the threads can always come to their end, so can `main`. -/
theorem can_end (hcall : ∀ e, .call e ∉ ops) (hops : Orderly ∅ ∅ ops)
    (hbase : ∀ s, Reachable (Step P) (P.init d₀) s →
      ∃ s', Reachable (Step P) s s' ∧ ∀ t, P.returned s' t = true)
    (h : P.ReachedBy d₀ ops p) :
    ∃ p', Reachable (ForkJoin.Step P.workers) p p' ∧ p'.rest = [] := by
  have hown : P.workers.OwnStep = Step P := by
    rw [← workers_step]
    funext s e s'
    exact propext (and_iff_right rfl)
  refine ForkJoin.can_end P.workers_lawful hcall hops (fun s hs => ?_) h
  rw [workers_step] at hs
  rw [hown]
  exact hbase s hs

end Pthread.Program
