import SystemsProgramming.Classes1.Task3
import SystemsProgramming.Classes1.Task4Cancel
import SystemsProgramming.Classes1.Task5
import SystemsProgramming.Library.TryProtects

/-!
# What is printed by the readers of `Task3.c`, `Task4.c` and `Task5.c`

The printed lines form a log of registers: a line that shows the value of an object shows the value of
the last writer's line about it.
-/

/-! ### `Task3.c` -/

namespace Task3

open Pthread Transition TryLightswitch Register

/-- What a line says of the object at an index. -/
def access : Line → Option (Access ℤ ℤ)
  | .writing value arrayIdx => some (.write arrayIdx value)
  | .reading value arrayIdx => some (.read arrayIdx value)

variable {T X : Type} [DecidableEq X] {next : T → ℕ → ℤ → Option (TryCall X)} {initialData : ℤ}
  {arrayIdx : X → ℤ}

theorem announces : (threads next).Announces (fun x objects => (objects x).data) arrayIdx
    (fun objects => ∀ x, (objects x).arrayIdx = arrayIdx x) access :=
  announces_of_fields ConcurrentObject.data ConcurrentObject.arrayIdx .reading .writing
    (fun object c => { object with readersCount := c }) (fun object v => { object with data := v })
    (fun _ _ _ => rfl) (fun _ => rfl) (fun _ => rfl) (fun _ _ => ⟨rfl, rfl⟩) (fun _ _ => ⟨rfl, rfl⟩)
    (fun _ _ => rfl) fun _ _ => rfl

/-- Every reader prints the value that was announced last for its object, and while nobody writes an
object it holds that value. -/
theorem reads_last_announced [Fintype T] [DecidableEq T]
    {s : St T X (X → ConcurrentObject) Line} (hidx : Function.Injective arrayIdx)
    (h : Reachable (Step (threads next).program)
      ((threads next).program.init fun x => allocateObject initialData (arrayIdx x)) s) (x : X) :
    Coherent (accessOf access) (arrayIdx x) initialData s.out ∧
      (¬ HasWriter x s →
        (s.data x).data = lastWrite (accessOf access) (arrayIdx x) initialData s.out) := by
  have hinv : ∀ s, Reachable (Step (threads next).program) ((threads next).program.init fun x =>
      allocateObject initialData (arrayIdx x)) s → (threads next).Inv x none s := by
    rintro s ⟨tr, htr⟩
    exact (inv_of_run lawful rfl rfl htr fun hl => absurd hl.symm (Option.some_ne_none _)).1
  exact coherent_of_announces announces hidx (fun _ => rfl) hinv h

/-- A writer writes `7`, and a reader reads it. -/
theorem reads_last_announced_seven :
    ∃ s : St (Unit ⊕ Unit) (Fin 1) (Fin 1 → ConcurrentObject) Line,
      s.out.map Prod.snd = [.writing 7 0, .reading 7 0] ∧
        Coherent (accessOf access) 0 0 s.out := by
  let S := threads (X := Fin 1) (loop (R := Unit) (W := Unit) 1 fun _ => 1)
  let ls : List (Event (Unit ⊕ Unit)) :=
    List.replicate 6 (.exec (.inr ()) 7) ++ List.replicate 8 (.exec (.inl ()) 0)
  have hs : (replay (exec S.program) ls (S.program.init fun _ => allocateObject 0 0)).isSome := rfl
  have h := reachable_of_replay (fun _ _ _ => step_of_exec) (Option.some_get hs).symm
  exact ⟨_, rfl, (reads_last_announced (fun x y _ => Subsingleton.elim x y) h 0).1⟩

end Task3

/-! ### `Task4.c` -/

namespace Task4

open Pthread Transition Register

/-- What a line says of the object. -/
def access : Line → Option (Access Unit ℤ)
  | .wrote v => some (.write () v)
  | .read v | .saved v => some (.read () v)

variable {R : Type} {n : ℕ} {readerRuns : R → ℕ} {writerRuns : Fin n → ℕ} {initialData : ℤ}
  {cells : ℕ → Bool}

/-- The log of the accesses of all threads. -/
def accessOf (e : (R ⊕ Worker n) × Line) : Option (Access Unit ℤ) := access e.2

/-- The object holds what was announced last. -/
def Known (initialData : ℤ) (object : ConcurrentObject) (o : Log R n) : Prop :=
  Holds accessOf () initialData object.data o

/-- Between the store of a writer and its announcement only the reads so far are known. -/
def knowledge (initialData : ℤ) (_ : Worker n) (l : Loc) (object : ConcurrentObject) (o : Log R n) :
    Prop :=
  Coherent accessOf () initialData o ∧
    (l.place ≠ .print → lastWrite accessOf () initialData o = object.data)

section Steps

variable {object object' : ConcurrentObject} {o : Log R n} {u : Worker n} {l l' : Loc}

theorem Known.knowledge (h : Known initialData object o) : knowledge initialData u l object o :=
  ⟨h.coherent, fun _ => h.last⟩

theorem known_of_knowledge (h : knowledge initialData u l object o) (hl : l.place ≠ .print) :
    Known initialData object o :=
  ⟨h.2 hl, h.1⟩

/-- A statement that leaves the data alone and prints nothing. -/
theorem knowledge_quiet (h : knowledge initialData u l object o) (hl : l.place ≠ .print)
    (hd : object'.data = object.data) : knowledge initialData u l' object' (o ++ []) := by
  rw [List.append_nil]
  exact ⟨h.1, fun _ => (h.2 hl).trans hd.symm⟩

theorem knowledge_writer {idx : Fin n} {runs : ℕ}
    {f : ℤ → ConcurrentObject → ConcurrentObject × List Line × Loc} (v : ℤ)
    (hf : writerThread runs idx l = .act f) (h : knowledge initialData (.writer idx) l object o) :
    knowledge initialData (.writer idx) (f v object).2.2 (f v object).1
      (o ++ (f v object).2.1.map (Sum.inr (.writer idx), ·)) := by
  obtain ⟨i, p⟩ := l
  cases p with
  | lock =>
      simp only [writerThread] at hf
      split at hf <;> cases hf
  | test | check | count | record | full =>
      injection hf with hf
      subst hf
      exact knowledge_quiet h (by simp) rfl
  | store =>
      injection hf with hf
      subst hf
      show knowledge initialData _ ⟨i, .print⟩ _ (o ++ [])
      rw [List.append_nil]
      exact ⟨h.1, fun hl => absurd rfl hl⟩
  | print =>
      injection hf with hf
      subst hf
      have hwrite : Holds accessOf () initialData object.data
          (o ++ [(Sum.inr (.writer idx), .wrote object.data)]) := h.1.write rfl
      exact Known.knowledge hwrite
  | wait | broadcast | unlock | reset | clear | save => cases hf

theorem knowledge_critic {f : ℤ → ConcurrentObject → ConcurrentObject × List Line × Loc} (v : ℤ)
    (hf : criticThread l = .act f) (h : knowledge initialData (.critic : Worker n) l object o) :
    knowledge initialData (.critic : Worker n) (f v object).2.2 (f v object).1
      (o ++ (f v object).2.1.map (Sum.inr .critic, ·)) := by
  obtain ⟨i, p⟩ := l
  cases p with
  | test | reset =>
      injection hf with hf
      subst hf
      exact knowledge_quiet h (by simp) rfl
  | clear k =>
      injection hf with hf
      subst hf
      by_cases hk : k < object.numWriters
      · simp only [if_pos hk]
        exact knowledge_quiet h (by simp) rfl
      · simp only [if_neg hk]
        exact knowledge_quiet h (by simp) rfl
  | save =>
      injection hf with hf
      subst hf
      have hread : Holds accessOf () initialData object.data
          (o ++ [(Sum.inr .critic, .saved object.data)]) :=
        Holds.read (known_of_knowledge h (by simp)) rfl
      exact Known.knowledge hread
  | lock | wait | check | count | record | full | broadcast | store | print | unlock => cases hf

end Steps

theorem protects_known : (threads readerRuns writerRuns).Protects (Known initialData)
    (knowledge (R := R) initialData) where
  free_setCount _ h := h
  held_setCount _ h := h
  reading {st} hst {object o} i r h := by
    obtain rfl := List.mem_singleton.1 hst
    exact Holds.read h rfl
  lock _ h := h.knowledge
  unlock {u l next object o} hi h := by
    refine known_of_knowledge h ?_
    rw [place_of_unlock hi]
    exact nofun
  wait {u l c next object o} hi h := by
    refine known_of_knowledge h ?_
    rw [(place_of_wait hi).1]
    exact nofun
  woken _ h := h.knowledge
  broadcast {u l c next object o} hi h := by
    have hknown := known_of_knowledge h (by rw [(place_of_broadcast hi).1]; exact nofun)
    exact hknown.knowledge
  act {u l f object o} v hi h := by
    cases u with
    | writer idx => exact knowledge_writer v hi h
    | critic => exact knowledge_critic v hi h

section Runs

variable [DecidableEq R] [Fintype R]

/-- In every reachable state of the threads the reads so far were right, and while `writer_mutex` is
free the object holds what was announced last. -/
theorem coherent_of_reachable
    {s : Lightswitch.St R (Worker n) ConcurrentObject Loc Mutex Unit Line}
    (h : Reachable (Step (threads readerRuns writerRuns).program)
      ((threads readerRuns writerRuns).program.init (allocateObject initialData n cells)) s) :
    Coherent accessOf () initialData s.out ∧
      (s.owner .writerMutex = none → Known initialData s.data s.out) := by
  have hI := Lightswitch.inv_of_reachable lawful rfl h
  have hP := Lightswitch.protected_of_reachable lawful protects_known rfl holds_nil h
  refine ⟨?_, fun ho => hP.free fun u hu => ?_⟩
  · by_cases hheld : ∃ u, s.owner .writerMutex = some (.inr u)
    · obtain ⟨u, hu⟩ := hheld
      obtain ⟨l, hc, hl⟩ := (hI.crit u).1 hu
      exact (hP.held u l hc hl).1
    · exact (hP.free fun u hu => hheld ⟨u, hu⟩).coherent
  · rw [show (threads readerRuns writerRuns).room = .writerMutex from rfl, ho] at hu
    cases hu

/-- In the handler the object holds what was announced last. -/
def KnownInHandler (initialData : ℤ) (s : CancelState R n) : Prop :=
  s.critic = .cleanUp ∨ s.critic = .save ∨ s.critic = .ended →
    Known initialData s.base.data s.base.out

theorem knownInHandler_step {s s' : CancelState R n} {done : ℕ}
    (hB : Booked readerRuns writerRuns initialData cells done s) (hK : KnownInHandler initialData s)
    {e : CancelEvent R n} (h : cancelExec readerRuns writerRuns s e = some s') :
    KnownInHandler initialData s' := by
  cases e with
  | thread e =>
      simp only [cancelExec] at h
      split at h
      · cases h
      · next hrun =>
          rw [Option.map_eq_some_iff] at h
          obtain ⟨base, hb, rfl⟩ := h
          intro hst
          have hst : s.critic = .cleanUp ∨ s.critic = .save ∨ s.critic = .ended := hst
          cases hB with
          | code _ _ _ stage => rcases stage with h | ⟨h, -⟩ <;> simp [h] at hst
          | handler hj _ _ =>
              -- everybody else has been joined
              by_cases he : e.thread = .inr .critic
              · refine absurd ⟨he, fun hc => ?_⟩ hrun
                simp [hc] at hst
              · rw [exec_of_joined hj he] at hb
                cases hb
  | cancel =>
      simp only [cancelExec, Option.ite_none_right_eq_some, Option.some.injEq] at h
      exact h.2 ▸ hK
  | unwind =>
      simp only [cancelExec, Option.ite_none_right_eq_some, Option.some.injEq] at h
      obtain ⟨-, rfl⟩ := h
      intro hst
      simp at hst
  | reacquire =>
      simp only [cancelExec, Option.ite_none_right_eq_some, Option.some.injEq] at h
      obtain ⟨⟨hst, ho⟩, rfl⟩ := h
      cases hB with
      | code hr _ _ _ => exact fun _ => (coherent_of_reachable hr).2 ho
      | handler _ _ stage =>
          rw [hst] at stage
          exact stage.elim
  | handler =>
      cases hst : s.critic with
      | cleanUp =>
          simp only [cancelExec, hst, Option.some.injEq] at h
          subst h
          exact fun _ => hK (Or.inl hst)
      | save =>
          simp only [cancelExec, hst, Option.some.injEq] at h
          subst h
          have hknown : Holds accessOf () initialData s.base.data.data s.base.out :=
            hK (Or.inr (Or.inl hst))
          exact fun _ => hknown.read rfl
      | running | unwinding | ended => simp [cancelExec, hst] at h

/-- Every value that a reader prints, or that the critic or its cleanup handler saves, is the one that a
writer announced last. -/
theorem shows_last_announced (hn : 0 < n) {s : CancelState R n}
    (h : Reachable (CancelStep readerRuns writerRuns) (.init ((threads readerRuns
      writerRuns).program.init (allocateObject initialData n cells))) s) :
    Coherent accessOf () initialData s.base.out := by
  obtain ⟨tr, htr⟩ := h
  have hK : KnownInHandler initialData s := by
    induction htr with
    | nil => exact fun hst => by simp [CancelState.init] at hst
    | snoc hrun hs ih => exact knownInHandler_step (Booked.of_run hn hrun) ih hs
  cases Booked.of_run hn htr with
  | code hr _ _ _ => exact (coherent_of_reachable hr).1
  | handler _ _ stage =>
      refine (hK ?_).coherent
      cases hst : s.critic with
      | cleanUp | save | ended => simp
      | running | unwinding =>
          rw [hst] at stage
          exact stage.elim

/-- The handler saves what one writer wrote. -/
theorem shows_last_announced_handler :
    ∃ s : CancelState Unit 1,
      s.base.out = [(.inr (.writer 0), .wrote 7), (.inr .critic, .saved 7)] ∧
        Coherent accessOf () 0 s.base.out := by
  let S := threads (R := Unit) (n := 1) (fun _ => 0) fun _ => 1
  let ls : List (CancelEvent Unit 1) :=
    List.replicate 3 (.thread (.exec (.inr .critic) 0)) ++
      List.replicate 10 (.thread (.exec (.inr (.writer 0)) 7)) ++
      [.cancel, .unwind, .reacquire, .handler, .handler]
  have hs : (replay (cancelExec (fun _ : Unit => 0) fun _ : Fin 1 => 1) ls
      (.init (S.program.init (allocateObject 0 1 fun _ => true)))).isSome := rfl
  exact ⟨_, rfl, shows_last_announced (by decide)
    (reachable_of_replay (fun _ _ _ => id) (Option.some_get hs).symm)⟩

end Runs

end Task4

/-! ### `Task5.c` -/

namespace Task5

open Pthread Transition TryLightswitch Register

/-- What a line says of the object at an index. -/
def access : Line → Option (Access ℤ ℤ)
  | .writing value arrayIdx => some (.write arrayIdx value)
  | .reading value arrayIdx => some (.read arrayIdx value)

variable {T X : Type} [DecidableEq X] {next : T → ℕ → ℤ → Option (TryCall X)} {initialData : ℤ}
  {readersLimit arrayIdx : X → ℤ}

theorem announces : (threads next).Announces (fun x objects => (objects x).data) arrayIdx
    (fun objects => ∀ x, (objects x).arrayIdx = arrayIdx x) access :=
  announces_of_fields ConcurrentObject.data ConcurrentObject.arrayIdx .reading .writing
    (fun object c => { object with readersCount := c }) (fun object v => { object with data := v })
    (fun _ _ _ => rfl) (fun _ => rfl) (fun _ => rfl) (fun _ _ => ⟨rfl, rfl⟩) (fun _ _ => ⟨rfl, rfl⟩)
    (fun _ _ => rfl) fun _ _ => rfl

/-- Every reader of an object whose limit is not zero prints the value that was announced last for it,
and while nobody writes the object it holds that value. -/
theorem limited_reads_last_announced [Fintype T] [DecidableEq T]
    {s : St T X (X → ConcurrentObject) Line} (hidx : Function.Injective arrayIdx)
    (h : Reachable (Step (threads next).program) ((threads next).program.init fun x =>
      allocateObject initialData (readersLimit x) (arrayIdx x)) s)
    {x : X} (hx : readersLimit x ≠ 0) :
    Coherent (accessOf access) (arrayIdx x) initialData s.out ∧
      (¬ HasWriter x s →
        (s.data x).data = lastWrite (accessOf access) (arrayIdx x) initialData s.out) := by
  have hinv : ∀ s, Reachable (Step (threads next).program) ((threads next).program.init fun x =>
      allocateObject initialData (readersLimit x) (arrayIdx x)) s →
      (threads next).Inv x (some (readersLimit x)) s := by
    rintro s ⟨tr, htr⟩
    exact (inv_of_run lawful rfl rfl htr fun hl => absurd (Option.some.inj hl) hx).1
  exact coherent_of_announces announces hidx (fun _ => rfl) hinv h

/-- A writer writes `7`, and a reader reads it. -/
theorem limited_reads_last_announced_seven :
    ∃ s : St (Unit ⊕ Unit) (Fin 1) (Fin 1 → ConcurrentObject) Line,
      s.out.map Prod.snd = [.writing 7 0, .reading 7 0] ∧
        Coherent (accessOf access) 0 0 s.out := by
  let S := threads (X := Fin 1) (loop (R := Unit) (W := Unit) 1 fun _ => 1)
  let ls : List (Event (Unit ⊕ Unit)) :=
    List.replicate 6 (.exec (.inr ()) 7) ++ List.replicate 9 (.exec (.inl ()) 0)
  have hs : (replay (exec S.program) ls
      (S.program.init fun _ => allocateObject 0 1 0)).isSome := rfl
  have h := reachable_of_replay (fun _ _ _ => step_of_exec) (Option.some_get hs).symm
  exact ⟨_, rfl, (limited_reads_last_announced (fun x y _ => Subsingleton.elim x y) h
    (x := 0) (by decide)).1⟩

end Task5
