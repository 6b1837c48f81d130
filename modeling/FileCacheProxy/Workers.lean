import FileCacheProxy.ServiceOutcome
import FileCacheProxy.Teardown
import Mathlib

set_option autoImplicit false

/-! # Every listener gets a worker

`startService` commits one event loop for each thread index, and the thread of the pool that takes it
stays in `event_base_dispatch` until shutdown. The machine here is the process of `Service.lean`
together with the threads its pool starts (the workers of `Teardown.lean`, none of which leaves its
loop). A loop that is still in the queue when every thread has one will never run. -/

namespace FileCacheProxy

/-! ## The process and its pool -/

structure Running where
  process : Process
  workers : List Worker
  /-- `_tasks`: the event bases committed and not yet taken -/
  queue : List ℕ

/-- A statement or signal of the process, the next statement of worker `i`, or the start of a
    handler in its loop. -/
inductive RunningMove where
  | main (e : Event)
  | worker (i : ℕ)
  | handle (i : ℕ)
  deriving DecidableEq

def Running.new (processLog : Option Bytes) : Running :=
  ⟨Process.new processLog, [], []⟩

/-- The statement `new std::threadpool(ThreadCount)` comes next. -/
def Process.atNewPool (s : Process) : Event → Bool
  | .statement =>
      match s.point with
      | .init (.newThreadPool :: _) => true
      | _ => false
  | .deliver _ => false

/-- What the next statement puts into the queue of the pool. -/
def Process.commits (s : Process) : Event → List ℕ
  | .statement =>
      match s.point, s.proxy.mThreadPool with
      | .commit _, some _ => [s.locals.ev]
      | _, _ => []
  | .deliver _ => []

/-- The threads the pool of the process has started. -/
def Process.threads (s : Process) : ℕ :=
  (s.proxy.mThreadPool.map ThreadPool.threads).getD 0

/-- The threads of a new pool begin at `while (_run)`. -/
def Running.main (ienv : InitEnv) (senv : ServiceEnv) (s : Running) (e : Event) : Option Running :=
  (s.process.step ienv senv e).map (fun process =>
    if s.process.atNewPool e then ⟨process, List.replicate process.threads .testRun, []⟩
    else ⟨process, s.workers, s.queue ++ s.process.commits e⟩)

def Running.step (ienv : InitEnv) (senv : ServiceEnv) (s : Running) : RunningMove → Option Running
  | .main e => s.main ienv senv e
  | .worker i =>
      match s.workers[i]? with
      | none => none
      | some w =>
          (w.statement true s.queue []).map (fun r =>
            { s with workers := s.workers.set i r.1, queue := r.2.1 })
  | .handle i =>
      match s.workers[i]? with
      | some (.dispatching k) => some { s with workers := s.workers.set i (.handling k) }
      | _ => none

/-- A committed event loop waits behind loops that never return. -/
def Running.Starved (s : Running) : Prop :=
  s.queue ≠ [] ∧ ∀ w ∈ s.workers, w.loop.isSome

/-- How many workers have an event loop. -/
def Running.busy (s : Running) : ℕ :=
  s.workers.countP (fun w => w.loop.isSome)

/-! ## What a move can do -/

/-- What a move of the process does to the pool: it makes a new one, or adds what it commits. -/
theorem Process.step_pool {ienv : InitEnv} {senv : ServiceEnv} {s s' : Process} {e : Event}
    (h : s.step ienv senv e = some s') :
    (s.atNewPool e = true ∧ s'.committed = []) ∨
    (s.atNewPool e = false ∧ s'.threads = s.threads ∧
      s'.committed = s.committed ++ s.commits e) := by
  have hsame : s.atNewPool e = false → s'.proxy.mThreadPool = s.proxy.mThreadPool →
      s.commits e = [] → (s.atNewPool e = true ∧ s'.committed = []) ∨
        (s.atNewPool e = false ∧ s'.threads = s.threads ∧
          s'.committed = s.committed ++ s.commits e) := by
    intro hat hpool hcommits
    refine Or.inr ⟨hat, ?_, ?_⟩
    · rw [Process.threads, Process.threads, hpool]
    · rw [hcommits, List.append_nil, Process.committed, Process.committed, hpool]
  cases e with
  | deliver signum =>
      obtain ⟨-, p, n, rfl, rfl | rfl⟩ := Process.deliver_cases h
      · exact hsame rfl rfl rfl
      · exact hsame rfl rfl rfl
  | statement =>
      have hcommits : (∀ i, s.point ≠ .commit i) → s.commits .statement = [] := by
        intro hpt
        rw [Process.commits]
        split
        · next i _ hi _ => exact absurd hi (hpt i)
        · rfl
      have hat : (∀ rest, s.point ≠ .init (.newThreadPool :: rest)) →
          s.atNewPool .statement = false := by
        intro hpt
        rw [Process.atNewPool]
        split
        · next rest hrest => exact absurd hrest (hpt rest)
        · rfl
      obtain ⟨-, ⟨stmt, rest, hpt, hp⟩ | ⟨i, hpt, hp⟩ | ⟨i, hpt, hp⟩ | ⟨hp, hinit, hcommit⟩⟩ :=
        Process.statement_proxy h
      · by_cases hstmt : stmt = .newThreadPool
        · subst hstmt
          refine Or.inl ⟨by simp [Process.atNewPool, hpt], ?_⟩
          rw [Process.committed, hp]
          rfl
        · refine hsame (hat ?_) ?_ (hcommits (by simp [hpt]))
          · simpa [hpt] using hstmt
          · rw [hp]
            exact (stmt.exec_frame ienv s.proxy).mThreadPool hstmt
      · exact hsame (hat (by simp [hpt])) (by rw [hp]) (hcommits (by simp [hpt]))
      · refine Or.inr ⟨hat (by simp [hpt]), ?_, ?_⟩
        · rw [Process.threads, Process.threads, hp]
          cases s.proxy.mThreadPool <;> rfl
        · rw [Process.committed, Process.committed, hp]
          cases hpool : s.proxy.mThreadPool <;>
            simp [Process.commits, hpt, hpool, ThreadPool.commit]
      · exact hsame (hat (hinit .newThreadPool)) (by rw [hp]) (hcommits hcommit)

/-- A worker gets a loop by taking it from the queue, and keeps it; while `_run` is set it stays in
    `addThread`'s loop. -/
theorem Worker.statement_running {tasks asked tasks' asked' : List ℕ} {w w' : Worker}
    (h : w.statement true tasks asked = some (w', tasks', asked')) :
    tasks'.length + (if w'.loop.isSome then 1 else 0) =
      tasks.length + (if w.loop.isSome then 1 else 0) ∧ w' ≠ .left ∧ w' ≠ .exited := by
  cases w with
  | waiting =>
      cases tasks with
      | nil => cases h
      | cons k rest =>
          cases h
          exact ⟨rfl, by simp, by simp⟩
  | dispatching k => cases h
  | exited => cases h
  | _ =>
      cases h
      exact ⟨rfl, by simp, by simp⟩

/-- Replacing one worker changes a count by that worker. -/
theorem countP_set_add (f : Worker → Bool) {workers : List Worker} {i : ℕ} {w : Worker} (w' : Worker)
    (h : workers[i]? = some w) :
    (workers.set i w').countP f + (if f w then 1 else 0) =
      workers.countP f + (if f w' then 1 else 0) := by
  obtain ⟨hlt, hw⟩ := List.getElem?_eq_some_iff.1 h
  have hle := List.boole_getElem_le_countP (p := f) hlt
  rw [List.countP_set hlt]
  rw [hw] at hle ⊢
  omega

/-! ## The invariant -/

structure Running.Inv (ienv : InitEnv) (senv : ServiceEnv) (processLog : Option Bytes)
    (s : Running) : Prop where
  /-- The workers do not disturb the process. -/
  process : ∃ run, Transition.exec (Process.step ienv senv) (Process.new processLog) run
    = some s.process
  workers : s.workers.length = s.process.threads
  /-- Every committed loop is in the queue or has a worker. -/
  loops : s.queue.length + s.busy = s.process.committed.length
  /-- No worker has left its loop or the pool. -/
  staying : ∀ w ∈ s.workers, w ≠ .left ∧ w ≠ .exited

theorem Running.inv_new (ienv : InitEnv) (senv : ServiceEnv) (processLog : Option Bytes) :
    (Running.new processLog).Inv ienv senv processLog :=
  ⟨⟨[], rfl⟩, rfl, rfl, fun _ h => (by cases h)⟩

theorem Running.Inv.step {ienv : InitEnv} {senv : ServiceEnv} {processLog : Option Bytes}
    {s s' : Running} {mv : RunningMove} (hinv : s.Inv ienv senv processLog)
    (h : s.step ienv senv mv = some s') : s'.Inv ienv senv processLog := by
  cases mv with
  | main e =>
      obtain ⟨process, hstep, rfl⟩ := Option.map_eq_some_iff.1 h
      obtain ⟨run, hrun⟩ := hinv.process
      have hrun' : ∃ run, Transition.exec (Process.step ienv senv) (Process.new processLog) run
          = some process := ⟨run ++ [e], Transition.exec_snoc hrun hstep⟩
      rcases Process.step_pool hstep with ⟨hat, hnone⟩ | ⟨hat, hthreads, hcommitted⟩
      · rw [if_pos hat]
        refine ⟨hrun', List.length_replicate, ?_, fun w hw => ?_⟩
        · rw [hnone]
          simp [Running.busy, List.countP_replicate, Worker.loop]
        · rw [List.eq_of_mem_replicate hw]
          exact ⟨by simp, by simp⟩
      · rw [hat]
        refine ⟨hrun', hinv.workers.trans hthreads.symm, ?_, hinv.staying⟩
        have hloops := hinv.loops
        simp only [Running.busy] at hloops ⊢
        simp only [Bool.false_eq_true, if_false, hcommitted, List.length_append]
        omega
  | worker i =>
      simp only [Running.step] at h
      split at h
      · cases h
      · next w hw =>
          obtain ⟨⟨w', queue', asked'⟩, hst, rfl⟩ := Option.map_eq_some_iff.1 h
          obtain ⟨hcount, hstay⟩ := Worker.statement_running hst
          refine ⟨hinv.process, by simpa using hinv.workers, ?_, fun v hv => ?_⟩
          · have hloops := hinv.loops
            have hset := countP_set_add (fun v => v.loop.isSome) w' hw
            simp only [Running.busy] at hloops ⊢
            omega
          · rcases List.mem_or_eq_of_mem_set hv with hold | rfl
            · exact hinv.staying v hold
            · exact hstay
  | handle i =>
      simp only [Running.step] at h
      split at h
      · next k hw =>
          cases h
          refine ⟨hinv.process, by simpa using hinv.workers, ?_, fun v hv => ?_⟩
          · have hloops := hinv.loops
            -- the loop stays with the worker
            have hset : (s.workers.set i (.handling k)).countP (fun v => v.loop.isSome) + 1 =
                s.workers.countP (fun v => v.loop.isSome) + 1 := countP_set_add _ (.handling k) hw
            simp only [Running.busy] at hloops ⊢
            omega
          · rcases List.mem_or_eq_of_mem_set hv with hold | rfl
            · exact hinv.staying v hold
            · exact ⟨by simp, by simp⟩
      · cases h

theorem Running.inv_of_exec {ienv : InitEnv} {senv : ServiceEnv} {processLog : Option Bytes}
    {moves : List RunningMove} {s : Running}
    (h : Transition.exec (Running.step ienv senv) (Running.new processLog) moves = some s) :
    s.Inv ienv senv processLog :=
  Transition.exec_inv (fun _ _ _ hinv hstep => hinv.step hstep)
    (Running.inv_new ienv senv processLog) h

/-! ## How many loops, how many workers -/

theorem ServiceEnv.length_started_le (senv : ServiceEnv) (n : ℕ) : (senv.started n).length ≤ n := by
  have hle := List.length_filterMap_le senv.param (List.range n)
  rwa [List.length_range] at hle

/-- What is committed, once anything is: no more than one loop for each thread index, to a pool of the
    size `init` made it. -/
theorem committed_bound {ienv : InitEnv} {senv : ServiceEnv} {processLog : Option Bytes} {p : Proxy}
    (hinit : init ienv (Proxy.new processLog) = .ret 0 p) {run : List Event} {s : Process}
    (hrun : Transition.exec (Process.step ienv senv) (Process.new processLog) run = some s)
    (hne : s.committed ≠ []) :
    s.committed.length ≤ p.ThreadCount.toNat ∧
      s.threads = (ThreadPool.new p.ThreadCount).threads := by
  have hup := setUp_of_exec hrun
  obtain ⟨m, n, hmn, hle, hparams, htasks⟩ := SetUpAt.made hup
  obtain ⟨pool, hpool⟩ : ∃ pool, s.proxy.mThreadPool = some pool := by
    cases hpool : s.proxy.mThreadPool with
    | none =>
        rw [Process.committed, hpool] at hne
        exact absurd rfl hne
    | some pool => exact ⟨pool, rfl⟩
  have hcommitted : s.committed = (senv.started m).map ThreadParam.ev := by
    rw [Process.committed, hpool]
    exact htasks pool hpool
  -- an index that has committed has an entry, and there are none before `startService`
  obtain ⟨tp, htp⟩ : ∃ tp, tp ∈ senv.started m := by
    rw [hcommitted, Ne, List.map_eq_nil_iff] at hne
    exact List.exists_mem_of_ne_nil _ hne
  have hmem : tp ∈ s.proxy.threadParams := by
    have hparams' : s.proxy.threadParams = senv.started n := hparams
    obtain ⟨i, hi, hparam⟩ := ServiceEnv.mem_started.1 htp
    rw [hparams', ServiceEnv.mem_started]
    exact ⟨i, by omega, hparam⟩
  have hkept := (follows_of_exec hrun).kept hinit (hup.inService_of_mem hmem)
  have hcount : s.setup.ThreadCount = p.ThreadCount := hkept.ThreadCount
  refine ⟨?_, ?_⟩
  · have hlen := senv.length_started_le m
    rw [hcommitted, List.length_map]
    rw [hcount] at hle
    omega
  · rcases init_ret_cases hinit with ⟨-, hzero, -⟩ | ⟨-, -, hnew, -⟩
    · exact absurd rfl hzero
    · rw [Process.threads, hkept.threads, hnew]
      rfl

/-- Loops that fit the workers do not starve. -/
theorem Running.Inv.not_starved {ienv : InitEnv} {senv : ServiceEnv} {processLog : Option Bytes}
    {s : Running} (hinv : s.Inv ienv senv processLog)
    (hle : s.process.committed.length ≤ s.workers.length) : ¬ s.Starved := by
  rintro ⟨hqueue, hall⟩
  have hbusy : s.busy = s.workers.length := List.countP_eq_length.2 hall
  have hpos : 0 < s.queue.length := List.length_pos_iff.2 hqueue
  have hloops := hinv.loops
  omega

/-- An idle worker and a loop in the queue come together. -/
theorem Running.Inv.take {ienv : InitEnv} {senv : ServiceEnv} {processLog : Option Bytes}
    {s : Running} (hinv : s.Inv ienv senv processLog) (hqueue : s.queue ≠ []) {w : Worker}
    (hw : w ∈ s.workers) (hidle : w.loop = none) :
    ∃ i s', s.step ienv senv (.worker i) = some s' ∧ s'.process = s.process ∧
      2 * s'.workers.countP (· == .testRun) + s'.workers.countP (· == .waiting) <
        2 * s.workers.countP (· == .testRun) + s.workers.countP (· == .waiting) := by
  obtain ⟨i, hi⟩ := List.getElem?_of_mem hw
  have htest := fun w' => countP_set_add (· == .testRun) w' hi
  have hwait := fun w' => countP_set_add (· == .waiting) w' hi
  obtain ⟨k, rest, hk⟩ := List.exists_cons_of_ne_nil hqueue
  cases w with
  | testRun =>
      refine ⟨i, { s with workers := s.workers.set i .waiting }, ?_, rfl, ?_⟩
      · simp [Running.step, hi, Worker.statement]
      · have h₁ : (s.workers.set i .waiting).countP (· == .testRun) + 1 =
          s.workers.countP (· == .testRun) + 0 := htest .waiting
        have h₂ : (s.workers.set i .waiting).countP (· == .waiting) + 0 =
          s.workers.countP (· == .waiting) + 1 := hwait .waiting
        dsimp only
        omega
  | waiting =>
      refine ⟨i, { s with workers := s.workers.set i (.took k), queue := rest }, ?_, rfl, ?_⟩
      · simp [Running.step, hi, Worker.statement, hk]
      · have h₁ : (s.workers.set i (.took k)).countP (· == .testRun) + 0 =
          s.workers.countP (· == .testRun) + 0 := htest (.took k)
        have h₂ : (s.workers.set i (.took k)).countP (· == .waiting) + 1 =
          s.workers.countP (· == .waiting) + 0 := hwait (.took k)
        dsimp only
        omega
  | left => exact absurd rfl (hinv.staying _ hw).1
  | exited => exact absurd rfl (hinv.staying _ hw).2
  | took k => cases hidle
  | dispatching k => cases hidle
  | handling k => cases hidle

/-- With more loops than workers, the workers take what they can and the rest starves. -/
theorem Running.Inv.exists_starved {ienv : InitEnv} {senv : ServiceEnv} {processLog : Option Bytes}
    {s : Running} (hinv : s.Inv ienv senv processLog)
    (hlt : s.workers.length < s.process.committed.length) :
    ∃ moves t, Transition.exec (Running.step ienv senv) s moves = some t ∧ t.Starved := by
  have hmove : ∀ s : Running, (s.Inv ienv senv processLog ∧
      s.workers.length < s.process.committed.length) → ¬ s.Starved →
      ∃ mv s', s.step ienv senv mv = some s' ∧ (s'.Inv ienv senv processLog ∧
        s'.workers.length < s'.process.committed.length) ∧
        2 * s'.workers.countP (· == .testRun) + s'.workers.countP (· == .waiting) <
          2 * s.workers.countP (· == .testRun) + s.workers.countP (· == .waiting) := by
    rintro s ⟨hinv, hlt⟩ hno
    have hqueue : s.queue ≠ [] := by
      have hloops := hinv.loops
      have hbusy : s.busy ≤ s.workers.length := List.countP_le_length
      rw [← List.length_pos_iff]
      omega
    obtain ⟨w, hw, hidle⟩ : ∃ w ∈ s.workers, w.loop = none := by
      by_contra hall
      refine hno ⟨hqueue, fun w hw => ?_⟩
      rw [← Option.ne_none_iff_isSome]
      exact fun hnone => hall ⟨w, hw, hnone⟩
    obtain ⟨i, s', hstep, hproc, hless⟩ := hinv.take hqueue hw hidle
    have hinv' := hinv.step hstep
    refine ⟨.worker i, s', hstep, ⟨hinv', ?_⟩, hless⟩
    rw [hinv'.workers, hproc, ← hinv.workers]
    exact hlt
  obtain ⟨moves, t, hrun, -, hstarved⟩ := Transition.exists_exec_of_measure
    (fun s : Running => 2 * s.workers.countP (· == .testRun) + s.workers.countP (· == .waiting))
    hmove ⟨hinv, hlt⟩
  exact ⟨moves, t, hrun, hstarved⟩

/-- In every state of the service there is a worker for each committed loop. -/
def LoopsFit (ienv : InitEnv) (processLog : Option Bytes) : Prop :=
  ∀ senv moves s,
    Transition.exec (Running.step ienv senv) (Running.new processLog) moves = some s →
    s.process.committed.length ≤ s.workers.length

/-- In no state of the service a committed loop starves. -/
def NoneStarves (ienv : InitEnv) (processLog : Option Bytes) : Prop :=
  ∀ senv moves s,
    Transition.exec (Running.step ienv senv) (Running.new processLog) moves = some s → ¬ s.Starved

/-- If no loop ever starves, the loops always fit. -/
theorem NoneStarves.loopsFit {ienv : InitEnv} {processLog : Option Bytes}
    (h : NoneStarves ienv processLog) : LoopsFit ienv processLog := by
  intro senv moves s hs
  by_contra hlt
  obtain ⟨more, t, hmore, hstarved⟩ := (Running.inv_of_exec hs).exists_starved (not_le.1 hlt)
  exact h senv (moves ++ more) t (Transition.exec_append hs hmore) hstarved

/-- A run of the process is a run in which no worker moves. -/
theorem Running.exec_main {ienv : InitEnv} {senv : ServiceEnv} {run : List Event} {t : Process}
    {s : Running} (h : Transition.exec (Process.step ienv senv) s.process run = some t) :
    ∃ s', Transition.exec (Running.step ienv senv) s (run.map .main) = some s' ∧ s'.process = t := by
  induction run generalizing s with
  | nil =>
      cases h
      exact ⟨s, rfl, rfl⟩
  | cons e run ih =>
      obtain ⟨process, hstep, hrest⟩ := Transition.exec_cons h
      obtain ⟨s₁, hs₁, hproc⟩ : ∃ s₁, s.step ienv senv (.main e) = some s₁ ∧ s₁.process = process := by
        simp only [Running.step, Running.main, hstep, Option.map_some]
        refine ⟨_, rfl, ?_⟩
        split_ifs <;> rfl
      obtain ⟨s', hs', ht⟩ := ih (hproc ▸ hrest)
      refine ⟨s', ?_, ht⟩
      rw [List.map_cons, Transition.exec, hs₁]
      exact hs'

theorem length_started_helloService (n : ℕ) : (helloService.started n).length = n := by
  have hparam : ∀ i, helloService.param i = some ⟨i, i, i, i, some i⟩ := fun _ => rfl
  induction n with
  | zero => rfl
  | succ n ih =>
      rw [ServiceEnv.started_succ, hparam, List.length_append, ih]
      rfl

/-- The loops fit exactly when `ThreadCount` is at most 16: beyond that the pool is capped, or its size
    has wrapped. -/
theorem loopsFit_iff {ienv : InitEnv} {processLog : Option Bytes} {p : Proxy}
    (hinit : init ienv (Proxy.new processLog) = .ret 0 p) :
    LoopsFit ienv processLog ↔ p.ThreadCount ≤ THREADPOOL_MAX_NUM := by
  have hmax : THREADPOOL_MAX_NUM = 16 := rfl
  have hthreads : (ThreadPool.new p.ThreadCount).threads =
      min THREADPOOL_MAX_NUM (p.ThreadCount % 2 ^ 16).toNat := rfl
  constructor
  · intro h
    -- with a tracker and a libevent that never fail every index commits a loop
    obtain ⟨run, t, hrun, hend, hcount⟩ := exists_exec_setUpEnded helloService hinit
    obtain ⟨s, hs, rfl⟩ := Running.exec_main (s := Running.new processLog) hrun
    have hup := (setUp_of_exec hrun).setUpTo_of_ended hend (fun _ => rfl)
    have hkept := (follows_of_exec hrun).kept hinit (Or.inl (Point.inService_of_setUpEnded hend))
    have hlen : s.process.committed.length = p.ThreadCount.toNat := by
      rw [SetUpTo.committed hinit hkept hup, List.length_map, length_started_helloService, hcount]
    have hpos : 1 ≤ p.ThreadCount := by
      rcases init_ret_cases hinit with ⟨-, hzero, -⟩ | ⟨-, -, -, hlist⟩
      · exact absurd rfl hzero
      · exact hlist.ThreadCount
    have hne : s.process.committed ≠ [] := by
      rw [← List.length_pos_iff]
      omega
    have hfit := h helloService _ s hs
    rw [(Running.inv_of_exec hs).workers, (committed_bound hinit hrun hne).2, hthreads, hlen] at hfit
    omega
  · intro hle senv moves s hs
    have hinv := Running.inv_of_exec hs
    obtain ⟨run, hrun⟩ := hinv.process
    by_cases hne : s.process.committed = []
    · rw [hne]
      exact Nat.zero_le _
    · obtain ⟨hbound, hpool⟩ := committed_bound hinit hrun hne
      rw [hinv.workers, hpool, hthreads]
      omega

/-- **Every listener gets a worker exactly when `ThreadCount` is at most 16**: that is when the loops
    always fit the workers, and it is when none of them ever starves. -/
theorem everyListenerServed_iff {ienv : InitEnv} {processLog : Option Bytes} {p : Proxy}
    (hinit : init ienv (Proxy.new processLog) = .ret 0 p) :
    (LoopsFit ienv processLog ↔ p.ThreadCount ≤ THREADPOOL_MAX_NUM) ∧
      (NoneStarves ienv processLog ↔ p.ThreadCount ≤ THREADPOOL_MAX_NUM) := by
  have hfit := loopsFit_iff hinit
  refine ⟨hfit, fun h => hfit.1 h.loopsFit, fun hle senv moves s hs => ?_⟩
  exact (Running.inv_of_exec hs).not_starved (hfit.2 hle senv moves s hs)

theorem everyListenerServed_iff_hello : LoopsFit helloStart none ∧ NoneStarves helloStart none := by
  have hinit : init helloStart (Proxy.new none)
      = .ret 0 (init helloStart (Proxy.new none)).proxy := rfl
  have hiff := everyListenerServed_iff hinit
  exact ⟨hiff.1.2 (by decide), hiff.2.2 (by decide)⟩

/-- `ThreadCount=65536`: the size of the pool wraps to 0. -/
def wideStart : InitEnv :=
  { helloStart with
    fs := fun _ => some (ascii "localhost=127.0.0.1\nport=8080\nclientConfPath=c\nThreadCount=65536"),
    loadPasses := 4 }

/-- The first event loop is committed, and there is no thread to run it. -/
theorem listener_starves :
    ∃ s, Transition.exec (Running.step wideStart helloService) (Running.new none)
        (firstCommit.map .main) = some s ∧
      s.process.proxy.ThreadCount = 65536 ∧ s.workers = [] ∧ s.queue = [0] ∧ s.Starved ∧
      ¬ LoopsFit wideStart none ∧ ¬ NoneStarves wideStart none := by
  obtain ⟨s, hrun, hcount, hworkers, hqueue⟩ : ∃ s,
      Transition.exec (Running.step wideStart helloService) (Running.new none)
          (firstCommit.map .main) = some s ∧
        s.process.proxy.ThreadCount = 65536 ∧ s.workers = [] ∧ s.queue = [0] :=
    ⟨_, rfl, rfl, rfl, rfl⟩
  have hstarved : s.Starved := by
    refine ⟨by simp [hqueue], fun w hw => ?_⟩
    rw [hworkers] at hw
    cases hw
  have hnone : ¬ NoneStarves wideStart none := fun h => h helloService _ s hrun hstarved
  refine ⟨s, hrun, hcount, hworkers, hqueue, hstarved, fun h => ?_, hnone⟩
  exact (Running.inv_of_exec hrun).not_starved (h helloService _ s hrun) hstarved

end FileCacheProxy
