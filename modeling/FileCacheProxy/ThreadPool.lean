import FileCacheProxy.Lib.Tally
import FileCacheProxy.Lib.Transition
import Mathlib

set_option autoImplicit false

/-! # The thread pool (`thread_pool.h`)

`threadpool` statement by statement: the loop `addThread` gives to its threads, `commit` as any number
of callers run it, and the destructor. They share `_lock`, the queue `_tasks`, the condition variable
`_task_cv` and the flag `_run`, which is read and written without the lock. A move is one statement of
one of them, so a run is any interleaving; which sleeper `notify_one` wakes, when a task returns and
when a thread wakes up for no reason is left to the run.

Between two statements that touch nothing shared nothing can be observed, so the predicate of `wait`,
which reads `_run` once and `_tasks` under the lock, is one statement. What happens to the members
after the body of the destructor is the matter of `Teardown.lean`. -/

namespace FileCacheProxy

open Tally

variable {τ : Type*}

/-! ## Threads, callers and the destructor -/

/-- Where a thread of the pool is in its loop. -/
inductive PoolThread (τ : Type*) where
  /-- at `while (_run)` -/
  | testRun
  /-- about to lock `_lock`: on entering the block, or woken inside `wait` -/
  | lock
  /-- at the predicate of `wait` -/
  | predicate
  /-- the predicate was false: about to release the lock and sleep -/
  | block
  /-- asleep in `_task_cv` -/
  | blocked
  /-- behind `wait`, at `if (!_run && _tasks.empty())` -/
  | testExit
  /-- at `_tasks.front()` and `_tasks.pop()` -/
  | take
  /-- has a task, at the end of the block -/
  | unlock (t : τ)
  /-- in `task()` -/
  | running (t : τ)
  | exited
  deriving DecidableEq

/-- The threads that have the lock. -/
def PoolThread.holds : PoolThread τ → ℕ
  | .predicate | .block | .testExit | .take | .unlock _ => 1
  | .testRun | .lock | .blocked | .running _ | .exited => 0

/-- The task a thread has taken and not finished. -/
def PoolThread.task : PoolThread τ → Option τ
  | .unlock t | .running t => some t
  | .testRun | .lock | .predicate | .block | .blocked | .testExit | .take | .exited => none

/-- The next statement of a thread: where it goes, `_lock`, `_tasks`, and what it takes. `none`: it
    cannot move, or its next move is not its own. -/
def PoolThread.statement (run locked : Bool) (tasks : List τ) :
    PoolThread τ → Option (PoolThread τ × Bool × List τ × List τ)
  | .testRun => some (if run then .lock else .exited, locked, tasks, [])
  | .lock => if locked then none else some (.predicate, true, tasks, [])
  | .predicate => some (if !run || !tasks.isEmpty then .testExit else .block, locked, tasks, [])
  | .block => some (.blocked, false, tasks, [])
  | .testExit =>
      if !run && tasks.isEmpty then some (.exited, false, tasks, [])
      else some (.take, locked, tasks, [])
  | .take =>
      match tasks with
      | [] => none
      | t :: rest => some (.unlock t, locked, rest, [t])
  | .unlock t => some (.running t, false, tasks, [])
  | .blocked | .running _ | .exited => none

def PoolThread.asleep : PoolThread τ → Bool
  | .blocked => true
  | _ => false

/-- `notify_all` or a spurious wake-up. -/
def PoolThread.wake : PoolThread τ → PoolThread τ
  | .blocked => .lock
  | p => p

/-- Where a caller is in `commit`. -/
inductive CommitCall (τ : Type*) where
  | outside
  /-- at `if (!_run)` -/
  | testRun (t : τ)
  /-- at `lock_guard<mutex> lock{ _lock }` -/
  | lock (t : τ)
  /-- at `_tasks.emplace` -/
  | push (t : τ)
  /-- at the end of the block -/
  | unlock
  /-- at `_task_cv.notify_one()` -/
  | notify
  deriving DecidableEq

def CommitCall.holds : CommitCall τ → ℕ
  | .push _ | .unlock => 1
  | .outside | .testRun _ | .lock _ | .notify => 0

/-- The next statement of a caller before `notify_one`: where it goes, `_lock`, and what it puts into
    the queue. On a stopped pool `commit` throws. -/
def CommitCall.statement (run locked : Bool) : CommitCall τ → Option (CommitCall τ × Bool × List τ)
  | .testRun t => some (if run then .lock t else .outside, locked, [])
  | .lock t => if locked then none else some (.push t, true, [])
  | .push t => some (.unlock, locked, [t])
  | .unlock => some (.notify, false, [])
  | .outside | .notify => none

/-- How far `~threadpool` has come; detaching the threads changes nothing. -/
inductive PoolDestructor where
  | notCalled
  /-- at `_task_cv.notify_all()` -/
  | notifyAll
  | detach
  deriving DecidableEq

structure Pool (τ : Type*) where
  /-- `_run` -/
  run : Bool
  /-- someone has `_lock` -/
  locked : Bool
  /-- `_tasks` -/
  tasks : List τ
  /-- `_pool` -/
  threads : List (PoolThread τ)
  callers : List (CommitCall τ)
  destructor : PoolDestructor
  /-- everything ever put into the queue -/
  committed : List τ
  /-- everything ever taken from it, with the thread -/
  taken : List (ℕ × τ)
  /-- the tasks that have returned, with their threads -/
  returned : List (ℕ × τ)

/-- A pool of `n` threads with `m` callers. -/
def Pool.new (τ : Type*) (n m : ℕ) : Pool τ :=
  ⟨true, false, [], List.replicate n .testRun, List.replicate m .outside, .notCalled, [], [], []⟩

inductive PoolMove (τ : Type*) where
  /-- caller `j` calls `commit(t)` -/
  | call (j : ℕ) (t : τ)
  /-- its next statement; `notify_one` wakes thread `i` -/
  | caller (j i : ℕ)
  /-- the next statement of thread `i` -/
  | worker (i : ℕ)
  /-- the task of thread `i` returns -/
  | ret (i : ℕ)
  /-- thread `i` wakes up for no reason -/
  | spurious (i : ℕ)
  /-- `_run=false` in the destructor -/
  | stop
  | notifyAll

/-- `_task_cv.notify_one()` by caller `j`: it wakes some sleeper, if there is one. -/
def Pool.notifyOne (s : Pool τ) (j i : ℕ) : Option (Pool τ) :=
  if s.threads.any PoolThread.asleep then
    match s.threads[i]? with
    | some .blocked =>
        some { s with callers := s.callers.set j .outside, threads := s.threads.set i .lock }
    | _ => none
  else some { s with callers := s.callers.set j .outside }

def Pool.step (s : Pool τ) : PoolMove τ → Option (Pool τ)
  | .call j t =>
      match s.callers[j]? with
      | some .outside => some { s with callers := s.callers.set j (.testRun t) }
      | _ => none
  | .caller j i =>
      match s.callers[j]? with
      | none => none
      | some .notify => s.notifyOne j i
      | some c =>
          (c.statement s.run s.locked).map (fun r =>
            { s with callers := s.callers.set j r.1, locked := r.2.1, tasks := s.tasks ++ r.2.2,
                     committed := s.committed ++ r.2.2 })
  | .worker i =>
      match s.threads[i]? with
      | none => none
      | some p =>
          (p.statement s.run s.locked s.tasks).map (fun r =>
            { s with threads := s.threads.set i r.1, locked := r.2.1, tasks := r.2.2.1,
                     taken := s.taken ++ r.2.2.2.map (fun t => (i, t)) })
  | .ret i =>
      match s.threads[i]? with
      | some (.running t) =>
          some { s with threads := s.threads.set i .testRun, returned := s.returned ++ [(i, t)] }
      | _ => none
  | .spurious i =>
      match s.threads[i]? with
      | some .blocked => some { s with threads := s.threads.set i .lock }
      | _ => none
  | .stop =>
      match s.destructor with
      | .notCalled => some { s with run := false, destructor := .notifyAll }
      | _ => none
  | .notifyAll =>
      match s.destructor with
      | .notifyAll => some { s with threads := s.threads.map PoolThread.wake, destructor := .detach }
      | _ => none

/-! ## What a statement can do -/

/-- The statements of a thread. -/
inductive PoolThread.Goes (run locked : Bool) (tasks : List τ) :
    PoolThread τ → PoolThread τ → Bool → List τ → List τ → Prop
  | enter : run = true → Goes run locked tasks .testRun .lock locked tasks []
  | leave : run = false → Goes run locked tasks .testRun .exited locked tasks []
  | acquire : locked = false → Goes run locked tasks .lock .predicate true tasks []
  | ready : run = false ∨ tasks ≠ [] → Goes run locked tasks .predicate .testExit locked tasks []
  | idle : run = true → tasks = [] → Goes run locked tasks .predicate .block locked tasks []
  | sleep : Goes run locked tasks .block .blocked false tasks []
  | exit : run = false → tasks = [] → Goes run locked tasks .testExit .exited false tasks []
  | go : run = true ∨ tasks ≠ [] → Goes run locked tasks .testExit .take locked tasks []
  | take (t : τ) (rest : List τ) : tasks = t :: rest →
      Goes run locked tasks .take (.unlock t) locked rest [t]
  | unlock (t : τ) : Goes run locked tasks (.unlock t) (.running t) false tasks []

theorem PoolThread.goes_of_statement {run locked locked' : Bool} {tasks tasks' now : List τ}
    {p p' : PoolThread τ} (h : p.statement run locked tasks = some (p', locked', tasks', now)) :
    PoolThread.Goes run locked tasks p p' locked' tasks' now := by
  cases p with
  | testRun =>
      cases run with
      | true =>
          cases h
          exact .enter rfl
      | false =>
          cases h
          exact .leave rfl
  | lock =>
      cases locked with
      | true => cases h
      | false =>
          cases h
          exact .acquire rfl
  | predicate =>
      cases run with
      | false =>
          cases h
          exact .ready (Or.inl rfl)
      | true =>
          cases tasks with
          | nil =>
              cases h
              exact .idle rfl rfl
          | cons t rest =>
              cases h
              exact .ready (Or.inr (by simp))
  | block =>
      cases h
      exact .sleep
  | testExit =>
      cases run with
      | true =>
          cases h
          exact .go (Or.inl rfl)
      | false =>
          cases tasks with
          | nil =>
              cases h
              exact .exit rfl rfl
          | cons t rest =>
              cases h
              exact .go (Or.inr (by simp))
  | take =>
      cases tasks with
      | nil => cases h
      | cons t rest =>
          cases h
          exact .take _ _ rfl
  | unlock t =>
      cases h
      exact .unlock t
  | blocked => cases h
  | running t => cases h
  | exited => cases h

/-- What a thread that has the lock knows of the queue. -/
def PoolThread.Knows (run : Bool) (tasks : List τ) : PoolThread τ → Prop
  | .block => tasks = []
  | .testExit => run = false ∨ tasks ≠ []
  | .take => tasks ≠ []
  | .testRun | .lock | .predicate | .blocked | .unlock _ | .running _ | .exited => True

/-- The threads that will look at the queue before they sleep. -/
def PoolThread.looks : PoolThread τ → ℕ
  | .testRun | .lock | .predicate | .testExit | .take => 1
  | .block | .blocked | .unlock _ | .running _ | .exited => 0

/-- The callers that will call `notify_one` for a task in the queue. -/
def CommitCall.notifies : CommitCall τ → ℕ
  | .unlock | .notify => 1
  | .outside | .testRun _ | .lock _ | .push _ => 0

theorem PoolThread.holds_eq_one {p : PoolThread τ} (h : p.holds ≠ 0) : p.holds = 1 := by
  cases p <;> first | rfl | exact absurd rfl h

theorem PoolThread.knows_of_not_holds {p : PoolThread τ} (h : p.holds = 0) (run : Bool)
    (tasks : List τ) : p.Knows run tasks := by
  cases p with
  | block => cases h
  | testExit => cases h
  | take => cases h
  | _ => trivial

namespace PoolThread.Goes

variable {run locked locked' : Bool} {tasks tasks' now : List τ} {p p' : PoolThread τ}

/-- The lock goes to who takes it, and is released by who has it. -/
theorem lock (h : Goes run locked tasks p p' locked' tasks' now) (hheld : p.holds ≤ locked.toNat) :
    locked'.toNat + p.holds = locked.toNat + p'.holds := by
  cases h with
  | acquire hfree =>
      rw [hfree]
      rfl
  | sleep | exit | unlock =>
      have hle := Bool.toNat_le locked
      simp only [holds] at hheld ⊢
      simp only [Bool.toNat_false]
      omega
  | _ => rfl

theorem knows (h : Goes run locked tasks p p' locked' tasks' now) (hp : p.Knows run tasks) :
    p'.Knows run tasks' := by
  cases h with
  | ready hready => exact hready
  | idle _ hempty => exact hempty
  | go hgo =>
      -- `_run` can have been cleared since the predicate, the queue cannot have been emptied
      rcases hp with hstop | hne
      · exact hgo.resolve_left (by simp [hstop])
      · exact hne
  | _ => trivial

/-- Only who has the lock touches the queue. -/
theorem tasks_eq (h : Goes run locked tasks p p' locked' tasks' now) (hp : p.holds = 0) :
    tasks' = tasks := by
  cases h with
  | take => cases hp
  | _ => rfl

theorem fifo (h : Goes run locked tasks p p' locked' tasks' now) : now ++ tasks' = tasks := by
  cases h with
  | take t rest htasks => exact htasks.symm
  | _ => rfl

theorem hands (h : Goes run locked tasks p p' locked' tasks' now) :
    p'.task.toList = p.task.toList ++ now := by
  cases h <;> rfl

/-- A thread that no longer looks at the queue has taken a task, or has seen the queue empty. -/
theorem looks (h : Goes run locked tasks p p' locked' tasks' now) (hp : p.Knows run tasks)
    (hrun : run = true) :
    p' ≠ .exited ∧
      (tasks' = [] ∨ p' ≠ .blocked ∧ tasks'.length + p.looks ≤ tasks.length + p'.looks) := by
  cases h with
  | leave hstop | exit hstop => cases hrun.symm.trans hstop
  | idle _ hempty => exact ⟨by simp, Or.inl hempty⟩
  | sleep => exact ⟨by simp, Or.inl hp⟩
  | take t rest htasks =>
      refine ⟨by simp, Or.inr ⟨by simp, ?_⟩⟩
      rw [htasks]
      exact le_rfl
  | _ => exact ⟨by simp, Or.inr ⟨by simp, le_rfl⟩⟩

end PoolThread.Goes

/-- The statements of a caller before `notify_one`. -/
inductive CommitCall.Goes (run locked : Bool) :
    CommitCall τ → CommitCall τ → Bool → List τ → Prop
  | enter (t : τ) : run = true → Goes run locked (.testRun t) (.lock t) locked []
  | throw (t : τ) : run = false → Goes run locked (.testRun t) .outside locked []
  | acquire (t : τ) : locked = false → Goes run locked (.lock t) (.push t) true []
  | push (t : τ) : Goes run locked (.push t) .unlock locked [t]
  | unlock : Goes run locked .unlock .notify false []

theorem CommitCall.goes_of_statement {run locked locked' : Bool} {pushed : List τ}
    {c c' : CommitCall τ} (h : c.statement run locked = some (c', locked', pushed)) :
    CommitCall.Goes run locked c c' locked' pushed := by
  cases c with
  | testRun t =>
      cases run with
      | true =>
          cases h
          exact .enter t rfl
      | false =>
          cases h
          exact .throw t rfl
  | lock t =>
      cases locked with
      | true => cases h
      | false =>
          cases h
          exact .acquire t rfl
  | push t =>
      cases h
      exact .push t
  | unlock =>
      cases h
      exact .unlock
  | outside => cases h
  | notify => cases h

namespace CommitCall.Goes

variable {run locked locked' : Bool} {pushed : List τ} {c c' : CommitCall τ}

theorem lock (h : Goes run locked c c' locked' pushed) (hheld : c.holds ≤ locked.toNat) :
    locked'.toNat + c.holds = locked.toNat + c'.holds := by
  cases h with
  | acquire t hfree =>
      rw [hfree]
      rfl
  | unlock =>
      have hle := Bool.toNat_le locked
      simp only [holds] at hheld ⊢
      simp only [Bool.toNat_false]
      omega
  | _ => rfl

/-- What is put into the queue will be notified of. -/
theorem notifies (h : Goes run locked c c' locked' pushed) :
    pushed.length + c.notifies = c'.notifies ∧ (pushed ≠ [] → c.holds = 1) := by
  cases h with
  | push t => exact ⟨rfl, fun _ => rfl⟩
  | _ => exact ⟨rfl, fun hne => absurd rfl hne⟩

end CommitCall.Goes

/-- What moves do to the machine. -/
theorem Pool.step_worker {s s' : Pool τ} {i : ℕ} (h : s.step (.worker i) = some s') :
    ∃ p p' locked tasks now, s.threads[i]? = some p ∧
      PoolThread.Goes s.run s.locked s.tasks p p' locked tasks now ∧
      s' = { s with threads := s.threads.set i p', locked := locked, tasks := tasks,
                    taken := s.taken ++ now.map (fun t => (i, t)) } := by
  simp only [Pool.step] at h
  cases hp : s.threads[i]? with
  | none =>
      rw [hp] at h
      cases h
  | some p =>
      rw [hp] at h
      obtain ⟨⟨p', locked, tasks, now⟩, hst, rfl⟩ := Option.map_eq_some_iff.1 h
      exact ⟨p, p', locked, tasks, now, rfl, PoolThread.goes_of_statement hst, rfl⟩

theorem Pool.step_caller {s s' : Pool τ} {j i : ℕ} (h : s.step (.caller j i) = some s') :
    (s.callers[j]? = some .notify ∧ s.notifyOne j i = some s') ∨
    ∃ c c' locked pushed, s.callers[j]? = some c ∧
      CommitCall.Goes s.run s.locked c c' locked pushed ∧
      s' = { s with callers := s.callers.set j c', locked := locked, tasks := s.tasks ++ pushed,
                    committed := s.committed ++ pushed } := by
  simp only [Pool.step] at h
  split at h
  · cases h
  · next hnotify => exact Or.inl ⟨hnotify, h⟩
  · next c _ hc =>
      obtain ⟨⟨c', locked, pushed⟩, hst, rfl⟩ := Option.map_eq_some_iff.1 h
      exact Or.inr ⟨c, c', locked, pushed, hc, CommitCall.goes_of_statement hst, rfl⟩

theorem Pool.notifyOne_cases {s s' : Pool τ} {j i : ℕ} (h : s.notifyOne j i = some s') :
    (s.threads[i]? = some .blocked ∧
      s' = { s with callers := s.callers.set j .outside, threads := s.threads.set i .lock }) ∨
    ((∀ p ∈ s.threads, p ≠ .blocked) ∧ s' = { s with callers := s.callers.set j .outside }) := by
  rw [Pool.notifyOne] at h
  split at h
  · split at h
    · next hp =>
        cases h
        exact Or.inl ⟨hp, rfl⟩
    · cases h
  · next hnone =>
      cases h
      refine Or.inr ⟨fun p hp hblocked => hnone (List.any_eq_true.2 ⟨p, hp, ?_⟩), rfl⟩
      rw [hblocked]
      rfl

/-! ## The invariant -/

/-- The tasks thread `i` has in the log, in order. -/
def ofThread (i : ℕ) (log : List (ℕ × τ)) : List τ :=
  log.filterMap (fun e => if e.1 = i then some e.2 else none)

@[simp] theorem ofThread_append (i : ℕ) (log log' : List (ℕ × τ)) :
    ofThread i (log ++ log') = ofThread i log ++ ofThread i log' :=
  List.filterMap_append

@[simp] theorem ofThread_map_self (i : ℕ) (ts : List τ) :
    ofThread i (ts.map (fun t => (i, t))) = ts := by
  simp [ofThread, List.filterMap_map]

theorem ofThread_map_of_ne {i k : ℕ} (h : k ≠ i) (ts : List τ) :
    ofThread i (ts.map (fun t => (k, t))) = [] := by
  simp [ofThread, List.filterMap_map, h]

/-- The task in the hands of thread `i`. -/
def handOf (threads : List (PoolThread τ)) (i : ℕ) : List τ :=
  ((threads[i]?).bind PoolThread.task).toList

theorem handOf_eq {threads : List (PoolThread τ)} {i : ℕ} {p : PoolThread τ}
    (h : threads[i]? = some p) : handOf threads i = p.task.toList := by
  rw [handOf, h]
  rfl

theorem getElem?_set_cases {α : Type*} {l : List α} {i k : ℕ} {a b : α}
    (h : (l.set i a)[k]? = some b) : k = i ∧ b = a ∨ k ≠ i ∧ l[k]? = some b := by
  rw [List.getElem?_set] at h
  split_ifs at h with hik hlt
  · exact Or.inl ⟨hik.symm, (Option.some.inj h).symm⟩
  · exact Or.inr ⟨Ne.symm hik, h⟩

theorem forall_mem_set {α : Type*} {l : List α} {i : ℕ} {a : α} {P : α → Prop}
    (h : ∀ b ∈ l, P b) (ha : P a) : ∀ b ∈ l.set i a, P b := by
  intro b hb
  rcases List.mem_or_eq_of_mem_set hb with hold | rfl
  · exact h b hold
  · exact ha

theorem handOf_set_self {threads : List (PoolThread τ)} {i : ℕ} {p : PoolThread τ}
    (p' : PoolThread τ) (h : threads[i]? = some p) : handOf (threads.set i p') i = p'.task.toList := by
  obtain ⟨hlt, -⟩ := List.getElem?_eq_some_iff.1 h
  exact handOf_eq (List.getElem?_set_self hlt)

theorem handOf_set_ne {threads : List (PoolThread τ)} {i k : ℕ} (p' : PoolThread τ) (h : i ≠ k) :
    handOf (threads.set i p') k = handOf threads k := by
  rw [handOf, List.getElem?_set_ne h]
  rfl

structure Pool.Inv (s : Pool τ) : Prop where
  /-- As many threads and callers have the lock as it is locked. -/
  lock : tally PoolThread.holds s.threads + tally CommitCall.holds s.callers = s.locked.toNat
  knows : ∀ (i : ℕ) (p : PoolThread τ), s.threads[i]? = some p → p.Knows s.run s.tasks
  /-- First in, first out. -/
  fifo : s.taken.map Prod.snd ++ s.tasks = s.committed
  /-- Each thread finishes what it takes before it takes more. -/
  hands : ∀ i, ofThread i s.taken = ofThread i s.returned ++ handOf s.threads i
  /-- If someone sleeps, there is a thread that will look at the queue, or a call of `notify_one` to
      come, for each task in it. -/
  awake : s.run = true → (∀ p ∈ s.threads, p ≠ .blocked) ∨
    s.tasks.length ≤ tally PoolThread.looks s.threads + tally CommitCall.notifies s.callers
  staying : s.run = true → ∀ p ∈ s.threads, p ≠ .exited
  flag : s.run = true ↔ s.destructor = .notCalled

theorem Pool.inv_new (n m : ℕ) : (Pool.new τ n m).Inv where
  lock := by
    have hthreads : tally PoolThread.holds (Pool.new τ n m).threads = 0 :=
      tally_eq_zero.2 (fun p hp => by rw [List.eq_of_mem_replicate hp]; rfl)
    have hcallers : tally CommitCall.holds (Pool.new τ n m).callers = 0 :=
      tally_eq_zero.2 (fun c hc => by rw [List.eq_of_mem_replicate hc]; rfl)
    rw [hthreads, hcallers]
    rfl
  knows i p hp := by
    rw [List.eq_of_mem_replicate (List.mem_of_getElem? hp)]
    trivial
  fifo := rfl
  hands i := by
    cases hp : (Pool.new τ n m).threads[i]? with
    | none =>
        rw [handOf, hp]
        rfl
    | some p =>
        rw [handOf, hp, List.eq_of_mem_replicate (List.mem_of_getElem? hp)]
        rfl
  awake _ := Or.inr (Nat.zero_le _)
  staying _ p hp := by
    rw [List.eq_of_mem_replicate hp]
    simp
  flag := ⟨fun _ => rfl, fun _ => rfl⟩

namespace Pool.Inv

variable {s : Pool τ}

theorem holds_le (h : s.Inv) : tally PoolThread.holds s.threads ≤ s.locked.toNat := by
  have hlock := h.lock
  omega

/-- At most one thread has the lock. -/
theorem holds_unique (h : s.Inv) {i k : ℕ} {p q : PoolThread τ} (hp : s.threads[i]? = some p)
    (hq : s.threads[k]? = some q) (hhp : p.holds = 1) (hhq : q.holds = 1) : i = k := by
  by_contra hne
  have htwo := two_le_tally (f := PoolThread.holds) hne hp hq hhp.ge hhq.ge
  have hle := Bool.toNat_le s.locked
  have hlock := h.holds_le
  omega

/-- While someone else has the lock, no thread has. -/
theorem holds_eq_zero (h : s.Inv) {j : ℕ} {c : CommitCall τ} (hc : s.callers[j]? = some c)
    (hhc : c.holds = 1) {k : ℕ} {q : PoolThread τ} (hq : s.threads[k]? = some q) : q.holds = 0 := by
  have hcaller := le_tally CommitCall.holds hc
  have hthread := le_tally PoolThread.holds hq
  have hle := Bool.toNat_le s.locked
  have hlock := h.lock
  omega

theorem worker (h : s.Inv) {i : ℕ} {p p' : PoolThread τ} {locked : Bool} {tasks now : List τ}
    (hp : s.threads[i]? = some p)
    (hgo : PoolThread.Goes s.run s.locked s.tasks p p' locked tasks now) :
    Inv { s with threads := s.threads.set i p', locked := locked, tasks := tasks,
                 taken := s.taken ++ now.map (fun t => (i, t)) } where
  lock := by
    have hset := tally_set PoolThread.holds p' hp
    have hlock := h.lock
    have hmove := hgo.lock ((le_tally PoolThread.holds hp).trans h.holds_le)
    show tally PoolThread.holds (s.threads.set i p') + tally CommitCall.holds s.callers = locked.toNat
    omega
  knows k q hq := by
    rcases getElem?_set_cases hq with ⟨rfl, rfl⟩ | ⟨hne, hold⟩
    · exact hgo.knows (h.knows _ p hp)
    · -- another thread that knows something has the lock, so this one has not
      by_cases hq0 : q.holds = 0
      · exact PoolThread.knows_of_not_holds hq0 s.run tasks
      · have hp0 : p.holds = 0 := by
          by_contra hp1
          exact hne (h.holds_unique hold hp (PoolThread.holds_eq_one hq0)
            (PoolThread.holds_eq_one hp1))
        show q.Knows s.run tasks
        rw [hgo.tasks_eq hp0]
        exact h.knows k q hold
  fifo := by
    have hnow : (now.map (fun t => (i, t))).map Prod.snd = now := by
      rw [List.map_map]
      exact List.map_id _
    show (s.taken ++ now.map (fun t => (i, t))).map Prod.snd ++ tasks = s.committed
    rw [List.map_append, hnow, List.append_assoc, hgo.fifo, h.fifo]
  hands k := by
    have hk := h.hands k
    show ofThread k (s.taken ++ now.map (fun t => (i, t))) = ofThread k s.returned ++
      handOf (s.threads.set i p') k
    rw [ofThread_append, hk, List.append_assoc]
    by_cases hik : i = k
    · subst hik
      rw [handOf_set_self p' hp, ofThread_map_self, hgo.hands, handOf_eq hp]
    · rw [handOf_set_ne p' hik, ofThread_map_of_ne hik, List.append_nil]
  awake hrun := by
    obtain ⟨-, hempty | ⟨hawake, hlooks⟩⟩ := hgo.looks (h.knows _ p hp) hrun
    · exact Or.inr (by rw [hempty]; exact Nat.zero_le _)
    · rcases h.awake hrun with hnone | hle
      · exact Or.inl (forall_mem_set hnone hawake)
      · have hset := tally_set PoolThread.looks p' hp
        refine Or.inr ?_
        show tasks.length ≤ tally PoolThread.looks (s.threads.set i p') +
          tally CommitCall.notifies s.callers
        omega
  staying hrun := forall_mem_set (h.staying hrun) (hgo.looks (h.knows _ p hp) hrun).1
  flag := h.flag

theorem caller (h : s.Inv) {j : ℕ} {c c' : CommitCall τ} {locked : Bool} {pushed : List τ}
    (hc : s.callers[j]? = some c) (hgo : CommitCall.Goes s.run s.locked c c' locked pushed) :
    Inv { s with callers := s.callers.set j c', locked := locked, tasks := s.tasks ++ pushed,
                 committed := s.committed ++ pushed } where
  lock := by
    have hset := tally_set CommitCall.holds c' hc
    have hle := le_tally CommitCall.holds hc
    have hlock := h.lock
    have hmove := hgo.lock (by omega)
    show tally PoolThread.holds s.threads + tally CommitCall.holds (s.callers.set j c') = locked.toNat
    omega
  knows k q hq := by
    show q.Knows s.run (s.tasks ++ pushed)
    by_cases hpushed : pushed = []
    · rw [hpushed, List.append_nil]
      exact h.knows k q hq
    · exact PoolThread.knows_of_not_holds (h.holds_eq_zero hc (hgo.notifies.2 hpushed) hq) s.run _
  fifo := by
    show s.taken.map Prod.snd ++ (s.tasks ++ pushed) = s.committed ++ pushed
    rw [← List.append_assoc, h.fifo]
  hands := h.hands
  awake hrun := by
    rcases h.awake hrun with hnone | hle
    · exact Or.inl hnone
    · have hset := tally_set CommitCall.notifies c' hc
      have hmove := hgo.notifies.1
      refine Or.inr ?_
      show (s.tasks ++ pushed).length ≤ tally PoolThread.looks s.threads +
        tally CommitCall.notifies (s.callers.set j c')
      rw [List.length_append]
      omega
  staying := h.staying
  flag := h.flag

/-- A sleeper is woken. -/
theorem wakeOne (h : s.Inv) {i : ℕ} (hp : s.threads[i]? = some .blocked) :
    Inv { s with threads := s.threads.set i .lock } where
  lock := by
    have hset := tally_set PoolThread.holds .lock hp
    have hlock := h.lock
    simp only [PoolThread.holds] at hset
    show tally PoolThread.holds (s.threads.set i .lock) + tally CommitCall.holds s.callers =
      s.locked.toNat
    omega
  knows k q hq := by
    rcases getElem?_set_cases hq with ⟨-, rfl⟩ | ⟨-, hold⟩
    · trivial
    · exact h.knows k q hold
  fifo := h.fifo
  hands k := by
    rw [h.hands k]
    by_cases hik : i = k
    · subst hik
      rw [handOf_set_self .lock hp, handOf_eq hp]
      rfl
    · rw [handOf_set_ne .lock hik]
  awake hrun := by
    rcases h.awake hrun with hnone | hle
    · exact absurd rfl (hnone _ (List.mem_of_getElem? hp))
    · have hset := tally_set PoolThread.looks .lock hp
      simp only [PoolThread.looks] at hset
      refine Or.inr ?_
      show s.tasks.length ≤ tally PoolThread.looks (s.threads.set i .lock) +
        tally CommitCall.notifies s.callers
      omega
  staying hrun := forall_mem_set (h.staying hrun) (by simp)
  flag := h.flag

/-- A caller that neither has the lock nor comes to have it, before or behind the block. -/
theorem callerOutside (h : s.Inv) {j : ℕ} {c c' : CommitCall τ} (hc : s.callers[j]? = some c)
    (hholds : c'.holds = c.holds)
    (hawake : s.run = true → (∀ p ∈ s.threads, p ≠ .blocked) ∨
      s.tasks.length + c.notifies ≤ tally PoolThread.looks s.threads +
        tally CommitCall.notifies s.callers + c'.notifies) :
    Inv { s with callers := s.callers.set j c' } where
  lock := by
    have hset := tally_set CommitCall.holds c' hc
    have hlock := h.lock
    show tally PoolThread.holds s.threads + tally CommitCall.holds (s.callers.set j c') =
      s.locked.toNat
    omega
  knows := h.knows
  fifo := h.fifo
  hands := h.hands
  awake hrun := by
    refine (hawake hrun).imp_right (fun hle => ?_)
    have hset := tally_set CommitCall.notifies c' hc
    show s.tasks.length ≤ tally PoolThread.looks s.threads +
      tally CommitCall.notifies (s.callers.set j c')
    omega
  staying := h.staying
  flag := h.flag

theorem notifyOne (h : s.Inv) {j i : ℕ} {s' : Pool τ} (hc : s.callers[j]? = some .notify)
    (hs' : s.notifyOne j i = some s') : s'.Inv := by
  rcases Pool.notifyOne_cases hs' with ⟨hp, rfl⟩ | ⟨hnone, rfl⟩
  · have hwoken := h.wakeOne hp
    refine hwoken.callerOutside hc rfl (fun hrun => Or.inr ?_)
    -- the woken thread will look in place of the call
    have hset := tally_set PoolThread.looks .lock hp
    have hle := (h.awake hrun).resolve_left
      (fun hnone => absurd rfl (hnone _ (List.mem_of_getElem? hp)))
    simp only [PoolThread.looks] at hset
    show s.tasks.length + 1 ≤ tally PoolThread.looks (s.threads.set i .lock) +
      tally CommitCall.notifies s.callers + 0
    omega
  · exact h.callerOutside hc rfl (fun _ => Or.inl hnone)

theorem ret (h : s.Inv) {i : ℕ} {t : τ} (hp : s.threads[i]? = some (.running t)) :
    Inv { s with threads := s.threads.set i .testRun, returned := s.returned ++ [(i, t)] } where
  lock := by
    have hset := tally_set PoolThread.holds .testRun hp
    have hlock := h.lock
    simp only [PoolThread.holds] at hset
    show tally PoolThread.holds (s.threads.set i .testRun) + tally CommitCall.holds s.callers =
      s.locked.toNat
    omega
  knows k q hq := by
    rcases getElem?_set_cases hq with ⟨-, rfl⟩ | ⟨-, hold⟩
    · trivial
    · exact h.knows k q hold
  fifo := h.fifo
  hands k := by
    show ofThread k s.taken = ofThread k (s.returned ++ [t].map (fun t => (i, t))) ++
      handOf (s.threads.set i .testRun) k
    rw [h.hands k, ofThread_append, List.append_assoc]
    by_cases hik : i = k
    · subst hik
      rw [handOf_set_self .testRun hp, handOf_eq hp, ofThread_map_self]
      rfl
    · rw [handOf_set_ne .testRun hik, ofThread_map_of_ne hik, List.nil_append]
  awake hrun := by
    refine (h.awake hrun).imp (fun hnone => forall_mem_set hnone (by simp)) (fun hle => ?_)
    have hset := tally_set PoolThread.looks .testRun hp
    simp only [PoolThread.looks] at hset
    show s.tasks.length ≤ tally PoolThread.looks (s.threads.set i .testRun) +
        tally CommitCall.notifies s.callers
    omega
  staying hrun := forall_mem_set (h.staying hrun) (by simp)
  flag := h.flag

theorem stop (h : s.Inv) : Inv { s with run := false, destructor := .notifyAll } where
  lock := h.lock
  knows k q hq := by
    have hq' := h.knows k q hq
    show q.Knows false s.tasks
    cases q with
    | testExit => exact Or.inl rfl
    | _ => exact hq'
  fifo := h.fifo
  hands := h.hands
  awake hrun := (by cases hrun)
  staying hrun := (by cases hrun)
  flag := ⟨fun hrun => (by cases hrun), fun hd => (by cases hd)⟩

theorem notifyAll (h : s.Inv) (hd : s.destructor = .notifyAll) :
    Inv { s with threads := s.threads.map PoolThread.wake, destructor := .detach } := by
  have hstopped : ¬ s.run = true := fun hrun => by cases hd.symm.trans (h.flag.1 hrun)
  refine ⟨?_, fun k q hq => ?_, h.fifo, fun k => ?_, fun hrun => absurd hrun hstopped,
    fun hrun => absurd hrun hstopped, fun hrun => absurd hrun hstopped, fun hd' => (by cases hd')⟩
  · have hwake : (fun p : PoolThread τ => p.wake.holds) = PoolThread.holds := by
      funext p
      cases p <;> rfl
    show tally PoolThread.holds (s.threads.map PoolThread.wake) + _ = _
    rw [tally_map, hwake]
    exact h.lock
  · rw [List.getElem?_map] at hq
    obtain ⟨p, hp, rfl⟩ := Option.map_eq_some_iff.1 hq
    have hp' := h.knows k p hp
    show p.wake.Knows s.run s.tasks
    cases p with
    | blocked => trivial
    | _ => exact hp'
  · rw [h.hands k]
    show _ = _ ++ (((s.threads.map PoolThread.wake)[k]?).bind PoolThread.task).toList
    rw [List.getElem?_map, handOf]
    cases hp : s.threads[k]? with
    | none => rfl
    | some p => cases p <;> rfl

/-- Every move keeps the invariant. -/
theorem step (h : s.Inv) {mv : PoolMove τ} {s' : Pool τ} (hstep : s.step mv = some s') : s'.Inv := by
  cases mv with
  | call j t =>
      simp only [Pool.step] at hstep
      split at hstep
      · next hc =>
          cases hstep
          exact h.callerOutside hc rfl h.awake
      · cases hstep
  | caller j i =>
      rcases Pool.step_caller hstep with ⟨hc, hnotify⟩ | ⟨c, c', locked, pushed, hc, hgo, rfl⟩
      · exact h.notifyOne hc hnotify
      · exact h.caller hc hgo
  | worker i =>
      obtain ⟨p, p', locked, tasks, now, hp, hgo, rfl⟩ := Pool.step_worker hstep
      exact h.worker hp hgo
  | ret i =>
      simp only [Pool.step] at hstep
      split at hstep
      · next t hp =>
          cases hstep
          exact h.ret hp
      · cases hstep
  | spurious i =>
      simp only [Pool.step] at hstep
      split at hstep
      · next hp =>
          cases hstep
          exact h.wakeOne hp
      · cases hstep
  | stop =>
      simp only [Pool.step] at hstep
      split at hstep
      · cases hstep
        exact h.stop
      · cases hstep
  | notifyAll =>
      simp only [Pool.step] at hstep
      split at hstep
      · next hd =>
          cases hstep
          exact h.notifyAll hd
      · cases hstep

end Pool.Inv

theorem Pool.inv_of_exec {n m : ℕ} {moves : List (PoolMove τ)} {s : Pool τ}
    (h : Transition.exec Pool.step (Pool.new τ n m) moves = some s) : s.Inv :=
  Transition.exec_inv (fun _ _ _ hinv hstep => hinv.step hstep) (Pool.inv_new n m) h

/-- **Every task is handed out once, first come first served.** What has been taken and what is in the
    queue is what was committed, in that order; each thread has finished what it took, but for the
    task it is in; at most one thread or caller has the lock, and nobody takes the front of an empty
    queue. -/
theorem Pool.exactly_once {n m : ℕ} {moves : List (PoolMove τ)} {s : Pool τ}
    (h : Transition.exec Pool.step (Pool.new τ n m) moves = some s) :
    s.taken.map Prod.snd ++ s.tasks = s.committed ∧
    (∀ i, ofThread i s.taken = ofThread i s.returned ++ handOf s.threads i) ∧
    tally PoolThread.holds s.threads + tally CommitCall.holds s.callers ≤ 1 ∧
    ∀ i : ℕ, s.threads[i]? = some .take → s.tasks ≠ [] := by
  have hinv := Pool.inv_of_exec h
  refine ⟨hinv.fifo, hinv.hands, ?_, fun i hi => hinv.knows i .take hi⟩
  rw [hinv.lock]
  exact Bool.toNat_le s.locked

/-- A commit that finds a thread on its way to sleep. -/
theorem Pool.exactly_once_commit :
    ∃ s : Pool ℕ, Transition.exec Pool.step (Pool.new ℕ 2 1)
        [.worker 0, .call 0 7, .worker 0, .caller 0 0, .worker 0, .worker 0, .caller 0 0,
          .caller 0 0, .caller 0 0, .caller 0 0, .worker 0, .worker 0, .worker 0, .worker 0,
          .worker 0] = some s ∧
      s.taken.map Prod.snd ++ s.tasks = s.committed ∧
      (∀ i, ofThread i s.taken = ofThread i s.returned ++ handOf s.threads i) ∧
      tally PoolThread.holds s.threads + tally CommitCall.holds s.callers ≤ 1 ∧
      ∀ i : ℕ, s.threads[i]? = some .take → s.tasks ≠ [] := by
  have hrun : Transition.exec Pool.step (Pool.new ℕ 2 1)
      [.worker 0, .call 0 7, .worker 0, .caller 0 0, .worker 0, .worker 0, .caller 0 0,
        .caller 0 0, .caller 0 0, .caller 0 0, .worker 0, .worker 0, .worker 0, .worker 0,
        .worker 0] =
      some ⟨true, false, [], [.running 7, .testRun], [.outside], .notCalled, [7], [(0, 7)], []⟩ := rfl
  exact ⟨_, hrun, Pool.exactly_once hrun⟩

end FileCacheProxy
