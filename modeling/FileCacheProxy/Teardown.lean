import FileCacheProxy.Lib.Transition
import Mathlib

set_option autoImplicit false

/-! # Teardown: the destructor against the workers

The main thread commits the event loops (`startService`), serves, and at exit runs
`~fileCacheProxy` with `~threadParam` and `~threadpool`; meanwhile each thread of the pool goes
through the loop of `threadpool::addThread`. The two sides share the task queue, the flag `_run` and
the objects of the event loops, and nothing makes the destructor wait: `retval.get()` and
`thread.join()` are commented out, and `event_base_loopbreak` only asks a loop to stop. -/

namespace FileCacheProxy

/-! ## The two sides -/

/-- What the destructor frees; loop `k` is the `k`-th entry of `threadParams`. -/
inductive Obj where
  | connection (k : ℕ)
  | info (k : ℕ)
  | evhttp (k : ℕ)
  | eventBase (k : ℕ)
  | threadParam (k : ℕ)
  | fdfsClient
  | listenfd
  | pool
  deriving DecidableEq

/-- The event loop whose worker uses the object. -/
def Obj.loop : Obj → Option ℕ
  | .connection k | .eventBase k | .threadParam k => some k
  | .info _ | .evhttp _ | .fdfsClient | .listenfd | .pool => none

/-- Where a thread of the pool is. -/
inductive Worker where
  /-- at `while (_run)` -/
  | testRun
  /-- at the lock or in `_task_cv.wait` -/
  | waiting
  /-- has taken the task of loop `k`, before `task()` -/
  | took (k : ℕ)
  /-- in `event_base_dispatch` of loop `k`, between two events -/
  | dispatching (k : ℕ)
  /-- in a handler called by loop `k` -/
  | handling (k : ℕ)
  /-- behind `task()`, before the next test -/
  | left
  | exited
  deriving DecidableEq

/-- The event loop a worker is committed to. -/
def Worker.loop : Worker → Option ℕ
  | .took k | .dispatching k | .handling k => some k
  | .testRun | .waiting | .left | .exited => none

/-- The objects a worker works with: the members of the pool, or the loop it runs; a handler also
    reads the `threadParam` and talks to its tracker connection. -/
def Worker.uses : Worker → List Obj
  | .testRun | .waiting | .took _ | .left => [.pool]
  | .dispatching k => [.eventBase k]
  | .handling k => [.eventBase k, .threadParam k, .connection k]
  | .exited => []

/-- The statement of the main thread that comes next. -/
inductive Stage where
  | committing (k : ℕ)
  | serving
  | closeConnection (k : ℕ)
  | deleteInfo (k : ℕ)
  | loopbreak (k : ℕ)
  | evhttpFree (k : ℕ)
  | eventBaseFree (k : ℕ)
  | deleteParam (k : ℕ)
  | fdfsClientDestroy
  | closeListenfd
  | stopRun
  | notifyAll
  | detach
  | freePool
  | done
  deriving DecidableEq

/-- What the statement frees. -/
def Stage.frees : Stage → Option Obj
  | .closeConnection k => some (.connection k)
  | .deleteInfo k => some (.info k)
  | .evhttpFree k => some (.evhttp k)
  | .eventBaseFree k => some (.eventBase k)
  | .deleteParam k => some (.threadParam k)
  | .fdfsClientDestroy => some .fdfsClient
  | .closeListenfd => some .listenfd
  | .freePool => some .pool
  | .committing _ | .serving | .loopbreak _ | .stopRun | .notifyAll | .detach | .done => none

/-- The event loop a `commit` puts into the queue. -/
def Stage.commits : Stage → List ℕ
  | .committing k => [k]
  | _ => []

/-- The event loop a `event_base_loopbreak` asks to stop. -/
def Stage.asks : Stage → List ℕ
  | .loopbreak k => [k]
  | _ => []

/-- The loop of the destructor over `threadParams`, `n` of them. -/
def deleteFrom (n k : ℕ) : Stage :=
  if k < n then .closeConnection k else .fdfsClientDestroy

/-- The loop of `startService`, `n` of whose passes commit an event loop. -/
def commitFrom (n k : ℕ) : Stage :=
  if k < n then .committing k else .serving

def Stage.next (n : ℕ) : Stage → Stage
  | .committing k => commitFrom n (k + 1)
  | .serving => deleteFrom n 0
  | .closeConnection k => .deleteInfo k
  | .deleteInfo k => .loopbreak k
  | .loopbreak k => .evhttpFree k
  | .evhttpFree k => .eventBaseFree k
  | .eventBaseFree k => .deleteParam k
  | .deleteParam k => deleteFrom n (k + 1)
  | .fdfsClientDestroy => .closeListenfd
  | .closeListenfd => .stopRun
  | .stopRun => .notifyAll
  | .notifyAll => .detach
  | .detach => .freePool
  | .freePool => .done
  | .done => .done

structure Teardown where
  stage : Stage
  workers : List Worker
  /-- `_tasks`, by event loop -/
  tasks : List ℕ
  /-- `_run` -/
  run : Bool
  /-- the loops asked to stop since they were entered -/
  asked : List ℕ
  freed : List Obj

/-- `n` event loops to commit and `m` threads in the pool. -/
def Teardown.first (n m : ℕ) : Teardown :=
  ⟨commitFrom n 0, List.replicate m .testRun, [], true, [], []⟩

/-- A move of the main thread, or of worker `i`: its next statement, or, inside `dispatch`, the start
    of a handler or the return from it. -/
inductive Move where
  | main
  | worker (i : ℕ)
  | handle (i : ℕ)
  | leave (i : ℕ)
  deriving DecidableEq

/-- One statement of the main thread. -/
def Teardown.main (n : ℕ) (s : Teardown) : Option Teardown :=
  if s.stage = .done then none
  else
    some
      { stage := s.stage.next n,
        workers := s.workers,
        tasks := s.tasks ++ s.stage.commits,
        run := s.run && s.stage != .stopRun,
        asked := s.asked ++ s.stage.asks,
        freed := s.freed ++ s.stage.frees.toList }

/-- The next statement of a worker, with the task queue and the loops asked to stop: `wait` blocks
    while `_run` holds and there is no task. Entering a loop forgets that it was asked to stop. -/
def Worker.statement (run : Bool) (tasks asked : List ℕ) : Worker → Option (Worker × List ℕ × List ℕ)
  | .testRun => some (if run then .waiting else .exited, tasks, asked)
  | .waiting =>
      match tasks with
      | [] => if run then none else some (.exited, [], asked)
      | k :: rest => some (.took k, rest, asked)
  | .took k => some (.dispatching k, tasks, asked.filter (· ≠ k))
  | .handling k => some (.dispatching k, tasks, asked)
  | .left => some (.testRun, tasks, asked)
  | .dispatching _ | .exited => none

def Teardown.step (n : ℕ) (s : Teardown) : Move → Option Teardown
  | .main => s.main n
  | .worker i =>
      match s.workers[i]? with
      | none => none
      | some w =>
          (w.statement s.run s.tasks s.asked).map (fun r =>
            { s with workers := s.workers.set i r.1, tasks := r.2.1, asked := r.2.2 })
  | .handle i =>
      match s.workers[i]? with
      | some (.dispatching k) =>
          if k ∈ s.asked then none else some { s with workers := s.workers.set i (.handling k) }
      | _ => none
  | .leave i =>
      match s.workers[i]? with
      | some (.dispatching _) => some { s with workers := s.workers.set i .left }
      | _ => none

/-- No worker uses what has been freed. -/
def Teardown.Safe (s : Teardown) : Prop :=
  ∀ w ∈ s.workers, ∀ o ∈ w.uses, o ∉ s.freed

instance (s : Teardown) : Decidable s.Safe :=
  inferInstanceAs (Decidable (∀ w ∈ s.workers, ∀ o ∈ w.uses, o ∉ s.freed))

/-- Event loop `k` is over: its task is not in the queue and no worker has it. -/
def Teardown.Over (s : Teardown) (k : ℕ) : Prop :=
  k ∉ s.tasks ∧ ∀ w ∈ s.workers, w.loop ≠ some k

instance (s : Teardown) (k : ℕ) : Decidable (s.Over k) :=
  inferInstanceAs (Decidable (_ ∧ ∀ w ∈ s.workers, w.loop ≠ some k))

/-- The destructor waits: it frees what the worker of an event loop uses only when the loop is over, and
    the pool only when its threads have exited. -/
def Teardown.Waits (s : Teardown) : Move → Prop
  | .main => ∀ o ∈ s.stage.frees, (∀ k ∈ o.loop, s.Over k) ∧
      (o = .pool → ∀ w ∈ s.workers, w = .exited)
  | _ => True

instance (s : Teardown) : ∀ mv, Decidable (s.Waits mv)
  | .main => inferInstanceAs (Decidable (∀ o ∈ s.stage.frees, (∀ k ∈ o.loop, s.Over k) ∧
      (o = .pool → ∀ w ∈ s.workers, w = .exited)))
  | .worker _ | .handle _ | .leave _ => isTrue trivial

/-! ## What a move can do -/

/-- A worker's statement takes a task from the queue or keeps to the loop it has; it exits when `_run` is
    cleared. -/
theorem Worker.statement_cases {run : Bool} {tasks asked tasks' asked' : List ℕ} {w w' : Worker}
    (h : w.statement run tasks asked = some (w', tasks', asked')) :
    w ≠ .exited ∧ tasks' ⊆ tasks ∧ asked' ⊆ asked ∧
      (∀ k, w'.loop = some k → w.loop = some k ∨ k ∈ tasks) ∧ (w' = .exited → run = false) := by
  cases w with
  | testRun =>
      cases h
      refine ⟨by simp, List.Subset.refl _, List.Subset.refl _, fun k hk => ?_, fun hexit => ?_⟩
      · split at hk <;> cases hk
      · split at hexit
        · cases hexit
        · next hrun => exact Bool.eq_false_iff.2 hrun
  | waiting =>
      cases tasks with
      | nil =>
          simp only [Worker.statement] at h
          split at h
          · cases h
          · next hrun =>
              cases h
              exact ⟨by simp, List.Subset.refl _, List.Subset.refl _, by simp [Worker.loop],
                fun _ => Bool.eq_false_iff.2 hrun⟩
      | cons k₀ rest =>
          cases h
          refine ⟨by simp, List.subset_cons_self _ _, List.Subset.refl _, fun k hk => ?_,
            by simp⟩
          cases hk
          exact Or.inr List.mem_cons_self
  | took k₀ =>
      cases h
      exact ⟨by simp, List.Subset.refl _, List.filter_sublist.subset, fun k hk => Or.inl hk,
        by simp⟩
  | handling k₀ =>
      cases h
      exact ⟨by simp, List.Subset.refl _, List.Subset.refl _, fun k hk => Or.inl hk,
        by simp⟩
  | left =>
      cases h
      exact ⟨by simp, List.Subset.refl _, List.Subset.refl _, by simp [Worker.loop],
        by simp⟩
  | dispatching k₀ => cases h
  | exited => cases h

/-- A move of worker `i`, from `w` to `w'`. It leaves alone what the main thread sets. -/
structure Teardown.Moves (s s' : Teardown) (i : ℕ) (w w' : Worker) : Prop where
  get : s.workers[i]? = some w
  awake : w ≠ .exited
  workers : s'.workers = s.workers.set i w'
  loop : ∀ k, w'.loop = some k → w.loop = some k ∨ k ∈ s.tasks
  exits : w' = .exited → s.run = false
  tasks : s'.tasks ⊆ s.tasks
  asked : s'.asked ⊆ s.asked
  run : s'.run = s.run
  freed : s'.freed = s.freed
  stage : s'.stage = s.stage

/-- A move is one of the main thread or of a worker. -/
theorem Teardown.step_cases {n : ℕ} {s s' : Teardown} {mv : Move} (h : s.step n mv = some s') :
    (mv = .main ∧ s.main n = some s') ∨ ∃ i w w', s.Moves s' i w w' := by
  cases mv with
  | main => exact Or.inl ⟨rfl, h⟩
  | worker i =>
      simp only [Teardown.step] at h
      split at h
      · cases h
      · next w hw =>
          obtain ⟨⟨w', tasks', asked'⟩, hst, rfl⟩ := Option.map_eq_some_iff.1 h
          obtain ⟨hne, htasks, hasked, hloop, hexit⟩ := Worker.statement_cases hst
          exact Or.inr ⟨i, w, w', hw, hne, rfl, hloop, hexit, htasks, hasked, rfl, rfl, rfl⟩
  | handle i =>
      simp only [Teardown.step] at h
      split at h
      · next k hw =>
          split at h <;> cases h
          exact Or.inr ⟨i, _, _, hw, by simp, rfl, fun k hk => Or.inl hk, by simp,
            List.Subset.refl _, List.Subset.refl _, rfl, rfl, rfl⟩
      · cases h
  | leave i =>
      simp only [Teardown.step] at h
      split at h
      · next k hw =>
          cases h
          exact Or.inr ⟨i, _, _, hw, by simp, rfl, by simp [Worker.loop],
            by simp, List.Subset.refl _, List.Subset.refl _, rfl, rfl, rfl⟩
      · cases h

/-! ## Safety of a destructor that waits -/

/-- Nothing is freed while event loops are committed; a loop of which something is freed is over;
    with the pool freed, all workers have exited. -/
structure Teardown.Inv (s : Teardown) : Prop where
  committing : ∀ k, s.stage = .committing k → s.freed = []
  isOver : ∀ o ∈ s.freed, ∀ k ∈ o.loop, s.Over k
  pool : .pool ∈ s.freed → ∀ w ∈ s.workers, w = .exited

theorem Teardown.Inv.safe {s : Teardown} (hinv : s.Inv) : s.Safe := by
  intro w hw o ho hfreed
  -- a worker at a loop uses what belongs to the loop; any other one uses the pool
  cases w with
  | dispatching k =>
      cases List.mem_singleton.1 ho
      exact (hinv.isOver _ hfreed k rfl).2 _ hw rfl
  | handling k =>
      have hk : k ∈ o.loop := by
        simp only [Worker.uses, List.mem_cons, List.not_mem_nil, or_false] at ho
        rcases ho with rfl | rfl | rfl <;> rfl
      exact (hinv.isOver o hfreed k hk).2 _ hw rfl
  | exited => cases ho
  | _ =>
      cases List.mem_singleton.1 ho
      exact absurd (hinv.pool hfreed _ hw) (by simp)

theorem Stage.next_committing {n k : ℕ} {st : Stage} (h : st.next n = .committing k) :
    ∃ k', st = .committing k' := by
  cases st with
  | committing k' => exact ⟨k', rfl⟩
  | serving =>
      simp only [Stage.next, deleteFrom] at h
      split at h <;> cases h
  | deleteParam k' =>
      simp only [Stage.next, deleteFrom] at h
      split at h <;> cases h
  | _ => cases h

theorem Teardown.Inv.main {n : ℕ} {s s' : Teardown} (hinv : s.Inv) (hok : s.Waits .main)
    (h : s.main n = some s') : s'.Inv := by
  unfold Teardown.main at h
  split at h
  · cases h
  · cases h
    refine ⟨fun k hk => ?_, fun o ho k hk => ?_, fun hp => ?_⟩
    · obtain ⟨k', hst⟩ := Stage.next_committing hk
      show s.freed ++ s.stage.frees.toList = []
      rw [hst, hinv.committing k' hst]
      rfl
    · -- the loop was over before, and the destructor commits nothing
      have hover : s.Over k := by
        rcases List.mem_append.1 ho with hold | hnew
        · exact hinv.isOver o hold k hk
        · exact (hok o (by simpa using hnew)).1 k hk
      have hcommits : s.stage.commits = [] := by
        cases hst : s.stage with
        | committing k' =>
            rw [hinv.committing k' hst, hst] at ho
            cases ho
        | _ => rfl
      refine ⟨?_, hover.2⟩
      show k ∉ s.tasks ++ s.stage.commits
      rw [hcommits, List.append_nil]
      exact hover.1
    · rcases List.mem_append.1 hp with hold | hnew
      · exact hinv.pool hold
      · exact (hok .pool (by simpa using hnew)).2 rfl

theorem Teardown.Inv.step {n : ℕ} {s s' : Teardown} {mv : Move} (hinv : s.Inv)
    (hok : s.Waits mv) (h : s.step n mv = some s') : s'.Inv := by
  rcases Teardown.step_cases h with ⟨rfl, hmain⟩ | ⟨i, w, w', hmove⟩
  · exact hinv.main hok hmain
  · have hmem : w ∈ s.workers := List.mem_of_getElem? hmove.get
    refine ⟨fun k hk => ?_, fun o ho k hk => ?_, fun hp => ?_⟩
    · rw [hmove.freed]
      exact hinv.committing k (hmove.stage ▸ hk)
    · rw [hmove.freed] at ho
      have hover := hinv.isOver o ho k hk
      refine ⟨fun hin => hover.1 (hmove.tasks hin), fun v hv => ?_⟩
      rw [hmove.workers] at hv
      rcases List.mem_or_eq_of_mem_set hv with hold | rfl
      · exact hover.2 v hold
      · intro hheld
        rcases hmove.loop k hheld with hw' | hin
        · exact hover.2 w hmem hw'
        · exact hover.1 hin
    · -- a worker that moves has not exited
      rw [hmove.freed] at hp
      exact absurd (hinv.pool hp w hmem) hmove.awake

theorem Teardown.inv_first (n m : ℕ) : (Teardown.first n m).Inv :=
  ⟨fun _ _ => rfl, fun o ho => (by cases ho), fun hp => (by cases hp)⟩

/-! ## A destructor that does not wait -/

/-- Before `_run` is cleared. -/
def Stage.running : Stage → Bool
  | .notifyAll | .detach | .freePool | .done => false
  | _ => true

/-- The loop whose connection is closed, while the rest of its objects is being freed. -/
def Stage.closed : Stage → Option ℕ
  | .deleteInfo k | .loopbreak k | .evhttpFree k | .eventBaseFree k | .deleteParam k => some k
  | _ => none

/-- Loop `j` has been asked to stop. -/
def Stage.Asked : Stage → ℕ → Prop
  | .committing _, _ | .serving, _ => False
  | .closeConnection k, j | .deleteInfo k, j | .loopbreak k, j => j < k
  | .evhttpFree k, j | .eventBaseFree k, j | .deleteParam k, j => j ≤ k
  | _, _ => True

theorem Stage.next_running (n : ℕ) (st : Stage) :
    (st.next n).running = (st.running && st != .stopRun) := by
  cases st with
  | committing k =>
      simp only [Stage.next, commitFrom]
      split <;> rfl
  | serving =>
      simp only [Stage.next, deleteFrom]
      split <;> rfl
  | deleteParam k =>
      simp only [Stage.next, deleteFrom]
      split <;> rfl
  | _ => rfl

theorem Stage.next_closed {n k : ℕ} {st : Stage} (h : (st.next n).closed = some k) :
    st.closed = some k ∨ st.frees = some (.connection k) := by
  cases st with
  | committing k' =>
      simp only [Stage.next, commitFrom] at h
      split at h <;> cases h
  | serving =>
      simp only [Stage.next, deleteFrom] at h
      split at h <;> cases h
  | deleteParam k' =>
      simp only [Stage.next, deleteFrom] at h
      split at h <;> cases h
  | closeConnection k' =>
      cases h
      exact Or.inr rfl
  | _ => exact Or.inl h

theorem Stage.next_asked {n j : ℕ} {st : Stage} (h : st.Asked j ∨ j ∈ st.asks) :
    (st.next n).Asked j := by
  cases st with
  | committing k => simp [Stage.Asked, Stage.asks] at h
  | serving => simp [Stage.Asked, Stage.asks] at h
  | loopbreak k =>
      simp only [Stage.Asked, Stage.asks, List.mem_singleton] at h
      exact h.elim le_of_lt le_of_eq
  | deleteParam k =>
      simp only [Stage.Asked, Stage.asks, List.not_mem_nil, or_false] at h
      simp only [Stage.next, deleteFrom]
      split
      · exact Nat.lt_succ_of_le h
      · trivial
  | closeConnection k => exact h.elim id (fun hin => by cases hin)
  | deleteInfo k => exact h.elim id (fun hin => by cases hin)
  | evhttpFree k => exact h.elim id (fun hin => by cases hin)
  | eventBaseFree k => exact h.elim id (fun hin => by cases hin)
  | _ => trivial

/-- What the stage of the main thread tells in any run, with `m` threads in the pool. -/
structure Teardown.Tracked (m : ℕ) (s : Teardown) : Prop where
  run : s.run = s.stage.running
  alive : s.run = true → ∀ w ∈ s.workers, w ≠ .exited
  asked : ∀ j ∈ s.asked, s.stage.Asked j
  closed : ∀ k, s.stage.closed = some k → .connection k ∈ s.freed
  threads : s.workers.length = m

theorem Teardown.tracked_first (n m : ℕ) : (Teardown.first n m).Tracked m := by
  have hstage : commitFrom n 0 = .committing 0 ∨ commitFrom n 0 = .serving := by
    unfold commitFrom
    split
    · exact Or.inl rfl
    · exact Or.inr rfl
  refine ⟨?_, fun _ w hw => ?_, fun j hj => (by cases hj), fun k hk => ?_, List.length_replicate⟩
  · show true = (commitFrom n 0).running
    rcases hstage with h | h <;> rw [h] <;> rfl
  · rw [List.eq_of_mem_replicate hw]
    simp
  · change (commitFrom n 0).closed = some k at hk
    rcases hstage with h | h <;> rw [h] at hk <;> cases hk

theorem Teardown.Tracked.step {n m : ℕ} {s s' : Teardown} {mv : Move} (h : s.Tracked m)
    (hstep : s.step n mv = some s') : s'.Tracked m := by
  rcases Teardown.step_cases hstep with ⟨rfl, hmain⟩ | ⟨i, w, w', hmove⟩
  · unfold Teardown.main at hmain
    split at hmain
    · cases hmain
    · cases hmain
      refine ⟨?_, fun hrun => ?_, fun j hj => ?_, fun k hk => ?_, h.threads⟩
      · rw [Stage.next_running, ← h.run]
      · exact h.alive (Bool.and_eq_true_iff.1 hrun).1
      · exact Stage.next_asked ((List.mem_append.1 hj).imp_left (h.asked j))
      · rcases Stage.next_closed hk with hold | hnew
        · exact List.mem_append_left _ (h.closed k hold)
        · refine List.mem_append_right _ ?_
          rw [hnew]
          exact List.mem_singleton_self _
  · refine ⟨?_, fun hrun v hv => ?_, fun j hj => ?_, fun k hk => ?_, ?_⟩
    · rw [hmove.run, hmove.stage, h.run]
    · rw [hmove.run] at hrun
      rw [hmove.workers] at hv
      rcases List.mem_or_eq_of_mem_set hv with hold | rfl
      · exact h.alive hrun v hold
      · intro hexit
        rw [hmove.exits hexit] at hrun
        cases hrun
    · rw [hmove.stage]
      exact h.asked j (hmove.asked hj)
    · rw [hmove.freed]
      exact h.closed k (hmove.stage ▸ hk)
    · rw [hmove.workers, List.length_set]
      exact h.threads

/-- Some interleaving goes on to a use of a freed object. -/
def Teardown.CanFail (n : ℕ) (s : Teardown) : Prop :=
  ∃ moves s', Transition.exec (Teardown.step n) s moves = some s' ∧ ¬ s'.Safe

theorem Teardown.CanFail.of_step {n : ℕ} {s s' : Teardown} {mv : Move}
    (hstep : s.step n mv = some s') (h : s'.CanFail n) : s.CanFail n := by
  obtain ⟨moves, t, hrun, hunsafe⟩ := h
  exact ⟨mv :: moves, t, by rw [Transition.exec, hstep]; exact hrun, hunsafe⟩

theorem Teardown.canFail_of_uses {n i : ℕ} {s : Teardown} {w : Worker} {o : Obj}
    (hw : s.workers[i]? = some w) (ho : o ∈ w.uses) (hfreed : o ∈ s.freed) : s.CanFail n :=
  ⟨[], s, rfl, fun hsafe => hsafe w (List.mem_of_getElem? hw) o ho hfreed⟩

theorem Teardown.step_worker {n i : ℕ} {s : Teardown} {w w' : Worker} {tasks asked : List ℕ}
    (hw : s.workers[i]? = some w) (hst : w.statement s.run s.tasks s.asked = some (w', tasks, asked)) :
    s.step n (.worker i)
      = some { s with workers := s.workers.set i w', tasks := tasks, asked := asked } := by
  simp only [Teardown.step, hw, hst, Option.map_some]

theorem Teardown.step_leave {n i k : ℕ} {s : Teardown} (hw : s.workers[i]? = some (.dispatching k)) :
    s.step n (.leave i) = some { s with workers := s.workers.set i .left } := by
  simp only [Teardown.step, hw]

theorem Teardown.step_handle {n i k : ℕ} {s : Teardown} (hw : s.workers[i]? = some (.dispatching k))
    (hasked : k ∉ s.asked) :
    s.step n (.handle i) = some { s with workers := s.workers.set i (.handling k) } := by
  simp only [Teardown.step, hw, if_neg hasked]

theorem List.get_set_of_get {α : Type*} {l : List α} {i : ℕ} {a : α} (b : α) (h : l[i]? = some a) :
    (l.set i b)[i]? = some b :=
  List.getElem?_set_self (List.getElem?_eq_some_iff.1 h).1

/-- A loop that still takes requests, its connection closed. -/
theorem Teardown.canFail_dispatching {n i k : ℕ} {s : Teardown}
    (hw : s.workers[i]? = some (.dispatching k)) (hasked : k ∉ s.asked)
    (hfreed : .connection k ∈ s.freed) : s.CanFail n :=
  .of_step (Teardown.step_handle hw hasked)
    (Teardown.canFail_of_uses (List.get_set_of_get _ hw) (by simp [Worker.uses]) hfreed)

/-- A loop that is entered with its connection closed. -/
theorem Teardown.canFail_took {n i k : ℕ} {s : Teardown} (hw : s.workers[i]? = some (.took k))
    (hfreed : .connection k ∈ s.freed) : s.CanFail n :=
  .of_step (Teardown.step_worker hw rfl)
    (Teardown.canFail_dispatching (List.get_set_of_get _ hw) (by simp) hfreed)

/-- The pool destroyed under a worker. -/
theorem Teardown.canFail_pool {n i : ℕ} {s : Teardown} {w : Worker} (hw : s.workers[i]? = some w)
    (hawake : w ≠ .exited) (hfreed : .pool ∈ s.freed) : s.CanFail n := by
  have hleaves : ∀ {t : Teardown} {k : ℕ}, t.workers[i]? = some (.dispatching k) → .pool ∈ t.freed →
      t.CanFail n := fun ht hpool =>
    .of_step (Teardown.step_leave ht)
      (Teardown.canFail_of_uses (List.get_set_of_get _ ht) List.mem_cons_self hpool)
  cases w with
  | dispatching k => exact hleaves hw hfreed
  | handling k =>
      exact .of_step (Teardown.step_worker hw rfl) (hleaves (List.get_set_of_get _ hw) hfreed)
  | exited => exact absurd rfl hawake
  | _ => exact Teardown.canFail_of_uses hw List.mem_cons_self hfreed

/-- How far a worker is from taking the next task. -/
def Worker.rank : Worker → ℕ
  | .took _ | .handling _ => 5
  | .dispatching _ => 4
  | .left => 3
  | .testRun => 2
  | .waiting => 1
  | .exited => 0

/-- A queued loop, its connection closed: any worker gets to it in the end. -/
theorem Teardown.canFail_queued {n i k : ℕ} {s : Teardown} {w : Worker} (hrun : s.run = true)
    (hw : s.workers[i]? = some w) (hawake : w ≠ .exited) (hk : k ∈ s.tasks)
    (hfreed : .connection k ∈ s.freed) : s.CanFail n := by
  -- the tasks before it, and the statements of the worker up to the next one
  induction hμ : s.tasks.idxOf k * 6 + w.rank using Nat.strongRecOn generalizing s w with
  | ind μ ih =>
      have hnext : ∀ {w' : Worker}, w'.rank < w.rank → s.tasks.idxOf k * 6 + w'.rank < μ := by
        intro w' hlt
        omega
      cases w with
      | testRun =>
          have hst : Worker.testRun.statement s.run s.tasks s.asked
              = some (.waiting, s.tasks, s.asked) := by
            simp [Worker.statement, hrun]
          exact .of_step (Teardown.step_worker hw hst)
            (ih _ (hnext (by decide)) hrun (List.get_set_of_get _ hw) (by simp) hk hfreed rfl)
      | waiting =>
          cases htasks : s.tasks with
          | nil =>
              rw [htasks] at hk
              cases hk
          | cons k₀ rest =>
              have hst : Worker.waiting.statement s.run s.tasks s.asked
                  = some (.took k₀, rest, s.asked) := by
                rw [htasks]
                rfl
              refine .of_step (Teardown.step_worker hw hst) ?_
              rw [htasks, List.mem_cons] at hk
              by_cases heq : k₀ = k
              · subst heq
                exact Teardown.canFail_took (List.get_set_of_get _ hw) hfreed
              · have hlt : rest.idxOf k * 6 + (Worker.took k₀).rank < μ := by
                  rw [← hμ, htasks, List.idxOf_cons_ne _ heq]
                  simp only [Worker.rank]
                  omega
                exact ih _ hlt hrun (List.get_set_of_get _ hw) (by simp)
                  (hk.resolve_left (Ne.symm heq)) hfreed rfl
      | took k₀ =>
          exact .of_step (Teardown.step_worker hw rfl)
            (ih _ (@hnext (.dispatching k₀) (by simp [Worker.rank])) hrun
              (List.get_set_of_get _ hw) (by simp) hk hfreed rfl)
      | dispatching k₀ =>
          exact .of_step (Teardown.step_leave hw)
            (ih _ (hnext (by simp [Worker.rank])) hrun (List.get_set_of_get _ hw) (by simp) hk hfreed
              rfl)
      | handling k₀ =>
          exact .of_step (Teardown.step_worker hw rfl)
            (ih _ (@hnext (.dispatching k₀) (by simp [Worker.rank])) hrun
              (List.get_set_of_get _ hw) (by simp) hk hfreed rfl)
      | left =>
          exact .of_step (Teardown.step_worker hw rfl)
            (ih _ (hnext (by decide)) hrun (List.get_set_of_get _ hw) (by simp) hk hfreed rfl)
      | exited => exact absurd rfl hawake

/-- What a worker uses is freed behind the connection of its loop. -/
theorem Stage.closes_of_frees {st : Stage} {o : Obj} {k : ℕ} (h : o ∈ st.frees) (hk : k ∈ o.loop) :
    st = .closeConnection k ∨ st.closed = some k := by
  cases st with
  | closeConnection k' =>
      cases h
      cases hk
      exact Or.inl rfl
  | eventBaseFree k' =>
      cases h
      exact Or.inr hk
  | deleteParam k' =>
      cases h
      exact Or.inr hk
  | _ =>
      cases h <;> cases hk

/-- The connection of a loop closed although the loop is not over. -/
theorem Teardown.Tracked.canFail_close {n m k : ℕ} {s s' : Teardown} (h : s.Tracked m) (hm : 0 < m)
    (hst : s.stage = .closeConnection k) (hover : ¬ s.Over k) (hmain : s.main n = some s') :
    s'.CanFail n := by
  unfold Teardown.main at hmain
  rw [hst, if_neg (by simp)] at hmain
  obtain rfl := Option.some.inj hmain
  have hfreed : Obj.connection k ∈ s.freed ++ (Stage.closeConnection k).frees.toList :=
    List.mem_append_right _ (List.mem_singleton_self _)
  have hrun : s.run = true := by
    rw [h.run, hst]
    rfl
  rw [Teardown.Over, not_and_or, not_not] at hover
  rcases hover with hqueued | hheld
  · obtain ⟨w, hw⟩ : ∃ w, s.workers[0]? = some w :=
      ⟨_, List.getElem?_eq_getElem (h.threads.symm ▸ hm)⟩
    have hawake := h.alive hrun w (List.mem_of_getElem? hw)
    exact Teardown.canFail_queued (by simp [hrun]) hw hawake (List.mem_append_left _ hqueued) hfreed
  · push Not at hheld
    obtain ⟨w, hmem, hloop⟩ := hheld
    obtain ⟨i, hw⟩ := List.mem_iff_getElem?.1 hmem
    cases w with
    | took k' =>
        cases hloop
        exact Teardown.canFail_took hw hfreed
    | dispatching k' =>
        cases hloop
        refine Teardown.canFail_dispatching hw (fun hasked => ?_) hfreed
        -- only the loops before it have been asked to stop
        have hbefore := h.asked k (by simpa [Stage.asks] using hasked)
        rw [hst] at hbefore
        exact lt_irrefl k hbefore
    | handling k' =>
        cases hloop
        exact Teardown.canFail_of_uses hw (by simp [Worker.uses]) hfreed
    | _ => cases hloop

/-- The pool destroyed although a worker has not exited. -/
theorem Teardown.canFail_destroy {n : ℕ} {s s' : Teardown} {w : Worker} (hst : .pool ∈ s.stage.frees)
    (hw : w ∈ s.workers) (hawake : w ≠ .exited) (hmain : s.main n = some s') : s'.CanFail n := by
  obtain ⟨i, hget⟩ := List.mem_iff_getElem?.1 hw
  unfold Teardown.main at hmain
  split at hmain
  · cases hmain
  · obtain rfl := Option.some.inj hmain
    refine Teardown.canFail_pool hget hawake (List.mem_append_right _ ?_)
    exact Option.mem_toList.2 hst

/-- **A destructor that waits tears down safely**, and only that: for any number of event loops and
    workers, in every interleaving in which the destructor waits, no worker ever uses a freed object;
    and where it goes on for the first time without waiting, some interleaving goes on to such a use,
    if there is a worker. -/
theorem teardown_safe (n m : ℕ) (run : List Move)
    (hok : Transition.Along (Teardown.step n) Teardown.Waits (Teardown.first n m) run) :
    Transition.Always (Teardown.step n) Teardown.Safe (Teardown.first n m) run ∧
    ∀ s, Transition.exec (Teardown.step n) (Teardown.first n m) run = some s → 0 < m →
      ¬ s.Waits .main → ∃ s', s.step n .main = some s' ∧ s'.CanFail n := by
  have hinv := Transition.always_of_step (fun s mv s' hinv hok' hstep => hinv.step hok' hstep)
    (Teardown.inv_first n m) hok
  refine ⟨Transition.Always.imp (fun s hinv => Teardown.Inv.safe hinv) hinv,
    fun s hrun hm hnot => ?_⟩
  have htracked : s.Tracked m := Transition.exec_inv (fun _ _ _ h hstep => h.step hstep)
    (Teardown.tracked_first n m) hrun
  simp only [Teardown.Waits, not_forall] at hnot
  obtain ⟨o, ho, hnot⟩ := hnot
  obtain ⟨s', hmain⟩ : ∃ s', s.main n = some s' := by
    unfold Teardown.main
    rw [if_neg (by rintro hdone; rw [hdone] at ho; cases ho)]
    exact ⟨_, rfl⟩
  refine ⟨s', hmain, ?_⟩
  rcases not_and_or.1 hnot with hloop | hpool
  · push Not at hloop
    obtain ⟨k, hk, hover⟩ := hloop
    rcases Stage.closes_of_frees ho hk with hst | hclosed
    · exact htracked.canFail_close hm hst hover hmain
    · -- it was over when its connection was closed
      exact absurd ((hinv.last hrun).isOver _ (htracked.closed k hclosed) k rfl) hover
  · push Not at hpool
    obtain ⟨rfl, w, hw, hawake⟩ := hpool
    exact Teardown.canFail_destroy ho hw hawake hmain

/-- One loop that returns by itself before the destructor begins, and a worker that exits when `_run`
    is cleared. -/
def idleRun : List Move :=
  [.main, .worker 0, .worker 0, .worker 0, .handle 0, .worker 0, .leave 0, .worker 0, .worker 0,
    .main, .main, .main, .main, .main, .main, .main, .main, .main, .main,
    .worker 0, .main, .main, .main]

/-- A worker in `event_base_dispatch`, and the destructor before its first statement. -/
def servingRun : List Move :=
  [.main, .worker 0, .worker 0, .worker 0, .main]

theorem teardown_safe_idle :
    Transition.Always (Teardown.step 1) Teardown.Safe (Teardown.first 1 1) idleRun ∧
    ∃ s s', Transition.exec (Teardown.step 1) (Teardown.first 1 1) servingRun = some s ∧
      s.step 1 .main = some s' ∧ s'.CanFail 1 := by
  refine ⟨(teardown_safe 1 1 idleRun (by decide)).1, ?_⟩
  obtain ⟨s, hrun, hnot⟩ : ∃ s, Transition.exec (Teardown.step 1) (Teardown.first 1 1) servingRun
      = some s ∧ ¬ s.Waits .main := ⟨_, rfl, by decide⟩
  obtain ⟨s', hmain, hfail⟩ := (teardown_safe 1 1 servingRun (by decide)).2 s hrun Nat.one_pos hnot
  exact ⟨s, s', hrun, hmain, hfail⟩

/-- A worker in `event_base_dispatch`, and the destructor up to `event_base_free`. -/
def busyRun : List Move :=
  [.main, .worker 0, .worker 0, .worker 0, .main, .main, .main, .main, .main, .main]

/-- The destructor frees the event base, its thread still in `event_base_dispatch`. -/
theorem teardown_frees_running_loop :
    ∃ s, Transition.exec (Teardown.step 1) (Teardown.first 1 1) busyRun = some s ∧
      s.workers = [.dispatching 0] ∧ .eventBase 0 ∈ s.freed ∧ ¬ s.Safe := by
  refine ⟨_, rfl, rfl, ?_, ?_⟩
  · decide
  · decide

end FileCacheProxy
