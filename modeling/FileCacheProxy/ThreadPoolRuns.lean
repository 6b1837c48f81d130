import FileCacheProxy.ThreadPool
import FileCacheProxy.Workers
import Mathlib

set_option autoImplicit false

/-! # Runs of the thread pool

What holds over whole runs of `Pool.step`. Left to itself (no new `commit`, no task returns) the pool
settles within a bounded number of statements, and settled it has nothing in the queue or nobody
asleep: no wake-up is lost. The destructor is another matter, since it sets `_run` without the lock:
what is still queued is not run, and one thread can miss `notify_all`.

The last part is the link to the other modules, whose workers take a task in one statement. -/

namespace FileCacheProxy

open Tally

variable {τ : Type*}

/-! ## What happens to one thread -/

/-- A move leaves thread `k` alone, is its next statement, lets its task return, or wakes it. -/
inductive Pool.Moves (s s' : Pool τ) (k : ℕ) : Prop
  | none : s'.threads[k]? = s.threads[k]? → ofThread k s'.taken = ofThread k s.taken → Moves s s' k
  | statement {p p' : PoolThread τ} {locked : Bool} {tasks now : List τ} :
      s.threads[k]? = some p → s'.threads[k]? = some p' →
      PoolThread.Goes s.run s.locked s.tasks p p' locked tasks now →
      ofThread k s'.taken = ofThread k s.taken ++ now → Moves s s' k
  | ret (t : τ) : s.threads[k]? = some (.running t) → s'.threads[k]? = some .testRun →
      ofThread k s'.taken = ofThread k s.taken → Moves s s' k
  | wake : s.threads[k]? = some .blocked → s'.threads[k]? = some .lock →
      ofThread k s'.taken = ofThread k s.taken → Moves s s' k

theorem Pool.moves_wakeOne {s s' : Pool τ} {i : ℕ} (hp : s.threads[i]? = some .blocked)
    (hthreads : s'.threads = s.threads.set i .lock) (htaken : s'.taken = s.taken) (k : ℕ) :
    Pool.Moves s s' k := by
  by_cases hik : i = k
  · subst hik
    obtain ⟨hlt, -⟩ := List.getElem?_eq_some_iff.1 hp
    exact .wake hp (by rw [hthreads, List.getElem?_set_self hlt]) (by rw [htaken])
  · exact .none (by rw [hthreads, List.getElem?_set_ne hik]) (by rw [htaken])

theorem Pool.moves_of_step {s s' : Pool τ} {mv : PoolMove τ} (h : s.step mv = some s') (k : ℕ) :
    Pool.Moves s s' k := by
  cases mv with
  | call j t =>
      simp only [Pool.step] at h
      split at h
      · cases h
        exact .none rfl rfl
      · cases h
  | caller j i =>
      rcases Pool.step_caller h with ⟨-, hnotify⟩ | ⟨c, c', locked, pushed, -, -, rfl⟩
      · rcases Pool.notifyOne_cases hnotify with ⟨hp, rfl⟩ | ⟨-, rfl⟩
        · exact Pool.moves_wakeOne hp (by rfl) (by rfl) k
        · exact .none rfl rfl
      · exact .none rfl rfl
  | worker i =>
      obtain ⟨p, p', locked, tasks, now, hp, hgo, rfl⟩ := Pool.step_worker h
      by_cases hik : i = k
      · subst hik
        obtain ⟨hlt, -⟩ := List.getElem?_eq_some_iff.1 hp
        exact .statement hp (List.getElem?_set_self hlt) hgo
          (by rw [ofThread_append, ofThread_map_self])
      · exact .none (List.getElem?_set_ne hik)
          (by rw [ofThread_append, ofThread_map_of_ne hik, List.append_nil])
  | ret i =>
      simp only [Pool.step] at h
      split at h
      · next t hp =>
          cases h
          by_cases hik : i = k
          · subst hik
            obtain ⟨hlt, -⟩ := List.getElem?_eq_some_iff.1 hp
            exact .ret t hp (List.getElem?_set_self hlt) rfl
          · exact .none (List.getElem?_set_ne hik) rfl
      · cases h
  | spurious i =>
      simp only [Pool.step] at h
      split at h
      · next hp =>
          cases h
          exact Pool.moves_wakeOne hp (by rfl) (by rfl) k
      · cases h
  | stop =>
      simp only [Pool.step] at h
      split at h
      · cases h
        exact .none rfl rfl
      · cases h
  | notifyAll =>
      simp only [Pool.step] at h
      split at h
      · cases h
        cases hp : s.threads[k]? with
        | none => exact .none (by rw [List.getElem?_map, hp]; rfl) rfl
        | some p =>
            have hmap : (s.threads.map PoolThread.wake)[k]? = some p.wake := by
              rw [List.getElem?_map, hp]
              rfl
            by_cases hblocked : p = .blocked
            · subst hblocked
              exact .wake hp hmap rfl
            · have hself : p.wake = p := by
                cases p <;> first | rfl | exact absurd rfl hblocked
              exact .none (by rw [hmap, hself, hp]) rfl
      · cases h

/-- `_run` is never set again. -/
theorem Pool.run_of_step {s s' : Pool τ} {mv : PoolMove τ} (h : s.step mv = some s')
    (hrun : s.run = false) : s'.run = false := by
  cases mv with
  | caller j i =>
      rcases Pool.step_caller h with ⟨-, hnotify⟩ | ⟨c, c', locked, pushed, -, -, rfl⟩
      · rcases Pool.notifyOne_cases hnotify with ⟨-, rfl⟩ | ⟨-, rfl⟩
        · exact hrun
        · exact hrun
      · exact hrun
  | worker i =>
      obtain ⟨p, p', locked, tasks, now, -, -, rfl⟩ := Pool.step_worker h
      exact hrun
  | stop =>
      simp only [Pool.step] at h
      split at h
      · cases h
        rfl
      · cases h
  | _ =>
      simp only [Pool.step] at h
      split at h
      · cases h
        exact hrun
      · cases h

/-! ## Left to itself the pool settles -/

/-- The moves that need nobody outside: statements of the threads and of calls that have begun, and
    the rest of the destructor. -/
def PoolMove.Inner : PoolMove τ → Prop
  | .caller _ _ | .worker _ | .notifyAll => True
  | .call _ _ | .ret _ | .spurious _ | .stop => False

/-- The statements a thread has before it, until it sleeps, runs a task or exits. -/
def PoolThread.rank : PoolThread τ → ℕ
  | .testRun => 6
  | .lock => 5
  | .predicate => 4
  | .testExit => 3
  | .take => 2
  | .block | .unlock _ => 1
  | .blocked | .running _ | .exited => 0

/-- The statements a call of `commit` has before it, and those of the thread it wakes. -/
def CommitCall.rank : CommitCall τ → ℕ
  | .testRun _ => 10
  | .lock _ => 9
  | .push _ => 8
  | .unlock => 7
  | .notify => 6
  | .outside => 0

/-- `notify_all` can wake every thread. -/
def PoolDestructor.rank (threads : ℕ) : PoolDestructor → ℕ
  | .notifyAll => 5 * threads + 1
  | .notCalled | .detach => 0

def Pool.rank (s : Pool τ) : ℕ :=
  tally PoolThread.rank s.threads + tally CommitCall.rank s.callers +
    s.destructor.rank s.threads.length

theorem PoolThread.Goes.rank_lt {run locked locked' : Bool} {tasks tasks' now : List τ}
    {p p' : PoolThread τ} (h : Goes run locked tasks p p' locked' tasks' now) :
    p'.rank < p.rank := by
  cases h <;> simp [PoolThread.rank]

theorem CommitCall.Goes.rank_lt {run locked locked' : Bool} {pushed : List τ} {c c' : CommitCall τ}
    (h : Goes run locked c c' locked' pushed) : c'.rank < c.rank := by
  cases h <;> simp [CommitCall.rank]

theorem Pool.rank_le (s : Pool τ) : s.rank ≤ 11 * s.threads.length + 10 * s.callers.length + 1 := by
  have hthreads : tally PoolThread.rank s.threads ≤ 6 * s.threads.length :=
    tally_le_mul (fun p => by cases p <;> simp [PoolThread.rank]) _
  have hcallers : tally CommitCall.rank s.callers ≤ 10 * s.callers.length :=
    tally_le_mul (fun c => by cases c <;> simp [CommitCall.rank]) _
  have hdestructor : s.destructor.rank s.threads.length ≤ 5 * s.threads.length + 1 := by
    cases s.destructor with
    | notifyAll => exact le_rfl
    | notCalled => exact Nat.zero_le _
    | detach => exact Nat.zero_le _
  rw [Pool.rank]
  omega

/-- Every inner move brings the pool nearer to its rest. -/
theorem Pool.rank_lt_of_step {s s' : Pool τ} {mv : PoolMove τ} (hinner : mv.Inner)
    (h : s.step mv = some s') : s'.rank < s.rank := by
  cases mv with
  | call j t => cases hinner
  | ret i => cases hinner
  | spurious i => cases hinner
  | stop => cases hinner
  | worker i =>
      obtain ⟨p, p', locked, tasks, now, hp, hgo, rfl⟩ := Pool.step_worker h
      have hset := tally_set PoolThread.rank p' hp
      have hlt := hgo.rank_lt
      simp only [Pool.rank, List.length_set]
      omega
  | caller j i =>
      rcases Pool.step_caller h with ⟨hc, hnotify⟩ | ⟨c, c', locked, pushed, hc, hgo, rfl⟩
      · have hset := tally_set CommitCall.rank .outside hc
        rcases Pool.notifyOne_cases hnotify with ⟨hp, rfl⟩ | ⟨-, rfl⟩
        · -- the statements of the woken thread were counted with the call
          have hwoken := tally_set PoolThread.rank .lock hp
          simp only [Pool.rank, List.length_set, PoolThread.rank, CommitCall.rank] at *
          omega
        · simp only [Pool.rank, CommitCall.rank] at *
          omega
      · have hset := tally_set CommitCall.rank c' hc
        have hlt := hgo.rank_lt
        simp only [Pool.rank]
        omega
  | notifyAll =>
      simp only [Pool.step] at h
      split at h
      · next hd =>
          cases h
          have hwake : tally PoolThread.rank (s.threads.map PoolThread.wake) ≤
              tally PoolThread.rank s.threads + 5 * s.threads.length := by
            rw [tally_map]
            have hle : tally (fun p : PoolThread τ => p.wake.rank) s.threads ≤
                tally (fun p => p.rank + 5) s.threads :=
              tally_mono (fun p _ => by cases p <;> simp [PoolThread.wake, PoolThread.rank])
            have hfive : tally (fun _ : PoolThread τ => 5) s.threads ≤ 5 * s.threads.length :=
              tally_le_mul (fun _ => le_rfl) _
            rw [tally_add] at hle
            omega
          simp only [Pool.rank, hd, PoolDestructor.rank]
          omega
      · cases h

/-- No inner move is possible. -/
def Pool.Settled (s : Pool τ) : Prop :=
  ∀ mv : PoolMove τ, mv.Inner → s.step mv = none

theorem Pool.step_worker_eq {s : Pool τ} {i : ℕ} {p : PoolThread τ} (h : s.threads[i]? = some p)
    (hnone : s.step (.worker i) = none) : p.statement s.run s.locked s.tasks = none := by
  simp only [Pool.step, h] at hnone
  exact Option.map_eq_none_iff.1 hnone

theorem Pool.step_caller_eq {s : Pool τ} {j : ℕ} {c : CommitCall τ} (h : s.callers[j]? = some c)
    (hc : c ≠ .notify) (hnone : s.step (.caller j 0) = none) : c.statement s.run s.locked = none := by
  simp only [Pool.step, h] at hnone
  exact Option.map_eq_none_iff.1 hnone

namespace Pool.Settled

variable {s : Pool τ}

/-- Nobody has the lock: who has it can always go on. -/
theorem locked_eq (h : s.Settled) (hinv : s.Inv) : s.locked = false := by
  have hthreads : tally PoolThread.holds s.threads = 0 := by
    rw [tally_eq_zero]
    intro p hp
    obtain ⟨i, hi⟩ := List.mem_iff_getElem?.1 hp
    have hstuck := Pool.step_worker_eq hi (h (.worker i) trivial)
    have hknows := hinv.knows i p hi
    cases p with
    | predicate => cases hstuck
    | block => cases hstuck
    | unlock t => cases hstuck
    | testExit =>
        simp only [PoolThread.statement] at hstuck
        split at hstuck <;> cases hstuck
    | take =>
        cases htasks : s.tasks with
        | nil => exact absurd htasks hknows
        | cons t rest =>
            rw [htasks] at hstuck
            cases hstuck
    | _ => rfl
  have hcallers : tally CommitCall.holds s.callers = 0 := by
    rw [tally_eq_zero]
    intro c hc
    obtain ⟨j, hj⟩ := List.mem_iff_getElem?.1 hc
    cases c with
    | push t => cases Pool.step_caller_eq hj (by simp) (h (.caller j 0) trivial)
    | unlock => cases Pool.step_caller_eq hj (by simp) (h (.caller j 0) trivial)
    | _ => rfl
  have hlock := hinv.lock
  rw [hthreads, hcallers] at hlock
  cases hl : s.locked with
  | false => rfl
  | true =>
      rw [hl] at hlock
      cases hlock

/-- Every thread sleeps, runs a task, or has exited. -/
theorem thread (h : s.Settled) (hinv : s.Inv) {p : PoolThread τ} (hp : p ∈ s.threads) :
    p = .blocked ∨ p = .exited ∨ ∃ t, p = .running t := by
  obtain ⟨i, hi⟩ := List.mem_iff_getElem?.1 hp
  have hstuck := Pool.step_worker_eq hi (h (.worker i) trivial)
  have hfree := h.locked_eq hinv
  have hheld := (le_tally PoolThread.holds hi).trans hinv.holds_le
  rw [hfree] at hheld hstuck
  cases p with
  | blocked => exact Or.inl rfl
  | exited => exact Or.inr (Or.inl rfl)
  | running t => exact Or.inr (Or.inr ⟨t, rfl⟩)
  | testRun => cases hstuck
  | lock => cases hstuck
  | _ => cases hheld

/-- Every call has ended. -/
theorem caller (h : s.Settled) (hinv : s.Inv) {c : CommitCall τ} (hc : c ∈ s.callers) :
    c = .outside := by
  obtain ⟨j, hj⟩ := List.mem_iff_getElem?.1 hc
  have hfree := h.locked_eq hinv
  cases c with
  | outside => rfl
  | notify =>
      -- if nobody sleeps `notify_one` does nothing, and else there is someone to wake
      have hnone := h (.caller j (s.threads.findIdx PoolThread.asleep)) trivial
      simp only [Pool.step, hj, Pool.notifyOne] at hnone
      split at hnone
      · next hany =>
          obtain ⟨p, hp, hasleep⟩ := List.any_eq_true.1 hany
          have hlt : s.threads.findIdx PoolThread.asleep < s.threads.length :=
            List.findIdx_lt_length_of_exists ⟨p, hp, hasleep⟩
          have hfound := List.findIdx_getElem (w := hlt)
          rw [List.getElem?_eq_getElem hlt] at hnone
          cases hq : s.threads[s.threads.findIdx PoolThread.asleep] with
          | blocked =>
              rw [hq] at hnone
              cases hnone
          | _ =>
              rw [hq] at hfound
              cases hfound
      · cases hnone
  | lock t =>
      have hstuck := Pool.step_caller_eq hj (by simp) (h (.caller j 0) trivial)
      rw [hfree] at hstuck
      cases hstuck
  | _ => cases Pool.step_caller_eq hj (by simp) (h (.caller j 0) trivial)

/-- While the pool runs, the queue is empty or every thread is busy. -/
theorem queue (h : s.Settled) (hinv : s.Inv) (hrun : s.run = true) :
    s.tasks = [] ∨ ∀ p ∈ s.threads, ∃ t, p = .running t := by
  rcases hinv.awake hrun with hnone | hle
  · refine Or.inr (fun p hp => ?_)
    rcases h.thread hinv hp with hblocked | hexited | hrunning
    · exact absurd hblocked (hnone p hp)
    · exact absurd hexited (hinv.staying hrun p hp)
    · exact hrunning
  · left
    have hlooks : tally PoolThread.looks s.threads = 0 := by
      rw [tally_eq_zero]
      intro p hp
      rcases h.thread hinv hp with rfl | rfl | ⟨t, rfl⟩ <;> rfl
    have hnotifies : tally CommitCall.notifies s.callers = 0 := by
      rw [tally_eq_zero]
      intro c hc
      rw [h.caller hinv hc]
      rfl
    rw [hlooks, hnotifies] at hle
    exact List.eq_nil_of_length_eq_zero (Nat.le_zero.1 hle)

end Pool.Settled

/-- What the pool comes to when it is left to itself. -/
structure Pool.AtRest (s : Pool τ) : Prop where
  free : s.locked = false
  returned : ∀ c ∈ s.callers, c = .outside
  threads : ∀ p ∈ s.threads, p = .blocked ∨ p = .exited ∨ ∃ t, p = .running t
  /-- No wake-up is lost: a task is left only when every thread is busy. -/
  queue : s.run = true → s.tasks = [] ∨ ∀ p ∈ s.threads, ∃ t, p = .running t

/-- **The pool settles.** Whatever the interleaving, the calls that have begun and the threads that
    are awake come to rest within a bounded number of statements: no deadlock, no livelock, no lost
    wake-up. -/
theorem Pool.settles {n m : ℕ} {moves : List (PoolMove τ)} {s : Pool τ}
    (h : Transition.exec Pool.step (Pool.new τ n m) moves = some s) :
    (∀ inner t, (∀ mv ∈ inner, PoolMove.Inner mv) → Transition.exec Pool.step s inner = some t →
      inner.length ≤ 11 * s.threads.length + 10 * s.callers.length + 1 ∧ (t.Settled → t.AtRest)) ∧
    ∃ inner t, (∀ mv ∈ inner, PoolMove.Inner mv) ∧ Transition.exec Pool.step s inner = some t ∧
      t.Settled := by
  have hinv := Pool.inv_of_exec h
  refine ⟨fun inner t hinner hrun => ?_, ?_⟩
  · have hlower : ∀ (u : Pool τ) (mv : PoolMove τ) (u' : Pool τ), u.Inv → mv.Inner →
        u.step mv = some u' → u'.Inv ∧ u'.rank < u.rank :=
      fun u mv u' hu hmv hstep => ⟨hu.step hstep, Pool.rank_lt_of_step hmv hstep⟩
    obtain ⟨ht, hlen⟩ := Transition.exec_length_le Pool.rank hlower hinv hinner hrun
    have hle := s.rank_le
    refine ⟨by omega, fun hsettled => ?_⟩
    exact ⟨hsettled.locked_eq ht, fun c hc => hsettled.caller ht hc,
      fun p hp => hsettled.thread ht hp, hsettled.queue ht⟩
  · have hprogress : ∀ u : Pool τ, u.Inv → ¬ u.Settled →
        ∃ mv u', PoolMove.Inner mv ∧ u.step mv = some u' ∧ u'.Inv ∧ u'.rank < u.rank := by
      intro u hu hgoal
      simp only [Pool.Settled, not_forall] at hgoal
      obtain ⟨mv, hmv, hsome⟩ := hgoal
      obtain ⟨u', hu'⟩ := Option.ne_none_iff_exists'.1 hsome
      exact ⟨mv, u', hmv, hu', hu.step hu', Pool.rank_lt_of_step hmv hu'⟩
    obtain ⟨inner, t, hinner, hrun, -, hsettled⟩ :=
      Transition.exists_inner_exec_of_measure Pool.rank hprogress hinv
    exact ⟨inner, t, hinner, hrun, hsettled⟩

/-- A call that has just begun. -/
theorem Pool.settles_call :
    ∃ inner t, (∀ mv ∈ inner, PoolMove.Inner mv) ∧
      Transition.exec Pool.step
        (⟨true, false, [], [.testRun], [.testRun 7], .notCalled, [], [], []⟩ : Pool ℕ) inner = some t ∧
      t.Settled :=
  (Pool.settles (show Transition.exec Pool.step (Pool.new ℕ 1 1) [.call 0 7] =
    some ⟨true, false, [], [.testRun], [.testRun 7], .notCalled, [], [], []⟩ from rfl)).2

/-! ## What the destructor leaves behind -/

/-- The threads that can still take a task once `_run` is cleared. -/
def PoolThread.mayTake : PoolThread τ → ℕ
  | .lock | .predicate | .block | .blocked | .testExit | .take => 1
  | .testRun | .unlock _ | .running _ | .exited => 0

def Pool.mayTake (s : Pool τ) (k : ℕ) : ℕ :=
  ((s.threads[k]?).map PoolThread.mayTake).getD 0

theorem PoolThread.Goes.mayTake {locked locked' : Bool} {tasks tasks' now : List τ}
    {p p' : PoolThread τ} (h : Goes false locked tasks p p' locked' tasks' now) :
    now.length + p'.mayTake ≤ p.mayTake := by
  cases h with
  | enter hrun => cases hrun
  | idle hrun => cases hrun
  | _ => simp [PoolThread.mayTake]

theorem Pool.mayTake_eq {s : Pool τ} {k : ℕ} {p : PoolThread τ} (h : s.threads[k]? = some p) :
    s.mayTake k = p.mayTake := by
  rw [Pool.mayTake, h]
  rfl

/-- On a stopped pool a thread spends its one chance to take a task. -/
theorem Pool.taken_of_step {s s' : Pool τ} {mv : PoolMove τ} (h : s.step mv = some s')
    (hrun : s.run = false) (k : ℕ) :
    (ofThread k s'.taken).length + s'.mayTake k ≤ (ofThread k s.taken).length + s.mayTake k := by
  cases Pool.moves_of_step h k with
  | none hthread htaken => rw [Pool.mayTake, hthread, htaken, Pool.mayTake]
  | statement hp hp' hgo htaken =>
      rw [hrun] at hgo
      have hmay := hgo.mayTake
      rw [Pool.mayTake_eq hp, Pool.mayTake_eq hp', htaken, List.length_append]
      omega
  | ret t hp hp' htaken =>
      rw [Pool.mayTake_eq hp, Pool.mayTake_eq hp', htaken]
      exact le_rfl
  | wake hp hp' htaken =>
      rw [Pool.mayTake_eq hp, Pool.mayTake_eq hp', htaken]
      exact le_rfl

/-- **Stopping abandons the queue.** Behind `_run=false` a thread takes at most one more task, and
    none if it is in a task or at `while (_run)`; nothing else leaves the queue. -/
theorem Pool.taken_after_stop {s t : Pool τ} {moves : List (PoolMove τ)} (hrun : s.run = false)
    (h : Transition.exec Pool.step s moves = some t) (k : ℕ) :
    (ofThread k t.taken).length ≤ (ofThread k s.taken).length + s.mayTake k := by
  have hkeep : ∀ (u : Pool τ) (mv : PoolMove τ) (u' : Pool τ),
      (u.run = false ∧ (ofThread k u.taken).length + u.mayTake k ≤
        (ofThread k s.taken).length + s.mayTake k) → u.step mv = some u' →
      (u'.run = false ∧ (ofThread k u'.taken).length + u'.mayTake k ≤
        (ofThread k s.taken).length + s.mayTake k) :=
    fun u mv u' hu hstep =>
      ⟨Pool.run_of_step hstep hu.1, (Pool.taken_of_step hstep hu.1 k).trans hu.2⟩
  have hend := (Transition.exec_inv hkeep ⟨hrun, le_rfl⟩ h).2
  omega

/-- Of two tasks the only thread takes one and exits. -/
theorem Pool.taken_after_stop_one :
    ∃ t : Pool ℕ, Transition.exec Pool.step ⟨false, false, [7, 8], [.lock], [], .detach, [7, 8], [], []⟩
        [.worker 0, .worker 0, .worker 0, .worker 0, .worker 0, .ret 0, .worker 0] = some t ∧
      t.tasks = [8] ∧ (ofThread 0 t.taken).length ≤ 0 + 1 := by
  have hrun : Transition.exec Pool.step
      (⟨false, false, [7, 8], [.lock], [], .detach, [7, 8], [], []⟩ : Pool ℕ)
      [.worker 0, .worker 0, .worker 0, .worker 0, .worker 0, .ret 0, .worker 0] =
      some ⟨false, false, [8], [.exited], [], .detach, [7, 8], [(0, 7)], [(0, 7)]⟩ := rfl
  exact ⟨_, hrun, rfl, Pool.taken_after_stop rfl hrun 0⟩

/-- Thread `k` sleeps or is about to. -/
def Pool.Idle (s : Pool τ) (k : ℕ) : Prop :=
  s.threads[k]? = some .block ∨ s.threads[k]? = some .blocked

/-- On a stopped pool nobody decides to sleep any more. -/
theorem Pool.idle_of_step {s s' : Pool τ} {mv : PoolMove τ} (h : s.step mv = some s')
    (hrun : s.run = false) {k : ℕ} (hidle : s'.Idle k) : s.Idle k := by
  cases Pool.moves_of_step h k with
  | none hthread _ => rwa [Pool.Idle, hthread] at hidle
  | statement hp hp' hgo _ =>
      rw [Pool.Idle, hp'] at hidle
      cases hgo with
      | idle hset => cases hset.symm.trans hrun
      | sleep => exact Or.inl hp
      | _ => rcases hidle with hidle | hidle <;> cases hidle
  | ret t _ hp' _ =>
      rw [Pool.Idle, hp'] at hidle
      rcases hidle with hidle | hidle <;> cases hidle
  | wake _ hp' _ =>
      rw [Pool.Idle, hp'] at hidle
      rcases hidle with hidle | hidle <;> cases hidle

/-- `notify_all` wakes all but who is on the way to sleep. -/
theorem Pool.idle_of_notifyAll {s s' : Pool τ} (h : s.step .notifyAll = some s') {k : ℕ}
    (hidle : s'.Idle k) : s.threads[k]? = some .block := by
  simp only [Pool.step] at h
  split at h
  · cases h
    simp only [Pool.Idle, List.getElem?_map, Option.map_eq_some_iff] at hidle
    rcases hidle with ⟨p, hp, hwake⟩ | ⟨p, hp, hwake⟩
    · cases p <;> first | exact hp | cases hwake
    · cases p <;> cases hwake
  · cases h

/-- What a sleeper stays through: no call of `notify_one` and no spurious wake-up. -/
def PoolMove.Quiet : PoolMove τ → Prop
  | .caller _ _ | .worker _ | .notifyAll | .ret _ => True
  | .call _ _ | .spurious _ | .stop => False

/-- The destructor is over, nobody calls `commit`, and thread `k` sleeps or is about to. -/
structure Pool.Missed (s : Pool τ) (k : ℕ) : Prop where
  destructor : s.destructor = .detach
  outside : ∀ c ∈ s.callers, c = .outside
  idle : s.Idle k

theorem Pool.Missed.step {s s' : Pool τ} {k : ℕ} {mv : PoolMove τ} (hmissed : s.Missed k)
    (hquiet : mv.Quiet) (h : s.step mv = some s') : s'.Missed k := by
  cases mv with
  | call j t => cases hquiet
  | spurious i => cases hquiet
  | stop => cases hquiet
  | notifyAll =>
      simp only [Pool.step, hmissed.destructor] at h
      cases h
  | caller j i =>
      -- nobody is in `commit`
      rcases Pool.step_caller h with ⟨hc, -⟩ | ⟨c, c', locked, pushed, hc, hgo, -⟩
      · cases hmissed.outside _ (List.mem_of_getElem? hc)
      · rw [hmissed.outside _ (List.mem_of_getElem? hc)] at hgo
        cases hgo
  | ret i =>
      simp only [Pool.step] at h
      split at h
      · next t hp =>
          cases h
          refine ⟨hmissed.destructor, hmissed.outside, ?_⟩
          have hne : i ≠ k := by
            rintro rfl
            rcases hmissed.idle with hk | hk <;> cases hp.symm.trans hk
          rw [Pool.Idle, List.getElem?_set_ne hne]
          exact hmissed.idle
      · cases h
  | worker i =>
      obtain ⟨p, p', locked, tasks, now, hp, hgo, rfl⟩ := Pool.step_worker h
      refine ⟨hmissed.destructor, hmissed.outside, ?_⟩
      by_cases hik : i = k
      · subst hik
        obtain ⟨hlt, -⟩ := List.getElem?_eq_some_iff.1 hp
        right
        show (s.threads.set i p')[i]? = some .blocked
        rw [List.getElem?_set_self hlt]
        rcases hmissed.idle with hk | hk
        · cases hk.symm.trans hp
          cases hgo
          rfl
        · cases hk.symm.trans hp
          cases hgo
      · show Pool.Idle _ k
        rw [Pool.Idle, List.getElem?_set_ne hik]
        exact hmissed.idle

/-- **A stop can be missed, by one thread.** When the pool has come to rest after the destructor, the
    thread that still sleeps is the one that was between its predicate and its sleep when `notify_all`
    ran, of which there is at most one; every other thread has exited or is in a task. -/
theorem Pool.stop_missed_iff {n m : ℕ} {moves post : List (PoolMove τ)} {s s' t : Pool τ}
    (h : Transition.exec Pool.step (Pool.new τ n m) moves = some s)
    (houtside : ∀ c ∈ s.callers, c = .outside) (hnotify : s.step .notifyAll = some s')
    (hquiet : ∀ mv ∈ post, PoolMove.Quiet mv) (hpost : Transition.exec Pool.step s' post = some t)
    (hsettled : t.Settled) :
    (∀ k : ℕ, t.threads[k]? = some .blocked ↔ s.threads[k]? = some .block) ∧
    (∀ k k' : ℕ, s.threads[k]? = some .block → s.threads[k']? = some .block → k = k') ∧
    ∀ p ∈ t.threads, p = .blocked ∨ p = .exited ∨ ∃ x, p = .running x := by
  have hinv := Pool.inv_of_exec h
  have hdestructor : s.destructor = .notifyAll ∧
      s' = { s with threads := s.threads.map PoolThread.wake, destructor := .detach } := by
    simp only [Pool.step] at hnotify
    split at hnotify
    · next hd => exact ⟨hd, (Option.some.inj hnotify).symm⟩
    · cases hnotify
  have hstopped : s'.run = false := by
    rw [hdestructor.2]
    by_contra hrun
    cases hdestructor.1.symm.trans (hinv.flag.1 (Bool.eq_true_of_not_eq_false hrun))
  have hinv' : t.Inv := Transition.exec_inv (fun _ _ _ hu hstep => hu.step hstep)
    (hinv.step hnotify) hpost
  refine ⟨fun k => ⟨fun hk => ?_, fun hk => ?_⟩, fun k k' hk hk' => ?_,
    fun p hp => hsettled.thread hinv' hp⟩
  · -- backwards along the run: nobody decided to sleep after the stop
    have hback : ∀ (u : Pool τ) (mv : PoolMove τ) (u' : Pool τ),
        (u.run = false ∧ (u.Idle k → s'.Idle k)) → u.step mv = some u' →
        (u'.run = false ∧ (u'.Idle k → s'.Idle k)) :=
      fun u mv u' hu hstep =>
        ⟨Pool.run_of_step hstep hu.1, fun hidle => hu.2 (Pool.idle_of_step hstep hu.1 hidle)⟩
    have hidle := (Transition.exec_inv hback ⟨hstopped, id⟩ hpost).2 (Or.inr hk)
    exact Pool.idle_of_notifyAll hnotify hidle
  · have hmissed : s'.Missed k := by
      rw [hdestructor.2]
      refine ⟨rfl, houtside, Or.inl ?_⟩
      rw [List.getElem?_map, hk]
      rfl
    have hkeep : ∀ (u : Pool τ) (mv : PoolMove τ) (u' : Pool τ), u.Missed k → mv.Quiet →
        u.step mv = some u' → u'.Missed k := fun u mv u' hu hmv hstep => hu.step hmv hstep
    have hend := Transition.exec_inner_inv hkeep hmissed hquiet hpost
    rcases hend.idle with hblock | hblocked
    · rcases hsettled.thread hinv' (List.mem_of_getElem? hblock) with hp | hp | ⟨x, hp⟩ <;> cases hp
    · exact hblocked
  · exact hinv.holds_unique hk hk' rfl rfl

/-- Nothing can move when the only thread sleeps. -/
theorem Pool.settled_blocked :
    Pool.Settled (⟨false, false, [], [.blocked], [], .detach, [], [], []⟩ : Pool ℕ) := by
  intro mv hmv
  cases mv with
  | worker i =>
      cases i with
      | zero => rfl
      | succ i => rfl
  | caller j i => rfl
  | notifyAll => rfl
  | call j t => cases hmv
  | ret i => cases hmv
  | spurious i => cases hmv
  | stop => cases hmv

/-- The only thread sees an empty queue, the destructor runs, and then the thread goes to sleep. -/
theorem Pool.stop_missed_one :
    (∀ k : ℕ, ([.blocked] : List (PoolThread ℕ))[k]? = some .blocked ↔
      ([.block] : List (PoolThread ℕ))[k]? = some .block) ∧
    (∀ k k' : ℕ, ([.block] : List (PoolThread ℕ))[k]? = some .block →
      ([.block] : List (PoolThread ℕ))[k']? = some .block → k = k') ∧
    ∀ p ∈ ([.blocked] : List (PoolThread ℕ)), p = .blocked ∨ p = .exited ∨ ∃ x, p = .running x := by
  have hrun : Transition.exec Pool.step (Pool.new ℕ 1 0) [.worker 0, .worker 0, .worker 0, .stop] =
      some ⟨false, true, [], [.block], [], .notifyAll, [], [], []⟩ := rfl
  have hnotify : Pool.step (⟨false, true, [], [.block], [], .notifyAll, [], [], []⟩ : Pool ℕ)
      .notifyAll = some ⟨false, true, [], [.block], [], .detach, [], [], []⟩ := rfl
  have hpost : Transition.exec Pool.step
      (⟨false, true, [], [.block], [], .detach, [], [], []⟩ : Pool ℕ) [.worker 0] =
      some ⟨false, false, [], [.blocked], [], .detach, [], [], []⟩ := rfl
  exact Pool.stop_missed_iff hrun (fun _ hc => (by cases hc)) hnotify
    (fun mv hmv => (by rw [List.mem_singleton.1 hmv]; trivial)) hpost Pool.settled_blocked

/-! ## The pool of the other modules -/

/-- The pool as `Teardown` and `Running` have it: a worker takes a task in one statement, and neither
    the lock nor who sleeps is seen. -/
structure AtomicPool where
  run : Bool
  tasks : List ℕ
  workers : List Worker

inductive AtomicMove where
  | push (k : ℕ)
  | stop
  | worker (i : ℕ)
  | leave (i : ℕ)

def AtomicPool.new (n : ℕ) : AtomicPool :=
  ⟨true, [], List.replicate n .testRun⟩

def AtomicPool.step (s : AtomicPool) : AtomicMove → Option AtomicPool
  | .push k => some { s with tasks := s.tasks ++ [k] }
  | .stop => some { s with run := false }
  | .worker i =>
      match s.workers[i]? with
      | none => none
      | some w =>
          (w.statement s.run s.tasks []).map (fun r =>
            { s with workers := s.workers.set i r.1, tasks := r.2.1 })
  | .leave i =>
      match s.workers[i]? with
      | some (.dispatching _) => some { s with workers := s.workers.set i .left }
      | _ => none

/-- What a run puts into the queue. -/
def AtomicMove.pushes (moves : List AtomicMove) : List ℕ :=
  moves.flatMap (fun mv => match mv with
    | .push k => [k]
    | .stop | .worker _ | .leave _ => [])

/-- A thread as a worker of the other modules. -/
def PoolThread.abs : PoolThread ℕ → Worker
  | .testRun => .testRun
  | .lock | .predicate | .block | .blocked | .testExit | .take => .waiting
  | .unlock k => .took k
  | .running k => .dispatching k
  | .exited => .exited

def Pool.abs (s : Pool ℕ) : AtomicPool :=
  ⟨s.run, s.tasks, s.threads.map PoolThread.abs⟩

/-- A worker of `Teardown` or `Running` between two events of its loop. -/
def Worker.betweenEvents : Worker → Worker
  | .handling k => .dispatching k
  | w => w

def Teardown.pool (s : Teardown) : AtomicPool :=
  ⟨s.run, s.tasks, s.workers.map Worker.betweenEvents⟩

def Running.pool (s : Running) : AtomicPool :=
  ⟨true, s.queue, s.workers.map Worker.betweenEvents⟩

/-- A statement of a thread is a statement of the worker, or is not seen. -/
theorem PoolThread.Goes.abs {run locked locked' : Bool} {tasks tasks' now : List ℕ}
    {p p' : PoolThread ℕ} (h : Goes run locked tasks p p' locked' tasks' now) :
    (p'.abs = p.abs ∧ tasks' = tasks) ∨
      p.abs.statement run tasks [] = some (p'.abs, tasks', []) := by
  cases h with
  | enter hrun =>
      right
      rw [hrun]
      rfl
  | leave hrun =>
      right
      rw [hrun]
      rfl
  | exit hrun htasks =>
      right
      rw [hrun, htasks]
      rfl
  | take t rest htasks =>
      right
      rw [htasks]
      rfl
  | unlock t => exact Or.inr rfl
  | _ => exact Or.inl ⟨rfl, rfl⟩

theorem set_eq_self {α : Type*} {l : List α} {i : ℕ} {a : α} (h : l[i]? = some a) :
    l.set i a = l := by
  obtain ⟨hlt, rfl⟩ := List.getElem?_eq_some_iff.1 h
  exact List.set_getElem_self hlt

/-- A change of place that the other modules do not see. -/
theorem map_abs_set_eq {threads : List (PoolThread ℕ)} {i : ℕ} {p p' : PoolThread ℕ}
    (hp : threads[i]? = some p) (h : p'.abs = p.abs) :
    (threads.set i p').map PoolThread.abs = threads.map PoolThread.abs := by
  rw [List.map_set, h]
  refine set_eq_self ?_
  rw [List.getElem?_map, hp]
  rfl

/-- One move of the pool is at most two moves of the atomic one. -/
theorem Pool.abs_step {s s' : Pool ℕ} {mv : PoolMove ℕ} (h : s.step mv = some s') :
    ∃ moves, Transition.exec AtomicPool.step s.abs moves = some s'.abs ∧
      s'.committed = s.committed ++ AtomicMove.pushes moves := by
  have hunseen : s'.abs = s.abs → s'.committed = s.committed →
      ∃ moves, Transition.exec AtomicPool.step s.abs moves = some s'.abs ∧
        s'.committed = s.committed ++ AtomicMove.pushes moves := by
    intro habs hcommitted
    exact ⟨[], by rw [habs]; rfl, by rw [hcommitted]; exact (List.append_nil _).symm⟩
  have hwoken : ∀ {i : ℕ} (callers : List (CommitCall ℕ)), s.threads[i]? = some .blocked →
      Pool.abs { s with callers := callers, threads := s.threads.set i .lock } = s.abs := by
    intro i callers hp
    show AtomicPool.mk s.run s.tasks ((s.threads.set i .lock).map PoolThread.abs) = s.abs
    rw [map_abs_set_eq hp (show PoolThread.lock.abs = PoolThread.blocked.abs from rfl), Pool.abs]
  cases mv with
  | call j t =>
      simp only [Pool.step] at h
      split at h
      · cases h
        exact hunseen rfl rfl
      · cases h
  | caller j i =>
      rcases Pool.step_caller h with ⟨-, hnotify⟩ | ⟨c, c', locked, pushed, -, hgo, rfl⟩
      · rcases Pool.notifyOne_cases hnotify with ⟨hp, rfl⟩ | ⟨-, rfl⟩
        · exact hunseen (hwoken _ hp) rfl
        · exact hunseen rfl rfl
      · cases hgo with
        | push k => exact ⟨[.push k], rfl, rfl⟩
        | _ => exact hunseen (by simp only [Pool.abs, List.append_nil]) (List.append_nil _)
  | worker i =>
      obtain ⟨p, p', locked, tasks, now, hp, hgo, rfl⟩ := Pool.step_worker h
      rcases hgo.abs with ⟨habs, htasks⟩ | hst
      · refine hunseen ?_ rfl
        show AtomicPool.mk s.run tasks ((s.threads.set i p').map PoolThread.abs) = s.abs
        rw [map_abs_set_eq hp habs, htasks, Pool.abs]
      · have hw : s.abs.workers[i]? = some p.abs := by
          rw [Pool.abs, List.getElem?_map, hp]
          rfl
        refine ⟨[.worker i], ?_, (List.append_nil _).symm⟩
        rw [Transition.exec, AtomicPool.step, hw]
        show ((p.abs.statement s.run s.tasks []).map _).bind _ = _
        rw [hst]
        show some (AtomicPool.mk s.run tasks ((s.threads.map PoolThread.abs).set i p'.abs)) =
          some (AtomicPool.mk s.run tasks ((s.threads.set i p').map PoolThread.abs))
        rw [List.map_set]
  | ret i =>
      simp only [Pool.step] at h
      split at h
      · next k hp =>
          cases h
          obtain ⟨hlt, -⟩ := List.getElem?_eq_some_iff.1 hp
          -- the loop is left, and then the worker goes back to `while (_run)`
          have hw : s.abs.workers[i]? = some (.dispatching k) := by
            rw [Pool.abs, List.getElem?_map, hp]
            rfl
          have hleft : (s.abs.workers.set i .left)[i]? = some .left :=
            List.getElem?_set_self (by rw [Pool.abs, List.length_map]; exact hlt)
          refine ⟨[.leave i, .worker i], ?_, (List.append_nil _).symm⟩
          rw [Transition.exec, AtomicPool.step, hw]
          show Transition.exec AtomicPool.step { s.abs with workers := s.abs.workers.set i .left }
            [.worker i] = _
          rw [Transition.exec, AtomicPool.step, hleft]
          show some (AtomicPool.mk s.run s.tasks ((s.abs.workers.set i .left).set i .testRun)) = _
          rw [List.set_set]
          show some (AtomicPool.mk s.run s.tasks ((s.threads.map PoolThread.abs).set i .testRun)) =
            some (AtomicPool.mk s.run s.tasks ((s.threads.set i .testRun).map PoolThread.abs))
          rw [List.map_set]
          rfl
      · cases h
  | spurious i =>
      simp only [Pool.step] at h
      split at h
      · next hp =>
          cases h
          exact hunseen (hwoken _ hp) rfl
      · cases h
  | stop =>
      simp only [Pool.step] at h
      split at h
      · cases h
        exact ⟨[.stop], rfl, (List.append_nil _).symm⟩
      · cases h
  | notifyAll =>
      simp only [Pool.step] at h
      split at h
      · cases h
        refine hunseen ?_ rfl
        have hwake : PoolThread.abs ∘ PoolThread.wake = PoolThread.abs := by
          funext p
          cases p <;> rfl
        show AtomicPool.mk s.run s.tasks ((s.threads.map PoolThread.wake).map PoolThread.abs) = s.abs
        rw [List.map_map, hwake, Pool.abs]
      · cases h

theorem AtomicMove.pushes_append (moves moves' : List AtomicMove) :
    pushes (moves ++ moves') = pushes moves ++ pushes moves' :=
  List.flatMap_append

/-- **The pool refines the atomic one**: every interleaving of its statements is a run of the atomic
    pool, with the same tasks put into the queue in the same order. -/
theorem Pool.refines {n m : ℕ} {moves : List (PoolMove ℕ)} {s : Pool ℕ}
    (h : Transition.exec Pool.step (Pool.new ℕ n m) moves = some s) :
    ∃ atomic, Transition.exec AtomicPool.step (AtomicPool.new n) atomic = some s.abs ∧
      AtomicMove.pushes atomic = s.committed := by
  have hfirst : (Pool.new ℕ n m).abs = AtomicPool.new n := by
    rw [Pool.abs, Pool.new, List.map_replicate]
    rfl
  have hkeep : ∀ (u : Pool ℕ) (mv : PoolMove ℕ) (u' : Pool ℕ),
      (∃ atomic, Transition.exec AtomicPool.step (AtomicPool.new n) atomic = some u.abs ∧
        AtomicMove.pushes atomic = u.committed) → u.step mv = some u' →
      ∃ atomic, Transition.exec AtomicPool.step (AtomicPool.new n) atomic = some u'.abs ∧
        AtomicMove.pushes atomic = u'.committed := by
    rintro u mv u' ⟨atomic, hrun, hpushes⟩ hstep
    obtain ⟨more, hmore, hcommitted⟩ := Pool.abs_step hstep
    exact ⟨atomic ++ more, Transition.exec_append hrun hmore, by
      rw [AtomicMove.pushes_append, hpushes, hcommitted]⟩
  exact Transition.exec_inv hkeep ⟨[], by rw [hfirst]; rfl, rfl⟩ h

/-- A commit that wakes a thread, which takes the task and runs it. -/
theorem Pool.refines_commit :
    ∃ atomic, Transition.exec AtomicPool.step (AtomicPool.new 2) atomic =
        some (Pool.abs ⟨true, false, [], [.running 7, .testRun], [.outside], .notCalled, [7],
          [(0, 7)], []⟩) ∧
      AtomicMove.pushes atomic = [7] := by
  have hrun : Transition.exec Pool.step (Pool.new ℕ 2 1)
      [.worker 0, .call 0 7, .worker 0, .caller 0 0, .worker 0, .worker 0, .caller 0 0,
        .caller 0 0, .caller 0 0, .caller 0 0, .worker 0, .worker 0, .worker 0, .worker 0,
        .worker 0] =
      some ⟨true, false, [], [.running 7, .testRun], [.outside], .notCalled, [7], [(0, 7)], []⟩ := rfl
  exact Pool.refines hrun

/-! ## The workers of `Running` and `Teardown` are those of the atomic pool -/

theorem Worker.statement_betweenEvents {run : Bool} {tasks : List ℕ} (asked : List ℕ) {w : Worker}
    {r : Worker × List ℕ × List ℕ} (h : w.betweenEvents.statement run tasks [] = some r) :
    ∃ asked', w.statement run tasks asked = some (r.1, r.2.1, asked') ∧
      r.1.betweenEvents = r.1 := by
  cases w with
  | handling k => cases h
  | dispatching k => cases h
  | exited => cases h
  | testRun =>
      cases run <;> cases h <;> exact ⟨_, rfl, rfl⟩
  | waiting =>
      cases tasks with
      | nil =>
          cases run with
          | true => cases h
          | false =>
              cases h
              exact ⟨_, rfl, rfl⟩
      | cons k rest =>
          cases h
          exact ⟨_, rfl, rfl⟩
  | took k =>
      cases h
      exact ⟨_, rfl, rfl⟩
  | left =>
      cases h
      exact ⟨_, rfl, rfl⟩

/-- What a worker does in the atomic pool it can do next to the main thread of `Teardown`. -/
theorem Teardown.step_of_pool {n : ℕ} {s : Teardown} {i : ℕ} {a : AtomicPool}
    (h : s.pool.step (.worker i) = some a) :
    ∃ s', s.step n (.worker i) = some s' ∧ s'.pool = a ∧ s'.stage = s.stage := by
  simp only [AtomicPool.step, Teardown.pool, List.getElem?_map] at h
  cases hw : s.workers[i]? with
  | none =>
      rw [hw] at h
      cases h
  | some w =>
      rw [hw] at h
      obtain ⟨r, hr, rfl⟩ := Option.map_eq_some_iff.1 h
      obtain ⟨asked', hst, hsame⟩ := Worker.statement_betweenEvents s.asked hr
      refine ⟨{ s with workers := s.workers.set i r.1, tasks := r.2.1, asked := asked' }, ?_, ?_, rfl⟩
      · simp only [Teardown.step, hw, hst, Option.map_some]
      · simp only [Teardown.pool, List.map_set, hsame]

/-- The same in `Running`, whose pool is not stopped. -/
theorem Running.step_of_pool {ienv : InitEnv} {senv : ServiceEnv} {s : Running} {i : ℕ}
    {a : AtomicPool} (h : s.pool.step (.worker i) = some a) :
    ∃ s', s.step ienv senv (.worker i) = some s' ∧ s'.pool = a ∧ s'.process = s.process := by
  simp only [AtomicPool.step, Running.pool, List.getElem?_map] at h
  cases hw : s.workers[i]? with
  | none =>
      rw [hw] at h
      cases h
  | some w =>
      rw [hw] at h
      obtain ⟨r, hr, rfl⟩ := Option.map_eq_some_iff.1 h
      obtain ⟨asked', hst, hsame⟩ := Worker.statement_betweenEvents [] hr
      refine ⟨{ s with workers := s.workers.set i r.1, queue := r.2.1 }, ?_, ?_, rfl⟩
      · simp only [Running.step, hw, hst, Option.map_some]
      · simp only [Running.pool, List.map_set, hsame]

end FileCacheProxy
