import FileCacheProxy.Startup
import Mathlib

set_option autoImplicit false

/-! # The set-up loop of `startService`

What the loop over the thread indices comes to, as a function of the answers it gets.
`ServiceEnv.param` says which entry an index ends up with, `SetUp` ties every point of the loop to
it: the entries made so far, their callbacks and their commits are those of the indices done, and
the locals are those of the index in progress. Signals change none of this, so `SetUp` holds in every
state of every run. -/

namespace FileCacheProxy

/-! ## What the answers come to -/

/-- The attempt at which the retry loop is left: the first one after which `info->count > 0`. -/
def ServiceEnv.attempt (senv : ServiceEnv) (i : ℕ) : Option ℕ :=
  (List.range MAX_CONNECTION_TEST).find? (fun testNum => 0 < (senv.trackerGetConnection i testNum).1)

/-- What thread index `i` has when it comes to `evhttp_accept_socket`, if it comes that far. -/
def ServiceEnv.param (senv : ServiceEnv) (i : ℕ) : Option ThreadParam :=
  (senv.attempt i).bind (fun testNum => (senv.eventBaseNew i).bind (fun ev =>
    (senv.evhttpNew i).map (fun ev_listen =>
      ⟨i, ev, ev_listen, i, (senv.trackerGetConnection i testNum).2⟩)))

/-- `evhttp_accept_socket` fails for index `i`. -/
def ServiceEnv.Refused (senv : ServiceEnv) (i : ℕ) : Prop :=
  (senv.param i).isSome ∧ senv.acceptSocket i ≠ 0

/-- The entries of the indices below `n`. -/
def ServiceEnv.started (senv : ServiceEnv) (n : ℕ) : List ThreadParam :=
  (List.range n).filterMap senv.param

/-- The callbacks of an entry: the catch-all and one for each path. -/
def ThreadParam.callbacks (tp : ThreadParam) : List (ℕ × Option Bytes × ThreadParam) :=
  (none :: mPath2Handle.keys.map some).map (fun path => (tp.ev_listen, path, tp))

theorem ServiceEnv.started_succ (senv : ServiceEnv) (n : ℕ) :
    senv.started (n + 1) = senv.started n ++ (senv.param n).toList := by
  rw [ServiceEnv.started, ServiceEnv.started, List.range_succ, List.filterMap_append]
  cases h : senv.param n <;> simp [h]

theorem ServiceEnv.mem_started {senv : ServiceEnv} {n : ℕ} {tp : ThreadParam} :
    tp ∈ senv.started n ↔ ∃ i, i < n ∧ senv.param i = some tp := by
  simp [ServiceEnv.started]

theorem ServiceEnv.attempt_eq_none_iff {senv : ServiceEnv} {i : ℕ} :
    senv.attempt i = none ↔
      ∀ testNum, testNum < MAX_CONNECTION_TEST → (senv.trackerGetConnection i testNum).1 = 0 := by
  simp [ServiceEnv.attempt]

theorem ServiceEnv.attempt_eq_some_iff {senv : ServiceEnv} {i testNum : ℕ} :
    senv.attempt i = some testNum ↔ 0 < (senv.trackerGetConnection i testNum).1 ∧
      testNum < MAX_CONNECTION_TEST ∧ ∀ t < testNum, (senv.trackerGetConnection i t).1 = 0 := by
  simp [ServiceEnv.attempt]

theorem ServiceEnv.param_eq_some_iff {senv : ServiceEnv} {i : ℕ} {tp : ThreadParam} :
    senv.param i = some tp ↔ ∃ testNum ev ev_listen, senv.attempt i = some testNum ∧
      senv.eventBaseNew i = some ev ∧ senv.evhttpNew i = some ev_listen ∧
      tp = ⟨i, ev, ev_listen, i, (senv.trackerGetConnection i testNum).2⟩ := by
  simp only [ServiceEnv.param, Option.bind_eq_some_iff, Option.map_eq_some_iff]
  constructor
  · rintro ⟨testNum, ht, ev, hev, ev_listen, hl, rfl⟩
    exact ⟨testNum, ev, ev_listen, ht, hev, hl, rfl⟩
  · rintro ⟨testNum, ev, ev_listen, ht, hev, hl, rfl⟩
    exact ⟨testNum, ht, ev, hev, ev_listen, hl, rfl⟩

/-- A skipped index adds no entry. -/
theorem ServiceEnv.param_eq_none {senv : ServiceEnv} {i : ℕ}
    (h : senv.attempt i = none ∨ senv.eventBaseNew i = none ∨ senv.evhttpNew i = none) :
    senv.param i = none := by
  rw [ServiceEnv.param]
  rcases h with h | h | h
  · simp [h]
  · simp [h]
  · simp [h]

/-! ## The invariant -/

/-- The part of the process the set-up loop works on. -/
structure SetupState where
  threadParams : List ThreadParam
  mThreadPool : Option ThreadPool
  ThreadCount : ℤ
  callbacks : List (ℕ × Option Bytes × ThreadParam)
  locals : Locals

def Process.setup (s : Process) : SetupState :=
  ⟨s.proxy.threadParams, s.proxy.mThreadPool, s.proxy.ThreadCount, s.callbacks, s.locals⟩

/-- The indices below `n` are done: their entries are made, with callbacks and commits, and no
    `evhttp_accept_socket` has failed. -/
structure SetUpTo (senv : ServiceEnv) (v : SetupState) (n : ℕ) : Prop where
  params : v.threadParams = senv.started n
  callbacks : v.callbacks = (senv.started n).flatMap ThreadParam.callbacks
  tasks : ∀ pool ∈ v.mThreadPool, pool.tasks = (senv.started n).map ThreadParam.ev
  accepted : ∀ i < n, ¬ senv.Refused i

/-- Index `i` is in progress, the ones before it are done. -/
structure InProgress (senv : ServiceEnv) (v : SetupState) (i : ℕ) : Prop where
  before : SetUpTo senv v i
  lt : i < v.ThreadCount
  info : v.locals.info = i

/-- `testNum` attempts of index `i` have left `info->count` at 0. -/
structure Trying (senv : ServiceEnv) (v : SetupState) (i testNum : ℕ) : Prop where
  inProgress : InProgress senv v i
  le : testNum ≤ MAX_CONNECTION_TEST
  failed : ∀ t < testNum, (senv.trackerGetConnection i t).1 = 0
  infoCount : v.locals.infoCount = 0

/-- The retry loop of index `i` was left by its `break`. -/
structure Connected (senv : ServiceEnv) (v : SetupState) (i : ℕ) : Prop where
  inProgress : InProgress senv v i
  connected : ∃ testNum, senv.attempt i = some testNum ∧
    v.locals.connectResult = (senv.trackerGetConnection i testNum).2

/-- Index `i` has its entry; what is left are callbacks and the commit. -/
structure Entering (senv : ServiceEnv) (v : SetupState) (i : ℕ) : Prop where
  lt : i < v.ThreadCount
  entry : senv.param i = some (v.locals.threadParam i)
  params : v.threadParams = senv.started (i + 1)
  tasks : ∀ pool ∈ v.mThreadPool, pool.tasks = (senv.started i).map ThreadParam.ev
  accepted : ∀ j < i + 1, ¬ senv.Refused j

/-- What holds at each point of the process. -/
def SetUpAt (senv : ServiceEnv) (v : SetupState) : Point → Prop
  | .registerSignals _ | .init _ | .initReturned _ | .enterService => SetUpTo senv v 0
  | .forThread i => SetUpTo senv v i ∧ i ≤ v.ThreadCount.toNat
  | .newInfo i => SetUpTo senv v i ∧ i < v.ThreadCount
  | .whileTest i testNum => Trying senv v i testNum
  | .disconnect i testNum | .getConnection i testNum =>
      Trying senv v i testNum ∧ testNum < MAX_CONNECTION_TEST
  | .checkCount i testNum =>
      InProgress senv v i ∧ testNum < MAX_CONNECTION_TEST ∧
        (∀ t < testNum, (senv.trackerGetConnection i t).1 = 0) ∧
        v.locals.infoCount = (senv.trackerGetConnection i testNum).1 ∧
        v.locals.connectResult = (senv.trackerGetConnection i testNum).2
  | .sleepTest i testNum | .countTest i testNum => Trying senv v i (testNum + 1)
  | .afterTests i testNum =>
      (testNum = MAX_CONNECTION_TEST ∧ InProgress senv v i ∧ senv.attempt i = none) ∨
      (testNum < MAX_CONNECTION_TEST ∧ Connected senv v i)
  | .eventBaseNew i => Connected senv v i
  | .evhttpNew i => Connected senv v i ∧ senv.eventBaseNew i = some v.locals.ev
  | .acceptSocket i => InProgress senv v i ∧ senv.param i = some (v.locals.threadParam i)
  | .newThreadParam i | .pushBack i =>
      InProgress senv v i ∧ senv.param i = some (v.locals.threadParam i) ∧ ¬ senv.Refused i
  | .setGencb i =>
      Entering senv v i ∧ v.callbacks = (senv.started i).flatMap ThreadParam.callbacks
  | .setCb i paths =>
      Entering senv v i ∧ ∃ done, mPath2Handle.keys = done ++ paths ∧
        v.callbacks = (senv.started i).flatMap ThreadParam.callbacks ++
          (none :: done.map some).map (fun path => (v.locals.ev_listen, path, v.locals.threadParam i))
  | .commit i =>
      Entering senv v i ∧ v.callbacks = (senv.started (i + 1)).flatMap ThreadParam.callbacks
  | .whileReady | .sleepReady | .logExited => SetUpTo senv v v.ThreadCount.toNat
  | .serviceReturned code =>
      (code = ERR_NOT_READY ∧ SetUpTo senv v 0) ∨
      (code = ERR_EV_NEW ∧ ∃ i < v.ThreadCount.toNat, senv.Refused i ∧ SetUpTo senv v i) ∨
      (code = 0 ∧ SetUpTo senv v v.ThreadCount.toNat)
  | .mainReturned => ∃ n ≤ v.ThreadCount.toNat, SetUpTo senv v n

def SetUp (senv : ServiceEnv) (s : Process) : Prop :=
  SetUpAt senv s.setup s.point

theorem setUp_new (senv : ServiceEnv) (processLog : Option Bytes) :
    SetUp senv (Process.new processLog) := by
  refine ⟨rfl, rfl, fun pool h => ?_, fun i hi => ?_⟩
  · cases h
  · exact absurd hi (Nat.not_lt_zero i)

/-! ## Every step keeps it -/

/-- The statements of `init` make no entry, and the pool they make is empty. -/
theorem InitStmt.exec_setUpTo {senv : ServiceEnv} {s : Process} (h : SetUpTo senv s.setup 0)
    (env : InitEnv) (stmt : InitStmt) (pt : Point) :
    SetUpTo senv { s with point := pt, proxy := (stmt.exec env s.proxy).proxy }.setup 0 := by
  have hframe := stmt.exec_frame env s.proxy
  refine ⟨hframe.threadParams.trans h.params, h.callbacks, fun pool hmem => ?_, h.accepted⟩
  by_cases hnew : stmt = .newThreadPool
  · subst hnew
    cases hmem
    rfl
  · exact h.tasks pool ((hframe.mThreadPool hnew).symm.trans hmem)

/-- The locals are of no account for the indices that are done. -/
theorem SetUpTo.locals {senv : ServiceEnv} {v : SetupState} {n : ℕ} (h : SetUpTo senv v n)
    (locals : Locals) : SetUpTo senv { v with locals := locals } n :=
  ⟨h.params, h.callbacks, h.tasks, h.accepted⟩

/-- Of the locals, the index in progress keeps its `info`. -/
theorem InProgress.locals {senv : ServiceEnv} {v : SetupState} {i : ℕ} (h : InProgress senv v i)
    {locals : Locals} (hinfo : locals.info = v.locals.info) :
    InProgress senv { v with locals := locals } i :=
  ⟨h.before.locals locals, h.lt, hinfo.trans h.info⟩

/-- Going on with the next index after index `i` was skipped. -/
theorem InProgress.skip {senv : ServiceEnv} {v : SetupState} {i : ℕ} (h : InProgress senv v i)
    (hnone : senv.param i = none) : SetUpTo senv v (i + 1) ∧ i + 1 ≤ v.ThreadCount.toNat := by
  have hstarted : senv.started (i + 1) = senv.started i := by
    rw [ServiceEnv.started_succ, hnone]
    simp
  have hlt := h.lt
  refine ⟨⟨?_, ?_, ?_, fun j hj => ?_⟩, by omega⟩
  · rw [hstarted]
    exact h.before.params
  · rw [hstarted]
    exact h.before.callbacks
  · rw [hstarted]
    exact h.before.tasks
  · rcases Nat.lt_succ_iff_lt_or_eq.1 hj with hlt | rfl
    · exact h.before.accepted j hlt
    · rintro ⟨hsome, -⟩
      rw [hnone] at hsome
      cases hsome

/-- One more attempt has failed. -/
theorem Trying.next {senv : ServiceEnv} {v : SetupState} {i testNum : ℕ}
    (h : InProgress senv v i) (hlt : testNum < MAX_CONNECTION_TEST)
    (hfailed : ∀ t < testNum, (senv.trackerGetConnection i t).1 = 0)
    (hcount : v.locals.infoCount = (senv.trackerGetConnection i testNum).1)
    (hzero : v.locals.infoCount = 0) : Trying senv v i (testNum + 1) := by
  refine ⟨h, hlt, fun t ht => ?_, hzero⟩
  rcases Nat.lt_succ_iff_lt_or_eq.1 ht with ht' | rfl
  · exact hfailed t ht'
  · exact hcount.symm.trans hzero

theorem Trying.exhausted {senv : ServiceEnv} {v : SetupState} {i testNum : ℕ}
    (h : Trying senv v i testNum) (hge : MAX_CONNECTION_TEST ≤ testNum) :
    senv.attempt i = none := by
  rw [ServiceEnv.attempt_eq_none_iff]
  exact fun t ht => h.failed t (by omega)

/-- An index with connection, event base and server has its entry. -/
theorem Connected.param {senv : ServiceEnv} {v : SetupState} {i ev_listen : ℕ}
    (h : Connected senv v i) (hev : senv.eventBaseNew i = some v.locals.ev)
    (hlisten : senv.evhttpNew i = some ev_listen) :
    senv.param i = some ({ v.locals with ev_listen := ev_listen }.threadParam i) := by
  obtain ⟨testNum, hattempt, hresult⟩ := h.connected
  rw [ServiceEnv.param_eq_some_iff]
  refine ⟨testNum, v.locals.ev, ev_listen, hattempt, hev, hlisten, ?_⟩
  simp only [Locals.threadParam, h.inProgress.info, hresult]

/-- The entry of the index in progress is made. -/
theorem InProgress.enter {senv : ServiceEnv} {v : SetupState} {i : ℕ} (h : InProgress senv v i)
    (hparam : senv.param i = some (v.locals.threadParam i)) (hacc : ¬ senv.Refused i) :
    Entering senv { v with threadParams := v.threadParams ++ [v.locals.threadParam i] } i := by
  refine ⟨h.lt, hparam, ?_, h.before.tasks, fun j hj => ?_⟩
  · rw [ServiceEnv.started_succ, hparam, h.before.params, Option.toList_some]
  · rcases Nat.lt_succ_iff_lt_or_eq.1 hj with hlt | rfl
    · exact h.before.accepted j hlt
    · exact hacc

/-- Callbacks are of no account for the entry. -/
theorem Entering.callbacks {senv : ServiceEnv} {v : SetupState} {i : ℕ} (h : Entering senv v i)
    (callbacks : List (ℕ × Option Bytes × ThreadParam)) :
    Entering senv { v with callbacks := callbacks } i :=
  ⟨h.lt, h.entry, h.params, h.tasks, h.accepted⟩

/-- With all callbacks of its entry and the commit the index is done. -/
theorem Entering.commit {senv : ServiceEnv} {v : SetupState} {i : ℕ} (h : Entering senv v i)
    (hcb : v.callbacks = (senv.started (i + 1)).flatMap ThreadParam.callbacks) :
    SetUpTo senv
        { v with mThreadPool := v.mThreadPool.map (fun pool => pool.commit v.locals.ev) } (i + 1) ∧
      i + 1 ≤ v.ThreadCount.toNat := by
  have hlt := h.lt
  refine ⟨⟨h.params, hcb, fun pool hmem => ?_, h.accepted⟩, by omega⟩
  obtain ⟨old, hold, rfl⟩ := Option.map_eq_some_iff.1 hmem
  rw [ServiceEnv.started_succ, h.entry]
  simp [ThreadPool.commit, h.tasks old hold, Locals.threadParam]

theorem SetUp.statement {ienv : InitEnv} {senv : ServiceEnv} {s s' : Process} (hinv : SetUp senv s)
    (h : s.statement ienv senv = some s') : SetUp senv s' := by
  obtain ⟨point, proxy, locals, registered, handled, callbacks, effects⟩ := s
  cases point with
  | registerSignals rest =>
      cases rest with
      | nil =>
          cases h
          exact hinv
      | cons sig rest =>
          cases h
          exact hinv
  | init rest =>
      cases rest with
      | nil => cases h
      | cons stmt rest =>
          have hstmt := InitStmt.exec_setUpTo (s := ⟨.init (stmt :: rest), proxy, locals, registered,
            handled, callbacks, effects⟩) hinv ienv stmt
          obtain ⟨pt, rfl, rfl | ⟨iRet, rfl⟩⟩ := Process.statement_init rfl h
          · exact hstmt (.init rest)
          · exact hstmt (.initReturned iRet)
  | initReturned iRet =>
      cases h
      simp only [SetUp]
      split
      · exact ⟨0, Nat.zero_le _, hinv⟩
      · exact hinv
  | enterService =>
      cases h
      simp only [SetUp]
      split
      · exact ⟨hinv, Nat.zero_le _⟩
      · exact Or.inl ⟨rfl, hinv⟩
  | forThread i =>
      cases h
      simp only [SetUp]
      split
      · next hlt => exact ⟨hinv.1, hlt⟩
      · next hge =>
          obtain ⟨hup, hle⟩ := hinv
          have hi : i = proxy.ThreadCount.toNat := by
            have : i ≤ proxy.ThreadCount.toNat := hle
            omega
          subst hi
          exact hup
  | newInfo i =>
      cases h
      obtain ⟨hup, hlt⟩ := hinv
      refine ⟨⟨hup.locals _, hlt, rfl⟩, Nat.zero_le _, ?_, rfl⟩
      intro t ht
      omega
  | whileTest i testNum =>
      cases h
      simp only [SetUp]
      split
      · next hlt => exact ⟨hinv, hlt⟩
      · next hge =>
          have hend : MAX_CONNECTION_TEST ≤ testNum := not_lt.1 hge
          exact Or.inl ⟨le_antisymm hinv.le hend, hinv.inProgress, hinv.exhausted hend⟩
  | disconnect i testNum =>
      cases h
      exact hinv
  | getConnection i testNum =>
      cases h
      obtain ⟨htry, hlt⟩ := hinv
      exact ⟨htry.inProgress.locals rfl, hlt, htry.failed, rfl, rfl⟩
  | checkCount i testNum =>
      cases h
      obtain ⟨hprog, hlt, hfailed, hcount, hresult⟩ := hinv
      simp only [SetUp]
      split
      · next hpos =>
          refine Or.inr ⟨hlt, hprog, testNum, ?_, hresult⟩
          rw [ServiceEnv.attempt_eq_some_iff]
          exact ⟨hcount ▸ hpos, hlt, hfailed⟩
      · next hzero =>
          have hzero' : locals.infoCount = 0 := by omega
          exact Trying.next hprog hlt hfailed hcount hzero'
  | sleepTest i testNum =>
      cases h
      exact hinv
  | countTest i testNum =>
      cases h
      exact hinv
  | afterTests i testNum =>
      cases h
      simp only [SetUp]
      split
      · next hge =>
          rcases hinv with ⟨_, hprog, hnone⟩ | ⟨hlt, _⟩
          · exact hprog.skip (ServiceEnv.param_eq_none (Or.inl hnone))
          · omega
      · next hlt =>
          rcases hinv with ⟨heq, _⟩ | ⟨_, hconn⟩
          · exact absurd heq.ge hlt
          · exact hconn
  | eventBaseNew i =>
      simp only [Process.statement] at h
      split at h
      · next hnone =>
          cases h
          exact hinv.inProgress.skip (ServiceEnv.param_eq_none (Or.inr (Or.inl hnone)))
      · next ev hev =>
          cases h
          exact ⟨⟨hinv.inProgress.locals rfl, hinv.connected⟩, hev⟩
  | evhttpNew i =>
      obtain ⟨hconn, hev⟩ := hinv
      simp only [Process.statement] at h
      split at h
      · next hnone =>
          cases h
          exact hconn.inProgress.skip (ServiceEnv.param_eq_none (Or.inr (Or.inr hnone)))
      · next ev_listen hlisten =>
          cases h
          exact ⟨hconn.inProgress.locals rfl, hconn.param hev hlisten⟩
  | acceptSocket i =>
      obtain ⟨hprog, hparam⟩ := hinv
      have hlt : i < proxy.ThreadCount := hprog.lt
      simp only [Process.statement] at h
      split at h
      · next hne =>
          cases h
          refine Or.inr (Or.inl ⟨rfl, i, ?_, ⟨?_, hne⟩, hprog.before⟩)
          · show i < proxy.ThreadCount.toNat
            omega
          · rw [hparam]
            rfl
      · next hzero =>
          cases h
          exact ⟨hprog, hparam, fun hr => hzero hr.2⟩
  | newThreadParam i =>
      cases h
      exact hinv
  | pushBack i =>
      cases h
      obtain ⟨hprog, hparam, hacc⟩ := hinv
      exact ⟨hprog.enter hparam hacc, hprog.before.callbacks⟩
  | setGencb i =>
      cases h
      obtain ⟨hent, hcb⟩ := hinv
      refine ⟨hent.callbacks _, [], rfl, ?_⟩
      exact congrArg (· ++ _) hcb
  | setCb i paths =>
      cases paths with
      | nil =>
          cases h
          obtain ⟨hent, done, hkeys, hcb⟩ := hinv
          have hentry : senv.param i = some (locals.threadParam i) := hent.entry
          have hcb' : callbacks = (senv.started i).flatMap ThreadParam.callbacks ++
              (none :: done.map some).map
                (fun path => (locals.ev_listen, path, locals.threadParam i)) := hcb
          refine ⟨hent, ?_⟩
          show callbacks = _
          rw [List.append_nil] at hkeys
          rw [hcb', ServiceEnv.started_succ, hentry, List.flatMap_append, Option.toList_some,
            List.flatMap_singleton, ThreadParam.callbacks, hkeys]
          rfl
      | cons path paths =>
          cases h
          obtain ⟨hent, done, hkeys, hcb⟩ := hinv
          have hcb' : callbacks = (senv.started i).flatMap ThreadParam.callbacks ++
              (none :: done.map some).map
                (fun path => (locals.ev_listen, path, locals.threadParam i)) := hcb
          refine ⟨hent.callbacks _, done ++ [path],
            by rw [hkeys, List.append_assoc, List.singleton_append], ?_⟩
          show callbacks ++ [(locals.ev_listen, some path, locals.threadParam i)] =
            (senv.started i).flatMap ThreadParam.callbacks ++
              (none :: (done ++ [path]).map some).map
                (fun path => (locals.ev_listen, path, locals.threadParam i))
          rw [hcb', List.append_assoc, List.map_append, ← List.cons_append, List.map_append]
          rfl
  | commit i =>
      cases h
      obtain ⟨hent, hcb⟩ := hinv
      exact hent.commit hcb
  | whileReady =>
      cases h
      simp only [SetUp]
      split
      · exact hinv
      · exact hinv
  | sleepReady =>
      cases h
      exact hinv
  | logExited =>
      cases h
      exact Or.inr (Or.inr ⟨rfl, hinv⟩)
  | serviceReturned code =>
      cases h
      rcases hinv with ⟨_, hup⟩ | ⟨_, i, hlt, _, hup⟩ | ⟨_, hup⟩
      · exact ⟨_, Nat.zero_le _, hup⟩
      · exact ⟨_, hlt.le, hup⟩
      · exact ⟨_, le_rfl, hup⟩
  | mainReturned => cases h

theorem SetUp.step {ienv : InitEnv} {senv : ServiceEnv} {s s' : Process} {e : Event}
    (hinv : SetUp senv s) (h : s.step ienv senv e = some s') : SetUp senv s' := by
  cases e with
  | statement => exact hinv.statement h
  | deliver signum =>
      -- the flag is not part of what the loop works on
      obtain ⟨-, p, n, rfl, rfl | rfl⟩ := Process.deliver_cases h
      · exact hinv
      · exact hinv

theorem setUp_of_exec {ienv : InitEnv} {senv : ServiceEnv} {processLog : Option Bytes}
    {run : List Event} {s : Process}
    (h : Transition.exec (Process.step ienv senv) (Process.new processLog) run = some s) :
    SetUp senv s :=
  Transition.exec_inv (fun _ _ _ hinv hstep => hinv.step hstep) (setUp_new senv processLog) h

theorem follows_of_exec {ienv : InitEnv} {senv : ServiceEnv} {processLog : Option Bytes}
    {run : List Event} {s : Process}
    (h : Transition.exec (Process.step ienv senv) (Process.new processLog) run = some s) :
    Follows ienv processLog s :=
  Transition.exec_inv (fun _ _ _ hinv hstep => hinv.step hstep) (follows_new ienv processLog) h

/-! ## The loop comes to an end -/

/-- The thread index in progress. -/
def Point.index : Point → Option ℕ
  | .newInfo i | .whileTest i _ | .disconnect i _ | .getConnection i _ | .checkCount i _
  | .sleepTest i _ | .countTest i _ | .afterTests i _ | .eventBaseNew i | .evhttpNew i
  | .acceptSocket i | .newThreadParam i | .pushBack i | .setGencb i | .setCb i _ | .commit i => some i
  | _ => none

/-- While an index is in progress, the entries are those of the indices before it, or its own is
    among them already; the commits are those of the indices before it. -/
theorem SetUpAt.at_index {senv : ServiceEnv} {v : SetupState} {pt : Point} (h : SetUpAt senv v pt)
    {i : ℕ} (hi : pt.index = some i) :
    i < v.ThreadCount ∧
      (v.threadParams = senv.started i ∨ v.threadParams = senv.started (i + 1)) ∧
      ∀ pool ∈ v.mThreadPool, pool.tasks = (senv.started i).map ThreadParam.ev := by
  have hprog : InProgress senv v i → i < v.ThreadCount ∧
      (v.threadParams = senv.started i ∨ v.threadParams = senv.started (i + 1)) ∧
      ∀ pool ∈ v.mThreadPool, pool.tasks = (senv.started i).map ThreadParam.ev :=
    fun hp => ⟨hp.lt, Or.inl hp.before.params, hp.before.tasks⟩
  have hent : Entering senv v i → i < v.ThreadCount ∧
      (v.threadParams = senv.started i ∨ v.threadParams = senv.started (i + 1)) ∧
      ∀ pool ∈ v.mThreadPool, pool.tasks = (senv.started i).map ThreadParam.ev :=
    fun he => ⟨he.lt, Or.inr he.params, he.tasks⟩
  cases pt <;> cases hi
  case newInfo => exact ⟨h.2, Or.inl h.1.params, h.1.tasks⟩
  case whileTest => exact hprog h.inProgress
  case disconnect => exact hprog h.1.inProgress
  case getConnection => exact hprog h.1.inProgress
  case checkCount => exact hprog h.1
  case sleepTest => exact hprog h.inProgress
  case countTest => exact hprog h.inProgress
  case afterTests =>
    rcases h with ⟨_, hp, _⟩ | ⟨_, hconn⟩
    · exact hprog hp
    · exact hprog hconn.inProgress
  case eventBaseNew => exact hprog h.inProgress
  case evhttpNew => exact hprog h.1.inProgress
  case acceptSocket => exact hprog h.1
  case newThreadParam => exact hprog h.1
  case pushBack => exact hprog h.1
  case setGencb => exact hent h.1
  case setCb => exact hent h.1
  case commit => exact hent h.1

/-- Outside the body of the loop the indices up to some number are done. -/
theorem SetUpAt.off_index {senv : ServiceEnv} {v : SetupState} {pt : Point} (h : SetUpAt senv v pt)
    (hi : pt.index = none) : ∃ n ≤ v.ThreadCount.toNat, SetUpTo senv v n := by
  cases pt with
  | registerSignals _ => exact ⟨0, Nat.zero_le _, h⟩
  | init _ => exact ⟨0, Nat.zero_le _, h⟩
  | initReturned _ => exact ⟨0, Nat.zero_le _, h⟩
  | enterService => exact ⟨0, Nat.zero_le _, h⟩
  | forThread i => exact ⟨i, h.2, h.1⟩
  | whileReady => exact ⟨_, le_rfl, h⟩
  | sleepReady => exact ⟨_, le_rfl, h⟩
  | logExited => exact ⟨_, le_rfl, h⟩
  | serviceReturned _ =>
      rcases h with ⟨_, hup⟩ | ⟨_, i, hlt, _, hup⟩ | ⟨_, hup⟩
      · exact ⟨0, Nat.zero_le _, hup⟩
      · exact ⟨i, hlt.le, hup⟩
      · exact ⟨_, le_rfl, hup⟩
  | mainReturned => exact h
  | _ => cases hi

/-- At every point the entries are those of the first `n` indices and the commits those of the first
    `m`. -/
theorem SetUpAt.made {senv : ServiceEnv} {v : SetupState} {pt : Point} (h : SetUpAt senv v pt) :
    ∃ m n, m ≤ n ∧ n ≤ v.ThreadCount.toNat ∧ v.threadParams = senv.started n ∧
      ∀ pool ∈ v.mThreadPool, pool.tasks = (senv.started m).map ThreadParam.ev := by
  cases hidx : pt.index with
  | some i =>
      obtain ⟨hlt, hparams | hparams, htasks⟩ := h.at_index hidx
      · exact ⟨i, i, le_rfl, by omega, hparams, htasks⟩
      · exact ⟨i, i + 1, Nat.le_succ i, by omega, hparams, htasks⟩
  | none =>
      obtain ⟨n, hle, hup⟩ := h.off_index hidx
      exact ⟨n, n, le_rfl, hle, hup.params, hup.tasks⟩

/-- The wait loop is reached, or the function has returned from inside the loop. -/
def Point.setUpEnded : Point → Bool
  | .whileReady => true
  | .serviceReturned code => code == ERR_EV_NEW
  | _ => false

/-- Inside the loop over the thread indices, or at its end. -/
def Point.inLoop (pt : Point) : Prop :=
  (∃ i, pt = .forThread i) ∨ pt.index.isSome ∨ pt.setUpEnded = true

/-- A bound on the statements left with `n` thread indices: 200 for each index, of which an attempt
    takes six. -/
def Point.remaining (n : ℕ) : Point → ℕ
  | .forThread i => (n - i) * 200 + 1
  | .newInfo i => (n - i) * 200
  | .whileTest i testNum => (n - i) * 200 - 2 - 6 * testNum
  | .disconnect i testNum => (n - i) * 200 - 3 - 6 * testNum
  | .getConnection i testNum => (n - i) * 200 - 4 - 6 * testNum
  | .checkCount i testNum => (n - i) * 200 - 5 - 6 * testNum
  | .sleepTest i testNum => (n - i) * 200 - 6 - 6 * testNum
  | .countTest i testNum => (n - i) * 200 - 7 - 6 * testNum
  | .afterTests i _ => (n - i) * 200 - 110
  | .eventBaseNew i => (n - i) * 200 - 111
  | .evhttpNew i => (n - i) * 200 - 112
  | .acceptSocket i => (n - i) * 200 - 113
  | .newThreadParam i => (n - i) * 200 - 114
  | .pushBack i => (n - i) * 200 - 115
  | .setGencb i => (n - i) * 200 - 116
  | .setCb i paths => (n - i) * 200 - 130 + paths.length
  | .commit i => (n - i) * 200 - 131
  | _ => 0

/-- Every statement of the loop brings its end nearer. -/
theorem SetUp.progress (ienv : InitEnv) {senv : ServiceEnv} {s : Process} (hinv : SetUp senv s)
    (hloop : s.point.inLoop) (hend : s.point.setUpEnded = false) :
    ∃ s', s.statement ienv senv = some s' ∧ s'.point.inLoop ∧
      s'.proxy.ThreadCount = s.proxy.ThreadCount ∧
      s'.point.remaining s.proxy.ThreadCount.toNat < s.point.remaining s.proxy.ThreadCount.toNat := by
  obtain ⟨point, proxy, locals, registered, handled, callbacks, effects⟩ := s
  have hmax : MAX_CONNECTION_TEST = 16 := rfl
  have hkeys : mPath2Handle.keys.length = 4 := by decide
  have hlt : ∀ i, point.index = some i → i < proxy.ThreadCount.toNat := by
    intro i hi
    have : (i : ℤ) < proxy.ThreadCount := (SetUpAt.at_index hinv hi).1
    omega
  have hin : ∀ {pt : Point}, pt.index.isSome → pt.inLoop := fun h => Or.inr (Or.inl h)
  cases point with
  | forThread i =>
      refine ⟨_, rfl, ?_, rfl, ?_⟩
      · dsimp only
        split_ifs
        · exact hin rfl
        · exact Or.inr (Or.inr rfl)
      · dsimp only
        split_ifs
        · exact Nat.lt_succ_self _
        · exact Nat.succ_pos _
  | newInfo i =>
      have hi := hlt i rfl
      refine ⟨_, rfl, hin rfl, rfl, ?_⟩
      dsimp only [Point.remaining]
      omega
  | whileTest i testNum =>
      have hi := hlt i rfl
      have hle := hinv.le
      refine ⟨_, rfl, ?_, rfl, ?_⟩
      · dsimp only
        split_ifs <;> exact hin rfl
      · dsimp only
        split_ifs <;> dsimp only [Point.remaining] <;> omega
  | disconnect i testNum =>
      have hi := hlt i rfl
      have ht := hinv.2
      refine ⟨_, rfl, hin rfl, rfl, ?_⟩
      dsimp only [Point.remaining]
      omega
  | getConnection i testNum =>
      have hi := hlt i rfl
      have ht := hinv.2
      refine ⟨_, rfl, hin rfl, rfl, ?_⟩
      dsimp only [Point.remaining]
      omega
  | checkCount i testNum =>
      have hi := hlt i rfl
      have ht := hinv.2.1
      refine ⟨_, rfl, ?_, rfl, ?_⟩
      · dsimp only
        split_ifs <;> exact hin rfl
      · dsimp only
        split_ifs <;> dsimp only [Point.remaining] <;> omega
  | sleepTest i testNum =>
      have hi := hlt i rfl
      have ht := hinv.le
      refine ⟨_, rfl, hin rfl, rfl, ?_⟩
      dsimp only [Point.remaining]
      omega
  | countTest i testNum =>
      have hi := hlt i rfl
      have ht := hinv.le
      refine ⟨_, rfl, hin rfl, rfl, ?_⟩
      dsimp only [Point.remaining]
      omega
  | afterTests i testNum =>
      have hi := hlt i rfl
      refine ⟨_, rfl, ?_, rfl, ?_⟩
      · dsimp only
        split_ifs
        · exact Or.inl ⟨i + 1, rfl⟩
        · exact hin rfl
      · dsimp only
        split_ifs <;> dsimp only [Point.remaining] <;> omega
  | eventBaseNew i =>
      have hi := hlt i rfl
      cases hev : senv.eventBaseNew i with
      | none =>
          simp only [Process.statement, hev]
          refine ⟨_, rfl, Or.inl ⟨i + 1, rfl⟩, rfl, ?_⟩
          dsimp only [Point.remaining]
          omega
      | some ev =>
          simp only [Process.statement, hev]
          refine ⟨_, rfl, hin rfl, rfl, ?_⟩
          dsimp only [Point.remaining]
          omega
  | evhttpNew i =>
      have hi := hlt i rfl
      cases hev : senv.evhttpNew i with
      | none =>
          simp only [Process.statement, hev]
          refine ⟨_, rfl, Or.inl ⟨i + 1, rfl⟩, rfl, ?_⟩
          dsimp only [Point.remaining]
          omega
      | some ev_listen =>
          simp only [Process.statement, hev]
          refine ⟨_, rfl, hin rfl, rfl, ?_⟩
          dsimp only [Point.remaining]
          omega
  | acceptSocket i =>
      have hi := hlt i rfl
      by_cases hacc : senv.acceptSocket i ≠ 0
      · simp only [Process.statement, if_pos hacc]
        refine ⟨_, rfl, Or.inr (Or.inr rfl), rfl, ?_⟩
        dsimp only [Point.remaining]
        omega
      · simp only [Process.statement, if_neg hacc]
        refine ⟨_, rfl, hin rfl, rfl, ?_⟩
        dsimp only [Point.remaining]
        omega
  | newThreadParam i =>
      have hi := hlt i rfl
      refine ⟨_, rfl, hin rfl, rfl, ?_⟩
      dsimp only [Point.remaining]
      omega
  | pushBack i =>
      have hi := hlt i rfl
      refine ⟨_, rfl, hin rfl, rfl, ?_⟩
      dsimp only [Point.remaining]
      omega
  | setGencb i =>
      have hi := hlt i rfl
      refine ⟨_, rfl, hin rfl, rfl, ?_⟩
      dsimp only [Point.remaining]
      omega
  | setCb i paths =>
      have hi := hlt i rfl
      cases paths with
      | nil =>
          refine ⟨_, rfl, hin rfl, rfl, ?_⟩
          dsimp only [Point.remaining, List.length_nil]
          omega
      | cons path paths =>
          refine ⟨_, rfl, hin rfl, rfl, ?_⟩
          dsimp only [Point.remaining, List.length_cons]
          omega
  | commit i =>
      have hi := hlt i rfl
      refine ⟨_, rfl, Or.inl ⟨i + 1, rfl⟩, rfl, ?_⟩
      dsimp only [Point.remaining]
      omega
  | whileReady => cases hend
  | serviceReturned code =>
      rcases hloop with ⟨i, hi⟩ | hi | hi
      · cases hi
      · cases hi
      · exact absurd (hend.symm.trans hi) (by simp)
  | _ =>
      rcases hloop with ⟨i, hi⟩ | hi | hi
      · cases hi
      · cases hi
      · cases hi

/-- After an `init` that succeeds, some run comes to the end of the set-up. -/
theorem exists_exec_setUpEnded {ienv : InitEnv} (senv : ServiceEnv) {processLog : Option Bytes}
    {p : Proxy} (h : init ienv (Proxy.new processLog) = .ret 0 p) :
    ∃ run s, Transition.exec (Process.step ienv senv) (Process.new processLog) run = some s ∧
      s.point.setUpEnded = true ∧ s.proxy.ThreadCount = p.ThreadCount := by
  obtain ⟨run, s, hrun, hpoint, hproxy⟩ := exists_exec_forThread senv h
  have hprogress : ∀ s : Process,
      (SetUp senv s ∧ s.point.inLoop ∧ s.proxy.ThreadCount = p.ThreadCount) →
      ¬ s.point.setUpEnded = true → ∃ e s', s.step ienv senv e = some s' ∧
        (SetUp senv s' ∧ s'.point.inLoop ∧ s'.proxy.ThreadCount = p.ThreadCount) ∧
        s'.point.remaining p.ThreadCount.toNat < s.point.remaining p.ThreadCount.toNat := by
    rintro s ⟨hinv, hloop, hcount⟩ hgoal
    obtain ⟨s', hstep, hloop', hcount', hlt⟩ := hinv.progress ienv hloop (by simpa using hgoal)
    rw [hcount] at hlt
    exact ⟨.statement, s', hstep, ⟨hinv.statement hstep, hloop', hcount'.trans hcount⟩, hlt⟩
  obtain ⟨run', t, hrun', ⟨-, -, hcount⟩, hend⟩ :=
    Transition.exists_exec_of_measure
      (fun s : Process => s.point.remaining p.ThreadCount.toNat) hprogress
      ⟨setUp_of_exec hrun, Or.inl ⟨0, hpoint⟩, by rw [hproxy]⟩
  exact ⟨run ++ run', t, Transition.exec_append hrun hrun', hend, hcount⟩

end FileCacheProxy
