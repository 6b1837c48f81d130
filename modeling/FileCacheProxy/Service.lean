import FileCacheProxy.Init
import FileCacheProxy.Lib.Transition
import Mathlib

set_option autoImplicit false

/-! # The process: `main`, `startService` and signals

`main` as a machine that executes one statement at a time, so that a signal can be delivered between
any two of them. A `Point` is the statement to be executed next; the loops of `startService` are
points that lead back. Everything asked of the tracker and of libevent is in `ServiceEnv`, by thread
index and attempt. -/

namespace FileCacheProxy

/-! ## `startService` -/

/-- `MAX_CONNECTION_TEST` -/
def MAX_CONNECTION_TEST : ℕ := 16

/-- The answers `startService` gets: `trackerGetConnection i testNum` is `info->count` after the call
    and the connection it returns (`none`: null). -/
structure ServiceEnv where
  trackerGetConnection : ℕ → ℕ → ℕ × Option ConnectionInfo
  eventBaseNew : ℕ → Option ℕ
  evhttpNew : ℕ → Option ℕ
  acceptSocket : ℕ → ℤ

/-- What `startService` allocates and frees. -/
inductive Resource where
  | info (n : ℕ)
  | connection (c : ConnectionInfo)
  | eventBase (ev : ℕ)
  | evhttp (ev_listen : ℕ)
  deriving DecidableEq

inductive Effect where
  | acquire (r : Resource)
  | release (r : Resource)
  deriving DecidableEq

/-- The locals of the loop body. -/
structure Locals where
  info : ℕ
  infoCount : ℕ
  connectResult : Option ConnectionInfo
  ev : ℕ
  ev_listen : ℕ

/-- `new threadParam(i, ev, ev_listen, info, connectResult)` -/
def Locals.threadParam (l : Locals) (i : ℕ) : ThreadParam :=
  ⟨i, l.ev, l.ev_listen, l.info, l.connectResult⟩

/-- The statement `main` executes next. -/
inductive Point where
  | registerSignals (rest : List ℕ)
  | init (rest : List InitStmt)
  | initReturned (iRet : ℤ)
  | enterService
  | forThread (i : ℕ)
  | newInfo (i : ℕ)
  | whileTest (i testNum : ℕ)
  | disconnect (i testNum : ℕ)
  | getConnection (i testNum : ℕ)
  | checkCount (i testNum : ℕ)
  | sleepTest (i testNum : ℕ)
  | countTest (i testNum : ℕ)
  | afterTests (i testNum : ℕ)
  | eventBaseNew (i : ℕ)
  | evhttpNew (i : ℕ)
  | acceptSocket (i : ℕ)
  | newThreadParam (i : ℕ)
  | pushBack (i : ℕ)
  | setGencb (i : ℕ)
  | setCb (i : ℕ) (paths : List Bytes)
  | commit (i : ℕ)
  | whileReady
  | sleepReady
  | logExited
  | serviceReturned (code : ℤ)
  | mainReturned
  deriving DecidableEq

structure Process where
  point : Point
  proxy : Proxy
  locals : Locals
  /-- The signals whose handler is `signal_handler`. -/
  registered : List ℕ
  /-- How many termination signals have been handled. -/
  handled : ℕ
  /-- The callbacks set: the `evhttp`, the path (`none`: all others) and the argument. -/
  callbacks : List (ℕ × Option Bytes × ThreadParam)
  effects : List Effect

/-- The signals `main` registers: `SIGHUP`, `SIGINT`, `SIGQUIT`, `SIGTERM`. -/
def terminationSignals : List ℕ := [1, 2, 3, 15]

/-- A new process. -/
def Process.new (processLog : Option Bytes) : Process where
  point := .registerSignals terminationSignals
  proxy := Proxy.new processLog
  locals := ⟨0, 0, none, 0, 0⟩
  registered := []
  handled := 0
  callbacks := []
  effects := []

/-- `mThreadPool->commit(event_base_dispatch, ev)` -/
def ThreadPool.commit (pool : ThreadPool) (ev : ℕ) : ThreadPool :=
  { pool with tasks := pool.tasks ++ [ev] }

/-- One statement; `none` when it does not end, or when there is none left. -/
def Process.statement (ienv : InitEnv) (senv : ServiceEnv) (s : Process) : Option Process :=
  match s.point with
  | .registerSignals [] => some { s with point := .init initStmts }
  | .registerSignals (sig :: rest) =>
      some { s with point := .registerSignals rest, registered := s.registered ++ [sig] }
  | .init [] => none
  | .init (stmt :: rest) =>
      match stmt.exec ienv s.proxy with
      | .next p => some { s with point := .init rest, proxy := p }
      | .ret iRet p => some { s with point := .initReturned iRet, proxy := p }
      | .stuck _ => none
  | .initReturned iRet =>
      some { s with point := if iRet ≠ 0 then .mainReturned else .enterService }
  | .enterService =>
      some { s with point := if s.proxy.isReady then .forThread 0 else .serviceReturned ERR_NOT_READY }
  | .forThread i =>
      some { s with point := if s.proxy.ThreadCount > i then .newInfo i else .whileReady }
  | .newInfo i =>
      some { s with
        point := .whileTest i 0,
        locals := { s.locals with info := i, infoCount := 0 },
        effects := s.effects ++ [.acquire (.info i)] }
  | .whileTest i testNum =>
      some { s with
        point := if testNum < MAX_CONNECTION_TEST then .disconnect i testNum
          else .afterTests i testNum }
  | .disconnect i testNum =>
      some { s with
        point := .getConnection i testNum,
        effects := if s.locals.infoCount > 0 then
            s.effects ++ (s.locals.connectResult.map (fun c => Effect.release (.connection c))).toList
          else s.effects }
  | .getConnection i testNum =>
      let r := senv.trackerGetConnection i testNum
      some { s with
        point := .checkCount i testNum,
        locals := { s.locals with infoCount := r.1, connectResult := r.2 },
        effects := s.effects ++ (r.2.map (fun c => Effect.acquire (.connection c))).toList }
  | .checkCount i testNum =>
      some { s with
        point := if s.locals.infoCount > 0 then .afterTests i testNum else .sleepTest i testNum }
  | .sleepTest i testNum => some { s with point := .countTest i testNum }
  | .countTest i testNum => some { s with point := .whileTest i (testNum + 1) }
  | .afterTests i testNum =>
      -- `continue`: this thread index is given up
      some { s with
        point := if testNum ≥ MAX_CONNECTION_TEST then .forThread (i + 1) else .eventBaseNew i }
  | .eventBaseNew i =>
      match senv.eventBaseNew i with
      | none => some { s with point := .forThread (i + 1) }
      | some ev =>
          some { s with
            point := .evhttpNew i,
            locals := { s.locals with ev := ev },
            effects := s.effects ++ [.acquire (.eventBase ev)] }
  | .evhttpNew i =>
      match senv.evhttpNew i with
      | none =>
          some { s with
            point := .forThread (i + 1),
            effects := s.effects ++ [.release (.eventBase s.locals.ev)] }
      | some ev_listen =>
          some { s with
            point := .acceptSocket i,
            locals := { s.locals with ev_listen := ev_listen },
            effects := s.effects ++ [.acquire (.evhttp ev_listen)] }
  | .acceptSocket i =>
      -- the one failure that ends the function, whatever was committed before
      if senv.acceptSocket i ≠ 0 then
        some { s with
          point := .serviceReturned ERR_EV_NEW,
          effects := s.effects ++
            [.release (.evhttp s.locals.ev_listen), .release (.eventBase s.locals.ev)] }
      else some { s with point := .newThreadParam i }
  | .newThreadParam i => some { s with point := .pushBack i }
  | .pushBack i =>
      some { s with
        point := .setGencb i,
        proxy := { s.proxy with threadParams := s.proxy.threadParams ++ [s.locals.threadParam i] } }
  | .setGencb i =>
      some { s with
        point := .setCb i mPath2Handle.keys,
        callbacks := s.callbacks ++ [(s.locals.ev_listen, none, s.locals.threadParam i)] }
  | .setCb i [] => some { s with point := .commit i }
  | .setCb i (path :: paths) =>
      some { s with
        point := .setCb i paths,
        callbacks := s.callbacks ++ [(s.locals.ev_listen, some path, s.locals.threadParam i)] }
  | .commit i =>
      some { s with
        point := .forThread (i + 1),
        proxy := { s.proxy with
          mThreadPool := s.proxy.mThreadPool.map (fun pool => pool.commit s.locals.ev) } }
  | .whileReady => some { s with point := if s.proxy.isReady then .sleepReady else .logExited }
  | .sleepReady => some { s with point := .whileReady }
  | .logExited => some { s with point := .serviceReturned 0 }
  | .serviceReturned _ => some { s with point := .mainReturned }
  | .mainReturned => none

/-! ## Signals -/

/-- `signal_handle`: it logs first, which takes a logger (`none`: there is none), and then clears the
    flag for the four signals. -/
def Proxy.signalHandle (p : Proxy) (signum : ℕ) : Option Proxy :=
  if p.logger then some (if signum ∈ terminationSignals then { p with isReady := false } else p)
  else none

inductive Event where
  | statement
  | deliver (signum : ℕ)
  deriving DecidableEq

/-- A statement of `main`, or the handler of a registered signal between two statements. -/
def Process.step (ienv : InitEnv) (senv : ServiceEnv) (s : Process) : Event → Option Process
  | .statement => s.statement ienv senv
  | .deliver signum =>
      if signum ∈ s.registered then
        (s.proxy.signalHandle signum).map
          (fun p => { s with
            proxy := p,
            handled := if signum ∈ terminationSignals then s.handled + 1 else s.handled })
      else none

/-! ## Shutdown -/

/-- The statement `isReady = true` of `init` comes next. -/
def Process.AtSetReady (s : Process) : Prop :=
  ∃ rest, s.point = .init (.setReady :: rest)

/-- A statement of `init` works on the object, and goes on or returns. -/
theorem Process.statement_init {ienv : InitEnv} {senv : ServiceEnv} {s s' : Process}
    {stmt : InitStmt} {rest : List InitStmt} (hpt : s.point = .init (stmt :: rest))
    (h : s.statement ienv senv = some s') :
    ∃ pt, s' = { s with point := pt, proxy := (stmt.exec ienv s.proxy).proxy } ∧
      (pt = .init rest ∨ ∃ iRet, pt = .initReturned iRet) := by
  rw [Process.statement, hpt] at h
  dsimp only at h
  cases hexec : stmt.exec ienv s.proxy with
  | next p =>
      rw [hexec] at h
      cases h
      exact ⟨_, rfl, Or.inl rfl⟩
  | ret iRet p =>
      rw [hexec] at h
      cases h
      exact ⟨_, rfl, Or.inr ⟨iRet, rfl⟩⟩
  | stuck p =>
      rw [hexec] at h
      cases h

/-- What a statement does to the object: besides those of `init`, only `push_back` and `commit` change
    it. No statement counts as a signal. -/
theorem Process.statement_proxy {ienv : InitEnv} {senv : ServiceEnv} {s s' : Process}
    (h : s.statement ienv senv = some s') :
    s'.handled = s.handled ∧
    ((∃ stmt rest, s.point = .init (stmt :: rest) ∧ s'.proxy = (stmt.exec ienv s.proxy).proxy) ∨
     (∃ i, s.point = .pushBack i ∧ s'.proxy = { s.proxy with
        threadParams := s.proxy.threadParams ++ [s.locals.threadParam i] }) ∨
     (∃ i, s.point = .commit i ∧ s'.proxy = { s.proxy with
        mThreadPool := s.proxy.mThreadPool.map (fun pool => pool.commit s.locals.ev) }) ∨
     (s'.proxy = s.proxy ∧ (∀ stmt rest, s.point ≠ .init (stmt :: rest)) ∧
        ∀ i, s.point ≠ .commit i)) := by
  obtain ⟨point, proxy, locals, registered, handled, callbacks, effects⟩ := s
  cases point with
  | init rest =>
      cases rest with
      | nil => cases h
      | cons stmt rest =>
          obtain ⟨pt, rfl, -⟩ := Process.statement_init rfl h
          exact ⟨rfl, Or.inl ⟨stmt, rest, rfl, rfl⟩⟩
  | pushBack i =>
      cases h
      exact ⟨rfl, Or.inr (Or.inl ⟨i, rfl, rfl⟩)⟩
  | commit i =>
      cases h
      exact ⟨rfl, Or.inr (Or.inr (Or.inl ⟨i, rfl, rfl⟩))⟩
  | registerSignals rest =>
      cases rest <;> cases h <;> exact ⟨rfl, Or.inr (Or.inr (Or.inr ⟨rfl, by simp, by simp⟩))⟩
  | setCb i paths =>
      cases paths <;> cases h <;> exact ⟨rfl, Or.inr (Or.inr (Or.inr ⟨rfl, by simp, by simp⟩))⟩
  | eventBaseNew i =>
      simp only [Process.statement] at h
      split at h <;> cases h <;> exact ⟨rfl, Or.inr (Or.inr (Or.inr ⟨rfl, by simp, by simp⟩))⟩
  | evhttpNew i =>
      simp only [Process.statement] at h
      split at h <;> cases h <;> exact ⟨rfl, Or.inr (Or.inr (Or.inr ⟨rfl, by simp, by simp⟩))⟩
  | acceptSocket i =>
      simp only [Process.statement] at h
      split at h <;> cases h <;> exact ⟨rfl, Or.inr (Or.inr (Or.inr ⟨rfl, by simp, by simp⟩))⟩
  | mainReturned => cases h
  | _ =>
      cases h
      exact ⟨rfl, Or.inr (Or.inr (Or.inr ⟨rfl, by simp, by simp⟩))⟩

/-- Only that statement sets the flag. -/
theorem Process.statement_isReady {ienv : InitEnv} {senv : ServiceEnv} {s s' : Process}
    (h : s.statement ienv senv = some s') :
    s'.handled = s.handled ∧ (s.AtSetReady ∨ s'.proxy.isReady = s.proxy.isReady) := by
  obtain ⟨hhandled, ⟨stmt, rest, hpt, hp⟩ | ⟨i, -, hp⟩ | ⟨i, -, hp⟩ | ⟨hp, -⟩⟩ :=
    Process.statement_proxy h
  · refine ⟨hhandled, ?_⟩
    by_cases hset : stmt = .setReady
    · exact Or.inl ⟨rest, hset ▸ hpt⟩
    · exact Or.inr (hp ▸ (stmt.exec_frame ienv s.proxy).isReady hset)
  · exact ⟨hhandled, Or.inr (by rw [hp])⟩
  · exact ⟨hhandled, Or.inr (by rw [hp])⟩
  · exact ⟨hhandled, Or.inr (by rw [hp])⟩

theorem Process.statement_setReady (ienv : InitEnv) (senv : ServiceEnv) {s : Process}
    (h : s.AtSetReady) :
    ∃ s', s.statement ienv senv = some s' ∧ s'.handled = s.handled ∧ s'.proxy.isReady = true := by
  obtain ⟨rest, hpoint⟩ := h
  unfold Process.statement
  rw [hpoint]
  exact ⟨_, rfl, rfl, rfl⟩

/-- A handled signal is obeyed: the flag is down, and the wait loop is left at its next test. -/
def Process.Obeys (ienv : InitEnv) (senv : ServiceEnv) (s : Process) : Prop :=
  0 < s.handled → s.proxy.isReady = false ∧
    (s.point = .whileReady → ∃ s', s.statement ienv senv = some s' ∧ s'.point = .logExited)

/-- `isReady = true` is executed before any signal is handled. -/
def Process.Timely (s : Process) : Event → Prop
  | .statement => s.AtSetReady → s.handled = 0
  | .deliver _ => True

theorem Process.obeys_of_isReady {ienv : InitEnv} {senv : ServiceEnv} {s : Process}
    (h : 0 < s.handled → s.proxy.isReady = false) : s.Obeys ienv senv := by
  intro hpos
  refine ⟨h hpos, fun hpoint => ?_⟩
  unfold Process.statement
  rw [hpoint, h hpos]
  exact ⟨_, rfl, rfl⟩

/-- The handler of one of the four signals leaves the flag down. -/
theorem Process.deliver_isReady {ienv : InitEnv} {senv : ServiceEnv} {s s' : Process} {signum : ℕ}
    (h : s.step ienv senv (.deliver signum) = some s') :
    s'.proxy.isReady = false ∨ (s'.handled = s.handled ∧ s'.proxy.isReady = s.proxy.isReady) := by
  simp only [Process.step, Proxy.signalHandle] at h
  split_ifs at h with hreg hterm hlog hlog
  · cases h
    exact Or.inl rfl
  · cases h
  · cases h
    exact Or.inr ⟨rfl, rfl⟩
  · cases h

theorem Process.Obeys.step {ienv : InitEnv} {senv : ServiceEnv} {s s' : Process} {e : Event}
    (hs : s.Obeys ienv senv) (hok : s.Timely e) (hstep : s.step ienv senv e = some s') :
    s'.Obeys ienv senv := by
  refine Process.obeys_of_isReady (fun hpos => ?_)
  cases e with
  | statement =>
      obtain ⟨hhandled, hset | hsame⟩ := Process.statement_isReady hstep
      · exact absurd (hok hset) (by omega)
      · rw [hhandled] at hpos
        exact hsame.trans (hs hpos).1
  | deliver signum =>
      rcases Process.deliver_isReady hstep with hdown | ⟨hhandled, hsame⟩
      · exact hdown
      · rw [hhandled] at hpos
        exact hsame.trans (hs hpos).1

/-- If a state obeys throughout a run, `isReady = true` was never executed too late: right after it
    the flag is up. -/
theorem Process.timely_of_always {ienv : InitEnv} {senv : ServiceEnv} {s : Process}
    {run : List Event}
    (h : Transition.Always (Process.step ienv senv) (Process.Obeys ienv senv) s run) :
    Transition.Along (Process.step ienv senv) Process.Timely s run := by
  induction run generalizing s with
  | nil => trivial
  | cons e run ih =>
      refine ⟨?_, fun s' hs' => ih (h.2 s' hs')⟩
      cases e with
      | deliver signum => trivial
      | statement =>
          intro hset
          obtain ⟨s', hstep, hhandled, hup⟩ := Process.statement_setReady ienv senv hset
          have hobeys := (h.2 s' hstep).head
          by_contra hne
          have hdown := (hobeys (by omega)).1
          exact absurd (hup.symm.trans hdown) (by simp)

/-- **A termination signal is obeyed from then on exactly in the runs in which none is handled
    before `init` executes `isReady = true`.** -/
theorem signal_obeyed_iff (ienv : InitEnv) (senv : ServiceEnv) (processLog : Option Bytes)
    (run : List Event) :
    Transition.Always (Process.step ienv senv) (Process.Obeys ienv senv) (Process.new processLog) run
      ↔ Transition.Along (Process.step ienv senv) Process.Timely (Process.new processLog) run := by
  refine ⟨Process.timely_of_always, fun hok => ?_⟩
  -- `Obeys` is its own invariant: no signal has been handled at the start
  refine Transition.always_of_step (fun s e s' hs hok' hstep => hs.step hok' hstep) ?_ hok
  exact Process.obeys_of_isReady (fun hpos => absurd hpos (by simp [Process.new]))

/-- A tracker and a libevent that give thread `i` the objects `i`. -/
def helloService : ServiceEnv where
  trackerGetConnection i _ := (1, some i)
  eventBaseNew i := some i
  evhttpNew i := some i
  acceptSocket _ := 0

/-- `SIGTERM` right after the logger is there, and statements up to the wait loop. -/
def termDuringInit : List Event :=
  List.replicate 11 Event.statement ++ Event.deliver 15 :: List.replicate 41 Event.statement

/-- The signal is handled, and the service waits all the same. -/
theorem signal_lost_during_init :
    ∃ s, Transition.exec (Process.step helloStart helloService) (Process.new none) termDuringInit
        = some s ∧
      s.handled = 1 ∧ s.proxy.isReady = true ∧ s.point = .sleepReady ∧
      ¬ s.Obeys helloStart helloService := by
  refine ⟨_, rfl, rfl, rfl, rfl, fun h => ?_⟩
  exact absurd (h (by decide)).1 (by decide)

end FileCacheProxy
