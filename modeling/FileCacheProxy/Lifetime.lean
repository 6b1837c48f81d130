import FileCacheProxy.Lib.Ledger
import FileCacheProxy.Setup
import Mathlib

set_option autoImplicit false

/-! # The life of the object

The process of `Service.lean` continued to its end: `main` returns, the static `m_garbo` deletes
`_Instance` (`~fileCacheProxy` with `~threadParam` for each entry) and sets it to null, and signals
can arrive until the very end. What `init` acquires, what `startService` acquires and gives back and
what the destructor gives back are recorded on the way, so that the log of a run says which resource
was released how often. -/

namespace FileCacheProxy

open Ledger

/-! ## The destructor -/

/-- What a run acquires and releases. -/
inductive Handle where
  | fd (n : ℤ)
  | pool
  | resource (r : Resource)
  /-- What a null pointer or a member that was never assigned refers to. -/
  | indeterminate
  deriving DecidableEq

/-- The statements of `~fileCacheProxy` and `~threadParam`, with the values they work on. -/
inductive DtorStmt where
  | closeConnection (connectResult : Option ConnectionInfo)
  | deleteInfo (info : ℕ)
  | loopbreak (ev : ℕ)
  | evhttpFree (ev_listen : ℕ) (listenfd : Option ℤ)
  | eventBaseFree (ev : ℕ)
  | fdfsClientDestroy
  | closeListenfd (listenfd : Option ℤ)
  | deletePool (assigned : Bool)
  deriving DecidableEq

/-- `~threadParam` -/
def ThreadParam.dtorStmts (listenfd : Option ℤ) (tp : ThreadParam) : List DtorStmt :=
  [.closeConnection tp.connectResult, .deleteInfo tp.info, .loopbreak tp.ev,
    .evhttpFree tp.ev_listen listenfd, .eventBaseFree tp.ev]

/-- `~fileCacheProxy` -/
def Proxy.dtorStmts (p : Proxy) : List DtorStmt :=
  p.threadParams.flatMap (ThreadParam.dtorStmts p.listenfd) ++
    [.fdfsClientDestroy, .closeListenfd p.listenfd, .deletePool p.mThreadPool.isSome]

/-- The descriptor in `listenfd`. -/
def fdHandle (listenfd : Option ℤ) : Handle :=
  (listenfd.map Handle.fd).getD .indeterminate

def DtorStmt.entries : DtorStmt → List (Entry Handle)
  | .closeConnection connectResult =>
      [.release ((connectResult.map (fun c => Handle.resource (.connection c))).getD .indeterminate)]
  | .deleteInfo info => [.release (.resource (.info info))]
  | .loopbreak _ | .fdfsClientDestroy => []
  -- freeing an `evhttp` closes the descriptor it was given by `evhttp_accept_socket`
  | .evhttpFree ev_listen listenfd =>
      [.release (.resource (.evhttp ev_listen)), .release (fdHandle listenfd)]
  | .eventBaseFree ev => [.release (.resource (.eventBase ev))]
  | .closeListenfd listenfd => [.release (fdHandle listenfd)]
  | .deletePool assigned => [.release (if assigned then .pool else .indeterminate)]

/-- What a statement of `init` acquires that outlives the call. -/
def InitStmt.entries (env : InitEnv) : InitStmt → List (Entry Handle)
  | .socket => if 0 ≤ env.socket then [.acquire (.fd env.socket)] else []
  | .newThreadPool => [.acquire .pool]
  | _ => []

def Effect.handleEntry : Effect → Entry Handle
  | .acquire r => .acquire (.resource r)
  | .release r => .release (.resource r)

/-! ## The machine -/

/-- Where the object is: `main` still runs, the body of its destructor runs, its members are destroyed
    (the logger among them) and its storage is still there, it has been deleted and `_Instance` still
    points there, or `_Instance` is null. -/
inductive Phase where
  | running
  | destructor (rest : List DtorStmt)
  | destroyed
  | deleted
  | nulled
  deriving DecidableEq

structure Lifetime where
  process : Process
  phase : Phase
  /-- What `init` has acquired. -/
  initLog : List (Entry Handle)
  /-- What the destructor has released. -/
  dtorLog : List (Entry Handle)

def Lifetime.new (processLog : Option Bytes) : Lifetime :=
  ⟨Process.new processLog, .running, [], []⟩

/-- Everything acquired and released so far, in order: `startService` comes after `init`, and the
    destructor after both. -/
def Lifetime.log (l : Lifetime) : List (Entry Handle) :=
  l.initLog ++ l.process.effects.map Effect.handleEntry ++ l.dtorLog

/-- What the next statement of `main` acquires in `init`. -/
def Process.initEntries (ienv : InitEnv) (s : Process) : List (Entry Handle) :=
  match s.point with
  | .init (stmt :: _) => stmt.entries ienv
  | _ => []

def Lifetime.statement (ienv : InitEnv) (senv : ServiceEnv) (l : Lifetime) : Option Lifetime :=
  match l.phase with
  | .running =>
      if l.process.point = .mainReturned then
        some { l with phase := .destructor l.process.proxy.dtorStmts }
      else
        (l.process.statement ienv senv).map (fun process =>
          { l with process := process, initLog := l.initLog ++ l.process.initEntries ienv })
  | .destructor (stmt :: rest) =>
      some { l with phase := .destructor rest, dtorLog := l.dtorLog ++ stmt.entries }
  | .destructor [] => some { l with phase := .destroyed }
  | .destroyed => some { l with phase := .deleted }
  | .deleted => some { l with phase := .nulled }
  | .nulled => none

/-- `getInstance()` returns an object that is not deleted. -/
def Phase.live : Phase → Bool
  | .running | .destructor _ | .destroyed => true
  | .deleted | .nulled => false

/-- The destructor has run, and the members are gone. -/
def Phase.over : Phase → Bool
  | .destroyed | .deleted | .nulled => true
  | .running | .destructor _ => false

/-- A handler on an object whose members are gone does not come back. -/
def Lifetime.step (ienv : InitEnv) (senv : ServiceEnv) (l : Lifetime) : Event → Option Lifetime
  | .statement => l.statement ienv senv
  | .deliver signum =>
      if l.phase.over then none
      else
        (l.process.step ienv senv (.deliver signum)).map (fun process => { l with process := process })

/-! ## What every run keeps -/

/-- What `init` has acquired, as the members show it. -/
def Proxy.acquired (p : Proxy) : List (Entry Handle) :=
  (p.listenfd.toList.filter (0 ≤ ·)).map (fun n => .acquire (.fd n)) ++
    if p.mThreadPool.isSome then [.acquire .pool] else []

theorem Proxy.Kept.acquired {p q : Proxy} (h : p.Kept q) : q.acquired = p.acquired := by
  have hpool : q.mThreadPool.isSome = p.mThreadPool.isSome := by
    have hthreads := congrArg Option.isSome h.threads
    rwa [Option.isSome_map, Option.isSome_map] at hthreads
  rw [Proxy.acquired, Proxy.acquired, h.listenfd, hpool]

/-- `initStmts` has each statement once, so what comes before one is fixed. -/
theorem initStmts_before {done rest : List InitStmt} {stmt : InitStmt}
    (h : initStmts = done ++ stmt :: rest) : done = initStmts.takeWhile (· ≠ stmt) := by
  have hnodup : (done ++ stmt :: rest).Nodup := h ▸ (by decide)
  have hnot : ∀ stmt' ∈ done, decide (stmt' ≠ stmt) = true := by
    intro stmt' hmem
    rw [decide_eq_true_iff]
    rintro rfl
    exact List.disjoint_of_nodup_append hnodup hmem List.mem_cons_self
  rw [h, List.takeWhile_append_of_pos hnot]
  simp

/-- A member is unset until its statement is executed. -/
theorem FollowsAt.unset {ienv : InitEnv} {processLog : Option Bytes} {q : Proxy} {stmt : InitStmt}
    {rest : List InitStmt} (h : FollowsAt ienv processLog q (.init (stmt :: rest))) :
    (stmt = .socket → q.listenfd = none) ∧
      (stmt = .socket ∨ stmt = .newThreadPool → q.mThreadPool = none) := by
  obtain ⟨done, p, hsplit, hrun, halike, -⟩ := h
  obtain ⟨isReady, rfl⟩ := halike
  have hdone := initStmts_before hsplit
  refine ⟨fun hstmt => ?_, fun hstmt => ?_⟩
  · have hkept : (runStmts ienv done (Proxy.new processLog)).proxy.listenfd = none := by
      refine runStmts_keeps (Q := fun q => q.listenfd = none) (fun stmt' hmem q hq => ?_) rfl
      have hne : stmt' ≠ .socket := by
        rintro rfl
        rw [hdone, hstmt] at hmem
        exact absurd hmem (by decide)
      exact ((stmt'.exec_frame ienv q).listenfd hne).trans hq
    rw [hrun] at hkept
    exact hkept
  · have hkept : (runStmts ienv done (Proxy.new processLog)).proxy.mThreadPool = none := by
      refine runStmts_keeps (Q := fun q => q.mThreadPool = none) (fun stmt' hmem q hq => ?_) rfl
      have hne : stmt' ≠ .newThreadPool := by
        rintro rfl
        rw [hdone] at hmem
        rcases hstmt with rfl | rfl
        · exact absurd hmem (by decide)
        · exact absurd hmem (by decide)
      exact ((stmt'.exec_frame ienv q).mThreadPool hne).trans hq
    rw [hrun] at hkept
    exact hkept

/-- A statement of `init` acquires what it puts into the members. -/
theorem FollowsAt.exec_acquired {ienv : InitEnv} {processLog : Option Bytes} {q : Proxy}
    {stmt : InitStmt} {rest : List InitStmt}
    (h : FollowsAt ienv processLog q (.init (stmt :: rest))) :
    (stmt.exec ienv q).proxy.acquired = q.acquired ++ stmt.entries ienv := by
  obtain ⟨hfd, hpool⟩ := h.unset
  by_cases hsocket : stmt = .socket
  · subst hsocket
    have hlistenfd : (InitStmt.exec ienv q .socket).proxy.listenfd = some ienv.socket := by
      simp only [InitStmt.exec]
      split_ifs <;> rfl
    have hnone : (InitStmt.exec ienv q .socket).proxy.mThreadPool = none :=
      ((InitStmt.exec_frame ienv q .socket).mThreadPool (by decide)).trans (hpool (Or.inl rfl))
    simp only [Proxy.acquired, hlistenfd, hnone, hfd rfl, hpool (Or.inl rfl), InitStmt.entries]
    by_cases hneg : 0 ≤ ienv.socket
    · simp [hneg]
    · simp [hneg]
  · by_cases hnew : stmt = .newThreadPool
    · subst hnew
      simp [InitStmt.exec, Flow.proxy, Proxy.acquired, hpool (Or.inr rfl), InitStmt.entries]
    · have hframe := stmt.exec_frame ienv q
      have hentries : stmt.entries ienv = [] := by
        cases stmt <;> first | rfl | exact absurd rfl hsocket | exact absurd rfl hnew
      rw [hentries, List.append_nil, Proxy.acquired, Proxy.acquired, hframe.listenfd hsocket,
        hframe.mThreadPool hnew]

/-- The same for every statement of `main`. -/
theorem Process.statement_acquired {ienv : InitEnv} {senv : ServiceEnv} {processLog : Option Bytes}
    {s s' : Process} (hfol : Follows ienv processLog s) (h : s.statement ienv senv = some s') :
    s'.proxy.acquired = s.proxy.acquired ++ s.initEntries ienv := by
  have hnone : (∀ stmt rest, s.point ≠ .init (stmt :: rest)) → s.initEntries ienv = [] := by
    intro hpt
    rw [Process.initEntries]
    split
    · next stmt rest hrest => exact absurd hrest (hpt stmt rest)
    · rfl
  obtain ⟨-, ⟨stmt, rest, hpt, hp⟩ | ⟨i, hpt, hp⟩ | ⟨i, hpt, hp⟩ | ⟨hp, hinit, -⟩⟩ :=
    Process.statement_proxy h
  · rw [Follows, hpt] at hfol
    rw [hp, hfol.exec_acquired, Process.initEntries, hpt]
  · rw [hnone (by simp [hpt]), List.append_nil, hp]
    rfl
  · rw [hnone (by simp [hpt]), List.append_nil, hp]
    cases hpool : s.proxy.mThreadPool <;> simp [Proxy.acquired, hpool]
  · rw [hnone hinit, List.append_nil, hp]

/-- How far the destructor has come. -/
def DtorAt (p : Proxy) (dtorLog : List (Entry Handle)) : Phase → Prop
  | .running => dtorLog = []
  | .destructor rest => ∃ done, p.dtorStmts = done ++ rest ∧ dtorLog = done.flatMap DtorStmt.entries
  | .destroyed | .deleted | .nulled => dtorLog = p.dtorStmts.flatMap DtorStmt.entries

/-- The process inside is a process of `Service.lean`, it has returned when the destructor begins,
    and the two logs are what they should be. -/
structure Lifetime.Inv (ienv : InitEnv) (senv : ServiceEnv) (processLog : Option Bytes)
    (l : Lifetime) : Prop where
  process : ∃ run, Transition.exec (Process.step ienv senv) (Process.new processLog) run
    = some l.process
  returned : l.phase ≠ .running → l.process.point = .mainReturned
  initLog : l.initLog = l.process.proxy.acquired
  dtorLog : DtorAt l.process.proxy l.dtorLog l.phase

theorem Lifetime.inv_new (ienv : InitEnv) (senv : ServiceEnv) (processLog : Option Bytes) :
    (Lifetime.new processLog).Inv ienv senv processLog :=
  ⟨⟨[], rfl⟩, fun h => absurd rfl h, rfl, rfl⟩

/-- A statement is one of the process, or it is behind `main` and leaves the process alone. -/
theorem Lifetime.statement_cases {ienv : InitEnv} {senv : ServiceEnv} {l l' : Lifetime}
    (h : l.statement ienv senv = some l') :
    (∃ process, l.phase = .running ∧ l.process.statement ienv senv = some process ∧
      l' = { l with process := process, initLog := l.initLog ++ l.process.initEntries ienv }) ∨
    (l.phase = .running ∧ l.process.point = .mainReturned ∧
      l' = { l with phase := .destructor l.process.proxy.dtorStmts }) ∨
    (∃ stmt rest, l.phase = .destructor (stmt :: rest) ∧
      l' = { l with phase := .destructor rest, dtorLog := l.dtorLog ++ stmt.entries }) ∨
    (l.phase = .destructor [] ∧ l' = { l with phase := .destroyed }) ∨
    (l.phase = .destroyed ∧ l' = { l with phase := .deleted }) ∨
    (l.phase = .deleted ∧ l' = { l with phase := .nulled }) := by
  unfold Lifetime.statement at h
  cases hphase : l.phase with
  | running =>
      simp only [hphase] at h
      split_ifs at h with hpt
      · cases h
        exact Or.inr (Or.inl ⟨rfl, hpt, rfl⟩)
      · obtain ⟨process, hstep, rfl⟩ := Option.map_eq_some_iff.1 h
        exact Or.inl ⟨process, rfl, hstep, rfl⟩
  | destructor rest =>
      cases rest with
      | nil =>
          simp only [hphase] at h
          cases h
          exact Or.inr (Or.inr (Or.inr (Or.inl ⟨rfl, rfl⟩)))
      | cons stmt rest =>
          simp only [hphase] at h
          cases h
          exact Or.inr (Or.inr (Or.inl ⟨stmt, rest, rfl, rfl⟩))
  | destroyed =>
      simp only [hphase] at h
      cases h
      exact Or.inr (Or.inr (Or.inr (Or.inr (Or.inl ⟨rfl, rfl⟩))))
  | deleted =>
      simp only [hphase] at h
      cases h
      exact Or.inr (Or.inr (Or.inr (Or.inr (Or.inr ⟨rfl, rfl⟩))))
  | nulled =>
      simp only [hphase] at h
      cases h

/-- A handled signal is one of the process. -/
theorem Lifetime.deliver_cases {ienv : InitEnv} {senv : ServiceEnv} {l l' : Lifetime} {signum : ℕ}
    (h : l.step ienv senv (.deliver signum) = some l') :
    ∃ process, l.process.step ienv senv (.deliver signum) = some process ∧
      l' = { l with process := process } := by
  simp only [Lifetime.step] at h
  split_ifs at h
  obtain ⟨process, hstep, rfl⟩ := Option.map_eq_some_iff.1 h
  exact ⟨process, hstep, rfl⟩

theorem Lifetime.Inv.step {ienv : InitEnv} {senv : ServiceEnv} {processLog : Option Bytes}
    {l l' : Lifetime} {e : Event} (hinv : l.Inv ienv senv processLog)
    (h : l.step ienv senv e = some l') : l'.Inv ienv senv processLog := by
  obtain ⟨run, hrun⟩ := hinv.process
  cases e with
  | deliver signum =>
      obtain ⟨process, hstep, rfl⟩ := Lifetime.deliver_cases h
      have hreach : ∃ run, Transition.exec (Process.step ienv senv) (Process.new processLog) run
          = some process := ⟨run ++ [.deliver signum], Transition.exec_snoc hrun hstep⟩
      -- the destructor does not read the flag
      obtain ⟨-, p, n, rfl, rfl | rfl⟩ := Process.deliver_cases hstep
      · exact ⟨hreach, hinv.returned, hinv.initLog, hinv.dtorLog⟩
      · exact ⟨hreach, hinv.returned, hinv.initLog, hinv.dtorLog⟩
  | statement =>
      have hdtor := hinv.dtorLog
      rcases Lifetime.statement_cases h with ⟨process, hphase, hstep, rfl⟩ | ⟨hphase, hpt, rfl⟩ |
        ⟨stmt, rest, hphase, rfl⟩ | ⟨hphase, rfl⟩ | ⟨hphase, rfl⟩ | ⟨hphase, rfl⟩
      · refine ⟨⟨run ++ [.statement], Transition.exec_snoc (e := Event.statement) hrun hstep⟩,
          fun hne => absurd hphase hne, ?_, ?_⟩
        · show l.initLog ++ l.process.initEntries ienv = process.proxy.acquired
          rw [Process.statement_acquired (follows_of_exec hrun) hstep, hinv.initLog]
        · rw [hphase] at hdtor ⊢
          exact hdtor
      · rw [hphase] at hdtor
        exact ⟨hinv.process, fun _ => hpt, hinv.initLog, [], rfl, hdtor⟩
      · rw [hphase] at hdtor
        obtain ⟨done, hsplit, hlog⟩ := hdtor
        refine ⟨hinv.process, fun _ => hinv.returned (by simp [hphase]), hinv.initLog,
          done ++ [stmt], by simpa using hsplit, ?_⟩
        show l.dtorLog ++ stmt.entries = _
        rw [hlog, List.flatMap_append, List.flatMap_singleton]
      · rw [hphase] at hdtor
        obtain ⟨done, hsplit, hlog⟩ := hdtor
        refine ⟨hinv.process, fun _ => hinv.returned (by simp [hphase]), hinv.initLog, ?_⟩
        rw [List.append_nil] at hsplit
        show l.dtorLog = l.process.proxy.dtorStmts.flatMap DtorStmt.entries
        rw [hsplit, hlog]
      all_goals
        rw [hphase] at hdtor
        exact ⟨hinv.process, fun _ => hinv.returned (by simp [hphase]), hinv.initLog, hdtor⟩

theorem Lifetime.inv_of_exec {ienv : InitEnv} {senv : ServiceEnv} {processLog : Option Bytes}
    {run : List Event} {l : Lifetime}
    (h : Transition.exec (Lifetime.step ienv senv) (Lifetime.new processLog) run = some l) :
    l.Inv ienv senv processLog :=
  Transition.exec_inv (fun _ _ _ hinv hstep => hinv.step hstep)
    (Lifetime.inv_new ienv senv processLog) h

/-! ## Signals and live objects -/

/-- There is a logger: `init` has made it, and the member has not been destroyed. -/
def Lifetime.hasLogger (l : Lifetime) : Bool :=
  l.process.proxy.logger && !l.phase.over

/-- `signal_handle` acts on live objects: `getInstance()` gives an object that is not deleted, and
    there is a logger to log to. -/
def Lifetime.ActsOnLive (l : Lifetime) : Event → Prop
  | .statement => True
  | .deliver signum => signum ∈ l.process.registered → l.phase.live = true ∧ l.hasLogger = true

/-- `init` has executed the assignment of `m_fc_rotating_logger`. -/
def Point.pastLogger : Point → Bool
  | .registerSignals _ => false
  | .init rest => !rest.contains .newLogger
  | _ => true

/-- A registered signal comes between that assignment and the destruction of the members. -/
def Lifetime.InTime (l : Lifetime) : Event → Prop
  | .statement => True
  | .deliver signum => signum ∈ l.process.registered → l.process.point.pastLogger = true ∧
      l.phase.over = false

/-- There is a logger exactly from that statement on, whichever return `init` takes. -/
theorem Follows.logger {ienv : InitEnv} {processLog : Option Bytes} {s : Process}
    (h : Follows ienv processLog s) : s.proxy.logger = s.point.pastLogger := by
  have hlater : ∀ iRet p, init ienv (Proxy.new processLog) = .ret iRet p → p.Kept s.proxy →
      s.proxy.logger = true := fun iRet p hinit hkept => hkept.logger.trans (init_logger hinit)
  unfold Follows at h
  cases hpt : s.point with
  | registerSignals rest =>
      rw [hpt] at h
      have hp : s.proxy = Proxy.new processLog := h
      rw [hp]
      rfl
  | init rest =>
      rw [hpt] at h
      obtain ⟨done, p, hsplit, hrun, halike, -⟩ := h
      rw [halike.kept.logger]
      by_cases hmem : InitStmt.newLogger ∈ rest
      · have hnot : InitStmt.newLogger ∉ done := by
          have hnodup : (done ++ rest).Nodup := hsplit ▸ (by decide)
          exact fun hdone => List.disjoint_of_nodup_append hnodup hdone hmem
        have hkept : (runStmts ienv done (Proxy.new processLog)).proxy.logger = false := by
          refine runStmts_keeps (Q := fun q => q.logger = false) (fun stmt hstmt q hq => ?_) rfl
          exact ((stmt.exec_frame ienv q).logger (fun heq => hnot (heq ▸ hstmt))).trans hq
        rw [hrun] at hkept
        have hpast : (Point.init rest).pastLogger = false := by simp [Point.pastLogger, hmem]
        exact Eq.trans hkept hpast.symm
      · have hdone : InitStmt.newLogger ∈ done := by
          have hin : InitStmt.newLogger ∈ done ++ rest := hsplit ▸ (by decide)
          exact (List.mem_append.1 hin).resolve_right hmem
        have hset : p.logger = true :=
          runStmts_establishes (Q := fun q => q.logger = true) .newLogger hdone (fun _ => rfl)
            (fun stmt hne q hq => ((stmt.exec_frame ienv q).logger hne).trans hq) hrun
        have hpast : (Point.init rest).pastLogger = true := by simp [Point.pastLogger, hmem]
        exact hset.trans hpast.symm
  | initReturned iRet =>
      rw [hpt] at h
      obtain ⟨p, hinit, halike⟩ := h
      exact hlater iRet p hinit halike.kept
  | mainReturned =>
      rw [hpt] at h
      obtain ⟨iRet, p, hinit, hkept⟩ := h
      exact hlater iRet p hinit hkept
  | _ =>
      rw [hpt] at h
      obtain ⟨p, hinit, hkept⟩ := h
      exact hlater 0 p hinit hkept

/-- **The signal handler acts on live objects exactly in the runs in which every signal arrives
    between the assignment of the logger in `init` and the destruction of the members.** -/
theorem signal_handler_live_iff (ienv : InitEnv) (senv : ServiceEnv) (processLog : Option Bytes)
    (run : List Event) :
    Transition.Along (Lifetime.step ienv senv) Lifetime.ActsOnLive (Lifetime.new processLog) run ↔
      Transition.Along (Lifetime.step ienv senv) Lifetime.InTime (Lifetime.new processLog) run := by
  refine Transition.along_congr (fun l e l' hinv hstep => Lifetime.Inv.step hinv hstep)
    (fun l e hinv => ?_) (Lifetime.inv_new ienv senv processLog)
  cases e with
  | statement => exact Iff.rfl
  | deliver signum =>
      obtain ⟨run, hrun⟩ := hinv.process
      have hlogger := (follows_of_exec hrun).logger
      refine imp_congr_right (fun _ => ?_)
      rw [Lifetime.hasLogger, hlogger]
      cases l.phase <;> simp [Phase.live, Phase.over]

/-- `SIGHUP` right after the first `signal` call finds no logger. -/
theorem signal_handler_without_logger :
    ∃ l, Transition.exec (Lifetime.step helloStart helloService) (Lifetime.new none) [.statement]
        = some l ∧
      1 ∈ l.process.registered ∧ l.process.proxy.logger = false ∧
      ¬ Transition.Along (Lifetime.step helloStart helloService) Lifetime.ActsOnLive
        (Lifetime.new none) [.statement, .deliver 1] := by
  refine ⟨_, rfl, by decide, rfl, fun h => ?_⟩
  have hlogger := ((h.2 _ rfl).1 (by decide)).2
  cases hlogger

/-! ## The balance of a run -/

/-- `startService` only adds to its effects, begins each index with the allocation of an `info`, and
    never frees one. -/
theorem Process.statement_effects {ienv : InitEnv} {senv : ServiceEnv} {s s' : Process}
    (h : s.statement ienv senv = some s') :
    ∃ new, s'.effects = s.effects ++ new ∧ (∀ n, Effect.release (.info n) ∉ new) ∧
      ∀ i, s.point = .newInfo i → Effect.acquire (.info i) ∈ new := by
  obtain ⟨point, proxy, locals, registered, handled, callbacks, effects⟩ := s
  cases point with
  | registerSignals rest => cases rest <;> cases h <;> exact ⟨[], by simp⟩
  | init rest =>
      cases rest with
      | nil => cases h
      | cons stmt rest =>
          obtain ⟨pt, rfl, -⟩ := Process.statement_init rfl h
          exact ⟨[], by simp⟩
  | newInfo i =>
      cases h
      refine ⟨[.acquire (.info i)], rfl, by simp, fun j hj => ?_⟩
      cases hj
      exact List.mem_singleton.2 rfl
  | disconnect i testNum =>
      cases h
      dsimp only
      split_ifs
      · exact ⟨_, rfl, by simp, fun j hj => by cases hj⟩
      · exact ⟨[], by simp⟩
  | getConnection i testNum =>
      cases h
      exact ⟨_, rfl, by simp, fun j hj => by cases hj⟩
  | eventBaseNew i =>
      simp only [Process.statement] at h
      split at h
      · cases h
        exact ⟨[], by simp⟩
      · cases h
        exact ⟨_, rfl, by simp, fun j hj => by cases hj⟩
  | evhttpNew i =>
      simp only [Process.statement] at h
      split at h
      · cases h
        exact ⟨_, rfl, by simp, fun j hj => by cases hj⟩
      · cases h
        exact ⟨_, rfl, by simp, fun j hj => by cases hj⟩
  | acceptSocket i =>
      simp only [Process.statement] at h
      split at h
      · cases h
        exact ⟨_, rfl, by simp, fun j hj => by cases hj⟩
      · cases h
        exact ⟨[], by simp⟩
  | setCb i paths => cases paths <;> cases h <;> exact ⟨[], by simp⟩
  | mainReturned => cases h
  | _ =>
      cases h
      exact ⟨[], by simp⟩

/-- Outside the loop over the thread indices and the wait behind it. -/
def Point.offLoop : Point → Bool
  | .registerSignals _ | .init _ | .initReturned _ | .enterService | .serviceReturned _
  | .mainReturned => true
  | _ => false

/-- No thread index has been begun. -/
structure Process.Idle (s : Process) : Prop where
  effects : s.effects = []
  threadParams : s.proxy.threadParams = []
  offLoop : s.point.offLoop = true

/-- A thread index has been begun, or will be. -/
def Process.Begun (s : Process) : Prop :=
  (∃ i, Effect.acquire (.info i) ∈ s.effects) ∨
    (1 ≤ s.proxy.ThreadCount ∧ (s.point = .forThread 0 ∨ s.point = .newInfo 0))

/-- `startService` is not entered with the flag up: `fdfs_client_init` has failed, or a signal came
    between `isReady = true` and the test. -/
def Lifetime.NotServing (l : Lifetime) (e : Event) : Prop :=
  l.process.point = .enterService → e = .statement → l.process.proxy.isReady = false

theorem Process.Idle.statement {ienv : InitEnv} {senv : ServiceEnv} {s s' : Process} (hs : s.Idle)
    (hok : s.point = .enterService → s.proxy.isReady = false)
    (h : s.statement ienv senv = some s') : s'.Idle := by
  obtain ⟨point, proxy, locals, registered, handled, callbacks, effects⟩ := s
  obtain ⟨heffects, hparams, hoff⟩ := hs
  cases point with
  | registerSignals rest => cases rest <;> cases h <;> exact ⟨heffects, hparams, rfl⟩
  | init rest =>
      cases rest with
      | nil => cases h
      | cons stmt rest =>
          have hframe := (stmt.exec_frame ienv proxy).threadParams
          obtain ⟨pt, rfl, rfl | ⟨iRet, rfl⟩⟩ := Process.statement_init rfl h
          · exact ⟨heffects, hframe.trans hparams, rfl⟩
          · exact ⟨heffects, hframe.trans hparams, rfl⟩
  | initReturned iRet =>
      cases h
      refine ⟨heffects, hparams, ?_⟩
      dsimp only
      split_ifs <;> rfl
  | enterService =>
      cases h
      have hdown : proxy.isReady = false := hok rfl
      refine ⟨heffects, hparams, ?_⟩
      simp only [hdown]
      rfl
  | serviceReturned code =>
      cases h
      exact ⟨heffects, hparams, rfl⟩
  | mainReturned => cases h
  | _ => cases hoff

theorem Process.Begun.statement {ienv : InitEnv} {senv : ServiceEnv} {s s' : Process} (hs : s.Begun)
    (h : s.statement ienv senv = some s') : s'.Begun := by
  obtain ⟨new, heffects, -, hinfo⟩ := Process.statement_effects h
  rcases hs with ⟨i, hmem⟩ | ⟨hcount, hpt | hpt⟩
  · exact Or.inl ⟨i, heffects ▸ List.mem_append_left new hmem⟩
  · have hlt : s.proxy.ThreadCount > ((0 : ℕ) : ℤ) := by
      rw [Nat.cast_zero]
      omega
    rw [Process.statement, hpt] at h
    simp only [if_pos hlt] at h
    cases h
    exact Or.inr ⟨hcount, Or.inr rfl⟩
  · exact Or.inl ⟨0, heffects ▸ List.mem_append_right s.effects (hinfo 0 hpt)⟩

/-- A move leaves the process alone, or is one of the process. -/
theorem Lifetime.step_process {ienv : InitEnv} {senv : ServiceEnv} {l l' : Lifetime} {e : Event}
    (h : l.step ienv senv e = some l') :
    l'.process = l.process ∨ l.process.step ienv senv e = some l'.process := by
  cases e with
  | deliver signum =>
      obtain ⟨process, hstep, rfl⟩ := Lifetime.deliver_cases h
      exact Or.inr hstep
  | statement =>
      rcases Lifetime.statement_cases h with ⟨process, -, hstep, rfl⟩ | ⟨-, -, rfl⟩ | ⟨_, _, -, rfl⟩ |
        ⟨-, rfl⟩ | ⟨-, rfl⟩ | ⟨-, rfl⟩
      · exact Or.inr hstep
      all_goals exact Or.inl rfl

theorem Process.Idle.step {ienv : InitEnv} {senv : ServiceEnv} {l l' : Lifetime} {e : Event}
    (hl : l.process.Idle) (hok : l.NotServing e) (h : l.step ienv senv e = some l') :
    l'.process.Idle := by
  rcases Lifetime.step_process h with hsame | hstep
  · rwa [hsame]
  · cases e with
    | statement => exact hl.statement (fun hpt => hok hpt rfl) hstep
    | deliver signum =>
        obtain ⟨-, p, n, hl', hp⟩ := Process.deliver_cases hstep
        rw [hl']
        rcases hp with rfl | rfl
        · exact ⟨hl.effects, hl.threadParams, hl.offLoop⟩
        · exact ⟨hl.effects, hl.threadParams, hl.offLoop⟩

theorem Process.Begun.step {ienv : InitEnv} {senv : ServiceEnv} {l l' : Lifetime} {e : Event}
    (hl : l.process.Begun) (h : l.step ienv senv e = some l') : l'.process.Begun := by
  rcases Lifetime.step_process h with hsame | hstep
  · rwa [hsame]
  · cases e with
    | statement => exact hl.statement hstep
    | deliver signum =>
        obtain ⟨-, p, n, hl', hp⟩ := Process.deliver_cases hstep
        rw [hl']
        rcases hp with rfl | rfl
        · exact hl
        · exact hl

/-- Inside `startService` there is at least one thread index. -/
theorem Follows.one_le_ThreadCount {ienv : InitEnv} {processLog : Option Bytes} {s : Process}
    (h : Follows ienv processLog s) (hpt : s.point = .enterService ∨ s.point.offLoop = false) :
    1 ≤ s.proxy.ThreadCount := by
  have hinside : (∃ p, init ienv (Proxy.new processLog) = .ret 0 p ∧ p.Kept s.proxy) →
      1 ≤ s.proxy.ThreadCount := by
    rintro ⟨p, hinit, hkept⟩
    rcases init_ret_cases hinit with ⟨-, hzero, -⟩ | ⟨-, -, -, hlist⟩
    · exact absurd rfl hzero
    · rw [hkept.ThreadCount]
      exact hlist.ThreadCount
  rw [Follows] at h
  rcases hpt with hpt | hoff
  · rw [hpt] at h
    exact hinside h
  · cases hpoint : s.point with
    | registerSignals rest | init rest | initReturned iRet | mainReturned =>
        rw [hpoint] at hoff
        cases hoff
    | _ =>
        rw [hpoint] at h
        exact hinside h

/-- A move that is not allowed begins the first thread index. -/
theorem begun_of_serving {ienv : InitEnv} {senv : ServiceEnv} {processLog : Option Bytes}
    {l l' : Lifetime} {e : Event} (hinv : l.Inv ienv senv processLog) (hno : ¬ l.NotServing e)
    (h : l.step ienv senv e = some l') : l'.process.Begun := by
  simp only [Lifetime.NotServing, Classical.not_imp, Bool.not_eq_false] at hno
  obtain ⟨hpt, rfl, hready⟩ := hno
  obtain ⟨run, hrun⟩ := hinv.process
  -- behind a successful `init` there is at least one index
  have hcount : 1 ≤ l.process.proxy.ThreadCount :=
    (follows_of_exec hrun).one_le_ThreadCount (Or.inl hpt)
  rcases Lifetime.statement_cases h with ⟨process, -, hstep, rfl⟩ | ⟨-, hmain, -⟩ |
    ⟨_, _, hphase, -⟩ | ⟨hphase, -⟩ | ⟨hphase, -⟩ | ⟨hphase, -⟩
  · rw [Process.statement, hpt] at hstep
    simp only [hready, if_true] at hstep
    cases hstep
    exact Or.inr ⟨hcount, Or.inl rfl⟩
  · exact absurd (hpt.symm.trans hmain) (by simp)
  all_goals exact absurd (hpt.symm.trans (hinv.returned (by simp [hphase]))) (by simp)

/-- In a run that is not allowed throughout, a thread index has been begun. -/
theorem along_or_begun {ienv : InitEnv} {senv : ServiceEnv} {processLog : Option Bytes}
    {run : List Event} {l l' : Lifetime} (hinv : l.Inv ienv senv processLog)
    (h : Transition.exec (Lifetime.step ienv senv) l run = some l') :
    Transition.Along (Lifetime.step ienv senv) Lifetime.NotServing l run ∨ l'.process.Begun := by
  induction run generalizing l with
  | nil => exact Or.inl trivial
  | cons e run ih =>
      obtain ⟨l₁, hstep, hrest⟩ := Transition.exec_cons h
      by_cases hok : l.NotServing e
      · rcases ih (hinv.step hstep) hrest with halong | hbegun
        · exact Or.inl ((Transition.along_cons_iff hstep).2 ⟨hok, halong⟩)
        · exact Or.inr hbegun
      · exact Or.inr (Transition.exec_inv (I := fun l : Lifetime => l.process.Begun)
          (fun _ _ _ hl hs => Process.Begun.step hl hs) (begun_of_serving hinv hok hstep) hrest)

theorem release_info_not_mem {ienv : InitEnv} {senv : ServiceEnv} {processLog : Option Bytes}
    {run : List Event} {s : Process}
    (h : Transition.exec (Process.step ienv senv) (Process.new processLog) run = some s) (n : ℕ) :
    Effect.release (.info n) ∉ s.effects := by
  refine Transition.exec_inv (I := fun s : Process => Effect.release (.info n) ∉ s.effects)
    (fun s e s' hs hstep => ?_) (by simp [Process.new]) h
  cases e with
  | statement =>
      obtain ⟨new, heffects, hnew, -⟩ := Process.statement_effects hstep
      rw [heffects, List.mem_append, not_or]
      exact ⟨hs, hnew n⟩
  | deliver signum =>
      obtain ⟨-, p, k, rfl, -⟩ := Process.deliver_cases hstep
      exact hs

/-! ### The log at the end -/

theorem acquire_not_mem_dtor (p : Proxy) (x : Handle) :
    Entry.acquire x ∉ p.dtorStmts.flatMap DtorStmt.entries := by
  rw [List.mem_flatMap]
  rintro ⟨stmt, -, hmem⟩
  cases stmt <;> simp [DtorStmt.entries] at hmem

theorem mem_acquired {p : Proxy} {x : Entry Handle} (h : x ∈ p.acquired) :
    x = .acquire .pool ∨ ∃ n, x = .acquire (.fd n) := by
  rcases List.mem_append.1 h with hfd | hpool
  · obtain ⟨n, -, rfl⟩ := List.mem_map.1 hfd
    exact Or.inr ⟨n, rfl⟩
  · split_ifs at hpool
    · exact Or.inl (List.mem_singleton.1 hpool)
    · cases hpool

theorem Lifetime.Inv.log_eq {ienv : InitEnv} {senv : ServiceEnv} {processLog : Option Bytes}
    {l : Lifetime} (hinv : l.Inv ienv senv processLog) (hover : l.phase.over = true) :
    l.log = l.process.proxy.acquired ++ l.process.effects.map Effect.handleEntry ++
      l.process.proxy.dtorStmts.flatMap DtorStmt.entries := by
  have hdtor := hinv.dtorLog
  rw [Lifetime.log, hinv.initLog]
  cases hphase : l.phase with
  | running =>
      rw [hphase] at hover
      cases hover
  | destructor rest =>
      rw [hphase] at hover
      cases hover
  | _ =>
      rw [hphase] at hdtor
      rw [show l.dtorLog = _ from hdtor]

/-- A pool pointer that was never assigned is deleted. -/
theorem not_balanced_of_no_pool {ienv : InitEnv} {senv : ServiceEnv} {processLog : Option Bytes}
    {l : Lifetime} (hinv : l.Inv ienv senv processLog) (hover : l.phase.over = true)
    (hpool : l.process.proxy.mThreadPool = none) : ¬ Balanced l.log := by
  refine not_balanced_of_count_lt (r := .indeterminate) ?_
  have hno : Entry.acquire Handle.indeterminate ∉ l.log := by
    rw [hinv.log_eq hover, List.mem_append, List.mem_append, not_or, not_or]
    refine ⟨⟨fun h => ?_, fun h => ?_⟩, acquire_not_mem_dtor _ _⟩
    · rcases mem_acquired h with heq | ⟨n, heq⟩ <;> cases heq
    · obtain ⟨eff, -, heq⟩ := List.mem_map.1 h
      cases eff <;> cases heq
  have hyes : Entry.release Handle.indeterminate ∈ l.log := by
    rw [hinv.log_eq hover]
    refine List.mem_append_right _ (List.mem_flatMap.2 ⟨.deletePool false, ?_, ?_⟩)
    · simp [Proxy.dtorStmts, hpool]
    · simp [DtorStmt.entries]
  rw [List.count_eq_zero_of_not_mem hno]
  exact List.count_pos_iff.2 hyes

/-- Without an entry the `info` of the first index is never freed. -/
theorem not_balanced_of_no_entry {ienv : InitEnv} {senv : ServiceEnv} {processLog : Option Bytes}
    {l : Lifetime} (hinv : l.Inv ienv senv processLog) (hover : l.phase.over = true)
    (hfd : l.process.proxy.listenfd = some ienv.socket) (hbegun : l.process.Begun)
    (hparams : l.process.proxy.threadParams = []) : ¬ Balanced l.log := by
  have hpt : l.process.point = .mainReturned := by
    refine hinv.returned (fun hphase => ?_)
    rw [hphase] at hover
    cases hover
  obtain ⟨i, hmem⟩ : ∃ i, Effect.acquire (.info i) ∈ l.process.effects := by
    rcases hbegun with h | ⟨-, h | h⟩
    · exact h
    · exact absurd (hpt.symm.trans h) (by simp)
    · exact absurd (hpt.symm.trans h) (by simp)
  obtain ⟨run, hrun⟩ := hinv.process
  refine not_balanced_of_acquired (r := .resource (.info i)) ?_ ?_
  · rw [hinv.log_eq hover]
    exact List.mem_append_left _ (List.mem_append_right _ (List.mem_map_of_mem hmem))
  · rw [hinv.log_eq hover, List.mem_append, List.mem_append, not_or, not_or]
    refine ⟨⟨fun h => ?_, fun h => ?_⟩, ?_⟩
    · rcases mem_acquired h with heq | ⟨n, heq⟩ <;> cases heq
    · obtain ⟨eff, heff, heq⟩ := List.mem_map.1 h
      cases eff with
      | acquire r => cases heq
      | release r =>
          cases heq
          exact release_info_not_mem hrun i heff
    · cases hpool : l.process.proxy.mThreadPool <;>
        simp [Proxy.dtorStmts, hparams, DtorStmt.entries, hfd, fdHandle, hpool]

/-- With an entry the listening socket is closed twice: by the destructor and by `evhttp_free`. -/
theorem not_balanced_of_entry {ienv : InitEnv} {senv : ServiceEnv} {processLog : Option Bytes}
    {l : Lifetime} (hinv : l.Inv ienv senv processLog) (hover : l.phase.over = true)
    (hfd : l.process.proxy.listenfd = some ienv.socket) {tp : ThreadParam} {tps : List ThreadParam}
    (hparams : l.process.proxy.threadParams = tp :: tps) : ¬ Balanced l.log := by
  refine not_balanced_of_count_lt (r := .fd ienv.socket) ?_
  have hacq : l.log.count (.acquire (.fd ienv.socket)) ≤ 1 := by
    have heffects : Entry.acquire (Handle.fd ienv.socket) ∉
        l.process.effects.map Effect.handleEntry := by
      rintro h
      obtain ⟨eff, -, heq⟩ := List.mem_map.1 h
      cases eff <;> cases heq
    have hacquired : l.process.proxy.acquired.count (.acquire (.fd ienv.socket)) ≤ 1 := by
      rw [Proxy.acquired, hfd]
      by_cases hneg : 0 ≤ ienv.socket <;> split_ifs <;> simp [hneg]
    rw [hinv.log_eq hover, List.count_append, List.count_append,
      List.count_eq_zero_of_not_mem heffects,
      List.count_eq_zero_of_not_mem (acquire_not_mem_dtor _ _)]
    exact hacquired
  have hrel : 2 ≤ l.log.count (.release (.fd ienv.socket)) := by
    have hdtor : 2 ≤ (l.process.proxy.dtorStmts.flatMap DtorStmt.entries).count
        (.release (.fd ienv.socket)) := by
      simp only [Proxy.dtorStmts, hparams, hfd, ThreadParam.dtorStmts, List.flatMap_append,
        List.flatMap_cons, DtorStmt.entries, fdHandle, List.count_append, List.count_cons,
        Option.map_some, Option.getD_some, beq_self_eq_true, if_true]
      omega
    rw [hinv.log_eq hover, List.count_append]
    omega
  omega

theorem not_balanced_of_begun {ienv : InitEnv} {senv : ServiceEnv} {processLog : Option Bytes}
    {l : Lifetime} (hinv : l.Inv ienv senv processLog) (hover : l.phase.over = true)
    (hfd : l.process.proxy.listenfd = some ienv.socket) (hbegun : l.process.Begun) :
    ¬ Balanced l.log := by
  cases hparams : l.process.proxy.threadParams with
  | nil => exact not_balanced_of_no_entry hinv hover hfd hbegun hparams
  | cons tp tps => exact not_balanced_of_entry hinv hover hfd hparams

/-- **Everything a run acquires is released exactly once, and nothing else is, exactly when** `init`
    takes none of its returns up to `listen` and `startService` is not entered with the flag up. -/
theorem lifetime_balanced_iff {ienv : InitEnv} {senv : ServiceEnv} {processLog : Option Bytes}
    {run : List Event} {l : Lifetime}
    (hrun : Transition.exec (Lifetime.step ienv senv) (Lifetime.new processLog) run = some l)
    (hover : l.phase.over = true) :
    Balanced l.log ↔ GetsToPool ienv (Proxy.new processLog) ∧
      Transition.Along (Lifetime.step ienv senv) Lifetime.NotServing (Lifetime.new processLog) run := by
  have hinv := Lifetime.inv_of_exec hrun
  have hpt : l.process.point = .mainReturned := by
    refine hinv.returned (fun hphase => ?_)
    rw [hphase] at hover
    cases hover
  obtain ⟨run', hrun'⟩ := hinv.process
  have hfol := follows_of_exec hrun'
  rw [Follows, hpt] at hfol
  obtain ⟨iRet, p, hinit, hkept⟩ := hfol
  rcases init_ret_cases hinit with ⟨hno, -, hpool⟩ | ⟨hgets, -, hpool, hlist⟩
  · have hnone : l.process.proxy.mThreadPool = none := by
      have hthreads := hkept.threads
      rw [hpool] at hthreads
      simpa using hthreads
    exact iff_of_false (not_balanced_of_no_pool hinv hover hnone) (fun h => hno h.1)
  · have hfd : l.process.proxy.listenfd = some ienv.socket := hkept.listenfd.trans hlist.listenfd
    refine ⟨fun hbal => ⟨hgets, ?_⟩, fun hcond => ?_⟩
    · rcases along_or_begun (Lifetime.inv_new ienv senv processLog) hrun with halong | hbegun
      · exact halong
      · exact absurd hbal (not_balanced_of_begun hinv hover hfd hbegun)
    · -- nothing but the socket and the pool was acquired
      have hidle : l.process.Idle := by
        have hnew : (Lifetime.new processLog).process.Idle := ⟨rfl, rfl, rfl⟩
        exact (Transition.always_of_step (I := fun l : Lifetime => l.process.Idle)
          (fun _ _ _ hl hok hstep => Process.Idle.step hl hok hstep) hnew hcond.2).last hrun
      have hsome : l.process.proxy.mThreadPool.isSome = true := by
        have hthreads := congrArg Option.isSome hkept.threads
        rw [hpool] at hthreads
        simpa using hthreads
      have hlog : l.log = [.fd ienv.socket, .pool].map .acquire ++
          [.fd ienv.socket, .pool].map .release := by
        have hnonneg := hlist.socket
        rw [hinv.log_eq hover, hidle.effects]
        simp [Proxy.acquired, Proxy.dtorStmts, hidle.threadParams, hfd, hsome, fdHandle,
          DtorStmt.entries, hnonneg]
      rw [hlog]
      exact balanced_acquire_release _

instance (l : Lifetime) (e : Event) : Decidable (l.NotServing e) :=
  inferInstanceAs (Decidable (_ → _ → _))

/-- A start that fails at `fdfs_client_init`. -/
def trackerlessStart : InitEnv :=
  { helloStart with fdfsClientInit := fun _ => 2 }

/-- Its run: `main` and the destructor. -/
def failedRun : List Event :=
  List.replicate 34 Event.statement

theorem lifetime_balanced_iff_trackerless :
    ∃ l, Transition.exec (Lifetime.step trackerlessStart helloService) (Lifetime.new none) failedRun
        = some l ∧ l.phase = .deleted ∧ Balanced l.log := by
  obtain ⟨l, hrun, hphase⟩ : ∃ l,
      Transition.exec (Lifetime.step trackerlessStart helloService) (Lifetime.new none) failedRun
        = some l ∧ l.phase = .deleted := ⟨_, rfl, rfl⟩
  refine ⟨l, hrun, hphase, (lifetime_balanced_iff hrun (by rw [hphase]; rfl)).2 ⟨⟨_, rfl⟩, ?_⟩⟩
  decide +kernel

/-- A service that is stopped by `SIGTERM`, up to the end of the destructor. -/
def servedRun : List Event :=
  List.replicate 51 Event.statement ++ Event.deliver 15 :: List.replicate 14 Event.statement

/-- `evhttp_free` closes the listening socket, and `~fileCacheProxy` closes it again. -/
theorem listening_socket_closed_twice :
    ∃ l, Transition.exec (Lifetime.step helloStart helloService) (Lifetime.new none) servedRun
        = some l ∧
      l.phase = .deleted ∧ l.log.count (.acquire (.fd 3)) = 1 ∧
      l.log.count (.release (.fd 3)) = 2 ∧ ¬ Balanced l.log := by
  obtain ⟨l, hrun, hphase, hacq, hrel⟩ : ∃ l,
      Transition.exec (Lifetime.step helloStart helloService) (Lifetime.new none) servedRun
          = some l ∧
        l.phase = .deleted ∧ l.log.count (.acquire (.fd 3)) = 1 ∧
        l.log.count (.release (.fd 3)) = 2 := ⟨_, rfl, rfl, rfl, rfl⟩
  refine ⟨l, hrun, hphase, hacq, hrel, not_balanced_of_count_lt (r := .fd 3) ?_⟩
  omega

end FileCacheProxy
