import FileCacheProxy.Service
import Mathlib

set_option autoImplicit false

/-! # Start-up: `init` as `main` runs it

`main` executes `init` one statement at a time, with signals in between; `init` of `Init.lean` is the
same call without signals. The two agree up to the flag `isReady` (`Follows`), so that what the call
leaves (`init_ret_cases`) is what every run finds behind it. -/

namespace FileCacheProxy

/-! ## Runs of statements -/

/-- What one statement establishes and the others keep holds behind them all. -/
theorem runStmts_establishes {env : InitEnv} {Q : Proxy → Prop} {stmts : List InitStmt}
    (stmt : InitStmt) (hmem : stmt ∈ stmts) (hset : ∀ p, Q (stmt.exec env p).proxy)
    (hkeep : ∀ stmt' ≠ stmt, ∀ p, Q p → Q (InitStmt.exec env p stmt').proxy) {p q : Proxy}
    (hrun : runStmts env stmts p = .next q) : Q q := by
  obtain ⟨before, after, r, r', -, hexec, hafter⟩ := exists_of_runStmts_next stmt hmem hrun
  have hr' : Q (Flow.next r').proxy := hexec ▸ hset r
  have hkept : Q (runStmts env after r').proxy := by
    refine runStmts_keeps (fun stmt' _ p hp => ?_) hr'
    by_cases hstmt : stmt' = stmt
    · exact hstmt ▸ hset p
    · exact hkeep stmt' hstmt p hp
  rw [hafter] at hkept
  exact hkept

/-- A return comes from one of the statements. -/
theorem exists_of_runStmts_ret {env : InitEnv} {stmts : List InitStmt} {p q : Proxy} {iRet : ℤ}
    (h : runStmts env stmts p = .ret iRet q) :
    ∃ stmt ∈ stmts, ∃ p', stmt.exec env p' = .ret iRet q := by
  induction stmts generalizing p with
  | nil => cases h
  | cons stmt rest ih =>
      rw [runStmts] at h
      cases hexec : stmt.exec env p with
      | next p' =>
          rw [hexec] at h
          obtain ⟨stmt', hmem, hret⟩ := ih h
          exact ⟨stmt', List.mem_cons_of_mem _ hmem, hret⟩
      | ret iRet' p' =>
          rw [hexec] at h
          cases h
          exact ⟨stmt, List.mem_cons_self, p, hexec⟩
      | stuck p' =>
          rw [hexec] at h
          cases h

/-- An early return has an error code. -/
theorem InitStmt.exec_ret_ne_zero {env : InitEnv} {stmt : InitStmt} {p q : Proxy} {iRet : ℤ}
    (h : stmt.exec env p = .ret iRet q) (h₁ : stmt ≠ .checkReady) (h₂ : stmt ≠ .returnSuccess) :
    iRet ≠ 0 := by
  cases stmt with
  | checkReady => exact absurd rfl h₁
  | returnSuccess => exact absurd rfl h₂
  | loadConfig =>
      simp only [InitStmt.exec] at h
      split at h
      · cases h
      · split_ifs at h
        cases h
        decide
  | _ =>
      simp only [InitStmt.exec] at h
      (try split_ifs at h) <;> cases h <;> decide

/-! ## How `init` ends -/

/-- The statements before `new std::threadpool`. -/
def listenStmts : List InitStmt :=
  initStmts.takeWhile (· ≠ .newThreadPool)

theorem initStmts_eq : initStmts =
    listenStmts ++ [.newThreadPool, .logInit, .fdfsClientInit, .setReady, .returnSuccess] := by
  decide

/-- `init` takes none of its returns up to `listen`. -/
def GetsToPool (env : InitEnv) (p : Proxy) : Prop :=
  ∃ q, runStmts env listenStmts p = .next q

/-- What the statements up to `listen` leave. -/
structure Listening (env : InitEnv) (q : Proxy) : Prop where
  ThreadCount : 1 ≤ q.ThreadCount
  listenfd : q.listenfd = some env.socket
  socket : 0 ≤ env.socket

theorem listening_of_run {env : InitEnv} {p q : Proxy} (h : runStmts env listenStmts p = .next q) :
    Listening env q := by
  refine ⟨?_, ?_, ?_⟩
  · refine runStmts_establishes (Q := fun q => 1 ≤ q.ThreadCount) .readThreadCount
      (by decide) (fun p => ?_) (fun stmt hne p hp => ?_) h
    · simp only [InitStmt.exec]
      split_ifs with hempty hlt
      · exact le_rfl
      · exact le_rfl
      · exact not_lt.1 hlt
    · exact hp.trans_eq ((stmt.exec_frame env p).ThreadCount hne).symm
  · refine runStmts_establishes (Q := fun q => q.listenfd = some env.socket) .socket
      (by decide) (fun p => ?_) (fun stmt hne p hp => ?_) h
    · simp only [InitStmt.exec]
      split_ifs <;> rfl
    · exact ((stmt.exec_frame env p).listenfd hne).trans hp
  · obtain ⟨-, -, r, r', -, hexec, -⟩ := exists_of_runStmts_next .socket (by decide) h
    simp only [InitStmt.exec] at hexec
    split_ifs at hexec with hneg
    exact not_lt.1 hneg

/-- The logger is there whenever `init`, called on a new object, has returned. -/
theorem init_logger {env : InitEnv} {processLog : Option Bytes} {iRet : ℤ} {p : Proxy}
    (h : init env (Proxy.new processLog) = .ret iRet p) : p.logger = true := by
  have hrest : init env (Proxy.new processLog) = runStmts env (initStmts.drop 6)
      { Proxy.new processLog with logger := true } := rfl
  have hkept : (runStmts env (initStmts.drop 6)
      { Proxy.new processLog with logger := true }).proxy.logger = true := by
    refine runStmts_keeps (Q := fun q => q.logger = true) (fun stmt hmem q hq => ?_) rfl
    have hne : stmt ≠ .newLogger := by
      rintro rfl
      exact absurd hmem (by decide)
    exact ((stmt.exec_frame env q).logger hne).trans hq
  rw [← hrest, h] at hkept
  exact hkept

/-- The two ways out of `init`: before the pool is made, with an error code, or behind it. -/
theorem init_ret_cases {env : InitEnv} {processLog : Option Bytes} {iRet : ℤ} {p : Proxy}
    (h : init env (Proxy.new processLog) = .ret iRet p) :
    (¬ GetsToPool env (Proxy.new processLog) ∧ iRet ≠ 0 ∧ p.mThreadPool = none) ∨
    (GetsToPool env (Proxy.new processLog) ∧ (iRet = 0 → p.isReady = true) ∧
      p.mThreadPool = some (ThreadPool.new p.ThreadCount) ∧ Listening env p) := by
  have hsplit := h
  rw [init, initStmts_eq, runStmts_append] at hsplit
  cases hrun : runStmts env listenStmts (Proxy.new processLog) with
  | next q =>
      rw [hrun] at hsplit
      have hlist := listening_of_run hrun
      refine Or.inr ⟨⟨q, hrun⟩, ?_⟩
      simp only [runStmts, InitStmt.exec] at hsplit
      split_ifs at hsplit
      · cases hsplit
        exact ⟨fun h0 => absurd h0 (by decide), rfl, hlist.ThreadCount, hlist.listenfd, hlist.socket⟩
      · cases hsplit
        exact ⟨fun _ => rfl, rfl, hlist.ThreadCount, hlist.listenfd, hlist.socket⟩
  | ret iRet' q =>
      rw [hrun] at hsplit
      cases hsplit
      refine Or.inl ⟨?_, ?_, ?_⟩
      · rintro ⟨q', hq'⟩
        exact absurd (hrun.symm.trans hq') (by simp)
      · -- a new object is not ready, so the first statement does not return
        have htail : runStmts env listenStmts.tail (Proxy.new processLog) = .ret iRet p := hrun
        obtain ⟨stmt, hmem, p', hexec⟩ := exists_of_runStmts_ret htail
        refine stmt.exec_ret_ne_zero hexec ?_ ?_
        · rintro rfl
          exact absurd hmem (by decide)
        · rintro rfl
          exact absurd hmem (by decide)
      · have hkept : (runStmts env listenStmts (Proxy.new processLog)).proxy.mThreadPool = none := by
          refine runStmts_keeps (Q := fun q => q.mThreadPool = none) (fun stmt hmem q hq => ?_) rfl
          have hne : stmt ≠ .newThreadPool := by
            rintro rfl
            exact absurd hmem (by decide)
          exact ((stmt.exec_frame env q).mThreadPool hne).trans hq
        rw [hrun] at hkept
        exact hkept
  | stuck q =>
      rw [hrun] at hsplit
      cases hsplit

/-! ## `init` with signals in between -/

/-- Equal but for the flag a signal lowers. -/
def Proxy.Alike (p q : Proxy) : Prop :=
  ∃ isReady, q = { p with isReady := isReady }

/-- Equal but for what `startService` and signals change: the flag, the entries and the tasks. -/
structure Proxy.Kept (p q : Proxy) : Prop where
  logger : q.logger = p.logger
  ThreadCount : q.ThreadCount = p.ThreadCount
  listenfd : q.listenfd = p.listenfd
  threads : q.mThreadPool.map ThreadPool.threads = p.mThreadPool.map ThreadPool.threads

theorem Proxy.Alike.kept {p q : Proxy} (h : p.Alike q) : p.Kept q := by
  obtain ⟨isReady, rfl⟩ := h
  exact ⟨rfl, rfl, rfl, rfl⟩

def Flow.map (f : Proxy → Proxy) : Flow → Flow
  | .next p => .next (f p)
  | .ret iRet p => .ret iRet (f p)
  | .stuck p => .stuck (f p)

/-- Only the first statement of `init` looks at the flag. -/
theorem InitStmt.exec_isReady_irrelevant {stmt : InitStmt} (h : stmt ≠ .checkReady) (env : InitEnv)
    (p : Proxy) (isReady : Bool) :
    ∃ isReady', stmt.exec env { p with isReady := isReady } =
      (stmt.exec env p).map (fun q => { q with isReady := isReady' }) := by
  cases stmt with
  | checkReady => exact absurd rfl h
  | setReady => exact ⟨true, rfl⟩
  | loadConfig =>
      refine ⟨isReady, ?_⟩
      simp only [InitStmt.exec]
      split
      · rfl
      · split_ifs <;> rfl
  | _ =>
      refine ⟨isReady, ?_⟩
      simp only [InitStmt.exec]
      (try split_ifs) <;> rfl

/-- What the object of a process is, point by point: what the statements of `init` executed so far
    have made of a new one, up to what signals and `startService` change. -/
def FollowsAt (ienv : InitEnv) (processLog : Option Bytes) (q : Proxy) : Point → Prop
  | .registerSignals _ => q = Proxy.new processLog
  | .init rest => ∃ done p, initStmts = done ++ rest ∧
      runStmts ienv done (Proxy.new processLog) = .next p ∧ p.Alike q ∧
      (done = [] → q.isReady = false)
  | .initReturned iRet => ∃ p, init ienv (Proxy.new processLog) = .ret iRet p ∧ p.Alike q
  | .mainReturned => ∃ iRet p, init ienv (Proxy.new processLog) = .ret iRet p ∧ p.Kept q
  | _ => ∃ p, init ienv (Proxy.new processLog) = .ret 0 p ∧ p.Kept q

def Follows (ienv : InitEnv) (processLog : Option Bytes) (s : Process) : Prop :=
  FollowsAt ienv processLog s.proxy s.point

theorem runStmts_snoc {env : InitEnv} {done : List InitStmt} {stmt : InitStmt} {p q : Proxy}
    (h : runStmts env done p = .next q) :
    runStmts env (done ++ [stmt]) p = stmt.exec env q := by
  rw [runStmts_append, h]
  simp only [runStmts]
  cases stmt.exec env q <;> rfl

/-- The next statement of `init`, as `main` executes it. -/
theorem exec_follows {ienv : InitEnv} {processLog : Option Bytes} {stmt : InitStmt}
    {rest : List InitStmt} {q : Proxy} (h : FollowsAt ienv processLog q (.init (stmt :: rest))) :
    ∃ done p, initStmts = done ++ stmt :: rest ∧
      runStmts ienv done (Proxy.new processLog) = .next p ∧
      ∃ isReady, stmt.exec ienv q = (stmt.exec ienv p).map (fun r => { r with isReady := isReady }) := by
  obtain ⟨done, p, hsplit, hrun, ⟨isReady, rfl⟩, hfirst⟩ := h
  refine ⟨done, p, hsplit, hrun, ?_⟩
  by_cases hstmt : stmt = .checkReady
  · -- the first statement, executed with the flag down
    have hdone : done = [] := by
      cases done with
      | nil => rfl
      | cons stmt' done =>
          have hmem : stmt ∈ initStmts.tail := by
            rw [hsplit]
            simp
          rw [hstmt] at hmem
          exact absurd hmem (by decide)
    subst hdone
    have hp : p = Proxy.new processLog := by
      cases hrun
      rfl
    have hready : isReady = false := hfirst rfl
    subst hp hready
    exact ⟨false, by rw [hstmt]; rfl⟩
  · exact stmt.exec_isReady_irrelevant hstmt ienv p isReady

theorem follows_new (ienv : InitEnv) (processLog : Option Bytes) :
    Follows ienv processLog (Process.new processLog) :=
  rfl

/-- Between the entry of `startService` and its return. -/
def Point.inService : Point → Bool
  | .registerSignals _ | .init _ | .initReturned _ | .mainReturned => false
  | _ => true

theorem followsAt_inService {ienv : InitEnv} {processLog : Option Bytes} {q : Proxy} {pt : Point}
    (h : pt.inService = true) :
    FollowsAt ienv processLog q pt ↔
      ∃ p, init ienv (Proxy.new processLog) = .ret 0 p ∧ p.Kept q := by
  cases pt with
  | registerSignals rest => cases h
  | init rest => cases h
  | initReturned iRet => cases h
  | mainReturned => cases h
  | _ => exact Iff.rfl

/-- The statements of `startService` stay in it until it returns, and keep the rest of the object. -/
theorem Process.statement_inService {ienv : InitEnv} {senv : ServiceEnv} {s s' : Process}
    (hpt : s.point.inService = true) (h : s.statement ienv senv = some s') :
    (s'.point.inService = true ∨ s'.point = .mainReturned) ∧ s.proxy.Kept s'.proxy := by
  obtain ⟨point, proxy, locals, registered, handled, callbacks, effects⟩ := s
  have hrefl : proxy.Kept proxy := ⟨rfl, rfl, rfl, rfl⟩
  cases point with
  | registerSignals rest => cases hpt
  | init rest => cases hpt
  | initReturned iRet => cases hpt
  | mainReturned => cases hpt
  | serviceReturned code =>
      cases h
      exact ⟨Or.inr rfl, hrefl⟩
  | eventBaseNew i =>
      simp only [Process.statement] at h
      split at h <;> cases h <;> exact ⟨Or.inl rfl, hrefl⟩
  | evhttpNew i =>
      simp only [Process.statement] at h
      split at h <;> cases h <;> exact ⟨Or.inl rfl, hrefl⟩
  | acceptSocket i =>
      simp only [Process.statement] at h
      split at h <;> cases h <;> exact ⟨Or.inl rfl, hrefl⟩
  | pushBack i =>
      cases h
      exact ⟨Or.inl rfl, rfl, rfl, rfl, rfl⟩
  | setCb i paths =>
      cases paths <;> cases h <;> exact ⟨Or.inl rfl, hrefl⟩
  | commit i =>
      cases h
      refine ⟨Or.inl rfl, rfl, rfl, rfl, ?_⟩
      show (proxy.mThreadPool.map _).map ThreadPool.threads = _
      rw [Option.map_map]
      rfl
  | _ =>
      cases h
      refine ⟨Or.inl ?_, hrefl⟩
      dsimp only
      (try split_ifs) <;> rfl

theorem Proxy.Kept.trans {p q r : Proxy} (h₁ : p.Kept q) (h₂ : q.Kept r) : p.Kept r :=
  ⟨h₂.logger.trans h₁.logger, h₂.ThreadCount.trans h₁.ThreadCount, h₂.listenfd.trans h₁.listenfd,
    h₂.threads.trans h₁.threads⟩

theorem Follows.statement {ienv : InitEnv} {senv : ServiceEnv} {processLog : Option Bytes}
    {s s' : Process} (hinv : Follows ienv processLog s)
    (h : s.statement ienv senv = some s') : Follows ienv processLog s' := by
  cases hservice : s.point.inService with
  | true =>
      obtain ⟨p, hinit, hkept⟩ := (followsAt_inService hservice).1 hinv
      obtain ⟨hpt | hpt, hkept'⟩ := Process.statement_inService hservice h
      · exact (followsAt_inService hpt).2 ⟨p, hinit, hkept.trans hkept'⟩
      · rw [Follows, hpt]
        exact ⟨0, p, hinit, hkept.trans hkept'⟩
  | false =>
      obtain ⟨point, proxy, locals, registered, handled, callbacks, effects⟩ := s
      cases point with
      | registerSignals rest =>
          have hq : proxy = Proxy.new processLog := hinv
          subst hq
          cases rest with
          | nil =>
              cases h
              exact ⟨[], _, rfl, rfl, ⟨false, rfl⟩, fun _ => rfl⟩
          | cons sig rest =>
              cases h
              rfl
      | init rest =>
          cases rest with
          | nil => cases h
          | cons stmt rest =>
              obtain ⟨done, p, hsplit, hrun, isReady, hexec⟩ := exec_follows hinv
              simp only [Process.statement, hexec] at h
              cases hp : stmt.exec ienv p with
              | next p' =>
                  simp only [hp, Flow.map] at h
                  cases h
                  refine ⟨done ++ [stmt], p', by simpa using hsplit, ?_, ⟨isReady, rfl⟩, by simp⟩
                  rw [runStmts_snoc hrun, hp]
              | ret iRet p' =>
                  simp only [hp, Flow.map] at h
                  cases h
                  refine ⟨p', ?_, ⟨isReady, rfl⟩⟩
                  rw [init, hsplit, runStmts_append, hrun]
                  simp only [runStmts, hp]
              | stuck p' =>
                  simp only [hp, Flow.map] at h
                  cases h
      | initReturned iRet =>
          obtain ⟨p, hinit, halike⟩ := hinv
          cases h
          simp only [Follows]
          split
          · exact ⟨iRet, p, hinit, halike.kept⟩
          · next hzero =>
              have hzero' : iRet = 0 := not_not.1 hzero
              exact ⟨p, hzero' ▸ hinit, halike.kept⟩
      | mainReturned => cases h
      | _ => cases hservice

/-- A handled signal only lowers the flag. -/
theorem Process.deliver_cases {ienv : InitEnv} {senv : ServiceEnv} {s s' : Process} {signum : ℕ}
    (h : s.step ienv senv (.deliver signum) = some s') :
    s.proxy.logger = true ∧ ∃ p n, s' = { s with proxy := p, handled := n } ∧
      (p = s.proxy ∨ p = { s.proxy with isReady := false }) := by
  simp only [Process.step, Proxy.signalHandle] at h
  split_ifs at h with hreg hterm hlog hlog
  · cases h
    exact ⟨hlog, _, _, rfl, Or.inr rfl⟩
  · cases h
  · cases h
    exact ⟨hlog, _, _, rfl, Or.inl rfl⟩
  · cases h

theorem Follows.step {ienv : InitEnv} {senv : ServiceEnv} {processLog : Option Bytes}
    {s s' : Process} {e : Event} (hinv : Follows ienv processLog s)
    (h : s.step ienv senv e = some s') : Follows ienv processLog s' := by
  cases e with
  | statement => exact hinv.statement h
  | deliver signum =>
      obtain ⟨-, p, n, rfl, rfl | rfl⟩ := Process.deliver_cases h
      · exact hinv
      · have hkept : s.proxy.Kept { s.proxy with isReady := false } := ⟨rfl, rfl, rfl, rfl⟩
        unfold Follows at hinv ⊢
        dsimp only
        generalize s.point = pt at hinv
        generalize s.proxy = q at hinv hkept
        cases pt with
        | registerSignals rest =>
            subst hinv
            rfl
        | init rest =>
            obtain ⟨done, p, hsplit, hrun, ⟨isReady, rfl⟩, -⟩ := hinv
            exact ⟨done, p, hsplit, hrun, ⟨false, rfl⟩, fun _ => rfl⟩
        | initReturned iRet =>
            obtain ⟨p, hinit, isReady, rfl⟩ := hinv
            exact ⟨p, hinit, false, rfl⟩
        | mainReturned =>
            obtain ⟨iRet, p, hinit, hp⟩ := hinv
            exact ⟨iRet, p, hinit, hp.trans hkept⟩
        | _ =>
            obtain ⟨p, hinit, hp⟩ := hinv
            exact ⟨p, hinit, hp.trans hkept⟩

/-- In `startService` and behind it the object is the one `init` left. -/
theorem Follows.kept {ienv : InitEnv} {processLog : Option Bytes} {iRet : ℤ} {p : Proxy}
    (hinit : init ienv (Proxy.new processLog) = .ret iRet p) {s : Process}
    (hfol : Follows ienv processLog s)
    (hpt : s.point.inService = true ∨ s.point = .mainReturned) : p.Kept s.proxy := by
  rcases hpt with hpt | hpt
  · obtain ⟨p', hinit', hkept⟩ := (followsAt_inService hpt).1 hfol
    cases hinit.symm.trans hinit'
    exact hkept
  · rw [Follows, hpt] at hfol
    obtain ⟨iRet', p', hinit', hkept⟩ := hfol
    cases hinit.symm.trans hinit'
    exact hkept

/-! ## A run to `startService` -/

/-- Without signals `main` executes `init` to its return. -/
theorem exists_exec_init (ienv : InitEnv) (senv : ServiceEnv) {stmts : List InitStmt} {iRet : ℤ}
    {q : Proxy} (s : Process) (hpoint : s.point = .init stmts)
    (h : runStmts ienv stmts s.proxy = .ret iRet q) :
    ∃ run, Transition.exec (Process.step ienv senv) s run =
      some { s with point := .initReturned iRet, proxy := q } := by
  induction stmts generalizing s with
  | nil => cases h
  | cons stmt rest ih =>
      rw [runStmts] at h
      cases hexec : stmt.exec ienv s.proxy with
      | next p =>
          rw [hexec] at h
          have hstep : s.step ienv senv .statement = some { s with point := .init rest, proxy := p } := by
            simp only [Process.step, Process.statement, hpoint, hexec]
          obtain ⟨run, hrun⟩ := ih { s with point := .init rest, proxy := p } rfl h
          exact ⟨.statement :: run, by rw [Transition.exec, hstep]; exact hrun⟩
      | ret iRet' p =>
          rw [hexec] at h
          cases h
          refine ⟨[.statement], ?_⟩
          simp only [Transition.exec, Process.step, Process.statement, hpoint, hexec,
            Option.bind_some]
      | stuck p =>
          rw [hexec] at h
          cases h

/-- After an `init` that succeeds, some run comes to the first thread index. -/
theorem exists_exec_forThread {ienv : InitEnv} (senv : ServiceEnv) {processLog : Option Bytes}
    {p : Proxy} (h : init ienv (Proxy.new processLog) = .ret 0 p) :
    ∃ run s, Transition.exec (Process.step ienv senv) (Process.new processLog) run = some s ∧
      s.point = .forThread 0 ∧ s.proxy = p := by
  have hready : p.isReady = true := by
    rcases init_ret_cases h with ⟨-, hne, -⟩ | ⟨-, hready, -⟩
    · exact absurd rfl hne
    · exact hready rfl
  obtain ⟨run, hrun⟩ := exists_exec_init ienv senv
    { Process.new processLog with point := .init initStmts, registered := terminationSignals } rfl h
  have hbegin : Transition.exec (Process.step ienv senv) (Process.new processLog)
      (List.replicate 5 .statement) = some { Process.new processLog with
        point := .init initStmts, registered := terminationSignals } := rfl
  refine ⟨List.replicate 5 .statement ++ (run ++ [.statement, .statement]),
    { Process.new processLog with
      point := .forThread 0, proxy := p, registered := terminationSignals },
    Transition.exec_append hbegin (Transition.exec_append hrun ?_), rfl, rfl⟩
  simp only [Transition.exec, Process.step, Process.statement, hready, ne_eq, not_true, if_true,
    if_false, Option.bind_some]

end FileCacheProxy
