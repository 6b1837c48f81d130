import FileCacheProxy.ConfigReader
import FileCacheProxy.Handlers
import Mathlib

set_option autoImplicit false

/-! # `fileCacheProxy::init`

The data members of the class and the statements of `init`, one after the other. `init` is straight
code with early returns, so it is a list of statements: running them all is the call itself, and a
suffix of the list is a point at which a signal may arrive. What the system answers is in `InitEnv`;
each question is asked at most once in a call. -/

namespace FileCacheProxy

/-! ## The object -/

/-- `std::threadpool`: how many threads it made, and the event bases committed and not yet taken. -/
structure ThreadPool where
  threads : ℕ
  tasks : List ℕ

/-- `THREADPOOL_MAX_NUM` -/
def THREADPOOL_MAX_NUM : ℕ := 16

/-- `threadpool(unsigned short size)`: the argument is converted, and `addThread` stops at the
    maximum. -/
def ThreadPool.new (size : ℤ) : ThreadPool :=
  ⟨min THREADPOOL_MAX_NUM (size % 2 ^ 16).toNat, []⟩

/-- The members of `fileCacheProxy`, the local `myConfig` of `init`, and `processLog`, the content of
    the file `records/process.log` (`none`: there is no such file). -/
structure Proxy where
  isReady : Bool
  /-- `m_fc_rotating_logger` is not null. -/
  logger : Bool
  /-- `fFileID` is open. -/
  fFileID : Bool
  localhost : Bytes
  port : ℕ
  ThreadCount : ℤ
  expiredays : ℤ
  mClientConfPath : Bytes
  listenfd : Option ℤ
  mThreadPool : Option ThreadPool
  threadParams : List ThreadParam
  myConfig : Config
  processLog : Option Bytes

/-- `configFileName` -/
def configFileName : Bytes := ascii "fileCacheProxy.conf"

/-- `PATH_LEN` -/
def PATH_LEN : ℕ := 256

/-- The object of a new process that finds the given record file. -/
def Proxy.new (processLog : Option Bytes) : Proxy where
  isReady := false
  logger := false
  fFileID := false
  localhost := []
  port := 0
  ThreadCount := 0
  expiredays := 0
  mClientConfPath := List.replicate PATH_LEN NUL
  listenfd := none
  mThreadPool := none
  threadParams := []
  myConfig := Config.new configFileName
  processLog := processLog

/-! ## The statements -/

/-- What the system answers during one call of `init`. A log file that cannot be opened is not among
    the answers: then `rotating_logger_mt` throws, nobody catches that, and the process is gone before
    it has opened the record. -/
structure InitEnv where
  /-- `records/process.log` can be opened for writing. -/
  recordOpens : Bool
  fs : Bytes → Option Bytes
  /-- The passes `Config::Load` is given to finish. -/
  loadPasses : ℕ
  fileExists : Bytes → Bool
  socket : ℤ
  setsockopt : ℤ
  bind : Bytes → ℕ → ℤ
  listen : ℤ
  fdfsClientInit : Bytes → ℤ

/-- How a statement ends: on to the next one, out of the function, or not at all. -/
inductive Flow where
  | next (p : Proxy)
  | ret (iRet : ℤ) (p : Proxy)
  | stuck (p : Proxy)

inductive InitStmt where
  | checkReady
  | getWorkDir
  | mkdirLog
  | mkdirRecord
  | setPattern
  | newLogger
  | flushOn
  | logInitialized
  | openRecord
  | loadConfig
  | readLocalhost
  | readPort
  | readThreadCount
  | readExpiredays
  | readClientConfPath
  | socket
  | setsockopt
  | bind
  | listen
  | newThreadPool
  | logInit
  | fdfsClientInit
  | setReady
  | returnSuccess
  deriving DecidableEq

/-- `strncpy` into `mClientConfPath`. -/
def strncpyPath (s : Bytes) : Bytes :=
  (cstr s ++ List.replicate PATH_LEN NUL).take PATH_LEN

def InitStmt.exec (env : InitEnv) (p : Proxy) : InitStmt → Flow
  | .checkReady => if p.isReady then .ret 0 p else .next p
  -- directory and file names; a directory that cannot be made is only reported
  | .getWorkDir | .mkdirLog | .mkdirRecord | .setPattern => .next p
  | .newLogger => .next { p with logger := true }
  | .flushOn | .logInitialized => .next p
  | .openRecord =>
      -- `std::ofstream(mProclogFile)`: opening for output empties the file
      if env.recordOpens then .next { p with fFileID := true, processLog := some [] }
      else .next { p with fFileID := false }
  | .loadConfig =>
      match (Config.new configFileName).load env.fs env.loadPasses with
      | none => .stuck p
      | some (result, myConfig) =>
          if result ≠ 0 then .ret ERR_DO_NOT_EXIST p else .next { p with myConfig := myConfig }
  | .readLocalhost =>
      let strVal := p.myConfig.getValueChars (ascii "localhost")
      if strVal.isEmpty then .ret ERR_PARAM p else .next { p with localhost := strVal }
  | .readPort =>
      let strVal := p.myConfig.getValueChars (ascii "port")
      if strVal.isEmpty then .ret ERR_PARAM p
      else
        -- `port` is a `uint16_t`
        let port := (str2int strVal % 2 ^ 16).toNat
        if port < 0 ∨ port > 65535 then .ret ERR_PARAM { p with port := port }
        else .next { p with port := port }
  | .readThreadCount =>
      let strVal := p.myConfig.getValueChars (ascii "ThreadCount")
      if strVal.isEmpty then .next { p with ThreadCount := 1 }
      else .next { p with ThreadCount := if str2int strVal < 1 then 1 else str2int strVal }
  | .readExpiredays =>
      let strVal := p.myConfig.getValueChars (ascii "expiredays")
      if strVal.isEmpty then .next { p with expiredays := 7 }
      else .next { p with expiredays := if str2int strVal < 0 then 7 else str2int strVal }
  | .readClientConfPath =>
      let strVal := p.myConfig.getValueChars (ascii "clientConfPath")
      if env.fileExists strVal then .next { p with mClientConfPath := strncpyPath strVal }
      else .ret ERR_PARAM p
  | .socket =>
      let p := { p with listenfd := some env.socket }
      if env.socket < 0 then .ret ERR_NETWORK p else .next p
  | .setsockopt => if env.setsockopt < 0 then .ret ERR_NETWORK p else .next p
  | .bind => if env.bind p.localhost p.port < 0 then .ret ERR_NETWORK p else .next p
  | .listen => if env.listen < 0 then .ret ERR_NETWORK p else .next p
  | .newThreadPool => .next { p with mThreadPool := some (ThreadPool.new p.ThreadCount) }
  | .logInit => .next p
  | .fdfsClientInit =>
      if env.fdfsClientInit (cstr p.mClientConfPath) ≠ 0 then .ret ERR_TRACKER p else .next p
  | .setReady => .next { p with isReady := true }
  | .returnSuccess => .ret SUCCESS p

/-- The body of `init`. -/
def initStmts : List InitStmt :=
  [.checkReady, .getWorkDir, .mkdirLog, .mkdirRecord, .setPattern, .newLogger, .flushOn,
    .logInitialized, .openRecord, .loadConfig, .readLocalhost, .readPort, .readThreadCount,
    .readExpiredays, .readClientConfPath, .socket, .setsockopt, .bind, .listen, .newThreadPool,
    .logInit, .fdfsClientInit, .setReady, .returnSuccess]

/-- Statement after statement. -/
def runStmts (env : InitEnv) : List InitStmt → Proxy → Flow
  | [], p => .next p
  | stmt :: rest, p =>
      match stmt.exec env p with
      | .next p' => runStmts env rest p'
      | flow => flow

/-- A call of `init` that no signal interrupts. -/
def init (env : InitEnv) (p : Proxy) : Flow :=
  runStmts env initStmts p

/-! ## What the statements leave alone -/

/-- The object at the end of a statement. -/
def Flow.proxy : Flow → Proxy
  | .next p => p
  | .ret _ p => p
  | .stuck p => p

/-- What a statement leaves alone: a member is set only by the statement that is there for it. -/
structure InitStmt.Frame (stmt : InitStmt) (p q : Proxy) : Prop where
  isReady : stmt ≠ .setReady → q.isReady = p.isReady
  logger : stmt ≠ .newLogger → q.logger = p.logger
  fFileID : stmt ≠ .openRecord → q.fFileID = p.fFileID
  processLog : stmt ≠ .openRecord → q.processLog = p.processLog
  port : stmt ≠ .readPort → q.port = p.port
  ThreadCount : stmt ≠ .readThreadCount → q.ThreadCount = p.ThreadCount
  listenfd : stmt ≠ .socket → q.listenfd = p.listenfd
  mThreadPool : stmt ≠ .newThreadPool → q.mThreadPool = p.mThreadPool
  threadParams : q.threadParams = p.threadParams

theorem InitStmt.exec_frame (env : InitEnv) (p : Proxy) (stmt : InitStmt) :
    stmt.Frame p (stmt.exec env p).proxy := by
  have hsame : ∀ stmt' : InitStmt, stmt'.Frame p p := fun _ =>
    ⟨fun _ => rfl, fun _ => rfl, fun _ => rfl, fun _ => rfl, fun _ => rfl, fun _ => rfl,
      fun _ => rfl, fun _ => rfl, rfl⟩
  cases stmt with
  | loadConfig =>
      simp only [InitStmt.exec]
      split
      · exact hsame _
      · split_ifs
        · exact hsame _
        · exact ⟨fun _ => rfl, fun _ => rfl, fun _ => rfl, fun _ => rfl, fun _ => rfl, fun _ => rfl,
            fun _ => rfl, fun _ => rfl, rfl⟩
  | _ =>
      simp only [InitStmt.exec]
      (try split_ifs) <;> refine ⟨fun h => ?_, fun h => ?_, fun h => ?_, fun h => ?_, fun h => ?_,
        fun h => ?_, fun h => ?_, fun h => ?_, rfl⟩ <;> first | rfl | exact absurd rfl h

/-- What every statement keeps, the function keeps. -/
theorem runStmts_keeps {env : InitEnv} {Q : Proxy → Prop} {stmts : List InitStmt}
    (hstep : ∀ stmt ∈ stmts, ∀ p, Q p → Q (stmt.exec env p).proxy) {p : Proxy} (h : Q p) :
    Q (runStmts env stmts p).proxy := by
  induction stmts generalizing p with
  | nil => exact h
  | cons stmt rest ih =>
      obtain ⟨hfirst, hrest⟩ := List.forall_mem_cons.1 hstep
      have hp := hfirst p h
      unfold runStmts
      cases hexec : stmt.exec env p with
      | next p' =>
          rw [hexec] at hp
          exact ih hrest hp
      | ret iRet p' =>
          rw [hexec] at hp
          exact hp
      | stuck p' =>
          rw [hexec] at hp
          exact hp

theorem runStmts_append (env : InitEnv) (stmts rest : List InitStmt) (p : Proxy) :
    runStmts env (stmts ++ rest) p =
      match runStmts env stmts p with
      | .next q => runStmts env rest q
      | flow => flow := by
  induction stmts generalizing p with
  | nil => rfl
  | cons stmt stmts ih =>
      rw [List.cons_append, runStmts, runStmts]
      cases stmt.exec env p with
      | next q => exact ih q
      | ret iRet q => rfl
      | stuck q => rfl

theorem runStmts_append_next {env : InitEnv} {stmts rest : List InitStmt} {p q : Proxy} :
    runStmts env (stmts ++ rest) p = .next q ↔
      ∃ r, runStmts env stmts p = .next r ∧ runStmts env rest r = .next q := by
  rw [runStmts_append]
  cases runStmts env stmts p with
  | next r => simp
  | ret iRet r => simp
  | stuck r => simp

/-- A run that goes on behind a list of statements has gone on behind each of them. -/
theorem exists_of_runStmts_next {env : InitEnv} {stmts : List InitStmt} (stmt : InitStmt)
    (hmem : stmt ∈ stmts) {p q : Proxy} (hrun : runStmts env stmts p = .next q) :
    ∃ before after r r', stmts = before ++ stmt :: after ∧ stmt.exec env r = .next r' ∧
      runStmts env after r' = .next q := by
  obtain ⟨before, after, rfl⟩ := List.append_of_mem hmem
  obtain ⟨r, -, hrest⟩ := runStmts_append_next.1 hrun
  rw [← List.singleton_append, runStmts_append_next] at hrest
  obtain ⟨r', hone, hafter⟩ := hrest
  refine ⟨before, after, r, r', rfl, ?_, hafter⟩
  rw [runStmts] at hone
  cases hexec : stmt.exec env r with
  | next r'' =>
      rw [hexec] at hone
      exact hone
  | ret iRet r'' =>
      rw [hexec] at hone
      cases hone
  | stuck r'' =>
      rw [hexec] at hone
      cases hone

/-- However `init` ends, it has emptied the record file if it could open it. -/
theorem init_record (env : InitEnv) {p : Proxy} (h : p.isReady = false) :
    (init env p).proxy.processLog = (if env.recordOpens then some [] else p.processLog) ∧
      (init env p).proxy.fFileID = env.recordOpens := by
  have hrest : init env p = runStmts env (initStmts.drop 9)
      (if env.recordOpens then { p with logger := true, fFileID := true, processLog := some [] }
        else { p with logger := true, fFileID := false }) := by
    unfold init initStmts
    cases hopen : env.recordOpens <;>
      simp only [runStmts, InitStmt.exec, h, hopen, List.drop, if_true, if_false, Bool.false_eq_true]
  rw [hrest]
  refine runStmts_keeps (Q := fun q => q.processLog = (if env.recordOpens then some []
    else p.processLog) ∧ q.fFileID = env.recordOpens) ?_ ?_
  · intro stmt hmem q hq
    have hne : stmt ≠ .openRecord := by
      rintro rfl
      exact absurd hmem (by decide)
    have hframe := stmt.exec_frame env q
    exact ⟨(hframe.processLog hne).trans hq.1, (hframe.fFileID hne).trans hq.2⟩
  · cases env.recordOpens <;> exact ⟨rfl, rfl⟩

/-- A start in which everything succeeds. -/
def helloStart : InitEnv where
  recordOpens := true
  fs _ := some (ascii "localhost=127.0.0.1\nport=8080\nclientConfPath=client.conf")
  loadPasses := 3
  fileExists _ := true
  socket := 3
  setsockopt := 0
  bind _ _ := 0
  listen := 0
  fdfsClientInit _ := 0

/-! ## The port -/

/-- `init` goes past its port check. -/
def PastPortCheck (env : InitEnv) (p : Proxy) : Prop :=
  ∃ q, runStmts env (initStmts.takeWhile (· ≠ .readThreadCount)) p = .next q

/-- What the port check is for, when `n` is the configured number: a port number is accepted and
    bound as it is, anything else is refused. -/
structure PortLaw (env : InitEnv) (p : Proxy) (n : ℤ) : Prop where
  past_iff : PastPortCheck env p ↔ 0 ≤ n ∧ n ≤ 65535
  binds : PastPortCheck env p →
    ∀ q, runStmts env (initStmts.takeWhile (· ≠ .bind)) p = .next q → (q.port : ℤ) = n
  refuses : ¬ (0 ≤ n ∧ n ≤ 65535) → ∃ q, init env p = .ret ERR_PARAM q

/-- The check of a `uint16_t` against 0 and 65535 never fails: with a non-empty text `init` goes on,
    and the port is what is left of the number after both conversions. -/
theorem pastPortCheck {env : InitEnv} {p : Proxy} (hready : p.isReady = false) {c : Config}
    (hload : (Config.new configFileName).load env.fs env.loadPasses = some (0, c))
    (hhost : c.getValueChars (ascii "localhost") ≠ [])
    (hport : c.getValueChars (ascii "port") ≠ []) :
    ∃ q, runStmts env (initStmts.takeWhile (· ≠ .readThreadCount)) p = .next q ∧
      q.port = (str2int (c.getValueChars (ascii "port")) % 2 ^ 16).toNat := by
  have hstmts : initStmts.takeWhile (· ≠ .readThreadCount) =
      [.checkReady, .getWorkDir, .mkdirLog, .mkdirRecord, .setPattern, .newLogger, .flushOn,
        .logInitialized, .openRecord, .loadConfig, .readLocalhost, .readPort] := by decide
  have hrange : ¬ ((str2int (c.getValueChars (ascii "port")) % 2 ^ 16).toNat < 0 ∨
      (str2int (c.getValueChars (ascii "port")) % 2 ^ 16).toNat > 65535) := by omega
  have hhost' : (c.getValueChars (ascii "localhost")).isEmpty = false := by simpa using hhost
  have hport' : (c.getValueChars (ascii "port")).isEmpty = false := by simpa using hport
  rw [hstmts]
  cases hopen : env.recordOpens <;>
    simp only [runStmts, InitStmt.exec, hready, hopen, hload, hhost', hport', ne_eq, not_true,
      if_true, if_false, Bool.false_eq_true, if_neg hrange] <;>
    exact ⟨_, rfl, rfl⟩

/-- **The port check does its work exactly on port numbers**: for every text given for `port`, the
    number `strtol` reads is accepted, bound or refused as it should be if and only if it is a port
    number. -/
theorem portLaw_iff {env : InitEnv} {p : Proxy} (hready : p.isReady = false) {c : Config}
    (hload : (Config.new configFileName).load env.fs env.loadPasses = some (0, c))
    (hhost : c.getValueChars (ascii "localhost") ≠ [])
    (hport : c.getValueChars (ascii "port") ≠ []) :
    PortLaw env p (strtol (c.getValueChars (ascii "port"))) ↔
      0 ≤ strtol (c.getValueChars (ascii "port")) ∧
        strtol (c.getValueChars (ascii "port")) ≤ 65535 := by
  obtain ⟨q, hrun, hq⟩ := pastPortCheck hready hload hhost hport
  refine ⟨fun hlaw => hlaw.past_iff.1 ⟨q, hrun⟩, fun hn => ?_⟩
  refine ⟨iff_of_true ⟨q, hrun⟩ hn, fun _ r hr => ?_, fun hno => absurd hn hno⟩
  -- between the check and `bind` nothing touches the port
  have hstmts : initStmts.takeWhile (· ≠ .bind) = initStmts.takeWhile (· ≠ .readThreadCount) ++
      [.readThreadCount, .readExpiredays, .readClientConfPath, .socket, .setsockopt] := by decide
  rw [hstmts, runStmts_append, hrun] at hr
  have hkeep : (runStmts env [.readThreadCount, .readExpiredays, .readClientConfPath, .socket,
      .setsockopt] q).proxy.port = q.port := by
    refine runStmts_keeps (Q := fun q' => q'.port = q.port) (fun stmt hmem q' hq' => ?_) rfl
    have hne : stmt ≠ .readPort := by
      rintro rfl
      exact absurd hmem (by decide)
    exact ((stmt.exec_frame env q').port hne).trans hq'
  have hrport : r.port = q.port := by
    have hflow : (Flow.next r).proxy.port = q.port := hr ▸ hkeep
    exact hflow
  have hwrap : str2int (c.getValueChars (ascii "port"))
      = strtol (c.getValueChars (ascii "port")) := by
    rw [str2int, Int.bmod_eq_of_le] <;> omega
  rw [hrport, hq, hwrap]
  omega

/-- The configuration of `helloStart` and its port. -/
theorem portLaw_iff_hello :
    PortLaw helloStart (Proxy.new none) 8080 := by
  obtain ⟨c, hload, hhost, hport⟩ : ∃ c,
      (Config.new configFileName).load helloStart.fs helloStart.loadPasses = some (0, c) ∧
        c.getValueChars (ascii "localhost") = ascii "127.0.0.1" ∧
        c.getValueChars (ascii "port") = ascii "8080" := ⟨_, rfl, by decide, by decide⟩
  have hlaw := portLaw_iff (p := Proxy.new none) rfl hload
    (by rw [hhost]; decide) (by rw [hport]; decide)
  rw [hport] at hlaw
  exact hlaw.2 (by decide)

/-- `port=65616` is accepted, and port 80 is bound. -/
def wrappedPort : InitEnv :=
  { helloStart with
    fs := fun _ => some (ascii "localhost=127.0.0.1\nport=65616\nclientConfPath=client.conf") }

theorem port_wraps :
    (∃ q, runStmts wrappedPort (initStmts.takeWhile (· ≠ .bind)) (Proxy.new none) = .next q ∧
      q.port = 80) ∧
      strtol (ascii "65616") = 65616 ∧ ¬ PortLaw wrappedPort (Proxy.new none) 65616 := by
  refine ⟨⟨_, rfl, by decide⟩, by decide, fun hlaw => ?_⟩
  exact absurd (hlaw.past_iff.1 ⟨_, rfl⟩) (by decide)

end FileCacheProxy
