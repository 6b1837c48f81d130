import FileCacheProxy.Setup
import Mathlib

set_option autoImplicit false

/-! # What `startService` ends up with

Two laws of the set-up: every worker it starts can talk to the tracker, and a service that waits has
a worker while one that fails has none. `SetUp` reduces both to the answers of the outside world, and
`exists_exec_setUpEnded` provides the run that shows a bad answer to be bad. -/

namespace FileCacheProxy

/-! ## The entries of a run -/

/-- There are no entries before `startService`. -/
theorem SetUp.inService_of_mem {senv : ServiceEnv} {s : Process} (h : SetUp senv s)
    {tp : ThreadParam} (hmem : tp ∈ s.proxy.threadParams) :
    s.point.inService = true ∨ s.point = .mainReturned := by
  have hnone : SetUpTo senv s.setup 0 → tp ∉ s.proxy.threadParams := by
    intro hup hmem'
    have hparams : s.proxy.threadParams = [] := hup.params
    rw [hparams] at hmem'
    cases hmem'
  unfold SetUp at h
  cases hpt : s.point with
  | registerSignals rest =>
      rw [hpt] at h
      exact absurd hmem (hnone h)
  | init rest =>
      rw [hpt] at h
      exact absurd hmem (hnone h)
  | initReturned iRet =>
      rw [hpt] at h
      exact absurd hmem (hnone h)
  | mainReturned => exact Or.inr rfl
  | _ => exact Or.inl rfl

/-- Behind an `init` that succeeded, every entry belongs to one of the configured indices. -/
theorem exists_param_of_mem {ienv : InitEnv} {senv : ServiceEnv} {processLog : Option Bytes}
    {p : Proxy} (hinit : init ienv (Proxy.new processLog) = .ret 0 p) {run : List Event} {s : Process}
    (hrun : Transition.exec (Process.step ienv senv) (Process.new processLog) run = some s)
    {tp : ThreadParam} (hmem : tp ∈ s.proxy.threadParams) :
    ∃ i : ℕ, i < p.ThreadCount ∧ senv.param i = some tp := by
  have hup := setUp_of_exec hrun
  have hkept := (follows_of_exec hrun).kept hinit (hup.inService_of_mem hmem)
  obtain ⟨-, n, -, hle, hparams, -⟩ := SetUpAt.made hup
  have hstarted : tp ∈ senv.started n := hparams ▸ hmem
  obtain ⟨i, hi, hparam⟩ := ServiceEnv.mem_started.1 hstarted
  have hcount : s.setup.ThreadCount = p.ThreadCount := hkept.ThreadCount
  exact ⟨i, by omega, hparam⟩

/-- The event loops handed to the pool. -/
def Process.committed (s : Process) : List ℕ :=
  (s.proxy.mThreadPool.map ThreadPool.tasks).getD []

/-- Behind an `init` that succeeded there is a pool, and what is committed are the event bases of
    the indices done. -/
theorem SetUpTo.committed {ienv : InitEnv} {senv : ServiceEnv} {processLog : Option Bytes}
    {p : Proxy} (hinit : init ienv (Proxy.new processLog) = .ret 0 p) {s : Process}
    (hkept : p.Kept s.proxy) {n : ℕ} (hup : SetUpTo senv s.setup n) :
    s.committed = (senv.started n).map ThreadParam.ev := by
  have hpool : p.mThreadPool = some (ThreadPool.new p.ThreadCount) := by
    rcases init_ret_cases hinit with ⟨-, hne, -⟩ | ⟨-, -, hpool, -⟩
    · exact absurd rfl hne
    · exact hpool
  have hthreads := hkept.threads
  rw [hpool] at hthreads
  obtain ⟨pool, hsome, -⟩ := Option.map_eq_some_iff.1 hthreads
  rw [Process.committed, hsome]
  exact hup.tasks pool hsome

/-- The set-up ends in the wait loop with all indices done, or at the first one that is refused. -/
theorem SetUp.ended_cases {senv : ServiceEnv} {s : Process} (h : SetUp senv s)
    (hend : s.point.setUpEnded = true) :
    (s.point = .whileReady ∧ SetUpTo senv s.setup s.proxy.ThreadCount.toNat) ∨
    (s.point = .serviceReturned ERR_EV_NEW ∧
      ∃ i < s.proxy.ThreadCount.toNat, senv.Refused i ∧ SetUpTo senv s.setup i) := by
  unfold SetUp at h
  cases hpt : s.point with
  | whileReady =>
      rw [hpt] at h
      exact Or.inl ⟨rfl, h⟩
  | serviceReturned code =>
      rw [hpt] at h hend
      rcases h with ⟨hcode, -⟩ | ⟨hcode, hrefused⟩ | ⟨hcode, -⟩
      · rw [hcode] at hend
        exact absurd hend (by decide)
      · exact Or.inr ⟨by rw [hcode], hrefused⟩
      · rw [hcode] at hend
        exact absurd hend (by decide)
  | _ =>
      rw [hpt] at hend
      cases hend

/-- Where no `evhttp_accept_socket` fails, all indices are done when the set-up has ended. -/
theorem SetUp.setUpTo_of_ended {senv : ServiceEnv} {s : Process} (h : SetUp senv s)
    (hend : s.point.setUpEnded = true) (hacc : ∀ i, senv.acceptSocket i = 0) :
    SetUpTo senv s.setup s.proxy.ThreadCount.toNat := by
  rcases h.ended_cases hend with ⟨-, hup⟩ | ⟨-, i, -, hrefused, -⟩
  · exact hup
  · exact absurd (hacc i) hrefused.2

theorem Point.inService_of_setUpEnded {pt : Point} (h : pt.setUpEnded = true) :
    pt.inService = true := by
  cases pt <;> first | rfl | cases h

/-! ## Usable workers -/

/-- The tracker answers with `get`: in every run, every entry has a connection, and an index is given
    up only after 16 attempts that returned none. -/
def OnlyUsable (ienv : InitEnv) (get : ℕ → ℕ → ℕ × Option ConnectionInfo)
    (processLog : Option Bytes) : Prop :=
  ∀ senv : ServiceEnv, senv.trackerGetConnection = get → ∀ run s,
    Transition.exec (Process.step ienv senv) (Process.new processLog) run = some s →
    (∀ tp ∈ s.proxy.threadParams, tp.connectResult ≠ none) ∧
    ∀ i testNum, s.point = .afterTests i testNum → testNum ≥ MAX_CONNECTION_TEST →
      testNum = MAX_CONNECTION_TEST ∧ ∀ t < testNum, (get i t).2 = none

/-- **Only usable workers are started exactly when, for each thread index, the first attempt that
    leaves `info->count > 0` also returns a connection**: that attempt ends the retry loop. -/
theorem onlyUsable_iff {ienv : InitEnv} {get : ℕ → ℕ → ℕ × Option ConnectionInfo}
    {processLog : Option Bytes} {p : Proxy}
    (hinit : init ienv (Proxy.new processLog) = .ret 0 p)
    (hget : ∀ i t, (get i t).2 ≠ none → 0 < (get i t).1) :
    OnlyUsable ienv get processLog ↔
      ∀ i t : ℕ, i < p.ThreadCount → t < MAX_CONNECTION_TEST → 0 < (get i t).1 →
        (∀ t' < t, (get i t').1 = 0) → (get i t).2 ≠ none := by
  constructor
  · intro h i t hi ht hpos hbefore
    -- a libevent that never fails starts every index that gets out of its retry loop
    let senv : ServiceEnv := ⟨get, fun i => some i, fun i => some i, fun _ => 0⟩
    obtain ⟨run, s, hrun, hend, hcount⟩ := exists_exec_setUpEnded senv hinit
    have hparam : senv.param i = some ⟨i, i, i, i, (get i t).2⟩ :=
      ServiceEnv.param_eq_some_iff.2 ⟨t, i, i, ServiceEnv.attempt_eq_some_iff.2 ⟨hpos, ht, hbefore⟩,
        rfl, rfl, rfl⟩
    have hup := (setUp_of_exec hrun).setUpTo_of_ended hend (fun _ => rfl)
    refine (h senv rfl run s hrun).1 ⟨i, i, i, i, (get i t).2⟩ ?_
    have hparams : s.proxy.threadParams = senv.started s.proxy.ThreadCount.toNat := hup.params
    rw [hparams, ServiceEnv.mem_started]
    exact ⟨i, by omega, hparam⟩
  · intro hcond senv hsenv run s hrun
    subst hsenv
    refine ⟨fun tp hmem => ?_, fun i testNum hpt hge => ?_⟩
    · obtain ⟨i, hi, hparam⟩ := exists_param_of_mem hinit hrun hmem
      obtain ⟨t, ev, ev_listen, hattempt, -, -, rfl⟩ := ServiceEnv.param_eq_some_iff.1 hparam
      obtain ⟨hpos, ht, hbefore⟩ := ServiceEnv.attempt_eq_some_iff.1 hattempt
      exact hcond i t hi ht hpos hbefore
    · have hset := setUp_of_exec hrun
      rw [SetUp, hpt] at hset
      rcases hset with ⟨heq, -, hnone⟩ | ⟨hlt, -⟩
      · refine ⟨heq, fun t ht => ?_⟩
        by_contra hsome
        have hzero := ServiceEnv.attempt_eq_none_iff.1 hnone t (heq ▸ ht)
        exact absurd (hget i t hsome) (by omega)
      · omega

theorem onlyUsable_iff_hello :
    OnlyUsable helloStart (fun i _ => (1, some i)) none :=
  (onlyUsable_iff (p := (init helloStart (Proxy.new none)).proxy) rfl
    (fun _ _ _ => Nat.one_pos)).2 (fun _ _ _ _ _ _ => by simp)

/-- A tracker that fills in the server list and does not connect. -/
def deafService : ServiceEnv :=
  { helloService with trackerGetConnection := fun _ _ => (1, none) }

/-- Statements of `main` up to the first commit. -/
def firstCommit : List Event :=
  List.replicate 50 Event.statement

/-- The first attempt fails, and the worker is committed without a connection. -/
theorem unusable_worker_started :
    ∃ s, Transition.exec (Process.step helloStart deafService) (Process.new none) firstCommit
        = some s ∧
      s.point = .forThread 1 ∧ s.proxy.threadParams = [⟨0, 0, 0, 0, none⟩] ∧
      s.committed = [0] ∧ ¬ OnlyUsable helloStart (fun _ _ => (1, none)) none := by
  obtain ⟨s, hrun, hpoint, hparams, hcommitted⟩ : ∃ s,
      Transition.exec (Process.step helloStart deafService) (Process.new none) firstCommit
          = some s ∧
        s.point = .forThread 1 ∧ s.proxy.threadParams = [⟨0, 0, 0, 0, none⟩] ∧ s.committed = [0] :=
    ⟨_, rfl, rfl, rfl, rfl⟩
  refine ⟨s, hrun, hpoint, hparams, hcommitted, fun h => ?_⟩
  exact (h deafService rfl firstCommit s hrun).1 ⟨0, 0, 0, 0, none⟩ (by simp [hparams]) rfl

/-! ## No service without a server -/

/-- In every run: when the wait loop is reached an event loop has been committed, and when
    `startService` returns an error none has. -/
def ServesOrFails (ienv : InitEnv) (senv : ServiceEnv) (processLog : Option Bytes) : Prop :=
  ∀ run s, Transition.exec (Process.step ienv senv) (Process.new processLog) run = some s →
    (s.point = .whileReady → s.committed ≠ []) ∧
    ∀ code, code ≠ 0 → s.point = .serviceReturned code → s.committed = []

/-- The first index that comes to `evhttp_accept_socket` is refused, or no index is. -/
structure ServiceEnv.Decisive (senv : ServiceEnv) (n i : ℕ) : Prop where
  lt : i < n
  comes : (senv.param i).isSome
  first : ∀ j < i, senv.param j = none
  refused : senv.Refused i ∨ ∀ j < n, ¬ senv.Refused j

/-- Where an index comes to `evhttp_accept_socket`, there is a first one. -/
theorem ServiceEnv.exists_first {senv : ServiceEnv} {n : ℕ} (h : ¬ ∀ i < n, senv.param i = none) :
    ∃ i < n, (senv.param i).isSome ∧ ∀ j < i, senv.param j = none := by
  have hex : ∃ i, i < n ∧ (senv.param i).isSome := by
    by_contra hno
    refine h (fun i hi => ?_)
    rw [← Option.not_isSome_iff_eq_none]
    exact fun hsome => hno ⟨i, hi, hsome⟩
  refine ⟨Nat.find hex, (Nat.find_spec hex).1, (Nat.find_spec hex).2, fun j hj => ?_⟩
  have hmin := Nat.find_min hex hj
  rw [← Option.not_isSome_iff_eq_none]
  exact fun hsome => hmin ⟨hj.trans (Nat.find_spec hex).1, hsome⟩

/-- Nothing is committed exactly when none of the indices done came to `evhttp_accept_socket`. -/
theorem SetUpTo.committed_eq_nil_iff {ienv : InitEnv} {senv : ServiceEnv}
    {processLog : Option Bytes} {p : Proxy} (hinit : init ienv (Proxy.new processLog) = .ret 0 p)
    {s : Process} (hkept : p.Kept s.proxy) {n : ℕ} (hup : SetUpTo senv s.setup n) :
    s.committed = [] ↔ ∀ i < n, senv.param i = none := by
  rw [hup.committed hinit hkept, List.map_eq_nil_iff]
  simp [ServiceEnv.started]

/-- **No service without a server, exactly when** some thread index comes to
    `evhttp_accept_socket`, and the first one that does is refused or none is. -/
theorem servesOrFails_iff {ienv : InitEnv} {senv : ServiceEnv} {processLog : Option Bytes}
    {p : Proxy} (hinit : init ienv (Proxy.new processLog) = .ret 0 p) :
    ServesOrFails ienv senv processLog ↔ ∃ i, senv.Decisive p.ThreadCount.toNat i := by
  constructor
  · intro h
    obtain ⟨run, s, hrun, hend, hcount⟩ := exists_exec_setUpEnded senv hinit
    have hkept := (follows_of_exec hrun).kept hinit (Or.inl (Point.inService_of_setUpEnded hend))
    rcases (setUp_of_exec hrun).ended_cases hend with ⟨hpt, hup⟩ | ⟨hpt, i, hi, hrefused, hup⟩
    · have hne := (h run s hrun).1 hpt
      rw [Ne, hup.committed_eq_nil_iff hinit hkept, hcount] at hne
      obtain ⟨i, hi, hsome, hfirst⟩ := ServiceEnv.exists_first hne
      exact ⟨i, hi, hsome, hfirst, Or.inr (hcount ▸ hup.accepted)⟩
    · have hnone := (h run s hrun).2 ERR_EV_NEW (by decide) hpt
      rw [hup.committed_eq_nil_iff hinit hkept] at hnone
      exact ⟨i, hcount ▸ hi, hrefused.1, hnone, Or.inl hrefused⟩
  · rintro ⟨i, hdec⟩ run s hrun
    have hset := setUp_of_exec hrun
    have hfol := follows_of_exec hrun
    unfold SetUp at hset
    refine ⟨fun hpt => ?_, fun code hne hpt => ?_⟩
    · rw [hpt] at hset
      have hkept := hfol.kept hinit (Or.inl (by rw [hpt]; rfl))
      have hcount : s.setup.ThreadCount = p.ThreadCount := hkept.ThreadCount
      rw [Ne, SetUpTo.committed_eq_nil_iff hinit hkept hset, hcount]
      intro hnone
      have hsome := hdec.comes
      rw [hnone i hdec.lt] at hsome
      cases hsome
    · rw [hpt] at hset
      have hkept := hfol.kept hinit (Or.inl (by rw [hpt]; rfl))
      have hcount : s.setup.ThreadCount = p.ThreadCount := hkept.ThreadCount
      rcases hset with ⟨-, hup⟩ | ⟨-, k, hk, hrefused, hup⟩ | ⟨hzero, -⟩
      · exact (hup.committed_eq_nil_iff hinit hkept).2 (fun i hi => absurd hi (Nat.not_lt_zero i))
      · -- the refused index is the first one that came that far
        rw [hup.committed_eq_nil_iff hinit hkept]
        intro j hj
        rcases hdec.refused with hi | hnone
        · have hle : k ≤ i := not_lt.1 (fun hlt => hup.accepted i hlt hi)
          exact hdec.first j (by omega)
        · exact absurd hrefused (hnone k (hcount ▸ hk))
      · exact absurd hzero hne

theorem servesOrFails_iff_hello : ServesOrFails helloStart helloService none :=
  (servesOrFails_iff (p := (init helloStart (Proxy.new none)).proxy) rfl).2
    ⟨0, by decide, rfl, fun j hj => absurd hj (Nat.not_lt_zero j), Or.inr (fun j _ h => h.2 rfl)⟩

/-- A tracker that is down. -/
def downService : ServiceEnv :=
  { helloService with trackerGetConnection := fun _ _ => (0, none) }

/-- Statements of `main` through all 16 attempts of the one thread index. -/
def allAttempts : List Event :=
  List.replicate 132 Event.statement

/-- The service waits with nothing to serve requests. -/
theorem service_without_server :
    ∃ s, Transition.exec (Process.step helloStart downService) (Process.new none) allAttempts
        = some s ∧
      s.point = .whileReady ∧ s.committed = [] ∧ ¬ ServesOrFails helloStart downService none := by
  obtain ⟨s, hrun, hpoint, hcommitted⟩ : ∃ s,
      Transition.exec (Process.step helloStart downService) (Process.new none) allAttempts
          = some s ∧ s.point = .whileReady ∧ s.committed = [] :=
    ⟨_, rfl, rfl, rfl⟩
  exact ⟨s, hrun, hpoint, hcommitted, fun h => (h allAttempts s hrun).1 hpoint hcommitted⟩

end FileCacheProxy
