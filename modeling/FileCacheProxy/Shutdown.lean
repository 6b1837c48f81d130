import FileCacheProxy.Lifetime
import FileCacheProxy.Workers
import Mathlib

set_option autoImplicit false

/-! # Shutdown comes to an end

From the end of `init` on nothing raises the flag again. Once a termination signal has lowered it, the
process ends of its own: the wait loop is left at its next test, a set-up that is under way is gone
through to its end, `main` returns and `Garbo` destroys the object. Each statement of that way lowers
a bound on the statements left, and a further signal leaves the bound as it is. -/

namespace FileCacheProxy

/-! ## Until `main` returns -/

/-- `init` has returned. -/
def Point.pastInit : Point → Bool
  | .registerSignals _ | .init _ => false
  | _ => true

/-- A bound on the statements left until `main` returns, when the flag is down. -/
def Point.toReturn (n : ℕ) : Point → ℕ
  | .forThread i => if i < n then (n - i) * 200 + 3 else 4
  | .newInfo i => (n - i) * 200 + 2
  | .initReturned _ => 3
  | .enterService => 2
  | .whileReady => 3
  | .sleepReady => 4
  | .logExited => 2
  | .serviceReturned _ => 1
  | .mainReturned => 0
  | pt => pt.remaining n + 3

/-- At the head of the loop over the thread indices. -/
def Point.begins : Point → Bool
  | .forThread _ | .newInfo _ => true
  | _ => false

/-- The loop over the thread indices behind its head, as far as it is left by a statement. -/
theorem Point.toReturn_of_inLoop {n : ℕ} {pt : Point} (hloop : pt.inLoop)
    (hend : pt.setUpEnded = false) (hbegins : pt.begins = false) :
    pt.pastInit = true ∧ pt.toReturn n = pt.remaining n + 3 := by
  rcases hloop with ⟨i, rfl⟩ | hidx | hended
  · cases hbegins
  · cases pt <;>
      first | exact ⟨rfl, rfl⟩ | exact Bool.noConfusion hbegins | exact Bool.noConfusion hidx
  · rw [hend] at hended
    cases hended

theorem Point.toReturn_le_of_inLoop {n : ℕ} {pt : Point} (hloop : pt.inLoop) :
    pt.pastInit = true ∧ pt.toReturn n ≤ pt.remaining n + 3 := by
  cases hbegins : pt.begins with
  | true =>
      cases pt with
      | forThread i =>
          refine ⟨rfl, ?_⟩
          dsimp only [Point.toReturn, Point.remaining]
          split_ifs <;> omega
      | newInfo i => exact ⟨rfl, Nat.add_le_add_left (by decide) _⟩
      | _ => cases hbegins
  | false =>
      cases hend : pt.setUpEnded with
      | false =>
          obtain ⟨hpast, heq⟩ := Point.toReturn_of_inLoop (n := n) hloop hend hbegins
          exact ⟨hpast, heq.le⟩
      | true =>
          cases pt with
          | whileReady => exact ⟨rfl, le_rfl⟩
          | serviceReturned code => exact ⟨rfl, (by decide : 1 ≤ 0 + 3)⟩
          | _ => cases hend

/-- The bound is 200 statements for a thread index, and three. -/
theorem Point.toReturn_le (n : ℕ) {pt : Point} (hpos : pt.offLoop = false → 1 ≤ n)
    (hpaths : ∀ i paths, pt = .setCb i paths → i < n ∧ paths.length ≤ 4) :
    pt.toReturn n ≤ n * 200 + 3 := by
  cases pt with
  | setCb i paths =>
      obtain ⟨hi, hlen⟩ := hpaths i paths rfl
      dsimp only [Point.toReturn, Point.remaining]
      omega
  | forThread i =>
      have hn := hpos rfl
      dsimp only [Point.toReturn]
      split_ifs <;> omega
  | sleepReady =>
      have hn := hpos rfl
      dsimp only [Point.toReturn]
      omega
  | _ =>
      dsimp only [Point.toReturn, Point.remaining]
      omega

/-- With the flag down every statement behind `init` brings the return of `main` nearer. -/
theorem SetUp.toReturn_lt (ienv : InitEnv) {senv : ServiceEnv} {s : Process} (hinv : SetUp senv s)
    (hpast : s.point.pastInit = true) (hdown : s.proxy.isReady = false)
    (hmain : s.point ≠ .mainReturned) :
    ∃ s', s.statement ienv senv = some s' ∧ s'.point.pastInit = true ∧
      s'.proxy.isReady = false ∧ s'.proxy.ThreadCount = s.proxy.ThreadCount ∧
      s'.point.toReturn s.proxy.ThreadCount.toNat < s.point.toReturn s.proxy.ThreadCount.toNat := by
  by_cases hloop : s.point.inLoop ∧ s.point.setUpEnded = false ∧ s.point.begins = false
  · obtain ⟨hin, hend, hbegins⟩ := hloop
    obtain ⟨s', hstep, hin', hcount, hlt⟩ := hinv.progress ienv hin hend
    have heq := (Point.toReturn_of_inLoop (n := s.proxy.ThreadCount.toNat) hin hend hbegins).2
    obtain ⟨hpast', hle⟩ := Point.toReturn_le_of_inLoop (n := s.proxy.ThreadCount.toNat) hin'
    refine ⟨s', hstep, hpast', ?_, hcount, by omega⟩
    obtain ⟨-, ⟨rest, hset⟩ | hsame⟩ := Process.statement_isReady hstep
    · rw [hset] at hpast
      cases hpast
    · exact hsame.trans hdown
  · obtain ⟨point, proxy, locals, registered, handled, callbacks, effects⟩ := s
    have hdown' : proxy.isReady = false := hdown
    cases point with
    | registerSignals rest => cases hpast
    | init rest => cases hpast
    | mainReturned => exact absurd rfl hmain
    | initReturned iRet =>
        refine ⟨_, rfl, ?_, hdown, rfl, ?_⟩
        · dsimp only
          split_ifs <;> rfl
        · dsimp only
          split_ifs
          · exact (by decide : 0 < 3)
          · exact (by decide : 2 < 3)
    | enterService =>
        refine ⟨_, rfl, ?_, hdown, rfl, ?_⟩
        · simp only [hdown']
          rfl
        · simp only [hdown']
          exact (by decide : 1 < 2)
    | whileReady =>
        refine ⟨_, rfl, ?_, hdown, rfl, ?_⟩
        · simp only [hdown']
          rfl
        · simp only [hdown']
          exact (by decide : 2 < 3)
    | sleepReady => exact ⟨_, rfl, rfl, hdown, rfl, (by decide : 3 < 4)⟩
    | logExited => exact ⟨_, rfl, rfl, hdown, rfl, (by decide : 1 < 2)⟩
    | serviceReturned code => exact ⟨_, rfl, rfl, hdown, rfl, (by decide : 0 < 1)⟩
    | forThread i =>
        refine ⟨_, rfl, ?_, hdown, rfl, ?_⟩
        · dsimp only
          split_ifs <;> rfl
        · dsimp only
          split_ifs with hi
          · dsimp only [Point.toReturn]
            rw [if_pos (by omega)]
            omega
          · dsimp only [Point.toReturn]
            rw [if_neg (by omega)]
            omega
    | newInfo i =>
        refine ⟨_, rfl, rfl, hdown, rfl, ?_⟩
        have hi : (i : ℤ) < proxy.ThreadCount := (SetUpAt.at_index hinv rfl).1
        dsimp only [Point.toReturn, Point.remaining]
        omega
    | _ => exact absurd ⟨Or.inr (Or.inl rfl), rfl, rfl⟩ hloop

/-! ## Until the process is over -/

/-- A bound on the statements left until `Garbo` has set `_Instance` to null. The destructor has five
    statements for an entry of `threadParams`, of which there is at most one for a thread index. -/
def Lifetime.left (l : Lifetime) : ℕ :=
  match l.phase with
  | .running => l.process.point.toReturn l.process.proxy.ThreadCount.toNat +
      (5 * l.process.proxy.ThreadCount.toNat + 7)
  | .destructor rest => rest.length + 3
  | .destroyed => 2
  | .deleted => 1
  | .nulled => 0

theorem Proxy.length_dtorStmts (p : Proxy) :
    p.dtorStmts.length = 5 * p.threadParams.length + 3 := by
  have hentries : ∀ tps : List ThreadParam,
      (tps.flatMap (ThreadParam.dtorStmts p.listenfd)).length = 5 * tps.length := by
    intro tps
    induction tps with
    | nil => rfl
    | cons tp tps ih =>
        rw [List.flatMap_cons, List.length_append, ih, List.length_cons]
        show 5 + _ = _
        omega
  rw [Proxy.dtorStmts, List.length_append, hentries]
  rfl

/-- What holds from the moment on at which the flag is down. -/
structure Lifetime.Ending (ienv : InitEnv) (senv : ServiceEnv) (processLog : Option Bytes)
    (l : Lifetime) : Prop where
  inv : l.Inv ienv senv processLog
  past : l.process.point.pastInit = true
  down : l.process.proxy.isReady = false

theorem Lifetime.Ending.threadParams_le {ienv : InitEnv} {senv : ServiceEnv}
    {processLog : Option Bytes} {l : Lifetime} (h : l.Ending ienv senv processLog) :
    l.process.proxy.threadParams.length ≤ l.process.proxy.ThreadCount.toNat := by
  obtain ⟨run, hrun⟩ := h.inv.process
  obtain ⟨m, n, -, hle, hparams, -⟩ := SetUpAt.made (setUp_of_exec hrun)
  have hlen := senv.length_started_le n
  rw [← hparams] at hlen
  exact hlen.trans hle

/-- The price of a move: signals are free. -/
def Event.cost : Event → ℕ
  | .statement => 1
  | .deliver _ => 0

theorem Lifetime.Ending.step {ienv : InitEnv} {senv : ServiceEnv} {processLog : Option Bytes}
    {l l' : Lifetime} {e : Event} (h : l.Ending ienv senv processLog)
    (hstep : l.step ienv senv e = some l') :
    l'.Ending ienv senv processLog ∧ l'.left + e.cost ≤ l.left := by
  have hinv' := h.inv.step hstep
  cases e with
  | deliver signum =>
      obtain ⟨process, hdeliver, rfl⟩ := Lifetime.deliver_cases hstep
      have hready : process.proxy.isReady = false := by
        rcases Process.deliver_isReady hdeliver with hdown | ⟨-, hsame⟩
        · exact hdown
        · exact hsame.trans h.down
      obtain ⟨-, p, n, rfl, rfl | rfl⟩ := Process.deliver_cases hdeliver
      · exact ⟨⟨hinv', h.past, hready⟩, le_rfl⟩
      · exact ⟨⟨hinv', h.past, hready⟩, le_rfl⟩
  | statement =>
      rcases Lifetime.statement_cases hstep with ⟨process, hphase, hproc, rfl⟩ | ⟨hphase, hpt, rfl⟩ |
        ⟨stmt, rest, hphase, rfl⟩ | ⟨hphase, rfl⟩ | ⟨hphase, rfl⟩ | ⟨hphase, rfl⟩
      · obtain ⟨run, hrun⟩ := h.inv.process
        have hmain : l.process.point ≠ .mainReturned := by
          intro hpt
          simp only [Process.statement, hpt] at hproc
          cases hproc
        obtain ⟨s', hs', hpast, hdown, hcount, hlt⟩ :=
          (setUp_of_exec hrun).toReturn_lt ienv h.past h.down hmain
        obtain rfl : s' = process := Option.some.inj (hs'.symm.trans hproc)
        refine ⟨⟨hinv', hpast, hdown⟩, ?_⟩
        simp only [Lifetime.left, hphase, hcount, Event.cost]
        omega
      · refine ⟨⟨hinv', h.past, h.down⟩, ?_⟩
        have hlen := h.threadParams_le
        simp only [Lifetime.left, hphase, hpt, Proxy.length_dtorStmts, Event.cost, Point.toReturn]
        omega
      · refine ⟨⟨hinv', h.past, h.down⟩, ?_⟩
        simp only [Lifetime.left, hphase, Event.cost, List.length_cons]
        omega
      · refine ⟨⟨hinv', h.past, h.down⟩, ?_⟩
        simp only [Lifetime.left, hphase, Event.cost, List.length_nil]
        omega
      all_goals
        refine ⟨⟨hinv', h.past, h.down⟩, ?_⟩
        simp only [Lifetime.left, hphase, Event.cost]
        omega

theorem Lifetime.Ending.left_le {ienv : InitEnv} {senv : ServiceEnv} {processLog : Option Bytes}
    {l : Lifetime} (h : l.Ending ienv senv processLog) :
    l.left ≤ 205 * l.process.proxy.ThreadCount.toNat + 10 := by
  have hparams := h.threadParams_le
  obtain ⟨run, hrun⟩ := h.inv.process
  have hsetup := setUp_of_exec hrun
  have hkeys : mPath2Handle.keys.length = 4 := by decide
  have hreturn : l.process.point.toReturn l.process.proxy.ThreadCount.toNat ≤
      l.process.proxy.ThreadCount.toNat * 200 + 3 := by
    refine Point.toReturn_le _ (fun hoff => ?_) (fun i paths hpt => ?_)
    · have hpos := (follows_of_exec hrun).one_le_ThreadCount (Or.inr hoff)
      omega
    rw [SetUp, hpt] at hsetup
    obtain ⟨hentering, done, hsplit, -⟩ := hsetup
    have hlt : (i : ℤ) < l.process.proxy.ThreadCount := hentering.lt
    have hlen := congrArg List.length hsplit
    rw [hkeys, List.length_append] at hlen
    omega
  have hinv := h.inv
  unfold Lifetime.left
  split
  · omega
  · next rest hphase =>
      have hdtor := hinv.dtorLog
      rw [hphase] at hdtor
      obtain ⟨done, hsplit, -⟩ := hdtor
      have hlen := congrArg List.length hsplit
      rw [Proxy.length_dtorStmts, List.length_append] at hlen
      omega
  all_goals omega

/-- **A shutdown comes to an end.** From every state behind `init` in which the flag is down, whatever
    signals are delivered and in whatever order, no more than 205 statements for a thread index and
    ten are executed, and until the object is gone there is always a next one. -/
theorem shutdown_ends {ienv : InitEnv} {senv : ServiceEnv} {processLog : Option Bytes}
    {run : List Event} {l : Lifetime}
    (hrun : Transition.exec (Lifetime.step ienv senv) (Lifetime.new processLog) run = some l)
    (hpast : l.process.point.pastInit = true) (hdown : l.process.proxy.isReady = false)
    (run' : List Event) {l' : Lifetime}
    (hrun' : Transition.exec (Lifetime.step ienv senv) l run' = some l') :
    run'.countP (· == .statement) ≤ 205 * l.process.proxy.ThreadCount.toNat + 10 ∧
    (l'.phase = .nulled ∨ ∃ l'', l'.statement ienv senv = some l'') := by
  have hending : l.Ending ienv senv processLog := ⟨Lifetime.inv_of_exec hrun, hpast, hdown⟩
  have hstep : ∀ (k : Lifetime) (e : Event) (k' : Lifetime), k.Ending ienv senv processLog → True →
      k.step ienv senv e = some k' → k'.Ending ienv senv processLog ∧ k'.left + e.cost ≤ k.left :=
    fun _ _ _ h _ hs => h.step hs
  obtain ⟨hending', hcost⟩ := Transition.exec_cost_le Lifetime.left Event.cost hstep hending
    (fun _ _ => trivial) hrun'
  have hcount : run'.countP (· == .statement) = (run'.map Event.cost).sum := by
    clear hrun' hcost
    induction run' with
    | nil => rfl
    | cons e run' ih =>
        cases e with
        | statement => simp [Event.cost, ih, Nat.add_comm]
        | deliver signum => simp [Event.cost, ih]
  refine ⟨by have hle := hending.left_le; omega, ?_⟩
  cases hphase : l'.phase with
  | nulled => exact Or.inl rfl
  | destroyed | deleted => exact Or.inr ⟨_, by rw [Lifetime.statement, hphase]⟩
  | destructor rest =>
      refine Or.inr ?_
      cases rest with
      | nil => exact ⟨_, by rw [Lifetime.statement, hphase]⟩
      | cons stmt rest => exact ⟨_, by rw [Lifetime.statement, hphase]⟩
  | running =>
      refine Or.inr ?_
      by_cases hpt : l'.process.point = .mainReturned
      · exact ⟨_, by rw [Lifetime.statement, hphase]; exact if_pos hpt⟩
      · obtain ⟨r, hr⟩ := hending'.inv.process
        obtain ⟨s', hs', -⟩ :=
          (setUp_of_exec hr).toReturn_lt ienv hending'.past hending'.down hpt
        refine ⟨_, by rw [Lifetime.statement, hphase]; dsimp only; rw [if_neg hpt, hs']; rfl⟩

/-- `SIGTERM` in the wait loop. -/
def termRun : List Event :=
  List.replicate 52 Event.statement ++ [.deliver 15]

theorem shutdown_ends_term : ∃ l, Transition.exec (Lifetime.step helloStart helloService)
      (Lifetime.new none) termRun = some l ∧
    ∀ (run' : List Event) (l' : Lifetime),
      Transition.exec (Lifetime.step helloStart helloService) l run' = some l' →
      run'.countP (· == .statement) ≤ 205 * l.process.proxy.ThreadCount.toNat + 10 ∧
      (l'.phase = .nulled ∨ ∃ l'', l'.statement helloStart helloService = some l'') := by
  obtain ⟨l, hrun, hpast, hdown⟩ : ∃ l, Transition.exec (Lifetime.step helloStart helloService)
      (Lifetime.new none) termRun = some l ∧ l.process.point.pastInit = true ∧
        l.process.proxy.isReady = false := ⟨_, rfl, rfl, rfl⟩
  exact ⟨l, hrun, fun run' l' hrun' => shutdown_ends hrun hpast hdown run' hrun'⟩

end FileCacheProxy
