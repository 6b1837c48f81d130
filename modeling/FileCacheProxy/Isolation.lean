import FileCacheProxy.Lib.Ledger
import FileCacheProxy.Replies
import FileCacheProxy.ServiceOutcome
import Mathlib

set_option autoImplicit false

/-! # Worker isolation

No two entries of `threadParams` share anything. The thread index and the `TrackerServerInfo` are
distinct by the way the loop counts; the rest comes from the outside, which may hand out an address
again once it was given back, and `startService` gives back an event base and an `evhttp` in the
middle of the loop. So the argument is about what is live: the entries and the index in progress hold
live resources, each once (`Process.Owns`), and what is handed out is not live (`Process.Fresh`). -/

namespace FileCacheProxy

open Ledger

/-! ## What is live -/

def Effect.entry : Effect → Entry Resource
  | .acquire r => .acquire r
  | .release r => .release r

def Process.ledger (s : Process) : List (Entry Resource) :=
  s.effects.map Effect.entry

/-- Handed out and not given back. -/
def Process.Live (s : Process) (r : Resource) : Prop :=
  0 < balance r s.ledger

instance (s : Process) (r : Resource) : Decidable (s.Live r) :=
  inferInstanceAs (Decidable (0 < balance r s.ledger))

/-- What the statement at a point is handed. -/
def ServiceEnv.gives (senv : ServiceEnv) : Point → Option Resource
  | .getConnection i testNum => (senv.trackerGetConnection i testNum).2.map .connection
  | .eventBaseNew i => (senv.eventBaseNew i).map .eventBase
  | .evhttpNew i => (senv.evhttpNew i).map .evhttp
  | _ => none

/-- Allocations are fresh, and no live connection is handed out again. -/
def Process.Fresh (senv : ServiceEnv) (s : Process) : Event → Prop
  | .statement => ∀ r ∈ senv.gives s.point, ¬ s.Live r
  | .deliver _ => True

instance (senv : ServiceEnv) (s : Process) : ∀ e, Decidable (s.Fresh senv e)
  | .statement => inferInstanceAs (Decidable (∀ r ∈ senv.gives s.point, ¬ s.Live r))
  | .deliver _ => isTrue trivial

/-! ## Who holds what -/

/-- What an entry holds of its own, besides the `TrackerServerInfo`. -/
def ThreadParam.resources (tp : ThreadParam) : List Resource :=
  (tp.connectResult.map Resource.connection).toList ++ [.eventBase tp.ev, .evhttp tp.ev_listen]

/-- What the index in progress has got so far and no entry holds yet. A connection that came without
    `info->count` is dropped at the end of its attempt. -/
def Locals.loose (l : Locals) : Point → List Resource
  | .checkCount _ _ | .eventBaseNew _ => (l.connectResult.map Resource.connection).toList
  | .afterTests _ testNum =>
      if testNum < MAX_CONNECTION_TEST then (l.connectResult.map Resource.connection).toList else []
  | .evhttpNew _ => (l.connectResult.map Resource.connection).toList ++ [.eventBase l.ev]
  | .acceptSocket i | .newThreadParam i | .pushBack i => (l.threadParam i).resources
  | _ => []

def Process.held (s : Process) : List Resource :=
  s.proxy.threadParams.flatMap ThreadParam.resources ++ s.locals.loose s.point

def Process.Owns (s : Process) : Prop :=
  Holds s.ledger s.held

theorem owns_new (processLog : Option Bytes) : (Process.new processLog).Owns :=
  holds_nil

theorem Process.Owns.statement {ienv : InitEnv} {senv : ServiceEnv} {s s' : Process}
    (hset : SetUp senv s) (hown : s.Owns) (hfresh : s.Fresh senv .statement)
    (h : s.statement ienv senv = some s') : s'.Owns := by
  obtain ⟨point, proxy, locals, registered, handled, callbacks, effects⟩ := s
  have hentries : Holds (effects.map Effect.entry)
      (proxy.threadParams.flatMap ThreadParam.resources) :=
    hown.sublist (List.sublist_append_left _ _)
  -- most statements hold nothing besides the entries, and acquire nothing
  have hnone : Holds (effects.map Effect.entry)
      (proxy.threadParams.flatMap ThreadParam.resources ++ []) := by
    rw [List.append_nil]
    exact hentries
  cases point with
  | registerSignals rest =>
      cases rest <;> cases h <;> exact hnone
  | init rest =>
      cases rest with
      | nil => cases h
      | cons stmt rest =>
          have hparams := (stmt.exec_frame ienv proxy).threadParams
          obtain ⟨pt, rfl, rfl | ⟨iRet, rfl⟩⟩ := Process.statement_init rfl h
          · simp only [Process.Owns, Process.held, hparams]
            exact hnone
          · simp only [Process.Owns, Process.held, hparams]
            exact hnone
  | newInfo i =>
      cases h
      simp only [Process.Owns, Process.ledger, List.map_append]
      exact hnone.acquire_other (.info i)
  | disconnect i testNum =>
      cases h
      have hcount : locals.infoCount = 0 := hset.1.infoCount
      simp only [Process.Owns, Process.ledger, hcount, gt_iff_lt, lt_irrefl, if_false]
      exact hnone
  | getConnection i testNum =>
      cases h
      have hacquired := hentries.acquire_toList hfresh
      simp only [ServiceEnv.gives] at hacquired
      simp only [Process.Owns, Process.ledger, Process.held, Locals.loose, List.map_append]
      cases hresult : (senv.trackerGetConnection i testNum).2 with
      | none =>
          rw [hresult] at hacquired
          exact hacquired
      | some c =>
          rw [hresult] at hacquired
          exact hacquired
  | whileTest i testNum =>
      cases h
      simp only [Process.Owns, Process.held]
      split
      · exact hnone
      · next hge =>
          simp only [Locals.loose, if_neg hge]
          exact hnone
  | checkCount i testNum =>
      cases h
      have hlt : testNum < MAX_CONNECTION_TEST := hset.2.1
      simp only [Process.Owns, Process.held]
      split
      · simp only [Locals.loose, if_pos hlt]
        exact hown
      · exact hnone
  | afterTests i testNum =>
      cases h
      simp only [Process.Owns, Process.held]
      split
      · exact hnone
      · next hlt =>
          have hloose := hown
          simp only [Process.Owns, Process.held, Locals.loose, if_pos (not_le.1 hlt)] at hloose
          exact hloose
  | eventBaseNew i =>
      simp only [Process.statement] at h
      split at h
      · cases h
        exact hnone
      · next ev hev =>
          cases h
          simp only [Process.Owns, Process.ledger, Process.held, Locals.loose, List.map_append,
            ← List.append_assoc]
          refine Holds.acquire hown (hfresh (.eventBase ev) ?_)
          simp [ServiceEnv.gives, hev]
  | evhttpNew i =>
      simp only [Process.statement] at h
      split at h
      · cases h
        have hheld := hown
        simp only [Process.Owns, Process.held, Locals.loose, ← List.append_assoc] at hheld
        simp only [Process.Owns, Process.ledger, List.map_append]
        refine hheld.release.sublist ?_
        simp only [Process.held, Locals.loose, List.append_nil]
        exact List.sublist_append_left _ _
      · next ev_listen hlisten =>
          cases h
          have hheld := Holds.acquire hown (hfresh (.evhttp ev_listen) (by simp [ServiceEnv.gives, hlisten]))
          simp only [Process.held, Locals.loose, List.append_assoc] at hheld
          simp only [Process.Owns, Process.ledger, Process.held, Locals.loose, List.map_append]
          exact hheld
  | acceptSocket i =>
      simp only [Process.statement] at h
      split at h
      · cases h
        have hheld := hown
        simp only [Process.Owns, Process.held, Locals.loose, ThreadParam.resources,
          Locals.threadParam] at hheld
        have hlast : ∀ l₁ l₂ : List Resource, ∀ r₁ r₂,
            l₁ ++ (l₂ ++ [r₁, r₂]) = l₁ ++ l₂ ++ [r₁] ++ [r₂] := by simp
        rw [hlast] at hheld
        have hreleased := hheld.release.release
        simp only [Process.Owns, Process.ledger, Process.held, Locals.loose, List.map_append,
          List.append_nil]
        rw [List.append_assoc] at hreleased
        exact hreleased.sublist (List.sublist_append_left _ _)
      · cases h
        exact hown
  | newThreadParam i =>
      cases h
      exact hown
  | pushBack i =>
      cases h
      simp only [Process.Owns, Process.held, List.flatMap_append, List.flatMap_singleton]
      exact (List.append_nil _).symm ▸ hown
  | setCb i paths =>
      cases paths <;> cases h <;> exact hnone
  | initReturned iRet =>
      cases h
      simp only [Process.Owns, Process.held]
      split <;> exact hnone
  | enterService =>
      cases h
      simp only [Process.Owns, Process.held]
      split <;> exact hnone
  | forThread i =>
      cases h
      simp only [Process.Owns, Process.held]
      split <;> exact hnone
  | whileReady =>
      cases h
      simp only [Process.Owns, Process.held]
      split <;> exact hnone
  | mainReturned => cases h
  | _ =>
      cases h
      exact hnone

theorem Process.Owns.step {ienv : InitEnv} {senv : ServiceEnv} {s s' : Process} {e : Event}
    (hset : SetUp senv s) (hown : s.Owns) (hfresh : s.Fresh senv e)
    (h : s.step ienv senv e = some s') : s'.Owns := by
  cases e with
  | statement => exact Process.Owns.statement hset hown hfresh h
  | deliver signum =>
      obtain ⟨-, p, n, rfl, rfl | rfl⟩ := Process.deliver_cases h
      · exact hown
      · exact hown

theorem owns_of_exec {ienv : InitEnv} {senv : ServiceEnv} {processLog : Option Bytes}
    {run : List Event} {s : Process}
    (hfresh : Transition.Along (Process.step ienv senv) (Process.Fresh senv)
      (Process.new processLog) run)
    (h : Transition.exec (Process.step ienv senv) (Process.new processLog) run = some s) :
    s.Owns := by
  have hboth := Transition.always_of_step (I := fun s => SetUp senv s ∧ s.Owns)
    (fun s e s' hs hok hstep => ⟨hs.1.step hstep, Process.Owns.step hs.1 hs.2 hok hstep⟩)
    ⟨setUp_new senv processLog, owns_new processLog⟩ hfresh
  exact (hboth.last h).2

/-! ## Distinct entries -/

/-- A member of the entries that is the thread index is different in each. -/
theorem ServiceEnv.started_map_nodup {senv : ServiceEnv} {f : ThreadParam → ℕ}
    (hf : ∀ i tp, senv.param i = some tp → f tp = i) (n : ℕ) : ((senv.started n).map f).Nodup := by
  have hsub : ∀ k, ((senv.started k).map f).Sublist (List.range k) := by
    intro k
    induction k with
    | zero => exact List.Sublist.refl _
    | succ k ih =>
        rw [ServiceEnv.started_succ, List.map_append, List.range_succ]
        refine ih.append ?_
        cases hparam : senv.param k with
        | none => exact List.nil_sublist _
        | some tp =>
            rw [Option.toList_some, List.map_singleton, hf k tp hparam]
  exact List.nodup_range.sublist (hsub n)

/-- Where all resources of a list of entries are different, so are those of one kind. -/
theorem nodup_of_resources {tps : List ThreadParam} {f : ThreadParam → List Resource}
    (hf : ∀ tp, (f tp).Sublist tp.resources) (h : (tps.flatMap ThreadParam.resources).Nodup) :
    (tps.flatMap f).Nodup :=
  h.sublist (List.Sublist.flatMap_right tps (fun tp _ => hf tp))

structure DistinctEntries (tps : List ThreadParam) : Prop where
  evs : (tps.map ThreadParam.ev).Nodup
  ev_listens : (tps.map ThreadParam.ev_listen).Nodup
  connections : (tps.filterMap ThreadParam.connectResult).Nodup

theorem distinctEntries_of_resources {tps : List ThreadParam}
    (h : (tps.flatMap ThreadParam.resources).Nodup) : DistinctEntries tps := by
  refine ⟨?_, ?_, ?_⟩
  · have hbases := nodup_of_resources (f := fun tp => [.eventBase tp.ev]) (fun tp => by
      simp [ThreadParam.resources]) h
    rw [← List.map_eq_flatMap] at hbases
    refine List.Nodup.of_map Resource.eventBase ?_
    rw [List.map_map]
    exact hbases
  · have hlistens := nodup_of_resources (f := fun tp => [.evhttp tp.ev_listen]) (fun tp => by
      simp [ThreadParam.resources]) h
    rw [← List.map_eq_flatMap] at hlistens
    refine List.Nodup.of_map Resource.evhttp ?_
    rw [List.map_map]
    exact hlistens
  · have hconns := nodup_of_resources
      (f := fun tp => (tp.connectResult.map Resource.connection).toList) (fun tp => by
        simp [ThreadParam.resources]) h
    refine List.Nodup.of_map Resource.connection ?_
    rw [List.map_filterMap, List.filterMap_eq_flatMap_toList]
    exact hconns

/-- An `evhttp` that belongs to one entry has the callbacks of that entry and no others. -/
theorem filter_callbacks {tps : List ThreadParam} (h : (tps.map ThreadParam.ev_listen).Nodup)
    {tp : ThreadParam} (hmem : tp ∈ tps) :
    (tps.flatMap ThreadParam.callbacks).filter (fun cb => cb.1 = tp.ev_listen) = tp.callbacks := by
  have hown : ∀ tp' : ThreadParam, tp'.ev_listen = tp.ev_listen →
      tp'.callbacks.filter (fun cb => cb.1 = tp.ev_listen) = tp'.callbacks := by
    intro tp' heq
    rw [List.filter_eq_self]
    intro cb hcb
    obtain ⟨path, -, rfl⟩ := List.mem_map.1 hcb
    exact decide_eq_true heq
  have hother : ∀ tp' : ThreadParam, tp'.ev_listen ≠ tp.ev_listen →
      tp'.callbacks.filter (fun cb => cb.1 = tp.ev_listen) = [] := by
    intro tp' hne
    rw [List.filter_eq_nil_iff]
    intro cb hcb
    obtain ⟨path, -, rfl⟩ := List.mem_map.1 hcb
    simpa using hne
  have hnil : ∀ l : List ThreadParam, (∀ tp' ∈ l, tp'.ev_listen ≠ tp.ev_listen) →
      (l.flatMap ThreadParam.callbacks).filter (fun cb => cb.1 = tp.ev_listen) = [] := by
    intro l hl
    rw [List.filter_flatMap, List.flatMap_eq_nil_iff]
    exact fun tp' htp' => hother tp' (hl tp' htp')
  obtain ⟨before, after, rfl⟩ := List.append_of_mem hmem
  rw [List.map_append, List.map_cons, List.nodup_middle, List.nodup_cons, List.mem_append,
    not_or] at h
  obtain ⟨⟨hbefore, hafter⟩, -⟩ := h
  rw [List.flatMap_append, List.flatMap_cons, List.filter_append, List.filter_append, hown tp rfl,
    hnil before (fun tp' htp' heq => hbefore (heq ▸ List.mem_map_of_mem htp')),
    hnil after (fun tp' htp' heq => hafter (heq ▸ List.mem_map_of_mem htp')),
    List.nil_append, List.append_nil]

/-! ## The tracker connection of a handler -/

/-- The tracker connection a FastDFS call is given, if it takes one. -/
def FdfsCall.trackerServer : FdfsCall → Option (Option ConnectionInfo)
  | .trackerQueryStorageStore pTrackerServer => some pTrackerServer
  | .storageUploadByFilebuff args => some args.pTrackerServer
  | .storageDeleteFile1 pTrackerServer _ => some pTrackerServer
  | .trackerMakeConnection _ | .fdfsGetFileInfo1 _ => none

def Action.trackerServer : Action → Option (Option ConnectionInfo)
  | .fdfs call _ => call.trackerServer
  | .newChars _ | .evbufferNew | .evbufferFree | .addHeader _ _ | .sendReply _ _ _
  | .insertRecord _ => none

/-- The tracker connections a handler call uses. -/
def Handled.trackerServers (h : Handled) : List (Option ConnectionInfo) :=
  h.trace.filterMap Action.trackerServer

theorem trackerServers_replyEmpty (acts : List Action) (code : ℕ) (reason : Bytes) :
    (replyEmpty acts code reason).trackerServers = acts.filterMap Action.trackerServer := by
  simp [Handled.trackerServers, replyEmpty, Action.trackerServer]

/-- A handler talks to the tracker over the connection of its argument and over no other. -/
theorem handle_trackerServers (be : Backend) (req : Request) (arg : ThreadParam) :
    ∀ server ∈ (handle be req arg).trackerServers, server = arg.connectResult := by
  unfold handle
  cases dispatch req.path with
  | httpd => simp [Callback.run, httpdHandler, trackerServers_replyEmpty]
  | fileinfo =>
      simp only [Callback.run, fileinfoHandler]
      cases req.findHeader (ascii "FileID") with
      | none => simp [trackerServers_replyEmpty]
      | some fileID =>
          dsimp only
          split
          · simp [trackerServers_replyEmpty, Action.trackerServer, FdfsCall.trackerServer]
          · split <;> simp [Handled.trackerServers, Action.trackerServer, FdfsCall.trackerServer,
              jsonHeaders]
  | upload =>
      simp only [Callback.run, uploadHandler]
      cases req.inputBuffer with
      | none => simp [trackerServers_replyEmpty]
      | some file_content =>
          dsimp only
          split
          · simp [trackerServers_replyEmpty, Action.trackerServer, FdfsCall.trackerServer]
          · split
            · simp [trackerServers_replyEmpty, Action.trackerServer, FdfsCall.trackerServer]
            · split
              · simp [trackerServers_replyEmpty, Action.trackerServer, FdfsCall.trackerServer]
              · rw [uploadReply_eq]
                split <;> simp [Handled.trackerServers, Action.trackerServer,
                  FdfsCall.trackerServer, jsonHeaders]
  | delete =>
      simp only [Callback.run, deleteHandler]
      cases req.findHeader (ascii "FileID") with
      | none => simp [trackerServers_replyEmpty]
      | some fileID =>
          dsimp only
          split
          · simp [Handled.trackerServers, Action.trackerServer, FdfsCall.trackerServer]
          · split <;> simp [Handled.trackerServers, Action.trackerServer, FdfsCall.trackerServer,
              jsonHeaders]

/-! ## Isolation -/

/-- The set-up is over, by the end of its loop or by a return. -/
def Point.afterSetUp : Point → Bool
  | .whileReady | .sleepReady | .logExited | .serviceReturned _ => true
  | _ => false

structure Process.Isolated (s : Process) : Prop where
  threadIDs : (s.proxy.threadParams.map ThreadParam.threadID).Nodup
  infos : (s.proxy.threadParams.map ThreadParam.info).Nodup
  entries : DistinctEntries s.proxy.threadParams
  /-- An `evhttp` with a callback belongs to one entry. -/
  owner : ∀ cb ∈ s.callbacks, ∃! tp, tp ∈ s.proxy.threadParams ∧ tp.ev_listen = cb.1
  /-- The catch-all and all paths are set, with the entry as argument. -/
  callbacks : ∀ tp ∈ s.proxy.threadParams,
    s.callbacks.filter (fun cb => cb.1 = tp.ev_listen) = tp.callbacks
  committed : ∀ tp ∈ s.proxy.threadParams, s.committed.count tp.ev = 1
  /-- Whatever the event loop of an entry runs uses the connection of that entry. -/
  trackers : ∀ tp ∈ s.proxy.threadParams, ∀ cb ∈ s.callbacks, cb.1 = tp.ev_listen →
    ∀ be req, ∀ server ∈ (handle be req cb.2.2).trackerServers, server = tp.connectResult

theorem Point.index_of_afterSetUp {pt : Point} (h : pt.afterSetUp = true) : pt.index = none := by
  cases pt <;> first | rfl | cases h

theorem Point.inService_of_afterSetUp {pt : Point} (h : pt.afterSetUp = true) :
    pt.inService = true := by
  cases pt <;> first | rfl | cases h

/-- **Workers are isolated**: with fresh allocations and no live connection handed out twice, in every
    run and for every outcome of the calls, the entries share nothing when the set-up is over. -/
theorem workers_isolated {ienv : InitEnv} {senv : ServiceEnv} {processLog : Option Bytes}
    {run : List Event} {s : Process}
    (hfresh : Transition.Along (Process.step ienv senv) (Process.Fresh senv)
      (Process.new processLog) run)
    (hrun : Transition.exec (Process.step ienv senv) (Process.new processLog) run = some s)
    (hend : s.point.afterSetUp = true) : s.Isolated := by
  obtain ⟨n, -, hup⟩ :=
    SetUpAt.off_index (setUp_of_exec hrun) (Point.index_of_afterSetUp hend)
  obtain ⟨p, hinit, hkept⟩ :=
    (followsAt_inService (Point.inService_of_afterSetUp hend)).1 (follows_of_exec hrun)
  have hparams : s.proxy.threadParams = senv.started n := hup.params
  have hcallbacks : s.callbacks = s.proxy.threadParams.flatMap ThreadParam.callbacks :=
    hparams ▸ hup.callbacks
  have hcommitted : s.committed = s.proxy.threadParams.map ThreadParam.ev :=
    hparams ▸ SetUpTo.committed hinit hkept hup
  have hdistinct : DistinctEntries s.proxy.threadParams :=
    distinctEntries_of_resources (owns_of_exec hfresh hrun).nodup.of_append_left
  have hcb : ∀ cb ∈ s.callbacks, cb.2.2 ∈ s.proxy.threadParams ∧ cb.2.2.ev_listen = cb.1 := by
    intro cb hmem
    rw [hcallbacks, List.mem_flatMap] at hmem
    obtain ⟨tp, htp, hin⟩ := hmem
    obtain ⟨path, -, rfl⟩ := List.mem_map.1 hin
    exact ⟨htp, rfl⟩
  have hinj : ∀ tp ∈ s.proxy.threadParams, ∀ tp' ∈ s.proxy.threadParams,
      tp.ev_listen = tp'.ev_listen → tp = tp' :=
    fun tp htp tp' htp' heq => List.inj_on_of_nodup_map hdistinct.ev_listens htp htp' heq
  refine ⟨?_, ?_, hdistinct, fun cb hmem => ?_, fun tp htp => ?_, fun tp htp => ?_,
    fun tp htp cb hmem heq be req => ?_⟩
  · rw [hparams]
    refine ServiceEnv.started_map_nodup (fun i tp hparam => ?_) n
    obtain ⟨_, _, _, -, -, -, rfl⟩ := ServiceEnv.param_eq_some_iff.1 hparam
    rfl
  · rw [hparams]
    refine ServiceEnv.started_map_nodup (fun i tp hparam => ?_) n
    obtain ⟨_, _, _, -, -, -, rfl⟩ := ServiceEnv.param_eq_some_iff.1 hparam
    rfl
  · obtain ⟨hin, hlisten⟩ := hcb cb hmem
    exact ⟨cb.2.2, ⟨hin, hlisten⟩, fun tp htp => hinj tp htp.1 _ hin (htp.2.trans hlisten.symm)⟩
  · rw [hcallbacks]
    exact filter_callbacks hdistinct.ev_listens htp
  · rw [hcommitted]
    exact List.count_eq_one_of_mem hdistinct.evs (List.mem_map_of_mem htp)
  · obtain ⟨hin, hlisten⟩ := hcb cb hmem
    rw [hinj tp htp _ hin (heq.symm.trans hlisten.symm)]
    exact handle_trackerServers be req cb.2.2

/-- A start with two thread indices. -/
def pairStart : InitEnv :=
  { helloStart with
    fs := fun _ => some (ascii "localhost=127.0.0.1\nport=8080\nclientConfPath=c\nThreadCount=2"),
    loadPasses := 4 }

/-- Statements of `main` up to the wait loop. -/
def pairRun : List Event :=
  List.replicate 70 Event.statement

theorem workers_isolated_pair :
    ∃ s, Transition.exec (Process.step pairStart helloService) (Process.new none) pairRun = some s ∧
      s.proxy.threadParams = [⟨0, 0, 0, 0, some 0⟩, ⟨1, 1, 1, 1, some 1⟩] ∧ s.Isolated := by
  obtain ⟨s, hrun, hend, hparams⟩ : ∃ s,
      Transition.exec (Process.step pairStart helloService) (Process.new none) pairRun = some s ∧
        s.point.afterSetUp = true ∧
        s.proxy.threadParams = [⟨0, 0, 0, 0, some 0⟩, ⟨1, 1, 1, 1, some 1⟩] := ⟨_, rfl, rfl, rfl⟩
  exact ⟨s, hrun, hparams, workers_isolated (by decide +kernel) hrun hend⟩

end FileCacheProxy
