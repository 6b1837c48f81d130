import FileCacheProxy.CleanExpire
import FileCacheProxy.RecordRuns
import FileCacheProxy.Selection
import Mathlib

set_option autoImplicit false

/-! # The proxy and the expiry script on one site

The proxy writes its record to the directory that `fpCleanExpire.sh` goes through. Here both work on
it at once: processes come and go and take uploads, files are deleted on request, and any number of
runs of the script are under way, each of them between two words of its loop. -/

namespace FileCacheProxy

open CleanExpire

/-! ## The system -/

/-- `process.log` becomes `content`. -/
def CleanExpire.World.setLog (w : World) (content : Option Bytes) : World :=
  match content with
  | some content => { w with records := w.records.insert processLog content }
  | none => { w with records := w.records.erase processLog }

theorem CleanExpire.World.setLog_records (w : World) (content : Option Bytes) (file : Bytes) :
    (w.setLog content).records[file]? = if file = processLog then content else w.records[file]? := by
  cases content with
  | none =>
      rw [World.setLog, Std.TreeMap.getElem?_erase]
      simp only [Std.LawfulEqCmp.compare_eq_iff_eq, eq_comm (a := file)]
  | some content =>
      rw [World.setLog, Std.TreeMap.getElem?_insert]
      simp only [Std.LawfulEqCmp.compare_eq_iff_eq, eq_comm (a := file)]

@[simp] theorem CleanExpire.World.setLog_cleanresult (w : World) (content : Option Bytes) :
    (w.setLog content).cleanresult = w.cleanresult := by
  cases content <;> rfl

/-- `world.records` is the whole directory, with the record of the proxy. `runs` are the runs of the
    script: what decides each, and the words its loop has still to come to. -/
structure Site where
  history : History
  world : World
  runs : List (RunEnv × List Bytes)

inductive SiteEvent where
  | proxy (op : Operation)
  /-- A file is deleted on request. -/
  | delete (id : Bytes)
  /-- A run of the script lists the directory. -/
  | list (env : RunEnv)
  /-- Run `i` comes to its next word. -/
  | word (i : ℕ)

/-- An upload that reaches a handler has stored its file. -/
def Site.stored (s : Site) : Operation → List Bytes
  | .upload up =>
      if s.history.running && s.history.proxy.isReady then up.fileID :: s.world.storage
      else s.world.storage
  | _ => s.world.storage

def Site.step (s : Site) : SiteEvent → Option Site
  | .proxy op =>
      -- the proxy works on the record it finds in the directory
      ((s.history.withLog s.world.records[processLog]?).step op).map (fun h =>
        { s with history := h,
                 world := { s.world.setLog h.proxy.processLog with storage := s.stored op } })
  | .delete id =>
      some { s with world := { s.world with storage := s.world.storage.filter (· != id) } }
  | .list env =>
      some (if env.legal then { s with runs := s.runs ++ [(env, env.words s.world)] } else s)
  | .word i =>
      match s.runs[i]? with
      | some (env, file :: rest) => (processWord env s.world file).map (fun w =>
          { s with world := w, runs := s.runs.set i (env, rest) })
      | _ => none

/-! ## What one word does -/

/-- A word is passed over, or its file is handed to the cleaner and moved away. -/
theorem CleanExpire.processWord_cases {env : RunEnv} {w w' : World} {file : Bytes}
    (h : processWord env w file = some w') :
    w' = w ∨ ∃ content run, file ≠ processLog ∧ file ≠ resultfilename ∧
      w.records[file]? = some content ∧ (env.answers file).run file content = some run ∧
      w' = { records := (w.records.insert resultfilename run.stdout).erase file,
             cleanresult := w.cleanresult.insert file content,
             storage := w.storage.filter (fun id => !run.calls.contains (id, 0)),
             selected := w.selected ++ [(file, content)] } := by
  unfold processWord at h
  split at h
  · next hsel =>
    unfold processRecordFile at h
    split at h
    · exact Or.inl (Option.some.inj h).symm
    · next content hcontent =>
      obtain ⟨run, hrun, rfl⟩ := Option.map_eq_some_iff.1 h
      refine Or.inr ⟨content, run, ?_, ?_, hcontent, hrun, rfl⟩
      · rintro rfl
        rw [not_selects_processLog] at hsel
        cases hsel
      · rintro rfl
        rw [not_selects_resultfilename] at hsel
        cases hsel
  · exact Or.inl (Option.some.inj h).symm

/-- A word leaves the record of the proxy as it is. -/
theorem CleanExpire.processWord_processLog {env : RunEnv} {w w' : World} {file : Bytes}
    (h : processWord env w file = some w') : w'.records[processLog]? = w.records[processLog]? := by
  rcases processWord_cases h with rfl | ⟨content, run, hlog, -, -, -, rfl⟩
  · rfl
  · have hresult : resultfilename ≠ processLog := by decide
    rw [Std.TreeMap.getElem?_erase, Std.TreeMap.getElem?_insert]
    simp only [Std.LawfulEqCmp.compare_eq_iff_eq, if_neg hlog, if_neg hresult]

/-- The cleaner deletes only what it reads from its list. -/
theorem CleanExpire.Answers.mem_pieces {a : Answers} {file content id : Bytes}
    {run : ExpireCleaner.CleanerRun} (hrun : a.run file content = some run) (h : (id, 0) ∈ run.calls) :
    id ∈ (ExpireCleaner.listPieces content).map cstr := by
  obtain ⟨-, -, k, hk, -⟩ := (Answers.mem_calls_iff hrun).1 h
  exact List.mem_of_getElem? hk

/-! ## Uploads and the script -/

/-- No file the script could select lists `id`. -/
def Site.Unlisted (s : Site) (id : Bytes) : Prop :=
  ∀ file content, s.world.records[file]? = some content → file ≠ processLog →
    file ≠ resultfilename → id ∉ (ExpireCleaner.listPieces content).map cstr

theorem Site.Unlisted.step {s s' : Site} {e : SiteEvent} {id : Bytes} (h : s.Unlisted id)
    (hstep : s.step e = some s') : s'.Unlisted id := by
  cases e with
  | proxy op =>
      obtain ⟨history, -, rfl⟩ := Option.map_eq_some_iff.1 hstep
      intro file content hcontent hlog hresult
      refine h file content ?_ hlog hresult
      rwa [World.setLog_records, if_neg hlog] at hcontent
  | delete id' =>
      cases hstep
      exact h
  | list env =>
      cases hstep
      split
      · exact h
      · exact h
  | word i =>
      unfold Site.step at hstep
      dsimp only at hstep
      split at hstep
      · next env file rest _ =>
        obtain ⟨w, hword, rfl⟩ := Option.map_eq_some_iff.1 hstep
        rcases processWord_cases hword with rfl | ⟨content, run, -, -, -, -, rfl⟩
        · exact h
        · intro name content' hcontent hlog hresult
          refine h name content' ?_ hlog hresult
          dsimp only at hcontent
          rw [Std.TreeMap.getElem?_erase, Std.TreeMap.getElem?_insert] at hcontent
          simp only [Std.LawfulEqCmp.compare_eq_iff_eq, if_neg hresult.symm] at hcontent
          split at hcontent
          · cases hcontent
          · exact hcontent
      · cases hstep

/-- An unlisted file stays in the storage unless it is deleted on request. -/
theorem Site.Unlisted.stays_stored {s s' : Site} {e : SiteEvent} {id : Bytes} (h : s.Unlisted id)
    (hstored : id ∈ s.world.storage) (hdelete : e ≠ .delete id) (hstep : s.step e = some s') :
    id ∈ s'.world.storage := by
  cases e with
  | proxy op =>
      obtain ⟨history, -, rfl⟩ := Option.map_eq_some_iff.1 hstep
      show id ∈ s.stored op
      unfold Site.stored
      split
      · split
        · exact List.mem_cons_of_mem _ hstored
        · exact hstored
      · exact hstored
  | delete id' =>
      cases hstep
      refine List.mem_filter.2 ⟨hstored, ?_⟩
      have hne : id ≠ id' := fun heq => hdelete (by rw [heq])
      simpa using hne
  | list env =>
      cases hstep
      split
      · exact hstored
      · exact hstored
  | word i =>
      unfold Site.step at hstep
      dsimp only at hstep
      split at hstep
      · next env file rest _ =>
        obtain ⟨w, hword, rfl⟩ := Option.map_eq_some_iff.1 hstep
        rcases processWord_cases hword with rfl | ⟨content, run, hlog, hresult, hcontent, hrun, rfl⟩
        · exact hstored
        · refine List.mem_filter.2 ⟨hstored, ?_⟩
          have hnot : (id, 0) ∉ run.calls := fun hcall =>
            h file content hcontent hlog hresult (Answers.mem_pieces hrun hcall)
          simpa using hnot
      · cases hstep

/-- **The script never reaches what the proxy stores**: a file uploaded through the proxy, under an ID
    that no record file lists which was there at first, is in the storage until somebody has it
    deleted, whatever starts, stops, uploads and runs of the script there are. -/
theorem upload_outlives_cleaning {s s₁ s₂ s₃ : Site} {before after : List SiteEvent}
    {up : SuccessfulUpload} (hfresh : s.Unlisted up.fileID)
    (hbefore : Transition.exec Site.step s before = some s₁) (hrunning : s₁.history.running = true)
    (hready : s₁.history.proxy.isReady = true) (hup : s₁.step (.proxy (.upload up)) = some s₂)
    (hafter : Transition.exec Site.step s₂ after = some s₃)
    (hdelete : ∀ e ∈ after, e ≠ .delete up.fileID) : up.fileID ∈ s₃.world.storage := by
  have hunlisted : s₂.Unlisted up.fileID := by
    have h₁ := Transition.exec_inv (I := fun t => t.Unlisted up.fileID)
      (fun t e t' ht hstep => ht.step hstep) hfresh hbefore
    exact h₁.step hup
  have hstored : up.fileID ∈ s₂.world.storage := by
    have hmem : up.fileID ∈ s₁.stored (.upload up) := by
      rw [Site.stored, hrunning, hready]
      exact List.mem_cons_self
    unfold Site.step at hup
    obtain ⟨history, -, rfl⟩ := Option.map_eq_some_iff.1 hup
    exact hmem
  have hstep : ∀ (t : Site) (e : SiteEvent) (t' : Site),
      t.Unlisted up.fileID ∧ up.fileID ∈ t.world.storage → e ≠ .delete up.fileID →
      t.step e = some t' → t'.Unlisted up.fileID ∧ up.fileID ∈ t'.world.storage :=
    fun t e t' ht he hs => ⟨ht.1.step hs, ht.1.stays_stored ht.2 he hs⟩
  have hkept := Transition.exec_inner_inv hstep ⟨hunlisted, hstored⟩ hdelete hafter
  exact hkept.2

/-- A site with one old record file, which lists a file of its own. -/
def helloSite : Site where
  history := History.first none
  world :=
    { records := (∅ : Std.TreeMap Bytes Bytes).insert (tmpfilename (ascii "202001010000"))
        (ascii "group1/M00/b"),
      cleanresult := ∅, storage := [ascii "group1/M00/b"], selected := [] }
  runs := []

theorem helloSite_unlisted : helloSite.Unlisted (ascii "group1/M00/a") := by
  intro file content hcontent _ _
  have hb : content = ascii "group1/M00/b" := by
    unfold helloSite at hcontent
    dsimp only at hcontent
    rw [Std.TreeMap.getElem?_insert] at hcontent
    split at hcontent
    · exact (Option.some.inj hcontent).symm
    · simp at hcontent
  rw [hb]
  decide

/-- The script deletes the old file while the proxy takes the new one. -/
theorem upload_outlives_cleaning_hello : ∃ s₁ s₂ s₃,
    Transition.exec Site.step helloSite [.proxy (.start helloStart), .list (oneRun (some 1))]
      = some s₁ ∧
    s₁.step (.proxy (.upload helloUpload)) = some s₂ ∧
    Transition.exec Site.step s₂ [.word 0, .word 0, .word 0] = some s₃ ∧
    s₃.world.storage = [ascii "group1/M00/a"] ∧ helloUpload.fileID ∈ s₃.world.storage :=
  ⟨_, _, _, rfl, rfl, rfl, rfl,
    @upload_outlives_cleaning helloSite _ _ _
      [.proxy (.start helloStart), .list (oneRun (some 1))] [.word 0, .word 0, .word 0] helloUpload
      helloSite_unlisted rfl rfl rfl rfl rfl (by simp)⟩

/-! ## The proxy beside the script -/

/-- The operation on the proxy, if it is one. -/
def SiteEvent.operation : SiteEvent → Option Operation
  | .proxy op => some op
  | _ => none

/-- The directory and the proxy agree on the record. -/
def Site.Synced (s : Site) : Prop :=
  s.world.records[processLog]? = s.history.proxy.processLog

theorem Site.Synced.withLog {s : Site} (h : s.Synced) :
    s.history.withLog s.world.records[processLog]? = s.history := by
  rw [h]
  rfl

/-- Operations on the proxy are those of the proxy alone, and nothing else touches it or its record. -/
theorem Site.Synced.step {s s' : Site} {e : SiteEvent} (h : s.Synced) (hstep : s.step e = some s') :
    s'.Synced ∧ Transition.exec History.step s.history e.operation.toList = some s'.history := by
  cases e with
  | proxy op =>
      obtain ⟨history, hop, rfl⟩ := Option.map_eq_some_iff.1 hstep
      rw [h.withLog] at hop
      refine ⟨?_, ?_⟩
      · show (s.world.setLog _).records[processLog]? = _
        rw [World.setLog_records, if_pos rfl]
      · show (s.history.step op).bind _ = _
        rw [hop]
        rfl
  | delete id =>
      cases hstep
      exact ⟨h, rfl⟩
  | list env =>
      cases hstep
      split
      · exact ⟨h, rfl⟩
      · exact ⟨h, rfl⟩
  | word i =>
      unfold Site.step at hstep
      dsimp only at hstep
      split at hstep
      · next env file rest _ =>
        obtain ⟨w, hword, rfl⟩ := Option.map_eq_some_iff.1 hstep
        exact ⟨(processWord_processLog hword).trans h, rfl⟩
      · cases hstep

theorem Site.Synced.run {s s' : Site} {run : List SiteEvent} (h : s.Synced)
    (hrun : Transition.exec Site.step s run = some s') : s'.Synced ∧
      Transition.exec History.step s.history (run.filterMap SiteEvent.operation) = some s'.history := by
  induction run generalizing s with
  | nil =>
      cases hrun
      exact ⟨h, rfl⟩
  | cons e run ih =>
      obtain ⟨s₁, hstep, hrest⟩ := Transition.exec_cons hrun
      obtain ⟨hsynced, hop⟩ := h.step hstep
      obtain ⟨hsynced', hops⟩ := ih hsynced hrest
      have hall := Transition.exec_append hop hops
      refine ⟨hsynced', ?_⟩
      cases hevent : e.operation with
      | none =>
          rw [hevent] at hall
          rw [List.filterMap_cons_none hevent]
          exact hall
      | some op =>
          rw [hevent] at hall
          rw [List.filterMap_cons_some hevent]
          exact hall

/-- **The script does not interfere with the proxy**: whatever the script and the deletions do in
    between, the operations of a run take the proxy and its record where they would have taken them
    without. -/
theorem proxy_unaffected {s s' : Site} {run : List SiteEvent} (h : s.Synced)
    (hrun : Transition.exec Site.step s run = some s') :
    Transition.exec History.step s.history (run.filterMap SiteEvent.operation) = some s'.history :=
  (h.run hrun).2

/-- A start and an upload, and a run of the script around the upload. -/
def helloEvents : List SiteEvent :=
  [.proxy (.start helloStart), .list (oneRun (some 1)), .word 0, .proxy (.upload helloUpload),
    .word 0, .word 0]

theorem proxy_unaffected_hello : ∃ s, Transition.exec Site.step helloSite helloEvents = some s ∧
    Transition.exec History.step (History.first none) [.start helloStart, .upload helloUpload]
      = some s.history :=
  ⟨_, rfl, @proxy_unaffected helloSite _ helloEvents rfl rfl⟩

/-! ## Record files -/

/-- Where a record file is: still in the directory, or moved away as it was. -/
structure Site.Conserves (s₀ s : Site) : Prop where
  kept : ∀ file content, file ≠ processLog → file ≠ resultfilename →
    s₀.world.records[file]? = some content →
    s.world.records[file]? = some content ∨
      s.world.records[file]? = none ∧ s.world.cleanresult[file]? = some content
  old : ∀ file content, file ≠ processLog → file ≠ resultfilename →
    s.world.records[file]? = some content → s₀.world.records[file]? = some content

theorem Site.Conserves.step {s₀ s s' : Site} {e : SiteEvent} (h : s₀.Conserves s)
    (hstep : s.step e = some s') : s₀.Conserves s' := by
  cases e with
  | proxy op =>
      obtain ⟨history, -, rfl⟩ := Option.map_eq_some_iff.1 hstep
      refine ⟨fun file content hlog hresult hfile => ?_, fun file content hlog hresult hfile => ?_⟩
      · rw [World.setLog_records, if_neg hlog, World.setLog_cleanresult]
        exact h.kept file content hlog hresult hfile
      · rw [World.setLog_records, if_neg hlog] at hfile
        exact h.old file content hlog hresult hfile
  | delete id =>
      cases hstep
      exact ⟨h.kept, h.old⟩
  | list env =>
      cases hstep
      split
      · exact ⟨h.kept, h.old⟩
      · exact h
  | word i =>
      unfold Site.step at hstep
      dsimp only at hstep
      split at hstep
      · next env file rest _ =>
        obtain ⟨w, hword, rfl⟩ := Option.map_eq_some_iff.1 hstep
        rcases processWord_cases hword with rfl | ⟨content, run, hlog, hresult, hcontent, -, rfl⟩
        · exact ⟨h.kept, h.old⟩
        · have hrecords : ∀ name, name ≠ resultfilename →
              ((s.world.records.insert resultfilename run.stdout).erase file)[name]?
                = if name = file then none else s.world.records[name]? := by
            intro name hname
            rw [Std.TreeMap.getElem?_erase, Std.TreeMap.getElem?_insert]
            simp only [Std.LawfulEqCmp.compare_eq_iff_eq, if_neg hname.symm, eq_comm (a := name)]
          refine ⟨fun name content' hlog' hresult' hname => ?_,
            fun name content' hlog' hresult' hname => ?_⟩
          · dsimp only
            rw [hrecords name hresult', Std.TreeMap.getElem?_insert]
            simp only [Std.LawfulEqCmp.compare_eq_iff_eq]
            by_cases hfile : name = file
            · subst hfile
              rw [if_pos rfl, if_pos rfl]
              rcases h.kept name content' hlog' hresult' hname with hthere | ⟨hgone, -⟩
              · exact Or.inr ⟨rfl, by rw [← hthere, hcontent]⟩
              · rw [hgone] at hcontent
                cases hcontent
            · rw [if_neg hfile, if_neg (Ne.symm hfile)]
              exact h.kept name content' hlog' hresult' hname
          · dsimp only at hname
            rw [hrecords name hresult'] at hname
            split at hname
            · cases hname
            · exact h.old name content' hlog' hresult' hname
      · cases hstep

/-- **No record file is lost or changed**: in every run each record file that was there at first is
    still there, or stands in `cleanresult` with the same content; no other record file appears; and
    what is in `process.log` is what the operations on the proxy alone would have left there. -/
theorem record_files_conserved {s s' : Site} {run : List SiteEvent} (hsynced : s.Synced)
    (hrun : Transition.exec Site.step s run = some s') :
    s.Conserves s' ∧ ∃ h, Transition.exec History.step s.history
        (run.filterMap SiteEvent.operation) = some h ∧
      s'.world.records[processLog]? = h.proxy.processLog := by
  obtain ⟨hlog, hproxy⟩ := hsynced.run hrun
  refine ⟨?_, s'.history, hproxy, hlog⟩
  exact Transition.exec_inv (I := fun t => s.Conserves t) (fun _ _ _ ht hstep => ht.step hstep)
    ⟨fun _ _ _ _ hfile => Or.inl hfile, fun _ _ _ _ hfile => hfile⟩ hrun

theorem record_files_conserved_hello : ∃ s h, Transition.exec Site.step helloSite helloEvents = some s ∧
    s.world.cleanresult.keys = [tmpfilename (ascii "202001010000")] ∧ helloSite.Conserves s ∧
    Transition.exec History.step (History.first none) [.start helloStart, .upload helloUpload]
      = some h ∧ s.world.records[processLog]? = h.proxy.processLog := by
  obtain ⟨s, hrun, hkeys⟩ : ∃ s, Transition.exec Site.step helloSite helloEvents = some s ∧
      s.world.cleanresult.keys = [tmpfilename (ascii "202001010000")] := ⟨_, rfl, by rfl⟩
  obtain ⟨hconserves, h, hproxy, hlog⟩ := record_files_conserved (s := helloSite) rfl hrun
  exact ⟨s, h, hrun, hkeys, hconserves, hproxy, hlog⟩

end FileCacheProxy
