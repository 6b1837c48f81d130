import FileCacheProxy.ExpireCleaner
import FileCacheProxy.Lib.Radix
import FileCacheProxy.Lib.Transition
import Mathlib

set_option autoImplicit false
-- the facts about all 256 bytes are decided one byte after the other
set_option maxRecDepth 1500

/-! # Expiry cleaning (`fpCleanExpire.sh`)

The script goes through the records directory, hands every record file up to a cut-off date to the
batch cleaner and then moves it to `cleanresult`. A run of the script is one step; its label
(`RunEnv`) has everything that is decided outside: the date, the words the shell makes of the
directory listing, and what happens to each start of the cleaner. -/

namespace FileCacheProxy

namespace CleanExpire

open ExpireCleaner

/-! ## One start of the cleaner -/

/-- What happens to one start of `fdfs_batch_delete_file`. -/
structure Answers where
  /-- The shell finds the program and can start it. -/
  started : Bool
  /-- `/etc/fdfs/client.conf` -/
  config : Option Bytes
  loadPasses : ℕ
  fdfsClientInit : Bytes → ℤ
  trackerGetConnection : Option ℕ
  errno : ℤ
  /-- The list file can be opened. -/
  listOpens : Bool
  deleteResult : ℕ → ℤ
  strerror : ℤ → Bytes

def clientConf : Bytes := ascii "/etc/fdfs/client.conf"

def batchDelete : Bytes := ascii "fdfs_batch_delete_file"

/-- The same as seen by the program, started on the record file `file`. -/
def Answers.env (a : Answers) (file content : Bytes) : CleanerEnv where
  fs path := if path = file then (if a.listOpens then some content else none) else a.config
  fdfsClientInit := a.fdfsClientInit
  trackerGetConnection := a.trackerGetConnection
  errno := a.errno
  deleteResult := a.deleteResult
  strerror := a.strerror

/-- `${maindir}/fdfs_batch_delete_file /etc/fdfs/client.conf ${processfilename}`; a program that
    cannot be started has status 127 for the shell. -/
def Answers.run (a : Answers) (file content : Bytes) : Option CleanerRun :=
  if a.started then main (a.env file content) a.loadPasses [batchDelete, clientConf, file]
  else some ⟨127, [], []⟩

/-- The answers under which the program deletes `id`: it gets to its loop, and one of the pieces it
    reads from the list is `id`, for which the storage reports success. -/
def Answers.Deletes (a : Answers) (file content id : Bytes) : Prop :=
  a.started = true ∧ Reaches (a.env file content) a.loadPasses clientConf file content ∧
    ∃ k, ((listPieces content).map cstr)[k]? = some id ∧ a.deleteResult k = 0

theorem mem_callsFrom {env : CleanerEnv} {k : ℕ} {ids : List Bytes} {id : Bytes} {result : ℤ} :
    (id, result) ∈ callsFrom env k ids ↔ ∃ j, ids[j]? = some id ∧ env.deleteResult (k + j) = result := by
  induction ids generalizing k with
  | nil => simp [callsFrom]
  | cons x ids ih =>
      rw [callsFrom, List.mem_cons, ih, Prod.mk.injEq]
      constructor
      · rintro (⟨rfl, rfl⟩ | ⟨j, hj, hres⟩)
        · exact ⟨0, rfl, rfl⟩
        · refine ⟨j + 1, hj, ?_⟩
          rw [← hres]
          congr 1
          omega
      · rintro ⟨j, hj, hres⟩
        cases j with
        | zero =>
            rw [List.getElem?_cons_zero, Option.some.injEq] at hj
            exact Or.inl ⟨hj.symm, hres.symm⟩
        | succ j =>
            refine Or.inr ⟨j, hj, ?_⟩
            rw [← hres]
            congr 1
            omega

theorem Answers.Reaches.content_eq {a : Answers} {file content content' : Bytes}
    (h : Reaches (a.env file content) a.loadPasses clientConf file content') :
    content' = content := by
  have hopen := h.opened
  simp only [Answers.env, if_true] at hopen
  split at hopen
  · exact (Option.some.inj hopen).symm
  · cases hopen

/-- The deletes that succeed are the ones the answers lead to. -/
theorem Answers.mem_calls_iff {a : Answers} {file content id : Bytes} {run : CleanerRun}
    (h : a.run file content = some run) : (id, 0) ∈ run.calls ↔ a.Deletes file content id := by
  unfold Answers.run at h
  by_cases hstart : a.started = true
  · rw [if_pos hstart] at h
    obtain ⟨r, hload⟩ := load_of_main h
    obtain ⟨run', hrun', hcases⟩ := main_calls (a.env file content) batchDelete clientConf file hload
    have heq : run' = run := Option.some.inj (hrun'.symm.trans h)
    subst heq
    rcases hcases with ⟨content', hreach, hcalls⟩ | ⟨hnot, hcalls⟩
    · have hcontent := Answers.Reaches.content_eq hreach
      subst hcontent
      rw [hcalls, mem_callsFrom]
      simp only [Nat.zero_add]
      exact ⟨fun hk => ⟨hstart, hreach, hk⟩, fun hd => hd.2.2⟩
    · rw [hcalls]
      refine iff_of_false List.not_mem_nil ?_
      rintro ⟨-, hreach, -⟩
      exact hnot content hreach
  · rw [if_neg hstart] at h
    cases h
    exact iff_of_false List.not_mem_nil (fun hd => hstart hd.1)

/-! ## One run of the script -/

/-- What decides one run of the script. `expand` makes words of the listing: the shell splits it at
    blanks and expands patterns. -/
structure RunEnv where
  /-- The script goes past the test of `expiredays`. -/
  legal : Bool
  tmpdate : Bytes
  expand : List Bytes → List Bytes
  answers : Bytes → Answers

def tmpfilename (tmpdate : Bytes) : Bytes :=
  ascii "UploadRecord_" ++ tmpdate ++ ascii ".txt"

/-- `[ ${file} \< ${tmpfilename} ] || [ ${file} = ${tmpfilename} ]` -/
def selects (tmpdate file : Bytes) : Bool :=
  file < tmpfilename tmpdate || file == tmpfilename tmpdate

/-- The two directories and the storage; `selected` are the record files processed so far. -/
structure World where
  records : Std.TreeMap Bytes Bytes
  cleanresult : Std.TreeMap Bytes Bytes
  storage : List Bytes
  selected : List (Bytes × Bytes)

/-- The file the cleaner's output goes to: the `$` of `${resultfilename}` is missing. -/
def resultfilename : Bytes := ascii "resultfilename"

/-- `ProcessRecordFile`: the cleaner's exit status is not looked at. -/
def processRecordFile (env : RunEnv) (w : World) (processfilename : Bytes) : Option World :=
  match w.records[processfilename]? with
  | none => some w
  | some content =>
      ((env.answers processfilename).run processfilename content).map (fun run =>
        -- `mv` follows whatever `run.status` is
        { records := (w.records.insert resultfilename run.stdout).erase processfilename,
          cleanresult := w.cleanresult.insert processfilename content,
          storage := w.storage.filter (fun id => !run.calls.contains (id, 0)),
          selected := w.selected ++ [(processfilename, content)] })

/-- One pass of the `for` loop. -/
def processWord (env : RunEnv) (w : World) (file : Bytes) : Option World :=
  if selects env.tmpdate file then processRecordFile env w file else some w

/-- A run of the script, `none` when the cleaner does not come back. -/
def clean (w : World) (env : RunEnv) : Option World :=
  if env.legal then
    (env.expand (w.records.keys ++ [ascii "cleanresult"])).foldlM (processWord env) w
  else some w

/-! ## What a run does to the world -/

/-- `file`, with this content, is one of the files processed when the loop goes over `words`. -/
structure Picked (env : RunEnv) (words : List Bytes) (w : World) (file content : Bytes) : Prop where
  word : file ∈ words
  selects : selects env.tmpdate file = true
  record : w.records[file]? = some content

theorem not_selects_resultfilename (tmpdate : Bytes) : selects tmpdate resultfilename = false := by
  have hhead : ∃ rest rest', resultfilename = 114 :: rest ∧ tmpfilename tmpdate = 85 :: rest' :=
    ⟨_, _, rfl, rfl⟩
  obtain ⟨rest, rest', hr, ht⟩ := hhead
  rw [selects, hr, ht, Bool.or_eq_false_iff]
  constructor
  · rw [decide_eq_false_iff_not, List.cons_lt_cons_iff]
    rintro (h | ⟨h, _⟩)
    · exact absurd h (by decide)
    · exact absurd h (by decide)
  · simp

/-- What processing `words` has done to the world. -/
structure Done (env : RunEnv) (words : List Bytes) (w w' : World) : Prop where
  records : ∀ file, file ≠ resultfilename → ∀ content, w'.records[file]? = some content ↔
    w.records[file]? = some content ∧ ¬ Picked env words w file content
  storage : ∀ id, id ∈ w'.storage ↔ id ∈ w.storage ∧
    ∀ file content, Picked env words w file content → ¬ (env.answers file).Deletes file content id
  selected : ∀ file content, (file, content) ∈ w'.selected ↔
    (file, content) ∈ w.selected ∨ Picked env words w file content

theorem Done.refl {env : RunEnv} {words : List Bytes} {w : World}
    (h : ∀ file content, ¬ Picked env words w file content) : Done env words w w := by
  refine ⟨fun file _ content => ?_, fun id => ?_, fun file content => ?_⟩
  · exact ⟨fun hrec => ⟨hrec, h file content⟩, fun hrec => hrec.1⟩
  · exact ⟨fun hid => ⟨hid, fun file content hp => absurd hp (h file content)⟩, fun hid => hid.1⟩
  · exact ⟨Or.inl, fun hsel => hsel.resolve_right (h file content)⟩

theorem processWord_done {env : RunEnv} {w w' : World} {file : Bytes}
    (h : processWord env w file = some w') : Done env [file] w w' := by
  unfold processWord at h
  split at h
  · next hsel =>
      unfold processRecordFile at h
      split at h
      · next hnone =>
          cases h
          refine Done.refl (fun f c hp => ?_)
          have hf : f = file := List.mem_singleton.1 hp.word
          rw [← hf, hp.record] at hnone
          cases hnone
      · next content hsome =>
          obtain ⟨run, hrun, rfl⟩ := Option.map_eq_some_iff.1 h
          have hpicked : ∀ f c, Picked env [file] w f c ↔ f = file ∧ c = content := by
            intro f c
            constructor
            · intro hp
              have hf : f = file := List.mem_singleton.1 hp.word
              have hrec := hp.record
              rw [hf, hsome] at hrec
              exact ⟨hf, (Option.some.inj hrec).symm⟩
            · rintro ⟨rfl, rfl⟩
              exact ⟨List.mem_singleton_self _, hsel, hsome⟩
          refine ⟨fun f hne c => ?_, fun id => ?_, fun f c => ?_⟩
          · rw [hpicked, Std.TreeMap.getElem?_erase, Std.TreeMap.getElem?_insert]
            simp only [Std.LawfulEqCmp.compare_eq_iff_eq, if_neg (Ne.symm hne)]
            by_cases hf : file = f
            · rw [if_pos hf, ← hf, hsome]
              simp [eq_comm]
            · rw [if_neg hf]
              exact ⟨fun hrec => ⟨hrec, fun hp => hf hp.1.symm⟩, fun hrec => hrec.1⟩
          · simp only [hpicked, List.mem_filter, Bool.not_eq_true', List.contains_eq_mem,
              decide_eq_false_iff_not, Answers.mem_calls_iff hrun]
            constructor
            · rintro ⟨hid, hno⟩
              refine ⟨hid, ?_⟩
              rintro f c ⟨rfl, rfl⟩
              exact hno
            · exact fun hid => ⟨hid.1, hid.2 file content ⟨rfl, rfl⟩⟩
          · simp only [hpicked, List.mem_append, List.mem_singleton, Prod.mk.injEq]
  · next hsel =>
      cases h
      refine Done.refl (fun f c hp => hsel ?_)
      have hf : f = file := List.mem_singleton.1 hp.word
      rw [← hf]
      exact hp.selects

theorem Picked.ne_resultfilename {env : RunEnv} {words : List Bytes} {w : World}
    {file content : Bytes} (h : Picked env words w file content) : file ≠ resultfilename := by
  intro he
  have hsel := h.selects
  rw [he, not_selects_resultfilename] at hsel
  cases hsel

/-- The files of a longer loop: those of its first word, and those still there for the rest. -/
theorem Done.picked_cons {env : RunEnv} {file : Bytes} {w w₁ : World}
    (h : Done env [file] w w₁) (rest : List Bytes) (f c : Bytes) :
    Picked env (file :: rest) w f c ↔ Picked env [file] w f c ∨ Picked env rest w₁ f c := by
  constructor
  · intro hp
    by_cases hf : f = file
    · exact Or.inl ⟨by simp [hf], hp.selects, hp.record⟩
    · have hrest : f ∈ rest := (List.mem_cons.1 hp.word).resolve_left hf
      refine Or.inr ⟨hrest, hp.selects, (h.records f hp.ne_resultfilename c).2 ⟨hp.record, ?_⟩⟩
      exact fun hp' => hf (List.mem_singleton.1 hp'.word)
  · rintro (hp | hp)
    · exact ⟨by simp [List.mem_singleton.1 hp.word], hp.selects, hp.record⟩
    · have hrec := ((h.records f hp.ne_resultfilename c).1 hp.record).1
      exact ⟨List.mem_cons_of_mem _ hp.word, hp.selects, hrec⟩

theorem Done.cons {env : RunEnv} {file : Bytes} {rest : List Bytes} {w w₁ w' : World}
    (h₁ : Done env [file] w w₁) (h₂ : Done env rest w₁ w') : Done env (file :: rest) w w' := by
  have hcons := h₁.picked_cons rest
  refine ⟨fun f hne c => ?_, fun id => ?_, fun f c => ?_⟩
  · rw [h₂.records f hne c, h₁.records f hne c, hcons, not_or, and_assoc]
  · rw [h₂.storage, h₁.storage, and_assoc]
    refine and_congr_right (fun _ => ?_)
    simp only [hcons, or_imp, forall_and]
  · rw [h₂.selected, h₁.selected, hcons, or_assoc]

theorem foldlM_done {env : RunEnv} {words : List Bytes} {w w' : World}
    (h : words.foldlM (processWord env) w = some w') : Done env words w w' := by
  induction words generalizing w with
  | nil =>
      cases h
      exact Done.refl (fun file content hp => absurd hp.word List.not_mem_nil)
  | cons file rest ih =>
      rw [List.foldlM_cons] at h
      obtain ⟨w₁, hfirst, hrest⟩ := Option.bind_eq_some_iff.1 h
      exact (processWord_done hfirst).cons (ih hrest)

/-! ## No file is forgotten -/

/-- The file IDs of a list: its lines. -/
def Listed (content id : Bytes) : Prop :=
  id ∈ content.splitOn LF ∧ id ≠ []

/-- `%Y%m%d%H%M` -/
def isDate (tmpdate : Bytes) : Bool :=
  tmpdate.length == 12 && tmpdate.all isdigit

/-- A name the shell leaves in one piece: no blank, no pattern. -/
def plain (file : Bytes) : Bool :=
  file.all (fun c => !(ascii " \t\n*?[\\").contains c)

/-- From some date on, every run of the script selects the file. -/
def Selectable (file : Bytes) : Prop :=
  plain file = true ∧ ∃ tmpdate, isDate tmpdate = true ∧
    ∀ tmpdate', isDate tmpdate' = true → tmpdate ≤ tmpdate' → selects tmpdate' file = true

theorem Selectable.ne_resultfilename {file : Bytes} (h : Selectable file) :
    file ≠ resultfilename := by
  rintro rfl
  obtain ⟨-, tmpdate, hdate, hall⟩ := h
  have hsel := hall tmpdate hdate (List.le_refl _)
  rw [not_selects_resultfilename] at hsel
  cases hsel

/-- A record file is selected from its own date on. -/
theorem selectable_tmpfilename {tmpdate : Bytes} (h : isDate tmpdate = true) :
    Selectable (tmpfilename tmpdate) := by
  have hlen : ∀ {d}, isDate d = true → d.length = 12 := fun hd => by
    simpa using (Bool.and_eq_true_iff.1 hd).1
  have hdigit : ∀ c : UInt8, isdigit c = true → (!(ascii " \t\n*?[\\").contains c) = true := by
    decide
  refine ⟨?_, tmpdate, h, fun tmpdate' h' hle => ?_⟩
  · simp only [plain, tmpfilename, List.all_append, Bool.and_eq_true]
    refine ⟨⟨by decide, ?_⟩, by decide⟩
    refine List.all_eq_true.2 (fun c hc => hdigit c ?_)
    exact List.all_eq_true.1 (Bool.and_eq_true_iff.1 h).2 c hc
  · rcases List.le_iff_lt_or_eq.1 hle with hlt | heq
    · have hbefore : tmpfilename tmpdate < tmpfilename tmpdate' := by
        unfold tmpfilename
        rw [List.append_assoc, List.append_assoc]
        refine List.append_left_lt ?_
        exact (Radix.append_lt_append_iff ((hlen h).trans (hlen h').symm) _ _).2 (Or.inl hlt)
      simp [selects, hbefore]
    · simp [selects, heq]

/-- Every ID listed in a file processed so far is deleted, or still listed in a record file that a
    later run selects. -/
def World.Remembered (w : World) : Prop :=
  ∀ file content, (file, content) ∈ w.selected → ∀ id, Listed content id →
    id ∉ w.storage ∨ ∃ file' content', w.records[file']? = some content' ∧ Listed content' id ∧
      Selectable file'

/-- The words of the `for` loop. -/
def RunEnv.words (env : RunEnv) (w : World) : List Bytes :=
  env.expand (w.records.keys ++ [ascii "cleanresult"])

/-- The run settles what it selects: an ID listed in a selected file is gone before the run, or the
    cleaner deletes it while it works on some selected file, or it is also listed in a selectable
    file that the run leaves where it is. -/
def Settles (w : World) (env : RunEnv) : Prop :=
  env.legal = true → ∀ file content, Picked env (env.words w) w file content →
    ∀ id, Listed content id →
      id ∉ w.storage ∨
      (∃ file' content', Picked env (env.words w) w file' content' ∧
        (env.answers file').Deletes file' content' id) ∨
      ∃ file' content', w.records[file']? = some content' ∧
        ¬ Picked env (env.words w) w file' content' ∧ Listed content' id ∧ Selectable file'

theorem clean_cases {w w' : World} {env : RunEnv} (h : clean w env = some w') :
    (env.legal = false ∧ w' = w) ∨ (env.legal = true ∧ Done env (env.words w) w w') := by
  unfold clean at h
  split at h
  · next hlegal => exact Or.inr ⟨hlegal, foldlM_done h⟩
  · next hlegal => exact Or.inl ⟨by simpa using hlegal, (Option.some.inj h).symm⟩

theorem World.Remembered.clean {w w' : World} {env : RunEnv} (hw : w.Remembered)
    (hok : Settles w env) (h : clean w env = some w') : w'.Remembered := by
  rcases clean_cases h with ⟨-, rfl⟩ | ⟨hlegal, hdone⟩
  · exact hw
  · -- an ID of a selected file that is still stored is listed in a file the run left alone
    have hsettled : ∀ file content, Picked env (env.words w) w file content →
        ∀ id, Listed content id → id ∈ w'.storage →
        ∃ file' content', w'.records[file']? = some content' ∧ Listed content' id ∧
          Selectable file' := by
      intro file content hp id hid hstored
      obtain ⟨hbefore, hnone⟩ := (hdone.storage id).1 hstored
      rcases hok hlegal file content hp id hid with
        hgone | ⟨file', content', hp', hdel⟩ | ⟨file', content', hrec, hnp, hlist, hsel⟩
      · exact absurd hbefore hgone
      · exact absurd hdel (hnone file' content' hp')
      · refine ⟨file', content', ?_, hlist, hsel⟩
        exact (hdone.records file' hsel.ne_resultfilename content').2 ⟨hrec, hnp⟩
    intro file content hmem id hid
    by_cases hstored : id ∈ w'.storage
    · refine Or.inr ?_
      rcases (hdone.selected file content).1 hmem with hold | hp
      · -- selected by an earlier run: the file that still listed the ID may be selected now
        have hbefore := ((hdone.storage id).1 hstored).1
        rcases hw file content hold id hid with hgone | ⟨file', content', hrec, hlist, hsel⟩
        · exact absurd hbefore hgone
        · by_cases hp' : Picked env (env.words w) w file' content'
          · exact hsettled file' content' hp' id hlist hstored
          · refine ⟨file', content', ?_, hlist, hsel⟩
            exact (hdone.records file' hsel.ne_resultfilename content').2 ⟨hrec, hp'⟩
      · exact hsettled file content hp id hid hstored
    · exact Or.inl hstored

theorem settles_of_remembered {w w' : World} {env : RunEnv} (hw' : w'.Remembered)
    (h : clean w env = some w') : Settles w env := by
  intro hlegal file content hp id hid
  rcases clean_cases h with ⟨hillegal, -⟩ | ⟨-, hdone⟩
  · exact absurd (hillegal.symm.trans hlegal) (by simp)
  · rcases hw' file content ((hdone.selected file content).2 (Or.inr hp)) id hid with
      hgone | ⟨file', content', hrec, hlist, hsel⟩
    · by_cases hbefore : id ∈ w.storage
      · refine Or.inr (Or.inl ?_)
        by_contra hnone
        refine hgone ((hdone.storage id).2 ⟨hbefore, fun file' content' hp' hdel => ?_⟩)
        exact hnone ⟨file', content', hp', hdel⟩
      · exact Or.inl hbefore
    · obtain ⟨hrec', hnp⟩ := (hdone.records file' hsel.ne_resultfilename content').1 hrec
      exact Or.inr (Or.inr ⟨file', content', hrec', hnp, hlist, hsel⟩)

/-- **Cleaning forgets no file exactly in the sequences of runs that all settle what they select.**
    Nothing in the script makes a run settle: it moves every selected file away, whatever the cleaner
    did with it. -/
theorem clean_remembers_iff (w : World) (hfirst : w.selected = []) (runs : List RunEnv)
    (hruns : (Transition.exec clean w runs).isSome) :
    Transition.Always clean World.Remembered w runs ↔ Transition.Along clean Settles w runs := by
  refine Transition.always_iff_along (fun w env w' hw hstep => ?_) ?_ hruns
  · exact ⟨fun hw' => settles_of_remembered hw' hstep, fun hok => hw.clean hok hstep⟩
  · intro file content hmem
    rw [hfirst] at hmem
    exact absurd hmem List.not_mem_nil

/-- A record file with one ID, which is in the storage. -/
def oneRecord : World where
  records := (∅ : Std.TreeMap Bytes Bytes).insert (tmpfilename (ascii "202001010000"))
    (ascii "group1/M00/a")
  cleanresult := ∅
  storage := [ascii "group1/M00/a"]
  selected := []

/-- A run of the script, with the given answer to `tracker_get_connection`. -/
def oneRun (tracker : Option ℕ) : RunEnv where
  legal := true
  tmpdate := ascii "202101010000"
  expand names := names
  answers _ :=
    { started := true,
      config := some [],
      loadPasses := 1,
      fdfsClientInit := fun _ => 0,
      trackerGetConnection := tracker,
      errno := 0,
      listOpens := true,
      deleteResult := fun _ => 0,
      strerror := fun _ => [] }

/-- Nothing is stored any more. -/
theorem World.remembered_of_empty {w : World} (h : w.storage = []) : w.Remembered := by
  intro file content _ id _
  left
  rw [h]
  exact List.not_mem_nil

/-- With a connection the first run deletes what it selects, so both runs settle it. -/
theorem clean_remembers_iff_connected :
    Transition.Always clean World.Remembered oneRecord [oneRun (some 1), oneRun (some 1)] ∧
      Transition.Along clean Settles oneRecord [oneRun (some 1), oneRun (some 1)] := by
  have hremembered :
      Transition.Always clean World.Remembered oneRecord [oneRun (some 1), oneRun (some 1)] := by
    refine ⟨fun file content hmem => absurd hmem List.not_mem_nil, fun w hw => ⟨?_, fun w' hw' => ?_⟩⟩
    · cases hw
      exact World.remembered_of_empty rfl
    · cases hw
      cases hw'
      exact World.remembered_of_empty rfl
  exact ⟨hremembered, (clean_remembers_iff oneRecord rfl _ (by decide)).1 hremembered⟩

/-- No connection to the tracker: the file stays in the storage, and its record is moved away. -/
theorem clean_forgets_record :
    ∃ w, clean oneRecord (oneRun none) = some w ∧ w.storage = [ascii "group1/M00/a"] ∧
      w.selected = [(tmpfilename (ascii "202001010000"), ascii "group1/M00/a")] ∧
      ¬ w.Remembered := by
  obtain ⟨w, hclean, hstorage, hselected⟩ : ∃ w, clean oneRecord (oneRun none) = some w ∧
      w.storage = [ascii "group1/M00/a"] ∧
      w.selected = [(tmpfilename (ascii "202001010000"), ascii "group1/M00/a")] :=
    ⟨_, rfl, rfl, rfl⟩
  refine ⟨w, hclean, hstorage, hselected, fun hrem => ?_⟩
  have hlisted : Listed (ascii "group1/M00/a") (ascii "group1/M00/a") := ⟨by decide, by decide⟩
  rcases hrem _ _ (by rw [hselected]; exact List.mem_singleton_self _) _ hlisted with
    hgone | ⟨file, content, hrec, -, hsel⟩
  · rw [hstorage] at hgone
    exact hgone (List.mem_singleton_self _)
  · -- the only record file there was has been selected
    rcases clean_cases hclean with ⟨hillegal, -⟩ | ⟨-, hdone⟩
    · cases hillegal
    · obtain ⟨hold, hleft⟩ := (hdone.records file hsel.ne_resultfilename content).1 hrec
      have hfile : file = tmpfilename (ascii "202001010000") := by
        unfold oneRecord at hold
        rw [Std.TreeMap.getElem?_insert] at hold
        split at hold
        · next heq => exact (Std.LawfulEqCmp.compare_eq_iff_eq.1 heq).symm
        · simp at hold
      refine hleft ⟨?_, ?_, hold⟩
      · rw [hfile]
        decide
      · rw [hfile]
        decide

end CleanExpire

end FileCacheProxy
