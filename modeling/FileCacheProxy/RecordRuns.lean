import FileCacheProxy.Init
import FileCacheProxy.Lib.Transition
import FileCacheProxy.Records
import Mathlib

set_option autoImplicit false

/-! # The record file over whole runs

Two systems around `records/process.log`. In the first, proxy processes come and go and each start
opens the file anew (`fpmoni.sh` restarts the proxy whenever it is gone), also a start beside a process
that is up. In the second, the event loops of one process insert their records into the one stream they
share. -/

namespace FileCacheProxy

/-! ## Starts, uploads and stops -/

/-- A handler run that answered 200. -/
def Handled.answeredOK (h : Handled) : Bool :=
  h.replies.any (fun reply => reply.1 == HTTP_200)

/-- A proxy and the uploads answered with 200 since the first start. `running` says that there is a
    process; its object, or that of the last process, is `proxy`, and `position` is where its stream
    writes next. -/
structure History where
  running : Bool
  proxy : Proxy
  position : ℕ
  answered : List SuccessfulUpload

inductive Operation where
  | start (env : InitEnv)
  | upload (up : SuccessfulUpload)
  | stop

/-- The history with another record file. -/
def History.withLog (h : History) (processLog : Option Bytes) : History :=
  { h with proxy := { h.proxy with processLog := processLog } }

/-- A start: a new process calls `init` and leaves `main` when that fails. Beside a process that is up
    it fails at `bind`, the address being taken: all that is left of it is what it did to the record. A
    process that hangs in `init` does nothing any more. -/
def History.start (h : History) (env : InitEnv) : History :=
  if h.running && h.proxy.isReady then
    h.withLog (init { env with bind := fun _ _ => -1 } (Proxy.new h.proxy.processLog)).proxy.processLog
  else
    match init env (Proxy.new h.proxy.processLog) with
    | .ret iRet p => { h with running := iRet == 0, proxy := p, position := 0 }
    | flow => { h with running := true, proxy := flow.proxy, position := 0 }

/-- A file into which `text` is written at `position`: a gap before it is filled with zeros. -/
def writeAt (content : Bytes) (position : ℕ) (text : Bytes) : Bytes :=
  content.take position ++ List.replicate (position - content.length) NUL ++ text ++
    content.drop (position + text.length)

theorem writeAt_end (content text : Bytes) : writeAt content content.length text = content ++ text := by
  simp [writeAt]

/-- The insertions of a handler go to the file if the stream is open, else nowhere. The stream does not
    append: it writes where it is. -/
def History.insert (h : History) (insertions : List Bytes) : History :=
  if h.proxy.fFileID then
    { h.withLog (h.proxy.processLog.map (fun content => writeAt content h.position insertions.flatten))
      with position := h.position + insertions.flatten.length }
  else h

/-- An upload reaches the handler of a ready proxy only. An exception out of the handler ends the
    process. -/
def History.upload (h : History) (up : SuccessfulUpload) : History :=
  if h.running && h.proxy.isReady then
    { h.insert up.handled.insertions with
      running := up.handled.exit matches .returned,
      answered := if up.handled.answeredOK then h.answered ++ [up] else h.answered }
  else h

def History.step (h : History) : Operation → Option History
  | .start env => some (h.start env)
  | .upload up => some (h.upload up)
  | .stop => some { h with running := false }

/-- Before the first start, with whatever file there is. -/
def History.first (processLog : Option Bytes) : History :=
  ⟨false, Proxy.new processLog, 0, []⟩

/-- The record has one line for each upload answered so far. -/
def History.Recorded (h : History) : Prop :=
  (h.answered.map SuccessfulUpload.text).Subperm
    ((Cut.lines LF (h.proxy.processLog.getD [])).map some)

/-- No start empties a record that is still needed, and no upload is taken by a process that could
    not open the record. -/
def History.KeepsRecord (h : History) : Operation → Prop
  | .start env => env.recordOpens = true → h.answered = []
  | .upload _ => h.running = true → h.proxy.isReady = true → h.proxy.fFileID = true
  | .stop => True

/-- `Recorded`, and an open stream stands behind the last complete line of the record. -/
structure History.Inv (h : History) : Prop where
  recorded : h.Recorded
  terminated : h.running = true → h.proxy.fFileID = true → ∃ content,
    h.proxy.processLog = some content ∧ content.length = h.position ∧ Cut.Terminated LF content
  fresh : h.answered = [] → h.running = true → h.proxy.fFileID = true → h.position = 0

/-- An emptied record, when nothing has been answered yet. -/
theorem History.Inv.of_empty {h : History} (hlog : h.proxy.processLog = some []) (hposition : h.position = 0)
    (hnone : h.answered = []) : h.Inv := by
  refine ⟨?_, fun _ _ => ⟨[], hlog, hposition.symm, Or.inl rfl⟩, fun _ _ _ => hposition⟩
  rw [History.Recorded, hnone]
  exact List.nil_subperm

/-- A process whose stream is not open, beside the record as it was. -/
theorem History.Inv.of_closed {h h' : History} (hinv : h.Inv)
    (hlog : h'.proxy.processLog = h.proxy.processLog) (hanswered : h'.answered = h.answered)
    (hclosed : h'.proxy.fFileID = false) : h'.Inv := by
  have hnot : ¬ h'.proxy.fFileID = true := by
    rw [hclosed]
    decide
  refine ⟨?_, fun _ hfile => absurd hfile hnot, fun _ _ hfile => absurd hfile hnot⟩
  rw [History.Recorded, hlog, hanswered]
  exact hinv.recorded

theorem History.Inv.start {h : History} {env : InitEnv} (hinv : h.Inv)
    (hok : h.KeepsRecord (.start env)) : (h.start env).Inv := by
  unfold History.start
  by_cases hup : (h.running && h.proxy.isReady) = true
  · rw [if_pos hup]
    -- the second process has emptied the record or left it alone
    have hrecord := (init_record { env with bind := fun _ _ => -1 }
      (p := Proxy.new h.proxy.processLog) rfl).1
    rw [hrecord]
    obtain ⟨hrun, -⟩ := Bool.and_eq_true_iff.1 hup
    cases hopens : env.recordOpens with
    | true =>
        have hnone : h.answered = [] := hok hopens
        rw [if_pos rfl]
        by_cases hfile : h.proxy.fFileID = true
        · exact .of_empty rfl (hinv.fresh hnone hrun hfile) hnone
        · refine ⟨?_, fun _ hfile' => absurd hfile' hfile, fun _ _ hfile' => absurd hfile' hfile⟩
          show (h.answered.map SuccessfulUpload.text).Subperm _
          rw [hnone]
          exact List.nil_subperm
    | false =>
        rw [if_neg (by decide)]
        exact hinv
  · rw [if_neg hup]
    -- however `init` ends, the record is empty or as it was
    have hrecord := init_record env (p := Proxy.new h.proxy.processLog) rfl
    suffices hall : ∀ running p, p.processLog
        = (if env.recordOpens then some [] else h.proxy.processLog) →
        p.fFileID = env.recordOpens → (⟨running, p, 0, h.answered⟩ : History).Inv by
      generalize init env (Proxy.new h.proxy.processLog) = flow at hrecord ⊢
      cases flow with
      | next p => exact hall true p hrecord.1 hrecord.2
      | ret iRet p => exact hall (iRet == 0) p hrecord.1 hrecord.2
      | stuck p => exact hall true p hrecord.1 hrecord.2
    intro running p hlog hopen
    cases hopens : env.recordOpens with
    | true =>
        rw [hopens, if_pos rfl] at hlog
        exact .of_empty hlog rfl (hok hopens)
    | false =>
        rw [hopens, if_neg (by simp)] at hlog
        exact hinv.of_closed hlog rfl (hopen.trans hopens)

theorem History.Inv.upload {h : History} {up : SuccessfulUpload} (hinv : h.Inv)
    (hok : h.KeepsRecord (.upload up)) : (h.upload up).Inv := by
  unfold History.upload
  by_cases hserved : (h.running && h.proxy.isReady) = true
  · rw [if_pos hserved]
    obtain ⟨hrun, hready⟩ := Bool.and_eq_true_iff.1 hserved
    have hfile : h.proxy.fFileID = true := hok hrun hready
    obtain ⟨content, hlog, hposition, hterm⟩ := hinv.terminated hrun hfile
    have hrecorded := hinv.recorded
    unfold History.Recorded at hrecorded
    rw [hlog, Option.getD_some] at hrecorded
    -- the stream stands at the end of the file, so it appends
    have hinsert : ∀ insertions : List Bytes, h.insert insertions
        = { h.withLog (some (content ++ insertions.flatten)) with
            position := h.position + insertions.flatten.length } := by
      intro insertions
      rw [History.insert, if_pos hfile, hlog, Option.map_some, ← hposition, writeAt_end]
    rw [hinsert]
    rcases up.handled_cases with ⟨-, ht⟩ | ⟨j_str, htext, ha⟩
    · -- `dump` threw: nothing was answered, nothing recorded
      have hsilent : up.handled.answeredOK = false := by
        rw [Handled.answeredOK, ht.replies]
        rfl
      rw [hsilent, if_neg (by simp), ht.insertions, List.flatten_nil, List.append_nil]
      exact ⟨hrecorded, fun _ _ => ⟨content, rfl, hposition, hterm⟩,
        fun hnone _ _ => hinv.fresh hnone hrun hfile⟩
    · have hyes : up.handled.answeredOK = true := by
        rw [Handled.answeredOK, ha.replies]
        rfl
      have hnew : ([j_str, [LF]] : List Bytes).flatten = j_str ++ [LF] := by simp
      rw [hyes, if_pos rfl, ha.insertions, hnew]
      refine ⟨?_, fun _ _ => ⟨_, rfl, ?_, Or.inr ⟨content ++ j_str, by simp⟩⟩,
        fun hnone => absurd hnone (by simp)⟩
      · show ((h.answered ++ [up]).map SuccessfulUpload.text).Subperm
          ((Cut.lines LF (content ++ (j_str ++ [LF]))).map some)
        rw [Cut.lines_append hterm (up.text_not_mem_LF htext),
          List.map_append, List.map_append, List.map_singleton, List.map_singleton, htext]
        exact (List.subperm_append_right _).2 hrecorded
      · rw [List.length_append, hposition]
  · rw [if_neg hserved]
    exact hinv

theorem History.Inv.step {h h' : History} {op : Operation} (hinv : h.Inv)
    (hok : h.KeepsRecord op) (hstep : h.step op = some h') : h'.Inv := by
  cases op with
  | start env =>
      cases hstep
      exact hinv.start hok
  | upload up =>
      cases hstep
      exact hinv.upload hok
  | stop =>
      cases hstep
      exact ⟨hinv.recorded, fun hrun => absurd hrun (by simp), fun _ hrun => absurd hrun (by simp)⟩

/-- **No record is lost as long as no start comes after an upload**: in every history whose
    operations satisfy `KeepsRecord`, after each operation the record has a line for every upload
    answered. -/
theorem history_recorded (processLog : Option Bytes) (ops : List Operation)
    (hok : Transition.Along History.step History.KeepsRecord (History.first processLog) ops) :
    Transition.Always History.step History.Recorded (History.first processLog) ops := by
  refine Transition.Always.imp (fun h hinv => History.Inv.recorded hinv)
    (Transition.always_of_step (fun h op h' hinv hok' hstep => hinv.step hok' hstep) ?_ hok)
  exact ⟨List.nil_subperm, fun hrun => absurd hrun (by simp [History.first]), fun _ _ _ => rfl⟩

theorem history_recorded_one_start :
    Transition.Always History.step History.Recorded (History.first none)
      [.start helloStart, .upload helloUpload, .stop] := by
  refine history_recorded none _ ⟨fun _ => rfl, fun h hstart => ⟨?_, fun h' _ => ?_⟩⟩
  · cases hstart
    intro _ _
    rfl
  · exact ⟨trivial, fun _ _ => trivial⟩

/-- The restart that `fpmoni.sh` makes loses the record of the upload before it. -/
theorem history_restart_loses :
    ∃ h, Transition.exec History.step (History.first none)
        [.start helloStart, .upload helloUpload, .stop, .start helloStart] = some h ∧
      h.answered.map SuccessfulUpload.fileID = [ascii "group1/M00/a"] ∧
      h.proxy.processLog = some [] ∧ ¬ h.Recorded := by
  refine ⟨_, rfl, by rfl, by rfl, fun hrec => ?_⟩
  exact absurd hrec.length_le (by decide)

/-! ## Event loops that share the stream -/

/-- The record file, and what each event loop still has to insert into it. -/
structure Writers where
  file : Bytes
  todo : List (List Bytes)

/-- Event loop `i` makes its next insertion. -/
def Writers.step (w : Writers) (i : ℕ) : Option Writers :=
  match w.todo[i]? with
  | some (text :: rest) => some ⟨w.file ++ text, w.todo.set i rest⟩
  | _ => none

/-- `work[i]` are the uploads event loop `i` handles, one after the other. -/
def Writers.first (work : List (List SuccessfulUpload)) : Writers :=
  ⟨[], work.map (fun ups => ups.flatMap (fun up => up.handled.insertions))⟩

def Writers.Finished (w : Writers) : Prop :=
  ∀ l ∈ w.todo, l = []

instance (w : Writers) : Decidable w.Finished :=
  inferInstanceAs (Decidable (∀ l ∈ w.todo, l = []))

/-- Event loop `i` begins a record, the first of two insertions, only while none is between the two
    insertions of its own. -/
def Writers.Alone (w : Writers) (i : ℕ) : Prop :=
  (w.todo.getD i []).length % 2 = 0 → ∀ l ∈ w.todo, l.length % 2 = 0

instance (w : Writers) (i : ℕ) : Decidable (w.Alone i) :=
  inferInstanceAs (Decidable (_ → _))

/-- The file is one line for each upload of `work`, in some order. -/
def OneLineEach (work : List (List SuccessfulUpload)) (file : Bytes) : Prop :=
  ∃ texts : List Bytes, texts.Perm (work.flatten.filterMap SuccessfulUpload.text) ∧
    file = texts.flatMap (· ++ [LF])

/-- The insertions of some records. -/
def records (texts : List Bytes) : List Bytes :=
  texts.flatMap (fun text => [text, [LF]])

theorem records_cons (text : Bytes) (texts : List Bytes) :
    records (text :: texts) = text :: [LF] :: records texts := rfl

theorem records_length (texts : List Bytes) : (records texts).length = 2 * texts.length := by
  induction texts with
  | nil => rfl
  | cons text texts ih =>
      rw [records_cons]
      simp only [List.length_cons, ih]
      omega

theorem insertions_eq_records (ups : List SuccessfulUpload) :
    ups.flatMap (fun up => up.handled.insertions)
      = records (ups.filterMap SuccessfulUpload.text) := by
  induction ups with
  | nil => rfl
  | cons up ups ih =>
      rw [List.flatMap_cons, ih]
      rcases up.handled_cases with ⟨htext, ht⟩ | ⟨j_str, htext, ha⟩
      · rw [ht.insertions, List.filterMap_cons_none htext]
        rfl
      · rw [ha.insertions, List.filterMap_cons_some htext]
        rfl

/-- Taking the head of one list off leaves the others alone. -/
theorem flatten_set_perm {l : List (List Bytes)} {i : ℕ} {t : Bytes} {ts : List Bytes}
    (h : l[i]? = some (t :: ts)) : (t :: (l.set i ts).flatten).Perm l.flatten := by
  induction l generalizing i with
  | nil => exact absurd h (by simp)
  | cons x l ih =>
      cases i with
      | zero =>
          rw [List.getElem?_cons_zero, Option.some.injEq] at h
          rw [h]
          exact List.Perm.refl _
      | succ i =>
          rw [List.getElem?_cons_succ] at h
          rw [List.set_cons_succ, List.flatten_cons, List.flatten_cons]
          exact List.perm_middle.symm.trans ((ih h).append_left x)

/-- The file is the complete lines `ls` and, when event loop `m.1` is between its two insertions, the
    text `m.2`; `rem` are the texts not yet begun. -/
structure Writers.Inv (total : List Bytes) (w : Writers) (ls : List Bytes)
    (mid : Option (ℕ × Bytes)) (rem : List (List Bytes)) : Prop where
  file : w.file = ls.flatMap (· ++ [LF]) ++ (mid.map Prod.snd).getD []
  todo : ∀ i, w.todo[i]? = rem[i]?.map (fun texts =>
    (if mid.map Prod.fst = some i then [[LF]] else []) ++ records texts)
  mid_lt : ∀ m ∈ mid, m.1 < rem.length
  perm : (ls ++ (mid.map Prod.snd).toList ++ rem.flatten).Perm total

/-- Event loop `i` begins a record. -/
theorem Writers.Inv.begin {total : List Bytes} {w : Writers} {ls : List Bytes}
    {rem : List (List Bytes)} {i : ℕ} {text : Bytes} {texts : List Bytes}
    (hinv : w.Inv total ls none rem) (hrem : rem[i]? = some (text :: texts)) :
    (⟨w.file ++ text, w.todo.set i ([LF] :: records texts)⟩ : Writers).Inv total ls (some (i, text))
      (rem.set i texts) := by
  have hlt : i < rem.length := (List.getElem?_eq_some_iff.1 hrem).1
  refine ⟨?_, fun j => ?_, ?_, ?_⟩
  · simp [hinv.file]
  · by_cases hji : i = j
    · have hget := hinv.todo i
      rw [hrem] at hget
      have hlt' : i < w.todo.length := (List.getElem?_eq_some_iff.1 hget).1
      simp [← hji, hlt, hlt']
    · rw [List.getElem?_set_ne hji, List.getElem?_set_ne hji, hinv.todo j]
      simp [hji]
  · intro m hm
    rw [← Option.some.inj hm, List.length_set]
    exact hlt
  · refine List.Perm.trans ?_ hinv.perm
    simp only [Option.map_some, Option.map_none, Option.toList_some, Option.toList_none,
      List.append_assoc, List.singleton_append, List.nil_append]
    exact (flatten_set_perm hrem).append_left ls

/-- Event loop `i` ends its record. -/
theorem Writers.Inv.finish {total : List Bytes} {w : Writers} {ls : List Bytes}
    {rem : List (List Bytes)} {i : ℕ} {text : Bytes} {texts : List Bytes}
    (hinv : w.Inv total ls (some (i, text)) rem) (hrem : rem[i]? = some texts) :
    (⟨w.file ++ [LF], w.todo.set i (records texts)⟩ : Writers).Inv total (ls ++ [text]) none rem := by
  refine ⟨?_, fun j => ?_, ?_, ?_⟩
  · simp [hinv.file]
  · by_cases hji : i = j
    · have hget := hinv.todo i
      rw [hrem] at hget
      have hlt' : i < w.todo.length := (List.getElem?_eq_some_iff.1 hget).1
      simp [← hji, hlt', hrem]
    · rw [List.getElem?_set_ne hji, hinv.todo j]
      simp [hji]
  · exact fun m hm => absurd hm (by simp)
  · simpa using hinv.perm

theorem Writers.Inv.step {total : List Bytes} {w w' : Writers} {ls : List Bytes}
    {mid : Option (ℕ × Bytes)} {rem : List (List Bytes)} {i : ℕ} (hinv : w.Inv total ls mid rem)
    (hok : w.Alone i) (hstep : w.step i = some w') :
    ∃ ls' mid' rem', w'.Inv total ls' mid' rem' := by
  unfold Writers.step at hstep
  split at hstep
  · next text rest hi =>
      cases hstep
      have htodo := hinv.todo i
      rw [hi] at htodo
      obtain ⟨texts, hrem, htexts⟩ := Option.map_eq_some_iff.1 htodo.symm
      cases mid with
      | none =>
          rw [if_neg (by simp), List.nil_append] at htexts
          cases texts with
          | nil => exact absurd htexts (by simp [records])
          | cons t ts =>
              rw [records_cons, List.cons.injEq] at htexts
              rw [← htexts.1, ← htexts.2]
              exact ⟨ls, some (i, t), rem.set i ts, hinv.begin hrem⟩
      | some m =>
          obtain ⟨j, t⟩ := m
          by_cases hji : j = i
          · subst hji
            rw [Option.map_some, if_pos rfl] at htexts
            cases htexts
            exact ⟨ls ++ [t], none, rem, hinv.finish hrem⟩
          · -- event loop `j` is inside a record, so `i` may not begin one
            rw [if_neg (by simpa using hji), List.nil_append] at htexts
            have heven : (w.todo.getD i []).length % 2 = 0 := by
              rw [List.getD_eq_getElem?_getD, hi, Option.getD_some, ← htexts, records_length]
              omega
            have hj : j < rem.length := hinv.mid_lt (j, t) rfl
            have hother := hinv.todo j
            rw [List.getElem?_eq_getElem hj, Option.map_some, Option.map_some, if_pos rfl] at hother
            have hodd := hok heven _ (List.mem_of_getElem? hother)
            simp only [List.length_append, List.length_singleton, records_length] at hodd
            omega
  · exact absurd hstep (by simp)

theorem Writers.Inv.first (work : List (List SuccessfulUpload)) :
    (Writers.first work).Inv (work.flatten.filterMap SuccessfulUpload.text) [] none
      (work.map (fun ups => ups.filterMap SuccessfulUpload.text)) := by
  refine ⟨rfl, fun i => ?_, fun m hm => absurd hm (by simp), ?_⟩
  · simp only [Writers.first, List.getElem?_map, Option.map_map, insertions_eq_records]
    rfl
  · rw [List.filterMap_flatten]
    exact List.Perm.refl _

theorem Writers.Inv.oneLineEach {work : List (List SuccessfulUpload)} {w : Writers}
    {ls : List Bytes} {mid : Option (ℕ × Bytes)} {rem : List (List Bytes)}
    (hinv : w.Inv (work.flatten.filterMap SuccessfulUpload.text) ls mid rem)
    (hfin : w.Finished) : OneLineEach work w.file := by
  have hnil : ∀ {i : ℕ} {texts : List Bytes}, rem[i]? = some texts →
      (if mid.map Prod.fst = some i then [[LF]] else []) ++ records texts = [] := by
    intro i texts hi
    have hget := hinv.todo i
    rw [hi] at hget
    exact hfin _ (List.mem_of_getElem? hget)
  -- a loop inside a record would still have its newline to insert
  have hmid : mid = none := by
    cases mid with
    | none => rfl
    | some m =>
        have h := hnil (List.getElem?_eq_getElem (hinv.mid_lt m rfl))
        rw [Option.map_some, if_pos rfl] at h
        exact absurd h (by simp)
  have hrem : rem.flatten = [] := by
    refine List.flatten_eq_nil_iff.2 (fun texts hmem => ?_)
    obtain ⟨i, hi⟩ := List.mem_iff_getElem?.1 hmem
    have h := (List.append_eq_nil_iff.1 (hnil hi)).2
    have hlen := records_length texts
    rw [h] at hlen
    exact List.length_eq_zero_iff.1 (by simpa using hlen.symm)
  refine ⟨ls, ?_, ?_⟩
  · have hperm := hinv.perm
    rw [hmid, hrem] at hperm
    simpa using hperm
  · rw [hinv.file, hmid]
    simp

/-- **Records that do not overlap stay whole**: if in a run no event loop begins a record while
    another is inside one, then once all are done the file has one line for each upload. -/
theorem writers_oneLineEach (work : List (List SuccessfulUpload)) (run : List ℕ) {w : Writers}
    (hok : Transition.Along Writers.step Writers.Alone (Writers.first work) run)
    (hrun : Transition.exec Writers.step (Writers.first work) run = some w)
    (hfin : w.Finished) : OneLineEach work w.file := by
  have halways := Transition.always_of_step
    (I := fun w => ∃ ls mid rem,
      Writers.Inv (work.flatten.filterMap SuccessfulUpload.text) w ls mid rem)
    (fun w i w' hinv hok' hstep => by
      obtain ⟨ls, mid, rem, h⟩ := hinv
      exact h.step hok' hstep)
    ⟨_, _, _, Writers.Inv.first work⟩ hok
  obtain ⟨ls, mid, rem, hinv⟩ := halways.last hrun
  exact hinv.oneLineEach hfin

theorem writers_oneLineEach_in_turn :
    ∃ w, Transition.exec Writers.step (Writers.first [[helloUpload], [helloUpload]]) [0, 0, 1, 1]
        = some w ∧ OneLineEach [[helloUpload], [helloUpload]] w.file := by
  refine ⟨_, rfl, writers_oneLineEach [[helloUpload], [helloUpload]] [0, 0, 1, 1] ?_ rfl ?_⟩
  · decide
  · decide

/-- Two loops in step: both texts on one line, and an empty line behind it. -/
theorem writers_merge_lines :
    ∃ w, Transition.exec Writers.step (Writers.first [[helloUpload], [helloUpload]]) [0, 1, 0, 1]
        = some w ∧ w.Finished ∧ ¬ OneLineEach [[helloUpload], [helloUpload]] w.file := by
  refine ⟨_, rfl, ?_, ?_⟩
  · decide
  · rintro ⟨texts, hperm, hfile⟩
    have htwo : texts = List.replicate 2 (ascii "\x7b\"FileID\":\"group1/M00/a\"\x7d") :=
      List.perm_replicate.1 hperm
    rw [htwo] at hfile
    exact absurd hfile (by decide)

end FileCacheProxy
