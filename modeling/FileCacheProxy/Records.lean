import FileCacheProxy.ExpireCleaner
import FileCacheProxy.Replies
import Mathlib

set_option autoImplicit false

/-! # The record file and its reader

`upload_handler` records every stored file in `fFileID`; `expireCleaner` reads such a file back and
deletes what it names. The two programs share no definition of the format: the writer puts a JSON
object on a line, the reader takes up to 127 bytes of a line, newline included, for a file ID. -/

namespace FileCacheProxy

/-! ## Successful uploads -/

/-- The arguments `upload_handler` passes to `storage_upload_by_filebuff`. -/
def uploadArgs (be : Backend) (req : Request) (arg : ThreadParam) (file_content : Bytes)
    (pStorageServer : ConnectionInfo) : UploadArgs :=
  { pTrackerServer := arg.connectResult,
    pStorageServer := pStorageServer,
    store_path_index := (be.trackerQueryStorageStore arg.connectResult).store_path_index,
    file_buff := file_content,
    file_size := file_content.length,
    file_ext_name := req.findHeader (ascii "FileExt"),
    meta_count := 0,
    group_name := (be.trackerQueryStorageStore arg.connectResult).group_name }

/-- A request to `upload_handler` whose three FastDFS calls all succeed. -/
structure SuccessfulUpload where
  be : Backend
  req : Request
  arg : ThreadParam
  file_content : Bytes
  pStorageServer : ConnectionInfo
  body : req.inputBuffer = some file_content
  queried : (be.trackerQueryStorageStore arg.connectResult).result = 0
  connected : be.trackerMakeConnection
    (be.trackerQueryStorageStore arg.connectResult).storageServer = some pStorageServer
  stored : (be.storageUploadByFilebuff
    (uploadArgs be req arg file_content pStorageServer)).result = 0

namespace SuccessfulUpload

/-- What the storage returned. -/
def reply (up : SuccessfulUpload) : UploadReply :=
  up.be.storageUploadByFilebuff (uploadArgs up.be up.req up.arg up.file_content up.pStorageServer)

/-- `group_name ++ "/" ++ remote_filename` -/
def fileID (up : SuccessfulUpload) : Bytes :=
  up.reply.fileID

/-- What the handler does with the request. -/
def handled (up : SuccessfulUpload) : Handled :=
  uploadHandler up.be up.req up.arg

/-- The calls of a successful upload. -/
def acts (up : SuccessfulUpload) : List Action :=
  [.newChars up.file_content.length,
    .fdfs (.trackerQueryStorageStore up.arg.connectResult) true,
    .fdfs (.trackerMakeConnection
      (up.be.trackerQueryStorageStore up.arg.connectResult).storageServer) true,
    .fdfs (.storageUploadByFilebuff
      (uploadArgs up.be up.req up.arg up.file_content up.pStorageServer)) true]

theorem handled_eq (up : SuccessfulUpload) : up.handled = uploadReply up.acts up.reply := by
  have hq : ¬ (up.be.trackerQueryStorageStore up.arg.connectResult).result ≠ 0 :=
    not_not.2 up.queried
  have hs : ¬ (up.be.storageUploadByFilebuff (uploadArgs up.be up.req up.arg up.file_content
      up.pStorageServer)).result ≠ 0 := not_not.2 up.stored
  have hq0 := up.queried
  have hs0 := up.stored
  unfold uploadArgs at hs hs0
  unfold handled uploadHandler
  rw [up.body]
  dsimp only
  rw [if_neg hq, up.connected]
  dsimp only
  rw [if_neg hs, hq0, hs0]
  rfl

/-- The text of the record, `none` when `dump` throws. -/
def text (up : SuccessfulUpload) : Option Bytes :=
  (fileIDJson up.fileID).dump

/-- The storage has the file: the client gets its ID and the record gets two insertions, unless
    `dump` throws. -/
theorem handled_cases (up : SuccessfulUpload) :
    (up.text = none ∧ Threw up.handled) ∨
    ∃ j_str, up.text = some j_str ∧
      Answered up.handled j_str (some j_str) [true, true, true] [j_str, [LF]] := by
  rw [handled_eq, uploadReply_eq]
  unfold text fileID
  cases (fileIDJson up.reply.fileID).dump with
  | none => exact Or.inl ⟨rfl, rfl, rfl, rfl, rfl⟩
  | some j_str => exact Or.inr ⟨j_str, rfl, rfl, rfl, rfl, rfl, rfl⟩

/-- The two insertions of a successful upload. -/
theorem handled_insertions {up : SuccessfulUpload} {j_str : Bytes} (h : up.text = some j_str) :
    up.handled.insertions = [j_str, [LF]] := by
  rcases up.handled_cases with ⟨hnone, _⟩ | ⟨j_str', hsome, ha⟩
  · exact absurd (hnone.symm.trans h) (by simp)
  · have heq : j_str' = j_str := Option.some.inj (hsome.symm.trans h)
    rw [ha.insertions, heq]

theorem text_not_mem_LF {up : SuccessfulUpload} {j_str : Bytes} (h : up.text = some j_str) :
    LF ∉ j_str :=
  noControl.not_mem (Json.dump_noControl _ j_str h) (by decide)

end SuccessfulUpload

/-- The record file after the given handler runs, one after the other, on an empty file. -/
def recordFile (hs : List Handled) : Bytes :=
  (hs.flatMap Handled.insertions).flatten

/-! ## Printable names -/

/-- Printable ASCII. -/
def printable (s : Bytes) : Bool :=
  s.all (fun c => 0x20 ≤ c && c ≤ 0x7E)

theorem cstr_of_printable {s : Bytes} (h : printable s = true) : cstr s = s := by
  refine cstr_eq_self (fun hmem => ?_)
  have hNUL := List.all_eq_true.1 h NUL hmem
  exact absurd hNUL (by decide)

/-- The file names of the upload are printable. -/
def SuccessfulUpload.Printable (up : SuccessfulUpload) : Prop :=
  printable up.reply.group_name = true ∧ printable up.reply.remote_filename = true

theorem SuccessfulUpload.Printable.fileID_eq {up : SuccessfulUpload} (h : up.Printable) :
    up.fileID = up.reply.group_name ++ ascii "/" ++ up.reply.remote_filename := by
  unfold SuccessfulUpload.fileID UploadReply.fileID
  rw [cstr_of_printable h.1, cstr_of_printable h.2]

theorem SuccessfulUpload.Printable.text_eq {up : SuccessfulUpload} (h : up.Printable) :
    up.text = some (ascii "\x7b\"FileID\":\"" ++ up.fileID.flatMap escapeAscii ++ ascii "\"\x7d") := by
  have hprint : printable up.fileID = true := by
    rw [h.fileID_eq]
    simp only [printable, List.all_append, Bool.and_eq_true] at h ⊢
    exact ⟨⟨h.1, by decide⟩, h.2⟩
  have hascii : ∀ c ∈ up.fileID, 32 ≤ c ∧ c < 0x80 := by
    intro c hc
    have hc' := List.all_eq_true.1 hprint c hc
    simp only [Bool.and_eq_true, decide_eq_true_eq] at hc'
    exact ⟨hc'.1, UInt8.lt_of_le_of_lt hc'.2 (by decide)⟩
  rw [SuccessfulUpload.text, fileIDJson_dump, dumpEscaped_ascii hascii]
  rfl

theorem length_le_flatMap_escapeAscii (s : Bytes) : s.length ≤ (s.flatMap escapeAscii).length := by
  have hone : ∀ c, 1 ≤ (escapeAscii c).length := by
    intro c
    unfold escapeAscii
    split_ifs
    · decide
    · decide
    · exact le_rfl
  induction s with
  | nil => exact le_rfl
  | cons c s ih =>
      rw [List.flatMap_cons, List.length_append, List.length_cons]
      have := hone c
      omega

/-- A record is at least fourteen bytes longer than the file ID in it. -/
theorem SuccessfulUpload.Printable.record_length {up : SuccessfulUpload} (h : up.Printable) :
    up.fileID.length + 14 ≤ up.handled.insertions.flatten.length := by
  have hesc := length_le_flatMap_escapeAscii up.fileID
  have hopen : (ascii "\x7b\"FileID\":\"").length = 11 := by decide
  have hclose : (ascii "\"\x7d").length = 2 := by decide
  rw [SuccessfulUpload.handled_insertions h.text_eq]
  simp only [List.flatten_cons, List.flatten_nil, List.append_nil, List.length_append,
    List.length_singleton, hopen, hclose]
  omega

theorem SuccessfulUpload.Printable.NUL_not_mem_record {up : SuccessfulUpload} (h : up.Printable) :
    NUL ∉ up.handled.insertions.flatten := by
  have htext : NUL ∉ _ := noControl.not_mem (Json.dump_noControl _ _ h.text_eq) (by decide)
  rw [SuccessfulUpload.handled_insertions h.text_eq]
  simp only [List.flatten_cons, List.flatten_nil, List.append_nil, List.mem_append, not_or] at htext ⊢
  exact ⟨htext, by decide⟩

/-! ## The cleaner on a record file -/

theorem recordFile_cons (h : Handled) (hs : List Handled) :
    recordFile (h :: hs) = h.insertions.flatten ++ recordFile hs := by
  simp [recordFile]

theorem recordFile_length (ups : List SuccessfulUpload) (h : ∀ up ∈ ups, up.Printable) :
    (ups.map SuccessfulUpload.fileID).flatten.length + 14 * ups.length
      ≤ (recordFile (ups.map SuccessfulUpload.handled)).length := by
  induction ups with
  | nil => exact le_rfl
  | cons up ups ih =>
      obtain ⟨hup, hups⟩ := List.forall_mem_cons.1 h
      have hrec := hup.record_length
      have hrest := ih hups
      simp only [List.map_cons, List.flatten_cons, List.length_append, List.length_cons,
        recordFile_cons]
      omega

theorem NUL_not_mem_recordFile (ups : List SuccessfulUpload) (h : ∀ up ∈ ups, up.Printable) :
    NUL ∉ recordFile (ups.map SuccessfulUpload.handled) := by
  induction ups with
  | nil => exact List.not_mem_nil
  | cons up ups ih =>
      obtain ⟨hup, hups⟩ := List.forall_mem_cons.1 h
      rw [List.map_cons, recordFile_cons, List.mem_append, not_or]
      exact ⟨hup.NUL_not_mem_record, ih hups⟩

open ExpireCleaner in
/-- **No record is understood by the cleaner.** Given the record file of some uploads, the cleaner
    asks to delete exactly their file IDs only when there were none: altogether the arguments are as
    long as the file, and every record is longer than its ID. -/
theorem cleaner_deletes_recorded_iff (ups : List SuccessfulUpload)
    (hnames : ∀ up ∈ ups, up.Printable) (env : CleanerEnv) {fuel : ℕ} {r : ℤ × Config}
    (argv0 config list : Bytes) (hload : (Config.new config).load env.fs fuel = some r)
    (hlist : env.fs list = some (recordFile (ups.map SuccessfulUpload.handled))) :
    ∃ run, main env fuel [argv0, config, list] = some run ∧
      (run.calls.map Prod.fst = ups.map SuccessfulUpload.fileID ↔ ups = []) := by
  obtain ⟨run, hrun, hcalls⟩ := main_calls env argv0 config list hload
  refine ⟨run, hrun, ?_⟩
  rcases hcalls with ⟨content, hreach, hcalls⟩ | ⟨-, hcalls⟩
  · have hcontent : content = recordFile (ups.map SuccessfulUpload.handled) := by
      have := hreach.opened
      rw [hlist, Option.some.injEq] at this
      exact this.symm
    have hNUL : NUL ∉ content := by
      rw [hcontent]
      exact NUL_not_mem_recordFile ups hnames
    rw [hcalls, callsFrom_map_fst, map_cstr_listPieces hNUL]
    constructor
    · -- the arguments put together are the file, which is longer than all its IDs
      intro heq
      have hlen : (ups.map SuccessfulUpload.fileID).flatten.length = content.length := by
        rw [← heq, flatten_listPieces]
      have hbound := recordFile_length ups hnames
      rw [← hcontent] at hbound
      exact List.length_eq_zero_iff.1 (by omega)
    · intro hnil
      rw [hcontent, hnil]
      rfl
  · rw [hcalls]
    cases ups with
    | nil => exact iff_of_true rfl rfl
    | cons up ups => exact iff_of_false (by simp) (by simp)

/-- A request to `/upload` that `obligingBackend` stores as `group1/M00/a`. -/
def helloUpload : SuccessfulUpload where
  be := obligingBackend
  req := ⟨ascii "/upload", [], some (ascii "hello")⟩
  arg := ⟨0, 0, 0, 0, some 1⟩
  file_content := ascii "hello"
  pStorageServer := 1
  body := rfl
  queried := rfl
  connected := rfl
  stored := rfl

/-- A cleaner run in which every call succeeds, on the record file of `helloUpload`. -/
def helloCleaner : ExpireCleaner.CleanerEnv where
  fs path :=
    if path = ascii "process.log" then some (recordFile [helloUpload.handled])
    else some (ascii "clientConfPath = client.conf")
  fdfsClientInit _ := 0
  trackerGetConnection := some 1
  errno := 0
  deleteResult _ := 0
  strerror _ := ascii "Success"

open ExpireCleaner in
theorem cleaner_deletes_recorded_iff_hello :
    ∃ run, main helloCleaner 1 [ascii "fdfs_batch_delete", ascii "conf", ascii "process.log"]
        = some run ∧
      (run.calls.map Prod.fst = [helloUpload].map SuccessfulUpload.fileID ↔ [helloUpload] = []) := by
  refine cleaner_deletes_recorded_iff [helloUpload] ?_ helloCleaner _ _ _
    (r := (0, { filePath := ascii "conf",
                mItems := (∅ : Std.TreeMap Bytes Bytes).insertIfNew (ascii "clientConfPath")
                  (ascii "client.conf") })) ?_ ?_
  · intro up hup
    rw [List.mem_singleton.1 hup]
    exact ⟨by decide, by decide⟩
  · rfl
  · rfl

open ExpireCleaner in
theorem cleaner_misreads_hello :
    ∃ run, main helloCleaner 1 [ascii "fdfs_batch_delete", ascii "conf", ascii "process.log"]
        = some run ∧
      run.calls.map Prod.fst = [ascii "\x7b\"FileID\":\"group1/M00/a\"\x7d\n"] ∧
      run.calls.map Prod.fst ≠ [helloUpload].map SuccessfulUpload.fileID :=
  ⟨_, rfl, by decide, by decide⟩

end FileCacheProxy
