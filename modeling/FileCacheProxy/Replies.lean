import FileCacheProxy.Handlers
import Mathlib

set_option autoImplicit false

/-! # Replies

What a client sees of the handlers of `Handlers.lean`: how often a request is answered, with which
status, and whether the announced length is the length of the body. Each handler is inverted once
(`uploadHandler_cases` and the like); everything below follows from the cases. -/

namespace FileCacheProxy

/-! ## Reading a trace -/

/-- The replies sent: status, reason and body buffer. -/
def Handled.replies (h : Handled) : List (ℕ × Bytes × Option Bytes) :=
  h.trace.filterMap (fun
    | .sendReply code reason databuf => some (code, reason, databuf)
    | _ => none)

/-- Whether the FastDFS calls made reported success, in order. -/
def Handled.callResults (h : Handled) : List Bool :=
  h.trace.filterMap (fun
    | .fdfs _ ok => some ok
    | _ => none)

/-- The values of the `Content-Length` headers added. -/
def Handled.contentLengths (h : Handled) : List Bytes :=
  h.trace.filterMap (fun
    | .addHeader key value => if key = contentLength then some value else none
    | _ => none)

/-- The insertions into `fFileID`. -/
def Handled.insertions (h : Handled) : List Bytes :=
  h.trace.filterMap (fun
    | .insertRecord text => some text
    | _ => none)

/-! ## The JSON texts -/

theorem fileIDJson_dump (fileID : Bytes) :
    (fileIDJson fileID).dump =
      (dumpEscaped fileID).map (fun t => ascii "\x7b\"FileID\":\"" ++ t ++ ascii "\"\x7d") := by
  have hkey : dumpEscaped (ascii "FileID") = some (ascii "FileID") := by decide
  have hshape : fileIDJson fileID
      = .object (.cons (ascii "FileID") (.string fileID) .nil) := rfl
  rw [hshape, Json.dump, Members.dump, hkey, Json.dump]
  cases dumpEscaped fileID with
  | none => rfl
  | some t =>
      have hopen : ascii "\x7b\"FileID\":\""
          = ascii "\x7b" ++ (ascii "\"" ++ ascii "FileID" ++ ascii "\":" ++ ascii "\"") := by decide
      have hclose : ascii "\"\x7d" = ascii "\"" ++ ascii "\x7d" := by decide
      simp only [Option.map_some, Option.bind_eq_bind, Option.bind_some, hopen, hclose,
        List.append_assoc]

theorem fileInfoJson_dump_isSome {createTime : Bytes} (h : ValidUtf8 createTime)
    (info : FDFSFileInfo) : (fileInfoJson createTime info).dump.isSome := by
  have hshape : fileInfoJson createTime info
      = .object (.cons (ascii "FileInfo") (.object
          (.cons (ascii "CreateTime") (.string createTime)
            (.cons (ascii "FileCrc32") (.number info.crc32)
              (.cons (ascii "FileSize") (.number info.file_size) .nil)))) .nil) := by
    rfl
  have h1 : dumpEscaped (ascii "FileInfo") = some (ascii "FileInfo") := by decide
  have h2 : dumpEscaped (ascii "CreateTime") = some (ascii "CreateTime") := by decide
  have h3 : dumpEscaped (ascii "FileCrc32") = some (ascii "FileCrc32") := by decide
  have h4 : dumpEscaped (ascii "FileSize") = some (ascii "FileSize") := by decide
  obtain ⟨t, ht⟩ := Option.isSome_iff_exists.1 (dumpEscaped_isSome h)
  rw [hshape]
  simp [Json.dump, Members.dump, h1, h2, h3, h4, ht]

/-- A dumped text survives the trip through `"%s"`. -/
theorem cstr_dump {j : Json} {j_str : Bytes} (h : j.dump = some j_str) : cstr j_str = j_str :=
  cstr_eq_self (noControl.not_mem (Json.dump_noControl j j_str h) (by decide))

/-- The file ID of a stored file. -/
def UploadReply.fileID (up : UploadReply) : Bytes :=
  cstr up.group_name ++ ascii "/" ++ cstr up.remote_filename

theorem UploadReply.cstr_fileID (up : UploadReply) : cstr up.fileID = up.fileID := by
  refine cstr_eq_self ?_
  simp only [UploadReply.fileID, List.mem_append, not_or]
  exact ⟨⟨NUL_not_mem_cstr _, by decide⟩, NUL_not_mem_cstr _⟩

/-- What `upload_handler` does after a successful upload, with `string_format` out of the way. -/
theorem uploadReply_eq (acts : List Action) (up : UploadReply) :
    uploadReply acts up =
      match (fileIDJson up.fileID).dump with
      | none => ⟨acts, .threw⟩
      | some j_str =>
          ⟨acts ++ [.evbufferNew] ++ jsonHeaders j_str ++
            [.sendReply HTTP_200 (ascii "OK") (some j_str), .evbufferFree,
              .insertRecord j_str, .insertRecord [LF]], .returned⟩ := by
  have hfmt : stringFormat (ascii "%s/%s") (formatInto up.fileID) 2 = some up.fileID := by
    rw [stringFormat_eq, up.cstr_fileID]
  simp only [uploadReply]
  rw [show cstr up.group_name ++ ascii "/" ++ cstr up.remote_filename = up.fileID from rfl, hfmt]
  dsimp only
  cases hdump : (fileIDJson up.fileID).dump with
  | none => rfl
  | some j_str =>
      dsimp only
      rw [cstr_dump hdump]

/-! ## The exits of each handler -/

/-- A refusal: one reply without a length header and without a record, after `results`. -/
structure Refused (h : Handled) (code : ℕ) (results : List Bool) : Prop where
  exit : h.exit = .returned
  replies : ∃ reason databuf, h.replies = [(code, reason, databuf)]
  callResults : h.callResults = results
  contentLengths : h.contentLengths = []
  insertions : h.insertions = []

/-- An answer with status 200 and a JSON text: the body buffer, and what is recorded. -/
structure Answered (h : Handled) (j_str : Bytes) (databuf : Option Bytes) (results : List Bool)
    (recorded : List Bytes) : Prop where
  exit : h.exit = .returned
  replies : h.replies = [(HTTP_200, ascii "OK", databuf)]
  callResults : h.callResults = results
  contentLengths : h.contentLengths = [decimal j_str.length]
  insertions : h.insertions = recorded

/-- `dump` threw: nothing was sent, no header added. -/
structure Threw (h : Handled) : Prop where
  exit : h.exit = .threw
  replies : h.replies = []
  contentLengths : h.contentLengths = []
  insertions : h.insertions = []

theorem httpdHandler_refused (be : Backend) (req : Request) (arg : ThreadParam) :
    Refused (httpdHandler be req arg) HTTP_400 [] :=
  ⟨rfl, ⟨_, _, rfl⟩, rfl, rfl, rfl⟩

/-- The three backend calls of an upload, as they are made one after the other. -/
theorem uploadHandler_cases (be : Backend) (req : Request) (arg : ThreadParam) :
    (req.inputBuffer = none ∧ Refused (uploadHandler be req arg) HTTP_400 []) ∨
    (req.inputBuffer.isSome ∧ ∃ results, false ∈ results ∧
      Refused (uploadHandler be req arg) HTTP_503 results) ∨
    (req.inputBuffer.isSome ∧ ∃ args,
      (be.storageUploadByFilebuff args).result = 0 ∧
      (((fileIDJson (be.storageUploadByFilebuff args).fileID).dump = none ∧
          Threw (uploadHandler be req arg)) ∨
        ∃ j_str, (fileIDJson (be.storageUploadByFilebuff args).fileID).dump = some j_str ∧
          Answered (uploadHandler be req arg) j_str (some j_str) [true, true, true]
            [j_str, [LF]])) := by
  unfold uploadHandler
  dsimp only
  cases hbuf : req.inputBuffer with
  | none => exact Or.inl ⟨rfl, rfl, ⟨_, _, rfl⟩, rfl, rfl, rfl⟩
  | some file_content =>
      dsimp only
      split
      · next hq =>
          have hok : ((be.trackerQueryStorageStore arg.connectResult).result == 0) = false := by
            simpa using hq
          refine Or.inr (Or.inl ⟨rfl, [false], by simp, rfl, ⟨_, _, rfl⟩, ?_, rfl, rfl⟩)
          simp [Handled.callResults, replyEmpty, hok]
      · next hq =>
          have hok : ((be.trackerQueryStorageStore arg.connectResult).result == 0) = true := by
            simpa using hq
          rw [hok]
          cases be.trackerMakeConnection
              (be.trackerQueryStorageStore arg.connectResult).storageServer with
          | none =>
              exact Or.inr (Or.inl ⟨rfl, [true, false], by simp, rfl, ⟨_, _, rfl⟩, rfl, rfl, rfl⟩)
          | some pStorageServer =>
              dsimp only
              generalize hargs : (UploadArgs.mk _ _ _ _ _ _ _ _) = args
              split
              · next hup =>
                  have hbad : ((be.storageUploadByFilebuff args).result == 0) = false := by
                    simpa using hup
                  rw [hbad]
                  exact Or.inr (Or.inl ⟨rfl, [true, true, false], by simp, rfl, ⟨_, _, rfl⟩, rfl,
                    rfl, rfl⟩)
              · next hup =>
                  have hzero : (be.storageUploadByFilebuff args).result = 0 := not_not.1 hup
                  rw [hzero, uploadReply_eq]
                  refine Or.inr (Or.inr ⟨rfl, args, hzero, ?_⟩)
                  cases hdump : (fileIDJson (be.storageUploadByFilebuff args).fileID).dump with
                  | none => exact Or.inl ⟨rfl, rfl, rfl, rfl, rfl⟩
                  | some j_str => exact Or.inr ⟨j_str, rfl, rfl, rfl, rfl, rfl, rfl⟩

/-- `delete_handler` announces the two bytes of `{}` and sends no buffer. -/
theorem deleteHandler_cases (be : Backend) (req : Request) (arg : ThreadParam) :
    (req.findHeader (ascii "FileID") = none ∧ Refused (deleteHandler be req arg) HTTP_400 []) ∨
    ∃ fileID, req.findHeader (ascii "FileID") = some fileID ∧
      ((be.storageDeleteFile1 arg.connectResult fileID ≠ 0 ∧
          Refused (deleteHandler be req arg) HTTP_400 [false]) ∨
        (be.storageDeleteFile1 arg.connectResult fileID = 0 ∧
          Answered (deleteHandler be req arg) (ascii "\x7b\x7d") none [true] [])) := by
  unfold deleteHandler
  cases req.findHeader (ascii "FileID") with
  | none => exact Or.inl ⟨rfl, rfl, ⟨_, _, rfl⟩, rfl, rfl, rfl⟩
  | some fileID =>
      refine Or.inr ⟨fileID, rfl, ?_⟩
      dsimp only
      by_cases hres : be.storageDeleteFile1 arg.connectResult fileID = 0
      · have hdump : (Json.object .nil).dump = some (ascii "\x7b\x7d") := by decide
        rw [if_neg (not_not.2 hres), hdump, hres]
        exact Or.inr ⟨rfl, rfl, rfl, rfl, rfl, rfl⟩
      · have hbad : (be.storageDeleteFile1 arg.connectResult fileID == 0) = false := by
          simpa using hres
        rw [if_pos hres, hbad]
        exact Or.inl ⟨hres, rfl, ⟨_, _, rfl⟩, rfl, rfl, rfl⟩

theorem fileinfoHandler_cases (be : Backend) (req : Request) (arg : ThreadParam) :
    (req.findHeader (ascii "FileID") = none ∧ Refused (fileinfoHandler be req arg) HTTP_400 []) ∨
    ∃ fileID, req.findHeader (ascii "FileID") = some fileID ∧
      (Refused (fileinfoHandler be req arg) HTTP_400 [false] ∨
        ∃ j_str, Answered (fileinfoHandler be req arg) j_str (some j_str) [true] []) := by
  unfold fileinfoHandler
  cases req.findHeader (ascii "FileID") with
  | none => exact Or.inl ⟨rfl, rfl, ⟨_, _, rfl⟩, rfl, rfl, rfl⟩
  | some fileID =>
      refine Or.inr ⟨fileID, rfl, ?_⟩
      dsimp only
      by_cases hres : (be.fdfsGetFileInfo1 fileID).1 = 0
      · obtain ⟨j_str, hdump⟩ := Option.isSome_iff_exists.1 (fileInfoJson_dump_isSome
          (validUtf8_getTimeNow be.localtime be.clock) (be.fdfsGetFileInfo1 fileID).2)
        rw [if_neg (not_not.2 hres), hdump, hres]
        dsimp only
        rw [cstr_dump hdump]
        exact Or.inr ⟨j_str, rfl, rfl, rfl, rfl, rfl⟩
      · have hbad : ((be.fdfsGetFileInfo1 fileID).1 == 0) = false := by
          simpa using hres
        rw [if_pos hres, hbad]
        exact Or.inl ⟨rfl, ⟨_, _, rfl⟩, rfl, rfl, rfl⟩

/-! ## One reply, with an honest status -/

/-- The request went to a file operation and brings what its handler needs. -/
def Served (req : Request) : Prop :=
  (req.path = ascii "/upload" ∧ req.inputBuffer.isSome) ∨
  ((req.path = ascii "/delete" ∨ req.path = ascii "/fileinfo") ∧
    (req.findHeader (ascii "FileID")).isSome)

/-- The handler returned after exactly one reply; its status is 200 exactly when `served` holds and
    every FastDFS call reported success, and 400 or 503 otherwise. -/
def Honest (h : Handled) (served : Prop) : Prop :=
  h.exit = .returned ∧ ∃ code reason databuf, h.replies = [(code, reason, databuf)] ∧
    (code = HTTP_200 ↔ served ∧ ∀ ok ∈ h.callResults, ok = true) ∧
    (code ≠ HTTP_200 → code = HTTP_400 ∨ code = HTTP_503)

theorem Refused.honest {h : Handled} {code : ℕ} {results : List Bool} {served : Prop}
    (hr : Refused h code results) (hcode : code = HTTP_400 ∨ code = HTTP_503)
    (hbad : ¬ served ∨ false ∈ results) : Honest h served := by
  obtain ⟨reason, databuf, hreplies⟩ := hr.replies
  have hne : code ≠ HTTP_200 := by
    rcases hcode with rfl | rfl <;> decide
  refine ⟨hr.exit, code, reason, databuf, hreplies, ⟨fun he => absurd he hne, ?_⟩, fun _ => hcode⟩
  rintro ⟨hserved, hall⟩
  rcases hbad with hno | hmem
  · exact absurd hserved hno
  · rw [hr.callResults] at hall
    exact absurd (hall false hmem) (by simp)

theorem Answered.honest {h : Handled} {j_str : Bytes} {databuf : Option Bytes}
    {results : List Bool} {recorded : List Bytes} {served : Prop}
    (ha : Answered h j_str databuf results recorded) (hserved : served)
    (hall : ∀ ok ∈ results, ok = true) : Honest h served := by
  refine ⟨ha.exit, HTTP_200, ascii "OK", databuf, ha.replies, ⟨fun _ => ⟨hserved, ?_⟩, fun _ => rfl⟩,
    fun hne => absurd rfl hne⟩
  rw [ha.callResults]
  exact hall

theorem served_iff_fileID {req : Request}
    (h : req.path = ascii "/delete" ∨ req.path = ascii "/fileinfo") :
    Served req ↔ (req.findHeader (ascii "FileID")).isSome := by
  have hup : req.path ≠ ascii "/upload" := by
    rcases h with hp | hp <;> rw [hp] <;> decide
  constructor
  · rintro (⟨hp, _⟩ | ⟨_, hsome⟩)
    · exact absurd hp hup
    · exact hsome
  · intro hsome
    exact Or.inr ⟨h, hsome⟩

theorem served_iff_body {req : Request} (h : req.path = ascii "/upload") :
    Served req ↔ req.inputBuffer.isSome := by
  constructor
  · rintro (⟨_, hsome⟩ | ⟨hp | hp, _⟩)
    · exact hsome
    · exact absurd (h.symm.trans hp) (by decide)
    · exact absurd (h.symm.trans hp) (by decide)
  · intro hsome
    exact Or.inl ⟨h, hsome⟩

/-- Valid names make a valid file ID, for which `dump` does not throw. -/
theorem fileIDJson_dump_ne_none {up : UploadReply} (hg : ValidUtf8 (cstr up.group_name))
    (hr : ValidUtf8 (cstr up.remote_filename)) : (fileIDJson up.fileID).dump ≠ none := by
  have hvalid : ValidUtf8 up.fileID := (hg.append (.of_ascii (by decide))).append hr
  obtain ⟨t, ht⟩ := Option.isSome_iff_exists.1 (dumpEscaped_isSome hvalid)
  rw [fileIDJson_dump, ht]
  simp

/-- **Every dispatched request is answered exactly once, with an honest status.** -/
theorem handle_honest (be : Backend) (req : Request) (arg : ThreadParam)
    (hnames : ∀ args, ValidUtf8 (cstr (be.storageUploadByFilebuff args).group_name) ∧
      ValidUtf8 (cstr (be.storageUploadByFilebuff args).remote_filename)) :
    Honest (handle be req arg) (Served req) := by
  unfold handle
  rw [dispatch_eq]
  split_ifs with hdel hinfo hup
  · have hserved := served_iff_fileID (Or.inl hdel)
    rcases deleteHandler_cases be req arg with ⟨hnone, hr⟩ | ⟨fileID, hsome, ⟨_, hr⟩ | ⟨_, ha⟩⟩
    · exact hr.honest (Or.inl rfl) (Or.inl (by rw [hserved, hnone]; simp))
    · exact hr.honest (Or.inl rfl) (Or.inr (by simp))
    · exact ha.honest (hserved.2 (by rw [hsome]; rfl)) (by simp)
  · have hserved := served_iff_fileID (Or.inr hinfo)
    rcases fileinfoHandler_cases be req arg with ⟨hnone, hr⟩ | ⟨fileID, hsome, hr | ⟨_, ha⟩⟩
    · exact hr.honest (Or.inl rfl) (Or.inl (by rw [hserved, hnone]; simp))
    · exact hr.honest (Or.inl rfl) (Or.inr (by simp))
    · exact ha.honest (hserved.2 (by rw [hsome]; rfl)) (by simp)
  · have hserved := served_iff_body hup
    rcases uploadHandler_cases be req arg with
      ⟨hnone, hr⟩ | ⟨hsome, _, hbad, hr⟩ | ⟨hsome, args, _, ⟨hthrow, _⟩ | ⟨_, _, ha⟩⟩
    · exact hr.honest (Or.inl rfl) (Or.inl (by rw [hserved, hnone]; simp))
    · exact hr.honest (Or.inr rfl) (Or.inr hbad)
    · -- the only exit without a reply, and the one the names rule out
      obtain ⟨hg, hr⟩ := hnames args
      exact absurd hthrow (fileIDJson_dump_ne_none hg hr)
    · exact ha.honest (hserved.2 hsome) (by simp)
  · -- no file operation: the catch-all answers 400
    refine (httpdHandler_refused be req arg).honest (Or.inl rfl) (Or.inl ?_)
    rintro (⟨h, _⟩ | ⟨h | h, _⟩)
    · exact hup h
    · exact hdel h
    · exact hinfo h

/-- A storage where every call succeeds and every file becomes `group1/M00/a`. -/
def obligingBackend : Backend where
  trackerQueryStorageStore _ := ⟨0, 1, ascii "group1", 0⟩
  trackerMakeConnection server := some server
  storageUploadByFilebuff _ := ⟨0, ascii "group1", ascii "M00/a"⟩
  storageDeleteFile1 _ _ := 0
  fdfsGetFileInfo1 _ := (0, ⟨0, 0, 0⟩)
  strerror _ := ascii "Success"
  localtime _ := ⟨120, 0, 1, 0, 0, 0⟩
  clock := 0

theorem handle_honest_upload :
    Honest (handle obligingBackend ⟨ascii "/upload", [], some (ascii "hello")⟩ ⟨0, 0, 0, 0, some 1⟩)
      (Served ⟨ascii "/upload", [], some (ascii "hello")⟩) := by
  refine handle_honest obligingBackend _ _ (fun _ => ⟨?_, ?_⟩)
  · exact .of_ascii (show isAscii (cstr (ascii "group1")) = true by decide)
  · exact .of_ascii (show isAscii (cstr (ascii "M00/a")) = true by decide)

/-! ## The announced length -/

/-- Every `Content-Length` added is the length of the body buffer of every reply sent, an absent
    buffer counting as empty. -/
def Framed (h : Handled) : Prop :=
  ∀ value ∈ h.contentLengths, ∀ reply ∈ h.replies,
    value = decimal (reply.2.2.getD []).length

theorem framed_of_no_length {h : Handled} (hnone : h.contentLengths = []) : Framed h := by
  intro value hmem
  rw [hnone] at hmem
  exact absurd hmem List.not_mem_nil

theorem Answered.framed_iff {h : Handled} {j_str : Bytes} {databuf : Option Bytes}
    {results : List Bool} {recorded : List Bytes} (ha : Answered h j_str databuf results recorded) :
    Framed h ↔ decimal j_str.length = decimal (databuf.getD []).length := by
  unfold Framed
  rw [ha.contentLengths, ha.replies]
  simp only [List.mem_singleton, forall_eq]

/-- **The length is right except in the answer to a successful delete**, which announces the two
    bytes of `{}` and then passes no buffer. -/
theorem framed_iff_not_deleted (callback : Callback) (be : Backend) (req : Request)
    (arg : ThreadParam) :
    Framed (callback.run be req arg) ↔
      ¬ (callback = .delete ∧ ∃ fileID, req.findHeader (ascii "FileID") = some fileID ∧
        be.storageDeleteFile1 arg.connectResult fileID = 0) := by
  cases callback with
  | httpd =>
      refine iff_of_true (framed_of_no_length (httpdHandler_refused be req arg).contentLengths) ?_
      exact fun h => absurd h.1 (by decide)
  | fileinfo =>
      refine iff_of_true ?_ (fun h => absurd h.1 (by decide))
      rcases fileinfoHandler_cases be req arg with ⟨_, hr⟩ | ⟨_, _, hr | ⟨_, ha⟩⟩
      · exact framed_of_no_length hr.contentLengths
      · exact framed_of_no_length hr.contentLengths
      · exact ha.framed_iff.2 rfl
  | upload =>
      refine iff_of_true ?_ (fun h => absurd h.1 (by decide))
      rcases uploadHandler_cases be req arg with
        ⟨_, hr⟩ | ⟨_, _, _, hr⟩ | ⟨_, _, _, ⟨_, ht⟩ | ⟨_, _, ha⟩⟩
      · exact framed_of_no_length hr.contentLengths
      · exact framed_of_no_length hr.contentLengths
      · exact framed_of_no_length ht.contentLengths
      · exact ha.framed_iff.2 rfl
  | delete =>
      rcases deleteHandler_cases be req arg with ⟨hnone, hr⟩ | ⟨fileID, hsome, ⟨hne, hr⟩ | ⟨hz, ha⟩⟩
      · refine iff_of_true (framed_of_no_length hr.contentLengths) ?_
        rintro ⟨-, fileID, hsome, -⟩
        exact absurd (hnone.symm.trans hsome) (by simp)
      · refine iff_of_true (framed_of_no_length hr.contentLengths) ?_
        rintro ⟨-, fileID', hsome', hz⟩
        rw [hsome, Option.some.injEq] at hsome'
        exact hne (hsome' ▸ hz)
      · refine iff_of_false ?_ (not_not.2 ⟨rfl, fileID, hsome, hz⟩)
        show ¬ Framed (deleteHandler be req arg)
        rw [ha.framed_iff]
        decide

theorem delete_announces_missing_body :
    ¬ Framed (handle obligingBackend
      ⟨ascii "/delete", [(ascii "FileID", ascii "group1/M00/a")], none⟩ ⟨0, 0, 0, 0, some 1⟩) := by
  intro h
  exact absurd (h (ascii "2") (by decide) (HTTP_200, ascii "OK", none) (by decide)) (by decide)

end FileCacheProxy
