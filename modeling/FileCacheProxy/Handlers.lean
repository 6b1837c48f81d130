import FileCacheProxy.Common
import FileCacheProxy.Utilities
import Mathlib

set_option autoImplicit false

/-! # Request handlers (`fileCacheProxy.cpp`)

The four handlers and the callback table `startService` registers. A handler is a function of the
request, of the `threadParam` its callback carries and of what the outside world answers
(`Backend`); its result is the list of things it did, in order, and how it ended. Every result of a
FastDFS call is an input, so a statement over all backends is a statement over all combinations of
failures. -/

namespace FileCacheProxy

/-! ## What a handler sees -/

/-- A `ConnectionInfo`, by identity. -/
abbrev ConnectionInfo := ℕ

/-- `fileCacheProxy::threadParam`: pointers by identity, `none` for a null pointer. -/
structure ThreadParam where
  threadID : ℕ
  ev : ℕ
  ev_listen : ℕ
  info : ℕ
  connectResult : Option ConnectionInfo

/-- The parts of an `evhttp_request` the handlers read. -/
structure Request where
  path : Bytes
  inputHeaders : List (Bytes × Bytes)
  inputBuffer : Option Bytes

/-- ASCII lower case. -/
def toLower (s : Bytes) : Bytes :=
  s.map (fun c => if 65 ≤ c ∧ c ≤ 90 then c + 32 else c)

/-- `evhttp_find_header`. libevent is not part of the repository; what it documents is used: the value
    of the first header of that name, without regard to case, and null if there is none. -/
def Request.findHeader (req : Request) (key : Bytes) : Option Bytes :=
  (req.inputHeaders.find? (fun kv => toLower kv.1 == toLower key)).map (fun kv => cstr kv.2)

/-- What `tracker_query_storage_store` returns and fills in. -/
structure StoreReply where
  result : ℤ
  storageServer : ConnectionInfo
  group_name : Bytes
  store_path_index : ℤ

/-- The arguments of `storage_upload_by_filebuff`. -/
structure UploadArgs where
  pTrackerServer : Option ConnectionInfo
  pStorageServer : ConnectionInfo
  store_path_index : ℤ
  file_buff : Bytes
  file_size : ℕ
  file_ext_name : Option Bytes
  meta_count : ℕ
  group_name : Bytes

/-- What `storage_upload_by_filebuff` returns and writes to its two name buffers. -/
structure UploadReply where
  result : ℤ
  group_name : Bytes
  remote_filename : Bytes

/-- The fields of `FDFSFileInfo` that are of use here. -/
structure FDFSFileInfo where
  create_timestamp : ℤ
  crc32 : ℤ
  file_size : ℤ

/-- Everything a handler asks of the outside world. -/
structure Backend where
  trackerQueryStorageStore : Option ConnectionInfo → StoreReply
  trackerMakeConnection : ConnectionInfo → Option ConnectionInfo
  storageUploadByFilebuff : UploadArgs → UploadReply
  storageDeleteFile1 : Option ConnectionInfo → Bytes → ℤ
  fdfsGetFileInfo1 : Bytes → ℤ × FDFSFileInfo
  strerror : ℤ → Bytes
  localtime : ℤ → Tm
  clock : ℤ

/-! ## What a handler does -/

inductive FdfsCall where
  | trackerQueryStorageStore (pTrackerServer : Option ConnectionInfo)
  | trackerMakeConnection (storageServer : ConnectionInfo)
  | storageUploadByFilebuff (args : UploadArgs)
  | storageDeleteFile1 (pTrackerServer : Option ConnectionInfo) (file_id : Bytes)
  | fdfsGetFileInfo1 (file_id : Bytes)

/-- One step of a handler: a FastDFS call and whether it reported success, an allocation, a header,
    a reply with its body buffer (`none` for `nullptr`), or one insertion into `fFileID`. -/
inductive Action where
  | fdfs (call : FdfsCall) (ok : Bool)
  | newChars (size : ℕ)
  | evbufferNew
  | evbufferFree
  | addHeader (key value : Bytes)
  | sendReply (code : ℕ) (reason : Bytes) (databuf : Option Bytes)
  | insertRecord (text : Bytes)

inductive Exit where
  | returned
  | threw
  | hung

structure Handled where
  trace : List Action
  exit : Exit

/-- `evhttp_send_reply(req, code, reason, nullptr); return;` after `acts`. -/
def replyEmpty (acts : List Action) (code : ℕ) (reason : Bytes) : Handled :=
  ⟨acts ++ [.sendReply code reason none], .returned⟩

def contentLength : Bytes := ascii "Content-Length"

/-- The two headers of a JSON reply. -/
def jsonHeaders (j_str : Bytes) : List Action :=
  [.addHeader contentLength (decimal j_str.length),
    .addHeader (ascii "Content-Type") (ascii "application/json")]

/-! ## The handlers -/

def httpdHandler (_be : Backend) (_req : Request) (_arg : ThreadParam) : Handled :=
  replyEmpty [] HTTP_400 (ascii "Bad Request")

/-- `j["FileID"] = fileID` in an empty object. -/
def fileIDJson (fileID : Bytes) : Json :=
  (Json.object .nil).set (ascii "FileID") (.string fileID)

/-- From a successful upload on: build the text, reply with it, and record it. -/
def uploadReply (acts : List Action) (up : UploadReply) : Handled :=
  let out := cstr up.group_name ++ ascii "/" ++ cstr up.remote_filename
  match stringFormat (ascii "%s/%s") (formatInto out) 2 with
  | none => ⟨acts, .hung⟩
  | some fileID =>
      match (fileIDJson fileID).dump with
      | none => ⟨acts, .threw⟩
      | some j_str =>
          ⟨acts ++ [.evbufferNew] ++ jsonHeaders j_str ++
            [.sendReply HTTP_200 (ascii "OK") (some (cstr j_str)), .evbufferFree,
              .insertRecord j_str, .insertRecord [LF]], .returned⟩

def uploadHandler (be : Backend) (req : Request) (arg : ThreadParam) : Handled :=
  let file_ext_name := req.findHeader (ascii "FileExt")
  match req.inputBuffer with
  | none => replyEmpty [] HTTP_400 (ascii "Bad Request")
  | some file_content =>
      let pTrackerServer := arg.connectResult
      let query := be.trackerQueryStorageStore pTrackerServer
      let acts := [.newChars file_content.length,
        .fdfs (.trackerQueryStorageStore pTrackerServer) (query.result == 0)]
      if query.result ≠ 0 then
        replyEmpty acts HTTP_503 (ascii "Service Temporarily Unavailable")
      else
        match be.trackerMakeConnection query.storageServer with
        | none =>
            replyEmpty (acts ++ [.fdfs (.trackerMakeConnection query.storageServer) false])
              HTTP_503 (ascii "Service Temporarily Unavailable")
        | some pStorageServer =>
            let args : UploadArgs :=
              { pTrackerServer := pTrackerServer, pStorageServer := pStorageServer,
                store_path_index := query.store_path_index, file_buff := file_content,
                file_size := file_content.length, file_ext_name := file_ext_name,
                meta_count := 0, group_name := query.group_name }
            -- the call overwrites `group_name`; the connection is not closed on any path
            let up := be.storageUploadByFilebuff args
            let acts := acts ++ [.fdfs (.trackerMakeConnection query.storageServer) true,
              .fdfs (.storageUploadByFilebuff args) (up.result == 0)]
            if up.result ≠ 0 then
              replyEmpty acts HTTP_503 (ascii "Service Temporarily Unavailable")
            else
              uploadReply acts up

def deleteHandler (be : Backend) (req : Request) (arg : ThreadParam) : Handled :=
  match req.findHeader (ascii "FileID") with
  | none => replyEmpty [] HTTP_400 (ascii "FileID is NULL")
  | some fileID =>
      let pTrackerServer := arg.connectResult
      let result := be.storageDeleteFile1 pTrackerServer fileID
      let acts := [.fdfs (.storageDeleteFile1 pTrackerServer fileID) (result == 0)]
      if result ≠ 0 then
        ⟨acts ++ [.evbufferNew,
          .sendReply HTTP_400 (ascii "Bad Request") (some (cstr (be.strerror result))),
          .evbufferFree], .returned⟩
      else
        match (Json.object .nil).dump with
        | none => ⟨acts, .threw⟩
        | some j_str =>
            -- the body buffer is filled, but the reply is sent without it
            ⟨acts ++ [.evbufferNew] ++ jsonHeaders j_str ++
              [.sendReply HTTP_200 (ascii "OK") none], .returned⟩

/-- The reply of `fileinfo_handler`: three assignments `j["FileInfo"][...] = ...`. -/
def fileInfoJson (createTime : Bytes) (info : FDFSFileInfo) : Json :=
  let assign (j : Json) (key : String) (val : Json) : Json :=
    j.set (ascii "FileInfo") ((j.get (ascii "FileInfo")).set (ascii key) val)
  assign (assign (assign (.object .nil) "CreateTime" (.string createTime))
    "FileSize" (.number info.file_size)) "FileCrc32" (.number info.crc32)

def fileinfoHandler (be : Backend) (req : Request) (_arg : ThreadParam) : Handled :=
  match req.findHeader (ascii "FileID") with
  | none => replyEmpty [] HTTP_400 (ascii "FileID is NULL")
  | some fileID =>
      let r := be.fdfsGetFileInfo1 fileID
      let acts := [.fdfs (.fdfsGetFileInfo1 fileID) (r.1 == 0)]
      if r.1 ≠ 0 then replyEmpty acts HTTP_400 (ascii "Bad Request")
      else
        match (fileInfoJson (getTimeNow be.localtime be.clock) r.2).dump with
        | none => ⟨acts, .threw⟩
        | some j_str =>
            ⟨acts ++ [.evbufferNew] ++ jsonHeaders j_str ++
              [.sendReply HTTP_OK (ascii "OK") (some (cstr j_str)), .evbufferFree], .returned⟩

/-! ## The callback table -/

/-- The `invoke_...` wrappers, by the handler they call. -/
inductive Callback where
  | httpd
  | fileinfo
  | upload
  | delete
  deriving DecidableEq

def Callback.run : Callback → Backend → Request → ThreadParam → Handled
  | .httpd => httpdHandler
  | .fileinfo => fileinfoHandler
  | .upload => uploadHandler
  | .delete => deleteHandler

/-- `mPath2Handle`, as the constructor fills it. -/
def mPath2Handle : Std.TreeMap Bytes Callback :=
  ((((∅ : Std.TreeMap Bytes Callback).insert (ascii "/") .httpd).insert
    (ascii "/fileinfo") .fileinfo).insert (ascii "/upload") .upload).insert (ascii "/delete") .delete

/-- The callback of a request, as libevent documents it: the one registered for exactly its path
    (`evhttp_set_cb`), else the one for all other requests (`evhttp_set_gencb`). -/
def dispatch (path : Bytes) : Callback :=
  (mPath2Handle.toList.lookup path).getD (mPath2Handle.getD (ascii "/") .httpd)

/-- A request of the event loop that carries `arg`. -/
def handle (be : Backend) (req : Request) (arg : ThreadParam) : Handled :=
  (dispatch req.path).run be req arg

theorem dispatch_eq (path : Bytes) :
    dispatch path = if path = ascii "/delete" then .delete
      else if path = ascii "/fileinfo" then .fileinfo
      else if path = ascii "/upload" then .upload else .httpd := by
  have htable : mPath2Handle.toList = [(ascii "/", .httpd), (ascii "/delete", .delete),
      (ascii "/fileinfo", .fileinfo), (ascii "/upload", .upload)] := by decide
  have hgen : mPath2Handle.getD (ascii "/") .httpd = .httpd := by decide
  rw [dispatch, htable, hgen]
  split_ifs with h1 h2 h3
  · subst h1
    decide
  · subst h2
    decide
  · subst h3
    decide
  · by_cases h0 : path = ascii "/"
    · subst h0
      decide
    · simp [List.lookup_cons, beq_eq_false_iff_ne.2 h0, beq_eq_false_iff_ne.2 h1,
        beq_eq_false_iff_ne.2 h2, beq_eq_false_iff_ne.2 h3]

end FileCacheProxy
