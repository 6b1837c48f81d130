import FileCacheProxy.JsonRoundTrip
import FileCacheProxy.Lib.OnceStore
import FileCacheProxy.Lib.Tally
import FileCacheProxy.Lib.Transition
import Mathlib

set_option autoImplicit false

/-! # The proxy as a service for files

Any number of requests are in progress at once, each somewhere in its handler, and one move is one
action of one handler. The cluster behind them is a store whose names are given once: it answers what
it likes, but a success is one (a new file ID for an upload, a file that is there for a deletion). The
information about a file is in its ID, so an inquiry can succeed for any ID, also for that of a file
that is gone; for an ID that has been given it tells the numbers of the file it was given for. Nothing
is asked of an ID: one that is not UTF-8 makes the handler throw; where that takes the process with it,
the run ends there. Other clients use the cluster too; a call that fails although the cluster did its
work counts as one of theirs.

The record is what the stream `fFileID` has taken: nothing, when the file could not be opened, and
nothing any more once a write has failed.

A handler first makes its calls, then answers, then records (`Phases`), so an answer with status 200 is
about something that has happened to the files, at one moment between the request and its answer. -/

namespace FileCacheProxy

open OnceStore Transition Tally

/-! ## What a handler does to the files -/

/-- File IDs and contents. -/
abbrev FileOp := Op Bytes Bytes

/-- What the success of a call means for the files. -/
def Action.op (be : Backend) : Action → Option FileOp
  | .fdfs (.storageUploadByFilebuff args) true =>
      some (.put (be.storageUploadByFilebuff args).fileID (args.file_buff.take args.file_size))
  | .fdfs (.storageDeleteFile1 _ file_id) true => some (.remove file_id)
  | .fdfs (.fdfsGetFileInfo1 file_id) true => some (.read file_id)
  | _ => none

def opsOfActions (be : Backend) (acts : List Action) : List FileOp :=
  acts.filterMap (Action.op be)

/-- What has been done so far, as if the handler ended here. -/
abbrev sofar (acts : List Action) : Handled :=
  ⟨acts, .returned⟩

theorem sofar_replies_append (a b : List Action) :
    (sofar (a ++ b)).replies = (sofar a).replies ++ (sofar b).replies :=
  List.filterMap_append

theorem sofar_insertions_append (a b : List Action) :
    (sofar (a ++ b)).insertions = (sofar a).insertions ++ (sofar b).insertions :=
  List.filterMap_append

theorem opsOfActions_append (be : Backend) (a b : List Action) :
    opsOfActions be (a ++ b) = opsOfActions be a ++ opsOfActions be b :=
  List.filterMap_append

/-- The trace of a handler: calls, then the answer, then the record. -/
structure Phases (be : Backend) (trace : List Action) (op : Option FileOp)
    (reply : Option (ℕ × Bytes × Option Bytes)) (recorded : List Bytes) : Prop where
  split : ∃ calls answer tail, trace = calls ++ (answer ++ tail) ∧
    opsOfActions be calls = op.toList ∧ (sofar calls).replies = [] ∧ (sofar calls).insertions = [] ∧
    opsOfActions be answer = [] ∧ (sofar answer).replies = reply.toList ∧
    (sofar answer).insertions = [] ∧
    opsOfActions be tail = [] ∧ (sofar tail).replies = [] ∧ (sofar tail).insertions = recorded

/-- How a request ends: what happened to the files, what was answered and what is recorded. -/
inductive Outcome (be : Backend) (req : Request) :
    Option FileOp → Option (ℕ × Bytes × Option Bytes) → List Bytes → Prop
  | refused {code : ℕ} {reason : Bytes} {databuf : Option Bytes} : code ≠ HTTP_200 →
      Outcome be req none (some (code, reason, databuf)) []
  | stored {id content text : Bytes} : req.path = ascii "/upload" → req.inputBuffer = some content →
      (fileIDJson id).dump = some text →
      Outcome be req (some (.put id content)) (some (HTTP_200, ascii "OK", some text)) [text, [LF]]
  | threw {id content : Bytes} : ¬ ValidUtf8 id → Outcome be req (some (.put id content)) none []
  | deleted {id : Bytes} : req.path = ascii "/delete" → req.findHeader (ascii "FileID") = some id →
      Outcome be req (some (.remove id)) (some (HTTP_200, ascii "OK", none)) []
  | described {id text : Bytes} : req.path = ascii "/fileinfo" →
      req.findHeader (ascii "FileID") = some id →
      (fileInfoJson (strftime (be.localtime be.clock)) (be.fdfsGetFileInfo1 id).2).dump = some text →
      Outcome be req (some (.read id)) (some (HTTP_200, ascii "OK", some text)) []

/-- A refusal behind calls that did nothing to the files. -/
theorem phases_replyEmpty {be : Backend} {acts : List Action} (code : ℕ) (reason : Bytes)
    (hops : opsOfActions be acts = []) (hreplies : (sofar acts).replies = [])
    (hins : (sofar acts).insertions = []) :
    Phases be (replyEmpty acts code reason).trace none (some (code, reason, none)) [] :=
  ⟨⟨acts, [.sendReply code reason none], [], rfl, hops, hreplies, hins, rfl, rfl, rfl, rfl, rfl, rfl⟩⟩

theorem uploadHandler_outcome (be : Backend) (req : Request) (arg : ThreadParam)
    (hpath : req.path = ascii "/upload") : ∃ op reply recorded, Outcome be req op reply recorded ∧
      Phases be (uploadHandler be req arg).trace op reply recorded := by
  by_cases hok : ∃ up : SuccessfulUpload, up.be = be ∧ up.req = req ∧ up.arg = arg
  · obtain ⟨up, rfl, rfl, rfl⟩ := hok
    show ∃ op reply recorded, _ ∧ Phases up.be up.handled.trace op reply recorded
    have hops : opsOfActions up.be up.acts = [.put up.fileID up.file_content] := by
      show [Op.put up.fileID (up.file_content.take up.file_content.length)] = _
      rw [List.take_length]
    rw [up.handled_eq, uploadReply_eq]
    cases hdump : (fileIDJson up.reply.fileID).dump with
    | none =>
        have hinvalid : ¬ ValidUtf8 up.fileID := by
          intro hvalid
          have hsome := dumpEscaped_isSome hvalid
          rw [fileIDJson_dump, Option.map_eq_none_iff] at hdump
          rw [SuccessfulUpload.fileID, hdump] at hsome
          cases hsome
        exact ⟨some (.put up.fileID up.file_content), none, [], .threw hinvalid,
          ⟨up.acts, [], [], (List.append_nil _).symm, hops, rfl, rfl, rfl, rfl, rfl, rfl, rfl, rfl⟩⟩
    | some text =>
        refine ⟨_, _, _, .stored hpath up.body hdump,
          ⟨up.acts, .evbufferNew :: jsonHeaders text ++
            [.sendReply HTTP_200 (ascii "OK") (some text), .evbufferFree],
            [.insertRecord text, .insertRecord [LF]], ?_, hops, rfl, rfl, rfl, rfl, rfl, rfl, rfl,
            rfl⟩⟩
        simp
  · have hrefused : ∀ acts, opsOfActions be acts = [] → (sofar acts).replies = [] →
        (sofar acts).insertions = [] → ∀ code reason, code ≠ HTTP_200 →
        ∃ op reply recorded, Outcome be req op reply recorded ∧
          Phases be (replyEmpty acts code reason).trace op reply recorded :=
      fun acts h₁ h₂ h₃ code reason hcode =>
        ⟨none, _, [], .refused hcode, phases_replyEmpty code reason h₁ h₂ h₃⟩
    unfold uploadHandler
    dsimp only
    cases hbuf : req.inputBuffer with
    | none => exact hrefused [] rfl rfl rfl _ _ (by decide)
    | some file_content =>
        dsimp only
        split
        · exact hrefused _ rfl rfl rfl _ _ (by decide)
        · next hquery =>
            cases hconn : be.trackerMakeConnection
                (be.trackerQueryStorageStore arg.connectResult).storageServer with
            | none => exact hrefused _ rfl rfl rfl _ _ (by decide)
            | some pStorageServer =>
                dsimp only
                split
                · next hup =>
                    rw [show (_ == (0 : ℤ)) = false from beq_eq_false_iff_ne.2 hup]
                    exact hrefused _ rfl rfl rfl _ _ (by decide)
                · next hup =>
                    exact absurd ⟨⟨be, req, arg, file_content, pStorageServer, hbuf,
                      not_not.1 hquery, hconn, not_not.1 hup⟩, rfl, rfl, rfl⟩ hok

theorem deleteHandler_outcome (be : Backend) (req : Request) (arg : ThreadParam)
    (hpath : req.path = ascii "/delete") : ∃ op reply recorded, Outcome be req op reply recorded ∧
      Phases be (deleteHandler be req arg).trace op reply recorded := by
  unfold deleteHandler
  cases hid : req.findHeader (ascii "FileID") with
  | none =>
      exact ⟨none, _, [], .refused (by decide), phases_replyEmpty HTTP_400 _ rfl rfl rfl⟩
  | some fileID =>
      dsimp only
      by_cases hres : be.storageDeleteFile1 arg.connectResult fileID = 0
      · have hdump : (Json.object .nil).dump = some (ascii "\x7b\x7d") := by decide
        rw [if_neg (not_not.2 hres), hdump, show (_ == (0 : ℤ)) = true from beq_iff_eq.2 hres]
        exact ⟨_, _, [], .deleted hpath hid,
          ⟨[.fdfs (.storageDeleteFile1 arg.connectResult fileID) true],
            .evbufferNew :: jsonHeaders (ascii "\x7b\x7d") ++ [.sendReply HTTP_200 (ascii "OK") none],
            [], rfl, rfl, rfl, rfl, rfl, rfl, rfl, rfl, rfl, rfl⟩⟩
      · rw [if_pos hres, show (_ == (0 : ℤ)) = false from beq_eq_false_iff_ne.2 hres]
        exact ⟨none, _, [], .refused (show HTTP_400 ≠ HTTP_200 by decide),
          ⟨[.fdfs (.storageDeleteFile1 arg.connectResult fileID) false],
            [.evbufferNew, .sendReply HTTP_400 (ascii "Bad Request")
              (some (cstr (be.strerror (be.storageDeleteFile1 arg.connectResult fileID)))),
              .evbufferFree],
            [], rfl, rfl, rfl, rfl, rfl, rfl, rfl, rfl, rfl, rfl⟩⟩

theorem fileinfoHandler_outcome (be : Backend) (req : Request) (arg : ThreadParam)
    (hpath : req.path = ascii "/fileinfo") : ∃ op reply recorded, Outcome be req op reply recorded ∧
      Phases be (fileinfoHandler be req arg).trace op reply recorded := by
  unfold fileinfoHandler
  cases hid : req.findHeader (ascii "FileID") with
  | none =>
      exact ⟨none, _, [], .refused (by decide), phases_replyEmpty HTTP_400 _ rfl rfl rfl⟩
  | some fileID =>
      dsimp only
      by_cases hres : (be.fdfsGetFileInfo1 fileID).1 = 0
      · obtain ⟨text, hdump⟩ : ∃ text, (fileInfoJson (strftime (be.localtime be.clock))
            (be.fdfsGetFileInfo1 fileID).2).dump = some text := ⟨_, fileInfoJson_dump _ _⟩
        rw [if_neg (not_not.2 hres), getTimeNow_eq, hdump,
          show (_ == (0 : ℤ)) = true from beq_iff_eq.2 hres]
        dsimp only
        rw [cstr_dump hdump]
        exact ⟨_, _, [], .described hpath hid hdump,
          ⟨[.fdfs (.fdfsGetFileInfo1 fileID) true],
            .evbufferNew :: jsonHeaders text ++
              [.sendReply HTTP_200 (ascii "OK") (some text), .evbufferFree],
            [], rfl, rfl, rfl, rfl, rfl, rfl, rfl, rfl, rfl, rfl⟩⟩
      · rw [if_pos hres, show (_ == (0 : ℤ)) = false from beq_eq_false_iff_ne.2 hres]
        exact ⟨none, _, [], .refused (by decide), phases_replyEmpty HTTP_400 _ rfl rfl rfl⟩

/-- **Every request has one outcome**, reached in the three phases. -/
theorem handle_outcome (be : Backend) (req : Request) (arg : ThreadParam) :
    ∃ op reply recorded, Outcome be req op reply recorded ∧
      Phases be (handle be req arg).trace op reply recorded := by
  have hhandle : handle be req arg = (dispatch req.path).run be req arg := rfl
  rw [dispatch_eq] at hhandle
  rw [hhandle]
  by_cases hdel : req.path = ascii "/delete"
  · rw [if_pos hdel]
    exact deleteHandler_outcome be req arg hdel
  rw [if_neg hdel]
  by_cases hinfo : req.path = ascii "/fileinfo"
  · rw [if_pos hinfo]
    exact fileinfoHandler_outcome be req arg hinfo
  rw [if_neg hinfo]
  by_cases hup : req.path = ascii "/upload"
  · rw [if_pos hup]
    exact uploadHandler_outcome be req arg hup
  rw [if_neg hup]
  exact ⟨none, _, [], .refused (by decide), phases_replyEmpty HTTP_400 _ rfl rfl rfl⟩

/-- In the middle of a handler: what has happened is a part of the outcome, an answer comes behind
    what it is about, a record behind the answer. -/
structure PartOf (be : Backend) (acts : List Action) (op : Option FileOp)
    (reply : Option (ℕ × Bytes × Option Bytes)) (recorded : List Bytes) : Prop where
  ops : opsOfActions be acts <+: op.toList
  replies : (sofar acts).replies <+: reply.toList
  insertions : (sofar acts).insertions <+: recorded
  answered : (sofar acts).replies ≠ [] →
    opsOfActions be acts = op.toList ∧ (sofar acts).replies = reply.toList
  noted : (sofar acts).insertions ≠ [] → (sofar acts).replies = reply.toList

theorem Phases.part {be : Backend} {acts todo : List Action} {op : Option FileOp}
    {reply : Option (ℕ × Bytes × Option Bytes)} {recorded : List Bytes}
    (h : Phases be (acts ++ todo) op reply recorded) : PartOf be acts op reply recorded := by
  obtain ⟨calls, answer, tail, hsplit, hops, hreplies, hins, hops₁, hreplies₁, hins₁, hops₂, hreplies₂,
    hins₂⟩ := h.split
  rcases List.append_eq_append_iff.1 hsplit with ⟨c, rfl, -⟩ | ⟨c, rfl, hc⟩
  · -- among the calls
    rw [opsOfActions_append] at hops
    rw [sofar_replies_append] at hreplies
    rw [sofar_insertions_append] at hins
    have hreplies' := (List.append_eq_nil_iff.1 hreplies).1
    have hins' := (List.append_eq_nil_iff.1 hins).1
    refine ⟨⟨_, hops⟩, ?_, ?_, fun hne => absurd hreplies' hne, fun hne => absurd hins' hne⟩
    · rw [hreplies']
      exact List.nil_prefix
    · rw [hins']
      exact List.nil_prefix
  rcases List.append_eq_append_iff.1 hc with ⟨d, rfl, hd⟩ | ⟨d, rfl, -⟩
  · -- behind the answer
    rw [hd, opsOfActions_append] at hops₂
    rw [hd, sofar_replies_append] at hreplies₂
    rw [hd, sofar_insertions_append] at hins₂
    have hops' : opsOfActions be (calls ++ (answer ++ d)) = op.toList := by
      rw [opsOfActions_append, opsOfActions_append, hops, hops₁, (List.append_eq_nil_iff.1 hops₂).1]
      simp
    have hreplies' : (sofar (calls ++ (answer ++ d))).replies = reply.toList := by
      rw [sofar_replies_append, sofar_replies_append, hreplies, hreplies₁,
        (List.append_eq_nil_iff.1 hreplies₂).1]
      simp
    refine ⟨hops' ▸ List.prefix_rfl, hreplies' ▸ List.prefix_rfl, ?_, fun _ => ⟨hops', hreplies'⟩,
      fun _ => hreplies'⟩
    rw [sofar_insertions_append, sofar_insertions_append, hins, hins₁]
    exact ⟨_, hins₂⟩
  · -- in the middle of the answer
    rw [opsOfActions_append] at hops₁
    rw [sofar_replies_append] at hreplies₁
    rw [sofar_insertions_append] at hins₁
    have hops' : opsOfActions be (calls ++ c) = op.toList := by
      rw [opsOfActions_append, hops, (List.append_eq_nil_iff.1 hops₁).1, List.append_nil]
    have hreplies' : (sofar (calls ++ c)).replies = (sofar c).replies := by
      rw [sofar_replies_append, hreplies, List.nil_append]
    have hins' : (sofar (calls ++ c)).insertions = [] := by
      rw [sofar_insertions_append, hins, (List.append_eq_nil_iff.1 hins₁).1, List.append_nil]
    refine ⟨hops' ▸ List.prefix_rfl, ?_, ?_, fun hne => ⟨hops', ?_⟩, fun hne => absurd hins' hne⟩
    · rw [hreplies']
      exact ⟨_, hreplies₁⟩
    · rw [hins']
      exact List.nil_prefix
    · -- there is one answer at most
      rw [hreplies'] at hne ⊢
      have hlen := congrArg List.length hreplies₁
      have hpos := List.length_pos_of_ne_nil hne
      have hone : reply.toList.length ≤ 1 := by
        cases reply <;> simp
      rw [List.length_append] at hlen
      have hnone : (sofar d).replies = [] := List.eq_nil_of_length_eq_zero (by omega)
      rw [← hreplies₁, hnone, List.append_nil]

theorem Phases.whole {be : Backend} {trace : List Action} {op : Option FileOp}
    {reply : Option (ℕ × Bytes × Option Bytes)} {recorded : List Bytes}
    (h : Phases be trace op reply recorded) : opsOfActions be trace = op.toList ∧
      (sofar trace).replies = reply.toList ∧ (sofar trace).insertions = recorded := by
  obtain ⟨calls, answer, tail, rfl, hops, hreplies, hins, hops₁, hreplies₁, hins₁, hops₂, hreplies₂,
    hins₂⟩ := h.split
  refine ⟨?_, ?_, ?_⟩
  · rw [opsOfActions_append, opsOfActions_append, hops, hops₁, hops₂]
    simp
  · rw [sofar_replies_append, sofar_replies_append, hreplies, hreplies₁, hreplies₂]
    simp
  · rw [sofar_insertions_append, sofar_insertions_append, hins, hins₁, hins₂]
    rfl

/-! ## The service -/

/-- A request in progress: what its handler has done and still has to do. `be` are the answers it gets;
    each is held to the cluster when it is given. -/
structure Handling where
  be : Backend
  req : Request
  arg : ThreadParam
  done : List Action
  todo : List Action

def Handling.start (be : Backend) (req : Request) (arg : ThreadParam) : Handling :=
  ⟨be, req, arg, [], (handle be req arg).trace⟩

def Handling.ops (q : Handling) : List FileOp :=
  opsOfActions q.be q.done

def Handling.replies (q : Handling) : List (ℕ × Bytes × Option Bytes) :=
  (sofar q.done).replies

def Handling.insertions (q : Handling) : List Bytes :=
  (sofar q.done).insertions

/-- What has happened to the files, the newest first, and through which request (`none`: another
    client); the requests since the start; whether `fFileID` takes what is inserted, and what it has
    taken. -/
structure FileService where
  history : List (Option ℕ × FileOp)
  requests : List Handling
  stream : Bool
  record : List Bytes

/-- `opens`: the record file could be opened. -/
def FileService.start (opens : Bool) : FileService :=
  ⟨[], [], opens, []⟩

def FileService.ops (s : FileService) : List FileOp :=
  s.history.map Prod.snd

/-- What has happened through request `k`. -/
def FileService.opsOf (s : FileService) (k : ℕ) : List FileOp :=
  s.history.filterMap (fun e => if e.1 = some k then some e.2 else none)

/-- The information of a file with this content. -/
structure FDFSFileInfo.Describes (crc32 : Bytes → ℤ) (info : FDFSFileInfo) (content : Bytes) : Prop where
  crc32 : info.crc32 = crc32 content
  file_size : info.file_size = content.length

instance (info : FDFSFileInfo) : Decidable info.Fits :=
  decidable_of_iff ((-2 ^ 31 ≤ info.crc32 ∧ info.crc32 < 2 ^ 31) ∧
    -2 ^ 63 ≤ info.file_size ∧ info.file_size < 2 ^ 63)
    ⟨fun h => ⟨h.1, h.2⟩, fun h => ⟨h.crc32, h.file_size⟩⟩

instance (crc32 : Bytes → ℤ) (info : FDFSFileInfo) (content : Bytes) :
    Decidable (info.Describes crc32 content) :=
  decidable_of_iff (info.crc32 = crc32 content ∧ info.file_size = content.length)
    ⟨fun h => ⟨h.1, h.2⟩, fun h => ⟨h.crc32, h.file_size⟩⟩

/-- What the answer to a successful call says is so: the information about an ID that has been given is
    that of the file it was given for. -/
def FileOp.Told (crc32 : Bytes → ℤ) (be : Backend) (history : List FileOp) : FileOp → Prop
  | .put _ _ | .remove _ => True
  | .read id => (be.fdfsGetFileInfo1 id).2.Fits ∧
      ∀ content ∈ value history id, (be.fdfsGetFileInfo1 id).2.Describes crc32 content

instance (crc32 : Bytes → ℤ) (be : Backend) (history : List FileOp) :
    ∀ op : FileOp, Decidable (FileOp.Told crc32 be history op)
  | .put _ _ | .remove _ => isTrue trivial
  | .read id =>
      inferInstanceAs (Decidable ((be.fdfsGetFileInfo1 id).2.Fits ∧
        ∀ content ∈ value history id, (be.fdfsGetFileInfo1 id).2.Describes crc32 content))

/-- What the cluster may answer an action. -/
def Answerable (crc32 : Bytes → ℤ) (be : Backend) (history : List FileOp) (act : Action) : Prop :=
  ∀ op ∈ act.op be, Possible history op ∧ FileOp.Told crc32 be history op

instance (crc32 : Bytes → ℤ) (be : Backend) (history : List FileOp) (act : Action) :
    Decidable (Answerable crc32 be history act) :=
  inferInstanceAs (Decidable (∀ op ∈ act.op be, _))

/-- A move: a request comes in, one of them does its next action, another client uses the cluster, a
    write to the record file fails. -/
inductive FileMove where
  | arrive (be : Backend) (req : Request) (arg : ThreadParam)
  | act (k : ℕ)
  | outside (op : FileOp)
  | fail

def FileService.step (crc32 : Bytes → ℤ) (s : FileService) : FileMove → Option FileService
  | .arrive be req arg => some { s with requests := s.requests ++ [.start be req arg] }
  | .act k =>
      match s.requests[k]? with
      | some ⟨be, req, arg, done, act :: todo⟩ =>
          if Answerable crc32 be s.ops act then
            some
              { history := ((act.op be).map (fun op => (some k, op))).toList ++ s.history,
                requests := s.requests.set k ⟨be, req, arg, done ++ [act], todo⟩,
                stream := s.stream,
                record := if s.stream then s.record ++ (sofar [act]).insertions else s.record }
          else none
      | _ => none
  | .outside op => if Possible s.ops op then some { s with history := (none, op) :: s.history } else none
  | .fail => some { s with stream := false }

/-- The action of request `k`. -/
def FileService.after (s : FileService) (k : ℕ) (q : Handling) (act : Action) (todo : List Action) :
    FileService where
  history := ((act.op q.be).map (fun op => (some k, op))).toList ++ s.history
  requests := s.requests.set k { q with done := q.done ++ [act], todo := todo }
  stream := s.stream
  record := if s.stream then s.record ++ (sofar [act]).insertions else s.record

@[simp] theorem FileService.after_requests (s : FileService) (k : ℕ) (q : Handling) (act : Action)
    (todo : List Action) : (s.after k q act todo).requests
      = s.requests.set k { q with done := q.done ++ [act], todo := todo } := rfl

@[simp] theorem FileService.after_record (s : FileService) (k : ℕ) (q : Handling) (act : Action)
    (todo : List Action) : (s.after k q act todo).record
      = if s.stream then s.record ++ (sofar [act]).insertions else s.record := rfl

theorem Handling.ops_concat (q : Handling) (act : Action) (todo : List Action) :
    Handling.ops { q with done := q.done ++ [act], todo := todo } = q.ops ++ (act.op q.be).toList := by
  rw [Handling.ops, opsOfActions_append, Handling.ops]
  rfl

theorem Handling.insertions_concat (q : Handling) (act : Action) (todo : List Action) :
    Handling.insertions { q with done := q.done ++ [act], todo := todo }
      = q.insertions ++ (sofar [act]).insertions := by
  rw [Handling.insertions, sofar_insertions_append, Handling.insertions]

theorem FileService.after_ops (s : FileService) (k : ℕ) (q : Handling) (act : Action)
    (todo : List Action) : (s.after k q act todo).ops = (act.op q.be).toList ++ s.ops := by
  rw [FileService.ops, FileService.ops, FileService.after, List.map_append]
  cases act.op q.be <;> rfl

theorem FileService.after_opsOf (s : FileService) (k : ℕ) (q : Handling) (act : Action)
    (todo : List Action) (j : ℕ) : (s.after k q act todo).opsOf j
      = (if k = j then (act.op q.be).toList else []) ++ s.opsOf j := by
  rw [FileService.opsOf, FileService.opsOf, FileService.after, List.filterMap_append]
  congr 1
  cases act.op q.be with
  | none => simp
  | some op => by_cases hkj : k = j <;> simp [hkj]

/-- All requests together have inserted what they had and what the action inserts. -/
theorem FileService.tally_after {s : FileService} {k : ℕ} {q : Handling} (act : Action)
    (todo : List Action) (hk : s.requests[k]? = some q) (text : Bytes) :
    tally (fun q => q.insertions.count text) (s.after k q act todo).requests
      = tally (fun q => q.insertions.count text) s.requests + (sofar [act]).insertions.count text := by
  have htally := tally_set (fun q : Handling => q.insertions.count text)
    { q with done := q.done ++ [act], todo := todo } hk
  rw [Handling.insertions_concat, List.count_append] at htally
  rw [FileService.after_requests]
  omega

/-- The moves, one case each. -/
inductive FileService.Goes (crc32 : Bytes → ℤ) (s : FileService) : FileService → Prop
  | arrive (be : Backend) (req : Request) (arg : ThreadParam) :
      Goes crc32 s { s with requests := s.requests ++ [.start be req arg] }
  | act {k : ℕ} {q : Handling} {act : Action} {todo : List Action} : s.requests[k]? = some q →
      q.todo = act :: todo → Answerable crc32 q.be s.ops act → Goes crc32 s (s.after k q act todo)
  | outside {op : FileOp} : Possible s.ops op →
      Goes crc32 s { s with history := (none, op) :: s.history }
  | fail : Goes crc32 s { s with stream := false }

theorem FileService.goes_of_step {crc32 : Bytes → ℤ} {s s' : FileService} {m : FileMove}
    (h : s.step crc32 m = some s') : s.Goes crc32 s' := by
  cases m with
  | arrive be req arg =>
      cases h
      exact .arrive be req arg
  | act k =>
      simp only [FileService.step] at h
      split at h
      · next be req arg done act todo hk =>
          by_cases hans : Answerable crc32 be s.ops act
          · rw [if_pos hans] at h
            cases h
            exact .act hk rfl hans
          · rw [if_neg hans] at h
            cases h
      · cases h
  | outside op =>
      simp only [FileService.step] at h
      split_ifs at h with hpossible
      cases h
      exact .outside hpossible
  | fail =>
      cases h
      exact .fail

/-! ## What holds in every interleaving -/

/-- The moment of an operation through request `k`: `older` is what had happened to the files before. -/
def FileService.At (s : FileService) (k : ℕ) (op : FileOp) (older : List FileOp) : Prop :=
  ∃ newer earlier, s.history = newer ++ (some k, op) :: earlier ∧ older = earlier.map Prod.snd

theorem FileService.At.mono {s s' : FileService} {k : ℕ} {op : FileOp} {older : List FileOp}
    (h : s.At k op older) {front : List (Option ℕ × FileOp)} (hs : s'.history = front ++ s.history) :
    s'.At k op older := by
  obtain ⟨newer, earlier, hsplit, holder⟩ := h
  exact ⟨front ++ newer, earlier, by rw [hs, hsplit, List.append_assoc], holder⟩

structure FileService.Inv (crc32 : Bytes → ℤ) (s : FileService) : Prop where
  legal : Legal s.ops
  trace : ∀ q ∈ s.requests, q.done ++ q.todo = (handle q.be q.req q.arg).trace
  /-- What happened through a request is what its handler has done. -/
  own : ∀ k, s.opsOf k = ((s.requests[k]?).map (fun q => q.ops.reverse)).getD []
  known : ∀ k q, s.requests[k]? = some q → ∀ op ∈ q.ops, ∃ older, s.At k op older ∧
    FileOp.Told crc32 q.be older op
  taken : ∀ text, s.record.count text ≤ tally (fun q => q.insertions.count text) s.requests
  /-- A stream that has never failed has taken everything. -/
  complete : s.stream = true →
    ∀ text, s.record.count text = tally (fun q => q.insertions.count text) s.requests

theorem FileService.inv_start (crc32 : Bytes → ℤ) (opens : Bool) :
    (FileService.start opens).Inv crc32 :=
  ⟨trivial, by simp [FileService.start], fun k => rfl, by simp [FileService.start],
    fun text => le_rfl, fun _ text => rfl⟩

/-- The operation of one action, at the place of its request. -/
theorem FileService.Inv.act {crc32 : Bytes → ℤ} {s : FileService} {k : ℕ} {q : Handling} {act : Action}
    {todo : List Action} (hinv : s.Inv crc32) (hk : s.requests[k]? = some q)
    (htodo : q.todo = act :: todo) (hans : Answerable crc32 q.be s.ops act) :
    (s.after k q act todo).Inv crc32 := by
  have hmem : q ∈ s.requests := List.mem_of_getElem? hk
  have hlt : k < s.requests.length := (List.getElem?_eq_some_iff.1 hk).1
  refine ⟨?_, ?_, fun j => ?_, ?_, fun text => ?_, fun hstream text => ?_⟩
  · rw [FileService.after_ops]
    cases hop : act.op q.be with
    | none => exact hinv.legal
    | some op => exact ⟨(hans op (by rw [hop]; rfl)).1, hinv.legal⟩
  · intro p hp
    rcases List.mem_or_eq_of_mem_set hp with hp | rfl
    · exact hinv.trace p hp
    · have htrace := hinv.trace q hmem
      rw [htodo] at htrace
      rw [List.append_assoc]
      exact htrace
  · rw [FileService.after_opsOf]
    have hown := hinv.own j
    by_cases hkj : k = j
    · subst hkj
      rw [hk] at hown
      rw [hown, if_pos rfl, FileService.after_requests, List.getElem?_set_self hlt]
      show _ = (Handling.ops { q with done := q.done ++ [act], todo := todo }).reverse
      rw [Handling.ops_concat, List.reverse_append]
      cases act.op q.be <;> rfl
    · rw [if_neg hkj, FileService.after_requests, List.getElem?_set_ne hkj]
      exact hown
  · intro j p hj op hop
    have hold : ∀ {i r}, s.requests[i]? = some r → op ∈ r.ops → ∃ older,
        (s.after k q act todo).At i op older ∧ FileOp.Told crc32 r.be older op := by
      intro i r hi hr
      obtain ⟨older, hat, htold⟩ := hinv.known i r hi op hr
      exact ⟨older, hat.mono rfl, htold⟩
    rw [FileService.after_requests] at hj
    by_cases hkj : k = j
    · subst hkj
      rw [List.getElem?_set_self hlt] at hj
      obtain rfl := (Option.some.inj hj).symm
      rw [Handling.ops_concat, List.mem_append] at hop
      rcases hop with hop | hop
      · exact hold (r := q) hk hop
      · -- the new operation happens now
        have hop' : act.op q.be = some op := Option.mem_toList.1 hop
        refine ⟨s.ops, ⟨[], s.history, ?_, rfl⟩, (hans op hop').2⟩
        rw [FileService.after, hop']
        rfl
    · rw [List.getElem?_set_ne hkj] at hj
      exact hold hj hop
  · rw [FileService.tally_after act todo hk text, FileService.after_record]
    have htaken := hinv.taken text
    split
    · rw [List.count_append]
      omega
    · omega
  · rw [FileService.tally_after act todo hk text, FileService.after_record]
    have hgood : s.stream = true := hstream
    rw [if_pos hgood, List.count_append, hinv.complete hgood text]

theorem FileService.inv_step {crc32 : Bytes → ℤ} {s s' : FileService} {m : FileMove}
    (hinv : s.Inv crc32) (hstep : s.step crc32 m = some s') : s'.Inv crc32 := by
  cases FileService.goes_of_step hstep with
  | act hk htodo hans => exact hinv.act hk htodo hans
  | outside hpossible =>
      refine ⟨⟨hpossible, hinv.legal⟩, hinv.trace, hinv.own, fun k q hk op hop => ?_, hinv.taken,
        hinv.complete⟩
      obtain ⟨older, hat, htold⟩ := hinv.known k q hk op hop
      exact ⟨older, hat.mono (List.singleton_append).symm, htold⟩
  | fail =>
      exact ⟨hinv.legal, hinv.trace, hinv.own, hinv.known, hinv.taken, fun hgood => by cases hgood⟩
  | arrive be req arg =>
      have hnew : ∀ {k : ℕ} {q : Handling}, (s.requests ++ [Handling.start be req arg])[k]? = some q →
          s.requests[k]? = some q ∨ q = Handling.start be req arg := by
        intro k q hk
        rw [List.getElem?_append] at hk
        split at hk
        · exact Or.inl hk
        · exact Or.inr (List.mem_singleton.1 (List.mem_of_getElem? hk))
      have hcount : ∀ text, tally (fun q => q.insertions.count text)
          (s.requests ++ [Handling.start be req arg])
            = tally (fun q => q.insertions.count text) s.requests := by
        intro text
        rw [tally, List.map_append, List.sum_append, ← tally]
        rfl
      refine ⟨hinv.legal, ?_, fun k => ?_, ?_, fun text => ?_, fun hgood text => ?_⟩
      · intro q hq
        rcases List.mem_append.1 hq with hq | hq
        · exact hinv.trace q hq
        · rw [List.mem_singleton.1 hq]
          rfl
      · have hown := hinv.own k
        rcases Nat.lt_trichotomy k s.requests.length with hlt | rfl | hlt
        · rw [List.getElem?_append_left hlt]
          exact hown
        · rw [List.getElem?_eq_none le_rfl] at hown
          rw [List.getElem?_concat_length]
          exact hown
        · rw [List.getElem?_eq_none hlt.le] at hown
          rw [List.getElem?_eq_none (by simp; omega)]
          exact hown
      · intro k q hk op hop
        rcases hnew hk with hk | rfl
        · exact hinv.known k q hk op hop
        · cases hop
      · rw [hcount text]
        exact hinv.taken text
      · rw [hcount text]
        exact hinv.complete hgood text

theorem FileService.inv_of_exec {crc32 : Bytes → ℤ} {opens : Bool} {s : FileService}
    {ms : List FileMove} (h : exec (FileService.step crc32) (.start opens) ms = some s) :
    s.Inv crc32 :=
  exec_inv (fun _ _ _ => FileService.inv_step) (FileService.inv_start crc32 opens) h

/-- What a run adds to the history stands before what was there. -/
theorem FileService.exec_grows {crc32 : Bytes → ℤ} {s s' : FileService} {ms : List FileMove}
    (h : exec (FileService.step crc32) s ms = some s') : ∃ newer, s'.history = newer ++ s.history := by
  refine exec_inv (I := fun t => ∃ newer, t.history = newer ++ s.history) ?_ ⟨[], rfl⟩ h
  rintro t m t' ⟨newer, hnewer⟩ hstep
  cases FileService.goes_of_step hstep with
  | arrive be req arg => exact ⟨newer, hnewer⟩
  | @act k q act todo hk htodo hans =>
      refine ⟨((act.op q.be).map (fun op => (some k, op))).toList ++ newer, ?_⟩
      rw [FileService.after, hnewer, List.append_assoc]
  | outside hpossible => exact ⟨_ :: newer, by rw [hnewer, List.cons_append]⟩
  | fail => exact ⟨newer, hnewer⟩

/-! ## What the clients are told -/

/-- An answer with status 200 to the request `q` says what has happened to the files, `older` being what
    had happened before: the body of an upload reads as the ID of the file with the content of the
    request, the answer to a deletion is empty, that to an inquiry reads as the checksum and the size of
    the file the ID was given for. -/
inductive Says (crc32 : Bytes → ℤ) (older : List FileOp) (q : Handling) :
    FileOp → Option Bytes → Prop
  | uploaded {id content body : Bytes} : q.req.path = ascii "/upload" →
      q.req.inputBuffer = some content →
      (∀ isfinite, parseChecked isfinite body = some (.object [(ascii "FileID", .string id)])) →
      Says crc32 older q (.put id content) (some body)
  | deleted {id : Bytes} : q.req.path = ascii "/delete" →
      q.req.findHeader (ascii "FileID") = some id → Says crc32 older q (.remove id) none
  | described {id body : Bytes} {crc size : ℤ} : q.req.path = ascii "/fileinfo" →
      q.req.findHeader (ascii "FileID") = some id →
      (∀ isfinite, parseChecked isfinite body = some (.object [(ascii "FileInfo", .object
        [(ascii "CreateTime", .string (strftime (q.be.localtime q.be.clock))),
          (ascii "FileCrc32", .integer crc), (ascii "FileSize", .integer size)])])) →
      (∀ content, value older id = some content → crc = crc32 content ∧ size = content.length) →
      Says crc32 older q (.read id) (some body)

theorem validUtf8_of_fileIDJson_dump {id text : Bytes} (h : (fileIDJson id).dump = some text) :
    ValidUtf8 id := by
  rw [fileIDJson_dump] at h
  obtain ⟨t, ht, -⟩ := Option.map_eq_some_iff.1 h
  exact validUtf8_of_dumpEscaped (by rw [ht]; rfl)

/-- The text of an upload's answer reads as its ID. -/
theorem parse_fileIDJson_dump {id text : Bytes} (h : (fileIDJson id).dump = some text)
    (isfinite : Bytes → Bool) :
    parseChecked isfinite text = some (.object [(ascii "FileID", .string id)]) :=
  Json.parse_dump (fileIDJson_sound (validUtf8_of_fileIDJson_dump h)) h

/-- What the answer says follows from how the request ends. -/
theorem Outcome.says {q : Handling} {op : Option FileOp} {reason : Bytes} {databuf : Option Bytes}
    {recorded : List Bytes}
    (h : Outcome q.be q.req op (some (HTTP_200, reason, databuf)) recorded) :
    ∃ o, op = some o ∧ ∀ crc32 older, FileOp.Told crc32 q.be older o → Says crc32 older q o databuf := by
  cases h with
  | refused hcode => exact absurd rfl hcode
  | stored hpath hbody hdump =>
      exact ⟨_, rfl, fun crc32 older _ => .uploaded hpath hbody (parse_fileIDJson_dump hdump)⟩
  | deleted hpath hid => exact ⟨_, rfl, fun crc32 older _ => .deleted hpath hid⟩
  | described hpath hid hdump =>
      refine ⟨_, rfl, fun crc32 older htold => ?_⟩
      obtain ⟨hfits, hinfo⟩ := htold
      refine .described hpath hid (fun _ => Json.parse_dump (fileInfoJson_sound hfits _) hdump) ?_
      intro content hvalue
      have hdescribes := hinfo content hvalue
      exact ⟨hdescribes.crc32, hdescribes.file_size⟩

/-- What a request has come to in a reachable state. -/
theorem FileService.Inv.outcome {crc32 : Bytes → ℤ} {s : FileService} {k : ℕ} {q : Handling}
    (hinv : s.Inv crc32) (hk : s.requests[k]? = some q) :
    ∃ op reply recorded, Outcome q.be q.req op reply recorded ∧ PartOf q.be q.done op reply recorded ∧
      (q.todo = [] → q.ops = op.toList ∧ q.replies = reply.toList ∧ q.insertions = recorded) ∧
      s.opsOf k = q.ops.reverse := by
  obtain ⟨op, reply, recorded, houtcome, hphases⟩ := handle_outcome q.be q.req q.arg
  rw [← hinv.trace q (List.mem_of_getElem? hk)] at hphases
  refine ⟨op, reply, recorded, houtcome, hphases.part, fun htodo => ?_, ?_⟩
  · rw [htodo, List.append_nil] at hphases
    exact hphases.whole
  · rw [hinv.own k, hk]
    rfl

theorem FileService.mem_opsOf {s : FileService} {k : ℕ} {op : FileOp} :
    op ∈ s.opsOf k ↔ (some k, op) ∈ s.history := by
  simp only [FileService.opsOf, List.mem_filterMap, Option.ite_none_right_eq_some, Option.some.injEq]
  constructor
  · rintro ⟨⟨who, op'⟩, hmem, rfl, rfl⟩
    exact hmem
  · intro hmem
    exact ⟨_, hmem, rfl, rfl⟩

/-- Of two operations through different requests one was later. -/
theorem FileService.later_or {s : FileService} {j k : ℕ} {op op' : FileOp} (hjk : j ≠ k)
    (hj : op ∈ s.opsOf j) (hk : op' ∈ s.opsOf k) : ∃ newer older,
      (s.ops = newer ++ op :: older ∧ op' ∈ older) ∨ (s.ops = newer ++ op' :: older ∧ op ∈ older) := by
  rw [FileService.mem_opsOf] at hj hk
  obtain ⟨newer, older, hsplit⟩ := List.append_of_mem hj
  rw [hsplit, List.mem_append, List.mem_cons] at hk
  rcases hk with hk | heq | hk
  · obtain ⟨a, b, rfl⟩ := List.append_of_mem hk
    refine ⟨a.map Prod.snd, (b ++ (some j, op) :: older).map Prod.snd, Or.inr ⟨?_, by simp⟩⟩
    rw [FileService.ops, hsplit]
    simp
  · cases heq
    exact absurd rfl hjk
  · refine ⟨newer.map Prod.snd, older.map Prod.snd, Or.inl ⟨?_, List.mem_map_of_mem hk⟩⟩
    rw [FileService.ops, hsplit, List.map_append, List.map_cons]

/-- A file is removed through one request only. -/
theorem FileService.Inv.remove_once {crc32 : Bytes → ℤ} {s : FileService} (hinv : s.Inv crc32)
    {j k : ℕ} {id : Bytes} (hj : .remove id ∈ s.opsOf j) (hk : .remove id ∈ s.opsOf k) : j = k := by
  have hlegal := hinv.legal
  by_contra hjk
  obtain ⟨newer, older, ⟨hops, hmem⟩ | ⟨hops, hmem⟩⟩ := FileService.later_or hjk hj hk
  · cases read_of_removed (hops ▸ hlegal) hmem
  · cases read_of_removed (hops ▸ hlegal) hmem

/-- A file is stored through one request only. -/
theorem FileService.Inv.put_once {crc32 : Bytes → ℤ} {s : FileService} (hinv : s.Inv crc32)
    {j k : ℕ} {id content content' : Bytes} (hj : .put id content ∈ s.opsOf j)
    (hk : .put id content' ∈ s.opsOf k) : j = k := by
  have hlegal := hinv.legal
  by_contra hjk
  obtain ⟨newer, older, ⟨hops, hmem⟩ | ⟨hops, hmem⟩⟩ := FileService.later_or hjk hj hk
  · exact not_put (hops ▸ hlegal) hmem
  · exact not_put (hops ▸ hlegal) hmem

theorem FileService.opsOf_subset {s : FileService} {k : ℕ} {op : FileOp} (h : op ∈ s.opsOf k) :
    op ∈ s.ops :=
  List.mem_map_of_mem (f := Prod.snd) (FileService.mem_opsOf.1 h)

theorem FileService.At.ops {s : FileService} {k : ℕ} {op : FileOp} {older : List FileOp}
    (h : s.At k op older) : ∃ newer, s.ops = newer ++ op :: older := by
  obtain ⟨newer, earlier, hsplit, rfl⟩ := h
  exact ⟨newer.map Prod.snd, by rw [FileService.ops, hsplit, List.map_append, List.map_cons]⟩

theorem FileService.At.mem {s : FileService} {k : ℕ} {op : FileOp} {older : List FileOp}
    (h : s.At k op older) : op ∈ s.opsOf k := by
  obtain ⟨newer, earlier, hsplit, -⟩ := h
  rw [FileService.mem_opsOf, hsplit]
  exact List.mem_append_right _ List.mem_cons_self

/-- A call made after `s` comes after everything that had happened there. -/
theorem FileService.At.later {s s' : FileService} {j : ℕ} {op : FileOp} {older : List FileOp}
    (h : s'.At j op older) {front : List (Option ℕ × FileOp)} (hs : s'.history = front ++ s.history)
    (hnone : s.opsOf j = []) : s.ops <:+ older := by
  obtain ⟨newer, earlier, hsplit, rfl⟩ := h
  have hnot : (some j, op) ∉ s.history := by
    rw [← FileService.mem_opsOf, hnone]
    exact List.not_mem_nil
  rw [hs] at hsplit
  rcases List.append_eq_append_iff.1 hsplit with ⟨c, -, hc⟩ | ⟨c, -, hc⟩
  · rw [hc] at hnot
    exact absurd (List.mem_append_right _ List.mem_cons_self) hnot
  · cases c with
    | nil =>
        rw [List.nil_append] at hc
        rw [← hc] at hnot
        exact absurd List.mem_cons_self hnot
    | cons e c =>
        obtain ⟨-, rfl⟩ := List.cons_eq_cons.1 hc
        exact ⟨c.map Prod.snd, List.map_append.symm⟩

/-- The operation behind an answer with status 200. -/
theorem FileService.Inv.says {crc32 : Bytes → ℤ} {s : FileService} {k : ℕ} {q : Handling}
    (hinv : s.Inv crc32) (hk : s.requests[k]? = some q) {reason : Bytes} {databuf : Option Bytes}
    (hmem : (HTTP_200, reason, databuf) ∈ q.replies) :
    ∃ op older, s.opsOf k = [op] ∧ s.At k op older ∧ Says crc32 older q op databuf := by
  obtain ⟨op, reply, recorded, houtcome, hpart, -, hown⟩ := hinv.outcome hk
  obtain ⟨hops, hreplies⟩ := hpart.answered (List.ne_nil_of_mem hmem)
  have hreply : reply = some (HTTP_200, reason, databuf) := by
    have hmem' : (HTTP_200, reason, databuf) ∈ reply.toList := hreplies ▸ hmem
    exact Option.mem_toList.1 hmem'
  subst hreply
  change q.ops = op.toList at hops
  obtain ⟨o, rfl, hsays⟩ := houtcome.says
  obtain ⟨older, hat, htold⟩ := hinv.known k q hk o (by rw [hops]; exact List.mem_singleton_self o)
  exact ⟨o, older, by rw [hown, hops]; rfl, hat, hsays crc32 older htold⟩

/-- **Answers are true.** In every interleaving an answer with status 200 goes with exactly one
    operation on the files, made through that request, and says what it was and what the files were at
    that moment. A request that is over and did something to the files has been answered with status
    200, unless the cluster gave an ID that is not UTF-8: then nobody is told and nothing recorded. -/
theorem FileService.answers_true {crc32 : Bytes → ℤ} {opens : Bool} {s : FileService}
    {ms : List FileMove} {k : ℕ} {q : Handling}
    (hrun : exec (FileService.step crc32) (.start opens) ms = some s)
    (hk : s.requests[k]? = some q) :
    (∀ reason databuf, (HTTP_200, reason, databuf) ∈ q.replies →
      ∃ op older, s.opsOf k = [op] ∧ s.At k op older ∧ Says crc32 older q op databuf) ∧
    (q.todo = [] → s.opsOf k ≠ [] → (∃ databuf, q.replies = [(HTTP_200, ascii "OK", databuf)]) ∨
      ∃ id content, s.opsOf k = [.put id content] ∧ ¬ ValidUtf8 id ∧ q.replies = [] ∧
        q.insertions = []) := by
  have hinv := FileService.inv_of_exec hrun
  refine ⟨fun reason databuf hmem => hinv.says hk hmem, fun htodo hne => ?_⟩
  obtain ⟨op, reply, recorded, houtcome, -, hwhole, hown⟩ := hinv.outcome hk
  obtain ⟨hops, hreplies, hins⟩ := hwhole htodo
  rw [hown, hops] at hne ⊢
  cases houtcome with
  | refused hcode => exact absurd rfl hne
  | stored hpath hbody hdump => exact Or.inl ⟨_, hreplies⟩
  | threw hinvalid => exact Or.inr ⟨_, _, rfl, hinvalid, hreplies, hins⟩
  | deleted hpath hid => exact Or.inl ⟨_, hreplies⟩
  | described hpath hid hdump => exact Or.inl ⟨_, hreplies⟩

/-- A storage whose files all have five bytes. -/
def storeBackend : Backend :=
  { obligingBackend with fdfsGetFileInfo1 := fun _ => (0, ⟨0, 0, 5⟩) }

/-- `n` actions of an upload of `hello`. -/
def helloMoves (n : ℕ) : List FileMove :=
  .arrive storeBackend ⟨ascii "/upload", [], some (ascii "hello")⟩ ⟨0, 0, 0, 0, some 1⟩ ::
    List.replicate n (.act 0)

/-- The text of its answer. -/
def helloText : Bytes :=
  ascii "\x7b\"FileID\":\"group1/M00/a\"\x7d"

theorem FileService.answers_true_hello : ∃ s q op older,
    exec (FileService.step (fun _ => 0)) (.start true) (helloMoves 8) = some s ∧
      s.requests[0]? = some q ∧ s.opsOf 0 = [op] ∧ s.At 0 op older ∧
      Says (fun _ => 0) older q op (some helloText) := by
  obtain ⟨s, q, hrun, hk, hmem⟩ : ∃ s q,
      exec (FileService.step (fun _ => 0)) (.start true) (helloMoves 8) = some s ∧
        s.requests[0]? = some q ∧ (HTTP_200, ascii "OK", some helloText) ∈ q.replies :=
    ⟨_, _, rfl, rfl, by decide⟩
  obtain ⟨op, older, hops, hat, hsays⟩ := (FileService.answers_true hrun hk).1 _ _ hmem
  exact ⟨s, q, op, older, hrun, hk, hops, hat, hsays⟩

/-- **A file that was told to a client** is there with the content of the upload from then on, unless
    somebody removes it; every inquiry about it that is made from then on and answered with status 200
    gives the checksum and the size of that content, also when the file is gone; and no other upload is
    ever told the same ID. -/
theorem FileService.told_file {crc32 : Bytes → ℤ} {opens : Bool} {s s' : FileService}
    {ms ms' : List FileMove} {k : ℕ} {q : Handling} {reason body : Bytes}
    (hrun : exec (FileService.step crc32) (.start opens) ms = some s)
    (hrun' : exec (FileService.step crc32) s ms' = some s')
    (hk : s.requests[k]? = some q) (hpath : q.req.path = ascii "/upload")
    (hmem : (HTTP_200, reason, some body) ∈ q.replies) :
    ∃ id content, q.req.inputBuffer = some content ∧
      (∀ isfinite, parseChecked isfinite body = some (.object [(ascii "FileID", .string id)])) ∧
      (held s'.ops id = some content ∨ .remove id ∈ s'.ops) ∧
      (∀ (j : ℕ) (p : Handling) (reason' : Bytes) (databuf : Option Bytes), s.opsOf j = [] →
        s'.requests[j]? = some p → p.req.path = ascii "/fileinfo" →
        p.req.findHeader (ascii "FileID") = some id → (HTTP_200, reason', databuf) ∈ p.replies →
        ∃ body', databuf = some body' ∧ ∀ isfinite, parseChecked isfinite body' =
          some (.object [(ascii "FileInfo", .object
            [(ascii "CreateTime", .string (strftime (p.be.localtime p.be.clock))),
              (ascii "FileCrc32", .integer (crc32 content)),
              (ascii "FileSize", .integer content.length)])])) ∧
      (∀ (j : ℕ) (p : Handling) (reason' body' : Bytes), j ≠ k → s'.requests[j]? = some p →
        p.req.path = ascii "/upload" → (HTTP_200, reason', some body') ∈ p.replies →
        ∀ isfinite, parseChecked isfinite body' ≠ some (.object [(ascii "FileID", .string id)])) := by
  have hinv := FileService.inv_of_exec hrun
  have hinv' := FileService.inv_of_exec (exec_append hrun hrun')
  obtain ⟨front, hfront⟩ := FileService.exec_grows hrun'
  obtain ⟨op, older, hops, hat, hsays⟩ := hinv.says hk hmem
  cases hsays with
  | described hpath' => exact absurd (hpath.symm.trans hpath') (by decide)
  | @uploaded id content _ _ hbody hparse =>
      have hput : Op.put id content ∈ s.ops := FileService.opsOf_subset hat.mem
      have hown : Op.put id content ∈ s'.opsOf k := (hat.mono hfront).mem
      refine ⟨id, content, hbody, hparse, ?_, ?_, ?_⟩
      · by_cases hremoved : Op.remove id ∈ s'.ops
        · exact Or.inr hremoved
        · exact Or.inl ((held_eq_some_iff hinv'.legal).2
            ⟨FileService.opsOf_subset hown, hremoved⟩)
      · intro j p reason' databuf hnone hj hpath' hid hmem'
        obtain ⟨op', older', -, hat', hsays'⟩ := hinv'.says hj hmem'
        cases hsays' with
        | uploaded hpath'' => exact absurd (hpath'.symm.trans hpath'') (by decide)
        | deleted hpath'' => exact absurd (hpath'.symm.trans hpath'') (by decide)
        | described _ hid' hparse' hinfo =>
            obtain rfl : id = _ := Option.some.inj (hid.symm.trans hid')
            -- the ID had been given when the inquiry was made
            obtain ⟨newer, hops'⟩ := hat'.ops
            have hlegal : Legal older' := (hops' ▸ hinv'.legal).of_append.2
            have hput' : Op.put id content ∈ older' := (hat'.later hfront hnone).mem hput
            obtain ⟨rfl, rfl⟩ := hinfo content ((value_eq_some_iff hlegal).2 hput')
            exact ⟨_, rfl, hparse'⟩
      · intro j p reason' body' hjk hj hpath' hmem' isfinite heq
        obtain ⟨op', older', -, hat', hsays'⟩ := hinv'.says hj hmem'
        cases hsays' with
        | described hpath'' => exact absurd (hpath'.symm.trans hpath'') (by decide)
        | @uploaded id' content' _ _ _ hparse' =>
            rw [hparse' isfinite] at heq
            obtain rfl : id' = id := by simpa using heq
            exact hjk (hinv'.put_once hat'.mem hown)

/-- An inquiry about that file, until it is answered. -/
def inquiryMoves : List FileMove :=
  .arrive storeBackend ⟨ascii "/fileinfo", [(ascii "FileID", ascii "group1/M00/a")], none⟩
    ⟨0, 0, 0, 0, some 1⟩ :: List.replicate 5 (.act 1)

/-- The file is gone when the inquiry is made. -/
theorem FileService.told_file_hello : ∃ s s' p databuf body,
    exec (FileService.step (fun _ => 0)) (.start true) (helloMoves 8) = some s ∧
      exec (FileService.step (fun _ => 0)) s
        (.outside (.remove (ascii "group1/M00/a")) :: inquiryMoves) = some s' ∧
      held s'.ops (ascii "group1/M00/a") = none ∧ s'.requests[1]? = some p ∧
      (HTTP_200, ascii "OK", databuf) ∈ p.replies ∧ databuf = some body ∧
      ∀ isfinite, parseChecked isfinite body = some (.object [(ascii "FileInfo", .object
        [(ascii "CreateTime", .string (strftime (p.be.localtime p.be.clock))),
          (ascii "FileCrc32", .integer 0), (ascii "FileSize", .integer 5)])]) := by
  obtain ⟨s, s', q, p, databuf, hrun, hrun', hk, hpath, hbody, hmem, hgone, hnone, hp, hpath', hid,
      hmem'⟩ : ∃ s s' q p databuf,
      exec (FileService.step (fun _ => 0)) (.start true) (helloMoves 8) = some s ∧
        exec (FileService.step (fun _ => 0)) s
          (.outside (.remove (ascii "group1/M00/a")) :: inquiryMoves) = some s' ∧
        s.requests[0]? = some q ∧ q.req.path = ascii "/upload" ∧
        q.req.inputBuffer = some (ascii "hello") ∧
        (HTTP_200, ascii "OK", some helloText) ∈ q.replies ∧
        held s'.ops (ascii "group1/M00/a") = none ∧ s.opsOf 1 = [] ∧ s'.requests[1]? = some p ∧
        p.req.path = ascii "/fileinfo" ∧
        p.req.findHeader (ascii "FileID") = some (ascii "group1/M00/a") ∧
        (HTTP_200, ascii "OK", databuf) ∈ p.replies :=
    ⟨_, _, _, _, _, rfl, rfl, rfl, rfl, rfl, by decide, by decide, rfl, rfl, rfl, by decide,
      List.mem_singleton_self _⟩
  obtain ⟨id, content, hbody', hparse, -, hinquiry, -⟩ :=
    FileService.told_file hrun hrun' hk hpath hmem
  obtain rfl := Option.some.inj (hbody.symm.trans hbody')
  have hdump : (fileIDJson (ascii "group1/M00/a")).dump = some helloText := by decide
  obtain rfl : id = ascii "group1/M00/a" := by
    simpa using (hparse (fun _ => true)).symm.trans (parse_fileIDJson_dump hdump _)
  obtain ⟨body, hdatabuf, hinfo⟩ := hinquiry 1 p _ databuf hnone hp hpath' hid hmem'
  exact ⟨s, s', p, databuf, body, hrun, hrun', hgone, hp, hmem', hdatabuf, hinfo⟩

/-- **A deletion that was answered is final**: the file is gone from then on and nobody, the proxy or
    another client, stores or removes anything under its ID again; every answer with status 200 to a
    call that is made from then on, other than an inquiry, is about another file; and no other deletion
    of this file is ever answered with status 200. -/
theorem FileService.deleted_for_good {crc32 : Bytes → ℤ} {opens : Bool} {s s' : FileService}
    {ms ms' : List FileMove} {k : ℕ} {q : Handling} {id reason : Bytes} {databuf : Option Bytes}
    (hrun : exec (FileService.step crc32) (.start opens) ms = some s)
    (hrun' : exec (FileService.step crc32) s ms' = some s') (hk : s.requests[k]? = some q)
    (hpath : q.req.path = ascii "/delete") (hid : q.req.findHeader (ascii "FileID") = some id)
    (hmem : (HTTP_200, reason, databuf) ∈ q.replies) :
    held s'.ops id = none ∧
    (∃ newer, s'.history = newer ++ s.history ∧ ∀ e ∈ newer, e.2.name = id → e.2 = .read id) ∧
    (∀ (j : ℕ) (p : Handling) (reason' : Bytes) (databuf' : Option Bytes), s.opsOf j = [] →
      s'.requests[j]? = some p → p.req.path ≠ ascii "/fileinfo" →
      (HTTP_200, reason', databuf') ∈ p.replies → ∃ op older, s'.opsOf j = [op] ∧ s'.At j op older ∧
        Says crc32 older p op databuf' ∧ op.name ≠ id) ∧
    (∀ (j : ℕ) (p : Handling) (reason' : Bytes) (databuf' : Option Bytes), j ≠ k →
      s'.requests[j]? = some p → p.req.path = ascii "/delete" →
      p.req.findHeader (ascii "FileID") = some id → (HTTP_200, reason', databuf') ∉ p.replies) := by
  have hinv := FileService.inv_of_exec hrun
  have hinv' := FileService.inv_of_exec (exec_append hrun hrun')
  obtain ⟨newer, hnewer⟩ := FileService.exec_grows hrun'
  have hremove : ∃ older, s.At k (.remove id) older := by
    obtain ⟨op, older, -, hat, hsays⟩ := hinv.says hk hmem
    cases hsays with
    | uploaded hpath' => exact absurd (hpath.symm.trans hpath') (by decide)
    | described hpath' => exact absurd (hpath.symm.trans hpath') (by decide)
    | deleted _ hid' =>
        obtain rfl : id = _ := Option.some.inj (hid.symm.trans hid')
        exact ⟨older, hat⟩
  obtain ⟨older, hat⟩ := hremove
  have hremoved : Op.remove id ∈ s.ops := FileService.opsOf_subset hat.mem
  have hremove' : Op.remove id ∈ s'.opsOf k := (hat.mono hnewer).mem
  -- what comes later under this ID is a question
  have hread : ∀ {op : FileOp} {a b : List FileOp}, s'.ops = a ++ op :: b → s.ops <:+ b →
      op.name = id → op = .read id := by
    rintro op a b hsplit hsuffix rfl
    exact read_of_removed (hsplit ▸ hinv'.legal) (hsuffix.mem hremoved)
  refine ⟨?_, ⟨newer, hnewer, fun e he => ?_⟩, ?_, ?_⟩
  · by_contra hheld
    exact not_mem_of_held hinv'.legal (Option.isSome_iff_ne_none.2 hheld)
      (FileService.opsOf_subset hremove')
  · obtain ⟨a, b, rfl⟩ := List.append_of_mem he
    have hsplit : s'.ops = a.map Prod.snd ++ e.2 :: (b.map Prod.snd ++ s.ops) := by
      rw [FileService.ops, hnewer, FileService.ops]
      simp
    exact hread hsplit (List.suffix_append _ _)
  · intro j p reason' databuf' hnone hp hpath' hmem'
    obtain ⟨op, older', hops, hat', hsays⟩ := hinv'.says hp hmem'
    refine ⟨op, older', hops, hat', hsays, fun hname => ?_⟩
    obtain ⟨a, hsplit⟩ := hat'.ops
    obtain rfl := hread hsplit (hat'.later hnewer hnone) hname
    cases hsays with
    | described hpath'' => exact hpath' hpath''
  · intro j p reason' databuf' hjk hp hpath' hid' hmem'
    obtain ⟨op, older', -, hat', hsays⟩ := hinv'.says hp hmem'
    cases hsays with
    | uploaded hpath'' => exact absurd (hpath'.symm.trans hpath'') (by decide)
    | described hpath'' => exact absurd (hpath'.symm.trans hpath'') (by decide)
    | deleted _ hid'' =>
        obtain rfl : id = _ := Option.some.inj (hid'.symm.trans hid'')
        exact hjk (hinv'.remove_once hat'.mem hremove')

/-- A deletion of that file, until it is answered. -/
def deleteMoves : List FileMove :=
  .arrive storeBackend ⟨ascii "/delete", [(ascii "FileID", ascii "group1/M00/a")], none⟩
    ⟨0, 0, 0, 0, some 1⟩ :: List.replicate 5 (.act 1)

theorem FileService.deleted_for_good_hello : ∃ s s',
    exec (FileService.step (fun _ => 0)) (.start true) (helloMoves 8 ++ deleteMoves) = some s ∧
      exec (FileService.step (fun _ => 0)) s [.act 0, .act 0] = some s' ∧
      held s'.ops (ascii "group1/M00/a") = none := by
  obtain ⟨s, s', q, hrun, hrun', hk, hpath, hid, hmem⟩ : ∃ s s' q,
      exec (FileService.step (fun _ => 0)) (.start true) (helloMoves 8 ++ deleteMoves) = some s ∧
        exec (FileService.step (fun _ => 0)) s [.act 0, .act 0] = some s' ∧
        s.requests[1]? = some q ∧ q.req.path = ascii "/delete" ∧
        q.req.findHeader (ascii "FileID") = some (ascii "group1/M00/a") ∧
        (HTTP_200, ascii "OK", none) ∈ q.replies :=
    ⟨_, _, _, rfl, rfl, rfl, rfl, by decide, by decide⟩
  exact ⟨s, s', hrun, hrun', (FileService.deleted_for_good hrun hrun' hk hpath hid hmem).1⟩

/-! ## What is recorded -/

/-- How often the text of an upload's answer was sent. -/
def Handling.tells (q : Handling) (text : Bytes) : ℕ :=
  if q.req.path = ascii "/upload" then q.replies.count (HTTP_200, ascii "OK", some text) else 0

/-- How often the request stored a file under this ID. -/
def Handling.puts (q : Handling) (id : Bytes) : ℕ :=
  q.ops.countP (fun
    | .put name _ => name == id
    | _ => false)

theorem fileIDJson_dump_inj {id id' text : Bytes} (h : (fileIDJson id).dump = some text)
    (h' : (fileIDJson id').dump = some text) : id = id' := by
  simpa using (parse_fileIDJson_dump h (fun _ => true)).symm.trans (parse_fileIDJson_dump h' _)

theorem fileIDJson_dump_ne_LF {id text : Bytes} (h : (fileIDJson id).dump = some text) :
    text ≠ [LF] := by
  rw [fileIDJson_dump] at h
  obtain ⟨t, -, rfl⟩ := Option.map_eq_some_iff.1 h
  intro heq
  have hlen := congrArg List.length heq
  simp only [List.length_append] at hlen
  have hopen : (ascii "\x7b\"FileID\":\"").length = 11 := by decide
  rw [hopen, List.length_singleton] at hlen
  omega

theorem eq_of_prefix_toList {α : Type*} {l : List α} {o : Option α} (h : l <+: o.toList) :
    l = [] ∨ l = o.toList := by
  cases o with
  | none => exact Or.inl (List.prefix_nil.1 h)
  | some a =>
      rcases List.prefix_cons_iff.1 h with hnil | ⟨t, rfl, ht⟩
      · exact Or.inl hnil
      · rw [List.prefix_nil.1 ht]
        exact Or.inr rfl

/-- The upload of a file with this ID, in the middle of its handler. -/
theorem in_turn_stored {q : Handling} {id content text : Bytes}
    (hpart : PartOf q.be q.done (some (.put id content))
      (some (HTTP_200, ascii "OK", some text)) [text, [LF]])
    (hpath : q.req.path = ascii "/upload") (hdump : (fileIDJson id).dump = some text) :
    q.insertions.count text ≤ q.tells text ∧ q.tells text ≤ q.puts id := by
  have hputs : q.ops = [.put id content] → q.puts id = 1 := by
    intro h
    simp [Handling.puts, h]
  have htells : q.replies = [(HTTP_200, ascii "OK", some text)] → q.tells text = 1 := by
    intro h
    simp [Handling.tells, h, hpath]
  refine ⟨?_, ?_⟩
  · by_cases hnone : q.insertions = []
    · rw [hnone]
      exact Nat.zero_le _
    · rw [htells (hpart.noted hnone)]
      have hcount := hpart.insertions.sublist.count_le text
      rw [List.count_cons_self, List.count_singleton,
        if_neg (by simpa using (fileIDJson_dump_ne_LF hdump).symm)] at hcount
      exact hcount
  · by_cases hnone : q.replies = []
    · simp [Handling.tells, hnone]
    · obtain ⟨hall, hreplies⟩ := hpart.answered hnone
      rw [htells hreplies, hputs hall]

/-- The upload of another file. -/
theorem in_turn_other {q : Handling} {id id' content text text' : Bytes}
    (hpart : PartOf q.be q.done (some (.put id' content))
      (some (HTTP_200, ascii "OK", some text')) [text', [LF]])
    (hdump : (fileIDJson id).dump = some text) (hid : id' ≠ id) (htext : text' ≠ text) :
    q.insertions.count text = 0 ∧ q.tells text = 0 ∧ q.puts id = 0 := by
  have hops : q.ops = [] ∨ q.ops = [.put id' content] := eq_of_prefix_toList hpart.ops
  have hreplies : q.replies = [] ∨ q.replies = [(HTTP_200, ascii "OK", some text')] :=
    eq_of_prefix_toList hpart.replies
  refine ⟨?_, ?_, ?_⟩
  · have hcount := hpart.insertions.sublist.count_le text
    have hzero : [text', [LF]].count text = 0 :=
      List.count_eq_zero.2 (by simp [htext.symm, fileIDJson_dump_ne_LF hdump])
    rw [hzero] at hcount
    exact Nat.le_zero.1 hcount
  · rcases hreplies with h | h <;> simp [Handling.tells, h, htext]
  · rcases hops with h | h <;> simp [Handling.puts, h, hid]

/-- A request that records nothing and stores nothing under this ID. -/
theorem in_turn_nothing {q : Handling} {op : Option FileOp}
    {reply : Option (ℕ × Bytes × Option Bytes)} {id text : Bytes}
    (hpart : PartOf q.be q.done op reply []) (hput : ∀ content, op ≠ some (.put id content))
    (htells : q.tells text = 0) :
    q.insertions.count text = 0 ∧ q.tells text = 0 ∧ q.puts id = 0 := by
  refine ⟨?_, htells, ?_⟩
  · rw [show q.insertions = [] from List.prefix_nil.1 hpart.insertions]
    rfl
  · refine List.countP_eq_zero.2 (fun o ho => ?_)
    have hmem : o ∈ op.toList := hpart.ops.subset ho
    cases o with
    | put name content =>
        have hne : name ≠ id := by
          rintro rfl
          exact hput content (Option.mem_toList.1 hmem)
        simpa using hne
    | remove name => simp
    | read name => simp

/-- One request: recorded after it was told, told after it was stored. -/
theorem FileService.Inv.in_turn {crc32 : Bytes → ℤ} {s : FileService} {k : ℕ} {q : Handling}
    {id text : Bytes} (hinv : s.Inv crc32) (hk : s.requests[k]? = some q)
    (hdump : (fileIDJson id).dump = some text) :
    q.insertions.count text ≤ q.tells text ∧ q.tells text ≤ q.puts id ∧
      (q.todo = [] → q.insertions.count text = q.puts id) := by
  obtain ⟨op, reply, recorded, houtcome, hpart, hwhole, hown⟩ := hinv.outcome hk
  have hpath_tells : q.req.path ≠ ascii "/upload" → q.tells text = 0 := by
    intro hpath
    rw [Handling.tells, if_neg hpath]
  have hnothing : q.insertions.count text = 0 ∧ q.tells text = 0 ∧ q.puts id = 0 →
      q.insertions.count text ≤ q.tells text ∧ q.tells text ≤ q.puts id ∧
        (q.todo = [] → q.insertions.count text = q.puts id) := by
    rintro ⟨h₁, h₂, h₃⟩
    rw [h₁, h₂, h₃]
    exact ⟨le_rfl, le_rfl, fun _ => rfl⟩
  cases houtcome with
  | refused hcode =>
      refine hnothing (in_turn_nothing hpart (by simp) ?_)
      have hreplies := eq_of_prefix_toList hpart.replies
      rcases hreplies with h | h
      · simp [Handling.tells, Handling.replies, h]
      · simp [Handling.tells, Handling.replies, h, hcode]
  | deleted hpath =>
      exact hnothing (in_turn_nothing hpart (by simp)
        (hpath_tells (by rw [hpath]; decide)))
  | described hpath =>
      exact hnothing (in_turn_nothing hpart (by simp)
        (hpath_tells (by rw [hpath]; decide)))
  | @threw id' content hinvalid =>
      -- that was another ID: this one has a text
      have hid : id' ≠ id := by
        rintro rfl
        exact hinvalid (validUtf8_of_fileIDJson_dump hdump)
      have hreplies : q.replies = [] := List.prefix_nil.1 hpart.replies
      exact hnothing (in_turn_nothing hpart (by simp [hid]) (by simp [Handling.tells, hreplies]))
  | @stored id' content text' hpath hbody hdump' =>
      by_cases hid : id' = id
      · subst hid
        obtain rfl : text' = text := Option.some.inj (hdump'.symm.trans hdump)
        obtain ⟨h₁, h₂⟩ := in_turn_stored hpart hpath hdump
        refine ⟨h₁, h₂, fun htodo => ?_⟩
        obtain ⟨hops, -, hins⟩ := hwhole htodo
        rw [hins, Handling.puts, hops]
        simp [(fileIDJson_dump_ne_LF hdump).symm]
      · have htext : text' ≠ text := by
          rintro rfl
          exact hid (fileIDJson_dump_inj hdump' hdump)
        exact hnothing (in_turn_other hpart hdump hid htext)

theorem Handling.put_of_puts {q : Handling} {id : Bytes} (h : q.puts id ≠ 0) :
    ∃ content, Op.put id content ∈ q.ops := by
  obtain ⟨op, hop, hput⟩ := List.countP_pos_iff.1 (Nat.pos_of_ne_zero h)
  cases op with
  | put name content =>
      obtain rfl : name = id := by simpa using hput
      exact ⟨content, hop⟩
  | remove name => cases hput
  | read name => cases hput

/-- All requests together store one file under an ID at most. -/
theorem FileService.Inv.puts_le_one {crc32 : Bytes → ℤ} {s : FileService} (hinv : s.Inv crc32)
    (id : Bytes) : tally (fun q => q.puts id) s.requests ≤ 1 := by
  have hmem : ∀ {k : ℕ} {q : Handling}, s.requests[k]? = some q → q.puts id ≠ 0 →
      ∃ content, Op.put id content ∈ s.opsOf k := by
    intro k q hk hq
    obtain ⟨content, hop⟩ := Handling.put_of_puts hq
    refine ⟨content, ?_⟩
    rw [hinv.own k, hk]
    exact List.mem_reverse.2 hop
  refine tally_le_one (fun q hq => ?_) (fun i j q p hi hj hq hp => ?_)
  · obtain ⟨k, hk⟩ := List.mem_iff_getElem?.1 hq
    obtain ⟨op, reply, recorded, -, hpart, -⟩ := hinv.outcome hk
    calc q.puts id ≤ q.ops.length := List.countP_le_length
      _ ≤ op.toList.length := hpart.ops.length_le
      _ ≤ 1 := by cases op <;> simp
  · obtain ⟨content, hc⟩ := hmem hi hq
    obtain ⟨content', hc'⟩ := hmem hj hp
    exact hinv.put_once hc hc'

/-- A file whose ID is not UTF-8 is told to nobody and not recorded. -/
theorem FileService.Inv.not_told {crc32 : Bytes → ℤ} {s : FileService} {k : ℕ} {q : Handling}
    {id : Bytes} (hinv : s.Inv crc32) (hk : s.requests[k]? = some q) (hinvalid : ¬ ValidUtf8 id)
    (hputs : q.puts id ≠ 0) : q.replies = [] ∧ q.insertions = [] := by
  obtain ⟨op, reply, recorded, houtcome, hpart, -⟩ := hinv.outcome hk
  obtain ⟨content, hop⟩ := Handling.put_of_puts hputs
  obtain rfl : op = some (.put id content) := Option.mem_toList.1 (hpart.ops.subset hop)
  cases houtcome with
  | stored hpath hbody hdump => exact absurd (validUtf8_of_fileIDJson_dump hdump) hinvalid
  | threw _ => exact ⟨List.prefix_nil.1 hpart.replies, List.prefix_nil.1 hpart.insertions⟩

/-- **Every file is told and recorded once.** In every interleaving the proxy stores at most one file
    under an ID. The text of the ID has been recorded at most as often as it was sent, that is at most
    as often as a file was stored. When all handlers have ended, every file the proxy stored was told
    once, and recorded once if `fFileID` has never failed. An ID that is not UTF-8 has no text: the
    handler threw, nobody was told and nothing recorded. -/
theorem FileService.recorded_once {crc32 : Bytes → ℤ} {opens : Bool} {s : FileService}
    {ms : List FileMove} (id : Bytes)
    (hrun : exec (FileService.step crc32) (.start opens) ms = some s) :
    tally (fun q => q.puts id) s.requests ≤ 1 ∧
    (∀ text, (fileIDJson id).dump = some text →
      s.record.count text ≤ tally (fun q => q.tells text) s.requests ∧
      tally (fun q => q.tells text) s.requests ≤ tally (fun q => q.puts id) s.requests ∧
      ((∀ q ∈ s.requests, q.todo = []) →
        tally (fun q => q.tells text) s.requests = tally (fun q => q.puts id) s.requests ∧
        (s.stream = true → s.record.count text = tally (fun q => q.tells text) s.requests))) ∧
    (¬ ValidUtf8 id → ∀ q ∈ s.requests, q.puts id ≠ 0 → q.replies = [] ∧ q.insertions = []) := by
  have hinv := FileService.inv_of_exec hrun
  refine ⟨hinv.puts_le_one id, fun text hdump => ?_, fun hinvalid q hq hputs => ?_⟩
  · have hturn : ∀ q ∈ s.requests, q.insertions.count text ≤ q.tells text ∧
        q.tells text ≤ q.puts id ∧
        (q.todo = [] → q.insertions.count text = q.puts id) := by
      intro q hq
      obtain ⟨k, hk⟩ := List.mem_iff_getElem?.1 hq
      exact hinv.in_turn hk hdump
    have hins : tally (fun q => q.insertions.count text) s.requests
        ≤ tally (fun q => q.tells text) s.requests := tally_mono (fun q hq => (hturn q hq).1)
    have hputs : tally (fun q => q.tells text) s.requests ≤ tally (fun q => q.puts id) s.requests :=
      tally_mono (fun q hq => (hturn q hq).2.1)
    refine ⟨(hinv.taken text).trans hins, hputs, fun hdone => ?_⟩
    have hall : tally (fun q => q.insertions.count text) s.requests
        = tally (fun q => q.puts id) s.requests :=
      congrArg List.sum (List.map_congr_left (fun q hq => (hturn q hq).2.2 (hdone q hq)))
    refine ⟨by omega, fun hgood => ?_⟩
    rw [hinv.complete hgood text]
    omega
  · obtain ⟨k, hk⟩ := List.mem_iff_getElem?.1 hq
    exact hinv.not_told hk hinvalid hputs

/-- The handler has ended, and the stream is good. -/
theorem FileService.recorded_once_hello : ∃ s,
    exec (FileService.step (fun _ => 0)) (.start true) (helloMoves 11) = some s ∧
      tally (fun q => q.puts (ascii "group1/M00/a")) s.requests = 1 ∧
      s.record.count helloText = 1 := by
  obtain ⟨s, hrun, hputs, hdone, hgood⟩ : ∃ s,
      exec (FileService.step (fun _ => 0)) (.start true) (helloMoves 11) = some s ∧
        tally (fun q => q.puts (ascii "group1/M00/a")) s.requests = 1 ∧
        (∀ q ∈ s.requests, q.todo = []) ∧ s.stream = true :=
    ⟨_, rfl, by decide, List.forall_mem_singleton.2 rfl, rfl⟩
  have hdump : (fileIDJson (ascii "group1/M00/a")).dump = some helloText := by decide
  obtain ⟨-, hvalid, -⟩ := FileService.recorded_once (ascii "group1/M00/a") hrun
  obtain ⟨-, -, hend⟩ := hvalid helloText hdump
  obtain ⟨htells, hrecord⟩ := hend hdone
  exact ⟨s, hrun, hputs, by rw [hrecord hgood, htells, hputs]⟩

end FileCacheProxy
