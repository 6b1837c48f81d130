import FileCacheProxy.JsonParse
import FileCacheProxy.Records
import Mathlib

set_option autoImplicit false

/-! # From the body to the file ID and back

What an upload passes on and what it tells. The storage is handed the body as it came; its two names
go through `string_format`, a JSON text, a reply and the record, and whoever reads one of the two with
a JSON parser and cuts the ID at its first separator has the names again. -/

namespace FileCacheProxy

/-! ## File IDs -/

def FDFS_FILE_ID_SEPERATOR : UInt8 := 47

/-- Group name and remote file name: a file ID is cut at its first separator. -/
def cutFileID (fileID : Bytes) : Bytes × Bytes :=
  (fileID.takeWhile (· != FDFS_FILE_ID_SEPERATOR),
    (fileID.dropWhile (· != FDFS_FILE_ID_SEPERATOR)).tail)

/-- The separator in between is the first one. -/
theorem cutFileID_append {g : Bytes} (h : FDFS_FILE_ID_SEPERATOR ∉ g) (r : Bytes) :
    cutFileID (g ++ ascii "/" ++ r) = (g, r) := by
  have hsep : ascii "/" ++ r = FDFS_FILE_ID_SEPERATOR :: r := rfl
  have hg : ∀ c ∈ g, (c != FDFS_FILE_ID_SEPERATOR) = true := by
    intro c hc
    rw [bne_iff_ne]
    rintro rfl
    exact h hc
  rw [List.append_assoc, hsep, cutFileID, List.takeWhile_append_of_pos hg,
    List.dropWhile_append_of_pos hg]
  simp

/-! ## The calls of an upload -/

/-- A handler run that got no file stored: nothing is recorded, and if the storage was asked at all,
    it was handed the body and reported a failure. -/
structure NotStored (h : Handled) (req : Request) : Prop where
  insertions : h.insertions = []
  asked : ∀ args ok, Action.fdfs (.storageUploadByFilebuff args) ok ∈ h.trace →
    ok = false ∧ req.inputBuffer = some args.file_buff ∧ args.file_size = args.file_buff.length

/-- Either nothing is stored, or all three calls succeed. -/
theorem uploadHandler_stored_cases (be : Backend) (req : Request) (arg : ThreadParam) :
    NotStored (uploadHandler be req arg) req ∨
      ∃ up : SuccessfulUpload, up.be = be ∧ up.req = req ∧ up.arg = arg := by
  by_cases hok : ∃ up : SuccessfulUpload, up.be = be ∧ up.req = req ∧ up.arg = arg
  · exact Or.inr hok
  · refine Or.inl ?_
    unfold uploadHandler
    dsimp only
    cases hbuf : req.inputBuffer with
    | none => exact ⟨rfl, by simp [replyEmpty]⟩
    | some file_content =>
        dsimp only
        split
        · exact ⟨rfl, by simp [replyEmpty]⟩
        · next hquery =>
            cases hconn : be.trackerMakeConnection
                (be.trackerQueryStorageStore arg.connectResult).storageServer with
            | none => exact ⟨rfl, by simp [replyEmpty]⟩
            | some pStorageServer =>
                dsimp only
                split
                · next hup =>
                    refine ⟨rfl, fun args ok hmem => ?_⟩
                    simp only [replyEmpty, List.mem_append, List.mem_cons, List.not_mem_nil,
                      or_false, reduceCtorEq, false_or, Action.fdfs.injEq,
                      FdfsCall.storageUploadByFilebuff.injEq, false_and] at hmem
                    obtain ⟨rfl, rfl⟩ := hmem
                    exact ⟨by simpa using hup, hbuf, rfl⟩
                · next hup =>
                    exact absurd ⟨⟨be, req, arg, file_content, pStorageServer, hbuf,
                      not_not.1 hquery, hconn, not_not.1 hup⟩, rfl, rfl, rfl⟩ hok

/-- The calls of a successful upload stand in its first four actions. -/
theorem SuccessfulUpload.mem_trace {up : SuccessfulUpload} {call : FdfsCall} {ok : Bool}
    (h : Action.fdfs call ok ∈ up.handled.trace) : Action.fdfs call ok ∈ up.acts := by
  rw [up.handled_eq, uploadReply_eq] at h
  split at h
  · exact h
  · simpa [jsonHeaders] using h

theorem SuccessfulUpload.call_ok {up : SuccessfulUpload} {call : FdfsCall} {ok : Bool}
    (h : Action.fdfs call ok ∈ up.handled.trace) : ok = true := by
  have hact := mem_trace h
  simp only [acts, List.mem_cons, List.not_mem_nil, or_false, reduceCtorEq, false_or,
    Action.fdfs.injEq] at hact
  rcases hact with ⟨-, rfl⟩ | ⟨-, rfl⟩ | ⟨-, rfl⟩ <;> rfl

theorem SuccessfulUpload.args_eq {up : SuccessfulUpload} {args : UploadArgs} {ok : Bool}
    (h : Action.fdfs (.storageUploadByFilebuff args) ok ∈ up.handled.trace) :
    args = uploadArgs up.be up.req up.arg up.file_content up.pStorageServer := by
  have hact := mem_trace h
  simp only [acts, List.mem_cons, List.not_mem_nil, or_false, reduceCtorEq, false_or,
    Action.fdfs.injEq, FdfsCall.storageUploadByFilebuff.injEq, false_and] at hact
  exact hact.1

/-! ## What an upload tells -/

/-- The client and the record are told one text, a line that reads as an object whose only member is
    the file ID of `g` and `r`; cut at its first separator, the ID gives the two back. -/
def Told (h : Handled) (g r : Bytes) : Prop :=
  ∃ j_str, h.replies = [(HTTP_200, ascii "OK", some j_str)] ∧
    h.insertions = [j_str, [LF]] ∧ LF ∉ j_str ∧
    parse j_str = some (.object [(ascii "FileID", .string (g ++ ascii "/" ++ r))]) ∧
    cutFileID (g ++ ascii "/" ++ r) = (g, r)

/-- What holds of the upload that a request leads to. -/
structure UploadLaw (be : Backend) (req : Request) (arg : ThreadParam) : Prop where
  /-- The storage is handed the body and its length. -/
  passed : ∀ args ok,
    Action.fdfs (.storageUploadByFilebuff args) ok ∈ (uploadHandler be req arg).trace →
      req.inputBuffer = some args.file_buff ∧ args.file_size = args.file_buff.length
  /-- If the storage has the file, the names it returned are told. -/
  told : ∀ args,
    Action.fdfs (.storageUploadByFilebuff args) true ∈ (uploadHandler be req arg).trace →
      ∀ g r, g = cstr (be.storageUploadByFilebuff args).group_name →
        r = cstr (be.storageUploadByFilebuff args).remote_filename →
          FDFS_FILE_ID_SEPERATOR ∉ g → ValidUtf8 g → ValidUtf8 r →
            Told (uploadHandler be req arg) g r
  /-- Other names are told differently. -/
  distinct : ∀ g r, Told (uploadHandler be req arg) g r → ∀ h' g' r', Told h' g' r' →
    (g, r) ≠ (g', r') → g ++ ascii "/" ++ r ≠ g' ++ ascii "/" ++ r' ∧
      (uploadHandler be req arg).replies ≠ h'.replies ∧
      (uploadHandler be req arg).insertions ≠ h'.insertions
  /-- A call that fails leaves the record as it is. -/
  unchanged : ∀ call, Action.fdfs call false ∈ (uploadHandler be req arg).trace →
    (uploadHandler be req arg).insertions = []

/-- A text that two handlers tell stands for the same names. -/
theorem Told.inj {h h' : Handled} {g r g' r' : Bytes} (ht : Told h g r) (ht' : Told h' g' r')
    (heq : g ++ ascii "/" ++ r = g' ++ ascii "/" ++ r' ∨ h.replies = h'.replies ∨
      h.insertions = h'.insertions) : (g, r) = (g', r') := by
  obtain ⟨j_str, hreplies, hins, -, hparse, hcut⟩ := ht
  obtain ⟨j_str', hreplies', hins', -, hparse', hcut'⟩ := ht'
  have htext : j_str = j_str' → g ++ ascii "/" ++ r = g' ++ ascii "/" ++ r' := by
    rintro rfl
    rw [hparse] at hparse'
    simpa using hparse'
  have hID : g ++ ascii "/" ++ r = g' ++ ascii "/" ++ r' := by
    rcases heq with hID | hsame | hsame
    · exact hID
    · refine htext ?_
      rw [hreplies, hreplies'] at hsame
      simpa using hsame
    · refine htext ?_
      rw [hins, hins'] at hsame
      simpa using hsame
  rw [← hcut, ← hcut', hID]

theorem SuccessfulUpload.told {up : SuccessfulUpload} {g r : Bytes}
    (hg : g = cstr up.reply.group_name) (hr : r = cstr up.reply.remote_filename)
    (hsep : FDFS_FILE_ID_SEPERATOR ∉ g) (hgroup : ValidUtf8 g) (hremote : ValidUtf8 r) :
    Told up.handled g r := by
  have hID : up.fileID = g ++ ascii "/" ++ r := by rw [hg, hr]; rfl
  have hvalid : ValidUtf8 up.fileID := by
    rw [hID]
    exact (hgroup.append (.of_ascii (by decide))).append hremote
  have hkey : ValidUtf8 (ascii "FileID") := .of_ascii (by decide)
  rcases up.handled_cases with ⟨hnone, -⟩ | ⟨j_str, hsome, ha⟩
  · refine absurd hnone (fileIDJson_dump_ne_none ?_ ?_)
    · exact hg ▸ hgroup
    · exact hr ▸ hremote
  · refine ⟨j_str, ha.replies, ha.insertions, up.text_not_mem_LF hsome, ?_, cutFileID_append hsep r⟩
    rw [← hID]
    exact parse_dump_member hkey hvalid hsome

/-- **An upload tells what it stored**, for every body, every header and every answer of the
    storage. -/
theorem upload_faithful (be : Backend) (req : Request) (arg : ThreadParam) :
    UploadLaw be req arg := by
  have hdistinct : ∀ g r, Told (uploadHandler be req arg) g r → ∀ h' g' r', Told h' g' r' →
      (g, r) ≠ (g', r') → g ++ ascii "/" ++ r ≠ g' ++ ascii "/" ++ r' ∧
        (uploadHandler be req arg).replies ≠ h'.replies ∧
        (uploadHandler be req arg).insertions ≠ h'.insertions := by
    intro g r ht h' g' r' ht' hne
    exact ⟨fun heq => hne (ht.inj ht' (Or.inl heq)),
      fun heq => hne (ht.inj ht' (Or.inr (Or.inl heq))),
      fun heq => hne (ht.inj ht' (Or.inr (Or.inr heq)))⟩
  rcases uploadHandler_stored_cases be req arg with hnot | ⟨up, rfl, rfl, rfl⟩
  · refine ⟨fun args ok hmem => (hnot.asked args ok hmem).2, fun args hmem => ?_, hdistinct,
      fun call _ => hnot.insertions⟩
    exact absurd (hnot.asked args true hmem).1 (by simp)
  · refine ⟨fun args ok hmem => ?_, fun args hmem g r hg hr => ?_, hdistinct, fun call hmem => ?_⟩
    · rw [SuccessfulUpload.args_eq hmem]
      exact ⟨up.body, rfl⟩
    · rw [SuccessfulUpload.args_eq hmem] at hg hr
      exact up.told hg hr
    · exact absurd (SuccessfulUpload.call_ok hmem) (by simp)

/-- An upload to a group whose name is not UTF-8. -/
def oddGroupUpload : SuccessfulUpload where
  be := { obligingBackend with storageUploadByFilebuff := fun _ => ⟨0, [0xFF], ascii "M00/a"⟩ }
  req := ⟨ascii "/upload", [], some (ascii "odd")⟩
  arg := ⟨0, 0, 0, 0, some 1⟩
  file_content := ascii "odd"
  pStorageServer := 1
  body := rfl
  queried := rfl
  connected := rfl
  stored := rfl

/-- The file is stored, and nobody is told its name. -/
theorem upload_untold :
    FDFS_FILE_ID_SEPERATOR ∉ oddGroupUpload.reply.group_name ∧
      oddGroupUpload.reply.group_name.length ≤ 16 ∧
      ValidUtf8 oddGroupUpload.reply.remote_filename ∧
      NUL ∉ oddGroupUpload.reply.remote_filename ∧
      oddGroupUpload.handled.replies = [] ∧ oddGroupUpload.handled.insertions = [] ∧
      ¬ Told oddGroupUpload.handled oddGroupUpload.reply.group_name
        oddGroupUpload.reply.remote_filename := by
  have hreplies : oddGroupUpload.handled.replies = [] := by decide
  refine ⟨by decide, by decide, .of_ascii (by decide), by decide, hreplies, by decide, ?_⟩
  rintro ⟨j_str, hsent, -⟩
  rw [hreplies] at hsent
  cases hsent

end FileCacheProxy
