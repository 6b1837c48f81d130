import FileCacheProxy.Replies
import Mathlib

set_option autoImplicit false
-- the facts about all 256 bytes are decided one byte after the other
set_option maxRecDepth 1500

/-! # What `/fileinfo` tells about a file

`fileinfo_handler` has the file's own time stamp in `FileInfo` and formats the clock instead. Two
requests for one file get the text of its creation time exactly when the clock reads that very second
both times: no two broken-down times have the same text, and no two texts the same reply. -/

namespace FileCacheProxy

/-! ## The texts of times -/

/-- The ranges of the fields `localtime` fills in; 60 is a leap second. -/
structure Tm.InRange (tm : Tm) : Prop where
  tm_mon : tm.tm_mon ≤ 11
  tm_mday : tm.tm_mday ≤ 31
  tm_hour : tm.tm_hour ≤ 23
  tm_min : tm.tm_min ≤ 59
  tm_sec : tm.tm_sec ≤ 60

theorem pad2_inj {m n : ℕ} (hm : m < 100) (hn : n < 100) (h : pad2 m = pad2 n) : m = n := by
  obtain ⟨htens, hrest⟩ := List.cons.inj h
  obtain ⟨hones, -⟩ := List.cons.inj hrest
  have htens' := congrArg UInt8.toNat htens
  have hones' := congrArg UInt8.toNat hones
  simp only [UInt8.toNat_ofNat'] at htens' hones'
  omega

/-- Times with the same text are the same. -/
theorem strftime_inj {tm tm' : Tm} (htm : tm.InRange) (htm' : tm'.InRange)
    (h : strftime tm = strftime tm') : tm = tm' := by
  obtain ⟨hmon, hmday, hhour, hmin, hsec⟩ := htm
  obtain ⟨hmon', hmday', hhour', hmin', hsec'⟩ := htm'
  -- every field behind the year has two digits, so the texts are cut at the same places
  unfold strftime at h
  obtain ⟨h, hS⟩ := List.append_inj' h rfl
  obtain ⟨h, -⟩ := List.append_inj' h rfl
  obtain ⟨h, hM⟩ := List.append_inj' h rfl
  obtain ⟨h, -⟩ := List.append_inj' h rfl
  obtain ⟨h, hH⟩ := List.append_inj' h rfl
  obtain ⟨h, -⟩ := List.append_inj' h rfl
  obtain ⟨h, hd⟩ := List.append_inj' h rfl
  obtain ⟨h, -⟩ := List.append_inj' h rfl
  obtain ⟨h, hm⟩ := List.append_inj' h rfl
  obtain ⟨hY, -⟩ := List.append_inj' h rfl
  have htm_year : tm.tm_year = tm'.tm_year := by
    have hyear := dumpInteger_inj hY
    omega
  have htm_mon : tm.tm_mon = tm'.tm_mon := by
    have hmonth := pad2_inj (by omega) (by omega) hm
    omega
  have htm_mday : tm.tm_mday = tm'.tm_mday := pad2_inj (by omega) (by omega) hd
  have htm_hour : tm.tm_hour = tm'.tm_hour := pad2_inj (by omega) (by omega) hH
  have htm_min : tm.tm_min = tm'.tm_min := pad2_inj (by omega) (by omega) hM
  have htm_sec : tm.tm_sec = tm'.tm_sec := pad2_inj (by omega) (by omega) hS
  cases tm
  cases tm'
  simp only [Tm.mk.injEq]
  exact ⟨htm_year, htm_mon, htm_mday, htm_hour, htm_min, htm_sec⟩

/-- A character of a formatted time: a digit or one of `-`, `:` and the blank. -/
def timeChar (c : UInt8) : Bool :=
  (48 ≤ c && c ≤ 57) || (ascii "-: ").contains c

theorem strftime_timeChar (tm : Tm) : (strftime tm).all timeChar = true := by
  have hdecimal : ∀ n, (decimal n).all timeChar = true := by
    have hdigit : ∀ c : UInt8, 48 ≤ c ∧ c ≤ 57 → timeChar c = true := by decide
    exact fun n => List.all_eq_true.2 (fun c hc => hdigit c (decimal_digit hc))
  have hyear : ∀ z, (dumpInteger z).all timeChar = true := by
    intro z
    unfold dumpInteger
    split
    · rw [List.all_append, hdecimal]
      rfl
    · exact hdecimal _
  have hpad : ∀ n, (pad2 n).all timeChar = true := by
    have hone : ∀ d < 10, timeChar (UInt8.ofNat (48 + d)) = true := by decide
    intro n
    have h1 := hone (n / 10 % 10) (Nat.mod_lt _ (by decide))
    have h2 := hone (n % 10) (Nat.mod_lt _ (by decide))
    simp only [pad2, List.all_cons, List.all_nil, h1, h2]
    rfl
  simp only [strftime, List.all_append, hyear, hpad]
  rfl

theorem getTimeNow_eq (localtime : ℤ → Tm) (timep : ℤ) :
    getTimeNow localtime timep = strftime (localtime timep) :=
  cstr_eq_self (fun h => absurd (List.all_eq_true.1 (strftime_timeChar _) NUL h) (by decide))

/-- A time is written into a JSON text as it is. -/
theorem dumpEscaped_strftime (tm : Tm) : dumpEscaped (strftime tm) = some (strftime tm) := by
  have hchar : ∀ c : UInt8, timeChar c = true → (32 ≤ c ∧ c < 0x80) ∧ escapeAscii c = [c] := by
    decide
  have htime := List.all_eq_true.1 (strftime_timeChar tm)
  have hkeep : (strftime tm).flatMap escapeAscii = (strftime tm).flatMap (fun c => [c]) :=
    List.flatMap_congr (fun c hc => (hchar c (htime c hc)).2)
  rw [dumpEscaped_ascii (fun c hc => (hchar c (htime c hc)).1), hkeep, List.flatMap_singleton']

/-! ## The reply -/

/-- The text of a reply with this creation time. -/
theorem fileInfoJson_dump (tm : Tm) (info : FDFSFileInfo) :
    (fileInfoJson (strftime tm) info).dump
      = some (ascii "\x7b\"FileInfo\":\x7b\"CreateTime\":\"" ++ strftime tm ++
          (ascii "\",\"FileCrc32\":" ++ dumpInteger info.crc32 ++ ascii ",\"FileSize\":" ++
            dumpInteger info.file_size ++ ascii "\x7d\x7d")) := by
  have hshape : fileInfoJson (strftime tm) info
      = .object (.cons (ascii "FileInfo") (.object
          (.cons (ascii "CreateTime") (.string (strftime tm))
            (.cons (ascii "FileCrc32") (.number info.crc32)
              (.cons (ascii "FileSize") (.number info.file_size) .nil)))) .nil) := by
    rfl
  have h1 : dumpEscaped (ascii "FileInfo") = some (ascii "FileInfo") := by decide
  have h2 : dumpEscaped (ascii "CreateTime") = some (ascii "CreateTime") := by decide
  have h3 : dumpEscaped (ascii "FileCrc32") = some (ascii "FileCrc32") := by decide
  have h4 : dumpEscaped (ascii "FileSize") = some (ascii "FileSize") := by decide
  have hopen : ascii "\x7b\"FileInfo\":\x7b\"CreateTime\":\""
      = ascii "\x7b" ++ (ascii "\"" ++ ascii "FileInfo" ++ ascii "\":") ++ ascii "\x7b" ++
        (ascii "\"" ++ ascii "CreateTime" ++ ascii "\":") ++ ascii "\"" := by decide
  have hcrc : ascii "\",\"FileCrc32\":"
      = ascii "\"" ++ ascii "," ++ (ascii "\"" ++ ascii "FileCrc32" ++ ascii "\":") := by decide
  have hsize : ascii ",\"FileSize\":"
      = ascii "," ++ (ascii "\"" ++ ascii "FileSize" ++ ascii "\":") := by decide
  have hclose : ascii "\x7d\x7d" = ascii "\x7d" ++ ascii "\x7d" := by decide
  rw [hshape, hopen, hcrc, hsize, hclose]
  simp only [Json.dump, Members.dump, h1, h2, h3, h4, dumpEscaped_strftime, Option.map_some,
    Option.bind_eq_bind, Option.bind_some, List.append_assoc]

/-- Two times give the same reply only if they are the same. -/
theorem fileInfoJson_dump_inj {tm tm' : Tm} (htm : tm.InRange) (htm' : tm'.InRange)
    (info : FDFSFileInfo)
    (h : (fileInfoJson (strftime tm) info).dump = (fileInfoJson (strftime tm') info).dump) :
    tm = tm' := by
  rw [fileInfoJson_dump, fileInfoJson_dump, Option.some.injEq] at h
  exact strftime_inj htm htm' (List.append_cancel_left (List.append_cancel_right h))

/-- A request for a file the storage knows is answered with the clock's time. -/
theorem fileinfoHandler_replies {be : Backend} {req : Request} {fileID : Bytes} {info : FDFSFileInfo}
    (arg : ThreadParam) (hid : req.findHeader (ascii "FileID") = some fileID)
    (hinfo : be.fdfsGetFileInfo1 fileID = (0, info)) :
    (fileinfoHandler be req arg).replies
      = [(HTTP_200, ascii "OK", (fileInfoJson (strftime (be.localtime be.clock)) info).dump)] := by
  obtain ⟨j_str, hdump⟩ : ∃ j_str, (fileInfoJson (strftime (be.localtime be.clock)) info).dump
      = some j_str := ⟨_, fileInfoJson_dump _ info⟩
  have hok : ¬ (0 : ℤ) ≠ 0 := not_not.2 rfl
  unfold fileinfoHandler
  rw [hid]
  dsimp only
  rw [hinfo]
  dsimp only
  rw [if_neg hok, getTimeNow_eq, hdump]
  dsimp only
  rw [cstr_dump hdump]
  rfl

/-- Asked at the moments `t₁` and `t₂`, the handler sends the same reply: the text of the file's own
    creation time, checksum and size. -/
def InfoLaw (be : Backend) (req : Request) (arg : ThreadParam) (info : FDFSFileInfo) (t₁ t₂ : ℤ) :
    Prop :=
  ∃ j_str, (fileInfoJson (getTimeNow be.localtime info.create_timestamp) info).dump = some j_str ∧
    ∀ t ∈ [t₁, t₂], (fileinfoHandler { be with clock := t } req arg).replies
      = [(HTTP_200, ascii "OK", some j_str)]

/-- **The reply describes the file exactly when** the clock reads the local time of the file's
    creation, to the second, at both moments. -/
theorem infoLaw_iff {be : Backend} {req : Request} {fileID : Bytes} {info : FDFSFileInfo}
    (arg : ThreadParam) (t₁ t₂ : ℤ) (hid : req.findHeader (ascii "FileID") = some fileID)
    (hinfo : be.fdfsGetFileInfo1 fileID = (0, info)) (hrange : ∀ t, (be.localtime t).InRange) :
    InfoLaw be req arg info t₁ t₂ ↔
      be.localtime t₁ = be.localtime info.create_timestamp ∧
        be.localtime t₂ = be.localtime info.create_timestamp := by
  have hreplies : ∀ t, (fileinfoHandler { be with clock := t } req arg).replies
      = [(HTTP_200, ascii "OK", (fileInfoJson (strftime (be.localtime t)) info).dump)] :=
    fun t => fileinfoHandler_replies arg hid hinfo
  have hone : ∀ t, (fileinfoHandler { be with clock := t } req arg).replies
        = [(HTTP_200, ascii "OK",
          (fileInfoJson (strftime (be.localtime info.create_timestamp)) info).dump)] ↔
      be.localtime t = be.localtime info.create_timestamp := by
    intro t
    rw [hreplies]
    constructor
    · intro h
      refine fileInfoJson_dump_inj (hrange t) (hrange _) info ?_
      simpa only [List.cons.injEq, Prod.mk.injEq, true_and, and_true] using h
    · intro h
      rw [h]
  unfold InfoLaw
  rw [getTimeNow_eq]
  constructor
  · rintro ⟨j_str, hdump, hall⟩
    rw [← hdump] at hall
    exact ⟨(hone t₁).1 (hall t₁ (by simp)), (hone t₂).1 (hall t₂ (by simp))⟩
  · rintro ⟨h₁, h₂⟩
    refine ⟨_, fileInfoJson_dump _ info, fun t ht => ?_⟩
    rw [← fileInfoJson_dump, hone]
    simp only [List.mem_cons, List.not_mem_nil, or_false] at ht
    rcases ht with rfl | rfl
    · exact h₁
    · exact h₂

/-- A backend with a file created at 0, in the first minute of 2020 local time. -/
def minuteBackend : Backend :=
  { obligingBackend with
    fdfsGetFileInfo1 := fun _ => (0, ⟨0, 7, 5⟩)
    localtime := fun t => ⟨120, 0, 1, 0, 0, (t % 60).toNat⟩ }

/-- A request for a file. -/
def infoRequest : Request :=
  ⟨ascii "/fileinfo", [(ascii "FileID", ascii "group1/M00/a")], none⟩

theorem infoLaw_iff_minute :
    InfoLaw minuteBackend infoRequest ⟨0, 0, 0, 0, some 1⟩ ⟨0, 7, 5⟩ 0 60 ↔
      minuteBackend.localtime 0 = minuteBackend.localtime 0 ∧
        minuteBackend.localtime 60 = minuteBackend.localtime 0 := by
  refine infoLaw_iff _ 0 60 rfl rfl (fun t => ?_)
  have hsec : (t % 60).toNat ≤ 60 := by omega
  exact ⟨Nat.zero_le 11, (by decide : 1 ≤ 31), Nat.zero_le 23, Nat.zero_le 59, hsec⟩

/-- A file created at 0, asked for at 1 and at 2. -/
theorem info_of_the_clock :
    ¬ InfoLaw minuteBackend infoRequest ⟨0, 0, 0, 0, some 1⟩ ⟨0, 7, 5⟩ 1 2 := by
  rintro ⟨j_str, -, hall⟩
  have h₁ := hall 1 (by simp)
  have h₂ := hall 2 (by simp)
  have hne : (fileinfoHandler { minuteBackend with clock := 1 } infoRequest
      ⟨0, 0, 0, 0, some 1⟩).replies ≠
      (fileinfoHandler { minuteBackend with clock := 2 } infoRequest
        ⟨0, 0, 0, 0, some 1⟩).replies := by decide
  exact hne (h₁.trans h₂.symm)

end FileCacheProxy
