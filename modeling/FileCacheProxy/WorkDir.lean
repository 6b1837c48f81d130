import FileCacheProxy.Init
import Mathlib

set_option autoImplicit false

/-! # The work directory (`fileCacheProxy::init`, step 1)

`init` reads the link `/proc/<pid>/exe` into `mWorkDir`, cuts the buffer behind its last slash and
builds the names of its directories and files from it. The constructor leaves the buffer as it is,
and `readlink` stores no NUL: where the text ends depends on what was in the buffer before. A buffer
is all of its 256 bytes here, and a read that goes on behind them is an outcome of its own. -/

namespace FileCacheProxy

/-- `'/'` -/
def SLASH : UInt8 := 47

/-- What `mWorkDir` holds, byte for byte. -/
structure PathBuffer where
  bytes : Bytes
  length_eq : bytes.length = PATH_LEN

/-- The absolute path of an executable. -/
structure ExePath where
  text : Bytes
  absolute : ∃ rest, text = SLASH :: rest
  no_nul : NUL ∉ text

/-! ## The two calls -/

/-- `readlink(.., buf, sizeof(buf))` on a link to `target`: as much of it as fits, and no NUL. -/
def readlink (target buf : Bytes) : Bytes :=
  target.take buf.length ++ buf.drop target.length

/-- What `strrchr` comes to: it reads on until there is a NUL. -/
inductive Strrchr where
  | pastBuffer
  | null
  | found (i : ℕ)

/-- `strrchr(buf, c)` -/
def strrchr (buf : Bytes) (c : UInt8) : Strrchr :=
  if NUL ∈ buf then
    match (cstr buf).reverse.findIdx? (· == c) with
    | some i => .found ((cstr buf).length - 1 - i)
    | none => .null
  else .pastBuffer

/-- `endPos[1] = 0` behind the last slash; `none` when there is no such place in the buffer. -/
def cutWorkDir (buf : Bytes) : Option Bytes :=
  match strrchr buf SLASH with
  | .found i => if i + 1 < buf.length then some (buf.set (i + 1) NUL) else none
  | _ => none

/-- The names `init` works with. -/
structure WorkPaths where
  mWorkDir : Bytes
  mlogDir : Bytes
  mFclogFile : Bytes
  mRecordDir : Bytes
  mProclogFile : Bytes

/-- `string_format(fmt, s)` for a format that is `%s` and then `suffix`. -/
def formatName (s suffix : Bytes) : Option Bytes :=
  stringFormat (ascii "%s" ++ suffix) (formatInto (cstr s ++ suffix)) 2

/-- Step 1 on the old content of `mWorkDir`, up to the two `mkdir`. -/
def getWorkDir (mWorkDir exe : Bytes) : Option WorkPaths := do
  let buf ← cutWorkDir (readlink exe mWorkDir)
  let mlogDir ← formatName buf (ascii "/log")
  let mFclogFile ← formatName mlogDir (ascii "/fileCacheProxy.log")
  let mRecordDir ← formatName buf (ascii "/records/")
  let mProclogFile ← formatName mRecordDir (ascii "/process.log")
  some ⟨buf, mlogDir, mFclogFile, mRecordDir, mProclogFile⟩

/-! ## C strings in a buffer -/

theorem cstr_append {s : Bytes} (hs : NUL ∉ s) (t : Bytes) : cstr (s ++ t) = s ++ cstr t := by
  refine List.takeWhile_append_of_pos (fun c hc => ?_)
  have hne : c ≠ NUL := fun he => hs (he ▸ hc)
  simpa using hne

/-- A buffer with a NUL is its C string, that NUL, and the rest. -/
theorem exists_cstr_append {buf : Bytes} (h : NUL ∈ buf) :
    ∃ rest, buf = cstr buf ++ NUL :: rest := by
  obtain ⟨s, rest, rfl, hs⟩ := List.eq_append_cons_of_mem h
  refine ⟨rest, ?_⟩
  have hnil : cstr (NUL :: rest) = [] := by simp [cstr]
  rw [cstr_append hs, hnil, List.append_nil]

/-- The last occurrence of a byte. -/
theorem exists_last_of_mem {c : UInt8} {s : Bytes} (h : c ∈ s) :
    ∃ a b, s = a ++ c :: b ∧ c ∉ b := by
  obtain ⟨b, a, hrev, hb⟩ := List.eq_append_cons_of_mem (List.mem_reverse.2 h)
  refine ⟨a.reverse, b.reverse, ?_, by simpa using hb⟩
  rw [← List.reverse_reverse s, hrev]
  simp

theorem strrchr_found {buf a b : Bytes} {c : UInt8} (hNUL : NUL ∈ buf)
    (h : cstr buf = a ++ c :: b) (hb : c ∉ b) : strrchr buf c = .found a.length := by
  have hrev : (cstr buf).reverse.findIdx? (· == c) = some b.length := by
    rw [h, List.reverse_append, List.reverse_cons, List.append_assoc, List.findIdx?_append]
    have hnone : b.reverse.findIdx? (· == c) = none := by
      rw [List.findIdx?_eq_none_iff]
      intro x hx
      have hne : x ≠ c := fun he => hb (he ▸ List.mem_reverse.1 hx)
      simpa using hne
    rw [hnone]
    simp [List.findIdx?_cons]
  have hlen : (cstr buf).length - 1 - b.length = a.length := by
    rw [h, List.length_append, List.length_cons]
    omega
  rw [strrchr, if_pos hNUL, hrev]
  dsimp only
  rw [hlen]

/-- The buffer is cut behind the last slash of its C string. -/
theorem cutWorkDir_eq {buf a b : Bytes} (hNUL : NUL ∈ buf) (h : cstr buf = a ++ SLASH :: b)
    (hb : SLASH ∉ b) :
    ∃ buf', cutWorkDir buf = some buf' ∧ buf'.length = buf.length ∧ NUL ∈ buf' ∧
      cstr buf' = a ++ [SLASH] := by
  obtain ⟨rest, hbuf⟩ := exists_cstr_append hNUL
  obtain ⟨x, tail, htail⟩ : ∃ x tail, b ++ NUL :: rest = x :: tail := by
    cases b with
    | nil => exact ⟨_, _, rfl⟩
    | cons x b => exact ⟨_, _, rfl⟩
  have hsplit : buf = (a ++ [SLASH]) ++ x :: tail := by
    rw [hbuf, h, ← htail]
    simp
  have hset : buf.set (a.length + 1) NUL = (a ++ [SLASH]) ++ NUL :: tail := by
    have hlen : a.length + 1 = (a ++ [SLASH]).length := by simp
    rw [hsplit, hlen, List.set_append_right _ _ le_rfl, Nat.sub_self, List.set_cons_zero]
  have hlt : a.length + 1 < buf.length := by
    rw [hsplit]
    simp only [List.length_append, List.length_cons, List.length_nil]
    omega
  have hno : NUL ∉ a ++ [SLASH] := by
    intro hmem
    refine NUL_not_mem_cstr buf ?_
    rw [h]
    have happ : a ++ SLASH :: b = (a ++ [SLASH]) ++ b := by simp
    rw [happ]
    exact List.mem_append_left _ hmem
  refine ⟨buf.set (a.length + 1) NUL, ?_, List.length_set, ?_, ?_⟩
  · rw [cutWorkDir, strrchr_found hNUL h hb]
    exact if_pos hlt
  · rw [hset]
    simp
  · rw [hset, cstr_append hno]
    simp [cstr]

/-! ## The work directory -/

/-- The path up to and including its last slash. -/
def dirName (path : Bytes) : Bytes :=
  path.rdropWhile (· != SLASH)

theorem dirName_eq {a b : Bytes} (hb : SLASH ∉ b) : dirName (a ++ SLASH :: b) = a ++ [SLASH] := by
  have hall : ∀ c ∈ b, (c != SLASH) = true := by
    intro c hc
    have hne : c ≠ SLASH := fun he => hb (he ▸ hc)
    simpa using hne
  have happ : a ++ SLASH :: b = (a ++ [SLASH]) ++ b := by simp
  rw [dirName, happ, Cut.rdropWhile_append_of_all hall, List.rdropWhile_concat_neg]
  simp

theorem dirName_length_le (path : Bytes) : (dirName path).length ≤ path.length :=
  (List.rdropWhile_prefix _ path).length_le

/-- After step 1 `mWorkDir` is the directory of the executable, and the search for its last slash has
    stayed inside the buffer. -/
structure WorkDirLaw (mWorkDir : PathBuffer) (exe : ExePath) : Prop where
  inBounds : strrchr (readlink exe.text mWorkDir.bytes) SLASH ≠ .pastBuffer
  directory : ∃ buf, cutWorkDir (readlink exe.text mWorkDir.bytes) = some buf ∧
    buf.length = PATH_LEN ∧ NUL ∈ buf ∧ cstr buf = dirName exe.text

/-- What is left of the old content behind the path. -/
def leftover (mWorkDir : PathBuffer) (exe : ExePath) : Bytes :=
  mWorkDir.bytes.drop exe.text.length

theorem readlink_of_lt {mWorkDir : PathBuffer} {exe : ExePath} (h : exe.text.length < PATH_LEN) :
    readlink exe.text mWorkDir.bytes = exe.text ++ leftover mWorkDir exe := by
  rw [readlink, List.take_of_length_le (by rw [mWorkDir.length_eq]; omega), leftover]

theorem readlink_of_le {mWorkDir : PathBuffer} {exe : ExePath} (h : PATH_LEN ≤ exe.text.length) :
    NUL ∉ readlink exe.text mWorkDir.bytes := by
  rw [readlink, List.drop_eq_nil_of_le (by rw [mWorkDir.length_eq]; exact h), List.append_nil]
  exact fun hmem => exe.no_nul (List.mem_of_mem_take hmem)

/-- A buffer without NUL is searched past its end. -/
theorem not_workDirLaw_of_no_NUL {mWorkDir : PathBuffer} {exe : ExePath}
    (h : NUL ∉ readlink exe.text mWorkDir.bytes) : ¬ WorkDirLaw mWorkDir exe :=
  fun hlaw => hlaw.inBounds (if_neg h)

/-- The C string that is searched for its last slash: the path, and the old content behind it. -/
theorem cstr_readlink {mWorkDir : PathBuffer} {exe : ExePath} (hlen : exe.text.length < PATH_LEN)
    (hNUL : NUL ∈ leftover mWorkDir exe) :
    NUL ∈ readlink exe.text mWorkDir.bytes ∧
      cstr (readlink exe.text mWorkDir.bytes) = exe.text ++ cstr (leftover mWorkDir exe) := by
  rw [readlink_of_lt hlen]
  exact ⟨List.mem_append_right _ hNUL, cstr_append exe.no_nul _⟩

/-- With a slash in the old content the cut is behind the path: the result is longer than the path
    itself. -/
theorem not_workDirLaw_of_slash {mWorkDir : PathBuffer} {exe : ExePath}
    (hlen : exe.text.length < PATH_LEN) (hNUL : NUL ∈ leftover mWorkDir exe)
    (hslash : SLASH ∈ cstr (leftover mWorkDir exe)) : ¬ WorkDirLaw mWorkDir exe := by
  intro hlaw
  obtain ⟨hmem, htext⟩ := cstr_readlink hlen hNUL
  obtain ⟨a, b, hab, hb⟩ := exists_last_of_mem hslash
  rw [hab, ← List.append_assoc] at htext
  obtain ⟨buf, hcut, -, -, hcstr⟩ := cutWorkDir_eq hmem htext hb
  obtain ⟨buf', hcut', -, -, hdir⟩ := hlaw.directory
  obtain rfl : buf = buf' := Option.some.inj (hcut.symm.trans hcut')
  have hle := dirName_length_le exe.text
  rw [← hdir, hcstr] at hle
  simp only [List.length_append, List.length_singleton] at hle
  omega

/-- With no slash in the old content the last slash is one of the path. -/
theorem workDirLaw_of_no_slash {mWorkDir : PathBuffer} {exe : ExePath}
    (hlen : exe.text.length < PATH_LEN) (hNUL : NUL ∈ leftover mWorkDir exe)
    (hslash : SLASH ∉ cstr (leftover mWorkDir exe)) : WorkDirLaw mWorkDir exe := by
  obtain ⟨hmem, htext⟩ := cstr_readlink hlen hNUL
  have hbytes : (readlink exe.text mWorkDir.bytes).length = PATH_LEN := by
    rw [readlink_of_lt hlen, leftover, List.length_append, List.length_drop, mWorkDir.length_eq]
    omega
  obtain ⟨rest, habs⟩ := exe.absolute
  obtain ⟨a, b, hab, hb⟩ := exists_last_of_mem (c := SLASH) (s := exe.text) (by simp [habs])
  have htail : cstr (readlink exe.text mWorkDir.bytes)
      = a ++ SLASH :: (b ++ cstr (leftover mWorkDir exe)) := by
    rw [htext, hab]
    simp
  have hno : SLASH ∉ b ++ cstr (leftover mWorkDir exe) := by
    rw [List.mem_append, not_or]
    exact ⟨hb, hslash⟩
  obtain ⟨buf, hcut, hbuf, hin, hcstr⟩ := cutWorkDir_eq hmem htail hno
  refine ⟨?_, buf, hcut, hbuf.trans hbytes, hin, ?_⟩
  · rw [strrchr_found hmem htail hno]
    simp
  · rw [hcstr, hab, dirName_eq hb]

/-- **The work directory is right exactly when the path has at most 255 bytes, and the bytes behind
    it have a NUL and no slash before that.** -/
theorem workDirLaw_iff (mWorkDir : PathBuffer) (exe : ExePath) :
    WorkDirLaw mWorkDir exe ↔
      exe.text.length < PATH_LEN ∧ NUL ∈ leftover mWorkDir exe ∧
        SLASH ∉ cstr (leftover mWorkDir exe) := by
  constructor
  · intro hlaw
    have hlen : exe.text.length < PATH_LEN := by
      by_contra hge
      exact not_workDirLaw_of_no_NUL (readlink_of_le (not_lt.1 hge)) hlaw
    have hNUL : NUL ∈ leftover mWorkDir exe := by
      by_contra hno
      refine not_workDirLaw_of_no_NUL ?_ hlaw
      rw [readlink_of_lt hlen, List.mem_append, not_or]
      exact ⟨exe.no_nul, hno⟩
    exact ⟨hlen, hNUL, fun hslash => not_workDirLaw_of_slash hlen hNUL hslash hlaw⟩
  · rintro ⟨hlen, hNUL, hslash⟩
    exact workDirLaw_of_no_slash hlen hNUL hslash

/-- Where the cut comes off, the names are those of the directory. -/
theorem getWorkDir_eq {mWorkDir exe buf : Bytes}
    (h : cutWorkDir (readlink exe mWorkDir) = some buf) :
    getWorkDir mWorkDir exe = some
      { mWorkDir := buf,
        mlogDir := cstr buf ++ ascii "/log",
        mFclogFile := cstr buf ++ ascii "/log" ++ ascii "/fileCacheProxy.log",
        mRecordDir := cstr buf ++ ascii "/records/",
        mProclogFile := cstr buf ++ ascii "/records/" ++ ascii "/process.log" } := by
  have hname : ∀ s suffix : Bytes, NUL ∉ s → NUL ∉ suffix →
      formatName s suffix = some (s ++ suffix) := by
    intro s suffix hs hsuffix
    have hout : NUL ∉ s ++ suffix := by
      rw [List.mem_append, not_or]
      exact ⟨hs, hsuffix⟩
    rw [formatName, cstr_eq_self hs, stringFormat_eq, cstr_eq_self hout]
  have hbuf : ∀ suffix : Bytes, formatName buf suffix = formatName (cstr buf) suffix := by
    intro suffix
    rw [formatName, formatName, cstr_eq_self (NUL_not_mem_cstr buf)]
  have hdir : ∀ suffix : Bytes, NUL ∉ suffix → NUL ∉ cstr buf ++ suffix := by
    intro suffix hsuffix
    rw [List.mem_append, not_or]
    exact ⟨NUL_not_mem_cstr buf, hsuffix⟩
  have hlog : NUL ∉ ascii "/log" := by decide
  have hrecords : NUL ∉ ascii "/records/" := by decide
  simp only [getWorkDir, h, hbuf, hname _ _ (NUL_not_mem_cstr buf) hlog,
    hname _ _ (NUL_not_mem_cstr buf) hrecords,
    hname _ (ascii "/fileCacheProxy.log") (hdir _ hlog) (by decide),
    hname _ (ascii "/process.log") (hdir _ hrecords) (by decide),
    Option.bind_eq_bind, Option.bind_some]

/-- A buffer of zeros, and a path of 256 bytes. -/
def zeroBuffer : PathBuffer := ⟨List.replicate PATH_LEN NUL, List.length_replicate⟩

def longPath : ExePath where
  text := SLASH :: List.replicate 255 97
  absolute := ⟨_, rfl⟩
  no_nul := by
    rw [List.mem_cons, not_or]
    exact ⟨by decide, fun h => absurd (List.eq_of_mem_replicate h) (by decide)⟩

/-- The path fills the buffer, and the search for its last slash leaves it. -/
theorem workDir_read_past :
    strrchr (readlink longPath.text zeroBuffer.bytes) SLASH = .pastBuffer ∧
      ¬ WorkDirLaw zeroBuffer longPath := by
  have hlen : longPath.text.length = 255 + 1 := by
    unfold longPath
    rw [List.length_cons, List.length_replicate]
  have hpast : strrchr (readlink longPath.text zeroBuffer.bytes) SLASH = .pastBuffer :=
    if_neg (readlink_of_le (le_of_eq hlen.symm))
  exact ⟨hpast, fun h => h.inBounds hpast⟩

end FileCacheProxy
