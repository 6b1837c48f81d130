import FileCacheProxy.Json
import FileCacheProxy.WorkDir
import FileCacheProxy.Lib.Rotation
import FileCacheProxy.Lib.Transition
import Mathlib

set_option autoImplicit false

/-! # The log files (`spdlog::sinks::rotating_file_sink`)

The proxy logs through the vendored rotating sink. A message goes to the end of the log file; one
that would make the file too large moves `log.txt` to `log.1.txt`, `log.1.txt` to `log.2.txt` and so
on before it is written. Every call of the operating system may fail, and the sink goes on behind
most of the exceptions: the logger catches them. The output buffer of the stream is left out, the
proxy flushes with every message. -/

namespace FileCacheProxy

namespace Logging

/-- The contents of the files that are there. -/
abbrev Disk : Type := Bytes → Option Bytes

/-- `'.'` -/
def DOT : UInt8 := 46

/-! ## Names -/

/-- `s.rfind(c)`, which is also `find_last_of` for a single separator. -/
def rfind (s : Bytes) (c : UInt8) : Option ℕ :=
  (s.reverse.findIdx? (· == c)).map (fun i => s.length - 1 - i)

/-- `file_helper::split_by_extension` -/
def splitByExtension (fname : Bytes) : Bytes × Bytes :=
  match rfind fname DOT with
  | none => (fname, [])
  | some extIndex =>
      if extIndex = 0 ∨ extIndex = fname.length - 1 then (fname, [])
      else
        match rfind fname SLASH with
        | none => (fname.take extIndex, fname.drop extIndex)
        | some folderIndex =>
            -- the dot of a directory, or of a hidden file
            if folderIndex ≥ extIndex - 1 then (fname, [])
            else (fname.take extIndex, fname.drop extIndex)

/-- `rotating_file_sink::calc_filename` -/
def calcFilename (filename : Bytes) (index : ℕ) : Bytes :=
  if index = 0 then filename
  else
    let (basename, ext) := splitByExtension filename
    basename ++ [DOT] ++ decimal index ++ ext

/-! ## The file -/

/-- What the calls of the operating system come to while the sink works on one message. Renaming the
    file to number `i` is tried twice, as attempt 0 and attempt 1; opening has `open_tries_` tries. -/
structure Os where
  removes : ℕ → ℕ → Bool
  renames : ℕ → ℕ → Bool
  opensWb : ℕ → Bool
  opensAb : ℕ → Bool
  fstats : Bool
  /-- How many bytes there is room for. -/
  fwrites : ℕ

/-- `file_helper`. An open `fd_` is open for appending to `filename_`. -/
structure FileHelper where
  /-- `fd_` is not null. -/
  fd_ : Bool
  filename_ : Bytes

def open_tries_ : ℕ := 5

/-- The loop of `file_helper::open`. A file that cannot be opened with mode `wb` skips the second
    call of the pass. -/
def openTries (os : Os) (fname : Bytes) (truncate : Bool) : List ℕ → Disk → Disk × Bool
  | [], disk => (disk, false)
  | tries :: rest, disk =>
      if truncate && !os.opensWb tries then openTries os fname truncate rest disk
      else
        let disk := if truncate then Function.update disk fname (some []) else disk
        if os.opensAb tries then (Function.update disk fname ((disk fname).or (some [])), true)
        else openTries os fname truncate rest disk

/-- `file_helper::open`, with the text of the exception if there is one (without that of `errno`). It
    closes the stream first. -/
def FileHelper.open (os : Os) (fname : Bytes) (truncate : Bool) (disk : Disk) :
    Disk × FileHelper × Option Bytes :=
  match openTries os fname truncate (List.range open_tries_) disk with
  | (disk, true) => (disk, ⟨true, fname⟩, none)
  | (disk, false) =>
      (disk, ⟨false, fname⟩, some (ascii "Failed opening file " ++ fname ++ ascii " for writing"))

/-- `file_helper::reopen` -/
def FileHelper.reopen (os : Os) (fh : FileHelper) (truncate : Bool) (disk : Disk) :
    Disk × FileHelper × Option Bytes :=
  if fh.filename_ = [] then
    (disk, fh, some (ascii "Failed re opening file - was not opened before"))
  else FileHelper.open os fh.filename_ truncate disk

/-! ## The sink -/

/-- `rotating_file_sink` -/
structure RotatingFileSink where
  base_filename_ : Bytes
  max_size_ : ℕ
  max_files_ : ℕ
  current_size_ : ℕ
  file_helper_ : FileHelper

/-- How `sink_it_` ends: with these bytes of the message in the file and perhaps an exception, with an
    exception before it writes, or by writing to a null stream. -/
inductive Outcome where
  | wrote (bytes : Bytes) (what : Option Bytes)
  | threw (what : Bytes)
  | nullStream

/-- `rename_file_`: what `remove` returns is not looked at. -/
def renameFile (os : Os) (i attempt : ℕ) (src target : Bytes) (disk : Disk) : Disk × Bool :=
  let disk := if os.removes i attempt then Function.update disk target none else disk
  match os.renames i attempt, disk src with
  | true, some content =>
      (Function.update (Function.update disk target (some content)) src none, true)
  | _, _ => (disk, false)

/-- The loop of `rotate_` from `i` on, with the text of its exception. -/
def rotateFiles (os : Os) (base : Bytes) : ℕ → Disk → Disk × Option Bytes
  | 0, disk => (disk, none)
  | i + 1, disk =>
      let src := calcFilename base i
      if (disk src).isSome then
        let target := calcFilename base (i + 1)
        match renameFile os (i + 1) 0 src target disk with
        | (disk, true) => rotateFiles os base i disk
        | (disk, false) =>
            match renameFile os (i + 1) 1 src target disk with
            | (disk, true) => rotateFiles os base i disk
            | (disk, false) => (disk, some (ascii "rotating_file_sink: failed renaming " ++ src ++
                ascii " to " ++ target))
      else rotateFiles os base i disk

/-- `rotate_` -/
def RotatingFileSink.rotate (os : Os) (sink : RotatingFileSink) (disk : Disk) :
    Disk × RotatingFileSink × Option Bytes :=
  let closed : FileHelper := { sink.file_helper_ with fd_ := false }
  match rotateFiles os sink.base_filename_ sink.max_files_ disk with
  | (disk, none) =>
      let (disk, fh, what) := closed.reopen os true disk
      (disk, { sink with file_helper_ := fh }, what)
  | (disk, some what) =>
      match closed.reopen os true disk with
      | (disk, fh, none) => (disk, { sink with file_helper_ := fh, current_size_ := 0 }, some what)
      | (disk, fh, some what') => (disk, { sink with file_helper_ := fh }, some what')

/-- `file_helper::write` -/
def FileHelper.write (os : Os) (fh : FileHelper) (buf : Bytes) (disk : Disk) : Disk × Outcome :=
  if fh.fd_ then
    let bytes := buf.take os.fwrites
    (Function.update disk fh.filename_ ((disk fh.filename_).map (· ++ bytes)),
      .wrote bytes (if bytes.length = buf.length then none
        else some (ascii "Failed writing to file " ++ fh.filename_)))
  else (disk, .nullStream)

/-- `sink_it_` on a formatted message; sizes are 64 bits wide. -/
def RotatingFileSink.sinkIt (os : Os) (formatted : Bytes) (sink : RotatingFileSink) (disk : Disk) :
    Disk × RotatingFileSink × Outcome :=
  let size := (sink.current_size_ + formatted.length) % 2 ^ 64
  let sink := { sink with current_size_ := size }
  if size > sink.max_size_ then
    match sink.rotate os disk with
    | (disk, sink, some what) => (disk, sink, .threw what)
    | (disk, sink, none) =>
        let (disk, outcome) := sink.file_helper_.write os formatted disk
        (disk, { sink with current_size_ := formatted.length }, outcome)
  else
    let (disk, outcome) := sink.file_helper_.write os formatted disk
    (disk, sink, outcome)

/-- The constructor, with `rotate_on_open` as `rotating_logger_mt` has it by default. -/
def RotatingFileSink.new (os : Os) (base : Bytes) (max_size max_files : ℕ) (disk : Disk) :
    Disk × Except Bytes RotatingFileSink :=
  match FileHelper.open os (calcFilename base 0) false disk with
  | (disk, _, some what) => (disk, .error what)
  | (disk, fh, none) =>
      if os.fstats then
        (disk, .ok ⟨base, max_size, max_files, ((disk fh.filename_).getD []).length, fh⟩)
      else (disk, .error (ascii "Failed getting file size from fd"))

/-! ## Different numbers, different files -/

theorem splitByExtension_append (fname : Bytes) :
    (splitByExtension fname).1 ++ (splitByExtension fname).2 = fname := by
  unfold splitByExtension
  split
  · exact List.append_nil _
  · split
    · exact List.append_nil _
    · split
      · exact List.take_append_drop _ _
      · split
        · exact List.append_nil _
        · exact List.take_append_drop _ _

@[simp] theorem calcFilename_zero (base : Bytes) : calcFilename base 0 = base := rfl

theorem calcFilename_succ (base : Bytes) (i : ℕ) : calcFilename base (i + 1) =
    (splitByExtension base).1 ++ [DOT] ++ decimal (i + 1) ++ (splitByExtension base).2 := rfl

theorem calcFilename_ne_base (base : Bytes) (i : ℕ) : calcFilename base (i + 1) ≠ base := by
  intro heq
  have hlen := congrArg List.length heq
  have hbase := congrArg List.length (splitByExtension_append base)
  rw [calcFilename_succ] at hlen
  simp only [List.length_append, List.length_singleton] at hlen hbase
  omega

theorem calcFilename_injective (base : Bytes) : Function.Injective (calcFilename base) := by
  intro i j heq
  cases i with
  | zero =>
      cases j with
      | zero => rfl
      | succ j => exact absurd heq.symm (calcFilename_ne_base base j)
  | succ i =>
      cases j with
      | zero => exact absurd heq (calcFilename_ne_base base i)
      | succ j =>
          rw [calcFilename_succ, calcFilename_succ] at heq
          exact decimal_inj (List.append_cancel_left (List.append_cancel_right heq))

theorem rfind_append {a b : Bytes} {c : UInt8} (hb : c ∉ b) :
    rfind (a ++ c :: b) c = some a.length := by
  have hnone : b.reverse.findIdx? (· == c) = none := by
    rw [List.findIdx?_eq_none_iff]
    intro x hx
    have hne : x ≠ c := fun he => hb (he ▸ List.mem_reverse.1 hx)
    simpa using hne
  rw [rfind, List.reverse_append, List.reverse_cons, List.append_assoc, List.findIdx?_append, hnone]
  simp [List.findIdx?_cons]

/-- The extension begins at the last dot, if that is behind the last slash and the first character of
    the name. -/
theorem splitByExtension_eq {dir name ext : Bytes} {c : UInt8} (hname : SLASH ∉ c :: name)
    (hext : DOT ∉ ext) (hslash : SLASH ∉ ext) (hne : ext ≠ []) :
    splitByExtension (dir ++ SLASH :: c :: name ++ DOT :: ext)
      = (dir ++ SLASH :: c :: name, DOT :: ext) := by
  have hfolder : rfind (dir ++ SLASH :: c :: name ++ DOT :: ext) SLASH = some dir.length := by
    have hnot : SLASH ∉ c :: name ++ DOT :: ext := by
      rw [List.mem_append, not_or]
      exact ⟨hname, List.not_mem_cons_of_ne_of_not_mem (by decide) hslash⟩
    have heq : dir ++ SLASH :: c :: name ++ DOT :: ext = dir ++ SLASH :: (c :: name ++ DOT :: ext) := by
      simp
    rw [heq]
    exact rfind_append hnot
  have hlen : 0 < ext.length := List.length_pos_iff.2 hne
  unfold splitByExtension
  rw [rfind_append hext, hfolder]
  dsimp only
  rw [if_neg (by simp only [List.length_append, List.length_cons]; omega),
    if_neg (by simp only [List.length_append, List.length_cons]; omega),
    List.take_left, List.drop_left]

/-! ## The files as rotating containers -/

open Rotation

/-- The files of the sink hold the pieces `f`, one behind the other. -/
def Holds (base : Bytes) (disk : Disk) (f : Slots Bytes) : Prop :=
  ∀ i, disk (calcFilename base i) = (f i).map List.flatten

theorem Holds.update {base : Bytes} {disk : Disk} {f : Slots Bytes} (h : Holds base disk f) (i : ℕ)
    {content : Option Bytes} {c : Option (List Bytes)} (hc : content = c.map List.flatten) :
    Holds base (Function.update disk (calcFilename base i) content) (Function.update f i c) := by
  intro j
  by_cases hji : j = i
  · rw [hji, Function.update_self, Function.update_self, hc]
  · rw [Function.update_of_ne hji, Function.update_of_ne ((calcFilename_injective base).ne hji), h j]

/-- No file is touched that is none of the `n + 1` files of the sink. -/
def Leaves (base : Bytes) (n : ℕ) (disk disk' : Disk) : Prop :=
  ∀ name, (∀ i ≤ n, name ≠ calcFilename base i) → disk' name = disk name

theorem Leaves.refl (base : Bytes) (n : ℕ) (disk : Disk) : Leaves base n disk disk :=
  fun _ _ => rfl

theorem Leaves.trans {base : Bytes} {n : ℕ} {disk₁ disk₂ disk₃ : Disk}
    (h₁ : Leaves base n disk₁ disk₂) (h₂ : Leaves base n disk₂ disk₃) : Leaves base n disk₁ disk₃ :=
  fun name hname => (h₂ name hname).trans (h₁ name hname)

theorem Leaves.update {base : Bytes} {n i : ℕ} {disk disk' : Disk} (h : Leaves base n disk disk')
    (hi : i ≤ n) (content : Option Bytes) :
    Leaves base n disk (Function.update disk' (calcFilename base i) content) :=
  fun name hname => (Function.update_of_ne (hname i hi) ..).trans (h name hname)

/-- The files of `disk'` hold `g`, and they come from those of `disk` by moving and giving up. -/
structure Ages (base : Bytes) (n : ℕ) (disk disk' : Disk) (f g : Slots Bytes) : Prop where
  holds : Holds base disk' g
  aged : Aged n f g
  leaves : Leaves base n disk disk'

theorem Ages.refl {base : Bytes} {n : ℕ} {disk : Disk} {f : Slots Bytes} (h : Holds base disk f) :
    Ages base n disk disk f f :=
  ⟨h, Aged.refl n f, Leaves.refl base n disk⟩

theorem Ages.trans {base : Bytes} {n : ℕ} {disk₁ disk₂ disk₃ : Disk} {f g h : Slots Bytes}
    (h₁ : Ages base n disk₁ disk₂ f g) (h₂ : Ages base n disk₂ disk₃ g h) :
    Ages base n disk₁ disk₃ f h :=
  ⟨h₂.holds, h₁.aged.trans h₂.aged, h₁.leaves.trans h₂.leaves⟩

theorem Ages.clear {base : Bytes} {n i : ℕ} {disk : Disk} {f : Slots Bytes} (h : Holds base disk f)
    (hi : i ≤ n) :
    Ages base n disk (Function.update disk (calcFilename base i) none) f (clear f i) :=
  ⟨h.update i rfl, aged_clear f hi, (Leaves.refl base n disk).update hi none⟩

theorem Ages.move {base : Bytes} {n i : ℕ} {disk : Disk} {f : Slots Bytes} (h : Holds base disk f)
    (hi : i < n) :
    Ages base n disk (Function.update (Function.update disk (calcFilename base (i + 1))
      (disk (calcFilename base i))) (calcFilename base i) none) f (move f i) :=
  ⟨(h.update (i + 1) (h i)).update i rfl, aged_move f hi,
    ((Leaves.refl base n disk).update hi _).update (by omega) none⟩

/-- The last file begins anew. -/
theorem Ages.empty {base : Bytes} {disk : Disk} {f : Slots Bytes} (n : ℕ) (h : Holds base disk f) :
    Ages base n disk (Function.update disk base (some [])) f (Function.update f 0 (some [])) :=
  ⟨h.update 0 rfl, aged_empty f n, (Leaves.refl base n disk).update (Nat.zero_le n) (some [])⟩

/-! ## What the functions do to the files -/

section Effects

variable (os : Os) {base : Bytes} {n : ℕ} {disk : Disk} {f : Slots Bytes}

/-- `rename_file_` moves the file on, or fails and may have removed the target by then. -/
theorem renameFile_cases {i : ℕ} (h : Holds base disk f) (hi : i < n) (attempt : ℕ) :
    ∃ disk', ((f i).isSome = true ∧ os.renames (i + 1) attempt = true ∧
        renameFile os (i + 1) attempt (calcFilename base i) (calcFilename base (i + 1)) disk
          = (disk', true) ∧ Ages base n disk disk' f (move f i)) ∨
      (((f i).isSome = true → os.renames (i + 1) attempt = false) ∧
        renameFile os (i + 1) attempt (calcFilename base i) (calcFilename base (i + 1)) disk
          = (disk', false) ∧
        ∃ g, Ages base n disk disk' f g ∧ g i = f i ∧ move g i = move f i) := by
  have hremoved : ∃ g, Ages base n disk (if os.removes (i + 1) attempt then
      Function.update disk (calcFilename base (i + 1)) none else disk) f g ∧ g i = f i ∧
      move g i = move f i := by
    split
    · refine ⟨clear f (i + 1), Ages.clear h hi, Function.update_of_ne (by omega) .., ?_⟩
      rw [move, move, clear, Function.update_idem, Function.update_of_ne (by omega)]
    · exact ⟨f, Ages.refl h, rfl, rfl⟩
  unfold renameFile
  generalize (if os.removes (i + 1) attempt then
    Function.update disk (calcFilename base (i + 1)) none else disk) = removed at hremoved ⊢
  obtain ⟨g, hages, hgi, hmove⟩ := hremoved
  have hsrc : removed (calcFilename base i) = (f i).map List.flatten := by rw [hages.holds i, hgi]
  dsimp only
  cases hren : os.renames (i + 1) attempt with
  | false => exact ⟨removed, Or.inr ⟨fun _ => rfl, rfl, g, hages, hgi, hmove⟩⟩
  | true =>
      cases hfi : f i with
      | none =>
          rw [hsrc, hfi]
          refine ⟨removed, Or.inr ⟨fun hsome => absurd hsome (by simp), rfl, g, hages, ?_, hmove⟩⟩
          rw [hgi, hfi]
      | some c =>
          have hmoved := hages.trans (Ages.move hages.holds hi)
          rw [hsrc, hfi, hmove] at hmoved
          rw [hsrc, hfi]
          exact ⟨_, Or.inl ⟨rfl, rfl, rfl, hmoved⟩⟩

/-- One pass of the loop of `rotate_`: the file is moved on if it is there, or the loop is left. -/
theorem rotateFiles_succ {i : ℕ} (h : Holds base disk f) (hi : i < n) :
    ∃ disk', (Ages base n disk disk' f (advance f i) ∧
        rotateFiles os base (i + 1) disk = rotateFiles os base i disk') ∨
      ((os.renames (i + 1) 0 = false ∧ os.renames (i + 1) 1 = false) ∧
        ∃ g what, Ages base n disk disk' f g ∧
          rotateFiles os base (i + 1) disk = (disk', some what)) := by
  have hthere : (disk (calcFilename base i)).isSome = (f i).isSome := by
    rw [h i, Option.isSome_map]
  rw [rotateFiles, hthere]
  cases hsome : (f i).isSome with
  | false => exact ⟨disk, Or.inl ⟨by rw [advance, hsome]; exact Ages.refl h, rfl⟩⟩
  | true =>
      rw [advance, hsome]
      simp only [if_true]
      obtain ⟨disk₁, ⟨-, -, heq, hages⟩ | ⟨hren₀, heq, g, hages, hgi, hmove⟩⟩ :=
        renameFile_cases os h hi 0
      · rw [heq]
        exact ⟨disk₁, Or.inl ⟨hages, rfl⟩⟩
      · rw [heq]
        dsimp only
        obtain ⟨disk₂, ⟨-, -, heq₂, hages₂⟩ | ⟨hren₁, heq₂, g₂, hages₂, -, -⟩⟩ :=
          renameFile_cases os hages.holds hi 1
        · rw [heq₂]
          rw [hmove] at hages₂
          exact ⟨disk₂, Or.inl ⟨hages.trans hages₂, rfl⟩⟩
        · rw [heq₂]
          exact ⟨disk₂, Or.inr ⟨⟨hren₀ hsome, hren₁ (by rw [hgi, hsome])⟩,
            g₂, _, hages.trans hages₂, rfl⟩⟩

/-- The loop moves all files on, unless both attempts to rename one fail. -/
theorem rotateFiles_cases {i : ℕ} (h : Holds base disk f) (hi : i ≤ n) :
    ∃ disk', (Ages base n disk disk' f (shift f i) ∧ rotateFiles os base i disk = (disk', none)) ∨
      ((∃ j, os.renames j 0 = false ∧ os.renames j 1 = false) ∧
        ∃ g what, Ages base n disk disk' f g ∧ rotateFiles os base i disk = (disk', some what)) := by
  induction i generalizing disk f with
  | zero => exact ⟨disk, Or.inl ⟨Ages.refl h, rfl⟩⟩
  | succ i ih =>
      obtain ⟨disk₁, ⟨hages, heq⟩ | ⟨hfail, g, what, hages, heq⟩⟩ :=
        rotateFiles_succ os h (Nat.lt_of_succ_le hi)
      · obtain ⟨disk₂, ⟨hages₂, heq₂⟩ | ⟨hfail, g, what, hages₂, heq₂⟩⟩ :=
          ih hages.holds (Nat.le_of_succ_le hi)
        · exact ⟨disk₂, Or.inl ⟨hages.trans hages₂, heq.trans heq₂⟩⟩
        · exact ⟨disk₂, Or.inr ⟨hfail, g, what, hages.trans hages₂, heq.trans heq₂⟩⟩
      · exact ⟨disk₁, Or.inr ⟨⟨i + 1, hfail⟩, g, what, hages, heq⟩⟩

/-- The tries to open the file anew: it is empty when one succeeds, and may be when none does. -/
theorem openTries_truncate (fname : Bytes) (tries : List ℕ) (disk : Disk) :
    ∃ disk', (disk' = disk ∨ disk' = Function.update disk fname (some [])) ∧
      ((openTries os fname true tries disk = (disk', true) ∧
          disk' = Function.update disk fname (some [])) ∨
        (openTries os fname true tries disk = (disk', false) ∧
          ∀ t ∈ tries, os.opensWb t = true → os.opensAb t = false)) := by
  induction tries generalizing disk with
  | nil => exact ⟨disk, Or.inl rfl, Or.inr ⟨rfl, fun t ht => absurd ht List.not_mem_nil⟩⟩
  | cons t tries ih =>
      rw [openTries]
      cases hwb : os.opensWb t with
      | false =>
          obtain ⟨disk', hdisk, hopen | ⟨hfail, hall⟩⟩ := ih disk
          · exact ⟨disk', hdisk, Or.inl hopen⟩
          · refine ⟨disk', hdisk, Or.inr ⟨hfail, List.forall_mem_cons.2 ⟨fun ht => ?_, hall⟩⟩⟩
            rw [hwb] at ht
            cases ht
      | true =>
          cases hab : os.opensAb t with
          | true =>
              refine ⟨Function.update disk fname (some []), Or.inr rfl, Or.inl ⟨?_, rfl⟩⟩
              simp
          | false =>
              obtain ⟨disk', hdisk, hopen⟩ := ih (Function.update disk fname (some []))
              rw [Function.update_idem, or_self] at hdisk
              refine ⟨disk', Or.inr hdisk, ?_⟩
              rw [Function.update_idem] at hopen
              rcases hopen with hopen | ⟨hfail, hall⟩
              · exact Or.inl hopen
              · exact Or.inr ⟨hfail, List.forall_mem_cons.2 ⟨fun _ => hab, hall⟩⟩

/-- The tries to open the file for appending: it is there when one succeeds. -/
theorem openTries_append (fname : Bytes) (tries : List ℕ) (disk : Disk) :
    openTries os fname false tries disk =
        (Function.update disk fname ((disk fname).or (some [])), true) ∨
      (openTries os fname false tries disk = (disk, false) ∧
        ∀ t ∈ tries, os.opensAb t = false) := by
  induction tries with
  | nil => exact Or.inr ⟨rfl, fun t ht => absurd ht List.not_mem_nil⟩
  | cons t tries ih =>
      rw [openTries]
      cases hab : os.opensAb t with
      | true => exact Or.inl rfl
      | false =>
          rcases ih with hopen | ⟨hfail, hall⟩
          · exact Or.inl hopen
          · exact Or.inr ⟨hfail, List.forall_mem_cons.2 ⟨hab, hall⟩⟩

/-- All calls succeed, a call that is tried again in one of its tries, and there is room for `size`
    bytes. Nothing is said about `remove`. -/
structure Os.Works (os : Os) (size : ℕ) : Prop where
  renames : ∀ i, os.renames i 0 = true ∨ os.renames i 1 = true
  opens : ∃ t ∈ List.range open_tries_, os.opensWb t = true ∧ os.opensAb t = true
  fstats : os.fstats = true
  fwrites : size ≤ os.fwrites

/-- `reopen(true)` on a closed stream. -/
theorem reopen_cases (h : Holds base disk f) (n : ℕ) :
    ∃ disk' g, Ages base n disk disk' f g ∧
      ((FileHelper.reopen os ⟨false, base⟩ true disk = (disk', ⟨true, base⟩, none) ∧
          g = Function.update f 0 (some [])) ∨
        ((base ≠ [] → ∀ size, ¬ os.Works size) ∧ ∃ what,
          FileHelper.reopen os ⟨false, base⟩ true disk = (disk', ⟨false, base⟩, some what))) := by
  unfold FileHelper.reopen
  dsimp only
  split
  · next hnil =>
      exact ⟨disk, f, Ages.refl h, Or.inr ⟨fun hne => absurd hnil hne, _, rfl⟩⟩
  · unfold FileHelper.open
    obtain ⟨disk', hdisk, ⟨heq, rfl⟩ | ⟨heq, hall⟩⟩ :=
      openTries_truncate os base (List.range open_tries_) disk
    · rw [heq]
      exact ⟨_, _, Ages.empty n h, Or.inl ⟨rfl, rfl⟩⟩
    · rw [heq]
      have hfails : ∀ size, ¬ os.Works size := by
        rintro size ⟨-, ⟨t, ht, hwb, hab⟩, -, -⟩
        rw [hall t ht hwb] at hab
        cases hab
      rcases hdisk with rfl | rfl
      · exact ⟨_, f, Ages.refl h, Or.inr ⟨fun _ => hfails, _, rfl⟩⟩
      · exact ⟨_, _, Ages.empty n h, Or.inr ⟨fun _ => hfails, _, rfl⟩⟩

/-- `rotate_` begins the file anew behind all others. When it throws, the stream is open on an empty
    file and the size is reset, or the stream is closed and the size is not. -/
theorem rotate_cases (h : Holds base disk f) (max_size cur : ℕ) (fd : Bool) :
    ∃ disk' g, Ages base n disk disk' f g ∧
      ((RotatingFileSink.rotate os ⟨base, max_size, n, cur, ⟨fd, base⟩⟩ disk
            = (disk', ⟨base, max_size, n, cur, ⟨true, base⟩⟩, none) ∧
          g = Function.update (shift f n) 0 (some [])) ∨
        ((base ≠ [] → ∀ size, ¬ os.Works size) ∧ ∃ what,
          (RotatingFileSink.rotate os ⟨base, max_size, n, cur, ⟨fd, base⟩⟩ disk
              = (disk', ⟨base, max_size, n, 0, ⟨true, base⟩⟩, some what) ∧ g 0 = some []) ∨
          RotatingFileSink.rotate os ⟨base, max_size, n, cur, ⟨fd, base⟩⟩ disk
            = (disk', ⟨base, max_size, n, cur, ⟨false, base⟩⟩, some what))) := by
  unfold RotatingFileSink.rotate
  dsimp only
  obtain ⟨disk₁, ⟨hages, heq⟩ | ⟨⟨j, hren₀, hren₁⟩, g, what, hages, heq⟩⟩ :=
    rotateFiles_cases os h (le_refl n)
  · rw [heq]
    obtain ⟨disk₂, g, hages₂, ⟨hopen, hg⟩ | ⟨hfails, what, hopen⟩⟩ :=
      reopen_cases os hages.holds n
    · dsimp only
      rw [hopen]
      exact ⟨disk₂, g, hages.trans hages₂, Or.inl ⟨rfl, hg⟩⟩
    · dsimp only
      rw [hopen]
      exact ⟨disk₂, g, hages.trans hages₂, Or.inr ⟨hfails, what, Or.inr rfl⟩⟩
  · rw [heq]
    have hfails : base ≠ [] → ∀ size, ¬ os.Works size := by
      rintro - size ⟨hren, -, -, -⟩
      rcases hren j with hren | hren
      · rw [hren₀] at hren
        cases hren
      · rw [hren₁] at hren
        cases hren
    obtain ⟨disk₂, g₂, hages₂, ⟨hopen, hg⟩ | ⟨-, what', hopen⟩⟩ :=
      reopen_cases os hages.holds n
    · dsimp only
      rw [hopen]
      exact ⟨disk₂, g₂, hages.trans hages₂, Or.inr ⟨hfails, what, Or.inl ⟨rfl, by
        rw [hg, Function.update_self]⟩⟩⟩
    · dsimp only
      rw [hopen]
      exact ⟨disk₂, g₂, hages.trans hages₂, Or.inr ⟨hfails, what', Or.inr rfl⟩⟩

end Effects

/-! ## One message -/

/-- What `rotating_logger_mt` is called with. -/
structure LogParams where
  base : Bytes
  max_size : ℕ
  max_files : ℕ

/-- A sink with these parameters; between two calls its stream is on the base file or closed. -/
def LogParams.sink (p : LogParams) (current_size : ℕ) (fd : Bool) : RotatingFileSink :=
  ⟨p.base, p.max_size, p.max_files, current_size, ⟨fd, p.base⟩⟩

/-- With an open stream the size counted is at least that of the file. With a closed one it is over the
    limit, and the next message rotates before it is written. -/
def LogParams.Ready (p : LogParams) (current_size : ℕ) (fd : Bool) (f : Slots Bytes) : Prop :=
  (fd = true → ∃ c, f 0 = some c ∧ c.flatten.length ≤ current_size) ∧
    (fd = false → p.max_size < current_size)

section Message

variable {p : LogParams} (os : Os) {disk : Disk} {f : Slots Bytes} {cur : ℕ} {fd : Bool} {m : Bytes}

/-- The files before the bytes of a message are appended: as they were, or moved on. -/
def LogParams.Room (p : LogParams) (f g : Slots Bytes) (cur len size : ℕ) : Prop :=
  (cur + len ≤ p.max_size ∧ g = f ∧ size = cur + len) ∨
    (p.max_size < cur + len ∧ g = Function.update (shift f p.max_files) 0 (some []) ∧ size = len)

/-- A message is appended to the last file, which was begun anew if there was no room left, or the
    sink throws before it writes. -/
theorem sinkIt_cases (h : Holds p.base disk f) (hready : p.Ready cur fd f)
    (hroom : cur + m.length < 2 ^ 64) :
    (∃ disk₁ g c size what, Ages p.base p.max_files disk disk₁ f g ∧ g 0 = some c ∧
        p.Room f g cur m.length size ∧
        (p.sink cur fd).sinkIt os m disk
          = (Function.update disk₁ p.base (some (c ++ [m.take os.fwrites]).flatten), p.sink size true,
            .wrote (m.take os.fwrites) what) ∧
        (os.Works m.length → what = none)) ∨
      ∃ disk' g size fd' what, Ages p.base p.max_files disk disk' f g ∧ p.Ready size fd' g ∧
        size ≤ cur + m.length ∧
        (p.sink cur fd).sinkIt os m disk = (disk', p.sink size fd', .threw what) ∧
        (p.base ≠ [] → ¬ os.Works m.length) := by
  have hwrite : ∀ {disk₁ : Disk} {g : Slots Bytes} {c : List Bytes}, Holds p.base disk₁ g →
      g 0 = some c → ∃ what, FileHelper.write os ⟨true, p.base⟩ m disk₁
        = (Function.update disk₁ p.base (some (c ++ [m.take os.fwrites]).flatten),
          .wrote (m.take os.fwrites) what) ∧ (os.Works m.length → what = none) := by
    intro disk₁ g c hg hc
    have hcontent : disk₁ p.base = some c.flatten := by
      rw [← calcFilename_zero p.base, hg 0, hc, Option.map_some]
    rw [FileHelper.write, if_pos rfl, hcontent, List.flatten_append, List.flatten_singleton]
    refine ⟨_, rfl, fun hworks => ?_⟩
    rw [List.take_of_length_le hworks.fwrites, if_pos rfl]
  unfold RotatingFileSink.sinkIt LogParams.sink
  dsimp only
  rw [Nat.mod_eq_of_lt hroom]
  by_cases hfull : p.max_size < cur + m.length
  · rw [if_pos hfull]
    obtain ⟨disk₁, g, hages, ⟨heq, hg⟩ | ⟨hfails, what, hthrew⟩⟩ :=
      rotate_cases os (n := p.max_files) h p.max_size (cur + m.length) fd
    · rw [heq]
      have hg0 : g 0 = some [] := by rw [hg, Function.update_self]
      obtain ⟨what, hwritten, hnone⟩ := hwrite hages.holds hg0
      refine Or.inl ⟨disk₁, g, [], m.length, what, hages, hg0, Or.inr ⟨hfull, hg, rfl⟩, ?_, hnone⟩
      dsimp only
      rw [hwritten]
    · have hworks : p.base ≠ [] → ¬ os.Works m.length := fun hne => hfails hne m.length
      rcases hthrew with ⟨heq, hg0⟩ | heq
      · rw [heq]
        refine Or.inr ⟨disk₁, g, 0, true, what, hages, ⟨fun _ => ⟨[], hg0, le_rfl⟩, ?_⟩,
          Nat.zero_le _, rfl, hworks⟩
        exact fun hfd => absurd hfd (by decide)
      · rw [heq]
        refine Or.inr ⟨disk₁, g, cur + m.length, false, what, hages, ⟨?_, fun _ => hfull⟩, le_rfl, rfl,
          hworks⟩
        exact fun hfd => absurd hfd (by decide)
  · rw [if_neg hfull]
    have hopen : fd = true := by
      by_contra hclosed
      have hlt := hready.2 (by simpa using hclosed)
      omega
    obtain ⟨c, hc, -⟩ := hready.1 hopen
    obtain ⟨what, hwritten, hnone⟩ := hwrite h hc
    refine Or.inl ⟨disk, f, c, cur + m.length, what, Ages.refl h, hc, Or.inl ⟨by omega, rfl, rfl⟩, ?_,
      hnone⟩
    rw [hopen, hwritten]

/-- The constructor appends to the file that is there, and counts what it has. -/
theorem new_cases (h : Holds p.base disk f) :
    ∃ disk' g, Ages p.base p.max_files disk disk' f g ∧
      (g = f ∨ (f 0 = none ∧ g = Function.update f 0 (some []))) ∧
      ((∃ c, g 0 = some c ∧ RotatingFileSink.new os p.base p.max_size p.max_files disk
            = (disk', .ok (p.sink c.flatten.length true))) ∨
        ((∀ size, ¬ os.Works size) ∧ ∃ what,
          RotatingFileSink.new os p.base p.max_size p.max_files disk = (disk', .error what))) := by
  have hcontent : disk p.base = (f 0).map List.flatten := h 0
  unfold RotatingFileSink.new FileHelper.open
  rcases openTries_append os (calcFilename p.base 0) (List.range open_tries_) disk with
    heq | ⟨heq, hall⟩
  · rw [heq]
    dsimp only
    rw [calcFilename_zero, hcontent, Function.update_self]
    have hpresent : ∃ disk' g c, Ages p.base p.max_files disk disk' f g ∧
        (g = f ∨ (f 0 = none ∧ g = Function.update f 0 (some []))) ∧ g 0 = some c ∧
        Function.update disk p.base (((f 0).map List.flatten).or (some [])) = disk' ∧
        (((f 0).map List.flatten).or (some [])).getD [] = c.flatten := by
      cases hf : f 0 with
      | none => exact ⟨_, _, [], Ages.empty p.max_files h, Or.inr ⟨rfl, rfl⟩, Function.update_self .., rfl,
          rfl⟩
      | some c =>
          refine ⟨disk, f, c, Ages.refl h, Or.inl rfl, hf, ?_, rfl⟩
          rw [hf] at hcontent
          exact Function.update_eq_self_iff.2 hcontent.symm
    obtain ⟨disk', g, c, hages, hg, hc, rfl, hsize⟩ := hpresent
    rw [hsize]
    cases hstat : os.fstats with
    | true => exact ⟨_, g, hages, hg, Or.inl ⟨c, hc, rfl⟩⟩
    | false =>
        refine ⟨_, g, hages, hg, Or.inr ⟨fun size hworks => ?_, _, rfl⟩⟩
        have hfstat := hworks.fstats
        rw [hstat] at hfstat
        cases hfstat
  · rw [heq]
    refine ⟨disk, f, Ages.refl h, Or.inl rfl, Or.inr ⟨fun size hworks => ?_, _, rfl⟩⟩
    obtain ⟨t, ht, -, hab⟩ := hworks.opens
    rw [hall t ht] at hab
    cases hab

end Message

end Logging

end FileCacheProxy
