import FileCacheProxy.LogRotation
import Mathlib

set_option autoImplicit false

/-! # The log over many lives of the proxy

Processes come and go over one log directory, and each opens the files that are there. Calls of the
operating system may fail at every message: then messages get lost, but what is kept stays in order
and within the limits. When all calls succeed the files are the last groups of one plan, by which a
message begins a new file exactly when it does not fit into the last one. -/

namespace FileCacheProxy

namespace Logging

open Rotation

/-! ## The system -/

/-- `nullWrite`: a message has been written to a null stream. -/
structure LogSystem where
  disk : Disk
  sink : Option RotatingFileSink
  nullWrite : Bool

inductive LogEvent where
  | start (os : Os)
  | log (os : Os) (formatted : Bytes)
  | stop

/-- Before the first start. -/
def LogSystem.first (disk : Disk) : LogSystem :=
  ⟨disk, none, false⟩

/-- A process begins with the constructor of its sink, and is gone when that throws. The exceptions of
    `sink_it_` are caught by the logger. -/
def LogSystem.step (p : LogParams) (s : LogSystem) : LogEvent → Option LogSystem
  | .start os =>
      match s.sink with
      | some _ => none
      | none =>
          match RotatingFileSink.new os p.base p.max_size p.max_files s.disk with
          | (disk, .ok sink) => some { s with disk, sink := some sink }
          | (disk, .error _) => some { s with disk }
  | .log os formatted =>
      match s.sink with
      | none => none
      | some sink =>
          match sink.sinkIt os formatted s.disk with
          | (disk, sink, .nullStream) => some ⟨disk, some sink, true⟩
          | (disk, sink, _) => some { s with disk, sink := some sink }
  | .stop => some { s with sink := none }

def LogEvent.messages : LogEvent → List Bytes
  | .log _ formatted => [formatted]
  | _ => []

/-- The messages the proxies log in a run. -/
def messages (run : List LogEvent) : List Bytes :=
  run.flatMap LogEvent.messages

theorem messages_cons (e : LogEvent) (run : List LogEvent) :
    messages (e :: run) = e.messages ++ messages run := rfl

/-- The files before the first start, each of them in one piece. -/
def LogParams.initial (p : LogParams) (disk : Disk) : Slots Bytes :=
  fun i => (disk (calcFilename p.base i)).map (fun content => [content])

theorem LogParams.holds_initial (p : LogParams) (disk : Disk) :
    Holds p.base disk (p.initial disk) := by
  intro i
  unfold LogParams.initial
  cases disk (calcFilename p.base i) with
  | none => rfl
  | some content => exact congrArg some (List.flatten_singleton).symm

/-! ## Whatever fails -/

/-- Pieces of some of the messages, in their order. -/
abbrev Kept (pieces msgs : List Bytes) : Prop :=
  List.SublistForall₂ (· <+: ·) pieces msgs

theorem Kept.sublist {pieces pieces' msgs : List Bytes} (h : Kept pieces msgs)
    (hsub : pieces'.Sublist pieces) : Kept pieces' msgs := by
  have hrefl : Kept pieces' pieces :=
    List.sublistForall₂_iff.2 ⟨pieces', List.forall₂_same.2 fun _ _ => List.prefix_rfl, hsub⟩
  exact IsTrans.trans _ _ _ hrefl h

theorem Kept.append {pieces msgs : List Bytes} {piece msg : Bytes} (h : Kept pieces msgs)
    (hpiece : piece <+: msg) : Kept (pieces ++ [piece]) (msgs ++ [msg]) := by
  obtain ⟨some, hall, hsub⟩ := List.sublistForall₂_iff.1 h
  refine List.sublistForall₂_iff.2 ⟨some ++ [msg], ?_, hsub.append_right [msg]⟩
  exact List.rel_append hall (List.Forall₂.cons hpiece List.Forall₂.nil)

theorem Kept.skip {pieces msgs : List Bytes} (h : Kept pieces msgs) (msg : Bytes) :
    Kept pieces (msgs ++ [msg]) := by
  obtain ⟨some, hall, hsub⟩ := List.sublistForall₂_iff.1 h
  exact List.sublistForall₂_iff.2 ⟨some, hall, hsub.trans (List.sublist_append_left msgs [msg])⟩

/-- What is always true of the files `f`: `disk₀` was there before the first start, the messages
    since are `msgs`. No file is larger than `bound`, the last one not larger than `total`. -/
structure Files (p : LogParams) (disk₀ : Disk) (bound total : ℕ) (msgs : List Bytes) (disk : Disk)
    (f : Slots Bytes) : Prop where
  holds : Holds p.base disk f
  order : Kept (kept f p.max_files) (kept (p.initial disk₀) p.max_files ++ msgs)
  leaves : Leaves p.base p.max_files disk₀ disk
  small : ∀ i ≤ p.max_files, ∀ c, f i = some c → c.flatten.length ≤ bound
  newest : ∀ c, f 0 = some c → c.flatten.length ≤ total

section Files

variable {p : LogParams} {disk₀ disk disk' : Disk} {bound total : ℕ} {msgs : List Bytes}
  {f g : Slots Bytes}

theorem Files.ages (h : Files p disk₀ bound total msgs disk f)
    (ha : Ages p.base p.max_files disk disk' f g) : Files p disk₀ bound total msgs disk' g := by
  refine ⟨ha.holds, h.order.sublist ha.aged.sublist, h.leaves.trans ha.leaves, fun i hi c hc => ?_,
    fun c hc => ?_⟩
  · rcases ha.aged.container i c hc with rfl | ⟨k, hk, hfk⟩
    · exact Nat.zero_le _
    · exact h.small k (hk.trans hi) c hfk
  · rcases ha.aged.container 0 c hc with rfl | ⟨k, hk, hfk⟩
    · exact Nat.zero_le _
    · rw [Nat.le_zero.1 hk] at hfk
      exact h.newest c hfk

/-- A message that is lost. -/
theorem Files.skip (h : Files p disk₀ bound total msgs disk f) (m : Bytes) :
    Files p disk₀ bound (total + m.length) (msgs ++ [m]) disk f := by
  refine ⟨h.holds, ?_, h.leaves, h.small, fun c hc => (h.newest c hc).trans (Nat.le_add_right _ _)⟩
  rw [← List.append_assoc]
  exact h.order.skip m

/-- A message of which `bytes` are stored. -/
theorem Files.write (h : Files p disk₀ bound total msgs disk f) {c : List Bytes} {bytes m : Bytes}
    (hc : f 0 = some c) (hbytes : bytes <+: m)
    (hsmall : (c ++ [bytes]).flatten.length ≤ bound) :
    Files p disk₀ bound (total + m.length) (msgs ++ [m])
      (Function.update disk p.base (some (c ++ [bytes]).flatten))
      (Function.update f 0 (some (c ++ [bytes]))) := by
  refine ⟨h.holds.update 0 rfl, ?_, h.leaves.update (Nat.zero_le _) _, fun i hi d hd => ?_,
    fun d hd => ?_⟩
  · rw [kept_append f p.max_files hc, ← List.append_assoc]
    exact h.order.append hbytes
  · by_cases hi0 : i = 0
    · rw [hi0, Function.update_self] at hd
      rw [← Option.some.inj hd]
      exact hsmall
    · rw [Function.update_of_ne hi0] at hd
      exact h.small i hi d hd
  · rw [Function.update_self] at hd
    rw [← Option.some.inj hd, List.flatten_append, List.flatten_singleton, List.length_append]
    exact Nat.add_le_add (h.newest c hc) hbytes.length_le

end Files

/-- The invariant of the system. -/
structure LogSystem.Inv (p : LogParams) (disk₀ : Disk) (bound total : ℕ) (msgs : List Bytes)
    (s : LogSystem) (f : Slots Bytes) : Prop where
  files : Files p disk₀ bound total msgs s.disk f
  sink : ∀ sink, s.sink = some sink →
    ∃ cur fd, sink = p.sink cur fd ∧ cur ≤ total ∧ p.Ready cur fd f
  safe : s.nullWrite = false

theorem LogSystem.Inv.step {p : LogParams} {disk₀ : Disk} {bound total : ℕ} {msgs : List Bytes}
    {s s' : LogSystem} {f : Slots Bytes} {e : LogEvent} (hinv : s.Inv p disk₀ bound total msgs f)
    (hbound : p.max_size ≤ bound) (hsmall : ∀ m ∈ e.messages, m.length ≤ bound)
    (htotal : total + e.messages.flatten.length < 2 ^ 64) (hstep : s.step p e = some s') :
    ∃ g, s'.Inv p disk₀ bound (total + e.messages.flatten.length) (msgs ++ e.messages) g := by
  cases e with
  | stop =>
      cases hstep
      have hfiles := hinv.files
      rw [← List.append_nil msgs] at hfiles
      refine ⟨f, hfiles, fun sink hsink => ?_, hinv.safe⟩
      cases hsink
  | start os =>
      show ∃ g, s'.Inv p disk₀ bound total (msgs ++ []) g
      rw [List.append_nil]
      unfold LogSystem.step at hstep
      dsimp only at hstep
      split at hstep
      · cases hstep
      · next hnone =>
        obtain ⟨disk', g, hages, -, ⟨c, hc, hnew⟩ | ⟨-, what, hnew⟩⟩ :=
          new_cases os hinv.files.holds
        · rw [hnew] at hstep
          cases hstep
          have hfiles := hinv.files.ages hages
          refine ⟨g, hfiles, fun sink hsink => ?_, hinv.safe⟩
          rw [← Option.some.inj hsink]
          exact ⟨_, true, rfl, hfiles.newest c hc, fun _ => ⟨c, hc, le_rfl⟩,
            fun hfd => absurd hfd (by decide)⟩
        · rw [hnew] at hstep
          cases hstep
          refine ⟨g, hinv.files.ages hages, fun sink hsink => ?_, hinv.safe⟩
          rw [hnone] at hsink
          cases hsink
  | log os m =>
      rw [LogEvent.messages, List.flatten_singleton] at htotal ⊢
      unfold LogSystem.step at hstep
      dsimp only at hstep
      split at hstep
      · cases hstep
      · next sink hsome =>
        obtain ⟨cur, fd, rfl, hcur, hready⟩ := hinv.sink sink hsome
        obtain ⟨disk₁, g, c, size, what, hages, hc, hroom, hsink, -⟩ |
            ⟨disk', g, size, fd', what, hages, hready', hsize, hsink, -⟩ :=
          sinkIt_cases os hinv.files.holds hready (by omega : cur + m.length < 2 ^ 64)
        · rw [hsink] at hstep
          cases hstep
          have hfiles := hinv.files.ages hages
          -- the file had room for the message, or it begins with it
          have hfits : (c ++ [m.take os.fwrites]).flatten.length ≤ size ∧ size ≤ bound ∧
              size ≤ total + m.length := by
            have htake : (m.take os.fwrites).length ≤ m.length := List.length_take_le' _ _
            rw [List.flatten_append, List.flatten_singleton, List.length_append]
            rcases hroom with ⟨hle, rfl, rfl⟩ | ⟨-, hg, rfl⟩
            · have hopen : fd = true := by
                by_contra hclosed
                have hlt := hready.2 (by simpa using hclosed)
                omega
              obtain ⟨c', hc', hlen⟩ := hready.1 hopen
              obtain rfl : c = c' := Option.some.inj (hc.symm.trans hc')
              omega
            · rw [hg, Function.update_self] at hc
              rw [← Option.some.inj hc]
              have hm := hsmall m (List.mem_singleton_self m)
              simp only [List.flatten_nil, List.length_nil]
              omega
          refine ⟨_, hfiles.write hc (List.take_prefix _ _) (hfits.1.trans hfits.2.1),
            fun sink' hsink' => ?_, hinv.safe⟩
          rw [← Option.some.inj hsink']
          refine ⟨size, true, rfl, hfits.2.2, fun _ => ⟨_, Function.update_self .., hfits.1⟩, ?_⟩
          exact fun hfd => absurd hfd (by decide)
        · rw [hsink] at hstep
          cases hstep
          refine ⟨g, (hinv.files.ages hages).skip m, fun sink' hsink' => ?_, hinv.safe⟩
          rw [← Option.some.inj hsink']
          exact ⟨size, fd', rfl, by omega, hready'⟩

theorem LogSystem.Inv.run {p : LogParams} {disk₀ : Disk} {bound total : ℕ} {msgs : List Bytes}
    {s s' : LogSystem} {f : Slots Bytes} {run : List LogEvent}
    (hinv : s.Inv p disk₀ bound total msgs f) (hbound : p.max_size ≤ bound)
    (hsmall : ∀ m ∈ messages run, m.length ≤ bound)
    (htotal : total + (messages run).flatten.length < 2 ^ 64)
    (hrun : Transition.exec (LogSystem.step p) s run = some s') :
    ∃ g, s'.Inv p disk₀ bound (total + (messages run).flatten.length) (msgs ++ messages run) g := by
  induction run generalizing s f total msgs with
  | nil =>
      cases hrun
      refine ⟨f, ?_⟩
      simpa [messages] using hinv
  | cons e run ih =>
      obtain ⟨s₁, hstep, hrest⟩ := Transition.exec_cons hrun
      rw [messages_cons] at hsmall htotal ⊢
      rw [List.flatten_append, List.length_append, ← Nat.add_assoc] at htotal ⊢
      rw [← List.append_assoc]
      obtain ⟨g, hinv₁⟩ := hinv.step hbound
        (fun m hm => hsmall m (List.mem_append_left _ hm)) (by omega) hstep
      exact ih hinv₁ (fun m hm => hsmall m (List.mem_append_right _ hm)) htotal hrest

theorem LogSystem.Inv.first {p : LogParams} {disk : Disk} {bound : ℕ}
    (h : ∀ i ≤ p.max_files, ∀ content, disk (calcFilename p.base i) = some content →
      content.length ≤ bound) :
    (LogSystem.first disk).Inv p disk bound ((disk p.base).getD []).length [] (p.initial disk) := by
  refine ⟨⟨p.holds_initial disk, ?_, Leaves.refl _ _ _, fun i hi c hc => ?_, fun c hc => ?_⟩,
    fun sink hsink => ?_, rfl⟩
  · rw [List.append_nil]
    exact List.sublistForall₂_iff.2 ⟨_, List.forall₂_same.2 fun _ _ => List.prefix_rfl,
      List.Sublist.refl _⟩
  · obtain ⟨content, hcontent, rfl⟩ := Option.map_eq_some_iff.1 hc
    rw [List.flatten_singleton]
    exact h i hi content hcontent
  · obtain ⟨content, hcontent, rfl⟩ := Option.map_eq_some_iff.1 hc
    rw [calcFilename_zero] at hcontent
    rw [List.flatten_singleton, hcontent]
    exact le_rfl
  · cases hsink

/-- Some files never to be exceeded in a run. -/
theorem exists_bound (p : LogParams) (disk : Disk) (run : List LogEvent) :
    ∃ bound, p.max_size ≤ bound ∧ (∀ m ∈ messages run, m.length ≤ bound) ∧
      ∀ i ≤ p.max_files, ∀ content, disk (calcFilename p.base i) = some content →
        content.length ≤ bound := by
  let size : ℕ → ℕ := fun i => ((disk (calcFilename p.base i)).getD []).length
  refine ⟨p.max_size + (messages run).flatten.length + (Finset.range (p.max_files + 1)).sup size,
    by omega, fun m hm => ?_, fun i hi content hcontent => ?_⟩
  · have hle := (List.sublist_flatten_of_mem hm).length_le
    omega
  · have hle : size i ≤ (Finset.range (p.max_files + 1)).sup size :=
      Finset.le_sup (Finset.mem_range.2 (by omega))
    have hsize : size i = content.length := by
      show ((disk (calcFilename p.base i)).getD []).length = _
      rw [hcontent, Option.getD_some]
    omega

theorem exists_inv {p : LogParams} {disk : Disk} {run : List LogEvent} {s : LogSystem}
    (hsize : ((disk p.base).getD []).length + (messages run).flatten.length < 2 ^ 64)
    (hrun : Transition.exec (LogSystem.step p) (LogSystem.first disk) run = some s) :
    ∃ bound total f, s.Inv p disk bound total (messages run) f := by
  obtain ⟨bound, hmax, hsmall, hfirst⟩ := exists_bound p disk run
  obtain ⟨f, hinv⟩ := (LogSystem.Inv.first hfirst).run hmax hsmall hsize hrun
  exact ⟨bound, _, f, hinv⟩

/-- A small log, and a run in which neither attempt to rename its last file succeeds: the message is
    lost, and so is the file. -/
def smallLog : LogParams := ⟨ascii "log.txt", 6, 2⟩

def allWork : Os := ⟨fun _ _ => true, fun _ _ => true, fun _ => true, fun _ => true, true, 1000⟩

def noRename : Os := { allWork with renames := fun i _ => i != 1 }

def failingRun : List LogEvent :=
  [.start allWork, .log allWork (ascii "ab\n"), .log allWork (ascii "cdef\n"),
    .log noRename (ascii "gh\n"), .log allWork (ascii "i\n")]

/-- **What the log keeps is in order, whatever fails**: after every run the files, oldest first, are
    pieces of what was there and of the messages, in their order and none twice. A message never goes
    to a null stream, and no other file is touched. -/
theorem log_in_order (p : LogParams) (disk : Disk) (run : List LogEvent) {s : LogSystem}
    (hsize : ((disk p.base).getD []).length + (messages run).flatten.length < 2 ^ 64)
    (hrun : Transition.exec (LogSystem.step p) (LogSystem.first disk) run = some s) :
    (∃ files, Holds p.base s.disk files ∧
        Kept (kept files p.max_files) (kept (p.initial disk) p.max_files ++ messages run)) ∧
      Leaves p.base p.max_files disk s.disk ∧ s.nullWrite = false := by
  obtain ⟨bound, total, f, hinv⟩ := exists_inv hsize hrun
  exact ⟨⟨f, hinv.files.holds, hinv.files.order⟩, hinv.files.leaves, hinv.safe⟩

theorem log_in_order_failing : ∃ s, Transition.exec (LogSystem.step smallLog)
      (LogSystem.first (fun _ => none)) failingRun = some s ∧
    s.disk (ascii "log.txt") = some (ascii "i\n") ∧ s.disk (ascii "log.1.txt") = none ∧
    s.disk (ascii "log.2.txt") = some (ascii "ab\n") ∧
    (∃ files, Holds smallLog.base s.disk files ∧
        Kept (kept files 2) (kept (smallLog.initial fun _ => none) 2 ++ messages failingRun)) ∧
      Leaves smallLog.base 2 (fun _ => none) s.disk ∧ s.nullWrite = false :=
  ⟨_, rfl, by decide, by decide, by decide,
    log_in_order smallLog (fun _ => none) failingRun (by decide) rfl⟩

/-- **The files stay within the limits, whatever fails**: none of them gets larger than `max_size`, a
    single message, or what was there before. `current_size_` bounds the file that is open, and is above
    `max_size` when none is, so that the next message begins a new one. -/
theorem log_bounded (p : LogParams) (disk : Disk) (run : List LogEvent) {s : LogSystem} {bound : ℕ}
    (hsize : ((disk p.base).getD []).length + (messages run).flatten.length < 2 ^ 64)
    (hmax : p.max_size ≤ bound) (hsmall : ∀ m ∈ messages run, m.length ≤ bound)
    (hfirst : ∀ i ≤ p.max_files, ∀ content, disk (calcFilename p.base i) = some content →
      content.length ≤ bound)
    (hrun : Transition.exec (LogSystem.step p) (LogSystem.first disk) run = some s) :
    (∀ i ≤ p.max_files, ∀ content, s.disk (calcFilename p.base i) = some content →
      content.length ≤ bound) ∧
    ∀ sink, s.sink = some sink →
      (sink.file_helper_.fd_ = true → ∃ content, s.disk p.base = some content ∧
        content.length ≤ sink.current_size_) ∧
      (sink.file_helper_.fd_ = false → p.max_size < sink.current_size_) := by
  obtain ⟨f, hinv⟩ := (LogSystem.Inv.first hfirst).run hmax hsmall hsize hrun
  refine ⟨fun i hi content hcontent => ?_, fun sink hsink => ?_⟩
  · rw [hinv.files.holds i] at hcontent
    obtain ⟨c, hc, rfl⟩ := Option.map_eq_some_iff.1 hcontent
    exact hinv.files.small i hi c hc
  · obtain ⟨cur, fd, rfl, -, hopen, hclosed⟩ := hinv.sink sink hsink
    refine ⟨fun hfd => ?_, hclosed⟩
    obtain ⟨c, hc, hle⟩ := hopen hfd
    refine ⟨c.flatten, ?_, hle⟩
    rw [← calcFilename_zero p.base, hinv.files.holds 0, hc]
    rfl

theorem log_bounded_failing : ∃ s, Transition.exec (LogSystem.step smallLog)
      (LogSystem.first (fun _ => none)) failingRun = some s ∧
    (∀ i ≤ 2, ∀ content, s.disk (calcFilename smallLog.base i) = some content →
      content.length ≤ 6) ∧
    ∀ sink, s.sink = some sink →
      (sink.file_helper_.fd_ = true → ∃ content, s.disk smallLog.base = some content ∧
        content.length ≤ sink.current_size_) ∧
      (sink.file_helper_.fd_ = false → 6 < sink.current_size_) :=
  ⟨_, rfl, log_bounded smallLog (fun _ => none) failingRun (by decide) le_rfl (by decide)
    (fun _ _ _ h => absurd h (by simp)) rfl⟩

/-! ## The log directory of the proxy -/

def logFileSize : ℕ := 4

def logFileBkupNum : ℕ := 4

/-- The log `init` opens. -/
def fcLog (mFclogFile : Bytes) : LogParams :=
  ⟨cstr mFclogFile, 1024 * 1024 * logFileSize, logFileBkupNum⟩

/-- The files behind the first. -/
theorem calcFilename_fcLog (mlogDir : Bytes) (i : ℕ) :
    calcFilename (mlogDir ++ ascii "/fileCacheProxy.log") (i + 1)
      = mlogDir ++ ascii "/fileCacheProxy." ++ decimal (i + 1) ++ ascii ".log" := by
  have hsplit := @splitByExtension_eq mlogDir (ascii "ileCacheProxy") (ascii "log") 102 (by decide)
    (by decide) (by decide) (by decide)
  have hbase : mlogDir ++ ascii "/fileCacheProxy.log"
      = mlogDir ++ SLASH :: 102 :: ascii "ileCacheProxy" ++ DOT :: ascii "log" := by
    rw [List.append_assoc]
    rfl
  rw [calcFilename_succ, hbase, hsplit]
  dsimp only
  have hstem : mlogDir ++ SLASH :: 102 :: ascii "ileCacheProxy" ++ [DOT]
      = mlogDir ++ ascii "/fileCacheProxy." := by
    rw [List.append_assoc]
    rfl
  rw [hstem]
  rfl

theorem calcFilename_fcLog_ne (mlogDir : Bytes) (i : ℕ) :
    mlogDir ++ ascii "/process.log" ≠ calcFilename (mlogDir ++ ascii "/fileCacheProxy.log") i := by
  cases i with
  | zero =>
      rw [calcFilename_zero, Ne, List.append_cancel_left_eq]
      decide
  | succ i =>
      rw [calcFilename_fcLog, List.append_assoc, List.append_assoc, Ne, List.append_cancel_left_eq]
      intro heq
      exact absurd (List.cons.inj (List.cons.inj heq).2).1 (by decide)

/-- `fpmoni.sh` writes to a file of its own in the same directory: the proxy's log leaves it alone. -/
theorem fcLog_leaves_process_log {mWorkDir exe : Bytes} {paths : WorkPaths} {disk : Disk}
    {run : List LogEvent} {s : LogSystem} (hpaths : getWorkDir mWorkDir exe = some paths)
    (hsize : ((disk (cstr paths.mFclogFile)).getD []).length + (messages run).flatten.length < 2 ^ 64)
    (hrun : Transition.exec (LogSystem.step (fcLog paths.mFclogFile)) (LogSystem.first disk) run
      = some s) :
    s.disk (paths.mlogDir ++ ascii "/process.log") = disk (paths.mlogDir ++ ascii "/process.log") := by
  obtain ⟨bound, total, f, hinv⟩ := exists_inv (p := fcLog paths.mFclogFile) hsize hrun
  obtain ⟨buf, hcut⟩ : ∃ buf, cutWorkDir (readlink exe mWorkDir) = some buf := by
    unfold getWorkDir at hpaths
    obtain ⟨buf, hbuf, -⟩ := Option.bind_eq_some_iff.1 hpaths
    exact ⟨buf, hbuf⟩
  have hbase : (fcLog paths.mFclogFile).base = paths.mlogDir ++ ascii "/fileCacheProxy.log" := by
    rw [getWorkDir_eq hcut, Option.some.injEq] at hpaths
    rw [← hpaths]
    refine cstr_eq_self ?_
    rw [List.mem_append, List.mem_append, not_or, not_or]
    exact ⟨⟨NUL_not_mem_cstr buf, by decide⟩, by decide⟩
  refine hinv.files.leaves _ (fun i _ => ?_)
  rw [hbase]
  exact calcFilename_fcLog_ne paths.mlogDir i

/-! ## When nothing fails -/

/-- What a run does to the plan `bins`, the pieces of the last file first: a start begins the first
    file. -/
def LogParams.plan (p : LogParams) (bins : List (List Bytes)) : LogEvent → List (List Bytes)
  | .start _ => if bins = [] then [[]] else bins
  | .log _ formatted => pack List.length p.max_size bins formatted
  | .stop => bins

/-- All calls of the operating system succeed. -/
def LogEvent.Works : LogEvent → Prop
  | .start os => os.Works 0
  | .log os formatted => os.Works formatted.length
  | .stop => True

theorem weight_length (b : List Bytes) : weight List.length b = b.flatten.length :=
  List.length_flatten.symm

/-- The system follows the plan: the files are its groups, and the sink counts the last one. -/
structure LogSystem.Follows (p : LogParams) (total : ℕ) (s : LogSystem) (f : Slots Bytes)
    (bins : List (List Bytes)) : Prop where
  holds : Holds p.base s.disk f
  lists : Lists p.max_files f bins
  newest : ∀ b rest, bins = b :: rest → b.flatten.length ≤ total
  sink : ∀ sink, s.sink = some sink → ∃ b rest, bins = b :: rest ∧
    sink = p.sink b.flatten.length true

theorem LogSystem.Follows.step {p : LogParams} {total : ℕ} {s s' : LogSystem} {f : Slots Bytes}
    {bins : List (List Bytes)} {e : LogEvent} (hinv : s.Follows p total f bins) (hbase : p.base ≠ [])
    (hworks : e.Works) (htotal : total + e.messages.flatten.length < 2 ^ 64)
    (hstep : s.step p e = some s') :
    ∃ g, s'.Follows p (total + e.messages.flatten.length) g (p.plan bins e) := by
  cases e with
  | stop =>
      cases hstep
      refine ⟨f, hinv.holds, hinv.lists, hinv.newest, fun sink hsink => ?_⟩
      cases hsink
  | start os =>
      show ∃ g, s'.Follows p total g _
      unfold LogSystem.step at hstep
      dsimp only at hstep
      split at hstep
      · cases hstep
      · obtain ⟨disk', g, hages, hg, ⟨c, hc, hnew⟩ | ⟨hfails, -⟩⟩ := new_cases os hinv.holds
        · rw [hnew] at hstep
          cases hstep
          cases bins with
          | nil =>
              have hnone : f 0 = none := hinv.lists 0 (Nat.zero_le _)
              have hbegun : g = Function.update f 0 (some []) := by
                rcases hg with rfl | ⟨-, hg⟩
                · rw [hnone] at hc
                  cases hc
                · exact hg
              rw [hbegun, Function.update_self] at hc
              rw [← Option.some.inj hc]
              refine ⟨g, hages.holds, fun j hj => ?_, fun b rest heq => ?_, fun sink hsink => ?_⟩
              · rw [hbegun]
                cases j with
                | zero => rw [Function.update_self]; rfl
                | succ j =>
                    rw [Function.update_of_ne (by omega), hinv.lists (j + 1) hj]
                    rfl
              · cases heq
                exact Nat.zero_le _
              · exact ⟨[], [], rfl, (Option.some.inj hsink).symm⟩
          | cons b rest =>
              have hb : f 0 = some b := hinv.lists 0 (Nat.zero_le _)
              have hsame : g = f := by
                rcases hg with rfl | ⟨hnone, -⟩
                · rfl
                · rw [hb] at hnone
                  cases hnone
              rw [hsame, hb] at hc
              rw [← Option.some.inj hc]
              refine ⟨f, hsame ▸ hages.holds, hinv.lists, hinv.newest, fun sink hsink => ?_⟩
              exact ⟨b, rest, rfl, (Option.some.inj hsink).symm⟩
        · exact absurd hworks (hfails 0)
  | log os m =>
      rw [LogEvent.messages, List.flatten_singleton] at htotal ⊢
      unfold LogSystem.step at hstep
      dsimp only at hstep
      split at hstep
      · cases hstep
      · next sink hsome =>
        obtain ⟨b, rest, rfl, rfl⟩ := hinv.sink sink hsome
        have hb : f 0 = some b := hinv.lists 0 (Nat.zero_le _)
        have hlen := hinv.newest b rest rfl
        have hready : p.Ready b.flatten.length true f :=
          ⟨fun _ => ⟨b, hb, le_rfl⟩, fun hfd => absurd hfd (by decide)⟩
        obtain ⟨disk₁, g, c, size, what, hages, hc, hroom, hsink, -⟩ |
            ⟨-, -, -, -, -, -, -, -, -, hfails⟩ :=
          sinkIt_cases os hinv.holds hready (by omega : b.flatten.length + m.length < 2 ^ 64)
        · rw [hsink] at hstep
          cases hstep
          rw [List.take_of_length_le hworks.fwrites]
          have hholds : Holds p.base (Function.update disk₁ p.base (some (c ++ [m]).flatten))
              (Function.update g 0 (some (c ++ [m]))) := hages.holds.update 0 rfl
          unfold LogParams.plan pack
          dsimp only
          rw [weight_length]
          rcases hroom with ⟨hle, rfl, rfl⟩ | ⟨hlt, rfl, rfl⟩
          · rw [if_neg (by omega)]
            obtain rfl : b = c := Option.some.inj (hb.symm.trans hc)
            refine ⟨_, hholds, hinv.lists.append [m], fun b' rest' heq => ?_, fun sink' hsink' => ?_⟩
            · cases heq
              rw [List.flatten_append, List.flatten_singleton, List.length_append]
              omega
            · refine ⟨_, rest, rfl, ?_⟩
              rw [← Option.some.inj hsink', List.flatten_append, List.flatten_singleton,
                List.length_append]
          · rw [if_pos hlt]
            rw [Function.update_self] at hc
            obtain rfl : [] = c := Option.some.inj hc
            refine ⟨_, hholds, hinv.lists.shift.append [m], fun b' rest' heq => ?_, fun sink' hsink' => ?_⟩
            · cases heq
              rw [List.flatten_singleton]
              omega
            · refine ⟨[m], b :: rest, rfl, ?_⟩
              rw [← Option.some.inj hsink', List.flatten_singleton]
        · exact absurd hworks (hfails hbase)

theorem LogSystem.Follows.run {p : LogParams} {total : ℕ} {s s' : LogSystem} {f : Slots Bytes}
    {bins : List (List Bytes)} {run : List LogEvent} (hinv : s.Follows p total f bins)
    (hbase : p.base ≠ []) (hworks : ∀ e ∈ run, e.Works)
    (htotal : total + (messages run).flatten.length < 2 ^ 64)
    (hrun : Transition.exec (LogSystem.step p) s run = some s') :
    ∃ g, s'.Follows p (total + (messages run).flatten.length) g (run.foldl p.plan bins) := by
  induction run generalizing s f total bins with
  | nil =>
      cases hrun
      exact ⟨f, hinv⟩
  | cons e run ih =>
      obtain ⟨s₁, hstep, hrest⟩ := Transition.exec_cons hrun
      obtain ⟨he, hall⟩ := List.forall_mem_cons.1 hworks
      rw [messages_cons, List.flatten_append, List.length_append, ← Nat.add_assoc] at htotal ⊢
      obtain ⟨g, hinv₁⟩ := hinv.step hbase he (by omega) hstep
      exact ih hinv₁ hall htotal hrest

/-- The files before the first start are the groups `bins`. -/
theorem LogSystem.Follows.first {p : LogParams} {disk : Disk} {bins : List (List Bytes)}
    (h : ∀ i ≤ p.max_files, disk (calcFilename p.base i) = bins[i]?.map List.flatten) :
    ∃ f, (LogSystem.first disk).Follows p ((disk p.base).getD []).length f bins := by
  refine ⟨fun i => if i ≤ p.max_files then bins[i]? else p.initial disk i, fun i => ?_, fun i hi => ?_,
    fun b rest heq => ?_, fun sink hsink => ?_⟩
  · split
    · next hi => exact h i hi
    · exact p.holds_initial disk i
  · exact if_pos hi
  · have hbase : disk p.base = some b.flatten := by
      rw [← calcFilename_zero p.base, h 0 (Nat.zero_le _), heq]
      rfl
    rw [hbase, Option.getD_some]
  · cases hsink

/-- Two lives of the proxy, in which everything works. -/
def workingRun : List LogEvent :=
  [.start allWork, .log allWork (ascii "ab\n"), .log allWork (ascii "cd\n"),
    .log allWork (ascii "ef\n"), .stop, .start allWork, .log allWork (ascii "ghijkl\n"),
    .log allWork (ascii "m\n")]

theorem allWork_works {size : ℕ} (h : size ≤ 1000) : allWork.Works size :=
  ⟨fun _ => Or.inl rfl, ⟨0, by decide, rfl, rfl⟩, rfl, h⟩

theorem workingRun_works : ∀ e ∈ workingRun, e.Works := by
  simp only [workingRun, List.forall_mem_cons, LogEvent.Works]
  refine ⟨allWork_works ?_, allWork_works ?_, allWork_works ?_, allWork_works ?_, trivial,
    allWork_works ?_, allWork_works ?_, allWork_works ?_, fun e he => absurd he List.not_mem_nil⟩ <;>
    decide

/-- **When no call fails the files are the last groups of the plan**, over any number of starts: file
    `i` has the messages of the group that is `i`th from the end. -/
theorem log_packs (p : LogParams) (disk : Disk) (bins : List (List Bytes)) (run : List LogEvent)
    {s : LogSystem} (hbase : p.base ≠ []) (hworks : ∀ e ∈ run, e.Works)
    (hsize : ((disk p.base).getD []).length + (messages run).flatten.length < 2 ^ 64)
    (hfirst : ∀ i ≤ p.max_files, disk (calcFilename p.base i) = bins[i]?.map List.flatten)
    (hrun : Transition.exec (LogSystem.step p) (LogSystem.first disk) run = some s) :
    ∀ i ≤ p.max_files,
      s.disk (calcFilename p.base i) = (run.foldl p.plan bins)[i]?.map List.flatten := by
  obtain ⟨f, hinv⟩ := LogSystem.Follows.first hfirst
  obtain ⟨g, hinv'⟩ := hinv.run hbase hworks hsize hrun
  intro i hi
  rw [hinv'.holds i, hinv'.lists i hi]

theorem log_packs_working : ∃ s, Transition.exec (LogSystem.step smallLog)
      (LogSystem.first (fun _ => none)) workingRun = some s ∧
    workingRun.foldl smallLog.plan [] = [[ascii "m\n"], [ascii "ghijkl\n"], [ascii "ef\n"],
      [ascii "ab\n", ascii "cd\n"]] ∧
    ∀ i ≤ 2, s.disk (calcFilename smallLog.base i)
      = (workingRun.foldl smallLog.plan [])[i]?.map List.flatten :=
  ⟨_, rfl, by decide, log_packs smallLog (fun _ => none) [] workingRun (by decide) workingRun_works
    (by decide) (fun _ _ => rfl) rfl⟩

/-- Once there is a file the plan is made by the messages alone. -/
theorem foldl_plan {p : LogParams} {bins : List (List Bytes)} (hne : bins ≠ [])
    (run : List LogEvent) :
    run.foldl p.plan bins = (messages run).foldl (pack List.length p.max_size) bins := by
  induction run generalizing bins with
  | nil => rfl
  | cons e run ih =>
      rw [List.foldl_cons, messages_cons, List.foldl_append]
      cases e with
      | start os => rw [LogParams.plan, if_neg hne, ih hne]; rfl
      | stop => exact ih hne
      | log os m => exact ih (pack_ne_nil bins m)

/-- In a new directory nothing is logged before a start has begun the first file. -/
theorem foldl_plan_nil {p : LogParams} {run : List LogEvent} {s s' : LogSystem} (hnone : s.sink = none)
    (hrun : Transition.exec (LogSystem.step p) s run = some s') :
    (messages run = [] ∧ run.foldl p.plan [] = []) ∨
      run.foldl p.plan [] = (messages run).foldl (pack List.length p.max_size) [[]] := by
  induction run generalizing s with
  | nil => exact Or.inl ⟨rfl, rfl⟩
  | cons e run ih =>
      obtain ⟨s₁, hstep, hrest⟩ := Transition.exec_cons hrun
      cases e with
      | start os => exact Or.inr (foldl_plan (List.cons_ne_nil _ _) run)
      | stop =>
          cases hstep
          exact ih rfl hrest
      | log os m =>
          simp only [LogSystem.step, hnone] at hstep
          cases hstep

/-- **What is kept and what is given up**: when no call fails, the files of a directory that was new
    hold the last messages, and are not larger than `max_size` or a single message. As soon as a
    message has been given up, all the files are there, and the moved ones together hold more than
    `max_size - m` bytes each, where `m` bounds the messages. -/
theorem log_retains (p : LogParams) (disk : Disk) (run : List LogEvent) {s : LogSystem} {m : ℕ}
    (hbase : p.base ≠ []) (hnew : ∀ i ≤ p.max_files, disk (calcFilename p.base i) = none)
    (hworks : ∀ e ∈ run, e.Works) (hsize : (messages run).flatten.length < 2 ^ 64)
    (hm : ∀ msg ∈ messages run, msg.length ≤ m)
    (hrun : Transition.exec (LogSystem.step p) (LogSystem.first disk) run = some s) :
    ∃ files : List (List Bytes),
      (∀ i ≤ p.max_files, s.disk (calcFilename p.base i) = files[i]?.map List.flatten) ∧
      files.length ≤ p.max_files + 1 ∧ files.reverse.flatten <:+ messages run ∧
      (∀ file ∈ files, file.flatten.length ≤ max p.max_size m) ∧
      (files.reverse.flatten = messages run ∨ files.length = p.max_files + 1 ∧
        p.max_files * (p.max_size + 1 - m) ≤ files.tail.reverse.flatten.flatten.length) := by
  have hempty : disk p.base = none := hnew 0 (Nat.zero_le _)
  have hfiles := log_packs p disk [] run hbase hworks (by rw [hempty]; simpa using hsize)
    (fun i hi => hnew i hi) hrun
  rcases foldl_plan_nil rfl hrun with ⟨hnone, hplan⟩ | hplan
  · rw [hplan] at hfiles
    rw [hnone]
    exact ⟨[], hfiles, Nat.zero_le _, List.suffix_rfl, fun _ h => absurd h List.not_mem_nil,
      Or.inl rfl⟩
  · rw [hplan] at hfiles
    have hpacked : Packed List.length p.max_size
        ((messages run).foldl (pack List.length p.max_size) [[]]) := Packed.empty.foldl (messages run)
    have hall : ((messages run).foldl (pack List.length p.max_size) [[]]).reverse.flatten
        = messages run := flatten_foldl_pack [[]] (messages run)
    generalize (messages run).foldl (pack List.length p.max_size) [[]] = bins
      at hfiles hpacked hall
    have hmsgs : ∀ b ∈ bins, ∀ msg ∈ b, msg.length ≤ m := by
      intro b hb msg hmsg
      refine hm msg ?_
      rw [← hall]
      exact List.mem_flatten.2 ⟨b, List.mem_reverse.2 hb, hmsg⟩
    have htaken : ∀ b ∈ bins.take (p.max_files + 1), ∀ msg ∈ b, msg.length ≤ m :=
      fun b hb => hmsgs b (List.mem_of_mem_take hb)
    have hsplit : bins.reverse.flatten = (bins.drop (p.max_files + 1)).reverse.flatten ++
        (bins.take (p.max_files + 1)).reverse.flatten := by
      rw [← List.flatten_append, ← List.reverse_append, List.take_append_drop]
    refine ⟨bins.take (p.max_files + 1), fun i hi => ?_, List.length_take_le _ _, ?_, fun b hb => ?_,
      ?_⟩
    · rw [hfiles i hi, List.getElem?_take_of_lt (by omega)]
    · rw [← hall, hsplit]
      exact List.suffix_append _ _
    · rw [← weight_length]
      exact (hpacked.take _).weight_le htaken hb
    · by_cases hlen : bins.length ≤ p.max_files + 1
      · rw [List.take_of_length_le hlen]
        exact Or.inl hall
      · have hfull : (bins.take (p.max_files + 1)).length = p.max_files + 1 := by
          rw [List.length_take]
          omega
        have hweight := (hpacked.take (p.max_files + 1)).weight_ge htaken
        rw [hfull, Nat.add_sub_cancel, weight_length] at hweight
        exact Or.inr ⟨hfull, hweight⟩

/-- Seven short messages, two of which fit into a file. -/
def shortRun : List LogEvent :=
  .start allWork :: List.replicate 7 (.log allWork (ascii "ab\n"))

theorem shortRun_works : ∀ e ∈ shortRun, e.Works := by
  intro e he
  rcases List.mem_cons.1 he with rfl | hlog
  · exact allWork_works (by decide)
  · rw [List.eq_of_mem_replicate hlog]
    exact allWork_works (by decide)

/-- The first message is given up: the moved files hold more than `max_size - m` bytes each. -/
theorem log_retains_short : ∃ s, Transition.exec (LogSystem.step smallLog)
      (LogSystem.first (fun _ => none)) shortRun = some s ∧ ∃ files : List (List Bytes),
    (∀ i ≤ 2, s.disk (calcFilename smallLog.base i) = files[i]?.map List.flatten) ∧
    files.length ≤ 3 ∧ files.reverse.flatten <:+ messages shortRun ∧
    (∀ file ∈ files, file.flatten.length ≤ max 6 3) ∧
    (files.reverse.flatten = messages shortRun ∨ files.length = 3 ∧
      2 * (6 + 1 - 3) ≤ files.tail.reverse.flatten.flatten.length) :=
  ⟨_, rfl, log_retains (m := 3) smallLog (fun _ => none) shortRun (by decide) (fun _ _ => rfl)
    shortRun_works (by decide) (by decide) rfl⟩

end Logging

end FileCacheProxy
