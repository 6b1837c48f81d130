import FileCacheProxy.CleanExpire
import FileCacheProxy.ExpireDays
import FileCacheProxy.Lib.Radix
import Mathlib

set_option autoImplicit false
-- the facts about all 256 bytes are decided one byte after the other
set_option maxRecDepth 1500

/-! # Which record files a run of the script selects

The script compares file names as texts. For the names the system itself puts into the records
directory that is a comparison of the time stamps in them, and a run selects the record files up to
its cutoff and nothing else. The words of the loop are those the shell makes of the output of `ls`. -/

namespace FileCacheProxy

namespace CleanExpire

/-! ## Time stamps -/

/-- The value of a decimal digit. -/
def digitValue (c : UInt8) : ℕ :=
  c.toNat - 48

theorem digits_digitValue : Radix.Digits digitValue 10 {c | isdigit c = true} where
  one_lt := by decide
  lt_base := by
    show ∀ c, isdigit c = true → digitValue c < 10
    decide
  lt_iff := by
    show ∀ c, isdigit c = true → ∀ c', isdigit c' = true → (digitValue c < digitValue c' ↔ c < c')
    decide
  injOn := by
    show ∀ c, isdigit c = true → ∀ c', isdigit c' = true → digitValue c = digitValue c' → c = c'
    decide

/-- Year, month, day, hour and minute of a time stamp `YYYYmmddHHMM`. Lists of numbers are ordered
    lexicographically, so `≤` on them is the order of time. -/
def moment (tmpdate : Bytes) : List ℕ :=
  Radix.fields digitValue 10 [4, 2, 2, 2, 2] tmpdate

theorem isDate_iff {tmpdate : Bytes} :
    isDate tmpdate = true ↔ tmpdate.length = 12 ∧ ∀ c ∈ tmpdate, isdigit c = true := by
  simp [isDate]

theorem moment_lt_iff {d d' : Bytes} (h : isDate d = true) (h' : isDate d' = true) :
    moment d < moment d' ↔ d < d' := by
  obtain ⟨hlen, hdigits⟩ := isDate_iff.1 h
  obtain ⟨hlen', hdigits'⟩ := isDate_iff.1 h'
  exact Radix.fields_lt_fields_iff digits_digitValue hdigits hdigits' hlen hlen'

theorem tmpfilename_lt_iff {d d' : Bytes} (hlen : d.length = d'.length) :
    tmpfilename d < tmpfilename d' ↔ d < d' := by
  have hname : (ascii "UploadRecord_" ++ d).length = (ascii "UploadRecord_" ++ d').length := by
    rw [List.length_append, List.length_append, hlen]
  rw [tmpfilename, tmpfilename, Radix.append_lt_append_iff hname,
    Radix.append_lt_append_iff (rfl : (ascii "UploadRecord_").length = _)]
  simp [List.lt_irrefl]

theorem tmpfilename_inj {d d' : Bytes} : tmpfilename d = tmpfilename d' ↔ d = d' := by
  rw [tmpfilename, tmpfilename, List.append_cancel_right_eq, List.append_cancel_left_eq]

/-- **The comparison of names is the comparison of times.** -/
theorem selects_tmpfilename_iff {d tmpdate : Bytes} (h : isDate d = true)
    (h' : isDate tmpdate = true) :
    selects tmpdate (tmpfilename d) = true ↔ moment d ≤ moment tmpdate := by
  have hlen : d.length = tmpdate.length := (isDate_iff.1 h).1.trans (isDate_iff.1 h').1.symm
  rw [selects, Bool.or_eq_true, decide_eq_true_eq, beq_iff_eq, tmpfilename_lt_iff hlen,
    tmpfilename_inj, ← List.le_iff_lt_or_eq, ← not_lt, moment_lt_iff h' h]
  exact Iff.rfl

/-- The log file of the proxy (`mProclogFile`). -/
def processLog : Bytes := ascii "process.log"

/-- The directory the processed files are moved to. -/
def cleanresultName : Bytes := ascii "cleanresult"

/-- A name in small letters sorts behind every record file. -/
theorem not_selects_of_head {name : Bytes} {c : UInt8} (h : name.head? = some c) (hc : 85 < c)
    (tmpdate : Bytes) : selects tmpdate name = false := by
  obtain ⟨rest, rfl⟩ : ∃ rest, name = c :: rest := List.head?_eq_some_iff.1 h
  obtain ⟨rest', ht⟩ : ∃ rest', tmpfilename tmpdate = 85 :: rest' := ⟨_, rfl⟩
  rw [selects, ht, Bool.or_eq_false_iff, decide_eq_false_iff_not, List.cons_lt_cons_iff,
    beq_eq_false_iff_ne, Ne, List.cons.injEq]
  have hne : c ≠ 85 := fun he => absurd hc (by rw [he]; decide)
  refine ⟨?_, fun heq => hne heq.1⟩
  rintro (hlt | ⟨heq, -⟩)
  · exact absurd (UInt8.lt_trans hc hlt) (UInt8.lt_irrefl _)
  · exact hne heq

/-! ## The words of the loop -/

/-- What `ls` writes into a pipe: one name on a line. -/
def lsOutput (names : List Bytes) : Bytes :=
  names.flatMap (fun name => name ++ [LF])

/-- A name that is one word for the shell, and stands for nothing but itself. -/
structure Word (name : Bytes) : Prop where
  ne_nil : name ≠ []
  plain : plain name = true
  not_mem_NUL : NUL ∉ name

theorem Word.not_ifs {name : Bytes} (h : Word name) : ∀ c ∈ name, ifs c = false := by
  have hchar : ∀ c : UInt8, (!(ascii " \t\n*?[\\").contains c) = true → ifs c = false := by
    decide
  exact fun c hc => hchar c (List.all_eq_true.1 h.plain c hc)

theorem Word.no_pattern {name : Bytes} (h : Word name) : hasPattern name = false := by
  have hchar : ∀ c : UInt8, (!(ascii " \t\n*?[\\").contains c) = true →
      ¬ (c == 42 || c == 63 || c == 91 || c == 92) = true := by
    decide
  exact List.any_eq_false.2 (fun c hc => hchar c (List.all_eq_true.1 h.plain c hc))

theorem words_append_LF {name : Bytes} (h : Word name) (s : Bytes) :
    words (name ++ [LF] ++ s) = name :: words s := by
  rw [words, List.append_assoc, List.singleton_append]
  exact Cut.words_append_cons h.ne_nil h.not_ifs (by decide)

theorem words_self {name : Bytes} (h : Word name) : words name = [name] :=
  Cut.words_self h.ne_nil h.not_ifs

theorem words_lsOutput_append {names : List Bytes} (h : ∀ name ∈ names, Word name) (s : Bytes) :
    words (lsOutput names ++ s) = names ++ words s := by
  induction names with
  | nil => rfl
  | cons name names ih =>
      obtain ⟨hname, hnames⟩ := List.forall_mem_cons.1 h
      have hcons : lsOutput (name :: names) ++ s = name ++ [LF] ++ (lsOutput names ++ s) := by
        rw [lsOutput, List.flatMap_cons, List.append_assoc]
        rfl
      rw [hcons, words_append_LF hname, ih hnames, List.cons_append]

theorem NUL_not_mem_lsOutput {names : List Bytes} (h : ∀ name ∈ names, Word name) :
    NUL ∉ lsOutput names := by
  intro hmem
  obtain ⟨name, hname, hNUL⟩ := List.mem_flatMap.1 hmem
  rcases List.mem_append.1 hNUL with hin | hLF
  · exact (h name hname).not_mem_NUL hin
  · exact absurd (List.mem_singleton.1 hLF) (by decide)

/-- The command substitution takes off the last newline, and no more. -/
theorem substitution_lsOutput_concat {names : List Bytes} {name : Bytes}
    (h : ∀ name' ∈ names ++ [name], Word name') :
    substitution (lsOutput (names ++ [name])) = lsOutput names ++ name := by
  have hname : Word name := h name (by simp)
  have hsplit : lsOutput (names ++ [name]) = lsOutput names ++ name ++ [LF] := by
    rw [lsOutput, List.flatMap_append, List.flatMap_singleton, ← List.append_assoc]
    rfl
  have hkeep : (lsOutput (names ++ [name])).filter (· != NUL) = lsOutput (names ++ [name]) := by
    refine List.filter_eq_self.2 (fun c hc => ?_)
    rw [bne_iff_ne]
    rintro rfl
    exact NUL_not_mem_lsOutput h hc
  obtain ⟨init, c, rfl⟩ := List.eq_nil_or_concat name |>.resolve_left hname.ne_nil
  have hc : (c == LF) = false := by
    have hifs := hname.not_ifs c (by simp)
    simp only [ifs, Bool.or_eq_false_iff] at hifs
    exact hifs.2
  rw [substitution, hkeep, hsplit, List.reverse_append, List.reverse_singleton,
    List.singleton_append, List.dropWhile_cons_of_pos (by decide)]
  rw [List.concat_eq_append, ← List.append_assoc, List.reverse_append, List.reverse_singleton,
    List.singleton_append, List.dropWhile_cons_of_neg (by simp [hc])]
  rw [List.reverse_cons, List.reverse_reverse]

/-- **The loop goes over the names of the directory**, in the order of `ls`. -/
theorem expand_lsOutput (sh : Shell) {names : List Bytes} (h : ∀ name ∈ names, Word name) :
    sh.expand (substitution (lsOutput names)) = names := by
  have hwords : words (substitution (lsOutput names)) = names := by
    rcases List.eq_nil_or_concat names with rfl | ⟨init, name, rfl⟩
    · rfl
    · rw [List.concat_eq_append] at h ⊢
      have hname : Word name := h name (by simp)
      rw [substitution_lsOutput_concat h,
        words_lsOutput_append (fun n hn => h n (List.mem_append_left _ hn)), words_self hname]
  rw [Shell.expand, hwords]
  refine (List.flatMap_congr (fun name hname => ?_)).trans (List.flatMap_pure_eq_map id names |>.trans
    (List.map_id names))
  rw [if_neg (by simp [(h name hname).no_pattern])]
  rfl

/-! ## The names in the directory -/

/-- The names that the system itself gives to files in the records directory. -/
inductive OwnName : Bytes → Prop
  | record {d : Bytes} (h : isDate d = true) : OwnName (tmpfilename d)
  | log : OwnName processLog
  | output : OwnName resultfilename

/-- The records directory holds nothing but the system's own files. -/
def World.WellNamed (w : World) : Prop :=
  ∀ file ∈ w.records, OwnName file

theorem OwnName.word {name : Bytes} (h : OwnName name) : Word name := by
  cases h with
  | record h =>
      refine ⟨by simp [tmpfilename, ascii], (selectable_tmpfilename h).1, ?_⟩
      have hdigit := (isDate_iff.1 h).2
      simp only [tmpfilename, List.mem_append, not_or]
      exact ⟨⟨by decide, fun hmem => absurd (hdigit NUL hmem) (by decide)⟩, by decide⟩
  | log => exact ⟨by decide, by decide, by decide⟩
  | output => exact ⟨by decide, by decide, by decide⟩

theorem word_cleanresultName : Word cleanresultName :=
  ⟨by decide, by decide, by decide⟩

theorem not_selects_processLog (tmpdate : Bytes) : selects tmpdate processLog = false :=
  not_selects_of_head rfl (by decide) tmpdate

theorem not_selects_cleanresultName (tmpdate : Bytes) : selects tmpdate cleanresultName = false :=
  not_selects_of_head rfl (by decide) tmpdate

/-! ## The files of a run -/

/-- A record file, with this content, whose time stamp is at or before the cutoff. -/
def Due (w : World) (tmpdate file content : Bytes) : Prop :=
  w.records[file]? = some content ∧
    ∃ d, isDate d = true ∧ file = tmpfilename d ∧ moment d ≤ moment tmpdate

/-- What the loop processes when it comes to the word `file`. -/
def dueFile (tmpdate : Bytes) (w : World) (file : Bytes) : Option (Bytes × Bytes) :=
  if selects tmpdate file then (w.records[file]?).map (fun content => (file, content)) else none

theorem dueFile_eq_some {w : World} (hw : w.WellNamed) {tmpdate : Bytes}
    (hdate : isDate tmpdate = true) {word file content : Bytes} :
    dueFile tmpdate w word = some (file, content) ↔ word = file ∧ Due w tmpdate file content := by
  unfold dueFile Due
  constructor
  · intro h
    split at h
    · next hsel =>
        obtain ⟨content', hrec, heq⟩ := Option.map_eq_some_iff.1 h
        cases heq
        refine ⟨rfl, hrec, ?_⟩
        cases hw word (Std.TreeMap.mem_iff_isSome_getElem?.2 (by rw [hrec]; rfl)) with
        | record hd => exact ⟨_, hd, rfl, (selects_tmpfilename_iff hd hdate).1 hsel⟩
        | log => exact absurd hsel (by simp [not_selects_processLog])
        | output => exact absurd hsel (by simp [not_selects_resultfilename])
    · cases h
  · rintro ⟨rfl, hrec, d, hd, rfl, hle⟩
    rw [if_pos ((selects_tmpfilename_iff hd hdate).2 hle), hrec]
    rfl

/-- One pass: what is processed is what is due, and the other files stay due. -/
theorem processWord_selected {env : RunEnv} {w w' : World} {file : Bytes}
    (h : processWord env w file = some w') :
    w'.selected = w.selected ++ (dueFile env.tmpdate w file).toList ∧
      ∀ other ≠ file, dueFile env.tmpdate w' other = dueFile env.tmpdate w other := by
  unfold processWord at h
  split at h
  · next hsel =>
      unfold processRecordFile at h
      split at h
      · next hnone =>
          cases h
          exact ⟨by simp [dueFile, hnone], fun _ _ => rfl⟩
      · next content hsome =>
          obtain ⟨run, -, rfl⟩ := Option.map_eq_some_iff.1 h
          refine ⟨by simp [dueFile, hsel, hsome], fun other hne => ?_⟩
          unfold dueFile
          split
          · next hother =>
              -- the output file is the only new one, and it is never selected
              have hout : resultfilename ≠ other := by
                rintro rfl
                exact absurd hother (by simp [not_selects_resultfilename])
              dsimp only
              rw [Std.TreeMap.getElem?_erase, Std.TreeMap.getElem?_insert]
              simp only [Std.LawfulEqCmp.compare_eq_iff_eq, if_neg (Ne.symm hne), if_neg hout]
          · rfl
  · next hsel =>
      cases h
      exact ⟨by simp [dueFile, hsel], fun _ _ => rfl⟩

theorem foldlM_selected {env : RunEnv} {words : List Bytes} {w w' : World} (hnodup : words.Nodup)
    (h : words.foldlM (processWord env) w = some w') :
    w'.selected = w.selected ++ words.filterMap (dueFile env.tmpdate w) := by
  induction words generalizing w with
  | nil =>
      cases h
      simp
  | cons file rest ih =>
      rw [List.foldlM_cons] at h
      obtain ⟨w₁, hfirst, hrest⟩ := Option.bind_eq_some_iff.1 h
      obtain ⟨hnot, hnodup'⟩ := List.nodup_cons.1 hnodup
      obtain ⟨hsel, hsame⟩ := processWord_selected hfirst
      have hkeep : rest.filterMap (dueFile env.tmpdate w₁)
          = rest.filterMap (dueFile env.tmpdate w) :=
        List.filterMap_congr (fun other hother => hsame other (fun he => hnot (he ▸ hother)))
      rw [ih hnodup' hrest, hsel, hkeep, List.append_assoc]
      cases hdue : dueFile env.tmpdate w file with
      | none => simp [hdue]
      | some due => simp [hdue]

/-- A pass ends if the cleaner comes back from the file that is due. -/
theorem processWord_isSome {env : RunEnv} {w : World} {file : Bytes}
    (h : ∀ content, dueFile env.tmpdate w file = some (file, content) →
      ((env.answers file).run file content).isSome) : (processWord env w file).isSome := by
  unfold processWord
  split
  · next hsel =>
      unfold processRecordFile
      split
      · rfl
      · next content hsome =>
          rw [Option.isSome_map]
          exact h content (by simp [dueFile, hsel, hsome])
  · rfl

theorem foldlM_isSome {env : RunEnv} {words : List Bytes} {w : World} (hnodup : words.Nodup)
    (h : ∀ file ∈ words, ∀ content, dueFile env.tmpdate w file = some (file, content) →
      ((env.answers file).run file content).isSome) :
    (words.foldlM (processWord env) w).isSome := by
  induction words generalizing w with
  | nil => rfl
  | cons file rest ih =>
      obtain ⟨hfile, hrest⟩ := List.forall_mem_cons.1 h
      obtain ⟨hnot, hnodup'⟩ := List.nodup_cons.1 hnodup
      obtain ⟨w₁, hfirst⟩ := Option.isSome_iff_exists.1 (processWord_isSome hfile)
      have hsame := (processWord_selected hfirst).2
      rw [List.foldlM_cons, hfirst]
      refine ih hnodup' (fun other hother content hdue => hrest other hother content ?_)
      rwa [hsame other (fun he => hnot (he ▸ hother))] at hdue

/-! ## The selection of a run -/

/-- A run that gets to its loop, and whose words are what the shell makes of the output of `ls`, which
    sorts the names in some order. -/
structure Lists (sh : Shell) (env : RunEnv) : Prop where
  legal : env.legal = true
  date : isDate env.tmpdate = true
  expand : ∀ names, ∃ sorted, sorted.Perm names ∧
    env.expand names = sh.expand (substitution (lsOutput sorted))

theorem Lists.words_perm {sh : Shell} {env : RunEnv} {w : World} (h : Lists sh env)
    (hw : w.WellNamed) : (env.words w).Perm (w.records.keys ++ [cleanresultName]) := by
  obtain ⟨sorted, hperm, hexpand⟩ := h.expand (w.records.keys ++ [cleanresultName])
  have hword : ∀ name ∈ sorted, Word name := by
    intro name hname
    rcases List.mem_append.1 (hperm.subset hname) with hkey | hdir
    · exact (hw name (Std.TreeMap.mem_keys.1 hkey)).word
    · rw [List.mem_singleton.1 hdir]
      exact word_cleanresultName
  have heq : env.words w = sorted := hexpand.trans (expand_lsOutput sh hword)
  rw [heq]
  exact hperm

theorem not_ownName_cleanresult : ¬ OwnName cleanresultName := by
  have hhead : cleanresultName = 99 :: (ascii "leanresult") := by decide
  rintro h
  generalize hname : cleanresultName = name at h
  rw [hhead] at hname
  cases h with
  | record h =>
      have hrec : ∀ d, tmpfilename d = 85 :: (ascii "ploadRecord_" ++ d ++ ascii ".txt") :=
        fun d => rfl
      rw [hrec] at hname
      exact absurd (List.cons.inj hname).1 (by decide)
  | log => exact absurd hname (by decide)
  | output => exact absurd hname (by decide)

theorem Lists.words_nodup {sh : Shell} {env : RunEnv} {w : World} (h : Lists sh env)
    (hw : w.WellNamed) : (env.words w).Nodup := by
  rw [(h.words_perm hw).nodup_iff]
  refine List.nodup_append.2 ⟨Std.TreeMap.nodup_keys, List.nodup_singleton _, ?_⟩
  intro key hkey name hname heq
  rw [List.mem_singleton.1 hname] at heq
  exact not_ownName_cleanresult (heq ▸ hw key (Std.TreeMap.mem_keys.1 hkey))

theorem Lists.clean_eq {sh : Shell} {env : RunEnv} (h : Lists sh env) (w : World) :
    clean w env = (env.words w).foldlM (processWord env) w := by
  unfold clean RunEnv.words
  rw [if_pos h.legal]

/-- What a run has processed. -/
def processed (w w' : World) : List (Bytes × Bytes) :=
  w'.selected.drop w.selected.length

theorem Lists.selected_eq {sh : Shell} {env : RunEnv} {w w' : World} (h : Lists sh env)
    (hw : w.WellNamed) (hclean : clean w env = some w') :
    w'.selected = w.selected ++ (env.words w).filterMap (dueFile env.tmpdate w) :=
  foldlM_selected (h.words_nodup hw) (h.clean_eq w ▸ hclean)

theorem Lists.processed_eq {sh : Shell} {env : RunEnv} {w w' : World} (h : Lists sh env)
    (hw : w.WellNamed) (hclean : clean w env = some w') :
    processed w w' = (env.words w).filterMap (dueFile env.tmpdate w) := by
  rw [processed, h.selected_eq hw hclean, List.drop_left]

theorem Lists.mem_processed_iff {sh : Shell} {env : RunEnv} {w w' : World} (h : Lists sh env)
    (hw : w.WellNamed) (hclean : clean w env = some w') {file content : Bytes} :
    (file, content) ∈ processed w w' ↔ Due w env.tmpdate file content := by
  rw [h.processed_eq hw hclean, List.mem_filterMap]
  constructor
  · rintro ⟨word, -, hdue⟩
    exact ((dueFile_eq_some hw h.date).1 hdue).2
  · intro hdue
    refine ⟨file, (h.words_perm hw).mem_iff.2 (List.mem_append_left _ ?_),
      (dueFile_eq_some hw h.date).2 ⟨rfl, hdue⟩⟩
    exact Std.TreeMap.mem_keys.2 (Std.TreeMap.mem_iff_isSome_getElem?.2 (by rw [hdue.1]; rfl))

theorem World.WellNamed.clean {env : RunEnv} {w w' : World} (hw : w.WellNamed)
    (hclean : clean w env = some w') : w'.WellNamed := by
  rcases clean_cases hclean with ⟨-, rfl⟩ | ⟨-, hdone⟩
  · exact hw
  · intro file hfile
    by_cases hout : file = resultfilename
    · rw [hout]
      exact .output
    · obtain ⟨content, hrec⟩ :=
        Option.isSome_iff_exists.1 (Std.TreeMap.mem_iff_isSome_getElem?.1 hfile)
      have hold := ((hdone.records file hout content).1 hrec).1
      exact hw file (Std.TreeMap.mem_iff_isSome_getElem?.2 (by rw [hold]; rfl))

/-- A run that finds nothing due leaves everything as it is. -/
theorem foldlM_idle {env : RunEnv} {words : List Bytes} {w : World}
    (h : ∀ file ∈ words, dueFile env.tmpdate w file = none) :
    words.foldlM (processWord env) w = some w := by
  induction words with
  | nil => rfl
  | cons file rest ih =>
      obtain ⟨hfile, hrest⟩ := List.forall_mem_cons.1 h
      have hpass : processWord env w file = some w := by
        unfold dueFile at hfile
        unfold processWord
        split at hfile
        · next hsel =>
            rw [if_pos hsel, processRecordFile, Option.map_eq_none_iff.1 hfile]
        · next hsel => rw [if_neg hsel]
      rw [List.foldlM_cons, hpass]
      exact ih hrest

/-- What a run has processed is gone from the directory. -/
theorem Lists.not_due {sh : Shell} {env : RunEnv} {w w' : World} (h : Lists sh env)
    (hw : w.WellNamed) (hclean : clean w env = some w') (file content : Bytes) :
    ¬ Due w' env.tmpdate file content := by
  rintro ⟨hrec, d, hd, rfl, hle⟩
  have hout : tmpfilename d ≠ resultfilename := (selectable_tmpfilename hd).ne_resultfilename
  have hdone : Done env (env.words w) w w' := by
    rcases clean_cases hclean with ⟨hlegal, -⟩ | ⟨-, hdone⟩
    · exact absurd (h.legal.symm.trans hlegal) (by simp)
    · exact hdone
  obtain ⟨hold, hleft⟩ := (hdone.records _ hout content).1 hrec
  refine hleft ⟨?_, (selects_tmpfilename_iff hd h.date).2 hle, hold⟩
  refine (h.words_perm hw).mem_iff.2 (List.mem_append_left _ (Std.TreeMap.mem_keys.2 ?_))
  exact Std.TreeMap.mem_iff_isSome_getElem?.2 (by rw [hold]; rfl)

/-- What a run selects from the directory of `w`. -/
structure SelectionLaw (sh : Shell) (w : World) : Prop where
  /-- The run ends, if the cleaner comes back from every file that is due. -/
  ends : ∀ env, Lists sh env → (∀ file content, Due w env.tmpdate file content →
    ((env.answers file).run file content).isSome) → (clean w env).isSome
  /-- It processes exactly the files that are due, each once. -/
  exactly : ∀ env w', Lists sh env → clean w env = some w' →
    w.selected <+: w'.selected ∧ ((processed w w').map Prod.fst).Nodup ∧
      ∀ file content, (file, content) ∈ processed w w' ↔ Due w env.tmpdate file content
  /-- The other entries are never selected. -/
  others : ∀ tmpdate, ∀ name ∈ [processLog, cleanresultName, resultfilename],
    selects tmpdate name = false
  wellNamed : ∀ env w', clean w env = some w' → w'.WellNamed
  /-- A second run with the same cutoff does nothing. -/
  idle : ∀ env env' w', Lists sh env → Lists sh env' → env'.tmpdate = env.tmpdate →
    clean w env = some w' → clean w' env' = some w'
  /-- A later cutoff selects all that an earlier one selects. -/
  later : ∀ env env' w₁ w₂, Lists sh env → Lists sh env' →
    moment env.tmpdate ≤ moment env'.tmpdate → clean w env = some w₁ → clean w env' = some w₂ →
      processed w w₁ ⊆ processed w w₂

theorem World.WellNamed.selectionLaw {w : World} (hw : w.WellNamed) (sh : Shell) :
    SelectionLaw sh w where
  ends := by
    intro env h hback
    rw [h.clean_eq]
    refine foldlM_isSome (h.words_nodup hw) (fun file _ content hdue => hback file content ?_)
    exact ((dueFile_eq_some hw h.date).1 hdue).2
  exactly := by
    intro env w' h hclean
    refine ⟨⟨_, (h.selected_eq hw hclean).symm⟩, ?_, fun file content => h.mem_processed_iff hw hclean⟩
    have hguard : ∀ word, (dueFile env.tmpdate w word).map Prod.fst
        = Option.guard (fun word => (dueFile env.tmpdate w word).isSome) word := by
      intro word
      cases hdue : dueFile env.tmpdate w word with
      | none => simp [Option.guard, hdue]
      | some due =>
          obtain ⟨file, content⟩ := due
          obtain rfl : word = file := ((dueFile_eq_some hw h.date).1 hdue).1
          simp [Option.guard, hdue]
    rw [h.processed_eq hw hclean, List.map_filterMap, List.filterMap_congr (fun word _ => hguard word),
      List.filterMap_eq_filter]
    exact (h.words_nodup hw).filter _
  others := by
    intro tmpdate name hname
    simp only [List.mem_cons, List.not_mem_nil, or_false] at hname
    rcases hname with rfl | rfl | rfl
    · exact not_selects_processLog tmpdate
    · exact not_selects_cleanresultName tmpdate
    · exact not_selects_resultfilename tmpdate
  wellNamed := fun env w' hclean => hw.clean hclean
  idle := by
    intro env env' w' h h' hdate hclean
    rw [h'.clean_eq]
    refine foldlM_idle (fun file _ => Option.eq_none_iff_forall_not_mem.2 ?_)
    rintro ⟨file', content⟩ hdue
    rw [hdate] at hdue
    exact h.not_due hw hclean file' content ((dueFile_eq_some (hw.clean hclean) h.date).1 hdue).2
  later := by
    rintro env env' w₁ w₂ h h' hle hclean hclean' ⟨file, content⟩ hmem
    obtain ⟨hrec, d, hd, hfile, hbefore⟩ := (h.mem_processed_iff hw hclean).1 hmem
    exact (h'.mem_processed_iff hw hclean').2 ⟨hrec, d, hd, hfile, hbefore.trans hle⟩

/-- **The cutoff selects by time, in every directory of the system's own files**, after any number of
    runs of the script on it. -/
theorem selectionLaw_of_exec (sh : Shell) {w₀ w : World} (h : w₀.WellNamed) {runs : List RunEnv}
    (hruns : Transition.exec clean w₀ runs = some w) : SelectionLaw sh w := by
  have hw : w.WellNamed :=
    Transition.exec_inv (I := World.WellNamed) (fun _ _ _ hI hstep => hI.clean hstep) h hruns
  exact hw.selectionLaw sh

theorem oneRecord_wellNamed : oneRecord.WellNamed := by
  intro file hfile
  have heq : file = tmpfilename (ascii "202001010000") := by
    rw [oneRecord, Std.TreeMap.mem_insert] at hfile
    rcases hfile with heq | hmem
    · exact (Std.LawfulEqCmp.compare_eq_iff_eq.1 heq).symm
    · exact absurd hmem Std.TreeMap.not_mem_emptyc
  rw [heq]
  exact .record (by decide)

/-- A run over the names that `ls` prints, in their order. -/
def listedRun : RunEnv :=
  { oneRun (some 1) with expand := fun names => plainShell.expand (substitution (lsOutput names)) }

theorem lists_listedRun : Lists plainShell listedRun where
  legal := rfl
  date := by decide
  expand := fun names => ⟨names, List.Perm.refl _, rfl⟩

/-- The first run selects the one record file; the law holds of what it leaves behind. -/
theorem selectionLaw_of_exec_one :
    Lists plainShell listedRun ∧ ∃ w, Transition.exec clean oneRecord [listedRun] = some w ∧
      processed oneRecord w = [(tmpfilename (ascii "202001010000"), ascii "group1/M00/a")] ∧
      SelectionLaw plainShell w := by
  obtain ⟨w, hw, hprocessed⟩ : ∃ w, Transition.exec clean oneRecord [listedRun] = some w ∧
      processed oneRecord w = [(tmpfilename (ascii "202001010000"), ascii "group1/M00/a")] :=
    ⟨_, rfl, rfl⟩
  exact ⟨lists_listedRun, w, hw, hprocessed,
    selectionLaw_of_exec plainShell oneRecord_wellNamed hw⟩

end CleanExpire

end FileCacheProxy
