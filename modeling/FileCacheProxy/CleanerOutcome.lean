import FileCacheProxy.ConfigFormat
import FileCacheProxy.ExpireCleaner
import Mathlib

set_option autoImplicit false

/-! # What the batch cleaner reports, and what it reads

Two questions about a run of `expireCleaner`: whether the value that `main` returns tells success from
failure, and whether the IDs of a list are the arguments of the deletes. One variable holds the
result of the client's initialisation and then that of every delete in turn, and `fgets` keeps the
newline of a line that fits into 127 bytes. -/

namespace FileCacheProxy

namespace ExpireCleaner

/-! ## The exit status -/

/-- Everything has worked: the program gets to its loop, and every delete succeeds. -/
def Succeeds (env : CleanerEnv) (fuel : ℕ) (config list : Bytes) : Prop :=
  ∃ content, Reaches env fuel config list content ∧
    ∀ k < (listPieces content).length, env.deleteResult k = 0

/-- `main` returns 0 exactly when everything has worked. -/
def StatusLaw (env : CleanerEnv) (argv0 config list : Bytes) : Prop :=
  (∃ fuel run, main env fuel [argv0, config, list] = some run ∧ run.status = 0) ↔
    ∃ fuel, Succeeds env fuel config list

/-- The answers that the status tells right. -/
structure StatusTells (env : CleanerEnv) (config list : Bytes) : Prop where
  /-- The config file can be opened. -/
  configOpens : (env.fs config).isSome
  /-- Once the program is connected, the list can be opened. -/
  listOpens : ∀ fuel, Connects env fuel config → (env.fs list).isSome
  /-- In its loop, no delete fails before a last one that succeeds. -/
  lastTells : ∀ fuel content, Reaches env fuel config list content →
    ∀ n, (listPieces content).length = n + 1 → env.deleteResult n = 0 →
      ∀ k < n, env.deleteResult k = 0

theorem callsFrom_concat (env : CleanerEnv) (k : ℕ) (ids : List Bytes) (id : Bytes) :
    callsFrom env k (ids ++ [id])
      = callsFrom env k ids ++ [(id, env.deleteResult (k + ids.length))] := by
  induction ids generalizing k with
  | nil => rfl
  | cons id' ids ih =>
      have hnext : k + 1 + ids.length = k + (id' :: ids).length := by
        rw [List.length_cons]
        omega
      rw [List.cons_append, callsFrom, ih, hnext, callsFrom, List.cons_append]

/-- The result of the last of `n + 1` calls. -/
theorem lastResult_callsFrom (env : CleanerEnv) {ids : List Bytes} {n : ℕ}
    (h : ids.length = n + 1) : lastResult 0 (callsFrom env 0 ids) = env.deleteResult n := by
  obtain ⟨ids', id, rfl⟩ : ∃ ids' id, ids = ids' ++ [id] :=
    ⟨_, _, (List.dropLast_append_getLast (List.ne_nil_of_length_eq_add_one h)).symm⟩
  have hlen : ids'.length = n := by simpa using h
  rw [callsFrom_concat, lastResult, List.getLast?_concat, hlen, Nat.zero_add]
  rfl

/-- `Load` reports a failure exactly when the file cannot be opened. -/
theorem load_fails_iff {fs : Bytes → Option Bytes} {c conf : Config} {fuel : ℕ} {loaded : ℤ}
    (h : c.load fs fuel = some (loaded, conf)) : loaded ≠ 0 ↔ fs c.filePath = none := by
  unfold Config.load at h
  split at h
  · next hnone =>
      cases h
      exact iff_of_true (by decide) hnone
  · next content hsome =>
      obtain ⟨st, -, heq⟩ := Option.map_eq_some_iff.1 h
      cases heq
      refine iff_of_false (fun hne => hne rfl) (fun hnone => ?_)
      exact absurd (hsome.symm.trans hnone) (by simp)

/-- A run that gets to its loop returns the result of the last delete. -/
theorem main_of_reaches {env : CleanerEnv} {fuel : ℕ} {config list content : Bytes}
    (argv0 : Bytes) (h : Reaches env fuel config list content) :
    ∃ run, main env fuel [argv0, config, list] = some run ∧
      run.calls = callsFrom env 0 ((listPieces content).map cstr) ∧
      run.status = lastResult 0 run.calls := by
  obtain ⟨conf, hload, hinit⟩ := h.load
  obtain ⟨run, hrun, hout⟩ := main_cases env argv0 config list hload
  refine ⟨run, hrun, ?_⟩
  cases hout with
  | configFails conf' loaded hload' hne hstatus hcalls =>
      rw [hload, Option.some.injEq, Prod.mk.injEq] at hload'
      exact absurd hload'.1.symm hne
  | notConnected hnot hstatus hcalls => exact absurd ⟨h.load, h.connected⟩ hnot
  | listFails hconn hnone hstatus hcalls => exact absurd (hnone.symm.trans h.opened) (by simp)
  | looped content' hreach hstatus hcalls =>
      have hcontent : content' = content := Option.some.inj (hreach.opened.symm.trans h.opened)
      exact ⟨hcontent ▸ hcalls, hstatus⟩

/-- The status of a run over a list that is not empty is the result of its last delete. -/
theorem status_of_reaches {env : CleanerEnv} {fuel n : ℕ} {config list content : Bytes}
    {run : CleanerRun} (argv0 : Bytes) (h : Reaches env fuel config list content)
    (hlen : (listPieces content).length = n + 1)
    (hrun : main env fuel [argv0, config, list] = some run) : run.status = env.deleteResult n := by
  obtain ⟨run', hrun', hcalls, hstatus⟩ := main_of_reaches argv0 h
  cases Option.some.inj (hrun'.symm.trans hrun)
  rw [hstatus, hcalls]
  exact lastResult_callsFrom env ((List.length_map cstr).trans hlen)

/-- A config that cannot be opened ends the program with 0. -/
theorem main_of_config_none {env : CleanerEnv} {config : Bytes} (argv0 list : Bytes)
    (hnone : env.fs config = none) :
    ∃ run, main env 0 [argv0, config, list] = some run ∧ run.status = 0 := by
  have hpath : env.fs (Config.new config).filePath = none := hnone
  have hload : (Config.new config).load env.fs 0
      = some (ERR_FILE_OPEN_FAILED, Config.new config) := by
    unfold Config.load
    rw [hpath]
  have hargc : ¬ ([argv0, config, list].length < 3) := by simp
  have h1 : [argv0, config, list].getD 1 [] = config := rfl
  have hfail : ERR_FILE_OPEN_FAILED ≠ 0 := by decide
  unfold main
  rw [if_neg hargc, h1, hload]
  dsimp only
  rw [if_pos hfail]
  exact ⟨_, rfl, rfl⟩

/-- A list that cannot be opened ends the program with 0. -/
theorem main_of_list_none {env : CleanerEnv} {fuel : ℕ} {config list : Bytes} (argv0 : Bytes)
    (hconn : Connects env fuel config) (hnone : env.fs list = none) :
    ∃ run, main env fuel [argv0, config, list] = some run ∧ run.status = 0 := by
  obtain ⟨conf, hload, hinit⟩ := hconn.load
  obtain ⟨run, hrun, hout⟩ := main_cases env argv0 config list hload
  refine ⟨run, hrun, ?_⟩
  cases hout with
  | configFails conf' loaded hload' hne hstatus hcalls => exact hstatus
  | notConnected hnot hstatus hcalls => exact absurd hconn hnot
  | listFails hconn' hnone' hstatus hcalls => exact hstatus
  | looped content hreach hstatus hcalls =>
      exact absurd (hnone.symm.trans hreach.opened) (by simp)

/-- Where the law holds, both files open and no failed delete is forgotten. -/
theorem StatusLaw.tells {env : CleanerEnv} {argv0 config list : Bytes}
    (hlaw : StatusLaw env argv0 config list) : StatusTells env config list := by
  refine ⟨?_, fun fuel hconn => ?_, fun fuel content hreach n hlen hlast k hk => ?_⟩
  · by_contra hclosed
    have hnone : env.fs config = none := Option.not_isSome_iff_eq_none.1 hclosed
    obtain ⟨run, hrun, hzero⟩ := main_of_config_none argv0 list hnone
    obtain ⟨fuel, content, hreach, -⟩ := hlaw.1 ⟨0, run, hrun, hzero⟩
    obtain ⟨conf, hload, -⟩ := hreach.load
    exact (load_fails_iff hload).2 hnone rfl
  · by_contra hclosed
    have hnone : env.fs list = none := Option.not_isSome_iff_eq_none.1 hclosed
    obtain ⟨run, hrun, hzero⟩ := main_of_list_none argv0 hconn hnone
    obtain ⟨fuel', content, hreach, -⟩ := hlaw.1 ⟨fuel, run, hrun, hzero⟩
    exact absurd (hnone.symm.trans hreach.opened) (by simp)
  · obtain ⟨run, hrun, -⟩ := main_of_reaches argv0 hreach
    have hzero : run.status = 0 := (status_of_reaches argv0 hreach hlen hrun).trans hlast
    obtain ⟨fuel', content', hreach', hall⟩ := hlaw.1 ⟨fuel, run, hrun, hzero⟩
    cases Option.some.inj (hreach'.opened.symm.trans hreach.opened)
    exact hall k (hlen ▸ Nat.lt_succ_of_lt hk)

/-- With answers that tell, a run that returns 0 has been in its loop, and all deletes worked. -/
theorem StatusTells.succeeds {env : CleanerEnv} {argv0 config list : Bytes} {fuel : ℕ}
    {run : CleanerRun} (htells : StatusTells env config list)
    (hrun : main env fuel [argv0, config, list] = some run) (hzero : run.status = 0) :
    Succeeds env fuel config list := by
  obtain ⟨r, hload⟩ := load_of_main hrun
  obtain ⟨run', hrun', hout⟩ := main_cases env argv0 config list hload
  cases Option.some.inj (hrun'.symm.trans hrun)
  cases hout with
  | configFails conf loaded hload' hne hstatus hcalls =>
      have hnone : env.fs config = none := (load_fails_iff hload').1 hne
      exact absurd htells.configOpens (by rw [hnone]; decide)
  | notConnected hnot hstatus hcalls => exact absurd hzero hstatus
  | listFails hconn hnone hstatus hcalls =>
      exact absurd (htells.listOpens fuel hconn) (by rw [hnone]; decide)
  | looped content hreach hstatus hcalls =>
      refine ⟨content, hreach, fun k hk => ?_⟩
      obtain ⟨n, hlen⟩ : ∃ n, (listPieces content).length = n + 1 :=
        Nat.exists_eq_add_one_of_ne_zero (by omega)
      have hlast : env.deleteResult n = 0 :=
        (status_of_reaches argv0 hreach hlen hrun).symm.trans hzero
      rcases Nat.lt_succ_iff_lt_or_eq.1 (hlen ▸ hk : k < n + 1) with hlt | rfl
      · exact htells.lastTells fuel content hreach n hlen hlast k hlt
      · exact hlast

/-- When everything works, 0 is returned, whatever the answers. -/
theorem Succeeds.status {env : CleanerEnv} {fuel : ℕ} {config list : Bytes} (argv0 : Bytes)
    (h : Succeeds env fuel config list) :
    ∃ run, main env fuel [argv0, config, list] = some run ∧ run.status = 0 := by
  obtain ⟨content, hreach, hall⟩ := h
  obtain ⟨run, hrun, hcalls, hstatus⟩ := main_of_reaches argv0 hreach
  refine ⟨run, hrun, ?_⟩
  cases hlen : (listPieces content).length with
  | zero =>
      rw [hstatus, hcalls, List.length_eq_zero_iff.1 hlen]
      rfl
  | succ n =>
      rw [status_of_reaches argv0 hreach hlen hrun]
      exact hall n (by omega)

/-- **The status tells success from failure exactly when** both files can be opened and no delete
    fails before a last one that succeeds. -/
theorem statusLaw_iff (env : CleanerEnv) (argv0 config list : Bytes) :
    StatusLaw env argv0 config list ↔ StatusTells env config list := by
  constructor
  · exact StatusLaw.tells
  · intro htells
    constructor
    · rintro ⟨fuel, run, hrun, hzero⟩
      exact ⟨fuel, htells.succeeds hrun hzero⟩
    · rintro ⟨fuel, hsucceeds⟩
      obtain ⟨run, hrun, hzero⟩ := hsucceeds.status argv0
      exact ⟨fuel, run, hrun, hzero⟩

/-- A cleaner run with a good config and a list of two IDs, of which the first delete fails. -/
def forgetfulCleaner : CleanerEnv where
  fs path :=
    if path = ascii "list" then some (ascii "group1/M00/a\ngroup1/M00/b\n")
    else some (ascii "clientConfPath = client.conf")
  fdfsClientInit _ := 0
  trackerGetConnection := some 1
  errno := 0
  deleteResult n := if n = 0 then 2 else 0
  strerror _ := ascii "No such file or directory"

/-- The run gets to its loop. -/
theorem forgetfulCleaner_reaches :
    Reaches forgetfulCleaner 1 (ascii "conf") (ascii "list")
      (ascii "group1/M00/a\ngroup1/M00/b\n") where
  load := ⟨_, rfl, rfl⟩
  connected := rfl
  opened := rfl

theorem status_forgets_failure :
    ¬ StatusLaw forgetfulCleaner (ascii "fdfs_batch_delete") (ascii "conf") (ascii "list") := by
  intro hlaw
  obtain ⟨run, hrun, -⟩ := main_of_reaches (ascii "fdfs_batch_delete") forgetfulCleaner_reaches
  have hstatus : run.status = 0 :=
    status_of_reaches (ascii "fdfs_batch_delete") (n := 1) forgetfulCleaner_reaches rfl hrun
  obtain ⟨fuel, content, hreach, hall⟩ := hlaw.1 ⟨1, run, hrun, hstatus⟩
  cases Option.some.inj (hreach.opened.symm.trans forgetfulCleaner_reaches.opened)
  exact absurd (hall 0 (by decide)) (by decide)

/-! ## The arguments of the deletes -/

/-- A file ID as it can stand on a line of a list. -/
structure ListedID where
  text : Bytes
  ne_nil : text ≠ []
  not_mem_LF : LF ∉ text
  not_mem_NUL : NUL ∉ text

/-- A list with one ID per line; `lastLF` says whether the last line ends in a newline. -/
def listFile (ids : List ListedID) (lastLF : Bool) : Bytes :=
  let lines := ids.flatMap (fun id => id.text ++ [LF])
  if lastLF then lines else lines.dropLast

theorem length_lines (ids : List ListedID) :
    (ids.flatMap (fun id => id.text ++ [LF])).length
      = (ids.map ListedID.text).flatten.length + ids.length := by
  induction ids with
  | nil => rfl
  | cons id ids ih =>
      simp only [List.flatMap_cons, List.map_cons, List.flatten_cons, List.length_append,
        List.length_cons, List.length_nil, ih]
      omega

/-- A list is as long as its IDs and its newlines. -/
theorem length_listFile (ids : List ListedID) (lastLF : Bool) :
    (listFile ids lastLF).length
      = (ids.map ListedID.text).flatten.length + (ids.length - if lastLF then 0 else 1) := by
  unfold listFile
  cases lastLF with
  | true => exact length_lines ids
  | false =>
      rw [if_neg (by decide), List.length_dropLast, length_lines, if_neg (by decide)]
      cases ids with
      | nil => rfl
      | cons id ids =>
          rw [List.length_cons]
          omega

theorem NUL_not_mem_listFile (ids : List ListedID) (lastLF : Bool) : NUL ∉ listFile ids lastLF := by
  have hlines : NUL ∉ ids.flatMap (fun id => id.text ++ [LF]) := by
    intro hmem
    obtain ⟨id, -, hid⟩ := List.mem_flatMap.1 hmem
    rcases List.mem_append.1 hid with htext | hLF
    · exact id.not_mem_NUL htext
    · exact absurd (List.mem_singleton.1 hLF) (by decide)
  unfold listFile
  cases lastLF with
  | true => exact hlines
  | false => exact fun hmem => hlines (List.mem_of_mem_dropLast hmem)

/-- The IDs that the loop passes on as they are: none, or a single one without a newline behind it
    that fits into `file_id`. -/
def PassedOn (ids : List ListedID) (lastLF : Bool) : Prop :=
  ids = [] ∨ ∃ id, ids = [id] ∧ lastLF = false ∧ id.text.length ≤ ID_LEN - 1

theorem listFile_single (id : ListedID) : listFile [id] false = id.text := by
  show ((id.text ++ [LF]) ++ []).dropLast = id.text
  rw [List.append_nil, List.dropLast_concat]

theorem listPieces_single {id : ListedID} (h : id.text.length ≤ ID_LEN - 1) :
    listPieces (listFile [id] false) = [id.text] := by
  have hread : fgets ID_LEN id.text = some (id.text, []) := by
    have hne : ¬ id.text.isEmpty = true := fun hnil => id.ne_nil (List.isEmpty_iff.1 hnil)
    unfold fgets
    rw [fgetsScan_whole id.not_mem_LF h]
    exact if_neg hne
  obtain ⟨fuel, hfuel⟩ : ∃ fuel, id.text.length = fuel + 1 :=
    Nat.exists_eq_add_one_of_ne_zero (fun h0 => id.ne_nil (List.length_eq_zero_iff.1 h0))
  rw [listFile_single, listPieces, hfuel, fgetsPieces, hread]
  cases fuel <;> rfl

/-- The pieces together are as long as the list; so are its IDs only if there is no newline. -/
theorem listPieces_listFile_iff (ids : List ListedID) (lastLF : Bool) :
    listPieces (listFile ids lastLF) = ids.map ListedID.text ↔ PassedOn ids lastLF := by
  constructor
  · intro heq
    have hnewlines : (ids.length - if lastLF then 0 else 1) = 0 := by
      have hlen := congrArg List.length (flatten_listPieces (listFile ids lastLF))
      rw [heq, length_listFile] at hlen
      omega
    match ids, hnewlines, heq with
    | [], _, _ => exact Or.inl rfl
    | [id], hnewlines, heq =>
        have hlast : lastLF = false := by
          by_contra htrue
          rw [Bool.not_eq_false] at htrue
          rw [htrue, if_pos rfl] at hnewlines
          exact absurd hnewlines (by simp)
        refine Or.inr ⟨id, rfl, hlast, ?_⟩
        have hmem : id.text ∈ listPieces (listFile [id] lastLF) := by
          rw [heq]
          exact List.mem_singleton_self _
        exact length_le_of_mem_fgetsPieces hmem
    | id₁ :: id₂ :: ids, hnewlines, _ =>
        have hmore : (id₁ :: id₂ :: ids).length = ids.length + 2 := rfl
        rw [hmore] at hnewlines
        split_ifs at hnewlines
        omega
  · rintro (rfl | ⟨id, rfl, rfl, hlen⟩)
    · cases lastLF <;> rfl
    · exact listPieces_single hlen

/-- **The arguments of the deletes are the listed IDs exactly when** there are none, or a single one
    of at most 127 bytes with no newline behind it. -/
theorem deletes_listed_iff {env : CleanerEnv} {fuel : ℕ} {config list : Bytes} (argv0 : Bytes)
    (ids : List ListedID) (lastLF : Bool)
    (h : Reaches env fuel config list (listFile ids lastLF)) :
    ∃ run, main env fuel [argv0, config, list] = some run ∧
      (run.calls.map Prod.fst = ids.map ListedID.text ↔ PassedOn ids lastLF) := by
  obtain ⟨run, hrun, hcalls, -⟩ := main_of_reaches argv0 h
  refine ⟨run, hrun, ?_⟩
  rw [hcalls, callsFrom_map_fst, map_cstr_listPieces (NUL_not_mem_listFile ids lastLF)]
  exact listPieces_listFile_iff ids lastLF

/-- A cleaner run in which every call succeeds, on a list with the one ID `group1/M00/a`. -/
def singleCleaner (list : Bytes) : CleanerEnv where
  fs path := if path = ascii "list" then some list else some (ascii "clientConfPath = client.conf")
  fdfsClientInit _ := 0
  trackerGetConnection := some 1
  errno := 0
  deleteResult _ := 0
  strerror _ := ascii "Success"

/-- `group1/M00/a` -/
def listedA : ListedID where
  text := ascii "group1/M00/a"
  ne_nil := by decide
  not_mem_LF := by decide
  not_mem_NUL := by decide

theorem deletes_listed_iff_single :
    ∃ run, main (singleCleaner (listFile [listedA] false)) 1
        [ascii "fdfs_batch_delete", ascii "conf", ascii "list"] = some run ∧
      (run.calls.map Prod.fst = [listedA].map ListedID.text ↔ PassedOn [listedA] false) :=
  deletes_listed_iff (ascii "fdfs_batch_delete") [listedA] false
    ⟨⟨_, rfl, rfl⟩, rfl, rfl⟩

theorem deletes_keep_newline :
    ∃ run, main (singleCleaner (listFile [listedA] true)) 1
        [ascii "fdfs_batch_delete", ascii "conf", ascii "list"] = some run ∧
      run.calls.map Prod.fst = [ascii "group1/M00/a\n"] ∧
      run.calls.map Prod.fst ≠ [listedA].map ListedID.text :=
  ⟨_, rfl, by decide, by decide⟩

end ExpireCleaner

end FileCacheProxy
