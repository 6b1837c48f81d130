import FileCacheProxy.ConfigReader
import FileCacheProxy.Json
import Mathlib

set_option autoImplicit false

/-! # The batch cleaner (`expireCleaner.cpp`)

`main` of the program that deletes the files named in a list. Everything the program is told from
outside (files, the FastDFS client, the result of each delete) is in `CleanerEnv`; the outcome is
the value it returns, what it prints, and the deletes it asked for. -/

namespace FileCacheProxy

namespace ExpireCleaner

/-- `ID_LEN` -/
def ID_LEN : ℕ := 128

/-- `ECONNREFUSED` -/
def ECONNREFUSED : ℤ := 111

/-- What the outside world answers to one run of the program; `deleteResult n` is the result of the
    `n`-th call of `storage_delete_file1`. -/
structure CleanerEnv where
  fs : Bytes → Option Bytes
  fdfsClientInit : Bytes → ℤ
  trackerGetConnection : Option ℕ
  errno : ℤ
  deleteResult : ℕ → ℤ
  strerror : ℤ → Bytes

/-- What a run leaves behind. -/
structure CleanerRun where
  status : ℤ
  stdout : Bytes
  /-- The calls of `storage_delete_file1`: the `file_id` argument and the result. -/
  calls : List (Bytes × ℤ)

/-- The variables of the loop over the list; `fp` is what is left of the file. -/
structure ListState where
  fp : Bytes
  result : ℤ
  stdout : Bytes
  calls : List (Bytes × ℤ)

/-- What the loop prints for one ID. -/
def report (env : CleanerEnv) (file_id : Bytes) (result : ℤ) : Bytes :=
  if result ≠ 0 then
    ascii "delete file: " ++ file_id ++ ascii " fail, error no: " ++ dumpInteger result ++
      ascii ", error info: " ++ cstr (env.strerror result) ++ [LF]
  else
    ascii "delete file: " ++ file_id ++ ascii " success." ++ [LF]

/-- One pass of `while(fgets(file_id, sizeof(file_id), fp))`, with the read that its condition
    makes. -/
def listPass (env : CleanerEnv) (st : ListState) : Option ListState :=
  (fgets ID_LEN st.fp).map (fun r =>
    let file_id := cstr r.1
    let result := env.deleteResult st.calls.length
    { fp := r.2,
      result := result,
      stdout := st.stdout ++ report env file_id result,
      calls := st.calls ++ [(file_id, result)] })

/-- The loop over a list file; every pass takes at least one byte, so the length of the list is
    budget enough. -/
def listLoop (env : CleanerEnv) (content : Bytes) (st : ListState) : Option ListState :=
  Loop.run (fun st => (fgets ID_LEN st.fp).isSome) (listPass env) content.length st

/-- `main(argc, argv)`; `fuel` bounds the passes of `Config::Load`. -/
def main (env : CleanerEnv) (fuel : ℕ) (argv : List Bytes) : Option CleanerRun :=
  if argv.length < 3 then
    some ⟨1, ascii "Usage: " ++ argv.getD 0 [] ++ ascii " <config_file> <file_of_fileID_list>" ++ [LF],
      []⟩
  else
    match (Config.new (argv.getD 1 [])).load env.fs fuel with
    | none => none
    | some (loaded, conf) =>
        if loaded ≠ 0 then
          -- the first line is that of `Load`
          some ⟨0, ascii "Error opening file" ++ [LF] ++
            (ascii "Cannot open " ++ argv.getD 1 [] ++ ascii "." ++ [LF]), []⟩
        else
          let conf_filename := conf.getValueChars (ascii "clientConfPath")
          let result := env.fdfsClientInit (cstr conf_filename)
          if result ≠ 0 then some ⟨result, [], []⟩
          else
            match env.trackerGetConnection with
            | none => some ⟨if env.errno ≠ 0 then env.errno else ECONNREFUSED, [], []⟩
            | some _ =>
                match env.fs (argv.getD 2 []) with
                | none => some ⟨0, ascii "Cannot open " ++ argv.getD 2 [] ++ ascii "." ++ [LF], []⟩
                | some content =>
                    -- `result` is the 0 of `fdfs_client_init` until the first delete
                    (listLoop env content ⟨content, result, [], []⟩).map
                      (fun st => ⟨st.result, st.stdout, st.calls⟩)

/-! ## The deletes a list leads to -/

/-- The pieces of a list the loop reads, one for each delete. -/
def listPieces (content : Bytes) : List Bytes :=
  fgetsPieces ID_LEN content.length content

theorem flatten_listPieces (content : Bytes) : (listPieces content).flatten = content :=
  fgetsPieces_flatten le_rfl

/-- The pieces of a list without NUL are passed on as they were read. -/
theorem map_cstr_listPieces {content : Bytes} (h : NUL ∉ content) :
    (listPieces content).map cstr = listPieces content := by
  refine (List.map_congr_left (fun piece hpiece => ?_)).trans (List.map_id _)
  refine cstr_eq_self (fun hmem => h ?_)
  rw [← flatten_listPieces content]
  exact List.mem_flatten.2 ⟨piece, hpiece, hmem⟩

/-- The calls `k`, `k + 1`, .. with the arguments `ids`. -/
def callsFrom (env : CleanerEnv) : ℕ → List Bytes → List (Bytes × ℤ)
  | _, [] => []
  | k, id :: ids => (id, env.deleteResult k) :: callsFrom env (k + 1) ids

theorem callsFrom_map_fst (env : CleanerEnv) (k : ℕ) (ids : List Bytes) :
    (callsFrom env k ids).map Prod.fst = ids := by
  induction ids generalizing k with
  | nil => rfl
  | cons id ids ih =>
      unfold callsFrom
      rw [List.map_cons, ih]

/-- The result of the last of some calls, if there were any, else `result`. -/
def lastResult (result : ℤ) (calls : List (Bytes × ℤ)) : ℤ :=
  (calls.getLast?.map Prod.snd).getD result

theorem lastResult_cons (result : ℤ) (call : Bytes × ℤ) (calls : List (Bytes × ℤ)) :
    lastResult result (call :: calls) = lastResult call.2 calls := by
  rw [lastResult, lastResult, List.getLast?_cons]
  cases calls.getLast? <;> rfl

/-- The loop ends, and asks for one delete for each piece; `result` is that of the last one. -/
theorem run_listPass (env : CleanerEnv) {fuel : ℕ} (st : ListState) (h : st.fp.length ≤ fuel) :
    ∃ st', Loop.run (fun st => (fgets ID_LEN st.fp).isSome) (listPass env) fuel st = some st' ∧
      st'.calls = st.calls ++
        callsFrom env st.calls.length ((fgetsPieces ID_LEN fuel st.fp).map cstr) ∧
      st'.result = lastResult st.result
        (callsFrom env st.calls.length ((fgetsPieces ID_LEN fuel st.fp).map cstr)) := by
  induction fuel generalizing st with
  | zero =>
      have hfp : st.fp = [] := List.length_eq_zero_iff.1 (by simpa using h)
      have hstop : (fgets ID_LEN st.fp).isSome = false := by
        rw [hfp]
        rfl
      exact ⟨st, Loop.run_of_not hstop, by simp [fgetsPieces, callsFrom],
        by simp [fgetsPieces, callsFrom, lastResult]⟩
  | succ fuel ih =>
      cases hread : fgets ID_LEN st.fp with
      | none =>
          have hstop : (fgets ID_LEN st.fp).isSome = false := by
            rw [hread]
            rfl
          exact ⟨st, Loop.run_of_not hstop, by simp [fgetsPieces, hread, callsFrom],
            by simp [fgetsPieces, hread, callsFrom, lastResult]⟩
      | some r =>
          obtain ⟨piece, rest⟩ := r
          obtain ⟨hne, happ⟩ := fgets_eq_some hread
          have hpos : 0 < piece.length := List.length_pos_of_ne_nil hne
          obtain ⟨next, hpass, hfp, hresult, hnext⟩ : ∃ next, listPass env st = some next ∧
              next.fp = rest ∧ next.result = env.deleteResult st.calls.length ∧
              next.calls = st.calls ++ [(cstr piece, env.deleteResult st.calls.length)] := by
            rw [listPass, hread]
            exact ⟨_, rfl, rfl, rfl, rfl⟩
          have hshort : next.fp.length ≤ fuel := by
            rw [happ, List.length_append] at h
            rw [hfp]
            omega
          obtain ⟨st', hrun, hcalls, hlast⟩ := ih next hshort
          refine ⟨st', (Loop.run_succ (by rw [hread]; rfl) hpass).trans hrun, ?_, ?_⟩
          · rw [hcalls, hfp, hnext, fgetsPieces, hread]
            simp only [List.map_cons, callsFrom, List.length_append, List.length_singleton,
              List.append_assoc, List.singleton_append]
          · rw [hlast, hfp, hresult, hnext, fgetsPieces, hread]
            simp only [List.map_cons, callsFrom, lastResult_cons, List.length_append,
              List.length_singleton]

theorem listLoop_calls (env : CleanerEnv) (content : Bytes) (result : ℤ) :
    ∃ st, listLoop env content ⟨content, result, [], []⟩ = some st ∧
      st.calls = callsFrom env 0 ((listPieces content).map cstr) ∧
      st.result = lastResult result st.calls := by
  obtain ⟨st, hrun, hcalls, hlast⟩ := run_listPass env ⟨content, result, [], []⟩ le_rfl
  have hall : st.calls = callsFrom env 0 ((listPieces content).map cstr) := by
    simpa [listPieces] using hcalls
  exact ⟨st, hrun, hall, by rw [hall]; exact hlast⟩

/-- The answers with which the program gets to the tracker. -/
structure Connects (env : CleanerEnv) (fuel : ℕ) (config : Bytes) : Prop where
  load : ∃ conf, (Config.new config).load env.fs fuel = some (0, conf) ∧
    env.fdfsClientInit (cstr (conf.getValueChars (ascii "clientConfPath"))) = 0
  connected : env.trackerGetConnection.isSome

/-- The answers with which the program gets to its loop, over the list `content`. -/
structure Reaches (env : CleanerEnv) (fuel : ℕ) (config list content : Bytes) : Prop where
  load : ∃ conf, (Config.new config).load env.fs fuel = some (0, conf) ∧
    env.fdfsClientInit (cstr (conf.getValueChars (ascii "clientConfPath"))) = 0
  connected : env.trackerGetConnection.isSome
  opened : env.fs list = some content

/-- How a run of the program ends that has got through `Config::Load`. -/
inductive Outcome (env : CleanerEnv) (fuel : ℕ) (config list : Bytes) (run : CleanerRun) : Prop where
  | configFails (conf : Config) (loaded : ℤ)
      (hload : (Config.new config).load env.fs fuel = some (loaded, conf)) (hne : loaded ≠ 0)
      (hstatus : run.status = 0) (hcalls : run.calls = [])
  | notConnected (hnot : ¬ Connects env fuel config) (hstatus : run.status ≠ 0)
      (hcalls : run.calls = [])
  | listFails (hconn : Connects env fuel config) (hnone : env.fs list = none)
      (hstatus : run.status = 0) (hcalls : run.calls = [])
  | looped (content : Bytes) (hreach : Reaches env fuel config list content)
      (hstatus : run.status = lastResult 0 run.calls)
      (hcalls : run.calls = callsFrom env 0 ((listPieces content).map cstr))

theorem main_cases (env : CleanerEnv) {fuel : ℕ} {r : ℤ × Config} (argv0 config list : Bytes)
    (hload : (Config.new config).load env.fs fuel = some r) :
    ∃ run, main env fuel [argv0, config, list] = some run ∧ Outcome env fuel config list run := by
  obtain ⟨loaded, conf⟩ := r
  have hargc : ¬ ([argv0, config, list].length < 3) := by simp
  have h1 : [argv0, config, list].getD 1 [] = config := rfl
  have h2 : [argv0, config, list].getD 2 [] = list := rfl
  unfold main
  rw [if_neg hargc, h1, h2, hload]
  dsimp only
  by_cases hloaded : loaded = 0
  · rw [if_neg (not_not.2 hloaded)]
    rw [hloaded] at hload
    by_cases hinit : env.fdfsClientInit (cstr (conf.getValueChars (ascii "clientConfPath"))) = 0
    · rw [if_neg (not_not.2 hinit)]
      cases hconn : env.trackerGetConnection with
      | none =>
          refine ⟨_, rfl, .notConnected (fun h => ?_) ?_ rfl⟩
          · have hsome := h.connected
            rw [hconn] at hsome
            cases hsome
          · dsimp only
            split_ifs with herrno
            · exact herrno
            · decide
      | some server =>
          have hc : Connects env fuel config := ⟨⟨conf, hload, hinit⟩, by rw [hconn]; rfl⟩
          dsimp only
          cases hopen : env.fs list with
          | none => exact ⟨_, rfl, .listFails hc hopen rfl rfl⟩
          | some content =>
              obtain ⟨st, hrun, hcalls, hlast⟩ := listLoop_calls env content 0
              dsimp only
              rw [hinit, hrun]
              exact ⟨_, rfl, .looped content ⟨hc.load, hc.connected, hopen⟩ hlast hcalls⟩
    · rw [if_pos hinit]
      refine ⟨_, rfl, .notConnected (fun h => ?_) hinit rfl⟩
      obtain ⟨conf', hload', hinit'⟩ := h.load
      rw [hload, Option.some.injEq, Prod.mk.injEq] at hload'
      exact hinit (hload'.2 ▸ hinit')
  · rw [if_pos hloaded]
    exact ⟨_, rfl, .configFails conf loaded hload hloaded rfl rfl⟩

/-- **What a run of the program deletes**: if it gets to its loop, one call for each piece of the
    list, else nothing. -/
theorem main_calls (env : CleanerEnv) {fuel : ℕ} {r : ℤ × Config} (argv0 config list : Bytes)
    (hload : (Config.new config).load env.fs fuel = some r) :
    ∃ run, main env fuel [argv0, config, list] = some run ∧
      ((∃ content, Reaches env fuel config list content ∧
          run.calls = callsFrom env 0 ((listPieces content).map cstr)) ∨
        ((∀ content, ¬ Reaches env fuel config list content) ∧ run.calls = [])) := by
  obtain ⟨run, hrun, hout⟩ := main_cases env argv0 config list hload
  refine ⟨run, hrun, ?_⟩
  cases hout with
  | configFails conf loaded hload hne _ hcalls =>
      refine Or.inr ⟨fun content hr => ?_, hcalls⟩
      obtain ⟨conf', hload', -⟩ := hr.load
      rw [hload, Option.some.injEq, Prod.mk.injEq] at hload'
      exact hne hload'.1
  | notConnected hnot _ hcalls =>
      exact Or.inr ⟨fun content hr => hnot ⟨hr.load, hr.connected⟩, hcalls⟩
  | listFails _ hnone _ hcalls =>
      exact Or.inr ⟨fun content hr => absurd (hnone.symm.trans hr.opened) (by simp), hcalls⟩
  | looped content hreach _ hcalls => exact Or.inl ⟨content, hreach, hcalls⟩

/-- A run that ends has got through `Config::Load`. -/
theorem load_of_main {env : CleanerEnv} {fuel : ℕ} {argv0 config list : Bytes} {run : CleanerRun}
    (h : main env fuel [argv0, config, list] = some run) :
    ∃ r, (Config.new config).load env.fs fuel = some r := by
  cases hload : (Config.new config).load env.fs fuel with
  | some r => exact ⟨r, rfl⟩
  | none =>
      have hargc : ¬ ([argv0, config, list].length < 3) := by simp
      have h1 : [argv0, config, list].getD 1 [] = config := rfl
      unfold main at h
      rw [if_neg hargc, h1, hload] at h
      cases h

end ExpireCleaner

end FileCacheProxy
