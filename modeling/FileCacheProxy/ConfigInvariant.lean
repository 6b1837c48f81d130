import FileCacheProxy.ConfigFormat
import FileCacheProxy.Init
import FileCacheProxy.Lib.Transition
import Mathlib

set_option autoImplicit false

/-! # What a `Config` can hold

Over any number of calls of `Load`, on files of any content, the entries of the map stay small and
clean: `getline` stores at most 99 characters of a line, at least one of them separates the two
pieces of an item, and `trim` only shrinks. That is also why the copy of `clientConfPath` into a
fixed buffer of `init` always has room. -/

namespace FileCacheProxy

/-! ## Entries -/

/-- A key or a value of the map. -/
structure FieldOk (s : Bytes) : Prop where
  no_eq : EQ ∉ s
  no_lf : LF ∉ s
  no_nul : NUL ∉ s
  stripped : Cut.Stripped isspace s

structure ItemOk (k v : Bytes) : Prop where
  key : FieldOk k
  value : FieldOk v
  length : k.length + v.length ≤ 98

def ItemsOk (m : Std.TreeMap Bytes Bytes) : Prop :=
  ∀ k v : Bytes, m[k]? = some v → ItemOk k v

/-- The entries of `m` are there in `m'`, with their values. -/
def Extends (m m' : Std.TreeMap Bytes Bytes) : Prop :=
  ∀ k v : Bytes, m[k]? = some v → m'[k]? = some v

/-- A stripped piece of a line. -/
theorem fieldOk_strip {line p : Bytes} (hLF : LF ∉ line) (hp : p ∈ Cut.pieces EQ (cstr line)) :
    FieldOk (Cut.strip isspace p) := by
  obtain ⟨heq, hsub⟩ := Cut.mem_pieces hp
  obtain ⟨hstripped, -, hmem⟩ := Cut.strip_cases isspace p
  refine ⟨fun h => heq (hmem _ h), fun h => hLF ?_, fun h => ?_, hstripped⟩
  · exact (List.takeWhile_sublist _).subset (hsub _ (hmem _ h))
  · exact NUL_not_mem_cstr line (hsub _ (hmem _ h))

theorem lineItem_ok {line k v : Bytes} (hLF : LF ∉ line) (hlen : line.length ≤ 99)
    (h : lineItem line = some (k, v)) : ItemOk k v := by
  obtain ⟨q, ⟨p, hpq, rfl⟩, rfl⟩ := lineItem_eq_some_iff.1 h
  have hp : p ∈ Cut.pieces EQ (cstr line) := by simp [hpq]
  have hq : q ∈ Cut.pieces EQ (cstr line) := by simp [hpq]
  refine ⟨fieldOk_strip hLF hp, fieldOk_strip hLF hq, ?_⟩
  -- the separator between the pieces is the byte that makes 98 of 99
  have hsum := Cut.length_pieces EQ (cstr line)
  have hline := cstr_length_le line
  have hkey := (Cut.strip_cases isspace p).2.1
  have hval := (Cut.strip_cases isspace q).2.1
  simp only [hpq, List.map_cons, List.map_nil, List.sum_cons, List.sum_nil, List.length_cons,
    List.length_nil] at hsum
  omega

theorem ItemsOk.insertItem {m : Std.TreeMap Bytes Bytes} (hm : ItemsOk m) {line : Bytes}
    (hLF : LF ∉ line) (hlen : line.length ≤ 99) : ItemsOk (insertItem m (lineItem line)) := by
  intro k v hkv
  rw [getElem?_insertItem] at hkv
  cases hold : m[k]? with
  | some v' =>
      rw [hold, Option.some_or] at hkv
      exact hm k v (hold.trans hkv)
  | none =>
      rw [hold, Option.none_or] at hkv
      cases hitem : lineItem line with
      | none => simp [hitem] at hkv
      | some kv =>
          obtain ⟨k', v'⟩ := kv
          have hok := lineItem_ok hLF hlen hitem
          rw [hitem, Option.toList_some, List.lookup_cons] at hkv
          split at hkv
          · next heq =>
              cases hkv
              rw [beq_iff_eq.1 heq]
              exact hok
          · cases hkv

theorem extends_insertItem (m : Std.TreeMap Bytes Bytes) (item : Option (Bytes × Bytes)) :
    Extends m (insertItem m item) := by
  intro k v hkv
  rw [getElem?_insertItem, hkv, Option.some_or]

/-! ## Calls of `Load`, pass by pass -/

/-- What can happen to an object: a call of `Load` that opens its file or does not, and one pass of
    its loop. -/
inductive LoadMove where
  | openFile (content : Bytes)
  | openFails
  | pass

/-- A call begins when no other one is going on; its loop goes on until `eof()`. -/
def loadStep (st : LoadState) : LoadMove → Option LoadState
  | .openFile content =>
      if st.fConfig.eofbit then some ⟨IStream.open content, st.mItems⟩ else none
  | .openFails => if st.fConfig.eofbit then some st else none
  | .pass => if st.fConfig.eofbit then none else loadPass st

/-- An object with the map `mItems`, between two calls. -/
def LoadState.idle (mItems : Std.TreeMap Bytes Bytes) : LoadState :=
  ⟨⟨[], true, false⟩, mItems⟩

/-- A move leaves the map as it is, or inserts what a line of at most 99 bytes defines. -/
theorem loadStep_cases {st st' : LoadState} {move : LoadMove} (h : loadStep st move = some st') :
    st'.mItems = st.mItems ∨
    ∃ line, LF ∉ line ∧ line.length ≤ 99 ∧ st'.mItems = insertItem st.mItems (lineItem line) := by
  cases move with
  | openFile content =>
      simp only [loadStep] at h
      split at h
      · cases h
        exact Or.inl rfl
      · cases h
  | openFails =>
      simp only [loadStep] at h
      split at h
      · cases h
        exact Or.inl rfl
      · cases h
  | pass =>
      simp only [loadStep] at h
      split at h
      · cases h
      · obtain ⟨hLF, hlen⟩ := st.fConfig.getline_stored 100
        rw [loadPass_eq st rfl hlen] at h
        cases h
        exact Or.inr ⟨_, hLF, hlen, rfl⟩

theorem ItemsOk.step {st st' : LoadState} {move : LoadMove} (hm : ItemsOk st.mItems)
    (h : loadStep st move = some st') : ItemsOk st'.mItems := by
  rcases loadStep_cases h with heq | ⟨line, hLF, hlen, heq⟩
  · rw [heq]
    exact hm
  · rw [heq]
    exact hm.insertItem hLF hlen

theorem extends_step {st st' : LoadState} {move : LoadMove} (h : loadStep st move = some st') :
    Extends st.mItems st'.mItems := by
  rcases loadStep_cases h with heq | ⟨line, -, -, heq⟩
  · rw [heq]
    exact fun _ _ hkv => hkv
  · rw [heq]
    exact extends_insertItem _ _

theorem itemsOk_of_exec {moves : List LoadMove} {st : LoadState}
    (h : Transition.exec loadStep (.idle ∅) moves = some st) : ItemsOk st.mItems := by
  refine Transition.exec_inv (I := fun st => ItemsOk st.mItems)
    (fun _ _ _ hm hstep => hm.step hstep) ?_ h
  intro k v hkv
  simp [LoadState.idle] at hkv

theorem extends_of_exec {st st' : LoadState} {moves : List LoadMove}
    (h : Transition.exec loadStep st moves = some st') : Extends st.mItems st'.mItems := by
  refine Transition.exec_inv (I := fun t => Extends st.mItems t.mItems)
    (fun _ _ _ hm hstep => ?_) (fun _ _ hkv => hkv) h
  exact fun k v hkv => extends_step hstep k v (hm k v hkv)

/-- A call of `Load` that comes back is a run of these moves. -/
theorem Config.exec_of_load {fs : Bytes → Option Bytes} {fuel : ℕ} {c c' : Config} {r : ℤ}
    (h : c.load fs fuel = some (r, c')) :
    ∃ moves fConfig, Transition.exec loadStep (.idle c.mItems) moves = some ⟨fConfig, c'.mItems⟩ ∧
      fConfig.eofbit = true := by
  unfold Config.load at h
  split at h
  · cases h
    exact ⟨[.openFails], _, rfl, rfl⟩
  · next content _ =>
      obtain ⟨st, hrun, heq⟩ := Option.map_eq_some_iff.1 h
      cases heq
      have hpasses : ∀ s s', (∃ moves, Transition.exec loadStep (.idle c.mItems) moves = some s) →
          (!s.fConfig.eofbit) = true → loadPass s = some s' →
          ∃ moves, Transition.exec loadStep (.idle c.mItems) moves = some s' := by
        rintro s s' ⟨moves, hmoves⟩ hguard hpass
        refine ⟨moves ++ [.pass], Transition.exec_snoc hmoves ?_⟩
        rw [loadStep, if_neg (by simpa using hguard)]
        exact hpass
      obtain ⟨⟨moves, hmoves⟩, hexit⟩ := Loop.run_inv (fun st => !st.fConfig.eofbit) loadPass
        hpasses ⟨[.openFile content], rfl⟩ hrun
      exact ⟨moves, st.fConfig, hmoves, by simpa using hexit⟩

/-! ## The copy of `clientConfPath` -/

/-- A buffer of `PATH_LEN` bytes with the C string `value` and its NUL in front. -/
structure PathStored (value mClientConfPath : Bytes) : Prop where
  length : mClientConfPath.length = PATH_LEN
  text : cstr mClientConfPath = value
  terminated : ∃ rest, mClientConfPath = value ++ NUL :: rest

theorem pathStored_strncpyPath {value : Bytes} (hNUL : NUL ∉ value) (hlen : value.length < PATH_LEN) :
    PathStored value (strncpyPath value) := by
  obtain ⟨k, hk⟩ : ∃ k, PATH_LEN = value.length + (k + 1) := ⟨PATH_LEN - value.length - 1, by omega⟩
  have htake : (List.replicate PATH_LEN NUL).take (k + 1) = NUL :: List.replicate k NUL := by
    rw [List.take_replicate, min_eq_left (by omega), List.replicate_succ]
  have heq : strncpyPath value = value ++ NUL :: List.replicate k NUL := by
    rw [strncpyPath, cstr_eq_self hNUL, hk, List.take_length_add_append, ← hk, htake]
  refine ⟨?_, ?_, _, heq⟩
  · rw [heq, List.length_append, List.length_cons, List.length_replicate, hk]
  · rw [heq, ← List.replicate_succ, cstr_append_replicate, cstr_eq_self hNUL]

/-- A value of the map is short, and has no NUL. -/
theorem ItemsOk.getValueChars {c : Config} (h : ItemsOk c.mItems) (Key : Bytes) :
    NUL ∉ c.getValueChars Key ∧ (c.getValueChars Key).length ≤ 98 := by
  unfold Config.getValueChars
  cases hv : c.mItems[cstr Key]? with
  | none => exact ⟨List.not_mem_nil, Nat.zero_le _⟩
  | some v =>
      have hok := h _ _ hv
      have hlen := hok.length
      exact ⟨hok.value.no_nul, by rw [Option.getD_some]; omega⟩

/-- Only `loadConfig` sets `myConfig`. -/
theorem InitStmt.exec_myConfig (env : InitEnv) (p : Proxy) {stmt : InitStmt}
    (h : stmt ≠ .loadConfig) : (stmt.exec env p).proxy.myConfig = p.myConfig := by
  cases stmt with
  | loadConfig => exact absurd rfl h
  | _ =>
      simp only [InitStmt.exec]
      (try split_ifs) <;> rfl

/-- A file that is loaded gives a map that `Load` can make. -/
theorem itemsOk_of_loadConfig {env : InitEnv} {p q : Proxy}
    (h : InitStmt.loadConfig.exec env p = .next q) : ItemsOk q.myConfig.mItems := by
  simp only [InitStmt.exec] at h
  split at h
  · cases h
  · next result myConfig hload =>
      split_ifs at h
      cases h
      obtain ⟨moves, fConfig, hmoves, -⟩ := Config.exec_of_load hload
      exact itemsOk_of_exec hmoves

/-- Where `init` reads `clientConfPath`, it works with such a map. -/
theorem itemsOk_of_runStmts {env : InitEnv} {p q : Proxy}
    (h : runStmts env (initStmts.takeWhile (· ≠ .readClientConfPath)) p = .next q) :
    ItemsOk q.myConfig.mItems := by
  obtain ⟨before, after, r, r', hstmts, hexec, hafter⟩ :=
    exists_of_runStmts_next .loadConfig (by decide) h
  have honce : InitStmt.loadConfig ∉ after := by
    have hnodup : (initStmts.takeWhile (· ≠ .readClientConfPath)).Nodup := by decide
    rw [hstmts, List.nodup_middle, List.nodup_cons] at hnodup
    exact fun hmem => hnodup.1 (List.mem_append_right _ hmem)
  have hkeep : ItemsOk (runStmts env after r').proxy.myConfig.mItems := by
    refine runStmts_keeps (Q := fun p => ItemsOk p.myConfig.mItems) (fun stmt hmem p' hp' => ?_)
      (itemsOk_of_loadConfig hexec)
    have hne : stmt ≠ .loadConfig := fun he => honce (he ▸ hmem)
    rw [stmt.exec_myConfig env p' hne]
    exact hp'
  rw [hafter] at hkeep
  exact hkeep

/-- The invariant of `Config`, and what it is good for in `init`. -/
structure ConfigInvariant : Prop where
  items : ∀ moves st, Transition.exec loadStep (.idle ∅) moves = some st → ItemsOk st.mItems
  kept : ∀ moves st, Transition.exec loadStep (.idle ∅) moves = some st →
    ∀ more st', Transition.exec loadStep st more = some st' → Extends st.mItems st'.mItems
  stored : ∀ (env : InitEnv) (p q r : Proxy),
    runStmts env (initStmts.takeWhile (· ≠ .readClientConfPath)) p = .next q →
    InitStmt.readClientConfPath.exec env q = .next r →
    PathStored (q.myConfig.getValueChars (ascii "clientConfPath")) r.mClientConfPath

/-- **Every `Config` keeps the invariant**: whenever a pass of `Load` begins or ends, in any sequence of
    calls on files of any content. -/
theorem config_invariant : ConfigInvariant := by
  refine ⟨fun _ _ => itemsOk_of_exec, fun _ _ _ _ _ => extends_of_exec, fun env p q r hq hr => ?_⟩
  obtain ⟨hNUL, hlen⟩ := (itemsOk_of_runStmts hq).getValueChars (ascii "clientConfPath")
  have hlong : PATH_LEN = 256 := rfl
  have hstored := pathStored_strncpyPath hNUL (by omega)
  simp only [InitStmt.exec] at hr
  split_ifs at hr
  cases hr
  exact hstored

end FileCacheProxy
