import FileCacheProxy.ConfigReader
import Mathlib

set_option autoImplicit false

/-! # What a configuration file means

The reader of `ConfigReader.lean` against the format it implements. `lineItem` says what one line
of the file defines, independently of streams, positions and maps; `load_lines` shows by induction
over the lines that the stream loop inserts exactly these items in file order, and `getValue` then
returns the first value of a key. The last section writes a map in the format and reads it back. -/

namespace FileCacheProxy

/-! ## The item of a line -/

/-- The item a line defines: its text is cut at every `=`, empty pieces are dropped, and exactly
    two pieces make a key and a value. -/
def lineItem (line : Bytes) : Option (Bytes × Bytes) :=
  match Cut.pieces EQ (cstr line) with
  | [p, q] => some (Cut.strip isspace p, Cut.strip isspace q)
  | _ => none

/-- `line` defines key `K` with the (unstripped) value `q`. -/
def Defines (line K q : Bytes) : Prop :=
  ∃ p, Cut.pieces EQ (cstr line) = [p, q] ∧ Cut.strip isspace p = K

theorem lineItem_eq_some_iff {line K v : Bytes} :
    lineItem line = some (K, v) ↔ ∃ q, Defines line K q ∧ Cut.strip isspace q = v := by
  unfold lineItem Defines
  constructor
  · intro h
    split at h
    · next p q hpq =>
        simp only [Option.some.injEq, Prod.mk.injEq] at h
        exact ⟨q, ⟨p, hpq, h.1⟩, h.2⟩
    · exact absurd h (by simp)
  · rintro ⟨q, ⟨p, hpq, hK⟩, hv⟩
    simp only [hpq, hK, hv]

/-- `map::insert` of what a line defines, if anything. -/
def insertItem (m : Std.TreeMap Bytes Bytes) : Option (Bytes × Bytes) → Std.TreeMap Bytes Bytes
  | some (k, v) => m.insertIfNew k v
  | none => m

/-- The map after the items of `lines`, in order, starting from `m`. -/
def insertLines (m : Std.TreeMap Bytes Bytes) (lines : List Bytes) : Std.TreeMap Bytes Bytes :=
  lines.foldl (fun m line => insertItem m (lineItem line)) m

theorem getElem?_insertItem (m : Std.TreeMap Bytes Bytes) (item : Option (Bytes × Bytes))
    (K : Bytes) :
    (insertItem m item)[K]? = (m[K]?).or (item.toList.lookup K) := by
  cases item with
  | none => simp [insertItem]
  | some kv =>
      obtain ⟨k, v⟩ := kv
      simp only [insertItem, Option.toList_some, Std.TreeMap.getElem?_insertIfNew,
        Std.LawfulEqCmp.compare_eq_iff_eq, List.lookup_cons, List.lookup_nil]
      by_cases hk : k = K
      · subst hk
        by_cases hm : k ∈ m
        · simp [hm]
        · simp [hm]
      · have hne : (K == k) = false := by simpa using fun he => hk he.symm
        simp [hk, hne]

theorem getElem?_insertLines (lines : List Bytes) (m : Std.TreeMap Bytes Bytes) (K : Bytes) :
    (insertLines m lines)[K]? = (m[K]?).or ((lines.filterMap lineItem).lookup K) := by
  induction lines generalizing m with
  | nil => simp [insertLines]
  | cons line lines ih =>
      have hstep : insertLines m (line :: lines)
          = insertLines (insertItem m (lineItem line)) lines := rfl
      rw [hstep, ih, getElem?_insertItem, Option.or_assoc, ← List.lookup_append]
      cases hitem : lineItem line with
      | none => simp [hitem]
      | some kv => simp [hitem]

/-! ## One pass, and the whole file -/

theorem loadPass_eq (st : LoadState) {line : Bytes} {fConfig : IStream}
    (hget : st.fConfig.getline 100 = (line, fConfig)) (hlen : line.length ≤ 99) :
    loadPass st = some ⟨fConfig, insertItem st.mItems (lineItem line)⟩ := by
  have hsplit : split (cstr line) [] EQ
      = some ((Cut.pieces EQ (cstr line)).length, Cut.pieces EQ (cstr line)) := by
    refine split_eq ?_ [] EQ
    have hle := cstr_length_le line
    have hnpos : npos = 2 ^ 64 - 1 := rfl
    omega
  simp only [loadPass, hget, cstr_append_replicate, hsplit, Option.bind_eq_bind, Option.bind_some]
  unfold lineItem
  split
  · next hcnt =>
      split
      · next p q hpq => simp [hpq] at hcnt
      · rfl
  · next hcnt =>
      obtain ⟨p, q, hpq⟩ := List.length_eq_two.1 (not_not.1 hcnt)
      rw [hpq]
      simp [insertItem, trim_eq]

/-- The loop of `Load` reads its lines one by one and inserts their items. The induction is on the
    lines still on the stream; the map holds the items of the lines already consumed. -/
theorem load_lines (lines : List Bytes) (hne : lines ≠ []) :
    ∀ (m : Std.TreeMap Bytes Bytes) (fuel : ℕ), (∀ l ∈ lines, LF ∉ l ∧ l.length ≤ 99) →
      lines.length ≤ fuel →
      ∃ fConfig, Loop.run (fun st => !st.fConfig.eofbit) loadPass fuel
          ⟨IStream.open ([LF].intercalate lines), m⟩ = some ⟨fConfig, insertLines m lines⟩ := by
  induction lines with
  | nil => exact absurd rfl hne
  | cons line lines ih =>
      intro m fuel hlines hfuel
      obtain ⟨fuel, rfl⟩ : ∃ k, fuel = k + 1 := ⟨fuel - 1, by simp at hfuel; omega⟩
      obtain ⟨⟨hLF, hlen⟩, hrest⟩ := List.forall_mem_cons.1 hlines
      cases lines with
      | nil =>
          -- the last line sets `eofbit`, and the loop is left
          have hlast := IStream.getline_last (n := 100) hLF hlen
          have hpass := loadPass_eq ⟨IStream.open line, m⟩ hlast hlen
          refine ⟨⟨[], true, line.isEmpty⟩, ?_⟩
          rw [List.intercalate_singleton, Loop.run_succ (by rfl) hpass, Loop.run_of_not (by rfl)]
          rfl
      | cons next lines =>
          have hget := IStream.getline_line (n := 100) hLF hlen ([LF].intercalate (next :: lines))
          have hpass := loadPass_eq
            ⟨IStream.open (line ++ LF :: [LF].intercalate (next :: lines)), m⟩ hget hlen
          obtain ⟨fConfig, hrun⟩ := ih (by simp) (insertItem m (lineItem line)) fuel hrest
            (by simpa using hfuel)
          refine ⟨fConfig, ?_⟩
          have hjoin : [LF].intercalate (line :: next :: lines)
              = line ++ LF :: [LF].intercalate (next :: lines) := by
            simp [List.intercalate_cons_cons]
          rw [hjoin, Loop.run_succ (by rfl) hpass, hrun]
          rfl

/-- `Load` on a readable file with short lines, in one equation. -/
theorem Config.load_eq {fs : Bytes → Option Bytes} {c : Config} {content : Bytes}
    (hopen : fs c.filePath = some content)
    (hshort : ∀ line ∈ content.splitOn LF, line.length ≤ 99) {fuel : ℕ}
    (hfuel : (content.splitOn LF).length ≤ fuel) :
    c.load fs fuel = some (0, { c with mItems := insertLines c.mItems (content.splitOn LF) }) := by
  obtain ⟨fConfig, hrun⟩ := load_lines (content.splitOn LF) (List.splitOn_ne_nil _ _) c.mItems fuel
    (fun l hl => ⟨Cut.not_mem_of_mem_splitOn hl, hshort l hl⟩) hfuel
  rw [List.intercalate_splitOn] at hrun
  simp [Config.load, hopen, hrun]

/-! ## When `Load` comes back -/

theorem loadPass_fConfig {st st' : LoadState} (h : loadPass st = some st') :
    st'.fConfig = (st.fConfig.getline 100).2 := by
  obtain ⟨⟨cnt, tokens⟩, _, h⟩ := Option.bind_eq_some_iff.1 h
  dsimp only at h
  split_ifs at h <;> cases h <;> rfl

/-- The stream has failed, or there is a line ahead that does not fit into 99 characters. -/
def Overlong (st : LoadState) : Prop :=
  st.fConfig.eofbit = false ∧ (st.fConfig.failbit = true ∨
    ∃ rest, st.fConfig = IStream.open rest ∧ ∃ line ∈ rest.splitOn LF, 99 < line.length)

theorem Overlong.pass {st st' : LoadState} (h : Overlong st) (hpass : loadPass st = some st') :
    Overlong st' := by
  have hstream := loadPass_fConfig hpass
  obtain ⟨heof, hfail | ⟨rest, hopen, line, hline, hlong⟩⟩ := h
  · rw [IStream.getline_of_failbit hfail] at hstream
    rw [Overlong, hstream]
    exact ⟨heof, Or.inl hfail⟩
  · rw [hopen] at hstream
    rcases Cut.findIdx?_cases (· == LF) rest with ⟨-, hall⟩ | ⟨a, c, r, rfl, ha, hc, -⟩
    · -- the long line is the whole rest
      have hLF : LF ∉ rest := fun hmem => by simpa using hall LF hmem
      rw [List.splitOn_eq_singleton hLF, List.mem_singleton] at hline
      have hfull := IStream.getline_full (n := 100) hLF (by rw [← hline]; omega) []
      rw [List.append_nil, ← hstream] at hfull
      exact ⟨hfull.1, Or.inl hfull.2⟩
    · obtain rfl : c = LF := by simpa using hc
      have hLF : LF ∉ a := fun hmem => by simpa using ha LF hmem
      by_cases hfit : a.length ≤ 99
      · -- the first line fits, so the long one comes later
        rw [IStream.getline_line (n := 100) hLF hfit r] at hstream
        rw [List.splitOn_append_cons_self_of_not_mem hLF, List.mem_cons] at hline
        have hr : line ∈ r.splitOn LF := hline.resolve_left (fun he => by rw [he] at hlong; omega)
        refine ⟨by rw [hstream]; rfl, Or.inr ⟨r, hstream, line, hr, hlong⟩⟩
      · have hfull := IStream.getline_full (n := 100) hLF (by omega) (LF :: r)
        rw [← hstream] at hfull
        exact ⟨hfull.1, Or.inl hfull.2⟩

theorem Config.load_overlong {fs : Bytes → Option Bytes} {c : Config} {content line : Bytes}
    (hopen : fs c.filePath = some content) (hline : line ∈ content.splitOn LF)
    (hlong : 99 < line.length) (fuel : ℕ) : c.load fs fuel = none := by
  have hstart : Overlong ⟨IStream.open content, c.mItems⟩ :=
    ⟨rfl, Or.inr ⟨content, rfl, line, hline, hlong⟩⟩
  have hnone := Loop.run_eq_none (fun st => !st.fConfig.eofbit) loadPass
    (fun st hst => by simp [hst.1]) (fun st st' hst hpass => hst.pass hpass) fuel hstart
  rw [Config.load, hopen]
  exact Option.map_eq_none_iff.2 hnone

/-- **`Load` comes back exactly on the files whose lines have at most 99 bytes**: a longer line
    leaves `failbit` set, no later read extracts anything, and `eof()` stays false. -/
theorem Config.load_ends_iff (fs : Bytes → Option Bytes) (c : Config) {content : Bytes}
    (hopen : fs c.filePath = some content) :
    (∃ fuel, (c.load fs fuel).isSome) ↔ ∀ line ∈ content.splitOn LF, line.length ≤ 99 := by
  constructor
  · rintro ⟨fuel, hsome⟩ line hline
    by_contra hlong
    rw [Config.load_overlong hopen hline (by omega)] at hsome
    cases hsome
  · intro hshort
    exact ⟨_, by rw [Config.load_eq hopen hshort le_rfl]; rfl⟩

/-- 99 bytes without a newline are read, NUL bytes among them. -/
theorem Config.load_ends_iff_limit :
    (∀ line ∈ (List.replicate 99 NUL).splitOn LF, line.length ≤ 99) ∧
      ∃ fuel, ((Config.new []).load (fun _ => some (List.replicate 99 NUL)) fuel).isSome :=
  ⟨by decide, (Config.load_ends_iff (fun _ => some (List.replicate 99 NUL)) (Config.new []) rfl).2
    (by decide)⟩

/-- On a comment of 100 bytes the loop goes on for ever. -/
theorem Config.load_hangs :
    ¬ ∃ fuel, ((Config.new []).load (fun _ => some (List.replicate 100 35)) fuel).isSome := by
  have hline : List.replicate 100 35 ∈ (List.replicate 100 35).splitOn LF := by decide
  rintro ⟨fuel, hsome⟩
  have hnone : (Config.new []).load (fun _ => some (List.replicate 100 35)) fuel = none := by
    refine Config.load_overlong ?_ hline ?_ fuel
    · rfl
    · decide
  rw [hnone] at hsome
  cases hsome

/-! ## What `getValue` returns after `Load` -/

/-- Both overloads of `getValue` return `v` for key `K`. -/
def Config.Gives (c : Config) (K v : Bytes) : Prop :=
  c.getValue K = v ∧ ∀ Key, cstr Key = K → c.getValueChars Key = v

theorem Config.gives_of_getElem? {c : Config} {K v : Bytes} (h : (c.mItems[K]?).getD [] = v) :
    c.Gives K v := by
  refine ⟨h, fun Key hKey => ?_⟩
  rw [Config.getValueChars, hKey]
  exact h

theorem lookup_none {lines : List Bytes} {K : Bytes} (h : ∀ l ∈ lines, ∀ q, ¬ Defines l K q) :
    (lines.filterMap lineItem).lookup K = none := by
  rw [List.lookup_eq_none_iff]
  intro kv hkv
  obtain ⟨l, hl, hitem⟩ := List.mem_filterMap.1 hkv
  obtain ⟨q, hdef, _⟩ := lineItem_eq_some_iff.1 hitem
  rw [bne_iff_ne]
  intro he
  exact h l hl q (he ▸ hdef)

theorem lookup_first {before after : List Bytes} {line K q : Bytes} (hline : Defines line K q)
    (hbefore : ∀ l ∈ before, ∀ q', ¬ Defines l K q') :
    ((before ++ line :: after).filterMap lineItem).lookup K = some (Cut.strip isspace q) := by
  have hitem : lineItem line = some (K, Cut.strip isspace q) :=
    lineItem_eq_some_iff.2 ⟨q, hline, rfl⟩
  rw [List.filterMap_append, List.lookup_append, lookup_none hbefore,
    List.filterMap_cons_some hitem]
  simp

/-- **The reader implements the format.** On every readable file whose lines have at most 99
    bytes, `Load` comes back with 0, and `getValue` returns the value of the first line that
    defines the key, or the empty string. -/
theorem Config.load_getValue_first (fs : Bytes → Option Bytes) (path : Bytes) {content : Bytes}
    (hopen : fs path = some content)
    (hshort : ∀ line ∈ content.splitOn LF, line.length ≤ 99) :
    ∃ c : Config,
      (∀ fuel, (content.splitOn LF).length ≤ fuel →
        (Config.new path).load fs fuel = some (0, c)) ∧
      ∀ K,
        (∀ before line after q, content.splitOn LF = before ++ line :: after →
          Defines line K q → (∀ l ∈ before, ∀ q', ¬ Defines l K q') →
          c.Gives K (Cut.strip isspace q)) ∧
        ((∀ line ∈ content.splitOn LF, ∀ q, ¬ Defines line K q) → c.Gives K []) := by
  refine ⟨⟨path, insertLines ∅ (content.splitOn LF)⟩, ?_, ?_⟩
  · intro fuel hfuel
    exact Config.load_eq (c := Config.new path) hopen hshort hfuel
  · intro K
    have hget : (insertLines ∅ (content.splitOn LF))[K]?
        = ((content.splitOn LF).filterMap lineItem).lookup K := by
      rw [getElem?_insertLines]
      simp
    constructor
    · intro before line after q hsplit hline hbefore
      refine Config.gives_of_getElem? ?_
      rw [hget, hsplit, lookup_first hline hbefore]
      rfl
    · intro hno
      refine Config.gives_of_getElem? ?_
      rw [hget, lookup_none hno]
      rfl

/-- Two lines for one key, the second one without a newline: the first one counts. -/
theorem Config.load_getValue_first_port :
    ∃ c : Config,
      (Config.new []).load (fun _ => some (ascii " port =9999 \r\nport==80")) 2 = some (0, c) ∧
      c.Gives (ascii "port") (ascii "9999") := by
  obtain ⟨c, hload, hget⟩ := Config.load_getValue_first
    (fun _ => some (ascii " port =9999 \r\nport==80")) [] rfl (by decide)
  refine ⟨c, hload 2 (by decide), ?_⟩
  exact (hget (ascii "port")).1 [] (ascii " port =9999 \r") [ascii "port==80"]
    (ascii "9999 \r") (by decide) ⟨ascii " port ", by decide, by decide⟩ (by simp)

/-! ## Writing a map in the format -/

/-- A key or a value that can be written: not empty, free of the three bytes with a meaning, and
    without white space at its ends. -/
structure Word where
  text : Bytes
  ne_nil : text ≠ []
  no_eq : EQ ∉ text
  no_lf : LF ∉ text
  no_nul : NUL ∉ text
  stripped : Cut.Stripped isspace text

/-- White space around a key or a value, inside its line. -/
structure Padding where
  text : Bytes
  blank : text.all isspace
  no_lf : LF ∉ text

/-- A line that defines nothing because it has no `=`. -/
structure ExtraLine where
  text : Bytes
  no_eq : EQ ∉ text
  no_lf : LF ∉ text

/-- A line of a written file. -/
inductive ConfLine where
  | entry (padL : Padding) (key : Word) (padR : Padding) (padL' : Padding) (value : Word)
      (padR' : Padding)
  | extra (line : ExtraLine)

def ConfLine.render : ConfLine → Bytes
  | .entry padL key padR padL' value padR' =>
      padL.text ++ key.text ++ padR.text ++ EQ :: (padL'.text ++ value.text ++ padR'.text)
  | .extra line => line.text

/-- The entry of the map a line stands for. -/
def ConfLine.item : ConfLine → Option (Bytes × Bytes)
  | .entry _ key _ _ value _ => some (key.text, value.text)
  | .extra _ => none

/-- The file: one line each, `LF` between them and, when `lastLF`, behind the last one. -/
def renderFile (lines : List ConfLine) (lastLF : Bool) : Bytes :=
  [LF].intercalate (lines.map ConfLine.render) ++ if lastLF then [LF] else []

theorem Padding.isspace_of_mem (pad : Padding) : ∀ c ∈ pad.text, isspace c = true :=
  List.all_eq_true.1 pad.blank

theorem Padding.not_mem (pad : Padding) {c : UInt8} (hc : isspace c = false) : c ∉ pad.text := by
  intro h
  rw [pad.isspace_of_mem c h] at hc
  exact absurd hc (by simp)

/-- A padded word has no byte that neither the word nor white space has. -/
theorem Word.not_mem_padded (padL padR : Padding) {w : Word} {c : UInt8} (hw : c ∉ w.text)
    (hL : c ∉ padL.text) (hR : c ∉ padR.text) : c ∉ padL.text ++ w.text ++ padR.text := by
  simp only [List.mem_append, not_or]
  exact ⟨⟨hL, hw⟩, hR⟩

theorem Word.strip_padded (padL padR : Padding) (w : Word) :
    Cut.strip isspace (padL.text ++ w.text ++ padR.text) = w.text :=
  Cut.strip_pad padL.isspace_of_mem padR.isspace_of_mem w.ne_nil w.stripped

theorem ConfLine.LF_not_mem_render (l : ConfLine) : LF ∉ l.render := by
  cases l with
  | extra line => exact line.no_lf
  | entry padL key padR padL' value padR' =>
      have hk := Word.not_mem_padded padL padR key.no_lf padL.no_lf padR.no_lf
      have hv := Word.not_mem_padded padL' padR' value.no_lf padL'.no_lf padR'.no_lf
      simp only [ConfLine.render, List.mem_append, List.mem_cons, not_or] at hk hv ⊢
      exact ⟨hk, by decide, hv⟩

/-- Reading one line back gives the entry it was written for. -/
theorem lineItem_render (l : ConfLine) : lineItem l.render = l.item := by
  cases l with
  | extra line =>
      have hno : EQ ∉ cstr line.text := fun h => line.no_eq ((List.takeWhile_sublist _).subset h)
      rw [ConfLine.render, lineItem, Cut.pieces_of_not_mem hno, ConfLine.item]
      cases (cstr line.text).isEmpty <;> rfl
  | entry padL key padR padL' value padR' =>
      have hnul : ∀ (a b : Padding) (w : Word), NUL ∉ a.text ++ w.text ++ b.text :=
        fun a b w => Word.not_mem_padded a b w.no_nul (a.not_mem rfl) (b.not_mem rfl)
      have heq : ∀ (a b : Padding) (w : Word), EQ ∉ a.text ++ w.text ++ b.text :=
        fun a b w => Word.not_mem_padded a b w.no_eq (a.not_mem rfl) (b.not_mem rfl)
      have hne : ∀ (a b : Padding) (w : Word), a.text ++ w.text ++ b.text ≠ [] := by
        intro a b w h
        simp only [List.append_eq_nil_iff] at h
        exact w.ne_nil h.1.2
      have hcstr : cstr (ConfLine.entry padL key padR padL' value padR').render
          = (ConfLine.entry padL key padR padL' value padR').render := by
        refine cstr_eq_self ?_
        rw [ConfLine.render, List.mem_append, List.mem_cons]
        rintro (h | h | h)
        · exact hnul padL padR key h
        · exact absurd h (by decide)
        · exact hnul padL' padR' value h
      have hpieces : Cut.pieces EQ (ConfLine.entry padL key padR padL' value padR').render
          = [padL.text ++ key.text ++ padR.text, padL'.text ++ value.text ++ padR'.text] := by
        rw [ConfLine.render, Cut.pieces_append_cons (heq padL padR key) (hne padL padR key),
          Cut.pieces_of_not_mem (heq padL' padR' value),
          if_neg (by simpa using hne padL' padR' value)]
      simp only [lineItem, hcstr, hpieces, Word.strip_padded, ConfLine.item]

/-- The lines of a written file, up to the empty line behind a last newline (or of an empty file). -/
theorem splitOn_renderFile (lines : List ConfLine) (lastLF : Bool) :
    ∃ blank : List Bytes, blank.length ≤ 2 ∧ (∀ l ∈ blank, l = []) ∧
      (renderFile lines lastLF).splitOn LF = lines.map ConfLine.render ++ blank := by
  have hbody : ∃ blank : List Bytes, blank.length ≤ 1 ∧ (∀ l ∈ blank, l = []) ∧
      ([LF].intercalate (lines.map ConfLine.render)).splitOn LF
        = lines.map ConfLine.render ++ blank := by
    cases lines with
    | nil => exact ⟨[[]], by simp, by simp, by simp⟩
    | cons l lines =>
        refine ⟨[], by simp, by simp, ?_⟩
        rw [List.append_nil]
        refine List.splitOn_intercalate LF ?_ (by simp)
        intro r hr
        obtain ⟨l', _, rfl⟩ := List.mem_map.1 hr
        exact l'.LF_not_mem_render
  obtain ⟨blank, hlen, hblank, hsplit⟩ := hbody
  cases lastLF with
  | false => exact ⟨blank, by omega, hblank, by simpa [renderFile] using hsplit⟩
  | true =>
      refine ⟨blank ++ [[]], by simpa using hlen, ?_, ?_⟩
      · intro l hl
        rcases List.mem_append.1 hl with hl | hl
        · exact hblank l hl
        · simpa using hl
      · rw [renderFile, if_pos rfl, List.splitOn_append_cons_self, hsplit]
        simp

theorem lookup_of_mem {l : List (Bytes × Bytes)} (hkeys : (l.map Prod.fst).Nodup) {k v : Bytes}
    (h : (k, v) ∈ l) : l.lookup k = some v := by
  obtain ⟨l₁, l₂, rfl⟩ := List.mem_iff_append.1 h
  refine List.lookup_eq_some_iff.2 ⟨l₁, l₂, rfl, fun p hp => ?_⟩
  rw [List.map_append, List.nodup_append] at hkeys
  rw [bne_iff_ne]
  intro he
  exact hkeys.2.2 p.1 (List.mem_map_of_mem hp) k (by simp) he.symm

theorem lookup_of_not_mem {l : List (Bytes × Bytes)} {k : Bytes} (h : k ∉ l.map Prod.fst) :
    l.lookup k = none := by
  rw [List.lookup_eq_none_iff]
  intro p hp
  rw [bne_iff_ne]
  intro he
  exact h (he ▸ List.mem_map_of_mem hp)

/-- The lines of a written file define what was written. -/
theorem filterMap_lineItem_renderFile (lines : List ConfLine) (lastLF : Bool) :
    ((renderFile lines lastLF).splitOn LF).filterMap lineItem = lines.filterMap ConfLine.item := by
  obtain ⟨blank, -, hblank, hsplit⟩ := splitOn_renderFile lines lastLF
  -- the empty line behind the last newline defines nothing
  have hnone : blank.filterMap lineItem = [] := by
    rw [List.filterMap_eq_nil_iff]
    intro l hl
    rw [hblank l hl]
    rfl
  rw [hsplit, List.filterMap_append, hnone, List.append_nil, List.filterMap_map]
  exact List.filterMap_congr (fun l _ => lineItem_render l)

/-- **Round trip.** A map written in any order, with any padding and any extra lines in between,
    is read back: every entry has its value, and every other key has none. -/
theorem Config.load_renderFile (fs : Bytes → Option Bytes) (path : Bytes) (lines : List ConfLine)
    (lastLF : Bool) (hkeys : ((lines.filterMap ConfLine.item).map Prod.fst).Nodup)
    (hshort : ∀ l ∈ lines, l.render.length ≤ 99)
    (hfile : fs path = some (renderFile lines lastLF)) :
    ∃ c : Config,
      (∀ fuel, lines.length + 2 ≤ fuel → (Config.new path).load fs fuel = some (0, c)) ∧
      (∀ k v, (k, v) ∈ lines.filterMap ConfLine.item → c.Gives k v) ∧
      ∀ k, k ∉ (lines.filterMap ConfLine.item).map Prod.fst → c.Gives k [] := by
  obtain ⟨blank, hlen, hblank, hsplit⟩ := splitOn_renderFile lines lastLF
  have hshort' : ∀ line ∈ (renderFile lines lastLF).splitOn LF, line.length ≤ 99 := by
    intro line hline
    rw [hsplit, List.mem_append] at hline
    rcases hline with hline | hline
    · obtain ⟨l, hl, rfl⟩ := List.mem_map.1 hline
      exact hshort l hl
    · simp [hblank line hline]
  have hget : ∀ K, (insertLines ∅ ((renderFile lines lastLF).splitOn LF))[K]?
      = (lines.filterMap ConfLine.item).lookup K := by
    intro K
    rw [getElem?_insertLines, filterMap_lineItem_renderFile]
    simp
  refine ⟨⟨path, insertLines ∅ ((renderFile lines lastLF).splitOn LF)⟩, ?_, ?_, ?_⟩
  · intro fuel hfuel
    refine Config.load_eq (c := Config.new path) hfile hshort' ?_
    rw [hsplit, List.length_append, List.length_map]
    omega
  · intro k v hkv
    refine Config.gives_of_getElem? ?_
    rw [hget, lookup_of_mem hkeys hkv]
    rfl
  · intro k hk
    refine Config.gives_of_getElem? ?_
    rw [hget, lookup_of_not_mem hk]
    rfl

/-- Two entries of the shipped `fileCacheProxy.conf`, with a comment line between them. -/
def shippedLines : List ConfLine :=
  let pad : Padding := ⟨ascii " ", by decide, by decide⟩
  [.entry pad ⟨ascii "port", by decide, by decide, by decide, by decide, by decide⟩ pad pad
      ⟨ascii "9999", by decide, by decide, by decide, by decide, by decide⟩ pad,
    .extra ⟨ascii "# days to keep", by decide, by decide⟩,
    .entry pad ⟨ascii "expiredays", by decide, by decide, by decide, by decide, by decide⟩ pad pad
      ⟨ascii "5", by decide, by decide, by decide, by decide, by decide⟩ pad]

theorem Config.load_renderFile_shipped :
    ∃ c : Config,
      (Config.new []).load (fun _ => some (renderFile shippedLines true)) 5 = some (0, c) ∧
      c.Gives (ascii "port") (ascii "9999") ∧ c.Gives (ascii "localhost") [] := by
  obtain ⟨c, hload, hin, hout⟩ := Config.load_renderFile
    (fun _ => some (renderFile shippedLines true)) [] shippedLines true (by decide) (by decide) rfl
  exact ⟨c, hload 5 (by decide), hin _ _ (List.mem_of_mem_head? rfl), hout _ (by decide)⟩

end FileCacheProxy
