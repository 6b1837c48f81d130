import FileCacheProxy.ConfigFormat
import FileCacheProxy.Init
import Mathlib

set_option autoImplicit false
-- the facts about all 256 bytes are decided one byte after the other
set_option maxRecDepth 1500

/-! # The two readers of `expiredays`

`fpCleanExpire.sh` reads the item with `awk` and shell expansions, `init` with `Config`. The first two
sections are the two ways from the file to a period: the script's, with the documented behaviour of
`awk -F`, of unquoted expansions, of `echo` and of `[` (what depends on the working directory or on
`date` beyond a plain number is in `Shell`), and the statements of `init`.

The comparison speaks of the lines of the file. `AwkField` says which line `awk` takes and what of it,
`Shell.Reads` what the script does with that field; `ConfSays` says which line `Config` takes and what
`init` makes of its value. Each is shown to be what the code computes (`awkField_iff`, `reads_iff`,
`confSays_iff`), and the readers agree exactly on the files where the two lines go together. -/

namespace FileCacheProxy

namespace CleanExpire

/-! ## The script's side -/

/-- What the shell and `date` decide. -/
structure Shell where
  /-- Pathname expansion of a word with a pattern character. -/
  glob : Bytes → List Bytes
  /-- What `echo -e` makes of its text. -/
  escapes : Bytes → Bytes
  /-- Whether `[ ... \< 1 ]` succeeds on two or more words. -/
  test : List Bytes → Bool
  /-- How many days `date --date "... days ago"` goes back on a word that is no plain number below
      `2 ^ 31` (`none`: it rejects the date, or goes back by something else than days). -/
  date : Bytes → Option ℤ

/-- A character of the default `IFS`. -/
def ifs (c : UInt8) : Bool :=
  c == 32 || c == 9 || c == LF

/-- Word splitting. -/
def words (s : Bytes) : List Bytes :=
  Cut.words ifs s

/-- `*`, `?`, `[` or a backslash occurs. -/
def hasPattern (w : Bytes) : Bool :=
  w.any (fun c => c == 42 || c == 63 || c == 91 || c == 92)

/-- An unquoted expansion of `s`: words, and each of them by its pathname expansion. -/
def Shell.expand (sh : Shell) (s : Bytes) : List Bytes :=
  (words s).flatMap (fun w => if hasPattern w then sh.glob w else [w])

/-- A command substitution: NUL bytes and the newlines at the end are dropped. -/
def substitution (out : Bytes) : Bytes :=
  ((out.filter (· != NUL)).reverse.dropWhile (· == LF)).reverse

/-- `-` and then only `n`, `e` and `E`. -/
def isEchoOption : Bytes → Bool
  | 45 :: c :: cs => (c :: cs).all (fun c => c == 110 || c == 101 || c == 69)
  | _ => false

/-- `echo`; of `-e` and `-E` the last one counts. -/
def Shell.echo (sh : Shell) (args : List Bytes) : Bytes :=
  let flags := (args.takeWhile isEchoOption).flatten
  let text := [32].intercalate (args.dropWhile isEchoOption)
  let interpreted := (flags.filter (fun c => c == 101 || c == 69)).getLast? == some 101
  (if interpreted then sh.escapes text else text) ++ (if flags.contains 110 then [] else [LF])

/-- The item, as the script and `init` name it. -/
def expiredaysItem : Bytes := ascii "expiredays"

/-- `$1 ~ /expiredays/`: the item occurs in the text before the first `=`. -/
def awkMatches (line : Bytes) : Bool :=
  ((line.splitOn EQ).headD []).tails.any (fun s => expiredaysItem.isPrefixOf s)

/-- What `awk` prints: the second field of the first line that matches. -/
def awkOutput (content : Bytes) : Bytes :=
  match (content.splitOn LF).find? awkMatches with
  | some line => (line.splitOn EQ).getD 1 [] ++ [LF]
  | none => []

/-- `ReadConf` -/
def Shell.readConf (sh : Shell) (content : Bytes) : Bytes :=
  sh.echo (sh.expand (substitution (awkOutput content)))

/-- `${expiredays}`, the first word of the array (`none`: the array is empty). -/
def Shell.expiredays (sh : Shell) (content : Bytes) : Option Bytes :=
  (sh.expand (substitution (sh.readConf content))).head?

/-- `[ ${expiredays} \< 1 ]`: with no word the test is an error, which counts as false. -/
def Shell.illegal (sh : Shell) (word : Option Bytes) : Bool :=
  match sh.expand (word.getD []) with
  | [] => false
  | [w] => w < ascii "1"
  | ws => sh.test ws

/-- The number a text of digits stands for. -/
def numeral (digits : Bytes) : ℕ :=
  digits.foldl (fun n c => 10 * n + (c.toNat - 48)) 0

/-- The period of `date --date "${expiredays} days ago"` in days. `date` skips white space, and
    `days ago` without a number is one day. The day of a date is an `int`, so what becomes of a larger
    number is up to `date`. -/
def Shell.days (sh : Shell) (word : Option Bytes) : Option ℤ :=
  let w := Cut.strip isspace (word.getD [])
  if w.isEmpty then some 1
  else if w.all isdigit && numeral w < 2 ^ 31 then some (numeral w)
  else sh.date (word.getD [])

/-! ## The proxy's side -/

/-- The value `Config` has for the item: that of the first line that defines it, or nothing. -/
def confText (content : Bytes) : Bytes :=
  (((content.splitOn LF).filterMap lineItem).lookup expiredaysItem).getD []

/-- What `init` makes of the file. -/
theorem init_expiredays {env : InitEnv} {content : Bytes} (p : Proxy)
    (hopen : env.fs configFileName = some content)
    (hshort : ∀ line ∈ content.splitOn LF, line.length ≤ 99)
    (hpasses : (content.splitOn LF).length ≤ env.loadPasses) :
    ∃ q, runStmts env [.loadConfig, .readExpiredays] p = .next q ∧
      q.expiredays = if confText content = [] ∨ str2int (confText content) < 0 then 7
        else str2int (confText content) := by
  have hload := Config.load_eq (c := Config.new configFileName) hopen hshort hpasses
  have htext : Config.getValueChars ⟨configFileName, insertLines ∅ (content.splitOn LF)⟩
      (ascii "expiredays") = confText content := by
    have hcstr : cstr (ascii "expiredays") = expiredaysItem := by decide
    rw [Config.getValueChars, hcstr, getElem?_insertLines, confText]
    simp
  have hload' : (Config.new configFileName).load env.fs env.loadPasses =
      some (0, ⟨configFileName, insertLines ∅ (content.splitOn LF)⟩) := hload
  simp only [runStmts, InitStmt.exec, hload', ne_eq, not_true, if_false, htext]
  by_cases hempty : confText content = []
  · simp [hempty]
  · have hne : (confText content).isEmpty = false := by simpa using hempty
    simp [hempty, hne]

/-! ## The lines of the file -/

/-- `line` is the first line of the file with `p`. -/
def FirstLine (p : Bytes → Prop) (content line : Bytes) : Prop :=
  ∃ before after, content.splitOn LF = before ++ line :: after ∧ p line ∧ ∀ l ∈ before, ¬ p l

/-- The item stands somewhere before the first `=` of the line. -/
def NamesItem (line : Bytes) : Prop :=
  ∃ a b, line = a ++ (expiredaysItem ++ b) ∧ EQ ∉ a

/-- `f` is the text behind the first `=` of the line, up to the second one if there is one. -/
inductive SecondField : Bytes → Bytes → Prop
  | none {line : Bytes} : EQ ∉ line → SecondField line []
  | last {a f : Bytes} : EQ ∉ a → EQ ∉ f → SecondField (a ++ EQ :: f) f
  | inner {a f rest : Bytes} : EQ ∉ a → EQ ∉ f → SecondField (a ++ EQ :: (f ++ EQ :: rest)) f

/-- `f` is the second field of the first line that names the item, empty without such a line. -/
inductive AwkField (content : Bytes) : Bytes → Prop
  | line {line f : Bytes} : FirstLine NamesItem content line → SecondField line f →
      AwkField content f
  | none : (∀ line ∈ content.splitOn LF, ¬ NamesItem line) → AwkField content []

theorem expiredaysItem_not_mem_EQ : EQ ∉ expiredaysItem := by decide

/-- A line up to its first `=`. -/
theorem splitOn_EQ_cases (line : Bytes) :
    (EQ ∉ line ∧ line.splitOn EQ = [line]) ∨
    ∃ a r, line = a ++ EQ :: r ∧ EQ ∉ a ∧ line.splitOn EQ = a :: r.splitOn EQ := by
  rcases Cut.findIdx?_cases (· == EQ) line with ⟨-, hall⟩ | ⟨a, c, r, rfl, ha, hc, -⟩
  · have hnot : EQ ∉ line := fun hmem => by simpa using hall EQ hmem
    exact Or.inl ⟨hnot, List.splitOn_eq_singleton hnot⟩
  · obtain rfl : c = EQ := by simpa using hc
    have hnot : EQ ∉ a := fun hmem => by simpa using ha EQ hmem
    exact Or.inr ⟨a, r, rfl, hnot, List.splitOn_append_cons_self_of_not_mem hnot r⟩

theorem any_tails_iff {h : Bytes} :
    h.tails.any (fun s => expiredaysItem.isPrefixOf s) = true ↔ ∃ a b, h = a ++ (expiredaysItem ++ b) := by
  rw [List.any_eq_true]
  constructor
  · rintro ⟨s, hs, hp⟩
    obtain ⟨a, rfl⟩ := (List.mem_tails _ _).1 hs
    obtain ⟨b, rfl⟩ := List.isPrefixOf_iff_prefix.1 hp
    exact ⟨a, b, rfl⟩
  · rintro ⟨a, b, rfl⟩
    exact ⟨expiredaysItem ++ b, (List.mem_tails _ _).2 ⟨a, rfl⟩,
      List.isPrefixOf_iff_prefix.2 ⟨b, rfl⟩⟩

theorem awkMatches_iff {line : Bytes} : awkMatches line = true ↔ NamesItem line := by
  unfold awkMatches
  rcases splitOn_EQ_cases line with ⟨hnot, hsplit⟩ | ⟨h, r, rfl, hnot, hsplit⟩
  · rw [hsplit, List.headD_cons, any_tails_iff]
    constructor
    · rintro ⟨a, b, rfl⟩
      exact ⟨a, b, rfl, fun hmem => hnot (List.mem_append_left _ hmem)⟩
    · rintro ⟨a, b, rfl, -⟩
      exact ⟨a, b, rfl⟩
  · rw [hsplit, List.headD_cons, any_tails_iff]
    constructor
    · rintro ⟨a, b, rfl⟩
      exact ⟨a, b ++ EQ :: r, by simp, fun hmem => hnot (List.mem_append_left _ hmem)⟩
    · -- up to the end of the item there is no `=`, so the item ends before the first one
      rintro ⟨a, b, heq, ha⟩
      rw [← List.append_assoc] at heq
      rcases List.append_eq_append_iff.1 heq with ⟨c, hc, hr⟩ | ⟨c, rfl, -⟩
      · cases c with
        | nil => exact ⟨a, [], by rw [List.append_nil] at hc; rw [← hc, List.append_nil]⟩
        | cons x c =>
            have hx : EQ = x := (List.cons.inj hr).1
            have hmem : EQ ∈ a ++ expiredaysItem := by
              rw [hc, hx]
              simp
            exact ((List.mem_append.1 hmem).elim ha expiredaysItem_not_mem_EQ).elim
      · exact ⟨a, c, List.append_assoc _ _ _⟩

theorem SecondField.eq {line f : Bytes} (h : SecondField line f) : f = (line.splitOn EQ).getD 1 [] := by
  cases h with
  | none hnot => rw [List.splitOn_eq_singleton hnot]; rfl
  | last ha hf =>
      rw [List.splitOn_append_cons_self_of_not_mem ha, List.splitOn_eq_singleton hf]
      rfl
  | inner ha hf =>
      rw [List.splitOn_append_cons_self_of_not_mem ha, List.splitOn_append_cons_self_of_not_mem hf]
      rfl

theorem secondField_getD (line : Bytes) : SecondField line ((line.splitOn EQ).getD 1 []) := by
  rcases splitOn_EQ_cases line with ⟨hnot, hsplit⟩ | ⟨a, r, rfl, ha, hsplit⟩
  · rw [hsplit]
    exact .none hnot
  · rcases splitOn_EQ_cases r with ⟨hr, hsplit'⟩ | ⟨f, rest, rfl, hf, hsplit'⟩
    · rw [hsplit, hsplit']
      exact .last ha hr
    · rw [hsplit, hsplit']
      exact .inner ha hf

/-- The field `awk` prints, without the newline it adds. -/
def awkField (content : Bytes) : Bytes :=
  match (content.splitOn LF).find? awkMatches with
  | some line => (line.splitOn EQ).getD 1 []
  | none => []

theorem awkField_iff {content f : Bytes} : AwkField content f ↔ f = awkField content := by
  unfold awkField
  cases hfind : (content.splitOn LF).find? awkMatches with
  | none =>
      have hnone : ∀ line ∈ content.splitOn LF, ¬ NamesItem line :=
        fun line hline hnames => List.find?_eq_none.1 hfind line hline (awkMatches_iff.2 hnames)
      constructor
      · rintro (⟨⟨before, after, hsplit, hnames, -⟩, -⟩ | -)
        · exact absurd hnames (hnone _ (by rw [hsplit]; simp))
        · rfl
      · rintro rfl
        exact .none hnone
  | some line =>
      obtain ⟨hmatch, before, after, hsplit, hbefore⟩ := List.find?_eq_some_iff_append.1 hfind
      have hfirst : FirstLine NamesItem content line := by
        refine ⟨before, after, hsplit, awkMatches_iff.1 hmatch, fun l hl hnames => ?_⟩
        have hno := hbefore l hl
        rw [awkMatches_iff.2 hnames] at hno
        cases hno
      constructor
      · rintro (⟨⟨before', after', hsplit', hnames, hbefore'⟩, hfield⟩ | hnone)
        · rename_i line'
          have hfind' : (content.splitOn LF).find? awkMatches = some line' := by
            refine List.find?_eq_some_iff_append.2
              ⟨awkMatches_iff.2 hnames, before', after', hsplit', fun l hl => ?_⟩
            rw [Bool.not_eq_true', Bool.eq_false_iff]
            exact fun hm => hbefore' l hl (awkMatches_iff.1 hm)
          rw [hfind] at hfind'
          rw [Option.some.inj hfind']
          exact hfield.eq
        · exact absurd (awkMatches_iff.1 hmatch) (hnone line (by rw [hsplit]; simp))
      · rintro rfl
        exact .line hfirst (secondField_getD line)

/-- Trailing newlines are dropped, what stands in front of them is kept. -/
theorem substitution_append {w : Bytes} (out : Bytes) (hne : w ≠ []) (hNUL : NUL ∉ w)
    (hLF : LF ∉ w) :
    ∃ more, substitution (w ++ out) = w ++ more ∧ more <+: out.filter (· != NUL) := by
  have hfilter : w.filter (· != NUL) = w := by
    refine List.filter_eq_self.2 (fun c hc => ?_)
    rw [bne_iff_ne]
    rintro rfl
    exact hNUL hc
  have hkeep : w.reverse.dropWhile (· == LF) = w.reverse := by
    obtain ⟨w', c, rfl⟩ := List.eq_nil_or_concat w |>.resolve_left hne
    have hc : (c == LF) = false := by
      rw [beq_eq_false_iff_ne]
      rintro rfl
      exact hLF (by simp)
    rw [List.concat_eq_append, List.reverse_append, List.reverse_singleton, List.singleton_append,
      List.dropWhile_cons, hc]
    rfl
  rw [substitution, List.filter_append, hfilter, List.reverse_append, List.dropWhile_append, hkeep]
  split
  · refine ⟨[], ?_, List.nil_prefix⟩
    rw [List.reverse_reverse, List.append_nil]
  · refine ⟨((out.filter (· != NUL)).reverse.dropWhile (· == LF)).reverse, ?_, ?_⟩
    · rw [List.reverse_append, List.reverse_reverse]
    · rw [← List.reverse_suffix, List.reverse_reverse]
      exact List.dropWhile_suffix _

theorem awkField_not_mem_LF (content : Bytes) : LF ∉ awkField content := by
  unfold awkField
  split
  · next line hfind =>
      intro hmem
      have hline : line ∈ content.splitOn LF := List.mem_of_find?_eq_some hfind
      refine Cut.not_mem_of_mem_splitOn hline ?_
      rw [List.getD_eq_getElem?_getD] at hmem
      cases hget : (line.splitOn EQ)[1]? with
      | none =>
          rw [hget] at hmem
          cases hmem
      | some f =>
          rw [hget, Option.getD_some] at hmem
          exact Cut.mem_of_mem_splitOn (List.mem_of_getElem? hget) hmem
  · exact List.not_mem_nil

/-- What `value` is set to: the field, without NUL bytes. -/
theorem substitution_awkOutput (content : Bytes) :
    substitution (awkOutput content) = (awkField content).filter (· != NUL) := by
  have hLF := awkField_not_mem_LF content
  unfold awkField at hLF
  unfold awkOutput awkField
  cases hfind : (content.splitOn LF).find? awkMatches with
  | none => rfl
  | some line =>
      rw [hfind] at hLF
      dsimp only at hLF ⊢
      set f := (line.splitOn EQ).getD 1 [] with hf
      rw [substitution, List.filter_append, List.reverse_append]
      have hlast : ([LF].filter (· != NUL)).reverse = [LF] := by decide
      rw [hlast, List.singleton_append, List.dropWhile_cons, if_pos (by decide)]
      have hkeep : (f.filter (· != NUL)).reverse.dropWhile (· == LF)
          = (f.filter (· != NUL)).reverse := by
        refine List.dropWhile_eq_self_iff.2 (fun hpos hhead => ?_)
        have hmem : ((f.filter (· != NUL)).reverse)[0] ∈ (f.filter (· != NUL)).reverse :=
          List.getElem_mem hpos
        rw [beq_iff_eq] at hhead
        rw [hhead, List.mem_reverse] at hmem
        exact hLF (List.mem_of_mem_filter hmem)
      rw [hkeep, List.reverse_reverse]

/-! ## What the script makes of the field -/

/-- The text of the field the shell works on. -/
def fieldText (f : Bytes) : Bytes :=
  f.filter (· != NUL)

/-- A word that pathname expansion leaves as it is and `echo` prints. -/
def Ordinary (w : Bytes) : Prop :=
  hasPattern w = false ∧ isEchoOption w = false

/-- Digits, and white space behind them; a number that fits the day of a date. -/
inductive IsNumber : Bytes → ℕ → Prop
  | intro {ds sp : Bytes} : ds ≠ [] → (∀ c ∈ ds, isdigit c = true) → (∀ c ∈ sp, isspace c = true) →
      numeral ds < 2 ^ 31 → IsNumber (ds ++ sp) (numeral ds)

/-- The word of a field that begins with a pattern or an option of `echo`: what two expansions and
    `echo` leave. -/
def Shell.expandedWord (sh : Shell) (f : Bytes) : Option Bytes :=
  (sh.expand (substitution (sh.echo (sh.expand (fieldText f))))).head?

theorem expiredays_eq (sh : Shell) (content : Bytes) :
    sh.expiredays content = sh.expandedWord (awkField content) := by
  rw [Shell.expiredays, Shell.readConf, substitution_awkOutput]
  rfl

theorem expandedWord_blank (sh : Shell) {f : Bytes} (h : ∀ c ∈ fieldText f, ifs c = true) :
    sh.expandedWord f = none := by
  have hnone : sh.expand (fieldText f) = [] := by
    rw [Shell.expand, words, Cut.words_of_all h]
    rfl
  rw [Shell.expandedWord, hnone]
  rfl

/-- The first of the words an expansion leaves, when no pattern stands first. -/
theorem expand_of_firstWord (sh : Shell) {s w : Bytes} (h : Cut.FirstWord ifs s w)
    (hw : hasPattern w = false) : ∃ more, sh.expand s = w :: more := by
  obtain ⟨more, hwords⟩ := h.words
  refine ⟨more.flatMap (fun w => if hasPattern w then sh.glob w else [w]), ?_⟩
  rw [Shell.expand, words, hwords, List.flatMap_cons, hw]
  rfl

theorem expandedWord_ordinary (sh : Shell) {f w : Bytes} (h : Cut.FirstWord ifs (fieldText f) w)
    (hw : Ordinary w) : sh.expandedWord f = some w := by
  obtain ⟨more, hargs⟩ := expand_of_firstWord sh h hw.1
  obtain ⟨a, rest, hf, -, hne, hifs, -⟩ := h
  have hmem : ∀ c ∈ w, c ∈ fieldText f := fun c hc => by
    rw [hf]
    simp [hc]
  have hNUL : NUL ∉ w := fun hc => by simpa [fieldText] using hmem NUL hc
  have hLF : LF ∉ w := fun hc => absurd (hifs LF hc) (by decide)
  -- no option in front: `echo` prints the words with single blanks between them
  have hecho : ∃ out, sh.echo (w :: more) = w ++ out ∧ ∀ c ∈ out.head?, c = 32 ∨ c = LF := by
    have hflags : (w :: more).takeWhile isEchoOption = [] := by
      rw [List.takeWhile_cons, hw.2]
      rfl
    have hdrop : (w :: more).dropWhile isEchoOption = w :: more := by
      rw [List.dropWhile_cons, hw.2]
      rfl
    unfold Shell.echo
    rw [hflags, hdrop]
    cases more with
    | nil =>
        refine ⟨[LF], by simp, fun c hc => ?_⟩
        exact Or.inr (by simpa using hc.symm)
    | cons x xs =>
        refine ⟨32 :: [32].intercalate (x :: xs) ++ [LF], ?_, fun c hc => ?_⟩
        · simp [List.intercalate_cons_cons]
        · simp at hc
          exact Or.inl hc.symm
  obtain ⟨out, hout, hhead⟩ := hecho
  obtain ⟨kept, hkept, hprefix⟩ := substitution_append out hne hNUL hLF
  have hfirst : Cut.FirstWord ifs (w ++ kept) w := by
    refine ⟨[], kept, rfl, by simp, hne, hifs, fun c hc => ?_⟩
    obtain ⟨t, ht⟩ := hprefix
    obtain ⟨k, rfl⟩ : ∃ k, kept = c :: k := List.head?_eq_some_iff.1 hc
    -- `out` begins with a blank or a newline, and neither is a NUL byte
    cases out with
    | nil => cases ht
    | cons x out =>
        have hx := hhead x rfl
        have hkeep : (x != NUL) = true := by rcases hx with rfl | rfl <;> decide
        rw [List.filter_cons, if_pos hkeep] at ht
        obtain rfl : c = x := (List.cons.inj ht).1
        rcases hx with rfl | rfl <;> decide
  obtain ⟨more', hlast⟩ := expand_of_firstWord sh hfirst hw.1
  rw [Shell.expandedWord, hargs, hout, hkept, hlast]
  rfl

/-- `[`: one word that sorts below `1` begins with a smaller byte. -/
theorem illegal_some (sh : Shell) {w : Bytes} (hne : w ≠ []) (hifs : ∀ c ∈ w, ifs c = false)
    (hw : hasPattern w = false) : sh.illegal (some w) = true ↔ ∀ c ∈ w.head?, c < 49 := by
  have hwords : words w = [w] := Cut.words_self hne hifs
  have hexpand : sh.expand w = [w] := by
    rw [Shell.expand, hwords, List.flatMap_singleton, hw]
    rfl
  obtain ⟨c, w', rfl⟩ := List.exists_cons_of_ne_nil hne
  have hone : ascii "1" = [49] := by decide
  rw [Shell.illegal, Option.getD_some, hexpand]
  simp only [decide_eq_true_eq]
  rw [hone, List.cons_lt_cons_iff]
  simp

theorem isspace_of_isdigit {c : UInt8} (h : isdigit c = true) : isspace c = false := by
  have hall : ∀ c : UInt8, isdigit c = true → isspace c = false := by decide
  exact hall c h

/-- White space in front of a word, which is none of it. -/
theorem strip_isNumber {ds sp : Bytes} (hne : ds ≠ []) (hds : ∀ c ∈ ds, isdigit c = true)
    (hsp : ∀ c ∈ sp, isspace c = true) : Cut.strip isspace (ds ++ sp) = ds := by
  have hstripped : Cut.Stripped isspace ds :=
    ⟨fun c hc => isspace_of_isdigit (hds c (List.mem_of_mem_head? hc)),
      fun c hc => isspace_of_isdigit (hds c (List.mem_of_mem_getLast? hc))⟩
  exact Cut.strip_pad (a := []) (by simp) hsp hne hstripped

theorem days_number (sh : Shell) {w : Bytes} {n : ℕ} (h : IsNumber w n) :
    sh.days (some w) = some (n : ℤ) := by
  obtain @⟨ds, sp, hne, hds, hsp, hlt⟩ := h
  have hempty : ds.isEmpty = false := by simpa using hne
  have hall : ds.all isdigit = true := List.all_eq_true.2 hds
  simp only [Shell.days, Option.getD_some, strip_isNumber hne hds hsp, hempty, hall, hlt]
  rfl

theorem days_date (sh : Shell) {w : Bytes} (hhead : ∃ c ∈ w.head?, isspace c = false)
    (h : ∀ n, ¬ IsNumber w n) : sh.days (some w) = sh.date w := by
  obtain ⟨c, hc, hspace⟩ := hhead
  rcases Cut.pad_cases isspace w with hall | ⟨a, k, b, rfl, ha, hb, hne, hk⟩
  · exact absurd (hall c (List.mem_of_mem_head? hc)) (by simp [hspace])
  · -- nothing stands in front of the core
    obtain rfl : a = [] := by
      cases a with
      | nil => rfl
      | cons x a =>
          obtain rfl : x = c := by simpa using hc
          exact absurd (ha x List.mem_cons_self) (by simp [hspace])
    have hempty : k.isEmpty = false := by simpa using hne
    have hnot : ¬ ((k.all isdigit && decide (numeral k < 2 ^ 31)) = true) := by
      rw [Bool.and_eq_true, decide_eq_true_iff, List.all_eq_true]
      exact fun hnumber => h _ (.intro hne hnumber.1 hb hnumber.2)
    simp only [Shell.days, Option.getD_some, Cut.strip_pad ha hb hne hk, hempty, if_neg hnot]
    rfl

/-- What the script does with a field: it stops, or it goes back by a number of days (`none`: by
    something else). -/
inductive Outcome where
  | stops
  | period (days : Option ℤ)

/-- The test and the period of a word. -/
def Shell.outcome (sh : Shell) (word : Option Bytes) : Outcome :=
  if sh.illegal word then .stops else .period (sh.days word)

/-- What the script does with the field `f`. -/
inductive Shell.Reads (sh : Shell) (f : Bytes) : Outcome → Prop
  /-- A blank field, or none: `date` goes back one day. -/
  | blank : (∀ c ∈ fieldText f, ifs c = true) → Reads sh f (.period (some 1))
  /-- A number that does not begin with `0`. -/
  | number {w : Bytes} {n : ℕ} : Cut.FirstWord ifs (fieldText f) w → (∀ c ∈ w.head?, ¬ c < 49) →
      IsNumber w n → Reads sh f (.period (some n))
  /-- A word that sorts below `1`: a sign or a `0` in front, or white space other than blanks. -/
  | below {w : Bytes} : Cut.FirstWord ifs (fieldText f) w → Ordinary w → (∀ c ∈ w.head?, c < 49) →
      Reads sh f .stops
  /-- Another word: what counts is what `date` makes of it. -/
  | date {w : Bytes} : Cut.FirstWord ifs (fieldText f) w → Ordinary w → (∀ c ∈ w.head?, ¬ c < 49) →
      (∀ n, ¬ IsNumber w n) → Reads sh f (.period (sh.date w))
  /-- A pattern or an option of `echo` in front: what counts is the word the shell makes of them. -/
  | expanded {w : Bytes} : Cut.FirstWord ifs (fieldText f) w → ¬ Ordinary w →
      Reads sh f (sh.outcome (sh.expandedWord f))

theorem IsNumber.ordinary {w : Bytes} {n : ℕ} (h : IsNumber w n) : Ordinary w := by
  obtain @⟨ds, sp, hne, hds, hsp, -⟩ := h
  have hplain : ∀ c : UInt8, isdigit c = true ∨ isspace c = true →
      (c == 42 || c == 63 || c == 91 || c == 92) = false := by decide
  constructor
  · refine List.any_eq_false.2 (fun c hc => ?_)
    rw [Bool.not_eq_true]
    exact hplain c ((List.mem_append.1 hc).imp (hds c) (hsp c))
  · obtain ⟨c, ds, rfl⟩ := List.exists_cons_of_ne_nil hne
    have hc : c ≠ 45 := by
      rintro rfl
      exact absurd (hds 45 List.mem_cons_self) (by decide)
    unfold isEchoOption
    split
    · next heq => exact absurd (List.cons.inj heq).1 hc
    · rfl

/-- The outcome for an ordinary word, by its first byte. -/
theorem outcome_ordinary (sh : Shell) {f w : Bytes} (hword : Cut.FirstWord ifs (fieldText f) w)
    (hw : Ordinary w) :
    ((∀ c ∈ w.head?, c < 49) → sh.outcome (sh.expandedWord f) = .stops) ∧
    ((∀ c ∈ w.head?, ¬ c < 49) → sh.outcome (sh.expandedWord f) = .period (sh.days (some w)) ∧
      ∃ c ∈ w.head?, isspace c = false) := by
  obtain ⟨a, rest, -, -, hne, hifs, -⟩ := id hword
  have hillegal := illegal_some sh hne hifs hw.1
  obtain ⟨c, w', rfl⟩ := List.exists_cons_of_ne_nil hne
  rw [expandedWord_ordinary sh hword hw, Shell.outcome]
  refine ⟨fun hfirst => if_pos (hillegal.2 hfirst), fun hfirst => ⟨if_neg ?_, c, rfl, ?_⟩⟩
  · rw [hillegal]
    exact fun hbelow => hfirst c rfl (hbelow c rfl)
  · have hall : ∀ c : UInt8, ¬ c < 49 → isspace c = false := by decide
    exact hall c (hfirst c rfl)

/-- The script does what the field says, and nothing else. -/
theorem reads_iff {sh : Shell} {f : Bytes} {o : Outcome} :
    sh.Reads f o ↔ o = sh.outcome (sh.expandedWord f) := by
  constructor
  · intro h
    cases h with
    | blank hblank => rw [expandedWord_blank sh hblank]; rfl
    | number hword hfirst hn =>
        rw [((outcome_ordinary sh hword hn.ordinary).2 hfirst).1, days_number sh hn]
    | below hword hw hfirst => rw [(outcome_ordinary sh hword hw).1 hfirst]
    | date hword hw hfirst hnot =>
        obtain ⟨houtcome, hspace⟩ := (outcome_ordinary sh hword hw).2 hfirst
        rw [houtcome, days_date sh hspace hnot]
    | expanded => rfl
  · intro ho
    rw [ho]
    rcases Cut.firstWord_cases ifs (fieldText f) with hblank | ⟨w, hword⟩
    · rw [expandedWord_blank sh hblank]
      exact .blank hblank
    by_cases hw : Ordinary w
    · by_cases hfirst : ∀ c ∈ w.head?, c < 49
      · rw [(outcome_ordinary sh hword hw).1 hfirst]
        exact .below hword hw hfirst
      · have hfirst' : ∀ c ∈ w.head?, ¬ c < 49 := by
          intro x hx hlt
          refine hfirst (fun y hy => ?_)
          rwa [← Option.some.inj ((Option.mem_def.1 hx).symm.trans (Option.mem_def.1 hy))]
        obtain ⟨houtcome, hspace⟩ := (outcome_ordinary sh hword hw).2 hfirst'
        rw [houtcome]
        by_cases hn : ∃ n, IsNumber w n
        · obtain ⟨n, hn⟩ := hn
          rw [days_number sh hn]
          exact .number hword hfirst' hn
        · have hnot : ∀ n, ¬ IsNumber w n := fun n h => hn ⟨n, h⟩
          rw [days_date sh hspace hnot]
          exact .date hword hw hfirst' hnot
    · exact .expanded hword hw

/-! ## What `init` makes of the value -/

/-- The number a text begins with for `strtol`: white space, a sign, digits. -/
inductive HeadNumber : Bytes → ℤ → Prop
  | plain {sp ds rest : Bytes} : (∀ c ∈ sp, isspace c = true) → (∀ c ∈ ds, isdigit c = true) →
      (∀ c ∈ rest.head?, isdigit c = false) →
      (∀ c ∈ (ds ++ rest).head?, isspace c = false ∧ c ≠ 43 ∧ c ≠ 45) →
      HeadNumber (sp ++ (ds ++ rest)) (numeral ds)
  | plus {sp ds rest : Bytes} : (∀ c ∈ sp, isspace c = true) → (∀ c ∈ ds, isdigit c = true) →
      (∀ c ∈ rest.head?, isdigit c = false) → HeadNumber (sp ++ 43 :: (ds ++ rest)) (numeral ds)
  | minus {sp ds rest : Bytes} : (∀ c ∈ sp, isspace c = true) → (∀ c ∈ ds, isdigit c = true) →
      (∀ c ∈ rest.head?, isdigit c = false) → HeadNumber (sp ++ 45 :: (ds ++ rest)) (-numeral ds)

/-- A number as an `int`, by way of the `long` of `strtol`. -/
def intOf (m : ℤ) : ℤ :=
  (max (-2 ^ 63) (min (2 ^ 63 - 1) m)).bmod (2 ^ 32)

/-- A line that defines the item for `Config`. -/
def DefinesItem (line : Bytes) : Prop :=
  ∃ q, Defines line expiredaysItem q

/-- `init` goes by `z` days: the number of the first line that defines the item, or 7 days if that is
    negative, if its value is blank, or if there is no such line. -/
inductive ConfSays (content : Bytes) : ℤ → Prop
  | number {line q : Bytes} {m : ℤ} : FirstLine DefinesItem content line →
      Defines line expiredaysItem q → (∃ c ∈ q, isspace c = false) → HeadNumber q m → 0 ≤ intOf m →
      ConfSays content (intOf m)
  | negative {line q : Bytes} {m : ℤ} : FirstLine DefinesItem content line →
      Defines line expiredaysItem q → HeadNumber q m → intOf m < 0 → ConfSays content 7
  | blank {line q : Bytes} : FirstLine DefinesItem content line → Defines line expiredaysItem q →
      (∀ c ∈ q, isspace c = true) → ConfSays content 7
  | missing : (∀ line ∈ content.splitOn LF, ¬ DefinesItem line) → ConfSays content 7

theorem takeWhile_digits {ds rest : Bytes} (hds : ∀ c ∈ ds, isdigit c = true)
    (hrest : ∀ c ∈ rest.head?, isdigit c = false) : (ds ++ rest).takeWhile isdigit = ds := by
  rw [List.takeWhile_append_of_pos hds]
  cases rest with
  | nil => simp
  | cons c rest => simp [hrest c rfl]

theorem dropWhile_spaces {sp t : Bytes} (hsp : ∀ c ∈ sp, isspace c = true)
    (ht : ∀ c ∈ t.head?, isspace c = false) : (sp ++ t).dropWhile isspace = t := by
  rw [List.dropWhile_append_of_pos hsp]
  cases t with
  | nil => rfl
  | cons c t => simp [ht c rfl]

theorem str2int_headNumber {text : Bytes} {m : ℤ} (hNUL : NUL ∉ text) (h : HeadNumber text m) :
    str2int text = intOf m := by
  rw [str2int, strtol, intOf, cstr_eq_self hNUL]
  cases h with
  | @plain sp ds rest hsp hds hrest hsign =>
      have hdrop := dropWhile_spaces hsp (fun c hc => (hsign c hc).1)
      have hminus : ((ds ++ rest).head? == some 45) = false := by
        rw [beq_eq_false_iff_ne]
        exact fun heq => (hsign 45 heq).2.2 rfl
      have hplus : ((ds ++ rest).head? == some 43) = false := by
        rw [beq_eq_false_iff_ne]
        exact fun heq => (hsign 43 heq).2.1 rfl
      simp only [hdrop, hminus, hplus, Bool.or_false, Bool.false_eq_true, if_false,
        takeWhile_digits hds hrest]
      rfl
  | @plus sp ds rest hsp hds hrest =>
      have hdrop := dropWhile_spaces (t := 43 :: (ds ++ rest)) hsp
        (fun c hc => by obtain rfl : 43 = c := by simpa using hc
                        decide)
      have hminus : ((43 :: (ds ++ rest)).head? == some (45 : UInt8)) = false := rfl
      have hplus : ((43 :: (ds ++ rest)).head? == some (43 : UInt8)) = true := rfl
      simp only [hdrop, hminus, hplus, Bool.or_true, Bool.false_eq_true, if_false, if_true,
        List.tail_cons, takeWhile_digits hds hrest]
      rfl
  | @minus sp ds rest hsp hds hrest =>
      have hdrop := dropWhile_spaces (t := 45 :: (ds ++ rest)) hsp
        (fun c hc => by obtain rfl : 45 = c := by simpa using hc
                        decide)
      have hminus : ((45 :: (ds ++ rest)).head? == some (45 : UInt8)) = true := rfl
      simp only [hdrop, hminus, Bool.true_or, if_true, List.tail_cons, takeWhile_digits hds hrest]
      rfl

theorem head?_dropWhile {p : UInt8 → Bool} (s : Bytes) : ∀ c ∈ (s.dropWhile p).head?, p c = false := by
  intro c hc
  have hhead := List.head?_dropWhile_not p s
  rw [Option.mem_def.1 hc] at hhead
  simpa using hhead

theorem exists_headNumber (text : Bytes) : ∃ m, HeadNumber text m := by
  have hsp : ∀ c ∈ text.takeWhile isspace, isspace c = true := fun c hc => List.mem_takeWhile_imp hc
  have hdigits : ∀ (u : Bytes), ∀ c ∈ u.takeWhile isdigit, isdigit c = true :=
    fun u c hc => List.mem_takeWhile_imp hc
  have hsplit : ∀ (u : Bytes), u = u.takeWhile isdigit ++ u.dropWhile isdigit :=
    fun u => List.takeWhile_append_dropWhile.symm
  rw [← List.takeWhile_append_dropWhile (p := isspace) (l := text)]
  have hhead := head?_dropWhile (p := isspace) text
  generalize text.dropWhile isspace = t at hhead
  by_cases hsign : ∀ c ∈ t.head?, c ≠ 43 ∧ c ≠ 45
  · rw [hsplit t] at hhead hsign ⊢
    exact ⟨_, .plain hsp (hdigits t) (head?_dropWhile t)
      (fun c hc => ⟨hhead c hc, (hsign c hc).1, (hsign c hc).2⟩)⟩
  · cases t with
    | nil => exact absurd (by simp) hsign
    | cons c u =>
        by_cases hplus : c = 43
        · subst hplus
          rw [hsplit u]
          exact ⟨_, .plus hsp (hdigits u) (head?_dropWhile u)⟩
        · have hminus : c = 45 := by
            by_contra hne
            refine hsign (fun x hx => ?_)
            obtain rfl : c = x := by simpa using hx
            exact ⟨hplus, hne⟩
          subst hminus
          rw [hsplit u]
          exact ⟨_, .minus hsp (hdigits u) (head?_dropWhile u)⟩

/-- White space behind a number is not read. -/
theorem takeWhile_digits_append {k b : Bytes} (hb : ∀ c ∈ b, isspace c = true) :
    (k ++ b).takeWhile isdigit = k.takeWhile isdigit := by
  rw [List.takeWhile_append]
  split
  · have hnone : b.takeWhile isdigit = [] := by
      cases b with
      | nil => rfl
      | cons c b =>
          have hc : isdigit c = false := by
            by_contra hdigit
            have hspace := isspace_of_isdigit (by simpa using hdigit)
            rw [hb c List.mem_cons_self] at hspace
            cases hspace
          simp [hc]
    have hall : k.takeWhile isdigit = k := by
      refine List.takeWhile_eq_self_iff.2 ?_
      exact List.takeWhile_eq_self_iff.1 ((List.takeWhile_prefix _).eq_of_length (by assumption))
    rw [hnone, hall, List.append_nil]
  · rfl

/-- `trim` does not change what `str2int` reads. -/
theorem str2int_strip {q : Bytes} (hNUL : NUL ∉ q) : str2int (Cut.strip isspace q) = str2int q := by
  rcases Cut.pad_cases isspace q with hall | ⟨a, k, b, rfl, ha, hb, hne, hk⟩
  · have hnone : (cstr q).dropWhile isspace = [] := by
      rw [cstr_eq_self hNUL]
      exact List.dropWhile_eq_nil_iff.2 hall
    rw [Cut.strip_of_all hall, str2int, str2int, strtol, strtol, hnone]
    rfl
  · have hk' : NUL ∉ k := fun hmem => hNUL (by simp [hmem])
    have hcore : k.dropWhile isspace = k := dropWhile_spaces (List.forall_mem_nil _) hk.1
    have hwhole : (a ++ k ++ b).dropWhile isspace = k ++ b := by
      rw [List.append_assoc]
      refine dropWhile_spaces ha (fun c hc => hk.1 c ?_)
      rwa [List.head?_append_of_ne_nil _ hne] at hc
    have hdigits : ∀ signed : Bool, (if signed then k.tail ++ b else k ++ b).takeWhile isdigit
        = (if signed then k.tail else k).takeWhile isdigit := by
      intro signed
      split
      · exact takeWhile_digits_append hb
      · exact takeWhile_digits_append hb
    rw [Cut.strip_pad ha hb hne hk, str2int, str2int, strtol, strtol, cstr_eq_self hk',
      cstr_eq_self hNUL, hcore, hwhole, List.head?_append_of_ne_nil _ hne,
      List.tail_append_of_ne_nil hne, hdigits]

theorem value_not_mem_NUL {line K q : Bytes} (h : Defines line K q) : NUL ∉ q := by
  obtain ⟨p, hpieces, -⟩ := h
  intro hmem
  have hq : q ∈ Cut.pieces EQ (cstr line) := by
    rw [hpieces]
    simp
  exact NUL_not_mem_cstr line ((Cut.mem_pieces hq).2 NUL hmem)

theorem confText_of_first {content line q : Bytes} (hline : FirstLine DefinesItem content line)
    (hvalue : Defines line expiredaysItem q) : confText content = Cut.strip isspace q := by
  obtain ⟨before, after, hsplit, -, hbefore⟩ := hline
  rw [confText, hsplit, lookup_first hvalue (fun l hl q' hq' => hbefore l hl ⟨q', hq'⟩)]
  rfl

theorem confText_missing {content : Bytes} (h : ∀ line ∈ content.splitOn LF, ¬ DefinesItem line) :
    confText content = [] := by
  rw [confText, lookup_none (fun l hl q hq => h l hl ⟨q, hq⟩)]
  rfl

theorem firstLine_cases (p : Bytes → Prop) (content : Bytes) :
    (∀ line ∈ content.splitOn LF, ¬ p line) ∨ ∃ line, FirstLine p content line := by
  classical
  cases hfind : (content.splitOn LF).find? (fun line => decide (p line)) with
  | none => exact Or.inl (fun line hline hp => by simpa [hp] using List.find?_eq_none.1 hfind line hline)
  | some line =>
      obtain ⟨hp, before, after, hsplit, hbefore⟩ := List.find?_eq_some_iff_append.1 hfind
      exact Or.inr ⟨line, before, after, hsplit, by simpa using hp,
        fun l hl => by simpa using hbefore l hl⟩

/-- What `ConfSays` says is what `init` computes. -/
theorem confSays_iff {content : Bytes} {z : ℤ} : ConfSays content z ↔
    z = if confText content = [] ∨ str2int (confText content) < 0 then 7
      else str2int (confText content) := by
  have htext : ∀ {line q : Bytes} {m : ℤ}, FirstLine DefinesItem content line →
      Defines line expiredaysItem q → HeadNumber q m → str2int (confText content) = intOf m := by
    intro line q m hline hvalue hm
    rw [confText_of_first hline hvalue, str2int_strip (value_not_mem_NUL hvalue),
      str2int_headNumber (value_not_mem_NUL hvalue) hm]
  have hblank : ∀ {line q : Bytes}, FirstLine DefinesItem content line →
      Defines line expiredaysItem q → (confText content = [] ↔ ∀ c ∈ q, isspace c = true) := by
    intro line q hline hvalue
    rw [confText_of_first hline hvalue]
    constructor
    · intro hnil
      rcases Cut.pad_cases isspace q with hall | ⟨a, k, b, rfl, ha, hb, hne, hk⟩
      · exact hall
      · rw [Cut.strip_pad ha hb hne hk] at hnil
        exact absurd hnil hne
    · exact Cut.strip_of_all
  constructor
  · rintro (⟨hline, hvalue, ⟨c, hc, hspace⟩, hm, hnonneg⟩ | ⟨hline, hvalue, hm, hneg⟩ |
      ⟨hline, hvalue, hall⟩ | hnone)
    · rw [if_neg, htext hline hvalue hm]
      rintro (hnil | hneg)
      · rw [(hblank hline hvalue).1 hnil c hc] at hspace
        cases hspace
      · rw [htext hline hvalue hm] at hneg
        omega
    · rw [if_pos (Or.inr (by rw [htext hline hvalue hm]; exact hneg))]
    · rw [if_pos (Or.inl ((hblank hline hvalue).2 hall))]
    · rw [if_pos (Or.inl (confText_missing hnone))]
  · rintro rfl
    rcases firstLine_cases DefinesItem content with hnone | ⟨line, hline⟩
    · rw [if_pos (Or.inl (confText_missing hnone))]
      exact .missing hnone
    · obtain ⟨q, hvalue⟩ : DefinesItem line := hline.choose_spec.choose_spec.2.1
      obtain ⟨m, hm⟩ := exists_headNumber q
      by_cases hall : ∀ c ∈ q, isspace c = true
      · rw [if_pos (Or.inl ((hblank hline hvalue).2 hall))]
        exact .blank hline hvalue hall
      · by_cases hneg : intOf m < 0
        · rw [if_pos (Or.inr (by rw [htext hline hvalue hm]; exact hneg))]
          exact .negative hline hvalue hm hneg
        · have hnot : ¬ (confText content = [] ∨ str2int (confText content) < 0) := by
            rw [hblank hline hvalue, htext hline hvalue hm]
            exact not_or.2 ⟨hall, hneg⟩
          rw [if_neg hnot, htext hline hvalue hm]
          refine .number hline hvalue ?_ hm (by omega)
          simpa using hall

/-! ## Agreement -/

/-- The script uses the period `expiredays`, unless it stops, and it stops only for a period below one
    day. -/
structure ReadersAgree (sh : Shell) (content : Bytes) (expiredays : ℤ) : Prop where
  period : sh.illegal (sh.expiredays content) = false →
    sh.days (sh.expiredays content) = some expiredays
  legality : sh.illegal (sh.expiredays content) = true → expiredays < 1

/-- What the script does goes with a period in days. -/
def Outcome.Agrees (conf : ℤ → Prop) : Outcome → Prop
  | .stops => conf 0
  | .period (some days) => conf days
  | .period none => False

/-- The line `awk` takes and the line `Config` takes go together. -/
def LinesAgree (sh : Shell) (content : Bytes) : Prop :=
  ∃ f o, AwkField content f ∧ sh.Reads f o ∧ o.Agrees (ConfSays content)

theorem readersAgree_of_confSays {sh : Shell} {content : Bytes} {z : ℤ} (h : ConfSays content z) :
    ReadersAgree sh content z ↔ LinesAgree sh content := by
  have hconf : ∀ k, ConfSays content k ↔ k = z := fun k => by
    rw [confSays_iff, ← confSays_iff.1 h]
  -- a period below one day is none at all
  have hzero : z < 1 ↔ ConfSays content 0 := by
    have hz := confSays_iff.1 h
    rw [hconf]
    split_ifs at hz <;> omega
  have hlines : ∀ o, o = sh.outcome (sh.expiredays content) →
      (LinesAgree sh content ↔ o.Agrees (ConfSays content)) := by
    intro o ho
    rw [expiredays_eq] at ho
    constructor
    · rintro ⟨f, o', hf, ho', hagrees⟩
      rw [awkField_iff.1 hf, reads_iff, ← ho] at ho'
      rwa [← ho']
    · exact fun hagrees => ⟨_, o, awkField_iff.2 rfl, reads_iff.2 ho, hagrees⟩
  rw [hlines _ rfl, Shell.outcome]
  cases hillegal : sh.illegal (sh.expiredays content) with
  | true =>
      rw [if_pos rfl]
      refine Iff.trans ⟨fun hr => hr.legality hillegal, fun hlt => ⟨fun hlegal => ?_, fun _ => hlt⟩⟩ hzero
      exact absurd (hillegal.symm.trans hlegal) (by simp)
  | false =>
      rw [if_neg (by simp)]
      have hperiod : ReadersAgree sh content z ↔ sh.days (sh.expiredays content) = some z :=
        ⟨fun hr => hr.period hillegal, fun hdays => ⟨fun _ => hdays, fun hill =>
          absurd (hillegal.symm.trans hill) (by simp)⟩⟩
      rw [hperiod]
      cases sh.days (sh.expiredays content) with
      | none => exact iff_of_false (by simp) id
      | some k => rw [Option.some.injEq]; exact (hconf k).symm

/-- **The two readers of `expiredays` agree exactly on the files whose lines agree**: the first line that
    names the item says by its second field what the first line that defines the item says by its
    value. -/
theorem readersAgree_iff {env : InitEnv} {content : Bytes} (sh : Shell) (p : Proxy)
    (hopen : env.fs configFileName = some content)
    (hshort : ∀ line ∈ content.splitOn LF, line.length ≤ 99)
    (hpasses : (content.splitOn LF).length ≤ env.loadPasses) :
    ∃ q, runStmts env [.loadConfig, .readExpiredays] p = .next q ∧
      (ReadersAgree sh content q.expiredays ↔ LinesAgree sh content) := by
  obtain ⟨q, hrun, hq⟩ := init_expiredays p hopen hshort hpasses
  exact ⟨q, hrun, readersAgree_of_confSays (confSays_iff.2 hq)⟩

theorem isspace_of_ifs {c : UInt8} (h : ifs c = true) : isspace c = true := by
  have hall : ∀ c : UInt8, ifs c = true → isspace c = true := by decide
  exact hall c h

/-- White space and digits are no `=` and no NUL bytes. -/
theorem not_mem_of_padding {c : UInt8} (hc : c = EQ ∨ c = NUL) {s : Bytes}
    (h : ∀ x ∈ s, isspace x = true ∨ isdigit x = true) : c ∉ s := by
  intro hmem
  rcases hc with rfl | rfl
  · exact absurd (h EQ hmem) (by decide)
  · exact absurd (h NUL hmem) (by decide)

theorem intOf_of_lt {n : ℕ} (h : n < 2 ^ 31) : intOf n = n := by
  have hmax : max (-2 ^ 63) (min (2 ^ 63 - 1) (n : ℤ)) = n := by omega
  rw [intOf, hmax, Int.bmod_eq_of_le] <;> omega

/-- The script reads `expiredays = n` as it is meant. -/
theorem reads_item (sh : Shell) {sp ds sp' : Bytes} (hsp : ∀ c ∈ sp, ifs c = true) (hne : ds ≠ [])
    (hds : ∀ c ∈ ds, isdigit c = true) (hfirst : ∀ c ∈ ds.head?, c ≠ 48) (hlt : numeral ds < 2 ^ 31)
    (hsp' : ∀ c ∈ sp', isspace c = true) :
    sh.Reads (sp ++ (ds ++ sp')) (.period (some (numeral ds : ℤ))) := by
  have hpadding : ∀ x ∈ sp ++ (ds ++ sp'), isspace x = true ∨ isdigit x = true := by
    intro x hx
    rcases List.mem_append.1 hx with hx | hx
    · exact Or.inl (isspace_of_ifs (hsp x hx))
    · exact (List.mem_append.1 hx).symm.imp (hsp' x) (hds x)
  have htext : fieldText (sp ++ (ds ++ sp')) = sp ++ (ds ++ sp') := by
    refine List.filter_eq_self.2 (fun c hc => ?_)
    rw [bne_iff_ne]
    rintro rfl
    exact not_mem_of_padding (Or.inr rfl) hpadding hc
  have hdigit : ∀ c : UInt8, isdigit c = true → ifs c = false ∧ (c ≠ 48 → ¬ c < 49) := by decide
  -- the word ends at the first blank behind the number
  have hword : Cut.FirstWord ifs (fieldText (sp ++ (ds ++ sp')))
      (ds ++ sp'.takeWhile (fun c => !ifs c)) := by
    refine ⟨sp, sp'.dropWhile (fun c => !ifs c), ?_, hsp, by simp [hne], fun c hc => ?_, fun c hc => ?_⟩
    · rw [htext, List.append_assoc, List.takeWhile_append_dropWhile]
    · rcases List.mem_append.1 hc with hc | hc
      · exact (hdigit c (hds c hc)).1
      · simpa using List.mem_takeWhile_imp hc
    · simpa using head?_dropWhile (p := fun c => !ifs c) sp' c hc
  refine .number hword (fun c hc => ?_) (.intro hne hds (fun c hc => ?_) hlt)
  · rw [List.head?_append_of_ne_nil _ hne] at hc
    exact (hdigit c (hds c (List.mem_of_mem_head? hc))).2 (hfirst c hc)
  · exact hsp' c ((List.takeWhile_prefix _).subset hc)

/-- The ordinary case: no line names or defines the item before the line `expiredays = n`, with blanks
    in front of a number between 1 and `2 ^ 31 - 1` that does not begin with `0`. -/
theorem linesAgree_of_item (sh : Shell) {content a b sp ds sp' : Bytes} {before after : List Bytes}
    (hsplit : content.splitOn LF =
      before ++ (a ++ (expiredaysItem ++ (b ++ EQ :: (sp ++ (ds ++ sp'))))) :: after)
    (ha : ∀ c ∈ a, isspace c = true) (hb : ∀ c ∈ b, isspace c = true) (hsp : ∀ c ∈ sp, ifs c = true)
    (hne : ds ≠ []) (hds : ∀ c ∈ ds, isdigit c = true) (hfirst : ∀ c ∈ ds.head?, c ≠ 48)
    (hlt : numeral ds < 2 ^ 31) (hsp' : ∀ c ∈ sp', isspace c = true)
    (hbefore : ∀ l ∈ before, ¬ NamesItem l ∧ ¬ DefinesItem l) : LinesAgree sh content := by
  have hkey : ∀ c, c = EQ ∨ c = NUL → c ∉ a ++ (expiredaysItem ++ b) := by
    intro c hc hmem
    have hitem : EQ ∉ expiredaysItem ∧ NUL ∉ expiredaysItem := by decide
    rcases List.mem_append.1 hmem with hmem | hmem
    · exact not_mem_of_padding hc (fun x hx => Or.inl (ha x hx)) hmem
    rcases List.mem_append.1 hmem with hmem | hmem
    · rcases hc with rfl | rfl
      · exact hitem.1 hmem
      · exact hitem.2 hmem
    · exact not_mem_of_padding hc (fun x hx => Or.inl (hb x hx)) hmem
  have hvalue : ∀ c, c = EQ ∨ c = NUL → c ∉ sp ++ (ds ++ sp') := by
    intro c hc
    refine not_mem_of_padding hc (fun x hx => ?_)
    rcases List.mem_append.1 hx with hx | hx
    · exact Or.inl (isspace_of_ifs (hsp x hx))
    · exact (List.mem_append.1 hx).symm.imp (hsp' x) (hds x)
  have hline : a ++ (expiredaysItem ++ (b ++ EQ :: (sp ++ (ds ++ sp'))))
      = (a ++ (expiredaysItem ++ b)) ++ EQ :: (sp ++ (ds ++ sp')) := by
    simp
  rw [hline] at hsplit
  have hnames : NamesItem ((a ++ (expiredaysItem ++ b)) ++ EQ :: (sp ++ (ds ++ sp'))) :=
    ⟨a, b ++ EQ :: (sp ++ (ds ++ sp')), by simp,
      fun hmem => hkey EQ (Or.inl rfl) (List.mem_append_left _ hmem)⟩
  have hdefines : Defines ((a ++ (expiredaysItem ++ b)) ++ EQ :: (sp ++ (ds ++ sp'))) expiredaysItem
      (sp ++ (ds ++ sp')) := by
    have hNUL : NUL ∉ (a ++ (expiredaysItem ++ b)) ++ EQ :: (sp ++ (ds ++ sp')) := by
      rw [List.mem_append, List.mem_cons]
      rintro (hmem | heq | hmem)
      · exact hkey NUL (Or.inr rfl) hmem
      · exact absurd heq (by decide)
      · exact hvalue NUL (Or.inr rfl) hmem
    refine ⟨a ++ (expiredaysItem ++ b), ?_, ?_⟩
    · have hitem : a ++ (expiredaysItem ++ b) ≠ [] := by simp [expiredaysItem, ascii]
      have hlast : (sp ++ (ds ++ sp')).isEmpty = false := by simp [hne]
      rw [cstr_eq_self hNUL, Cut.pieces_append_cons (hkey EQ (Or.inl rfl)) hitem,
        Cut.pieces_of_not_mem (hvalue EQ (Or.inl rfl)), hlast]
      rfl
    · rw [← List.append_assoc]
      exact Cut.strip_pad ha hb (by decide) (by decide)
  have hmem : ∃ c ∈ sp ++ (ds ++ sp'), isspace c = false := by
    obtain ⟨c, ds', rfl⟩ := List.exists_cons_of_ne_nil hne
    exact ⟨c, by simp, isspace_of_isdigit (hds c List.mem_cons_self)⟩
  have hnumber : HeadNumber (sp ++ (ds ++ sp')) (numeral ds) := by
    refine .plain (fun c hc => isspace_of_ifs (hsp c hc)) hds (fun c hc => ?_) (fun c hc => ?_)
    · by_contra hdigit
      have hspace := isspace_of_isdigit (by simpa using hdigit)
      rw [hsp' c (List.mem_of_mem_head? hc)] at hspace
      cases hspace
    · rw [List.head?_append_of_ne_nil _ hne] at hc
      have hsign : ∀ c : UInt8, isdigit c = true → isspace c = false ∧ c ≠ 43 ∧ c ≠ 45 := by decide
      exact hsign c (hds c (List.mem_of_mem_head? hc))
  have hint := intOf_of_lt hlt
  refine ⟨sp ++ (ds ++ sp'), _, .line ⟨before, after, hsplit, hnames, fun l hl => (hbefore l hl).1⟩
    (.last (hkey EQ (Or.inl rfl)) (hvalue EQ (Or.inl rfl))),
    reads_item sh hsp hne hds hfirst hlt hsp', ?_⟩
  show ConfSays content (numeral ds : ℤ)
  rw [← hint]
  exact .number ⟨before, after, hsplit, ⟨_, hdefines⟩, fun l hl => (hbefore l hl).2⟩ hdefines hmem
    hnumber (by rw [hint]; omega)

/-- A shell in a directory without files to match, and a `date` that takes nothing but numbers. -/
def plainShell : Shell where
  glob w := [w]
  escapes text := text
  test _ := false
  date _ := none

/-- A start with the shipped lines of `expiredays` and `ThreadCount`, carriage returns included. -/
def shippedStart : InitEnv :=
  { helloStart with
    fs := fun _ => some (ascii "ThreadCount     = 4\r\nexpiredays      = 5\r\n") }

theorem readersAgree_iff_shipped :
    ∃ q, runStmts shippedStart [.loadConfig, .readExpiredays] (Proxy.new none) = .next q ∧
      ReadersAgree plainShell (ascii "ThreadCount     = 4\r\nexpiredays      = 5\r\n")
        q.expiredays := by
  have hopen : shippedStart.fs configFileName =
      some (ascii "ThreadCount     = 4\r\nexpiredays      = 5\r\n") := rfl
  obtain ⟨q, hrun, hiff⟩ := readersAgree_iff plainShell (Proxy.new none) hopen (by decide) (by decide)
  have hbefore : ∀ l ∈ [ascii "ThreadCount     = 4\r"], ¬ NamesItem l ∧ ¬ DefinesItem l := by
    have hitem : lineItem (ascii "ThreadCount     = 4\r") = some (ascii "ThreadCount", ascii "4") := by
      decide
    intro l hl
    rw [List.mem_singleton.1 hl]
    refine ⟨fun hnames => absurd (awkMatches_iff.2 hnames) (by decide), fun ⟨q, hq⟩ => ?_⟩
    have hkey := (lineItem_eq_some_iff.2 ⟨q, hq, rfl⟩).symm.trans hitem
    have hne : expiredaysItem ≠ ascii "ThreadCount" := by decide
    exact hne (congrArg Prod.fst (Option.some.inj hkey))
  refine ⟨q, hrun, hiff.2 ?_⟩
  exact @linesAgree_of_item plainShell _ [] (ascii "      ") (ascii " ") (ascii "5") (ascii "\r")
    [ascii "ThreadCount     = 4\r"] [[]] (by decide) (by decide) (by decide) (by decide) (by decide)
    (by decide) (by decide) (by decide) (by decide) hbefore

/-- A start with a commented-out line above the line that counts. -/
def commentedStart : InitEnv :=
  { helloStart with fs := fun _ => some (ascii "#expiredays=3\nexpiredays=5") }

/-- The script takes the number of the comment, the proxy that of the item. -/
theorem readers_disagree_on_comment :
    plainShell.days (plainShell.expiredays (ascii "#expiredays=3\nexpiredays=5")) = some 3 ∧
      ∃ q, runStmts commentedStart [.loadConfig, .readExpiredays] (Proxy.new none) = .next q ∧
        q.expiredays = 5 ∧
        ¬ ReadersAgree plainShell (ascii "#expiredays=3\nexpiredays=5") q.expiredays := by
  have hdays : plainShell.days
      (plainShell.expiredays (ascii "#expiredays=3\nexpiredays=5")) = some 3 := by decide
  obtain ⟨q, hrun, hq⟩ : ∃ q,
      runStmts commentedStart [.loadConfig, .readExpiredays] (Proxy.new none) = .next q ∧
        q.expiredays = 5 := ⟨_, rfl, by decide⟩
  refine ⟨hdays, q, hrun, hq, fun h => ?_⟩
  have hperiod := h.period (by decide)
  rw [hdays, hq] at hperiod
  exact absurd hperiod (by decide)

end CleanExpire

end FileCacheProxy
