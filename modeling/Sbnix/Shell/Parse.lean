import Mathlib.Data.List.TakeWhile
import Sbnix.Library.Bytes

/-! The tokenizer of the shell (`parseCmd` of `bin/sbush/sbush.c`).

A line is the list of its characters; what stands behind them is the zero. The array and
the words are the blocks that `malloc` hands out and `memset` clears, one for each pointer,
and an access beyond the end of a block, or through a null pointer, has no result.

`parseCmd_joins`: the words of a line come back, however many blanks stand between them. -/
namespace Sbnix.Shell
open Library Library.Store

def maxArgs : Nat := 8
def charSize : Nat := 22

/-- A word of the array, if it is not `NULL`. -/
abbrev Argv := Nat → Option Store

def charAt (str : List Byte) (i : Nat) : Byte := str.getD i 0

def strlen (str : List Byte) : Nat := (str.takeWhile (· ≠ 0)).length

/-- `argv[k][j] = c` -/
def setChar (argv : Argv) (k j : Nat) (c : Byte) : Option Argv :=
  if k < maxArgs ∧ j < charSize then (argv k).map fun word => Function.update argv k (some (put word j [c])) else none

/-- `argv[k] = malloc(charSize)`, and the word is cleared. -/
def newWord (argv : Argv) (k : Nat) : Option Argv :=
  if k < maxArgs then some (Function.update argv k (some fun _ => 0)) else none

/-- `argv[k] = NULL` -/
def endArgs (argv : Argv) (k : Nat) : Option Argv :=
  if k < maxArgs then some (Function.update argv k none) else none

/-- `while(str[i+1] == ' ' || str[i+1] == '\t') i++;` -/
def skipBlanks (str : List Byte) : Nat → Nat → Nat
  | 0, i => i
  | fuel + 1, i => if charAt str (i + 1) = 0x20 ∨ charAt str (i + 1) = 0x09 then skipBlanks str fuel (i + 1) else i

/-- The variables of the loop. -/
structure Scan where
  argv : Argv
  i : Nat
  j : Nat
  k : Nat

/-- The body of the loop, with the `i++` at its end. -/
def Scan.step (str : List Byte) (delimiter : Byte) (s : Scan) : Option Scan := do
  let i := if charAt str s.i = 0x20 ∧ s.i = 0 then skipBlanks str str.length s.i else s.i
  let c := charAt str i
  let (argv, j) ←
    if c ≠ delimiter ∧ c ≠ 0x0a then (setChar s.argv s.k s.j c).map (·, s.j + 1) else some (s.argv, s.j)
  if c = delimiter ∨ c = 0x0a then
    -- a command of a pipe gets its newline back
    let (argv, j) ←
      if delimiter = 0x7c ∧ j ≠ 0 then (setChar argv s.k j 0x0a).map (·, j + 1) else some (argv, j)
    let argv ← setChar argv s.k j 0
    let argv ← newWord argv (s.k + 1)
    some ⟨argv, skipBlanks str str.length i + 1, 0, s.k + 1⟩
  else some ⟨argv, i + 1, j, s.k⟩

def Scan.run (str : List Byte) (delimiter : Byte) (len : Nat) : Nat → Scan → Option Scan
  | 0, s => if s.i < len then none else some s
  | fuel + 1, s => if s.i < len then (s.step str delimiter).bind (run str delimiter len fuel) else some s

def parseCmd (str : List Byte) (delimiter : Byte) : Option Argv := do
  let argv ← newWord (fun _ => none) 0
  let s ← Scan.run str delimiter (strlen str) str.length ⟨argv, 0, 0, 0⟩
  endArgs s.argv s.k

/-! ### Lines -/

def Blank (c : Byte) : Prop := c = 0x20 ∨ c = 0x09

instance : DecidablePred Blank := fun c => inferInstanceAs (Decidable (c = 0x20 ∨ c = 0x09))

/-- A character that can stand in a word. -/
def Plain (c : Byte) : Prop := c ≠ 0 ∧ c ≠ 0x0a ∧ ¬ Blank c

instance : DecidablePred Plain := fun c => inferInstanceAs (Decidable (c ≠ 0 ∧ c ≠ 0x0a ∧ ¬ Blank c))

/-- A word that the array has room for. -/
structure Fits (w : List Byte) : Prop where
  nonempty : 1 ≤ w.length
  short : w.length ≤ 21
  plain : ∀ c ∈ w, Plain c

/-- The line is the words, with a space and any blanks after it between two of them. -/
inductive Joins : List (List Byte) → List Byte → Prop
  | last (w : List Byte) : Joins [w] w
  | next (w : List Byte) {blanks : List Byte} (h : ∀ c ∈ blanks, Blank c) {ws : List (List Byte)} {line : List Byte}
      (hrest : Joins ws line) : Joins (w :: ws) (w ++ 0x20 :: (blanks ++ line))

/-! ### One step -/

/-- The character that the body of the loop looks at. -/
def Scan.at (str : List Byte) (s : Scan) : Nat :=
  if charAt str s.i = 0x20 ∧ s.i = 0 then skipBlanks str str.length s.i else s.i

/-- What is stored at the end of a word. -/
def endWord (delimiter : Byte) (argv : Argv) (k j : Nat) : Option Argv :=
  if delimiter = 0x7c ∧ j ≠ 0 then (setChar argv k j 0x0a).bind fun argv => setChar argv k (j + 1) 0
  else setChar argv k j 0

section
variable {str : List Byte} {delimiter c : Byte} {s : Scan}

theorem at_of_ne (h : s.i ≠ 0) : s.at str = s.i := if_neg fun hc => h hc.2

theorem step_char (hc : charAt str (s.at str) = c) (hd : c ≠ delimiter) (hn : c ≠ 0x0a) :
    s.step str delimiter = (setChar s.argv s.k s.j c).map fun argv => ⟨argv, s.at str + 1, s.j + 1, s.k⟩ := by
  unfold Scan.at at hc
  unfold Scan.step Scan.at
  simp only [hc, hd, hn, ne_eq, not_false_eq_true, and_self, if_true, or_self, if_false, Option.bind_eq_bind]
  cases setChar s.argv s.k s.j c <;> rfl

theorem step_end (hc : charAt str (s.at str) = c) (hend : c = delimiter ∨ c = 0x0a) :
    s.step str delimiter = (endWord delimiter s.argv s.k s.j).bind fun argv =>
      (newWord argv (s.k + 1)).bind fun argv => some ⟨argv, skipBlanks str str.length (s.at str) + 1, 0, s.k + 1⟩ := by
  have hplain : ¬ (c ≠ delimiter ∧ c ≠ 0x0a) := by
    rw [← not_or, not_not]
    exact hend
  unfold Scan.at at hc
  unfold Scan.step Scan.at endWord
  simp only [hc, hplain, hend, if_true, if_false, Option.bind_eq_bind, Option.bind_some]
  by_cases hpipe : delimiter = 0x7c ∧ s.j ≠ 0
  · simp only [hpipe, if_true, ne_eq, not_false_eq_true, and_self]
    cases setChar s.argv s.k s.j 0x0a with
    | none => rfl
    | some argv =>
      simp only [Option.map_some, Option.bind_some]
  · simp only [hpipe, if_false]

end

/-- A cleared block after the first characters are stored. -/
def written (chars : List Byte) : Store := put (fun _ => 0) 0 chars

theorem setChar_written (argv : Argv) {k : Nat} {done : List Byte} (c : Byte) (hk : k < maxArgs)
    (hj : done.length < charSize) :
    setChar (Function.update argv k (some (written done))) k done.length c =
      some (Function.update argv k (some (written (done ++ [c])))) := by
  have hput := put_append (fun _ => 0) 0 done [c]
  rw [Nat.zero_add] at hput
  rw [setChar, if_pos ⟨hk, hj⟩, Function.update_self, Option.map_some, Function.update_idem, written, hput]
  rfl

theorem newWord_eq (argv : Argv) {k : Nat} (hk : k < maxArgs) :
    newWord argv k = some (Function.update argv k (some (written []))) := by
  rw [newWord, if_pos hk, written, put_same (holds_nil _ 0)]

/-- The scan stands at the `i`-th character, the `k`-th word is `done` so far. -/
def Scan.reading (argv : Argv) (i k : Nat) (done : List Byte) : Scan :=
  ⟨Function.update argv k (some (written done)), i, done.length, k⟩

section
variable {str done : List Byte} {argv : Argv} {i k : Nat} {c : Byte}

theorem reading_argv {n : Nat} (h : n ≠ k) : (Scan.reading argv i k done).argv n = argv n := Function.update_of_ne h ..

theorem step_plain (hc : charAt str i = c) (hp : Plain c) (hk : k < maxArgs) (hj : done.length < charSize) :
    (Scan.reading argv i k done).step str 0x20 = some (Scan.reading argv (i + 1) k (done ++ [c])) := by
  have hspace : c ≠ 0x20 := fun h => hp.2.2 (Or.inl h)
  have hat : (Scan.reading argv i k done).at str = i := if_neg fun h => hspace (hc.symm.trans h.1)
  have hset := setChar_written argv c hk hj
  rw [step_char (by rw [hat]; exact hc) hspace hp.2.1, hat]
  simp only [Scan.reading, hset, Option.map_some, List.length_append, List.length_singleton]

/-- The end of a word, which is not the first character. -/
theorem step_delimiter (hc : charAt str i = c) (hend : c = 0x20 ∨ c = 0x0a) (hi : i ≠ 0) (hk : k + 1 < maxArgs)
    (hj : done.length < charSize) :
    (Scan.reading argv i k done).step str 0x20 =
      some (Scan.reading (Function.update argv k (some (written (done ++ [0])))) (skipBlanks str str.length i + 1)
        (k + 1) []) := by
  have hat : (Scan.reading argv i k done).at str = i := at_of_ne hi
  have hset := setChar_written argv 0 (Nat.lt_of_succ_lt hk) hj
  have hnew := newWord_eq (Function.update argv k (some (written (done ++ [0])))) hk
  have hpipe : ¬ ((0x20 : Byte) = 0x7c ∧ done.length ≠ 0) := fun h => absurd h.1 (by decide)
  rw [step_end (by rw [hat]; exact hc) hend, hat]
  simp only [Scan.reading, endWord, hpipe, if_false, hset, Option.bind_some, hnew, List.length_nil]

end

/-! ### From word to word -/

theorem charAt_append (xs ys : List Byte) : charAt (xs ++ ys) xs.length = charAt ys 0 := by
  rw [charAt, List.getD_append_right xs ys 0 xs.length (Nat.le_refl _), Nat.sub_self]
  rfl

theorem skipBlanks_eq {pre blanks rest : List Byte} {i fuel : Nat} (hi : i + 1 = pre.length)
    (hb : ∀ c ∈ blanks, Blank c) (hrest : ¬ Blank (charAt rest 0)) (hf : blanks.length ≤ fuel) :
    skipBlanks (pre ++ (blanks ++ rest)) fuel i = i + blanks.length := by
  induction blanks generalizing pre i fuel with
  | nil =>
    cases fuel with
    | zero => rfl
    | succ fuel =>
      have hchar : charAt (pre ++ ([] ++ rest)) (i + 1) = charAt rest 0 := hi ▸ charAt_append pre rest
      rw [skipBlanks, hchar]
      exact if_neg hrest
  | cons c blanks ih =>
    obtain ⟨fuel, rfl⟩ := Nat.exists_eq_succ_of_ne_zero (show fuel ≠ 0 by simp at hf; omega)
    have hblank : c = 0x20 ∨ c = 0x09 := hb c List.mem_cons_self
    have hchar : charAt (pre ++ (c :: blanks ++ rest)) (i + 1) = c := hi ▸ charAt_append pre (c :: blanks ++ rest)
    have hnext : skipBlanks ((pre ++ [c]) ++ (blanks ++ rest)) fuel (i + 1) = i + 1 + blanks.length :=
      ih (by rw [List.length_append, ← hi]; rfl) (fun b hb' => hb b (List.mem_cons_of_mem c hb'))
        (Nat.le_of_succ_le_succ hf)
    rw [List.append_assoc] at hnext
    rw [skipBlanks, hchar, if_pos hblank, List.length_cons]
    exact hnext.trans (by omega)

theorem run_step {str : List Byte} {delimiter : Byte} {len fuel : Nat} {s s' : Scan} (hi : s.i < len)
    (hstep : s.step str delimiter = some s') : s.run str delimiter len (fuel + 1) = s'.run str delimiter len fuel := by
  rw [Scan.run, if_pos hi, hstep, Option.bind_some]

theorem run_done {str : List Byte} {delimiter : Byte} {len : Nat} {s : Scan} (hi : ¬ s.i < len) (fuel : Nat) :
    s.run str delimiter len fuel = some s := by
  cases fuel with
  | zero => exact if_neg hi
  | succ fuel => exact if_neg hi

section
variable {str pre rest : List Byte} {argv : Argv} {k fuel : Nat}

/-- The characters of a word are stored one after the other. -/
theorem run_plain {w done : List Byte} (hstr : str = pre ++ (w ++ rest)) (hw : ∀ c ∈ w, Plain c)
    (hk : k < maxArgs) (hroom : done.length + w.length ≤ charSize) :
    (Scan.reading argv pre.length k done).run str 0x20 str.length (fuel + w.length) =
      (Scan.reading argv (pre ++ w).length k (done ++ w)).run str 0x20 str.length fuel := by
  induction w generalizing pre done with
  | nil => simp
  | cons c w ih =>
    have hchar : charAt str pre.length = c := hstr ▸ charAt_append pre (c :: w ++ rest)
    have hin : pre.length < str.length := by simp [hstr]
    rw [List.length_cons] at hroom
    have hnext : (Scan.reading argv (pre ++ [c]).length k (done ++ [c])).run str 0x20 str.length (fuel + w.length) =
        (Scan.reading argv ((pre ++ [c]) ++ w).length k ((done ++ [c]) ++ w)).run str 0x20 str.length fuel :=
      ih (by rw [hstr, List.append_assoc]; rfl) (fun b hb => hw b (List.mem_cons_of_mem c hb))
        (by rw [List.length_append, List.length_singleton]; omega)
    rw [List.append_assoc, List.append_assoc, List.length_append, List.length_singleton] at hnext
    rw [List.length_cons, ← Nat.add_assoc, run_step hin (step_plain hchar (hw c List.mem_cons_self) hk (by omega))]
    exact hnext

/-- A word, the character that ends it and the blanks after that. -/
theorem run_word {w blanks : List Byte} {c : Byte} (hstr : str = pre ++ (w ++ c :: (blanks ++ rest)))
    (hw : Fits w) (hend : c = 0x20 ∨ c = 0x0a) (hb : ∀ c ∈ blanks, Blank c) (hrest : ¬ Blank (charAt rest 0))
    (hk : k + 1 < maxArgs) :
    (Scan.reading argv pre.length k []).run str 0x20 str.length (fuel + 1 + w.length) =
      (Scan.reading (Function.update argv k (some (written (w ++ [0])))) (pre ++ w ++ c :: blanks).length (k + 1) []).run
        str 0x20 str.length fuel := by
  have hroom : w.length < charSize := Nat.lt_succ_of_le hw.short
  have hsplit : str = (pre ++ w ++ [c]) ++ (blanks ++ rest) := by simp [hstr]
  have hchar : charAt str (pre ++ w).length = c := by
    have hat := charAt_append (pre ++ w) (c :: (blanks ++ rest))
    rwa [List.append_assoc, ← hstr] at hat
  have hin : (pre ++ w).length < str.length := by simp [hstr]
  have hfirst : (pre ++ w).length ≠ 0 := by
    have := hw.nonempty
    rw [List.length_append]
    omega
  have hskip : skipBlanks str str.length (pre ++ w).length = (pre ++ w).length + blanks.length := by
    have hlen : blanks.length ≤ str.length := by
      simp only [hsplit, List.length_append]
      omega
    have hlast : (pre ++ w).length + 1 = (pre ++ w ++ [c]).length := by simp only [List.length_append, List.length_singleton]
    have heq := skipBlanks_eq hlast hb hrest hlen
    rwa [← hsplit] at heq
  rw [run_plain hstr hw.plain (Nat.lt_of_succ_lt hk) (by simpa using hroom.le), List.nil_append,
    run_step hin (step_delimiter hchar hend hfirst hk hroom), hskip]
  congr 2
  simp only [List.length_append, List.length_cons]
  omega

/-- A line of words begins with a character of the first one. -/
theorem Joins.plain {ws : List (List Byte)} {line : List Byte} (hjoin : Joins ws line) (hws : ∀ w ∈ ws, Fits w)
    (tail : List Byte) : Plain (charAt (line ++ tail) 0) := by
  have hfirst : ∀ {w : List Byte}, Fits w → ∀ tail, Plain (charAt (w ++ tail) 0) := by
    intro w hw tail
    cases w with
    | nil => exact absurd hw.nonempty (by decide)
    | cons c w => exact hw.plain c List.mem_cons_self
  cases hjoin with
  | last => exact hfirst (hws line List.mem_cons_self) tail
  | next w hb hrest =>
    rw [List.append_assoc]
    exact hfirst (hws w List.mem_cons_self) _

/-- The words of a line are stored in order, after those that are there already. -/
theorem run_joins {ws : List (List Byte)} {line : List Byte} (hjoin : Joins ws line) (hws : ∀ w ∈ ws, Fits w)
    (hstr : str = pre ++ (line ++ [0x0a])) (hk : k + ws.length < maxArgs) (hfuel : line.length + 1 ≤ fuel) :
    ∃ s, (Scan.reading argv pre.length k []).run str 0x20 str.length fuel = some s ∧ s.k = k + ws.length ∧
      (∀ n (hn : n < ws.length), s.argv (k + n) = some (written (ws[n] ++ [0]))) ∧ ∀ n < k, s.argv n = argv n := by
  induction hjoin generalizing pre argv k fuel with
  | last w =>
    obtain ⟨fuel, rfl⟩ := Nat.exists_eq_add_of_le' hfuel
    have hline : str = pre ++ (w ++ 0x0a :: ([] ++ [])) := hstr
    have hfit : Fits w := hws w List.mem_cons_self
    have hdone : ¬ (pre ++ w ++ [0x0a]).length < str.length := by simp [hline]
    have hrun : (Scan.reading argv pre.length k []).run str 0x20 str.length (fuel + 1 + w.length) =
        some (Scan.reading (Function.update argv k (some (written (w ++ [0])))) (pre ++ w ++ [0x0a]).length (k + 1) []) := by
      rw [run_word hline hfit (Or.inr rfl) (fun _ h => absurd h List.not_mem_nil) (by decide) hk]
      exact run_done hdone fuel
    rw [Nat.add_right_comm, Nat.add_assoc] at hrun
    refine ⟨_, hrun, rfl, ?_, ?_⟩
    · intro n hn
      obtain rfl : n = 0 := Nat.lt_one_iff.mp hn
      rw [reading_argv (by omega), Nat.add_zero, Function.update_self, List.getElem_singleton]
    · intro n hn
      rw [reading_argv (by omega), Function.update_of_ne (by omega)]
  | @next w blanks hb ws line hrest ih =>
    have hws' : ∀ w ∈ ws, Fits w := fun w hw => hws w (List.mem_cons_of_mem _ hw)
    have hfit : Fits w := hws w List.mem_cons_self
    have hline : str = pre ++ (w ++ 0x20 :: (blanks ++ (line ++ [0x0a]))) := by simp [hstr]
    simp only [List.length_append, List.length_cons] at hfuel hk
    obtain ⟨fuel, rfl⟩ : ∃ f, fuel = f + 1 + w.length := ⟨fuel - 1 - w.length, by omega⟩
    -- the words behind this one are stored from the next place on, and leave it alone
    obtain ⟨s, hrun, hsk, hwords, hbefore⟩ := @ih (pre ++ w ++ 0x20 :: blanks)
      (Function.update argv k (some (written (w ++ [0])))) (k + 1) fuel hws' (by simp [hline]) (by omega) (by omega)
    rw [← run_word hline hfit (Or.inl rfl) hb (hrest.plain hws' [0x0a]).2.2 (by omega)] at hrun
    refine ⟨s, hrun, by rw [hsk, List.length_cons]; omega, ?_, ?_⟩
    · intro n hn
      cases n with
      | zero => rw [Nat.add_zero, hbefore k (Nat.lt_succ_self k), Function.update_self, List.getElem_cons_zero]
      | succ n =>
        have hnext := hwords n (Nat.lt_of_succ_lt_succ hn)
        rw [Nat.add_right_comm] at hnext
        exact hnext
    · intro n hn
      rw [hbefore n (Nat.lt_succ_of_lt hn), Function.update_of_ne (by omega)]

end

/-! ### The whole line -/

theorem Joins.nonzero {ws : List (List Byte)} {line : List Byte} (hjoin : Joins ws line) (hws : ∀ w ∈ ws, Fits w) :
    ∀ c ∈ line, c ≠ 0 := by
  induction hjoin with
  | last w => exact fun c hc => ((hws w List.mem_cons_self).plain c hc).1
  | next w hb hrest ih =>
    intro c hc
    rw [List.mem_append, List.mem_cons, List.mem_append] at hc
    obtain hc | rfl | hc | hc := hc
    · exact ((hws w List.mem_cons_self).plain c hc).1
    · decide
    · obtain rfl | rfl := hb c hc
      · decide
      · decide
    · exact ih (fun w hw => hws w (List.mem_cons_of_mem _ hw)) c hc

theorem strlen_eq {str : List Byte} (h : ∀ c ∈ str, c ≠ 0) : strlen str = str.length := by
  rw [strlen, List.takeWhile_eq_self_iff.mpr (by simpa using h)]

theorem written_spells {w : List Byte} (hw : Fits w) : Spells (written (w ++ [0])) 0 w :=
  ⟨put_holds _ 0 _, fun h => (hw.plain 0 h).1 rfl⟩

/-- The words of a line, one to seven of them, come back in order, and `NULL` after them. -/
theorem parseCmd_joins {ws : List (List Byte)} {line : List Byte} (hjoin : Joins ws line) (hws : ∀ w ∈ ws, Fits w)
    (hlen : ws.length ≤ 7) :
    ∃ argv, parseCmd (line ++ [0x0a]) 0x20 = some argv ∧
      (∀ n (hn : n < ws.length), ∃ word, argv n = some word ∧ Spells word 0 ws[n]) ∧ argv ws.length = none := by
  have hroom : 0 + ws.length < maxArgs := by
    unfold maxArgs
    omega
  have hnonzero : ∀ c ∈ line ++ [0x0a], c ≠ 0 := by
    intro c hc
    obtain hc | hc := List.mem_append.mp hc
    · exact hjoin.nonzero hws c hc
    · rw [List.mem_singleton.mp hc]
      decide
  have hfuel : line.length + 1 ≤ (line ++ [0x0a]).length := by rw [List.length_append, List.length_singleton]
  have hnew := newWord_eq (fun _ => none) (show 0 < maxArgs by decide)
  obtain ⟨s, hrun, hk, hwords, -⟩ := run_joins hjoin hws (List.nil_append (line ++ [0x0a])).symm hroom hfuel
  rw [Nat.zero_add] at hk hroom
  refine ⟨Function.update s.argv ws.length none, ?_, ?_, Function.update_self ..⟩
  · have hend : endArgs s.argv s.k = some (Function.update s.argv ws.length none) := by
      rw [hk]
      exact if_pos hroom
    rw [parseCmd, hnew, strlen_eq hnonzero]
    exact (congrArg (·.bind fun s => endArgs s.argv s.k) hrun).trans hend
  · intro n hn
    have hword := hwords n hn
    rw [Nat.zero_add] at hword
    refine ⟨written (ws[n] ++ [0]), ?_, written_spells (hws _ (List.getElem_mem hn))⟩
    rw [Function.update_of_ne hn.ne]
    exact hword

theorem parseCmd_joins_ls :
    ∃ argv, parseCmd ([0x6c, 0x73, 0x20, 0x09, 0x20, 0x2f] ++ [0x0a]) 0x20 = some argv ∧
      (∀ n (hn : n < [[0x6c, 0x73], [0x2f]].length), ∃ word, argv n = some word ∧
        Spells word 0 ([[0x6c, 0x73], [0x2f]] : List (List Byte))[n]) ∧ argv 2 = none := by
  have hjoin : Joins [[0x6c, 0x73], [0x2f]] [0x6c, 0x73, 0x20, 0x09, 0x20, 0x2f] :=
    .next [0x6c, 0x73] (show ∀ c ∈ [0x09, 0x20], Blank c by decide) (.last [0x2f])
  have hfits : ∀ w ∈ [[0x6c, 0x73], [0x2f]], Fits w := by
    intro w hw
    obtain rfl | rfl := List.mem_pair.mp hw
    · exact ⟨by decide, by decide, by decide⟩
    · exact ⟨by decide, by decide, by decide⟩
  exact parseCmd_joins hjoin hfits (by decide)

end Sbnix.Shell
