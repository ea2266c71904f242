import Mathlib.Logic.Relation
import Sbnix.Shell.Parse

/-! The bounds of the tokenizer (`parseCmd` of `bin/sbush/sbush.c`).

The array has `maxArgs` places and each of its words `charSize`, and the loop compares no
index with either. The last place of the array is for the `NULL`, the last character of a
word for its zero, and a command of a pipe that is not empty also stores a newline.

`parseCmd_bounds`: how a line is cut into pieces decides whether every index is in bounds. -/
namespace Sbnix.Shell
open Library Relation

def cmdSize : Nat := maxArgs * charSize

/-- The characters of a line that fits the input buffer, without the newline behind them. -/
structure Line (chars : List Byte) : Prop where
  fits : chars.length ≤ cmdSize - 2
  nonzero : ∀ c ∈ chars, c ≠ 0

/-! ### What is used -/

/-- The indices into the array, and those into a word of it. -/
structure Uses where
  args : List Nat
  chars : List Nat

structure Uses.InBounds (u : Uses) : Prop where
  args : ∀ k ∈ u.args, k < maxArgs
  chars : ∀ j ∈ u.chars, j < charSize

/-- The indices that the body of the loop uses, and `argv[k] = NULL` after the loop. -/
def Scan.uses (str : List Byte) (delimiter : Byte) (s : Scan) : Uses :=
  if s.i < strlen str then
    if charAt str (s.at str) = delimiter ∨ charAt str (s.at str) = 0x0a then
      -- `argv[k + 1]` is set here, before a character of the next word is read
      ⟨[s.k, s.k + 1], if delimiter = 0x7c ∧ s.j ≠ 0 then [s.j, s.j + 1] else [s.j]⟩
    else ⟨[s.k], [s.j]⟩
  else ⟨[s.k], []⟩

def Moves (str : List Byte) (delimiter : Byte) (s s' : Scan) : Prop :=
  s.i < strlen str ∧ s.step str delimiter = some s'

/-- From here on every index is in bounds. -/
def Safe (str : List Byte) (delimiter : Byte) (s : Scan) : Prop :=
  ∀ s', ReflTransGen (Moves str delimiter) s s' → (s'.uses str delimiter).InBounds

/-- Every index that `parseCmd` uses is in bounds. -/
def Bounded (str : List Byte) (delimiter : Byte) : Prop :=
  ∀ argv, newWord (fun _ => none) 0 = some argv → Safe str delimiter ⟨argv, 0, 0, 0⟩

/-! ### The pieces of a line -/

/-- A line is cut at the delimiter and at a newline, and blanks behind a cut are dropped;
`done` is the piece so far. -/
def cuts (delimiter : Byte) : Bool → List Byte → List Byte → List (List Byte)
  | _, done, [] => [done]
  | skip, done, c :: rest =>
    if skip = true ∧ Blank c then cuts delimiter true done rest
    else if c = delimiter ∨ c = 0x0a then done :: cuts delimiter true [] rest
    else cuts delimiter false (done ++ [c]) rest

/-- Of the blanks before a line only the last is read, if the first is a space. -/
def lead (chars : List Byte) : List Byte :=
  if charAt chars 0 = 0x20 then chars.drop ((chars.takeWhile (Blank ·)).length - 1) else chars

def pieces (delimiter : Byte) (chars : List Byte) : List (List Byte) := cuts delimiter false [] (lead chars)

/-- A word has room for so many characters and for what is stored behind them. -/
def Room (delimiter : Byte) (n : Nat) : Prop := (if delimiter = 0x7c ∧ n ≠ 0 then n + 1 else n) < charSize

theorem Room.lt {delimiter : Byte} {n : Nat} (h : Room delimiter n) : n < charSize := by
  unfold Room at h
  split at h
  · exact Nat.lt_of_succ_lt h
  · exact h

theorem room_iff (delimiter : Byte) (n : Nat) : Room delimiter n ↔ n ≤ if delimiter = 0x7c then 20 else 21 := by
  unfold Room charSize
  by_cases hpipe : delimiter = 0x7c
  · rw [if_pos hpipe]
    by_cases hn : n = 0
    · simp [hn]
    · rw [if_pos ⟨hpipe, hn⟩]
      omega
  · rw [if_neg hpipe, if_neg fun h => hpipe h.1]
    omega

/-- The piece that is read keeps the characters it has. -/
theorem exists_mem_cuts (delimiter : Byte) (skip : Bool) (done rest : List Byte) :
    ∃ p ∈ cuts delimiter skip done rest, done.length ≤ p.length := by
  induction rest generalizing skip done with
  | nil => exact ⟨done, List.mem_singleton_self done, Nat.le_refl _⟩
  | cons c rest ih =>
    unfold cuts
    split
    · exact ih true done
    · split
      · exact ⟨done, List.mem_cons_self, Nat.le_refl _⟩
      · obtain ⟨p, hp, hle⟩ := ih false (done ++ [c])
        rw [List.length_append] at hle
        exact ⟨p, hp, Nat.le_of_add_right_le hle⟩

/-! ### One step -/

section
variable {argv : Argv} {delimiter : Byte} {k j : Nat}

theorem setChar_some (c : Byte) (hw : (argv k).isSome) (hk : k < maxArgs) (hj : j < charSize) :
    ∃ argv', setChar argv k j c = some argv' ∧ (argv' k).isSome := by
  obtain ⟨word, hword⟩ := Option.isSome_iff_exists.mp hw
  refine ⟨Function.update argv k (some (Store.put word j [c])), ?_, ?_⟩
  · rw [setChar, if_pos ⟨hk, hj⟩, hword, Option.map_some]
  · rw [Function.update_self]
    rfl

theorem endWord_some (hw : (argv k).isSome) (hk : k < maxArgs) (hj : Room delimiter j) :
    ∃ argv', endWord delimiter argv k j = some argv' := by
  unfold endWord
  unfold Room at hj
  split at hj
  next hpipe =>
    obtain ⟨argv₁, hset, hw₁⟩ := setChar_some 0x0a hw hk (Nat.lt_of_succ_lt hj)
    obtain ⟨argv₂, hset₂, -⟩ := setChar_some 0 hw₁ hk hj
    exact ⟨argv₂, by rw [if_pos hpipe, hset, Option.bind_some, hset₂]⟩
  next hpipe =>
    obtain ⟨argv₁, hset, -⟩ := setChar_some 0 hw hk hj
    exact ⟨argv₁, by rw [if_neg hpipe, hset]⟩

end

section
variable {str : List Byte} {delimiter : Byte} {s : Scan}

theorem le_at (str : List Byte) (s : Scan) : s.i ≤ s.at str := by
  unfold Scan.at
  split
  next h =>
    rw [h.2]
    exact Nat.zero_le _
  next => exact Nat.le_refl _

theorem le_skipBlanks (str : List Byte) (fuel i : Nat) : i ≤ skipBlanks str fuel i := by
  induction fuel generalizing i with
  | zero => exact Nat.le_refl i
  | succ fuel ih =>
    unfold skipBlanks
    split
    · exact Nat.le_of_succ_le (ih (i + 1))
    · exact Nat.le_refl i

theorem step_char_some {c : Byte} (hc : charAt str (s.at str) = c) (hend : ¬ (c = delimiter ∨ c = 0x0a))
    (hw : (s.argv s.k).isSome) (hk : s.k < maxArgs) (hj : s.j < charSize) :
    ∃ argv, s.step str delimiter = some ⟨argv, s.at str + 1, s.j + 1, s.k⟩ ∧ (argv s.k).isSome := by
  obtain ⟨hd, hn⟩ := not_or.mp hend
  obtain ⟨argv, hset, hw'⟩ := setChar_some c hw hk hj
  exact ⟨argv, by rw [step_char hc hd hn, hset, Option.map_some], hw'⟩

theorem step_end_some {c : Byte} (hc : charAt str (s.at str) = c) (hend : c = delimiter ∨ c = 0x0a)
    (hw : (s.argv s.k).isSome) (hk : s.k + 1 < maxArgs) (hj : Room delimiter s.j) :
    ∃ argv, s.step str delimiter = some ⟨argv, skipBlanks str str.length (s.at str) + 1, 0, s.k + 1⟩ ∧
      (argv (s.k + 1)).isSome := by
  obtain ⟨argv, hset⟩ := endWord_some hw (Nat.lt_of_succ_lt hk) hj
  refine ⟨Function.update argv (s.k + 1) (some (written [])), ?_, ?_⟩
  · rw [step_end hc hend, hset, Option.bind_some, newWord_eq argv hk, Option.bind_some]
  · rw [Function.update_self]
    rfl

theorem uses_char {c : Byte} (hi : s.i < strlen str) (hc : charAt str (s.at str) = c)
    (hend : ¬ (c = delimiter ∨ c = 0x0a)) :
    (s.uses str delimiter).InBounds ↔ s.k < maxArgs ∧ s.j < charSize := by
  rw [Scan.uses, if_pos hi, hc, if_neg hend]
  exact ⟨fun h => ⟨h.args _ List.mem_cons_self, h.chars _ List.mem_cons_self⟩,
    fun h => ⟨by simpa using h.1, by simpa using h.2⟩⟩

theorem uses_end {c : Byte} (hi : s.i < strlen str) (hc : charAt str (s.at str) = c)
    (hend : c = delimiter ∨ c = 0x0a) :
    (s.uses str delimiter).InBounds ↔ s.k + 1 < maxArgs ∧ Room delimiter s.j := by
  have hchars : (∀ j ∈ if delimiter = 0x7c ∧ s.j ≠ 0 then [s.j, s.j + 1] else [s.j], j < charSize) ↔
      Room delimiter s.j := by
    unfold Room
    split
    · simpa using Nat.lt_of_succ_lt
    · simp
  rw [Scan.uses, if_pos hi, hc, if_pos hend, ← hchars]
  refine ⟨fun h => ⟨h.args _ (List.mem_cons_of_mem _ List.mem_cons_self), h.chars⟩, fun h => ⟨?_, h.2⟩⟩
  simpa using ⟨Nat.lt_of_succ_lt h.1, h.1⟩

theorem uses_done (hi : ¬ s.i < strlen str) : (s.uses str delimiter).InBounds ↔ s.k < maxArgs := by
  rw [Scan.uses, if_neg hi]
  exact ⟨fun h => h.args _ List.mem_cons_self, fun h => ⟨by simpa using h, fun _ hj => absurd hj List.not_mem_nil⟩⟩

/-! ### All steps -/

theorem safe_done (hi : ¬ s.i < strlen str) : Safe str delimiter s ↔ s.k < maxArgs := by
  rw [← uses_done hi]
  refine ⟨fun h => h s .refl, fun h s' hs' => ?_⟩
  obtain rfl | ⟨_, hmove, -⟩ := hs'.cases_head
  · exact h
  · exact absurd hmove.1 hi

/-- What a step needs, and what the steps behind it need. -/
theorem safe_step {P Q : Prop} (hi : s.i < strlen str) (huses : (s.uses str delimiter).InBounds ↔ P)
    (hnext : P → ∃ s', s.step str delimiter = some s' ∧ (Safe str delimiter s' ↔ Q)) :
    Safe str delimiter s ↔ P ∧ Q := by
  constructor
  · intro h
    have hp : P := huses.mp (h s .refl)
    obtain ⟨s', hstep, hsafe⟩ := hnext hp
    exact ⟨hp, hsafe.mp fun t ht => h t (.head ⟨hi, hstep⟩ ht)⟩
  · rintro ⟨hp, hq⟩ t ht
    obtain ⟨s', hstep, hsafe⟩ := hnext hp
    obtain rfl | ⟨s'', ⟨-, hstep'⟩, hrest⟩ := ht.cases_head
    · exact huses.mpr hp
    · obtain rfl : s' = s'' := Option.some.inj (hstep.symm.trans hstep')
      exact hsafe.mpr hq t hrest

end

theorem skipBlanks_takeWhile {str pre rest : List Byte} {i : Nat} (hstr : str = pre ++ (rest ++ [0x0a]))
    (hi : i + 1 = pre.length) :
    skipBlanks str str.length i = i + (rest.takeWhile (Blank ·)).length := by
  have hsplit : str = pre ++ (rest.takeWhile (Blank ·) ++ (rest.dropWhile (Blank ·) ++ [0x0a])) := by
    rw [← List.append_assoc (rest.takeWhile _), List.takeWhile_append_dropWhile, hstr]
  have hblanks : ∀ c ∈ rest.takeWhile (Blank ·), Blank c := by
    intro c hc
    simpa using List.mem_takeWhile_imp hc
  have hstop : ¬ Blank (charAt (rest.dropWhile (Blank ·) ++ [0x0a]) 0) := by
    cases hrest : rest.dropWhile (Blank ·) with
    | nil => decide
    | cons c tail =>
      have hc := List.head_dropWhile_not (Blank ·) (l := rest) (by rw [hrest]; exact List.cons_ne_nil c tail)
      simpa [hrest, charAt] using hc
  have hlen : (rest.takeWhile (Blank ·)).length ≤ str.length := by
    simp only [hsplit, List.length_append]
    omega
  have heq := skipBlanks_eq hi hblanks hstop hlen
  rwa [← hsplit] at heq

/-- The pieces from the `k`-th on, the first of which is read, have places and room. -/
def Fit (delimiter : Byte) (k : Nat) (ps : List (List Byte)) : Prop :=
  k + ps.length < maxArgs ∧ ∀ p ∈ ps, Room delimiter p.length

theorem fit_cons {delimiter : Byte} {k : Nat} {p : List Byte} {ps : List (List Byte)} (hne : 1 ≤ ps.length) :
    Fit delimiter k (p :: ps) ↔ (k + 1 < maxArgs ∧ Room delimiter p.length) ∧ Fit delimiter (k + 1) ps := by
  unfold Fit
  rw [List.forall_mem_cons, List.length_cons]
  have hlen : k + (ps.length + 1) = k + 1 + ps.length := by omega
  rw [hlen]
  refine ⟨fun h => ⟨⟨by omega, h.2.1⟩, h.1, h.2.2⟩, fun h => ⟨h.2.1, h.1.2, h.2.2⟩⟩

section
variable {str pre rest : List Byte} {delimiter c : Byte} {s : Scan}

/-- The piece that is read goes on with a character. -/
theorem safe_char {Q : Prop} (hi : s.i < strlen str) (hc : charAt str (s.at str) = c)
    (hend : ¬ (c = delimiter ∨ c = 0x0a)) (hw : (s.argv s.k).isSome)
    (hnext : ∀ argv : Argv, (argv s.k).isSome → (Safe str delimiter ⟨argv, s.at str + 1, s.j + 1, s.k⟩ ↔ Q)) :
    Safe str delimiter s ↔ (s.k < maxArgs ∧ s.j < charSize) ∧ Q := by
  apply safe_step hi (uses_char hi hc hend)
  rintro ⟨hk, hj⟩
  obtain ⟨argv, hstep, hw'⟩ := step_char_some hc hend hw hk hj
  exact ⟨_, hstep, hnext argv hw'⟩

/-- The piece that is read ends, and the blanks behind it are skipped. -/
theorem safe_end {Q : Prop} (hi : s.i < strlen str) (hc : charAt str (s.at str) = c)
    (hend : c = delimiter ∨ c = 0x0a) (hw : (s.argv s.k).isSome)
    (hnext : ∀ argv : Argv, (argv (s.k + 1)).isSome →
      (Safe str delimiter ⟨argv, skipBlanks str str.length (s.at str) + 1, 0, s.k + 1⟩ ↔ Q)) :
    Safe str delimiter s ↔ (s.k + 1 < maxArgs ∧ Room delimiter s.j) ∧ Q := by
  apply safe_step hi (uses_end hi hc hend)
  rintro ⟨hk, hj⟩
  obtain ⟨argv, hstep, hw'⟩ := step_end_some hc hend hw hk hj
  exact ⟨_, hstep, hnext argv hw'⟩

theorem scan_char (hlen : strlen str = str.length) (hstr : str = pre ++ c :: rest) (hat : s.at str = pre.length) :
    s.i < strlen str ∧ charAt str (s.at str) = c := by
  have hle := le_at str s
  constructor
  · rw [hlen, hstr, List.length_append, List.length_cons]
    omega
  · rw [hat, hstr]
    exact charAt_append pre (c :: rest)

/-- The newline ends the last piece, and the loop. -/
theorem safe_newline (hlen : strlen str = str.length) (hstr : str = pre ++ [0x0a]) (hw : (s.argv s.k).isSome)
    (hat : s.at str = pre.length) : Safe str delimiter s ↔ s.k + 1 < maxArgs ∧ Room delimiter s.j := by
  have hlast : pre.length + 1 = str.length := by rw [hstr, List.length_append, List.length_singleton]
  have hskip : skipBlanks str str.length (s.at str) = pre.length := by
    have heq := skipBlanks_eq hlast (fun _ h => absurd h List.not_mem_nil) (show ¬ Blank (charAt [] 0) by decide)
      (Nat.zero_le str.length)
    rw [List.nil_append, List.append_nil] at heq
    rw [hat]
    exact heq
  obtain ⟨hi, hc⟩ := scan_char hlen hstr hat
  rw [safe_end (Q := s.k + 1 < maxArgs) hi hc (Or.inr rfl) hw]
  · exact ⟨fun h => h.1, fun h => ⟨h, h.1⟩⟩
  · intro argv _
    apply safe_done
    show ¬ skipBlanks str str.length (s.at str) + 1 < strlen str
    rw [hskip, hlen, hlast]
    exact Nat.lt_irrefl _

/-- A scan that has read `pre`, and `done` of the piece it is in. -/
theorem safe_cuts {done : List Byte} {skip : Bool} (hlen : strlen str = str.length)
    (hstr : str = pre ++ (rest ++ [0x0a])) (hw : (s.argv s.k).isSome) (hj : s.j = done.length)
    (hat : s.at str = pre.length + if skip then (rest.takeWhile (Blank ·)).length else 0) :
    Safe str delimiter s ↔ Fit delimiter s.k (cuts delimiter skip done rest) := by
  induction rest generalizing pre done skip s with
  | nil =>
    have hpre : s.at str = pre.length := by simpa using hat
    rw [safe_newline hlen hstr hw hpre, hj]
    simp [Fit, cuts]
  | cons c rest ih =>
    have hnext : str = (pre ++ [c]) ++ (rest ++ [0x0a]) := by simp [hstr]
    have hlast : (pre ++ [c]).length = pre.length + 1 := by rw [List.length_append, List.length_singleton]
    by_cases hblank : skip = true ∧ Blank c
    · obtain ⟨rfl, hb⟩ := hblank
      rw [cuts, if_pos ⟨rfl, hb⟩]
      apply ih hnext hw hj
      rw [hat, hlast, if_pos rfl, if_pos rfl, List.takeWhile_cons_of_pos (by simpa using hb), List.length_cons]
      omega
    · have hpre : s.at str = pre.length := by
        rw [hat]
        split
        next hskip =>
          have hc : ¬ Blank c := fun hb => hblank ⟨hskip, hb⟩
          rw [List.takeWhile_cons_of_neg (by simpa using hc)]
          rfl
        next => rfl
      obtain ⟨hi, hc⟩ := scan_char hlen hstr hpre
      rw [cuts, if_neg hblank]
      split
      next hend =>
        obtain ⟨p, hp, -⟩ := exists_mem_cuts delimiter true [] rest
        rw [fit_cons (List.length_pos_of_mem hp), ← hj]
        apply safe_end hi hc hend hw
        intro argv hw'
        apply ih hnext hw' rfl
        rw [at_of_ne (Nat.succ_ne_zero _), hpre, skipBlanks_takeWhile hnext hlast.symm, hlast, if_pos rfl]
        exact Nat.add_right_comm _ _ _
      next hend =>
        -- the piece with this character has room, and so the character has
        obtain ⟨p, hp, hle⟩ := exists_mem_cuts delimiter false (done ++ [c]) rest
        rw [List.length_append, List.length_singleton] at hle
        rw [safe_char (Q := Fit delimiter s.k (cuts delimiter false (done ++ [c]) rest)) hi hc hend hw]
        · refine ⟨fun h => h.2, fun h => ⟨⟨?_, ?_⟩, h⟩⟩
          · exact Nat.lt_of_le_of_lt (Nat.le_add_right _ _) h.1
          · have hroom := (h.2 p hp).lt
            omega
        · intro argv hw'
          apply ih hnext hw'
          · rw [List.length_append, List.length_singleton, ← hj]
          · rw [at_of_ne (Nat.succ_ne_zero _), hpre, hlast]
            rfl

end

/-! ### The whole run -/

section
variable {str : List Byte} {delimiter : Byte} {s : Scan}

theorem setChar_bounds {argv argv' : Argv} {k j : Nat} {c : Byte} (h : setChar argv k j c = some argv') :
    k < maxArgs ∧ j < charSize := by
  by_contra hout
  rw [setChar, if_neg hout] at h
  exact absurd h (Option.some_ne_none argv').symm

theorem endWord_room {argv argv' : Argv} {k j : Nat} (h : endWord delimiter argv k j = some argv') :
    Room delimiter j := by
  unfold endWord at h
  unfold Room
  split at h
  next hpipe =>
    obtain ⟨argv₁, -, hset⟩ := Option.bind_eq_some_iff.mp h
    rw [if_pos hpipe]
    exact (setChar_bounds hset).2
  next hpipe =>
    rw [if_neg hpipe]
    exact (setChar_bounds h).2

theorem step_bounds {s' : Scan} (hi : s.i < strlen str) (hstep : s.step str delimiter = some s') :
    (s.uses str delimiter).InBounds := by
  by_cases hend : charAt str (s.at str) = delimiter ∨ charAt str (s.at str) = 0x0a
  · rw [step_end rfl hend] at hstep
    obtain ⟨argv, hword, hnext⟩ := Option.bind_eq_some_iff.mp hstep
    obtain ⟨argv', hnew, -⟩ := Option.bind_eq_some_iff.mp hnext
    have hk : s.k + 1 < maxArgs := by
      by_contra hout
      rw [newWord, if_neg hout] at hnew
      exact absurd hnew (Option.some_ne_none argv').symm
    exact (uses_end hi rfl hend).mpr ⟨hk, endWord_room hword⟩
  · rw [step_char rfl (not_or.mp hend).1 (not_or.mp hend).2] at hstep
    obtain ⟨argv, hset, -⟩ := Option.map_eq_some_iff.mp hstep
    exact (uses_char hi rfl hend).mpr (setChar_bounds hset)

theorem step_some (hi : s.i < strlen str) (hw : (s.argv s.k).isSome) (h : (s.uses str delimiter).InBounds) :
    ∃ s', s.step str delimiter = some s' ∧ (s'.argv s'.k).isSome ∧ s.i < s'.i := by
  have hle := le_at str s
  by_cases hend : charAt str (s.at str) = delimiter ∨ charAt str (s.at str) = 0x0a
  · obtain ⟨hk, hj⟩ := (uses_end hi rfl hend).mp h
    obtain ⟨argv, hstep, hw'⟩ := step_end_some rfl hend hw hk hj
    exact ⟨_, hstep, hw', Nat.lt_succ_of_le (hle.trans (le_skipBlanks str _ _))⟩
  · obtain ⟨hk, hj⟩ := (uses_char hi rfl hend).mp h
    obtain ⟨argv, hstep, hw'⟩ := step_char_some rfl hend hw hk hj
    exact ⟨_, hstep, hw', Nat.lt_succ_of_le hle⟩

theorem endArgs_isSome (argv : Argv) (k : Nat) : (endArgs argv k).isSome ↔ k < maxArgs := by
  unfold endArgs
  split
  next hk => simpa using hk
  next hk => simpa using hk

theorem bounded_start (str : List Byte) (delimiter : Byte) :
    Bounded str delimiter ↔ Safe str delimiter (Scan.reading (fun _ => none) 0 0 []) := by
  have hnew := newWord_eq (fun _ => none) (show 0 < maxArgs by decide)
  refine ⟨fun h => h _ hnew, fun h argv hargv => ?_⟩
  obtain rfl : Function.update (fun _ => none) 0 (some (written [])) = argv := Option.some.inj (hnew.symm.trans hargv)
  exact h

theorem reading_word {argv : Argv} {i k : Nat} {done : List Byte} :
    ((Scan.reading argv i k done).argv (Scan.reading argv i k done).k).isSome := by
  simp [Scan.reading]

/-- A scan is safe if and only if it comes to its end, with a place left for the `NULL`. -/
theorem safe_iff_run {fuel : Nat} (hw : (s.argv s.k).isSome) (hfuel : strlen str ≤ s.i + fuel) :
    Safe str delimiter s ↔
      ((s.run str delimiter (strlen str) fuel).bind fun s => endArgs s.argv s.k).isSome := by
  induction fuel generalizing s with
  | zero =>
    have hi : ¬ s.i < strlen str := Nat.not_lt.mpr hfuel
    rw [safe_done hi, run_done hi, Option.bind_some, endArgs_isSome]
  | succ fuel ih =>
    by_cases hi : s.i < strlen str
    · rw [safe_step hi Iff.rfl (fun hb => ?_)]
      · refine ⟨And.right, fun h => ⟨?_, h⟩⟩
        cases hstep : s.step str delimiter with
        | none => simp [Scan.run, hi, hstep] at h
        | some s' => exact step_bounds hi hstep
      · obtain ⟨s', hstep, hw', hlt⟩ := step_some hi hw hb
        rw [run_step hi hstep]
        exact ⟨s', hstep, ih hw' (by omega)⟩
    · rw [safe_done hi, run_done hi, Option.bind_some, endArgs_isSome]

/-- `parseCmd` has a result if and only if every index is in bounds. -/
theorem parseCmd_isSome (str : List Byte) (delimiter : Byte) :
    (parseCmd str delimiter).isSome ↔ Bounded str delimiter := by
  have hlen : strlen str ≤ str.length := (List.takeWhile_prefix _).length_le
  rw [bounded_start, safe_iff_run reading_word (hlen.trans (Nat.le_add_left _ _)), parseCmd,
    newWord_eq _ (show 0 < maxArgs by decide)]
  rfl

end

/-! ### The whole line -/

section
variable {chars : List Byte} {delimiter : Byte}

theorem Line.strlen_eq (h : Line chars) : strlen (chars ++ [0x0a]) = (chars ++ [0x0a]).length := by
  apply Shell.strlen_eq
  intro c hc
  obtain hc | hc := List.mem_append.mp hc
  · exact h.nonzero c hc
  · rw [List.mem_singleton.mp hc]
    decide

/-- The loop begins at the last of the blanks before the line. -/
theorem exists_lead (chars : List Byte) :
    ∃ pre, chars = pre ++ lead chars ∧
      (Scan.reading (fun _ => none) 0 0 []).at (chars ++ [0x0a]) = pre.length := by
  cases chars with
  | nil => exact ⟨[], rfl, rfl⟩
  | cons c rest =>
    by_cases hspace : c = 0x20
    · subst hspace
      have hblank : Blank 0x20 := Or.inl rfl
      have hlead : lead (0x20 :: rest) = (0x20 :: rest).drop (rest.takeWhile (Blank ·)).length := by
        have hfirst : charAt (0x20 :: rest) 0 = 0x20 := rfl
        rw [lead, if_pos hfirst, List.takeWhile_cons_of_pos (by simpa using hblank), List.length_cons, Nat.add_sub_cancel]
      have hskip : skipBlanks (0x20 :: rest ++ [0x0a]) (0x20 :: rest ++ [0x0a]).length 0 =
          0 + (rest.takeWhile (Blank ·)).length :=
        @skipBlanks_takeWhile _ [0x20] rest 0 rfl rfl
      refine ⟨(0x20 :: rest).take (rest.takeWhile (Blank ·)).length, ?_, ?_⟩
      · rw [hlead, List.take_append_drop]
      · have hle : (rest.takeWhile (Blank ·)).length ≤ rest.length := (List.takeWhile_prefix _).length_le
        rw [List.length_take_of_le (by rw [List.length_cons]; omega), Scan.at, if_pos ⟨rfl, rfl⟩]
        exact hskip.trans (Nat.zero_add _)
    · exact ⟨[], (if_neg hspace).symm, if_neg fun h => hspace h.1⟩

theorem bounded_iff (h : Line chars) :
    Bounded (chars ++ [0x0a]) delimiter ↔ Fit delimiter 0 (pieces delimiter chars) := by
  obtain ⟨pre, hlead, hat⟩ := exists_lead chars
  have hstr : chars ++ [0x0a] = pre ++ (lead chars ++ [0x0a]) := by rw [← List.append_assoc, ← hlead]
  rw [bounded_start]
  exact safe_cuts h.strlen_eq hstr reading_word rfl hat

/-- Every index is in bounds if and only if the line has at most seven pieces, and each of
them has at most 21 characters, or 20 in a pipe. -/
theorem parseCmd_bounds (h : Line chars) (delimiter : Byte) :
    Bounded (chars ++ [0x0a]) delimiter ↔
      (pieces delimiter chars).length ≤ 7 ∧
        ∀ p ∈ pieces delimiter chars, p.length ≤ if delimiter = 0x7c then 20 else 21 := by
  rw [bounded_iff h, Fit, Nat.zero_add]
  apply and_congr Nat.lt_succ_iff
  apply forall₂_congr
  intro p _
  exact room_iff delimiter p.length

theorem parseCmd_bounds_ls :
    Bounded ([0x6c, 0x73, 0x20, 0x09, 0x2f] ++ [0x0a]) 0x20 ∧ Bounded ([0x6c, 0x73, 0x20, 0x09, 0x2f] ++ [0x0a]) 0x7c := by
  have hline : Line [0x6c, 0x73, 0x20, 0x09, 0x2f] := ⟨by decide, by decide⟩
  exact ⟨(parseCmd_bounds hline 0x20).mpr (by decide), (parseCmd_bounds hline 0x7c).mpr (by decide)⟩

/-- A word of 22 letters, whose zero is stored behind the block. -/
theorem long_word_exceeds :
    Line (List.replicate 22 0x61) ∧ ¬ Bounded (List.replicate 22 0x61 ++ [0x0a]) 0x20 := by
  have hline : Line (List.replicate 22 0x61) := ⟨by decide, by decide⟩
  refine ⟨hline, fun h => ?_⟩
  have hroom := ((bounded_iff hline).mp h).2 (List.replicate 22 0x61) (by decide)
  exact absurd hroom.lt (by decide)

end

end Sbnix.Shell
