import Sbnix.Libc.Scanf
import Sbnix.Shell.Bounds

/-! A turn of the shell (`execLine` and the loop of `main` of `bin/sbush/sbush.c`, lines 562 to
590 and 628 to 645), from the keys to the words of the commands.

A line is cut twice: at the bars, and each piece at the blanks. Both times a piece is
stored in a block of 22 characters, and the first time a newline is put behind it, so no
command may have more than 20 characters, whatever its words. `typed_commands` goes
through all stages for a line that is typed at the keyboard. -/
namespace Sbnix.Shell
open Library Library.Store Files Console Libc

/-! ### The code -/

/-- The strings of an array, up to `NULL`. -/
def strings (argv : Argv) : Nat → Nat → List (List Byte)
  | 0, _ => []
  | n + 1, k =>
    match argv k with
    | none => []
    | some word => cString word 0 :: strings argv n (k + 1)

/-- What is handed on: the words of a command to `execCmd`, or those of each command of a pipe to
`execute_pipe_cmd`, where an empty one is refused. -/
inductive Job where
  | nothing
  | single (cmd : Argv)
  | pipe (cmds : List (Option Argv))

def execLine (input : List Byte) : Option Job :=
  if input ≠ [0x0a] ∧ input ≠ [] then do
    let cmdList ← parseCmd input 0x7c
    let cmds := strings cmdList maxArgs 0
    if cmds.length ≤ 1 then
      if cmds.headD [] ≠ [] then (parseCmd (cmds.headD []) 0x20).map .single else some .nothing
    else
      (cmds.mapM fun cmd => if cmd ≠ [0x0a] ∧ cmd ≠ [] then (parseCmd cmd 0x20).map some else some none).map .pipe
  else some .nothing

/-- A turn of the loop of `main`, without the prompt: `input` and the format `%s` of `scanf`
are where they lie. -/
def turn (c : ScanfCall) (k : Keyboard) (keys : List Byte) (t : Task) (fuel rounds : Nat) (m : Store) (input format : Nat) :
    Option (Job × Keyboard) :=
  let m := put m input (List.replicate (cmdSize + 1) 0)
  (scanf c k keys t fuel rounds m format).bind fun r =>
    if cString r.mem input ≠ [] then
      let lenInp := Files.strlen r.mem input
      let m := put (put r.mem (input + lenInp) [0x0a]) (input + lenInp + 1) [0]
      (execLine (cString m input)).map (·, r.keyboard)
    else some (.nothing, r.keyboard)

/-! ### Lines with bars -/

/-- A command that there is room for, and no bar in it. -/
structure Command (c : List Byte) : Prop where
  nonempty : 1 ≤ c.length
  short : c.length ≤ 20
  chars : ∀ ch ∈ c, ch ≠ 0 ∧ ch ≠ 0x0a ∧ ch ≠ 0x7c
  first : ¬ Blank (charAt c 0)

/-- The line is the commands, with a bar and any blanks after it between two of them. -/
inductive Bars : List (List Byte) → List Byte → Prop
  | last (c : List Byte) : Bars [c] c
  | next (c : List Byte) {blanks : List Byte} (h : ∀ b ∈ blanks, Blank b) {cs : List (List Byte)} {line : List Byte}
      (hrest : Bars cs line) : Bars (c :: cs) (c ++ 0x7c :: (blanks ++ line))

section
variable {str pre rest done : List Byte} {argv : Argv} {i k fuel : Nat} {ch : Byte}

theorem step_inside (hc : charAt str i = ch) (hn : ch ≠ 0x0a) (hbar : ch ≠ 0x7c) (hfirst : ch = 0x20 → i ≠ 0)
    (hk : k < maxArgs) (hj : done.length < charSize) :
    (Scan.reading argv i k done).step str 0x7c = some (Scan.reading argv (i + 1) k (done ++ [ch])) := by
  have hat : (Scan.reading argv i k done).at str = i := if_neg fun h => hfirst (hc.symm.trans h.1) h.2
  have hset := setChar_written argv ch hk hj
  rw [step_char (by rw [hat]; exact hc) hbar hn, hat]
  simp only [Scan.reading, hset, Option.map_some, List.length_append, List.length_singleton]

/-- The end of a command, which gets its newline back. -/
theorem step_bar (hc : charAt str i = ch) (hend : ch = 0x7c ∨ ch = 0x0a) (hi : i ≠ 0) (hk : k + 1 < maxArgs)
    (hne : done ≠ []) (hj : done.length + 1 < charSize) :
    (Scan.reading argv i k done).step str 0x7c =
      some (Scan.reading (Function.update argv k (some (written (done ++ [0x0a] ++ [0])))) (skipBlanks str str.length i + 1)
        (k + 1) []) := by
  have hat : (Scan.reading argv i k done).at str = i := at_of_ne hi
  have hline := setChar_written argv 0x0a (Nat.lt_of_succ_lt hk) (Nat.lt_of_succ_lt hj)
  have hset := @setChar_written argv k (done ++ [0x0a]) 0 (Nat.lt_of_succ_lt hk)
    (by rw [List.length_append, List.length_singleton]; exact hj)
  rw [List.length_append, List.length_singleton] at hset
  have hnew := newWord_eq (Function.update argv k (some (written (done ++ [0x0a] ++ [0])))) hk
  have hpipe : (0x7c : Byte) = 0x7c ∧ done.length ≠ 0 := ⟨rfl, fun h => hne (List.length_eq_zero_iff.mp h)⟩
  rw [step_end (by rw [hat]; exact hc) hend, hat]
  simp only [Scan.reading, endWord, hpipe, if_true, ne_eq, not_false_eq_true, and_self, hline, hset, Option.bind_some, hnew,
    List.length_nil]

/-- The characters of a command are stored one after the other, blanks as well. -/
theorem run_inside {w : List Byte} (hstr : str = pre ++ (w ++ rest)) (hw : ∀ ch ∈ w, ch ≠ 0x0a ∧ ch ≠ 0x7c)
    (hfirst : pre = [] → charAt (w ++ rest) 0 ≠ 0x20) (hk : k < maxArgs) (hroom : done.length + w.length ≤ charSize) :
    (Scan.reading argv pre.length k done).run str 0x7c str.length (fuel + w.length) =
      (Scan.reading argv (pre ++ w).length k (done ++ w)).run str 0x7c str.length fuel := by
  induction w generalizing pre done with
  | nil => simp
  | cons ch w ih =>
    have hchar : charAt str pre.length = ch := hstr ▸ charAt_append pre (ch :: w ++ rest)
    have hin : pre.length < str.length := by simp [hstr]
    obtain ⟨hn, hbar⟩ := hw ch List.mem_cons_self
    rw [List.length_cons] at hroom
    have hstart : ch = 0x20 → pre.length ≠ 0 := fun hspace hzero =>
      hfirst (List.length_eq_zero_iff.mp hzero) hspace
    have hnext := @ih (pre ++ [ch]) (done ++ [ch]) (by rw [hstr, List.append_assoc]; rfl)
      (fun b hb => hw b (List.mem_cons_of_mem ch hb)) (fun h => absurd h (by simp))
      (by rw [List.length_append, List.length_singleton]; omega)
    rw [List.append_assoc, List.append_assoc, List.length_append, List.length_singleton] at hnext
    rw [List.length_cons, ← Nat.add_assoc, run_step hin (step_inside hchar hn hbar hstart hk (by omega))]
    exact hnext

/-- A command, the bar or newline behind it and the blanks after that. -/
theorem run_command {c blanks : List Byte} (hstr : str = pre ++ (c ++ ch :: (blanks ++ rest))) (hc : Command c)
    (hend : ch = 0x7c ∨ ch = 0x0a) (hb : ∀ b ∈ blanks, Blank b) (hrest : ¬ Blank (charAt rest 0)) (hk : k + 1 < maxArgs) :
    (Scan.reading argv pre.length k []).run str 0x7c str.length (fuel + 1 + c.length) =
      (Scan.reading (Function.update argv k (some (written (c ++ [0x0a] ++ [0])))) (pre ++ c ++ ch :: blanks).length
        (k + 1) []).run str 0x7c str.length fuel := by
  have hshort := hc.short
  have hlong := hc.nonempty
  have hne : c ≠ [] := List.ne_nil_of_length_pos hlong
  have hsplit : str = (pre ++ c ++ [ch]) ++ (blanks ++ rest) := by simp [hstr]
  have hchar : charAt str (pre ++ c).length = ch := by
    have hat := charAt_append (pre ++ c) (ch :: (blanks ++ rest))
    rwa [List.append_assoc, ← hstr] at hat
  have hin : (pre ++ c).length < str.length := by simp [hstr]
  have hfirst : (pre ++ c).length ≠ 0 := by
    rw [List.length_append]
    omega
  have hspace : pre = [] → charAt (c ++ ch :: (blanks ++ rest)) 0 ≠ 0x20 := by
    intro _ hblank
    refine hc.first (Or.inl ?_)
    rwa [charAt, List.getD_append _ _ _ _ hlong] at hblank
  have hskip : skipBlanks str str.length (pre ++ c).length = (pre ++ c).length + blanks.length := by
    have hlen : blanks.length ≤ str.length := by
      simp only [hsplit, List.length_append]
      omega
    have hlast : (pre ++ c).length + 1 = (pre ++ c ++ [ch]).length := by
      simp only [List.length_append, List.length_singleton]
    have heq := skipBlanks_eq hlast hb hrest hlen
    rwa [← hsplit] at heq
  rw [run_inside hstr (fun b hb' => (hc.chars b hb').2) hspace (Nat.lt_of_succ_lt hk) (by simp [charSize]; omega),
    List.nil_append, run_step hin (step_bar hchar hend hfirst hk hne (by unfold charSize; omega)), hskip]
  congr 2
  simp only [List.length_append, List.length_cons]
  omega

/-- A line of commands begins with a character of the first one. -/
theorem Bars.first {cs : List (List Byte)} {line : List Byte} (h : Bars cs line) (hcs : ∀ c ∈ cs, Command c)
    (tail : List Byte) : ¬ Blank (charAt (line ++ tail) 0) := by
  have hfirst : ∀ {c : List Byte}, Command c → ∀ tail, ¬ Blank (charAt (c ++ tail) 0) := by
    intro c hc tail
    rw [charAt, List.getD_append _ _ _ _ hc.nonempty]
    exact hc.first
  cases h with
  | last => exact hfirst (hcs line List.mem_cons_self) tail
  | next c hb hrest =>
    rw [List.append_assoc]
    exact hfirst (hcs c List.mem_cons_self) _

/-- The commands of a line are stored in order, after those that are there already. -/
theorem run_bars {cs : List (List Byte)} {line : List Byte} (h : Bars cs line) (hcs : ∀ c ∈ cs, Command c)
    (hstr : str = pre ++ (line ++ [0x0a])) (hk : k + cs.length < maxArgs) (hfuel : line.length + 1 ≤ fuel) :
    ∃ s, (Scan.reading argv pre.length k []).run str 0x7c str.length fuel = some s ∧ s.k = k + cs.length ∧
      (∀ n (hn : n < cs.length), s.argv (k + n) = some (written (cs[n] ++ [0x0a] ++ [0]))) ∧
      ∀ n < k, s.argv n = argv n := by
  induction h generalizing pre argv k fuel with
  | last c =>
    obtain ⟨fuel, rfl⟩ := Nat.exists_eq_add_of_le' hfuel
    have hline : str = pre ++ (c ++ 0x0a :: ([] ++ [])) := hstr
    have hc : Command c := hcs c List.mem_cons_self
    have hdone : ¬ (pre ++ c ++ [0x0a]).length < str.length := by simp [hline]
    have hrun := @run_command str pre [] argv k fuel 0x0a c [] hline hc (Or.inr rfl) (fun _ h => absurd h List.not_mem_nil)
      (by decide) hk
    rw [run_done hdone fuel, Nat.add_right_comm, Nat.add_assoc] at hrun
    refine ⟨_, hrun, rfl, ?_, ?_⟩
    · intro n hn
      obtain rfl : n = 0 := Nat.lt_one_iff.mp hn
      rw [reading_argv (by omega), Nat.add_zero, Function.update_self, List.getElem_singleton]
    · intro n hn
      rw [reading_argv (by omega), Function.update_of_ne (by omega)]
  | @next c blanks hb cs line hrest ih =>
    have hcs' : ∀ c ∈ cs, Command c := fun c hc => hcs c (List.mem_cons_of_mem _ hc)
    have hc : Command c := hcs c List.mem_cons_self
    have hline : str = pre ++ (c ++ 0x7c :: (blanks ++ (line ++ [0x0a]))) := by simp [hstr]
    simp only [List.length_append, List.length_cons] at hfuel hk
    obtain ⟨fuel, rfl⟩ : ∃ f, fuel = f + 1 + c.length := ⟨fuel - 1 - c.length, by omega⟩
    -- the commands behind this one are stored from the next place on, and leave it alone
    obtain ⟨s, hrun, hsk, hstored, hbefore⟩ := @ih (pre ++ c ++ 0x7c :: blanks)
      (Function.update argv k (some (written (c ++ [0x0a] ++ [0])))) (k + 1) fuel hcs' (by simp [hline]) (by omega)
      (by omega)
    rw [← run_command hline hc (Or.inl rfl) hb (hrest.first hcs' [0x0a]) (by omega)] at hrun
    refine ⟨s, hrun, by rw [hsk, List.length_cons]; omega, ?_, ?_⟩
    · intro n hn
      cases n with
      | zero => rw [Nat.add_zero, hbefore k (Nat.lt_succ_self k), Function.update_self, List.getElem_cons_zero]
      | succ n =>
        have hnext := hstored n (Nat.lt_of_succ_lt_succ hn)
        rw [Nat.add_right_comm] at hnext
        exact hnext
    · intro n hn
      rw [hbefore n (Nat.lt_succ_of_lt hn), Function.update_of_ne (by omega)]

theorem Bars.chars {cs : List (List Byte)} {line : List Byte} (h : Bars cs line) (hcs : ∀ c ∈ cs, Command c) :
    ∀ ch ∈ line, ch ≠ 0 ∧ ch ≠ 0x0a := by
  induction h with
  | last c =>
    intro ch hch
    obtain ⟨hz, hn, _⟩ := (hcs c List.mem_cons_self).chars ch hch
    exact ⟨hz, hn⟩
  | next c hb hrest ih =>
    intro ch hch
    rw [List.mem_append, List.mem_cons, List.mem_append] at hch
    obtain hch | rfl | hch | hch := hch
    · obtain ⟨hz, hn, _⟩ := (hcs c List.mem_cons_self).chars ch hch
      exact ⟨hz, hn⟩
    · decide
    · obtain rfl | rfl := hb ch hch
      · decide
      · decide
    · exact ih (fun c hc => hcs c (List.mem_cons_of_mem _ hc)) ch hch

theorem strings_eq {xs : List (List Byte)} {n k : Nat} (hz : ∀ x ∈ xs, (0 : Byte) ∉ x ∧ x.length < intMax)
    (hstored : ∀ i (hi : i < xs.length), argv (k + i) = some (written (xs[i] ++ [0])))
    (hend : argv (k + xs.length) = none) (hn : xs.length < n) : strings argv n k = xs := by
  induction xs generalizing n k with
  | nil =>
    obtain ⟨n, rfl⟩ := Nat.exists_eq_succ_of_ne_zero (Nat.ne_of_gt hn)
    have hnone : argv k = none := hend
    rw [strings, hnone]
  | cons x xs ih =>
    rw [List.length_cons] at hend hn
    obtain ⟨n, rfl⟩ := Nat.exists_eq_succ_of_ne_zero (show n ≠ 0 by omega)
    obtain ⟨hzero, hshort⟩ := hz x List.mem_cons_self
    have hx : argv k = some (written (x ++ [0])) := hstored 0 (Nat.succ_pos _)
    have hrest := @ih n (k + 1) (fun y hy => hz y (List.mem_cons_of_mem x hy))
      (fun i hi => by
        have hnext := hstored (i + 1) (Nat.succ_lt_succ hi)
        rwa [Nat.add_left_comm, Nat.add_comm] at hnext)
      (by rwa [Nat.add_right_comm])
      (by omega)
    have hspells : Spells (written (x ++ [0])) 0 x := ⟨put_holds _ 0 _, hzero⟩
    rw [strings, hx]
    dsimp only
    rw [hrest, cString_spells hspells hshort]

/-- The array after the loop, with `NULL` at its end. -/
theorem parseCmd_of_run {delimiter : Byte} {s : Scan} (hz : ∀ ch ∈ str, ch ≠ 0)
    (hrun : (Scan.reading (fun _ => none) 0 0 []).run str delimiter str.length str.length = some s) (hk : s.k < maxArgs) :
    parseCmd str delimiter = some (Function.update s.argv s.k none) := by
  have hnew := newWord_eq (fun _ => none) (show 0 < maxArgs by decide)
  have hend : endArgs s.argv s.k = some (Function.update s.argv s.k none) := if_pos hk
  rw [parseCmd, hnew, strlen_eq hz]
  exact (congrArg (·.bind fun s => endArgs s.argv s.k) hrun).trans hend

theorem Bars.length_pos {cs : List (List Byte)} {line : List Byte} (h : Bars cs line) (hcs : ∀ c ∈ cs, Command c) :
    1 ≤ line.length := by
  cases h with
  | last => exact (hcs line List.mem_cons_self).nonempty
  | next c hb hrest =>
    have := (hcs c List.mem_cons_self).nonempty
    rw [List.length_append]
    omega

/-- `parseCmd` at the bars: every command comes back with a newline. -/
theorem parse_bars {cs : List (List Byte)} {line : List Byte} (h : Bars cs line) (hcs : ∀ c ∈ cs, Command c)
    (hlen : cs.length ≤ 7) :
    ∃ argv, parseCmd (line ++ [0x0a]) 0x7c = some argv ∧ strings argv maxArgs 0 = cs.map (· ++ [0x0a]) := by
  have hroom : 0 + cs.length < maxArgs := by
    unfold maxArgs
    omega
  have hnonzero : ∀ ch ∈ line ++ [0x0a], ch ≠ 0 := by
    intro ch hch
    obtain hch | hch := List.mem_append.mp hch
    · exact (h.chars hcs ch hch).1
    · rw [List.mem_singleton.mp hch]
      decide
  have hfuel : line.length + 1 ≤ (line ++ [0x0a]).length := by rw [List.length_append, List.length_singleton]
  obtain ⟨s, hrun, hk, hstored, -⟩ := @run_bars (line ++ [0x0a]) [] (fun _ => none) 0 _ cs line h hcs
    (List.nil_append (line ++ [0x0a])).symm hroom hfuel
  rw [Nat.zero_add] at hk hroom
  refine ⟨Function.update s.argv cs.length none, ?_, ?_⟩
  · rw [← hk]
    exact parseCmd_of_run hnonzero hrun (by omega)
  · refine strings_eq ?_ ?_ ?_ ?_
    · intro x hx
      obtain ⟨c, hc, rfl⟩ := List.mem_map.mp hx
      have hshort := (hcs c hc).short
      refine ⟨fun hmem => ?_, by rw [List.length_append, List.length_singleton]; unfold intMax; omega⟩
      obtain hmem | hmem := List.mem_append.mp hmem
      · exact ((hcs c hc).chars 0 hmem).1 rfl
      · exact absurd hmem (by decide)
    · intro n hn
      rw [List.length_map] at hn
      have hword := hstored n hn
      rw [Nat.zero_add] at hword ⊢
      rw [Function.update_of_ne hn.ne, hword, List.getElem_map]
    · rw [List.length_map, Nat.zero_add, Function.update_self]
    · rw [List.length_map]
      omega

/-! ### The words of every command -/

/-- The words are in the array, and `NULL` behind them. -/
def Spelled (argv : Argv) (ws : List (List Byte)) : Prop :=
  (∀ n (hn : n < ws.length), ∃ word, argv n = some word ∧ Spells word 0 ws[n]) ∧ argv ws.length = none

/-- What is handed on are the words of the commands: of the only one, or of those of a pipe. -/
def Job.Runs : Job → List (List (List Byte)) → Prop
  | .nothing, wss => wss = []
  | .single cmd, wss => ∃ ws, wss = [ws] ∧ Spelled cmd ws
  | .pipe cmds, wss => 2 ≤ wss.length ∧ List.Forall₂ (fun cmd ws => ∃ argv, cmd = some argv ∧ Spelled argv ws) cmds wss

/-- A command line of words, with the newline it has got back. -/
theorem parse_words {ws : List (List Byte)} {c : List Byte} (hjoin : Joins ws c) (hws : ∀ w ∈ ws, Fits w)
    (hlen : ws.length ≤ 7) : ∃ argv, parseCmd (c ++ [0x0a]) 0x20 = some argv ∧ Spelled argv ws := by
  have hroom : 0 + ws.length < maxArgs := by
    unfold maxArgs
    omega
  have hnonzero : ∀ ch ∈ c ++ [0x0a], ch ≠ 0 := by
    intro ch hch
    obtain hch | hch := List.mem_append.mp hch
    · exact hjoin.nonzero hws ch hch
    · rw [List.mem_singleton.mp hch]
      decide
  have hfuel : c.length + 1 ≤ (c ++ [0x0a]).length := by rw [List.length_append, List.length_singleton]
  obtain ⟨s, hrun, hk, hwords, -⟩ := @run_joins (c ++ [0x0a]) [] (fun _ => none) 0 _ ws c hjoin hws
    (List.nil_append (c ++ [0x0a])).symm hroom hfuel
  rw [Nat.zero_add] at hk hroom
  refine ⟨Function.update s.argv ws.length none, ?_, fun n hn => ?_, Function.update_self ..⟩
  · rw [← hk]
    exact parseCmd_of_run hnonzero hrun (by omega)
  · have hword := hwords n hn
    rw [Nat.zero_add] at hword
    exact ⟨written (ws[n] ++ [0]), by rw [Function.update_of_ne hn.ne, hword], written_spells (hws _ (List.getElem_mem hn))⟩

/-- The commands of a pipe are parsed one after the other, and none of them is refused. -/
theorem parse_pipe {cs : List (List Byte)} {wss : List (List (List Byte))} (h : List.Forall₂ Joins wss cs)
    (hcs : ∀ c ∈ cs, Command c) (hfits : ∀ ws ∈ wss, ws.length ≤ 7 ∧ ∀ w ∈ ws, Fits w) :
    ∃ cmds, (cs.map (· ++ [0x0a])).mapM (fun cmd =>
        if cmd ≠ [0x0a] ∧ cmd ≠ [] then (parseCmd cmd 0x20).map some else some none) = some cmds ∧
      List.Forall₂ (fun cmd ws => ∃ argv, cmd = some argv ∧ Spelled argv ws) cmds wss := by
  induction h with
  | nil => exact ⟨[], rfl, .nil⟩
  | @cons ws c wss cs hjoin _ ih =>
    obtain ⟨hlen, hws⟩ := hfits ws List.mem_cons_self
    obtain ⟨argv, hparse, hspelled⟩ := parse_words hjoin hws hlen
    obtain ⟨cmds, hcmds, hrest⟩ := ih (fun c hc => hcs c (List.mem_cons_of_mem _ hc))
      (fun ws hws => hfits ws (List.mem_cons_of_mem _ hws))
    have hlong := (hcs c List.mem_cons_self).nonempty
    have hnot : c ++ [0x0a] ≠ [0x0a] ∧ c ++ [0x0a] ≠ [] := by
      refine ⟨fun hc => ?_, by simp⟩
      have := congrArg List.length hc
      simp only [List.length_append, List.length_singleton] at this
      omega
    refine ⟨some argv :: cmds, ?_, .cons ⟨argv, rfl, hspelled⟩ hrest⟩
    rw [List.map_cons, List.mapM_cons, if_pos hnot, hparse, hcmds]
    rfl

/-- A line of commands of words is handed on as these words. -/
theorem execLine_words {cs : List (List Byte)} {line : List Byte} {wss : List (List (List Byte))} (h : Bars cs line)
    (hcs : ∀ c ∈ cs, Command c) (hlen : cs.length ≤ 7) (hwords : List.Forall₂ Joins wss cs)
    (hfits : ∀ ws ∈ wss, ws.length ≤ 7 ∧ ∀ w ∈ ws, Fits w) :
    ∃ job, execLine (line ++ [0x0a]) = some job ∧ job.Runs wss := by
  obtain ⟨argv, hparse, hstrings⟩ := parse_bars h hcs hlen
  have hlong := h.length_pos hcs
  have hnot : line ++ [0x0a] ≠ [0x0a] ∧ line ++ [0x0a] ≠ [] := by
    refine ⟨fun hc => ?_, by simp⟩
    have := congrArg List.length hc
    simp only [List.length_append, List.length_singleton] at this
    omega
  have hcount := hwords.length_eq
  unfold execLine
  rw [if_pos hnot, hparse]
  simp only [Option.bind_eq_bind, Option.bind_some, hstrings, List.length_map]
  cases hwords with
  | nil => cases h
  | @cons ws c wss cs hjoin hrest =>
    obtain ⟨hshort, hws⟩ := hfits ws List.mem_cons_self
    cases hrest with
    | nil =>
      obtain ⟨argv, hparse, hspelled⟩ := parse_words hjoin hws hshort
      refine ⟨.single argv, ?_, ws, rfl, hspelled⟩
      rw [if_pos (by simp), List.map_cons, List.headD_cons, if_pos (by simp), hparse]
      rfl
    | @cons ws' c' wss cs hjoin' hrest =>
      obtain ⟨cmds, hcmds, hall⟩ := parse_pipe (.cons hjoin (.cons hjoin' hrest)) hcs hfits
      refine ⟨.pipe cmds, ?_, by simp, hall⟩
      rw [if_neg (by simp), hcmds]
      rfl

end

/-! ### From the keys -/

/-- The format of `main` is `%s`, its pointer is that of `input`, and neither overlaps the other or
the buffer of `scanf`. -/
structure Layout (m : Store) (c : ScanfCall) (input format : Nat) : Prop where
  text : Spells m format [0x25, 0x73]
  pointer : c.va 0 = input
  buf : Clear c.buf Libc.maxLength format 3
  inputBuf : Clear input (cmdSize + 1) c.buf Libc.maxLength
  inputFormat : Clear input (cmdSize + 1) format 3

/-- What `main` makes of the line in `input`. -/
theorem newline_string {m : Store} {input : Nat} {line : List Byte} (hz : (0 : Byte) ∉ line) (hlen : line.length < 2 ^ 30)
    (h : Holds m input line) :
    cString (put (put m (input + line.length) [0x0a]) (input + line.length + 1) [0]) input = line ++ [0x0a] := by
  have hnewline := put_put (b := input + line.length + 1) m [0x0a] [0] rfl
  have hkept : Agree m (put m (input + line.length) ([0x0a] ++ [0])) input line.length :=
    put_agree m _ (Or.inr (Nat.le_refl _))
  rw [hnewline]
  refine cString_spells ⟨?_, ?_⟩ ?_
  · rw [List.append_assoc]
    exact holds_append.mpr ⟨h.congr hkept, put_holds m _ _⟩
  · rw [List.mem_append, not_or]
    exact ⟨hz, by decide⟩
  · rw [List.length_append, List.length_singleton]
    unfold intMax
    omega

/-- What `scanf` stores into `input` is what `execLine` gets, with a newline. -/
theorem turn_line {c : ScanfCall} {k k₁ : Keyboard} {keys : List Byte} {t : Task} {fuel rounds : Nat} {m m₁ : Store}
    {input format : Nat} {line : List Byte} {job : Job} (hz : (0 : Byte) ∉ line) (hlen : line.length < 2 ^ 30)
    (hne : line ≠ []) (hva : c.va 0 = input)
    (hscanf : scanf c k keys t fuel rounds (put m input (List.replicate (cmdSize + 1) 0)) format =
      some ⟨putAll m₁ (c.writes 0 [line ++ [0]]), 1, k₁⟩)
    (hjob : execLine (line ++ [0x0a]) = some job) : turn c k keys t fuel rounds m input format = some (job, k₁) := by
  have hmem : putAll m₁ (c.writes 0 [line ++ [0]]) = put m₁ input (line ++ [0]) := by
    rw [← hva]
    rfl
  have hspells : Spells (put m₁ input (line ++ [0])) input line := ⟨put_holds m₁ input _, hz⟩
  have hshort : line.length < intMax := by
    unfold intMax
    omega
  unfold turn
  dsimp only
  rw [hscanf, Option.bind_some]
  dsimp only
  rw [hmem, cString_spells hspells hshort, if_pos hne, strlen_spells hspells hshort,
    newline_string hz hlen hspells.holds, hjob]
  rfl

/-- A line that is typed at the keyboard, with shift keys, releases, and backspaces that do not
disturb it, is handed on as the words of its commands: seven commands at most, of 20 characters and
seven words at most, in any state of the keyboard and of memory. -/
theorem typed_commands (c : ScanfCall) (k : Keyboard) (codes : List Byte) (hstrokes : Strokes k.shiftKey codes)
    (hline : Undisturbed (struck k.shiftKey codes)) (hroom : (edit (struck k.shiftKey codes)).length + 2 ≤ cmdSize)
    (t : Task) (ht : t.dupArr 0 = 0) (m : Store) (input format : Nat) (hlayout : Layout m c input format) (cs : List (List Byte))
    (hbars : Bars cs (edit (struck k.shiftKey codes))) (hcs : ∀ cmd ∈ cs, Command cmd) (hcount : cs.length ≤ 7)
    (wss : List (List (List Byte))) (hwords : List.Forall₂ Joins wss cs)
    (hfits : ∀ ws ∈ wss, ws.length ≤ 7 ∧ ∀ w ∈ ws, Fits w) :
    ∃ fuel rounds job k', turn c k (codes ++ [28]) t fuel rounds m input format = some (job, k') ∧ job.Runs wss ∧
      k'.shiftKey = false := by
  have hz : (0 : Byte) ∉ edit (struck k.shiftKey codes) := fun hc => struck_ne_zero hstrokes (mem_edit hc)
  have hsize : cmdSize = 176 := rfl
  obtain ⟨job, hjob, hruns⟩ := execLine_words hbars hcs hcount hwords hfits
  have hformat : Spells (put m input (List.replicate (cmdSize + 1) 0)) format (percents [.string]) := by
    refine hlayout.text.congr (put_agree m _ ?_)
    rw [List.length_replicate]
    exact hlayout.inputFormat
  obtain ⟨m₁, k₁, hscanf, -, hshift⟩ := scanf_puts hstrokes hline (by omega) ht hformat (.cons rfl .nil) hlayout.buf
    (fun w hw => by
      obtain rfl := List.mem_singleton.mp hw
      have hbuf := hlayout.inputBuf
      have htext := hlayout.inputFormat
      unfold Clear at *
      rw [hlayout.pointer, List.length_append, List.length_singleton]
      exact ⟨by omega, by simp only [List.length_singleton]; omega⟩)
  have hne : edit (struck k.shiftKey codes) ≠ [] := by
    intro hnil
    have hfirst := hbars.length_pos hcs
    rw [hnil] at hfirst
    exact absurd hfirst (by decide)
  exact ⟨_, _, job, k₁, turn_line hz (by omega) hne hlayout.pointer hscanf hjob, hruns, hshift⟩

/-- The format, and `input` and the buffer of `scanf` behind it. -/
def shellStore : Store := put (fun _ => 0) 0 ([0x25, 0x73] ++ [0])
def shellCall : ScanfCall := ⟨fun _ => 1000, 2000⟩

/-- The keys l, s, shift, the bar, w and c, some of them with their releases. -/
def lsWc : List Byte := [38, 0xa6, 31, 0x2a, 43, 0xaa, 17, 0x91, 46]

/-- `ls|wc`: two commands of a word each. -/
theorem typed_commands_ls : ∃ fuel rounds job k',
    turn shellCall idle (lsWc ++ [28]) Task.create fuel rounds shellStore 1000 0 = some (job, k') ∧
      job.Runs [[[0x6c, 0x73]], [[0x77, 0x63]]] ∧ k'.shiftKey = false := by
  have hinits : ∀ q ∈ (struck false lsWc).inits, 0 ≤ tally q ∧ tally q ≤ tally (struck false lsWc) := by decide
  have hline : Undisturbed (struck false lsWc) := Or.inr fun q hq => hinits q ((List.mem_inits q _).mpr hq)
  have hlayout : Layout shellStore shellCall 1000 0 := by
    refine ⟨⟨put_holds _ _ _, by decide⟩, rfl, ?_, ?_, ?_⟩ <;> unfold Clear <;> decide
  have hls : Command [0x6c, 0x73] := ⟨by decide, by decide, by decide, by unfold Blank; decide⟩
  have hwc : Command [0x77, 0x63] := ⟨by decide, by decide, by decide, by unfold Blank; decide⟩
  have hstrokes : Strokes false lsWc := by simp +decide [lsWc, Strokes]
  refine typed_commands shellCall idle lsWc hstrokes hline (by decide) Task.create rfl shellStore 1000 0 hlayout
    [[0x6c, 0x73], [0x77, 0x63]] ?_ ?_ (by decide) [[[0x6c, 0x73]], [[0x77, 0x63]]]
    (.cons (.last _) (.cons (.last _) .nil)) ?_
  · exact .next [0x6c, 0x73] (show ∀ b ∈ [], Blank b by decide) (.last [0x77, 0x63])
  · intro cmd hcmd
    obtain rfl | rfl := List.mem_pair.mp hcmd
    · exact hls
    · exact hwc
  · intro ws hws
    obtain rfl | rfl := List.mem_pair.mp hws
    · refine ⟨by decide, fun w hw => ?_⟩
      obtain rfl := List.mem_singleton.mp hw
      exact ⟨by decide, by decide, by decide⟩
    · refine ⟨by decide, fun w hw => ?_⟩
      obtain rfl := List.mem_singleton.mp hw
      exact ⟨by decide, by decide, by decide⟩

end Sbnix.Shell
