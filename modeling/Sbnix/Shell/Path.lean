import Sbnix.Shell.Parse

/-! The search for a command in the directories of `PATH` (`execBin` and
`execute_pipe_cmd` of `bin/sbush/sbush.c`, lines 168 to 223 and 464 to 486).

Both hold the same loop. It copies a directory of `PATH` to `singlePath`, puts a slash
behind it if there is none, appends the command, and calls `execve`, which comes back
only if it fails; then it goes on behind the colon. As with the tokenizer, a string is
the list of its characters, and an access outside of an array has no result.

`path_search`: the directories are tried in order, each once. -/
namespace Sbnix.Shell
open Library Library.Store

/-- `bin_name`, `cmd_path` and `cmd_chld` have 30 characters. -/
def nameSize : Nat := 30

/-- `singlePath` has 256. -/
def pathSize : Nat := 256

/-- `strcpy` to an array of 30 characters. -/
def copyName (str : List Byte) : Option (List Byte) :=
  if strlen str < nameSize then some (str.takeWhile (· ≠ 0)) else none

/-- `singlePath[j++] = c` -/
def setPath (m : Store) (j : Nat) (c : Byte) : Option (Nat × Store) :=
  if j < pathSize then some (j + 1, put m j [c]) else none

/-- The loops that append to `singlePath`: while there are characters and the next one `goes`. -/
def appendWhile (goes : Byte → Bool) (src : List Byte) : Nat → Nat → Nat → Store → Option (Nat × Nat × Store)
  | 0, _, _, _ => none
  | fuel + 1, i, j, m =>
    if i < strlen src ∧ goes (charAt src i) then
      (setPath m j (charAt src i)).bind fun (j, m) => appendWhile goes src fuel (i + 1) j m
    else some (i, j, m)

/-- `if(singlePath[j-1] != '/') singlePath[j++] = '/';` -/
def addSlash (j : Nat) (m : Store) : Option (Nat × Store) :=
  if j = 0 then none else if m (j - 1) ≠ 0x2f then setPath m j 0x2f else some (j, m)

/-- The string in `singlePath`. -/
def fileName (m : Store) : List Byte := fetch m 0 (scan m 0 pathSize)

/-- The directory at `i` and the command, and where the next directory begins. -/
def nextName (path bin : List Byte) (i : Nat) : Option (List Byte × Nat) := do
  let (i, j, m) ← appendWhile (· ≠ 0x3a) path (path.length + 1) i 0 (fun _ => 0)
  let (j, m) ← addSlash j m
  let (_, _, m) ← appendWhile (fun c => c ≠ 0x0a && c ≠ 0xff) bin (bin.length + 1) 0 j m
  some (fileName m, i + 1)

inductive Ending where
  /-- There is no directory left. -/
  | left
  /-- `execve` has returned 0. -/
  | zero
  /-- `execve` has not come back. -/
  | replaced
  deriving DecidableEq, Repr

/-- The files that `execve` has been called with, and how the search ended. -/
structure Search where
  tried : List (List Byte)
  ending : Ending
  deriving DecidableEq, Repr

section
variable (execve : Nat → List Byte → Option Int)

/-- The `do` loop. What `execve` returns may depend on how often it has been called. -/
def searchLoop (path bin : List Byte) : Nat → Nat → List (List Byte) → Option Search
  | 0, _, _ => none
  | fuel + 1, i, tried =>
    (nextName path bin i).bind fun (name, i) =>
      match execve tried.length name with
      | none => some ⟨tried ++ [name], .replaced⟩
      | some error =>
        if error = 0 then some ⟨tried ++ [name], .zero⟩
        else if i < strlen path ∧ charAt path i ≠ 0x0a ∧ charAt path i ≠ 0xff then
          searchLoop path bin fuel i (tried ++ [name])
        else some ⟨tried ++ [name], .left⟩

/-- The child of `execBin`. It tries the command itself first, and does not look at what comes back. -/
def execBin (binary path : List Byte) : Option Search := do
  let binName ← copyName binary
  let cmdPath ← copyName path
  match execve 0 binName with
  | none => some ⟨[binName], .replaced⟩
  | some _ => searchLoop execve cmdPath binName (cmdPath.length + 1) 0 [binName]

/-- The loop of `execute_pipe_cmd`. -/
def executePipeCmd (cmd path : List Byte) : Option Search := do
  let cmdChld ← copyName cmd
  searchLoop execve path cmdChld (path.length + 1) 0 []

end

/-! ### What is asked of it -/

/-- A character of a command. -/
def Letter (c : Byte) : Prop := c ≠ 0 ∧ c ≠ 0x0a ∧ c ≠ 0xff

instance : DecidablePred Letter := fun c => inferInstanceAs (Decidable (c ≠ 0 ∧ c ≠ 0x0a ∧ c ≠ 0xff))

/-- A directory of `PATH`. -/
structure IsDirectory (d : List Byte) : Prop where
  nonempty : d ≠ []
  letters : ∀ c ∈ d, Letter c
  noColon : 0x3a ∉ d

/-- `PATH` -/
def pathOf (dirs : List (List Byte)) : List Byte := [0x3a].intercalate dirs

/-- The command in a directory. -/
def inDirectory (b d : List Byte) : List Byte := if d.getLast? = some 0x2f then d ++ b else d ++ 0x2f :: b

/-- Every call comes back with an error. -/
def Fails (execve : Nat → List Byte → Option Int) : Prop := ∀ n name, ∃ error, execve n name = some error ∧ error ≠ 0

/-! ### One directory -/

theorem copyName_eq {str : List Byte} (hz : ∀ c ∈ str, c ≠ 0) (hlen : str.length < nameSize) : copyName str = some str := by
  rw [copyName, strlen_eq hz, if_pos hlen, List.takeWhile_eq_self_iff.mpr (by simpa using hz)]

section
variable {pre piece rest src : List Byte} {goes : Byte → Bool} {j fuel : Nat} {m : Store}

/-- The characters that go are appended, up to one that does not or to the end. -/
theorem appendWhile_eq (hsrc : src = pre ++ (piece ++ rest)) (hz : ∀ c ∈ src, c ≠ 0) (hgo : ∀ c ∈ piece, goes c = true)
    (hstop : ∀ c ∈ rest.head?, goes c = false) (hroom : j + piece.length ≤ pathSize) (hfuel : piece.length < fuel) :
    appendWhile goes src fuel pre.length j m =
      some ((pre ++ piece).length, j + piece.length, put m j piece) := by
  induction piece generalizing pre j fuel m with
  | nil =>
    obtain ⟨fuel, rfl⟩ := Nat.exists_eq_succ_of_ne_zero (by omega : fuel ≠ 0)
    have hend : ¬ (pre.length < strlen src ∧ goes (charAt src pre.length)) := by
      rw [strlen_eq hz, hsrc, List.nil_append, charAt_append]
      cases rest with
      | nil => simp
      | cons c rest =>
        have hc := hstop c rfl
        simp [charAt, hc]
    rw [appendWhile, if_neg hend, put_same (holds_nil m j), List.append_nil]
    rfl
  | cons c piece ih =>
    obtain ⟨fuel, rfl⟩ := Nat.exists_eq_succ_of_ne_zero (by omega : fuel ≠ 0)
    rw [List.length_cons] at hroom hfuel
    have hchar : charAt src pre.length = c := hsrc ▸ charAt_append pre (c :: piece ++ rest)
    have hgoes : pre.length < strlen src ∧ goes (charAt src pre.length) := by
      refine ⟨?_, by rw [hchar]; exact hgo c List.mem_cons_self⟩
      rw [strlen_eq hz]
      simp [hsrc]
    have hset : setPath m j c = some (j + 1, put m j [c]) := if_pos (by omega)
    have hnext : appendWhile goes src fuel (pre ++ [c]).length (j + 1) (put m j [c]) =
        some ((pre ++ [c] ++ piece).length, j + 1 + piece.length, put (put m j [c]) (j + 1) piece) :=
      ih (by rw [hsrc, List.append_assoc]; rfl) (fun b hb => hgo b (List.mem_cons_of_mem c hb)) (by omega)
        (Nat.lt_of_succ_lt_succ hfuel)
    have hput : put (put m j [c]) (j + 1) piece = put m j (c :: piece) := put_append m j [c] piece
    rw [List.append_assoc, hput, List.length_append, List.length_singleton] at hnext
    rw [appendWhile, if_pos hgoes, hchar, hset, Option.bind_some]
    dsimp only
    rw [hnext, List.length_cons]
    congr 3
    omega

/-- A slash is put behind a directory that does not end with one. -/
theorem addSlash_eq {d : List Byte} (hne : d ≠ []) (hroom : d.length < pathSize) :
    addSlash d.length (put (fun _ => 0) 0 d) =
      some ((inDirectory [] d).length, put (fun _ => 0) 0 (inDirectory [] d)) := by
  have hpos : 0 < d.length := List.length_pos_iff.mpr hne
  have hlast : put (fun _ => 0) 0 d (d.length - 1) = d.getLast hne := by
    have hat := put_at (fun _ => 0) 0 d (i := d.length - 1) (by omega)
    rw [Nat.zero_add] at hat
    rw [hat, List.getLast_eq_getElem]
  unfold addSlash inDirectory
  rw [if_neg (by omega), hlast, List.getLast?_eq_some_getLast hne]
  by_cases hslash : d.getLast hne = 0x2f
  · rw [if_neg (by simpa using hslash), if_pos (by rw [hslash]), List.append_nil]
  · have hput := put_append (fun _ => 0) 0 d [0x2f]
    rw [Nat.zero_add] at hput
    rw [if_pos hslash, if_neg (by simpa using hslash), setPath, if_pos hroom, hput, List.length_append,
      List.length_singleton]

theorem inDirectory_append (b d : List Byte) : inDirectory [] d ++ b = inDirectory b d := by
  unfold inDirectory
  split
  · rw [List.append_nil]
  · rw [List.append_assoc]
    rfl

theorem fileName_eq {name : List Byte} (hz : ∀ c ∈ name, c ≠ 0) (hlen : name.length < pathSize) :
    fileName (put (fun _ => 0) 0 name) = name := by
  have hspells : Spells (put (fun _ => 0) 0 name) 0 name := by
    refine ⟨holds_append.mpr ⟨put_holds _ 0 name, holds_cons.mpr ⟨?_, holds_nil _ _⟩⟩, fun hc => hz 0 hc rfl⟩
    exact put_above _ _ (Nat.le_refl _)
  rw [fileName, scan_spells hspells hlen]
  exact hspells.holds

theorem length_inDirectory_le (b d : List Byte) : (inDirectory b d).length ≤ d.length + 1 + b.length := by
  unfold inDirectory
  split
  · rw [List.length_append]
    omega
  · rw [List.length_append, List.length_cons]
    omega

theorem mem_inDirectory {b d : List Byte} {c : Byte} (h : c ∈ inDirectory b d) : c ∈ d ∨ c = 0x2f ∨ c ∈ b := by
  unfold inDirectory at h
  split at h
  · exact (List.mem_append.mp h).imp_right Or.inr
  · simpa using h

/-- The file in the directory at a place of `PATH`. -/
theorem nextName_eq {path d b : List Byte} (hpath : path = pre ++ (d ++ rest)) (hz : ∀ c ∈ path, c ≠ 0)
    (hd : IsDirectory d) (hstop : ∀ c ∈ rest.head?, c = 0x3a) (hb : ∀ c ∈ b, Letter c)
    (hroom : d.length + 1 + b.length < pathSize) :
    nextName path b pre.length = some (inDirectory b d, (pre ++ d).length + 1) := by
  have hslash := length_inDirectory_le [] d
  have hall := length_inDirectory_le b d
  rw [List.length_nil] at hslash
  have hdir : appendWhile (· ≠ 0x3a) path (path.length + 1) pre.length 0 (fun _ => 0) =
      some ((pre ++ d).length, 0 + d.length, put (fun _ => 0) 0 d) := by
    refine appendWhile_eq hpath hz (fun c hc => ?_) (fun c hc => ?_) (by omega) ?_
    · exact decide_eq_true fun he => hd.noColon (he ▸ hc)
    · rw [hstop c hc]
      rfl
    · simp only [hpath, List.length_append]
      omega
  have hname : appendWhile (fun c => c ≠ 0x0a && c ≠ 0xff) b (b.length + 1) 0 (inDirectory [] d).length
      (put (fun _ => 0) 0 (inDirectory [] d)) =
      some (([] ++ b).length, (inDirectory [] d).length + b.length,
        put (put (fun _ => 0) 0 (inDirectory [] d)) (inDirectory [] d).length b) := by
    have hwhole : b = [] ++ (b ++ []) := (List.append_nil b).symm
    have hgo : ∀ c ∈ b, (c ≠ 0x0a && c ≠ 0xff) = true := fun c hc => by simpa using (hb c hc).2
    exact appendWhile_eq hwhole (fun c hc => (hb c hc).1) hgo (fun c hc => nomatch hc) (by omega) (Nat.lt_succ_self _)
  have hput := put_append (fun _ => 0) 0 (inDirectory [] d) b
  rw [Nat.zero_add, inDirectory_append] at hput
  have hletters : ∀ c ∈ inDirectory b d, c ≠ 0 := by
    intro c hc
    obtain hc | rfl | hc := mem_inDirectory hc
    · exact (hd.letters c hc).1
    · decide
    · exact (hb c hc).1
  unfold nextName
  rw [hdir, Nat.zero_add]
  simp only [Option.bind_eq_bind, Option.bind_some]
  rw [addSlash_eq hd.nonempty (by omega)]
  simp only [Option.bind_some]
  rw [hname]
  simp only [Option.bind_some]
  rw [hput, fileName_eq hletters (by omega)]

/-! ### All of them -/

theorem pathOf_cons (d d' : List Byte) (ds : List (List Byte)) :
    pathOf (d :: d' :: ds) = d ++ 0x3a :: pathOf (d' :: ds) := by
  simp [pathOf, List.intercalate]

/-- `PATH` begins with a letter. -/
theorem pathOf_head {d : List Byte} (hd : IsDirectory d) (ds : List (List Byte)) :
    ∃ c tail, pathOf (d :: ds) = c :: tail ∧ Letter c := by
  obtain ⟨c, d', rfl⟩ := List.exists_cons_of_ne_nil hd.nonempty
  have hc := hd.letters c List.mem_cons_self
  cases ds with
  | nil => exact ⟨c, d', by simp [pathOf, List.intercalate], hc⟩
  | cons e ds => exact ⟨c, d' ++ 0x3a :: pathOf (e :: ds), by rw [pathOf_cons]; rfl, hc⟩

/-- There is a colon between two directories. -/
theorem length_dirs_le (ds : List (List Byte)) : ds.length ≤ (pathOf ds).length + 1 := by
  induction ds with
  | nil => exact Nat.zero_le _
  | cons d ds ih =>
    cases ds with
    | nil => simp
    | cons e ds =>
      rw [pathOf_cons]
      simp only [List.length_append, List.length_cons] at ih ⊢
      omega

theorem mem_pathOf {ds : List (List Byte)} {c : Byte} (h : c ∈ pathOf ds) : c = 0x3a ∨ ∃ d ∈ ds, c ∈ d := by
  induction ds with
  | nil => simp [pathOf, List.intercalate] at h
  | cons d ds ih =>
    cases ds with
    | nil => exact Or.inr ⟨d, List.mem_cons_self, by simpa [pathOf, List.intercalate] using h⟩
    | cons e ds =>
      rw [pathOf_cons, List.mem_append, List.mem_cons] at h
      obtain h | rfl | h := h
      · exact Or.inr ⟨d, List.mem_cons_self, h⟩
      · exact Or.inl rfl
      · exact (ih h).imp_right fun ⟨x, hx, hc⟩ => ⟨x, List.mem_cons_of_mem d hx, hc⟩

end

section
variable {execve : Nat → List Byte → Option Int} {path b : List Byte}

/-- A file that cannot be executed: the search goes on if there is a directory left. -/
theorem searchLoop_step {name : List Byte} {i next fuel : Nat} {tried : List (List Byte)} (hfails : Fails execve)
    (hname : nextName path b i = some (name, next)) :
    searchLoop execve path b (fuel + 1) i tried =
      if next < strlen path ∧ charAt path next ≠ 0x0a ∧ charAt path next ≠ 0xff then
        searchLoop execve path b fuel next (tried ++ [name])
      else some ⟨tried ++ [name], .left⟩ := by
  obtain ⟨error, hexec, hne⟩ := hfails tried.length name
  rw [searchLoop, hname, Option.bind_some]
  dsimp only
  rw [hexec]
  exact if_neg hne

/-- The directories from a place of `PATH` on are tried in order. -/
theorem searchLoop_eq {dirs : List (List Byte)} (hfails : Fails execve) (hne : dirs ≠ []) (hdirs : ∀ d ∈ dirs, IsDirectory d)
    (hz : ∀ c ∈ path, c ≠ 0) (hb : ∀ c ∈ b, Letter c) (hroom : path.length + 1 + b.length < pathSize) {pre : List Byte}
    (hpath : path = pre ++ pathOf dirs) {fuel : Nat} (hfuel : dirs.length ≤ fuel) (tried : List (List Byte)) :
    searchLoop execve path b fuel pre.length tried = some ⟨tried ++ dirs.map (inDirectory b), .left⟩ := by
  induction dirs generalizing pre fuel tried with
  | nil => exact absurd rfl hne
  | cons d dirs ih =>
    obtain ⟨fuel, rfl⟩ := Nat.exists_eq_succ_of_ne_zero (show fuel ≠ 0 by simp at hfuel; omega)
    have hd := hdirs d List.mem_cons_self
    cases dirs with
    | nil =>
      -- the last directory: the search stands behind the end
      have hlast : path = pre ++ (d ++ []) := by rw [hpath]; simp [pathOf, List.intercalate]
      have hlen : d.length ≤ path.length := by simp [hlast]
      have hname := nextName_eq hlast hz hd (fun c hc => nomatch hc) hb (by omega)
      have hend : ¬ (pre ++ d).length + 1 < strlen path := by
        rw [strlen_eq hz, hlast, List.append_nil]
        omega
      rw [searchLoop_step hfails hname, if_neg (fun h => hend h.1)]
      rfl
    | cons e dirs =>
      have hmore : path = pre ++ (d ++ 0x3a :: pathOf (e :: dirs)) := by rw [hpath, pathOf_cons]
      have hsplit : path = (pre ++ d ++ [0x3a]) ++ pathOf (e :: dirs) := by simp [hmore]
      have hlen : d.length ≤ path.length := by
        simp only [hmore, List.length_append]
        omega
      have hname := nextName_eq hmore hz hd (fun c hc => (Option.some.inj hc).symm) hb (by omega)
      have hplace : (pre ++ d).length + 1 = (pre ++ d ++ [0x3a]).length := by
        simp only [List.length_append, List.length_singleton]
      obtain ⟨c, tail, hcons, hletter⟩ := pathOf_head (hdirs e (by simp)) dirs
      have hchar : charAt path ((pre ++ d).length + 1) = c := by
        rw [hplace, hsplit, charAt_append, hcons]
        rfl
      have hin : (pre ++ d).length + 1 < strlen path := by
        rw [strlen_eq hz, hplace, hsplit, hcons]
        simp
      rw [searchLoop_step hfails hname, if_pos ⟨hin, by rw [hchar]; exact hletter.2.1, by rw [hchar]; exact hletter.2.2⟩,
        hplace, ih (List.cons_ne_nil _ _) (fun x hx => hdirs x (List.mem_cons_of_mem d hx)) hsplit
          (Nat.le_of_succ_le_succ hfuel)]
      rw [List.append_assoc]
      rfl

/-- The child of `execBin` tries the command, and then the command in each directory of `PATH`, in
order; the loop of `execute_pipe_cmd` tries the same files but the first. -/
theorem path_search (execve : Nat → List Byte → Option Int) (hfails : Fails execve) (dirs : List (List Byte))
    (hne : dirs ≠ []) (hdirs : ∀ d ∈ dirs, IsDirectory d) (hpath : (pathOf dirs).length < 30) (b : List Byte)
    (hb : ∀ c ∈ b, Letter c) (hlen : b.length < 30) :
    execBin execve b (pathOf dirs) = some ⟨b :: dirs.map (inDirectory b), .left⟩ ∧
      executePipeCmd execve b (pathOf dirs) = some ⟨dirs.map (inDirectory b), .left⟩ := by
  have hz : ∀ c ∈ pathOf dirs, c ≠ 0 := by
    intro c hc
    obtain rfl | ⟨d, hd, hc⟩ := mem_pathOf hc
    · decide
    · exact ((hdirs d hd).letters c hc).1
  have hname : copyName b = some b := copyName_eq (fun c hc => (hb c hc).1) hlen
  have hcopy : copyName (pathOf dirs) = some (pathOf dirs) := copyName_eq hz hpath
  have hfew : dirs.length ≤ (pathOf dirs).length + 1 := length_dirs_le dirs
  have hsearch := fun tried => searchLoop_eq hfails hne hdirs hz hb (by unfold pathSize; omega)
    (List.nil_append (pathOf dirs)).symm hfew tried
  obtain ⟨error, hexec, _⟩ := hfails 0 b
  constructor
  · unfold execBin
    rw [hname, hcopy]
    simp only [Option.bind_eq_bind, Option.bind_some]
    rw [hexec]
    exact hsearch [b]
  · unfold executePipeCmd
    rw [hname]
    exact hsearch []

end

/-- `ls`, with the directories `bin/` and `mnt`. -/
theorem path_search_ls :
    execBin (fun _ _ => some (-1)) [0x6c, 0x73] (pathOf [[0x62, 0x69, 0x6e, 0x2f], [0x6d, 0x6e, 0x74]]) =
        some ⟨[[0x6c, 0x73], [0x62, 0x69, 0x6e, 0x2f, 0x6c, 0x73], [0x6d, 0x6e, 0x74, 0x2f, 0x6c, 0x73]], .left⟩ ∧
      executePipeCmd (fun _ _ => some (-1)) [0x6c, 0x73] (pathOf [[0x62, 0x69, 0x6e, 0x2f], [0x6d, 0x6e, 0x74]]) =
        some ⟨[[0x62, 0x69, 0x6e, 0x2f, 0x6c, 0x73], [0x6d, 0x6e, 0x74, 0x2f, 0x6c, 0x73]], .left⟩ := by
  have hdirs : ∀ d ∈ ([[0x62, 0x69, 0x6e, 0x2f], [0x6d, 0x6e, 0x74]] : List (List Byte)), IsDirectory d := by
    intro d hd
    obtain rfl | rfl := List.mem_pair.mp hd
    · exact ⟨by decide, by decide, by decide⟩
    · exact ⟨by decide, by decide, by decide⟩
  exact path_search (fun _ _ => some (-1)) (fun _ _ => ⟨-1, rfl, by decide⟩) _ (by decide) hdirs (by decide) [0x6c, 0x73]
    (by decide) (by decide)

end Sbnix.Shell
