import Sbnix.Files.Open

/-! `sys_chdir` (`sys/tarfs.c`, lines 62 to 113).

The path is put together in a local buffer of 50 bytes, and the call has no result here if the
buffer is overrun. Nothing is written to it before: behind the slash after `dir_path` there is
still the string that the stack has left there (`lookedUp_plain`). In a buffer of zeros the
path depends on the two strings alone (`assembled`, `lookedUp_zeros`). The table is read
byte by byte: the type of an entry is compared as a string although it has one byte only, so
the string goes on into `ref_cnt`.

Of the task there is `dir_path`, as a string. A path of 48 or 49 bytes runs over the end
of the field into `bin_name`, which the calls here do not read. -/
namespace Sbnix.Files.Raw
open Library Library.Store

/-- `'.'` and `'/'` -/
def dot : Byte := 0x2e
def slash : Byte := 0x2f

/-! ### The buffer -/

/-- `char new_path[50]` -/
def newPathSize : Nat := 50

/-- `new_path[i]=c` -/
def setChar (b : Store) (i : Nat) (c : Byte) : Option Store :=
  if i < newPathSize then some (Function.update b i c) else none

/-- `strlen(new_path)` -/
def bufferLen (b : Store) : Option Nat :=
  if scan b 0 newPathSize < newPathSize then some (scan b 0 newPathSize) else none

/-- The loop of `strcpy` and of `strcat`: the characters of a string, and the zero. -/
def copyChars : Store → Nat → List Byte → Option Store
  | b, i, [] => setChar b i 0
  | b, i, c :: cs => (setChar b i c).bind fun b => copyChars b (i + 1) cs

/-- `strcat(new_path,str)` -/
def catChars (b : Store) (str : List Byte) : Option Store := (bufferLen b).bind fun n => copyChars b n str

/-! ### Putting the path together -/

/-- The second loop over `dir_path` for `..`: `cnt` slashes are left, the next character goes to
`new_path[j]`. -/
def copyParent : List Byte → Nat → Nat → Store → Option (Nat × Store)
  | [], _, j, b => some (j, b)
  | c :: cs, cnt, j, b =>
    let cnt := if c = slash ∧ cnt > 0 then cnt - 1 else cnt
    if cnt > 1 then (setChar b j c).bind fun b => copyParent cs cnt (j + 1) b
    else copyParent cs cnt j b

/-- The loop over a path that begins with a dot. After `..` the index is advanced by two more. -/
def scanPath (dirPath path : List Byte) : Nat → Nat → Nat → Store → Option Store
  | 0, _, _, b => some b
  | fuel + 1, i, j, b =>
    let c := path.getD i 0
    let c1 := path.getD (i + 1) 0
    let c2 := path.getD (i + 2) 0
    if i < path.length then
      if c = dot ∧ (c1 = 0 ∨ c1 = slash) then
        (catChars b dirPath).bind fun b => scanPath dirPath path fuel (i + 1) (j + dirPath.length) b
      else if c = dot ∧ c1 = dot ∧ (c2 = 0 ∨ c2 = slash) then
        (copyParent dirPath (dirPath.count slash) j b).bind fun r => scanPath dirPath path fuel (i + 2 + 1) r.1 r.2
      else (setChar b j c).bind fun b => scanPath dirPath path fuel (i + 1) (j + 1) b
    else some b

/-- `new_path` before it is looked up. `buf` is what is in the buffer at the beginning, and `below`
the byte before it, which is read when `dir_path` is empty. -/
def newPath (buf : Store) (below : Byte) (dirPath path : List Byte) : Option Store :=
  if path.getD 0 0 = dot then scanPath dirPath path path.length 0 0 buf
  else
    (copyChars buf 0 dirPath).bind fun b =>
      let last := if dirPath.length = 0 then below else b (dirPath.length - 1)
      (if last ≠ slash then setChar b dirPath.length slash else some b).bind fun b => catChars b path

/-! ### The lookup -/

/-- `DIR` -/
def dirFlag : Nat → Byte := fun i => if i = 0 then 0x35 else 0

/-- The test of the loop. -/
def entersAt (m b : Store) (newLen e : Nat) : Bool :=
  strncmp b (chars m e) newLen == 0 && strcmp (chars m (e + 104)) dirFlag == 0

/-- The result and `dir_path` after the call. -/
def sysChdir (k : Link) (m buf : Store) (below : Byte) (dirPath path : List Byte) : Option (Int × List Byte) :=
  (newPath buf below dirPath path).bind fun b => (bufferLen b).map fun newLen =>
    match (List.range maxBin).find? fun ind => entersAt m b newLen (k.entry ind) with
    | some _ => (0, fetch b 0 newLen)
    | none => (-1, dirPath)

/-! ### What is in the buffer -/

/-- The string in the buffer after the copies. -/
def lookedUp (buf : Store) (below : Byte) (dirPath path : List Byte) : Option (List Byte) :=
  (newPath buf below dirPath path).bind fun b => (bufferLen b).map (fetch b 0)

/-- The string that is in the buffer from the `n`-th byte on. -/
def stale (buf : Store) (n : Nat) : List Byte := fetch buf n (scan buf n (newPathSize - n))

/-- A buffer of zeros. -/
def zeros : Store := fun _ => 0

/-- What `..` copies of `dir_path`. -/
def parentFrom : List Byte → Nat → List Byte
  | [], _ => []
  | c :: cs, cnt =>
    let cnt := if c = slash ∧ cnt > 0 then cnt - 1 else cnt
    if cnt > 1 then c :: parentFrom cs cnt else parentFrom cs cnt

/-- What the loop makes of a path, after `skip` characters. -/
def expand (dirPath : List Byte) : Nat → List Byte → List Byte
  | _, [] => []
  | skip + 1, _ :: cs => expand dirPath skip cs
  | 0, c :: cs =>
    if c = dot ∧ (cs.getD 0 0 = 0 ∨ cs.getD 0 0 = slash) then dirPath ++ expand dirPath 0 cs
    else if c = dot ∧ cs.getD 0 0 = dot ∧ (cs.getD 1 0 = 0 ∨ cs.getD 1 0 = slash) then
      parentFrom dirPath (dirPath.count slash) ++ expand dirPath 2 cs
    else c :: expand dirPath 0 cs

/-- The path that is looked up, if the buffer is one of zeros. -/
def assembled (below : Byte) (dirPath path : List Byte) : List Byte :=
  if path.getD 0 0 = dot then expand dirPath 0 path
  else dirPath ++ (if dirPath.getLastD below = slash then [] else [slash]) ++ path

/-- A buffer that holds a string. -/
def bufferOf (s : List Byte) : Store := fun i => s.getD i 0

section
variable {acc s dirPath path : List Byte} {below : Byte}

theorem update_bufferOf (acc : List Byte) (c : Byte) :
    Function.update (bufferOf acc) acc.length c = bufferOf (acc ++ [c]) := by
  funext i
  unfold bufferOf
  by_cases hi : i = acc.length
  · subst hi
    rw [Function.update_self, List.getD_eq_getElem?_getD, List.getElem?_concat_length]
    rfl
  · rw [Function.update_of_ne hi]
    by_cases hlt : i < acc.length
    · rw [List.getD_append _ _ _ _ hlt]
    · rw [List.getD_eq_default _ _ (by omega), List.getD_eq_default _ _ (by rw [List.length_append]; simp; omega)]

theorem update_bufferOf_zero (acc : List Byte) : Function.update (bufferOf acc) acc.length 0 = bufferOf acc := by
  have hzero : bufferOf acc acc.length = 0 := List.getD_eq_default _ _ (Nat.le_refl _)
  rw [← hzero]
  exact Function.update_eq_self ..

theorem setChar_bufferOf (acc : List Byte) (c : Byte) :
    setChar (bufferOf acc) acc.length c = if acc.length < newPathSize then some (bufferOf (acc ++ [c])) else none := by
  rw [setChar, update_bufferOf]

theorem bufferOf_spells (h : (0 : Byte) ∉ s) : Spells (bufferOf s) 0 s := by
  refine ⟨holds_of_at fun i hi => ?_, h⟩
  rw [Nat.zero_add]
  unfold bufferOf
  by_cases hlt : i < s.length
  · rw [List.getElem_append_left hlt, List.getD_eq_getElem _ _ hlt]
  · have hlast : i = s.length := by
      rw [List.length_append, List.length_singleton] at hi
      omega
    subst hlast
    rw [List.getElem_concat_length rfl, List.getD_eq_default _ _ (Nat.le_refl _)]

theorem scan_full {m : Store} {a n : Nat} (h : ∀ i < n, m (a + i) ≠ 0) : scan m a n = n := by
  induction n generalizing a with
  | zero => rfl
  | succ n ih =>
    have hfirst : m a ≠ 0 := h 0 (by omega)
    have hrest : scan m (a + 1) n = n := ih fun i hi => by
      have := h (i + 1) (by omega)
      rwa [show a + (i + 1) = a + 1 + i by omega] at this
    rw [scan, if_neg hfirst, hrest]

theorem bufferLen_bufferOf (h : (0 : Byte) ∉ s) :
    bufferLen (bufferOf s) = if s.length < newPathSize then some s.length else none := by
  unfold bufferLen
  by_cases hlt : s.length < newPathSize
  · rw [scan_spells (bufferOf_spells h) hlt]
  · have hfull : scan (bufferOf s) 0 newPathSize = newPathSize := by
      refine scan_full fun i hi => ?_
      have hi' : i < s.length := by omega
      rw [Nat.zero_add, bufferOf, List.getD_eq_getElem _ _ hi']
      exact fun hc => h (hc ▸ List.getElem_mem hi')
    rw [hfull, if_neg (Nat.lt_irrefl _), if_neg hlt]

/-- Copying to the end of a string, with the zero. -/
theorem copyChars_bufferOf (acc s : List Byte) :
    copyChars (bufferOf acc) acc.length s =
      if acc.length + s.length < newPathSize then some (bufferOf (acc ++ s)) else none := by
  induction s generalizing acc with
  | nil =>
    rw [copyChars, setChar, update_bufferOf_zero, List.append_nil, List.length_nil, Nat.add_zero]
  | cons c cs ih =>
    have hnext := ih (acc ++ [c])
    rw [List.length_append, List.length_singleton, List.append_assoc, List.singleton_append] at hnext
    rw [copyChars, setChar_bufferOf, List.length_cons]
    by_cases hlt : acc.length < newPathSize
    · rw [if_pos hlt, Option.bind_some, hnext, Nat.add_assoc, Nat.add_comm 1]
    · rw [if_neg hlt, Option.bind_none, if_neg (by omega)]

theorem catChars_bufferOf (h : (0 : Byte) ∉ acc) :
    catChars (bufferOf acc) s = if acc.length + s.length < newPathSize then some (bufferOf (acc ++ s)) else none := by
  rw [catChars, bufferLen_bufferOf h]
  by_cases hlt : acc.length < newPathSize
  · rw [if_pos hlt, Option.bind_some, copyChars_bufferOf]
  · rw [if_neg hlt, Option.bind_none, if_neg (by omega)]

theorem copyParent_bufferOf (acc cs : List Byte) (cnt : Nat) (hacc : acc.length ≤ newPathSize) :
    copyParent cs cnt acc.length (bufferOf acc) =
      if acc.length + (parentFrom cs cnt).length ≤ newPathSize then
        some (acc.length + (parentFrom cs cnt).length, bufferOf (acc ++ parentFrom cs cnt))
      else none := by
  induction cs generalizing acc cnt with
  | nil => rw [copyParent, parentFrom, List.append_nil, List.length_nil, Nat.add_zero, if_pos hacc]
  | cons c cs ih =>
    rw [copyParent, parentFrom]
    generalize (if c = slash ∧ cnt > 0 then cnt - 1 else cnt) = cnt'
    by_cases hcnt : cnt' > 1
    · rw [if_pos hcnt, if_pos hcnt, setChar_bufferOf, List.length_cons]
      by_cases hlt : acc.length < newPathSize
      · have hlen : (acc ++ [c]).length = acc.length + 1 := by rw [List.length_append]; rfl
        have hnext := ih (acc ++ [c]) cnt' (by omega)
        rw [hlen, List.append_assoc, List.singleton_append] at hnext
        rw [if_pos hlt, Option.bind_some, hnext, Nat.add_assoc, Nat.add_comm 1]
      · rw [if_neg hlt, Option.bind_none, if_neg (by omega)]
    · rw [if_neg hcnt, if_neg hcnt, ih acc cnt' hacc]

/-- The buffer ends up with the string, or is overrun, or has no zero in it. -/
def Ends (s : List Byte) (o : Option Store) : Prop :=
  (s.length < newPathSize → o = some (bufferOf s)) ∧ (newPathSize ≤ s.length → ∀ b ∈ o, bufferLen b = none)

theorem Ends.overrun (h : newPathSize ≤ s.length) : Ends s none :=
  ⟨fun hc => absurd hc (by omega), fun _ b hb => by cases hb⟩

/-- A beginning that is too long is enough. -/
theorem Ends.overrun_append (rest : List Byte) (h : newPathSize ≤ s.length) : Ends (s ++ rest) none :=
  Ends.overrun (by rw [List.length_append]; omega)

theorem Ends.done (h : (0 : Byte) ∉ s) : Ends s (some (bufferOf s)) := by
  refine ⟨fun _ => rfl, fun hc b hb => ?_⟩
  obtain rfl := Option.mem_some.mp hb
  rw [bufferLen_bufferOf h, if_neg (by omega)]

theorem expand_skip (dirPath : List Byte) (skip : Nat) (cs : List Byte) :
    expand dirPath skip cs = expand dirPath 0 (cs.drop skip) := by
  induction skip generalizing cs with
  | zero => rfl
  | succ skip ih =>
    cases cs with
    | nil => rfl
    | cons c cs => exact ih cs

theorem mem_parentFrom {c : Byte} {cs : List Byte} {cnt : Nat} (h : c ∈ parentFrom cs cnt) : c ∈ cs := by
  induction cs generalizing cnt with
  | nil => cases h
  | cons d cs ih =>
    rw [parentFrom] at h
    generalize (if d = slash ∧ cnt > 0 then cnt - 1 else cnt) = cnt' at h
    split at h
    · obtain rfl | h := List.mem_cons.mp h
      · exact List.mem_cons_self ..
      · exact List.mem_cons_of_mem _ (ih h)
    · exact List.mem_cons_of_mem _ (ih h)

/-- One round of the loop is one step of `expand`. -/
theorem expand_drop {i : Nat} (hi : i < path.length) :
    expand dirPath 0 (path.drop i) =
      if path.getD i 0 = dot ∧ (path.getD (i + 1) 0 = 0 ∨ path.getD (i + 1) 0 = slash) then
        dirPath ++ expand dirPath 0 (path.drop (i + 1))
      else if path.getD i 0 = dot ∧ path.getD (i + 1) 0 = dot ∧
          (path.getD (i + 2) 0 = 0 ∨ path.getD (i + 2) 0 = slash) then
        parentFrom dirPath (dirPath.count slash) ++ expand dirPath 0 (path.drop (i + 2 + 1))
      else path.getD i 0 :: expand dirPath 0 (path.drop (i + 1)) := by
  have hget : ∀ j, (path.drop (i + 1)).getD j 0 = path.getD (i + 1 + j) 0 := fun j => by
    rw [List.getD_eq_getElem?_getD, List.getElem?_drop, List.getD_eq_getElem?_getD]
  have hfirst : path.getD i 0 = path[i] := List.getD_eq_getElem _ _ hi
  rw [List.drop_eq_getElem_cons hi, expand, hget 0, hget 1, ← hfirst, expand_skip dirPath 2, List.drop_drop]

/-- The loop makes of the path what `expand` says. -/
theorem scanPath_ends (acc : List Byte) (fuel i : Nat) (hfuel : path.length ≤ i + fuel) (hdir : (0 : Byte) ∉ dirPath)
    (hpath : (0 : Byte) ∉ path) (hacc : (0 : Byte) ∉ acc) (hlen : acc.length ≤ newPathSize) :
    Ends (acc ++ expand dirPath 0 (path.drop i)) (scanPath dirPath path fuel i acc.length (bufferOf acc)) := by
  induction fuel generalizing i acc with
  | zero =>
    rw [List.drop_eq_nil_of_le (by omega), expand, List.append_nil, scanPath]
    exact Ends.done hacc
  | succ fuel ih =>
    rw [scanPath]
    by_cases hi : i < path.length
    · rw [if_pos hi, expand_drop hi]
      by_cases hdot : path.getD i 0 = dot ∧ (path.getD (i + 1) 0 = 0 ∨ path.getD (i + 1) 0 = slash)
      · rw [if_pos hdot, if_pos hdot, catChars_bufferOf hacc]
        have hboth : (0 : Byte) ∉ acc ++ dirPath := by simpa using ⟨hacc, hdir⟩
        have hsum : (acc ++ dirPath).length = acc.length + dirPath.length := List.length_append
        by_cases hlt : acc.length + dirPath.length < newPathSize
        · rw [if_pos hlt, Option.bind_some, ← List.append_assoc, ← hsum]
          exact ih _ (i + 1) (by omega) hboth (by omega)
        · rw [if_neg hlt, Option.bind_none, ← List.append_assoc]
          exact Ends.overrun_append _ (by omega)
      · rw [if_neg hdot, if_neg hdot]
        by_cases hup : path.getD i 0 = dot ∧ path.getD (i + 1) 0 = dot ∧
            (path.getD (i + 2) 0 = 0 ∨ path.getD (i + 2) 0 = slash)
        · rw [if_pos hup, if_pos hup, copyParent_bufferOf _ _ _ hlen]
          generalize hparent : parentFrom dirPath (dirPath.count slash) = parent
          have hnone : (0 : Byte) ∉ parent := fun hc => hdir (mem_parentFrom (hparent ▸ hc))
          have hboth : (0 : Byte) ∉ acc ++ parent := by simpa using ⟨hacc, hnone⟩
          have hsum : (acc ++ parent).length = acc.length + parent.length := List.length_append
          by_cases hle : acc.length + parent.length ≤ newPathSize
          · rw [if_pos hle, Option.bind_some, ← List.append_assoc, ← hsum]
            exact ih _ (i + 2 + 1) (by omega) hboth (by omega)
          · rw [if_neg hle, Option.bind_none, ← List.append_assoc]
            exact Ends.overrun_append _ (by omega)
        · rw [if_neg hup, if_neg hup, setChar_bufferOf]
          have hchar : path.getD i 0 ≠ 0 := by
            rw [List.getD_eq_getElem _ _ hi]
            exact fun hc => hpath (hc ▸ List.getElem_mem hi)
          generalize path.getD i 0 = c at hchar
          have hboth : (0 : Byte) ∉ acc ++ [c] := by simpa using ⟨hacc, Ne.symm hchar⟩
          have hsum : (acc ++ [c]).length = acc.length + 1 := List.length_append
          by_cases hlt : acc.length < newPathSize
          · rw [if_pos hlt, Option.bind_some, ← List.singleton_append, ← List.append_assoc, ← hsum]
            exact ih _ (i + 1) (by omega) hboth (by omega)
          · rw [if_neg hlt, Option.bind_none]
            exact Ends.overrun_append _ (by omega)
    · rw [if_neg hi, List.drop_eq_nil_of_le (by omega), expand, List.append_nil]
      exact Ends.done hacc

/-- A buffer of zeros holds the assembled path. -/
theorem newPath_ends (below : Byte) (hdir : (0 : Byte) ∉ dirPath) (hpath : (0 : Byte) ∉ path) :
    Ends (assembled below dirPath path) (newPath zeros below dirPath path) := by
  have hempty : zeros = bufferOf [] := rfl
  unfold newPath assembled
  by_cases hdot : path.getD 0 0 = dot
  · rw [if_pos hdot, if_pos hdot, hempty]
    exact scanPath_ends [] path.length 0 (by omega) hdir hpath (List.not_mem_nil) (Nat.zero_le _)
  · rw [if_neg hdot, if_neg hdot, hempty]
    have hcopy := copyChars_bufferOf [] dirPath
    rw [List.length_nil, Nat.zero_add, List.nil_append] at hcopy
    rw [hcopy]
    by_cases hlt : dirPath.length < newPathSize
    · have hlast : (if dirPath.length = 0 then below else bufferOf dirPath (dirPath.length - 1)) =
          dirPath.getLastD below := by
        cases dirPath with
        | nil => rfl
        | cons c cs =>
          rw [if_neg (by simp), bufferOf, List.getLastD_eq_getLast?, List.getLast?_eq_getElem?,
            List.getD_eq_getElem?_getD, List.getElem?_eq_getElem (by simp)]
          rfl
      rw [if_pos hlt, Option.bind_some]
      dsimp only
      rw [hlast]
      by_cases hslash : dirPath.getLastD below = slash
      · rw [if_neg (not_not.mpr hslash), if_pos hslash, Option.bind_some, catChars_bufferOf hdir, List.append_nil]
        by_cases hfit : dirPath.length + path.length < newPathSize
        · rw [if_pos hfit]
          exact Ends.done (by simpa using ⟨hdir, hpath⟩)
        · rw [if_neg hfit]
          refine Ends.overrun ?_
          rw [List.length_append]
          omega
      · have hboth : (0 : Byte) ∉ dirPath ++ [slash] := by
          have hne : (0 : Byte) ≠ slash := by decide
          simpa using ⟨hdir, hne⟩
        rw [if_pos hslash, if_neg hslash, setChar_bufferOf, if_pos hlt, Option.bind_some, catChars_bufferOf hboth]
        by_cases hfit : (dirPath ++ [slash]).length + path.length < newPathSize
        · rw [if_pos hfit]
          refine Ends.done ?_
          rw [List.mem_append, not_or]
          exact ⟨hboth, hpath⟩
        · rw [if_neg hfit]
          refine Ends.overrun ?_
          rw [List.length_append]
          omega
    · rw [if_neg hlt, Option.bind_none, List.append_assoc]
      exact Ends.overrun_append _ (by omega)

theorem mem_expand {c : Byte} {cs : List Byte} {skip : Nat} (h : c ∈ expand dirPath skip cs) :
    c ∈ dirPath ∨ c ∈ cs := by
  induction cs generalizing skip with
  | nil =>
    rw [expand] at h
    cases h
  | cons d cs ih =>
    have hlater : ∀ {skip}, c ∈ expand dirPath skip cs → c ∈ dirPath ∨ c ∈ d :: cs := fun h =>
      (ih h).imp id (List.mem_cons_of_mem _)
    cases skip with
    | succ skip =>
      rw [expand] at h
      exact hlater h
    | zero =>
      rw [expand] at h
      split at h
      · exact (List.mem_append.mp h).elim Or.inl hlater
      · split at h
        · exact (List.mem_append.mp h).elim (fun h => Or.inl (mem_parentFrom h)) hlater
        · obtain rfl | h := List.mem_cons.mp h
          · exact Or.inr (List.mem_cons_self ..)
          · exact hlater h

theorem assembled_ends (below : Byte) (hdir : (0 : Byte) ∉ dirPath) (hpath : (0 : Byte) ∉ path) :
    (0 : Byte) ∉ assembled below dirPath path := by
  intro h
  unfold assembled at h
  split at h
  · exact (mem_expand h).elim hdir hpath
  · obtain h | h := List.mem_append.mp h
    · obtain h | h := List.mem_append.mp h
      · exact hdir h
      · split at h
        · cases h
        · exact absurd (List.mem_singleton.mp h) (by decide)
    · exact hpath h

theorem lookedUp_zeros (below : Byte) (hdir : (0 : Byte) ∉ dirPath) (hpath : (0 : Byte) ∉ path) :
    lookedUp zeros below dirPath path =
      if (assembled below dirPath path).length < newPathSize then some (assembled below dirPath path) else none := by
  obtain ⟨hshort, hlong⟩ := newPath_ends below hdir hpath
  have hnone := assembled_ends below hdir hpath
  have hfetch : fetch (bufferOf (assembled below dirPath path)) 0 (assembled below dirPath path).length =
      assembled below dirPath path := (bufferOf_spells hnone).holds
  unfold lookedUp
  by_cases hfits : (assembled below dirPath path).length < newPathSize
  · rw [if_pos hfits, hshort hfits, Option.bind_some, bufferLen_bufferOf hnone, if_pos hfits, Option.map_some, hfetch]
  · rw [if_neg hfits]
    cases hb : newPath zeros below dirPath path with
    | none => rfl
    | some b =>
      rw [Option.bind_some, hlong (by omega) b hb]
      rfl

/-! ### A buffer with something in it -/

theorem bufferLen_spells {b : Store} {n : Nat} (h : bufferLen b = some n) : Spells b 0 (fetch b 0 n) := by
  unfold bufferLen at h
  split at h
  · rename_i hn
    obtain rfl := Option.some.inj h
    exact spells_scan hn
  · cases h

theorem lookedUp_some {buf : Store} (h : lookedUp buf below dirPath path = some s) :
    ∃ b, newPath buf below dirPath path = some b ∧ bufferLen b = some s.length ∧ Spells b 0 s := by
  obtain ⟨b, hb, h⟩ := Option.bind_eq_some_iff.mp h
  obtain ⟨n, hn, rfl⟩ := Option.map_eq_some_iff.mp h
  exact ⟨b, hb, by rw [length_fetch]; exact hn, bufferLen_spells hn⟩

theorem setChar_put {b b' : Store} {i : Nat} {c : Byte} (h : setChar b i c = some b') :
    i < newPathSize ∧ b' = put b i [c] := by
  unfold setChar at h
  split at h
  · rename_i hi
    obtain rfl := Option.some.inj h
    refine ⟨hi, funext fun x => ?_⟩
    by_cases hx : x = i
    · rw [hx, Function.update_self]
      exact (put_at b i [c] (Nat.zero_lt_one)).symm
    · rw [Function.update_of_ne hx]
      obtain hlow | hhigh := Nat.lt_or_gt_of_ne hx
      · exact (put_below b _ hlow).symm
      · exact (put_above b _ hhigh).symm
  · cases h

theorem copyChars_put {b b' : Store} {i : Nat} (h : copyChars b i s = some b') : b' = put b i (s ++ [0]) := by
  induction s generalizing b i with
  | nil => exact (setChar_put h).2
  | cons c cs ih =>
    obtain ⟨b₁, hfirst, hrest⟩ := Option.bind_eq_some_iff.mp h
    rw [ih hrest, (setChar_put hfirst).2]
    exact put_put b [c] (cs ++ [0]) rfl

theorem catChars_spells {b b' : Store} {t : List Byte} (h : catChars b s = some b') (ht : Spells b 0 t)
    (hs : (0 : Byte) ∉ s) : Spells b' 0 (t ++ s) := by
  obtain ⟨n, hn, h⟩ := Option.bind_eq_some_iff.mp h
  have hlen : n = t.length := by
    rw [← (bufferLen_spells hn).unique ht, length_fetch]
  rw [copyChars_put h, hlen]
  refine ⟨?_, by rw [List.mem_append, not_or]; exact ⟨ht.2, hs⟩⟩
  rw [List.append_assoc, holds_append, Nat.zero_add]
  exact ⟨ht.holds.congr (put_agree b _ (Or.inr (by omega))), put_holds _ _ _⟩

/-- The slash takes the place of the zero behind `dir_path`. -/
theorem stale_behind {buf b : Store} {n : Nat} (hlt : dirPath.length < newPathSize) (hdir : (0 : Byte) ∉ dirPath)
    (hb : b = put (put buf 0 (dirPath ++ [0])) dirPath.length [slash]) (hn : bufferLen b = some n) :
    fetch b 0 n = dirPath ++ slash :: stale buf (dirPath.length + 1) := by
  have hlen : (dirPath ++ [slash]).length = dirPath.length + 1 := List.length_append
  have hholds : Holds b 0 (dirPath ++ [slash]) := by
    rw [hb, holds_append, Nat.zero_add]
    have hfirst := (holds_append.mp (put_holds buf 0 (dirPath ++ [0]))).1
    exact ⟨hfirst.congr (put_agree _ _ (Or.inr (by omega))), put_holds _ _ _⟩
  have hnone : (0 : Byte) ∉ dirPath ++ [slash] := by
    have hne : (0 : Byte) ≠ slash := by decide
    simpa using ⟨hdir, hne⟩
  have hbehind : Agree buf b (dirPath.length + 1) (newPathSize - (dirPath.length + 1)) := by
    rw [hb]
    refine (put_agree buf _ (Or.inl ?_)).trans (put_agree _ _ (Or.inl (Nat.le_refl _)))
    rw [Nat.zero_add]
    exact Nat.le_of_eq List.length_append
  have hscan : n = dirPath.length + 1 + scan buf (dirPath.length + 1) (newPathSize - (dirPath.length + 1)) := by
    unfold bufferLen at hn
    split at hn
    · rw [← Option.some.inj hn, scan_append hholds hnone (by omega), hlen, Nat.zero_add, scan_congr hbehind]
    · cases hn
  have hbegin : fetch b 0 (dirPath.length + 1) = dirPath ++ [slash] := by
    rw [← hlen]
    exact hholds
  rw [hscan, fetch_add, hbegin, Nat.zero_add, List.append_assoc, List.singleton_append, stale]
  congr 2
  exact fetch_congr (hbehind.mono (Nat.le_refl _) (Nat.add_le_add_left (scan_le _ _ _) _))

/-- What is looked up for a path without a dot at its beginning, whatever the buffer holds. -/
theorem lookedUp_plain {buf : Store} (hdot : path.getD 0 0 ≠ dot) (hdir : (0 : Byte) ∉ dirPath)
    (hpath : (0 : Byte) ∉ path) (h : lookedUp buf below dirPath path = some s) :
    s = dirPath ++ (if dirPath.getLastD below = slash then [] else slash :: stale buf (dirPath.length + 1)) ++ path := by
  obtain ⟨b, hb, _, hs⟩ := lookedUp_some h
  unfold newPath at hb
  rw [if_neg hdot] at hb
  obtain ⟨b₁, hcopy, hb⟩ := Option.bind_eq_some_iff.mp hb
  have hb₁ := copyChars_put hcopy
  have hspell : Spells b₁ 0 dirPath := ⟨by rw [hb₁]; exact put_holds _ _ _, hdir⟩
  have hlast : (if dirPath.length = 0 then below else b₁ (dirPath.length - 1)) = dirPath.getLastD below := by
    cases dirPath with
    | nil => rfl
    | cons c cs =>
      have hat := hspell.holds.at (i := cs.length) (by simp)
      rw [if_neg (by simp), List.getLastD_eq_getLast?, List.getLast?_eq_getElem?]
      simpa using hat
  dsimp only at hb
  rw [hlast] at hb
  by_cases hslash : dirPath.getLastD below = slash
  · rw [if_neg (not_not.mpr hslash), Option.bind_some] at hb
    rw [if_pos hslash, List.append_nil]
    exact hs.unique (catChars_spells hb hspell hpath)
  · rw [if_pos hslash] at hb
    obtain ⟨b₂, hchar, hb⟩ := Option.bind_eq_some_iff.mp hb
    obtain ⟨hlt, hb₂⟩ := setChar_put hchar
    obtain ⟨n, hn, _⟩ := Option.bind_eq_some_iff.mp hb
    have hstale := stale_behind hlt hdir (hb₁ ▸ hb₂) hn
    rw [if_neg hslash, ← hstale]
    exact hs.unique (catChars_spells hb (bufferLen_spells hn) hpath)

end

/-! ### What is found -/

/-- The names in the table. -/
structure Table (k : Link) (m : Store) (names : Nat → List Byte) : Prop where
  entries : ∀ i < maxBin, Spells m (k.entry i) (names i)
  length_le : ∀ i < maxBin, (names i).length ≤ 99

/-- The entry passes the test: its name begins with the path, its type is a directory, and the low
byte of its `ref_cnt` is zero. -/
def Enterable (k : Link) (m : Store) (names : Nat → List Byte) (newPath : List Byte) (i : Nat) : Prop :=
  i < maxBin ∧ newPath <+: names i ∧ m (k.entry i + 104) = 0x35 ∧ m (k.entry i + 105) = 0

section
variable {k : Link} {m m' buf : Store} {names : Nat → List Byte} {below : Byte} {dirPath path s : List Byte}

/-- A type is compared together with the byte behind it. -/
theorem strcmp_dirFlag (m : Store) (a : Nat) : strcmp (chars m a) dirFlag = 0 ↔ m a = 0x35 ∧ m (a + 1) = 0 := by
  have hflag : strlen dirFlag 0 = 1 := strlen_spells (s := [0x35]) ⟨rfl, by decide⟩ (by decide)
  obtain ⟨n, hn⟩ : ∃ n, intMax = n + 2 := ⟨2 ^ 31 - 2, by decide⟩
  have hscan : strlen (chars m a) 0 = if m a = 0 then 0 else (if m (a + 1) = 0 then 0 else scan (chars m a) 2 n + 1) + 1 := by
    rw [strlen, hn, scan, scan]
    rfl
  unfold strcmp
  dsimp only
  rw [hflag, hscan]
  by_cases hfirst : m a = 0
  · rw [if_pos hfirst, if_neg (by omega), if_pos (by omega), hfirst]
    exact iff_of_false (by decide) (fun hc => absurd hc.1 (by decide))
  · rw [if_neg hfirst]
    by_cases hsecond : m (a + 1) = 0
    · rw [if_pos hsecond, if_neg (by omega), if_neg (by omega), compareFrom_eq_zero]
      constructor
      · intro h
        exact ⟨h 0 (by omega) (by omega), hsecond⟩
      · rintro ⟨hchar, _⟩ j _ hj
        obtain rfl : j = 0 := by omega
        exact hchar
    · rw [if_neg hsecond, if_pos (by omega)]
      exact iff_of_false (by decide) (fun hc => hsecond hc.2)

theorem entersAt_iff {b : Store} (h : Table k m names) (hs : Spells b 0 s) {i : Nat} (hi : i < maxBin) :
    entersAt m b s.length (k.entry i) = true ↔ Enterable k m names s i := by
  have hprefix := strncmp_isPrefix hs (h.entries i hi)
  have hbuffer : chars b 0 = b := by
    funext j
    rw [chars, Nat.zero_add]
  rw [hbuffer] at hprefix
  unfold entersAt Enterable
  rw [Bool.and_eq_true, beq_iff_eq, beq_iff_eq, hprefix, strcmp_dirFlag]
  exact (and_iff_right hi).symm

/-- The buffer is overrun. -/
theorem sysChdir_overrun (hover : lookedUp buf below dirPath path = none) :
    sysChdir k m buf below dirPath path = none := by
  unfold lookedUp at hover
  unfold sysChdir
  cases hb : newPath buf below dirPath path with
  | none => rfl
  | some b =>
    rw [hb, Option.bind_some, Option.map_eq_none_iff] at hover
    rw [Option.bind_some, hover]
    rfl

theorem sysChdir_eq (hs : lookedUp buf below dirPath path = some s) :
    ∃ b, Spells b 0 s ∧ sysChdir k m buf below dirPath path =
      some (match (List.range maxBin).find? fun ind => entersAt m b s.length (k.entry ind) with
        | some _ => (0, s)
        | none => (-1, dirPath)) := by
  obtain ⟨b, hb, hlen, hspell⟩ := lookedUp_some hs
  have hfetch : fetch b 0 s.length = s := hspell.holds
  refine ⟨b, hspell, ?_⟩
  unfold sysChdir
  rw [hb, Option.bind_some, hlen, Option.map_some, hfetch]

theorem sysChdir_found (h : Table k m names) (hs : lookedUp buf below dirPath path = some s)
    (hfound : ∃ i, Enterable k m names s i) : sysChdir k m buf below dirPath path = some (0, s) := by
  obtain ⟨i, hi⟩ := hfound
  obtain ⟨b, hspell, heq⟩ := sysChdir_eq (k := k) (m := m) hs
  have htest := (entersAt_iff h hspell hi.1).mpr hi
  rw [heq]
  cases hfind : (List.range maxBin).find? fun ind => entersAt m b s.length (k.entry ind) with
  | some j => rfl
  | none => exact absurd htest (List.find?_eq_none.mp hfind i (List.mem_range.mpr hi.1))

theorem sysChdir_missing (h : Table k m names) (hs : lookedUp buf below dirPath path = some s)
    (hmissing : ¬ ∃ i, Enterable k m names s i) : sysChdir k m buf below dirPath path = some (-1, dirPath) := by
  obtain ⟨b, hspell, heq⟩ := sysChdir_eq (k := k) (m := m) hs
  have hfind : (List.range maxBin).find? (fun ind => entersAt m b s.length (k.entry ind)) = none := by
    refine List.find?_eq_none.mpr fun i hi htest => ?_
    exact hmissing ⟨i, (entersAt_iff h hspell (List.mem_range.mp hi)).mp htest⟩
  rw [heq, hfind]

/-! ### Only directories are entered -/

/-- A call: its path, and the byte that happens to be before the buffer. -/
structure Request where
  below : Byte
  path : List Byte
  ends : (0 : Byte) ∉ path

/-- The root, or the name of a directory, with its slash or without. -/
def Directory (k : Link) (m : Store) (names : Nat → List Byte) (dir : List Byte) : Prop :=
  dir = [] ∨ ∃ i < maxBin, m (k.entry i + 104) = 0x35 ∧ (names i = dir ∨ names i = dir ++ [slash])

/-- A call that returns 0 has gone to a directory, one that returns -1 has gone nowhere. -/
def ChdirRight (k : Link) (m : Store) (names : Nat → List Byte) (dirPath : List Byte) : Option (Int × List Byte) → Prop
  | none => False
  | some (ret, dir) => (ret = 0 → Directory k m names dir) ∧ (ret = -1 → dir = dirPath)

/-- Every call of the sequence is right, each in the directory where the ones before it have led. -/
def RunRight (k : Link) (m : Store) (names : Nat → List Byte) : List Byte → List Request → Prop
  | _, [] => True
  | dirPath, c :: cs => ChdirRight k m names dirPath (sysChdir k m zeros c.below dirPath c.path) ∧
      ∀ r ∈ sysChdir k m zeros c.below dirPath c.path, RunRight k m names r.2 cs

/-- The path fits into the buffer, and it is not a mere beginning of the name of a directory that
passes the test. -/
def Meets (k : Link) (m : Store) (names : Nat → List Byte) (dirPath : List Byte) (c : Request) : Prop :=
  (assembled c.below dirPath c.path).length < newPathSize ∧
    ∀ i, Enterable k m names (assembled c.below dirPath c.path) i → assembled c.below dirPath c.path ≠ [] →
      ∃ j < maxBin, m (k.entry j + 104) = 0x35 ∧
        (names j = assembled c.below dirPath c.path ∨ names j = assembled c.below dirPath c.path ++ [slash])

def RunMeets (k : Link) (m : Store) (names : Nat → List Byte) : List Byte → List Request → Prop
  | _, [] => True
  | dirPath, c :: cs => Meets k m names dirPath c ∧
      ∀ r ∈ sysChdir k m zeros c.below dirPath c.path, RunMeets k m names r.2 cs

/-- One call. -/
theorem chdirRight_iff (h : Table k m names) (hdir : (0 : Byte) ∉ dirPath) (c : Request) :
    ChdirRight k m names dirPath (sysChdir k m zeros c.below dirPath c.path) ↔ Meets k m names dirPath c := by
  have hs := lookedUp_zeros c.below hdir c.ends
  unfold Meets
  by_cases hshort : (assembled c.below dirPath c.path).length < newPathSize
  · rw [if_pos hshort] at hs
    by_cases hfound : ∃ i, Enterable k m names (assembled c.below dirPath c.path) i
    · rw [sysChdir_found h hs hfound]
      constructor
      · intro hright
        refine ⟨hshort, fun _ _ hne => ?_⟩
        exact (hright.1 rfl).resolve_left hne
      · rintro ⟨_, hwhole⟩
        refine ⟨fun _ => ?_, fun hc => absurd hc (by decide)⟩
        obtain ⟨i, hi⟩ := hfound
        by_cases hempty : assembled c.below dirPath c.path = []
        · exact Or.inl hempty
        · exact Or.inr (hwhole i hi hempty)
    · rw [sysChdir_missing h hs hfound]
      refine iff_of_true ⟨fun hc => absurd hc (by decide), fun _ => rfl⟩ ⟨hshort, fun i hi => ?_⟩
      exact absurd ⟨i, hi⟩ hfound
  · rw [if_neg hshort] at hs
    rw [sysChdir_overrun hs]
    exact iff_of_false id (fun hc => hshort hc.1)

/-- The directory stays a string. -/
theorem sysChdir_ends (h : Table k m names) (hdir : (0 : Byte) ∉ dirPath) {r : Int × List Byte}
    (hr : r ∈ sysChdir k m buf below dirPath path) : (0 : Byte) ∉ r.2 := by
  cases hs : lookedUp buf below dirPath path with
  | none =>
    rw [sysChdir_overrun hs] at hr
    cases hr
  | some s =>
    by_cases hfound : ∃ i, Enterable k m names s i
    · rw [sysChdir_found h hs hfound] at hr
      obtain rfl := Option.mem_some.mp hr
      obtain ⟨_, _, _, hspell⟩ := lookedUp_some hs
      exact hspell.2
    · rw [sysChdir_missing h hs hfound] at hr
      obtain rfl := Option.mem_some.mp hr
      exact hdir

/-- A sequence of calls only enters directories just when every call, where it is made, is given a
path that fits and is not a mere beginning of a name. -/
theorem chdir_enters_directories_iff (k : Link) (m : Store) (names : Nat → List Byte) (h : Table k m names)
    (dirPath : List Byte) (hdir : (0 : Byte) ∉ dirPath) (calls : List Request) :
    RunRight k m names dirPath calls ↔ RunMeets k m names dirPath calls := by
  induction calls generalizing dirPath with
  | nil => exact Iff.rfl
  | cons c cs ih =>
    rw [RunRight, RunMeets, chdirRight_iff h hdir c]
    refine and_congr_right fun _ => ?_
    exact forall₂_congr fun r hr => ih r.2 (sysChdir_ends h hdir hr)

/-! ### What is open makes a difference -/

/-- The memories differ in the fields `ref_cnt` of the table only. -/
def SameButCounts (k : Link) (m m' : Store) : Prop :=
  ∀ x, (∀ i < maxBin, x < k.entry i + 105 ∨ k.entry i + 109 ≤ x) → m' x = m x

theorem entry_gap {i j x : Nat} (hx : k.entry i ≤ x) (hlt : x < k.entry i + 105) :
    x < k.entry j + 105 ∨ k.entry j + 109 ≤ x := by
  unfold Link.entry entrySize at hx hlt ⊢
  obtain hle | hlt' := Nat.lt_or_ge j i
  · omega
  · omega

/-- The names are the same in both. -/
theorem SameButCounts.table (hsame : SameButCounts k m m') (h : Table k m names) : Table k m' names where
  entries := fun i hi => by
    have hlen := h.length_le i hi
    refine (h.entries i hi).congr fun x hx hlt => hsame x fun j _ => ?_
    exact entry_gap hx (by omega)
  length_le := h.length_le

end

/-! ### Two directories -/

/-- "bin" and "bin/tools" -/
def binName : List Byte := [0x62, 0x69, 0x6e]
def toolsName : List Byte := binName ++ [slash, 0x74, 0x6f, 0x6f, 0x6c, 0x73]

/-- A table with the directories `bin/` and `bin/tools/`. -/
def dirsStore : Store :=
  put (put (put (put (fun _ => 0) 4096 (binName ++ [slash])) (4096 + 104) [0x35])
    (4096 + 125) (toolsName ++ [slash])) (4096 + 125 + 104) [0x35]

def dirsNames (i : Nat) : List Byte :=
  if i = 0 then binName ++ [slash] else if i = 1 then toolsName ++ [slash] else []

theorem dirs_table : Table smallLink dirsStore dirsNames where
  entries := by decide +kernel
  length_le := by decide +kernel

/-- `.` and then `./tools` -/
def dirsCalls : List Request :=
  [⟨0, [dot], by decide⟩, ⟨0, [dot, slash, 0x74, 0x6f, 0x6f, 0x6c, 0x73], by decide⟩]

theorem chdir_enters_directories_two : Table smallLink dirsStore dirsNames ∧
    RunRight smallLink dirsStore dirsNames binName dirsCalls := by
  refine ⟨dirs_table, (chdir_enters_directories_iff _ _ _ dirs_table _ (by decide) _).mpr ⟨⟨by decide, ?_⟩, ?_⟩⟩
  · exact fun _ _ _ => ⟨0, by decide, by decide +kernel, Or.inr rfl⟩
  · intro r hr
    have hfirst : sysChdir smallLink dirsStore zeros 0 binName [dot] = some (0, binName) := by decide +kernel
    obtain rfl := Option.some.inj (hfirst.symm.trans hr)
    refine ⟨⟨by decide, fun _ _ _ => ⟨1, by decide, by decide +kernel, Or.inr rfl⟩⟩, fun _ _ => trivial⟩

/-- In `bin`, with the name `t`: the call goes to `bin/t`, because `bin/tools/` begins so. -/
theorem enters_no_directory : Table smallLink dirsStore dirsNames ∧
    sysChdir smallLink dirsStore zeros 0 binName [0x74] = some (0, binName ++ [slash, 0x74]) ∧
    ¬ RunRight smallLink dirsStore dirsNames binName [⟨0, [0x74], by decide⟩] := by
  have hcall : sysChdir smallLink dirsStore zeros 0 binName [0x74] = some (0, binName ++ [slash, 0x74]) := by decide +kernel
  refine ⟨dirs_table, hcall, fun hrun => ?_⟩
  have hright := hrun.1
  rw [hcall] at hright
  obtain hempty | ⟨i, hi, htype, hname⟩ := hright.1 rfl
  · cases hempty
  · have hnone : ∀ i < maxBin, ¬ (dirsNames i = binName ++ [slash, 0x74] ∨
        dirsNames i = binName ++ [slash, 0x74] ++ [slash]) := by decide +kernel
    exact hnone i hi hname

end Sbnix.Files.Raw
