import Sbnix.Files.Chdir
import Sbnix.Library.Run
import Sbnix.Shell.Parse

/-! The built-in `cd` (`changeDir` of `bin/sbush/sbush.c`, lines 137 to 165, over `sys_chdir`).

The shell has one path to hand on, `home`, `last_path` or a word of the line, and the kernel
puts every path that does not begin with a dot behind the directory it is in. So `cd`
and `cd ~` go to `home` below that directory, not to `home`, and `cd -` to the whole last path
once more: without a dot at the beginning of a word a session only descends
(`Dirs.Below.run`), and `cd -` never leads back from where the `cd` before it has gone
(`cd_back_iff`). Between the directory and the path the kernel leaves what its buffer has held there.

A word is a block of `charSize` bytes, and a path copied into it that does not fit has no
result here. -/
namespace Sbnix.Shell
open Library Library.Store Files Files.Raw

/-! ### The code -/

/-- `dir_path` of the shell's task, `last_path`, and the paths reported as missing. -/
structure Dirs where
  dirPath : List Byte
  lastPath : List Byte
  missing : List (List Byte)
  deriving DecidableEq

/-- A `cd`: the word behind it, if there is one, and `home` as `parsePATH` has filled it. The call
meets a memory with the table of the archive, and what is in the buffer of `sys_chdir` and in the byte
before it. -/
structure Cd where
  arg : Option (List Byte)
  home : List Byte
  store : Store
  buf : Store
  below : Byte

/-- `strcpy(dirPath,...)`, into the word itself. -/
def copyWord (s : List Byte) : Option (List Byte) := if s.length < charSize then some s else none

/-- The path that goes to `chdir`. What is put together in `buffer`, for `~` with more behind it, has
fewer than its 200 bytes if the word has room for it. -/
def Cd.path (c : Cd) (lastPath : List Byte) : Option (List Byte) :=
  match c.arg with
  | none => some c.home
  | some word =>
    if word = [0x7e] ∨ word = [] then copyWord c.home
    else if word = [0x2d] then copyWord lastPath
    else if word.getD 0 0 = 0x7e then copyWord (c.home ++ word.drop 1)
    else some word

/-- `getcwd(last_path, fileSize)` comes after the copies. Without a word nothing is reported. -/
def changeDir (k : Link) (s : Dirs) (c : Cd) : Option Dirs :=
  (c.path s.lastPath).bind fun path => (sysChdir k c.store c.buf c.below s.dirPath path).map fun r =>
    ⟨r.2, s.dirPath, if c.arg.isSome ∧ r.1 ≠ 0 then s.missing ++ [path] else s.missing⟩

/-- The shell has started in a directory: `getcwd(last_path, fileSize)` of `main`. -/
def Dirs.start (dirPath : List Byte) : Dirs := ⟨dirPath, dirPath, []⟩

/-! ### Paths without a dot at the beginning -/

/-- A string that `sys_chdir` does not expand. -/
structure Relative (path : List Byte) : Prop where
  ends : (0 : Byte) ∉ path
  first : path.getD 0 0 ≠ dot

/-- The path behind the directory. If that does not end in a slash there is one between them, and the string
that the buffer holds from there on. -/
def Cd.joined (c : Cd) (dirPath path : List Byte) : List Byte :=
  dirPath ++ (if dirPath.getLast? = some slash then [] else slash :: stale c.buf (dirPath.length + 1)) ++ path

/-- A `cd` whose word, if any, and whose `home` are such paths. -/
structure Cd.Plain (k : Link) (names : Nat → List Byte) (c : Cd) : Prop where
  table : Table k c.store names
  word : ∀ word ∈ c.arg, Relative word
  home : Relative c.home
  home_ne : c.home ≠ []

/-- The session is in the directory `d` or below it, and so was it before. -/
structure Dirs.Below (d : List Byte) (s : Dirs) : Prop where
  dir : d <+: s.dirPath
  dir_ends : (0 : Byte) ∉ s.dirPath
  last : d <+: s.lastPath
  last_ends : (0 : Byte) ∉ s.lastPath

section
variable {k : Link} {names : Nat → List Byte} {d dirPath path : List Byte} {s s' : Dirs} {c : Cd}

/-- The first character is that of the beginning. -/
theorem Relative.of_isPrefix (h : Relative d) (hne : d ≠ []) (hstarts : d <+: path) (hends : (0 : Byte) ∉ path) :
    Relative path := by
  refine ⟨hends, ?_⟩
  obtain ⟨rest, rfl⟩ := hstarts
  rw [List.getD_append _ _ _ _ (List.length_pos_iff.mpr hne)]
  exact h.first

theorem Cd.lookedUp (hdir : dirPath ≠ []) (hends : (0 : Byte) ∉ dirPath) (h : Relative path) {t : List Byte}
    (ht : lookedUp c.buf c.below dirPath path = some t) : t = c.joined dirPath path := by
  have hlast : dirPath.getLastD c.below = slash ↔ dirPath.getLast? = some slash := by
    rw [List.getLastD_eq_getLast?, List.getLast?_eq_some_getLast hdir, Option.getD_some, Option.some.injEq]
  have hplain := lookedUp_plain h.first hends h.ends ht
  simp only [hlast] at hplain
  exact hplain

theorem Cd.isPrefix_joined (c : Cd) (dirPath path : List Byte) : dirPath <+: c.joined dirPath path :=
  ⟨_, (List.append_assoc ..).symm⟩

theorem Cd.length_joined_le (c : Cd) (dirPath path : List Byte) :
    dirPath.length + path.length ≤ (c.joined dirPath path).length := by
  rw [joined, List.length_append, List.length_append]
  omega

theorem copyWord_some {s t : List Byte} (h : copyWord s = some t) : t = s := by
  unfold copyWord at h
  split at h
  · exact (Option.some.inj h).symm
  · cases h

/-- Whichever it is, the path is not expanded. -/
theorem Cd.Plain.relative (hc : c.Plain k names) {lastPath : List Byte} (hlast : Relative lastPath)
    (h : c.path lastPath = some path) : Relative path := by
  unfold Cd.path at h
  cases harg : c.arg with
  | none =>
    rw [harg] at h
    obtain rfl := Option.some.inj h
    exact hc.home
  | some word =>
    have hword := hc.word word harg
    rw [harg] at h
    dsimp only at h
    split_ifs at h with hhome hback htilde
    · obtain rfl := copyWord_some h
      exact hc.home
    · obtain rfl := copyWord_some h
      exact hlast
    · obtain rfl := copyWord_some h
      refine hc.home.of_isPrefix hc.home_ne (List.prefix_append ..) ?_
      rw [List.mem_append, not_or]
      exact ⟨hc.home.ends, fun hmem => hword.ends (List.mem_of_mem_drop hmem)⟩
    · obtain rfl := Option.some.inj h
      exact hword

/-- What a `cd` can do: it enters the path behind the directory it is in, or it stays there. -/
theorem changeDir_cases (hd : Relative d) (hne : d ≠ []) (hs : s.Below d) (hc : c.Plain k names)
    (h : changeDir k s c = some s') :
    ∃ path, c.path s.lastPath = some path ∧ s'.lastPath = s.dirPath ∧ (0 : Byte) ∉ s'.dirPath ∧
      ((∃ i, Enterable k c.store names (c.joined s.dirPath path) i) ∧ s'.dirPath = c.joined s.dirPath path ∧
          s'.missing = s.missing ∨
        (∀ i, ¬ Enterable k c.store names (c.joined s.dirPath path) i) ∧ s'.dirPath = s.dirPath ∧
          (c.arg.isSome → s'.missing = s.missing ++ [path])) := by
  unfold changeDir at h
  obtain ⟨path, hpath, h⟩ := Option.bind_eq_some_iff.mp h
  obtain ⟨r, hr, rfl⟩ := Option.map_eq_some_iff.mp h
  have hrelative : Relative path := hc.relative (hd.of_isPrefix hne hs.last hs.last_ends) hpath
  have hdir : s.dirPath ≠ [] := fun hnil => hne (List.prefix_nil.mp (hnil ▸ hs.dir))
  refine ⟨path, hpath, rfl, sysChdir_ends hc.table hs.dir_ends (Option.mem_def.mpr hr), ?_⟩
  cases ht : Raw.lookedUp c.buf c.below s.dirPath path with
  | none =>
    rw [sysChdir_overrun ht] at hr
    cases hr
  | some t =>
    have hjoined := Cd.lookedUp hdir hs.dir_ends hrelative ht
    rw [← hjoined]
    by_cases hfound : ∃ i, Enterable k c.store names t i
    · rw [sysChdir_found hc.table ht hfound] at hr
      obtain rfl := Option.some.inj hr
      exact Or.inl ⟨hfound, rfl, if_neg fun hmoved => hmoved.2 rfl⟩
    · rw [sysChdir_missing hc.table ht hfound] at hr
      obtain rfl := Option.some.inj hr
      exact Or.inr ⟨fun i hi => hfound ⟨i, hi⟩, rfl, fun harg =>
        if_pos ⟨harg, fun hzero => absurd hzero (by decide : (-1 : Int) ≠ 0)⟩⟩

/-- A `cd` leads below the directory or nowhere, and the directory is kept for `cd -`. -/
theorem changeDir_descends (hd : Relative d) (hne : d ≠ []) (hs : s.Below d) (hc : c.Plain k names)
    (h : changeDir k s c = some s') : s.dirPath <+: s'.dirPath ∧ s'.lastPath = s.dirPath ∧ s'.Below d := by
  obtain ⟨path, _, hlast, hends, hcases⟩ := changeDir_cases hd hne hs hc h
  have hdown : s.dirPath <+: s'.dirPath := by
    obtain ⟨_, hdir, _⟩ | ⟨_, hdir, _⟩ := hcases
    · exact hdir ▸ c.isPrefix_joined _ _
    · exact hdir ▸ List.prefix_rfl
  exact ⟨hdown, hlast, hs.dir.trans hdown, hends, hlast ▸ hs.dir, hlast ▸ hs.dir_ends⟩

theorem Dirs.start_below (hd : Relative d) : (Dirs.start d).Below d :=
  ⟨List.prefix_rfl, hd.ends, List.prefix_rfl, hd.ends⟩

/-- A session never leaves the directory it has started in. -/
theorem Dirs.Below.run (hd : Relative d) (hne : d ≠ []) (hs : s.Below d) {cds : List Cd}
    (hcds : ∀ c ∈ cds, c.Plain k names) (h : run (changeDir k) s cds = some s') : s'.Below d := by
  induction cds generalizing s with
  | nil => exact Option.some.inj h ▸ hs
  | cons c cds ih =>
    obtain ⟨t, hstep, hrest⟩ := run_cons_some h
    obtain ⟨_, _, hbelow⟩ := changeDir_descends hd hne hs (hcds c (List.mem_cons_self ..)) hstep
    exact ih hbelow (fun c hc => hcds c (List.mem_cons_of_mem _ hc)) hrest

/-! ### Going back -/

/-- In a session where neither a word nor `home` begins with a dot, every directory is below the one
before it. A `cd -` is back where the `cd` before it was made just when that `cd` has gone nowhere and
no entry that can be entered begins with the directory joined to itself; it is reported as missing then. -/
theorem cd_back_iff (k : Link) (names : Nat → List Byte) (d : List Byte) (hd : Relative d) (hne : d ≠ [])
    (cds : List Cd) (c back : Cd) (hcds : ∀ c ∈ cds, c.Plain k names) (hc : c.Plain k names)
    (hplain : back.Plain k names) (hback : back.arg = some [0x2d]) (s₁ s₂ s₃ : Dirs)
    (h₁ : run (changeDir k) (.start d) cds = some s₁) (h₂ : changeDir k s₁ c = some s₂)
    (h₃ : changeDir k s₂ back = some s₃) :
    d <+: s₁.dirPath ∧ s₁.dirPath <+: s₂.dirPath ∧ s₂.dirPath <+: s₃.dirPath ∧
      (s₃.dirPath = s₁.dirPath ↔
        s₂.dirPath = s₁.dirPath ∧ ∀ i, ¬ Enterable k back.store names (back.joined s₁.dirPath s₁.dirPath) i) ∧
      (s₃.dirPath = s₁.dirPath → s₃.missing = s₂.missing ++ [s₁.dirPath]) := by
  have hs₁ := (Dirs.start_below hd).run hd hne hcds h₁
  obtain ⟨hdown₂, hlast₂, hs₂⟩ := changeDir_descends hd hne hs₁ hc h₂
  obtain ⟨hdown₃, _, _⟩ := changeDir_descends hd hne hs₂ hplain h₃
  obtain ⟨path, hpath, _, _, hcases⟩ := changeDir_cases hd hne hs₂ hplain h₃
  -- the word is `-`, so the path is the directory before the last `cd`
  have hword : path = s₁.dirPath := by
    rw [Cd.path, hback, hlast₂] at hpath
    exact copyWord_some hpath
  subst hword
  have hlong : 0 < s₁.dirPath.length := by
    have hstart := List.length_pos_iff.mpr hne
    exact Nat.lt_of_lt_of_le hstart hs₁.dir.length_le
  refine ⟨hs₁.dir, hdown₂, hdown₃, ?_⟩
  obtain ⟨⟨i, hi⟩, hdir, _⟩ | ⟨hnone, hdir, hmissing⟩ := hcases
  · -- the directory is now longer than the one to go back to
    have haway : s₃.dirPath ≠ s₁.dirPath := fun heq => by
      have hjoined := back.length_joined_le s₂.dirPath s₁.dirPath
      have hgrown := hdown₂.length_le
      rw [← hdir, heq] at hjoined
      omega
    refine ⟨iff_of_false haway ?_, fun heq => absurd heq haway⟩
    rintro ⟨hstay, hnone⟩
    rw [hstay] at hi
    exact hnone i hi
  · rw [hdir]
    refine ⟨⟨fun heq => ⟨heq, heq ▸ hnone⟩, And.left⟩, fun _ => hmissing ?_⟩
    rw [hback]
    rfl

end

/-- A `cd` with `bin/` and `bin/tools/` in the archive, and `bin` for `home`. -/
def Cd.inBin (word : List Byte) : Cd := ⟨some word, binName, dirsStore, zeros, 0⟩

theorem Cd.inBin_plain {word : List Byte} (h : Relative word) : (Cd.inBin word).Plain smallLink dirsNames where
  table := dirs_table
  word := fun w hw => Option.some.inj hw ▸ h
  home := ⟨(by decide : (0 : Byte) ∉ binName), (by decide : binName.getD 0 0 ≠ dot)⟩
  home_ne := (by decide : binName ≠ [])

/-- `cd tools` and then `cd -`: the shell stays in `bin/tools`, and `bin` is reported as missing. -/
theorem cd_back_tools :
    changeDir smallLink (.start binName) (.inBin [0x74, 0x6f, 0x6f, 0x6c, 0x73]) = some ⟨toolsName, binName, []⟩ ∧
      changeDir smallLink ⟨toolsName, binName, []⟩ (.inBin [0x2d]) = some ⟨toolsName, toolsName, [binName]⟩ ∧
      binName <+: toolsName := by
  have hthere : changeDir smallLink (.start binName) (.inBin [0x74, 0x6f, 0x6f, 0x6c, 0x73]) =
      some ⟨toolsName, binName, []⟩ := by decide +kernel
  have hback : changeDir smallLink ⟨toolsName, binName, []⟩ (.inBin [0x2d]) = some ⟨toolsName, toolsName, [binName]⟩ := by
    decide +kernel
  have hsession := cd_back_iff smallLink dirsNames binName ⟨by decide, by decide⟩ (by decide) []
    (.inBin [0x74, 0x6f, 0x6f, 0x6c, 0x73]) (.inBin [0x2d]) (fun c hc => absurd hc (List.not_mem_nil))
    (Cd.inBin_plain ⟨by decide, by decide⟩) (Cd.inBin_plain ⟨by decide, by decide⟩) rfl (.start binName)
    ⟨toolsName, binName, []⟩ ⟨toolsName, toolsName, [binName]⟩ rfl hthere hback
  exact ⟨hthere, hback, hsession.2.1⟩

end Sbnix.Shell
