import Sbnix.Files.Descriptors
import Sbnix.Library.Run

/-! Descriptors over the life of a process, and what a new process inherits of them.

`Call` is what a process does to its descriptors; after `sys_fork` and `sys_execve`
the run goes on in the child or in the task that replaces the caller. `proceed` is any
run. `step` is for the runs that open no name of 32 bytes or more: `Sound` is what these
keep, the slots past `fd_cnt` are untouched and no redirection leads past it. What is left
of it with names of any length is `Intact`.

`fd_cnt` never goes down, so the table is overrun after 22 descriptors have been
handed out, however many of them were closed (`descriptor_table_iff`). Of a slot only
`offset` and `path` are inherited; `inherits_iff` says what that makes of reading and
writing. -/
namespace Sbnix.Files
open Library Library.Store

/-- A process with the index, of which it changes the counts. -/
structure Proc where
  index : List Entry
  task : Task

inductive Call where
  | sysOpen (fileName : List Byte) (flags : Int)
  /-- With what the keyboard and the kernel's memory hold at that time. -/
  | sysRead (line : List Byte) (mem : Store) (fildes size : Nat)
  | sysClose (filedes : Int)
  | sysPipe (pipeBuff : BitVec 64)
  | sysDup2 (oldFd newFd : Int)
  | sysFork
  | sysExecve

def perform (p : Proc) : Call → Except Fault Proc
  | .sysOpen fileName flags => (sysOpen p.index p.task fileName flags).map fun o => ⟨o.index, o.task⟩
  | .sysRead line mem fildes size => (sysRead line mem p.task fildes size).map fun o => ⟨p.index, o.task⟩
  | .sysClose filedes => (sysClose p.index p.task filedes).map fun o => ⟨o.index, o.task⟩
  | .sysPipe pipeBuff => (sysPipe p.task pipeBuff).map fun o => ⟨p.index, o.task⟩
  | .sysDup2 oldFd newFd => (sysDup2 p.task oldFd newFd).map fun o => ⟨p.index, o.2⟩
  | .sysFork => (sysFork p.task).map fun t => ⟨p.index, t⟩
  | .sysExecve => (sysExecve p.task).map fun t => ⟨p.index, t⟩

/-- A file that is opened has a name that fits into `path`. -/
def Call.NameFits (index : List Entry) : Call → Prop
  | .sysOpen fileName _ => ∀ e ∈ index.find? (·.opens fileName), e.name.length < 32
  | _ => True

instance (index : List Entry) : (c : Call) → Decidable (c.NameFits index)
  | .sysOpen fileName _ => inferInstanceAs (Decidable (∀ e ∈ index.find? (·.opens fileName), e.name.length < 32))
  | .sysRead .. => .isTrue trivial
  | .sysClose _ => .isTrue trivial
  | .sysPipe _ => .isTrue trivial
  | .sysDup2 .. => .isTrue trivial
  | .sysFork => .isTrue trivial
  | .sysExecve => .isTrue trivial

/-- Every run, up to a call that faults. -/
def proceed (p : Proc) (c : Call) : Option Proc := (perform p c).toOption

/-- The runs that open only names that fit into `path`. -/
def step (p : Proc) (c : Call) : Option Proc := if c.NameFits p.index then proceed p c else none

def start (index : List Entry) : Proc := ⟨index, Task.create⟩

/-! ### What every run keeps -/

/-- A slot with nothing in it but perhaps a path. -/
structure File.Blank (f : File) : Prop where
  offset : f.offset = 0
  offsetRead : f.offsetRead = 0
  fileSize : f.fileSize = 0
  seek : f.seek = 0

theorem File.zero_blank : File.zero.Blank := ⟨rfl, rfl, rfl, rfl⟩

/-- The slots past `fd_cnt` are as they were made. -/
structure Handed (t : Task) : Prop where
  low : 2 ≤ t.fdCnt
  high : t.fdCnt < 25
  unused : ∀ i, t.fdCnt < i.val → (t.fd i).Blank ∧ t.dupArr i = i.val

structure Sound (t : Task) : Prop extends Handed t where
  redirected : ∀ i, i.val ≤ t.fdCnt → t.dupArr i ≤ t.fdCnt

/-- A string in `path` that goes on behind it ends at `seek`. -/
structure Intact (t : Task) : Prop extends Handed t where
  fits : ∀ i, (t.fd i).path.length ≤ 32
  seek : ∀ i, (t.fd i).seek = 0

theorem create_handed : Handed Task.create where
  low := Nat.le_refl 2
  high := by decide
  unused := fun _ _ => ⟨File.zero_blank, rfl⟩

theorem create_sound : Sound Task.create where
  toHanded := create_handed
  redirected := fun _ hi => hi

theorem create_short : Task.create.Short := fun _ => Nat.zero_lt_succ _

theorem create_intact : Intact Task.create where
  toHanded := create_handed
  fits := fun _ => Nat.zero_le _
  seek := fun _ => rfl

theorem map_ok {ε α β : Type} {x : Except ε α} {f : α → β} {b : β} : x.map f = .ok b ↔ ∃ a, x = .ok a ∧ f a = b := by
  cases x with
  | error e => exact ⟨fun h => (nomatch h), fun ⟨_, h, _⟩ => (nomatch h)⟩
  | ok a => exact ⟨fun h => ⟨a, rfl, Except.ok.inj h⟩, fun ⟨_, h, hf⟩ => by rw [Except.ok.inj h, ← hf]; rfl⟩

theorem proceed_ok {p q : Proc} {c : Call} (h : proceed p c = some q) : perform p c = .ok q := by
  unfold proceed at h
  cases hp : perform p c with
  | error e =>
    rw [hp] at h
    cases h
  | ok r =>
    rw [hp] at h
    rw [Option.some.inj h]

theorem step_ok {p q : Proc} {c : Call} (h : step p c = some q) : c.NameFits p.index ∧ perform p c = .ok q := by
  unfold step at h
  split at h
  · rename_i hfits
    exact ⟨hfits, proceed_ok h⟩
  · cases h

section
variable {t : Task} {i : Fin 25} {f : File}

/-- A slot changes, and stays blank if it was not handed out. -/
theorem Handed.setFd (h : Handed t) (hf : t.fdCnt < i.val → f.Blank) : Handed (t.setFd i f) where
  low := h.low
  high := h.high
  unused := by
    intro j hj
    refine ⟨?_, (h.unused j hj).2⟩
    by_cases he : j = i
    · subst he
      rw [t.setFd_same]
      exact hf hj
    · rw [t.setFd_other f he]
      exact (h.unused j hj).1

/-- The next slot is handed out. -/
theorem Handed.grow (h : Handed t) (hi : i.val = t.fdCnt + 1) (f : File) :
    Handed {t.setFd i f with fdCnt := t.fdCnt + 1} where
  low := by
    have := h.low
    show 2 ≤ t.fdCnt + 1
    omega
  high := by
    have := i.isLt
    show t.fdCnt + 1 < 25
    omega
  unused := by
    intro j hj
    have hlt : t.fdCnt + 1 < j.val := hj
    have hne : j ≠ i := fun he => by
      have := congrArg Fin.val he
      omega
    show ((t.setFd i f).fd j).Blank ∧ t.dupArr j = j.val
    rw [t.setFd_other f hne]
    exact h.unused j (by omega)

theorem Sound.setFd (h : Sound t) (hf : t.fdCnt < i.val → f.Blank) : Sound (t.setFd i f) where
  toHanded := h.toHanded.setFd hf
  redirected := h.redirected

theorem Sound.grow (h : Sound t) (hi : i.val = t.fdCnt + 1) (f : File) :
    Sound {t.setFd i f with fdCnt := t.fdCnt + 1} where
  toHanded := h.toHanded.grow hi f
  redirected := by
    intro j hj
    show t.dupArr j ≤ t.fdCnt + 1
    have hle : j.val ≤ t.fdCnt + 1 := hj
    by_cases hold : j.val ≤ t.fdCnt
    · have := h.redirected j hold
      omega
    · rw [(h.unused j (by omega)).2]
      exact hle

theorem Handed.dup (h : Handed t) (hi : i.val ≤ t.fdCnt) (n : Nat) :
    Handed {t with dupArr := Function.update t.dupArr i n} where
  low := h.low
  high := h.high
  unused := by
    intro j hj
    have hne : j ≠ i := fun he => by
      have := congrArg Fin.val he
      have : t.fdCnt < j.val := hj
      omega
    show (t.fd j).Blank ∧ Function.update t.dupArr i n j = j.val
    rw [Function.update_of_ne hne]
    exact h.unused j hj

theorem Sound.dup (h : Sound t) (hi : i.val ≤ t.fdCnt) {n : Nat} (hn : n ≤ t.fdCnt) :
    Sound {t with dupArr := Function.update t.dupArr i n} where
  toHanded := h.toHanded.dup hi n
  redirected := by
    intro j hj
    show Function.update t.dupArr i n j ≤ t.fdCnt
    by_cases he : j = i
    · rw [he, Function.update_self]
      exact hn
    · rw [Function.update_of_ne he]
      exact h.redirected j hj

theorem setFd_short (h : t.Short) (hf : f.path.length < 32) : (t.setFd i f).Short := by
  intro j
  by_cases he : j = i
  · rw [he, t.setFd_same]
    exact hf
  · rw [t.setFd_other f he]
    exact h j

theorem copyFds_handed (h : Handed t) (hin : ∀ i, (t.path i).length < 72) {dupArr : Fin 25 → Nat}
    (hunused : ∀ i, t.fdCnt < i.val → dupArr i = i.val) {c : Task} (hc : copyFds t dupArr = .ok c) : Handed c := by
  obtain ⟨hlt, hcnt, hdup⟩ := copyFds_shape hc
  refine ⟨by rw [hcnt]; exact h.low, by rw [hcnt]; exact hlt, fun i hi => ?_⟩
  rw [hcnt] at hi
  rw [copyFds_copied hin hc, if_neg (by omega), hdup]
  exact ⟨File.zero_blank, hunused i hi⟩

theorem copyFds_sound (h : Sound t) (hs : t.Short) {dupArr : Fin 25 → Nat}
    (hunused : ∀ i, t.fdCnt < i.val → dupArr i = i.val) (hredirected : ∀ i, i.val ≤ t.fdCnt → dupArr i ≤ t.fdCnt)
    {c : Task} (hc : copyFds t dupArr = .ok c) : Sound c ∧ c.Short := by
  obtain ⟨_, hcnt, hdup⟩ := copyFds_shape hc
  refine ⟨⟨copyFds_handed h.toHanded hs.within hunused hc, fun i hi => ?_⟩, fun i => ?_⟩
  · rw [hcnt] at hi ⊢
    rw [hdup]
    exact hredirected i hi
  · rw [copyFds_short hs hc i]
    split
    · exact hs i
    · exact Nat.zero_lt_succ _

/-- A pipe takes two descriptors. -/
theorem sysPipe_sound (h : Sound t) {pipeBuff : BitVec 64} {o : Piped} (ho : sysPipe t pipeBuff = .ok o) :
    Sound o.task := by
  obtain ⟨_, rfl⟩ | ⟨i, j, _, hi, hj, rfl⟩ := sysPipe_cases ho
  · exact h
  · exact (h.grow hi _).grow (i := j) hj _

end

section
variable {p q : Proc}

theorem perform_sound (h : Sound p.task) (hs : p.task.Short) (c : Call) (hfits : c.NameFits p.index)
    (hc : perform p c = .ok q) : Sound q.task ∧ q.task.Short := by
  cases c with
  | sysOpen fileName flags =>
    obtain ⟨o, ho, rfl⟩ := map_ok.mp hc
    obtain ⟨_, rfl⟩ | ⟨e, i, hfind, hi, rfl⟩ := sysOpen_cases ho
    · exact ⟨h, hs⟩
    · have hname : e.name.length < 32 := hfits e hfind
      dsimp only
      rw [Task.fill_short _ _ hname]
      exact ⟨h.grow hi _, setFd_short hs hname⟩
  | sysRead line mem fildes size =>
    obtain ⟨o, ho, rfl⟩ := map_ok.mp hc
    obtain hsame | ⟨i, _, hset, hmore⟩ := sysRead_task ho
    · dsimp only
      rw [hsame]
      exact ⟨h, hs⟩
    · dsimp only
      rw [hset]
      refine ⟨h.setFd fun hout => ?_, setFd_short hs (hs i)⟩
      have hblank := (h.unused i hout).1
      rw [File.Unread, hblank.offset, hblank.offsetRead, hblank.fileSize] at hmore
      exact absurd hmore (by decide)
  | sysClose filedes =>
    obtain ⟨o, ho, rfl⟩ := map_ok.mp hc
    obtain ⟨i, _, ⟨_, rfl⟩ | ⟨e, _, rfl⟩⟩ := sysClose_cases ho
    · exact ⟨h, hs⟩
    · refine ⟨h.setFd fun hout => ?_, setFd_short hs (show 1 < 32 by decide)⟩
      have hblank := (h.unused i hout).1
      exact ⟨rfl, hblank.offsetRead, hblank.fileSize, hblank.seek⟩
  | sysPipe pipeBuff =>
    obtain ⟨o, ho, rfl⟩ := map_ok.mp hc
    refine ⟨sysPipe_sound h ho, ?_⟩
    obtain ⟨_, rfl⟩ | ⟨i, j, _, _, _, rfl⟩ := sysPipe_cases ho
    · exact hs
    · exact setFd_short (setFd_short hs (by decide : pipeName.length < 32)) (by decide : pipeName.length < 32)
  | sysDup2 oldFd newFd =>
    obtain ⟨o, ho, rfl⟩ := map_ok.mp hc
    obtain rfl | ⟨i, hi, hn, rfl⟩ := sysDup2_cases ho
    · exact ⟨h, hs⟩
    · exact ⟨h.dup hi hn, hs⟩
  | sysFork =>
    obtain ⟨t, ht, rfl⟩ := map_ok.mp hc
    exact copyFds_sound h hs (fun _ _ => rfl) (fun _ hi => hi) ht
  | sysExecve =>
    obtain ⟨t, ht, rfl⟩ := map_ok.mp hc
    exact copyFds_sound h hs (fun i hi => (h.unused i hi).2) h.redirected ht

end

theorem run_sound {index : List Entry} {calls : List Call} {p : Proc} (h : run step (start index) calls = some p) :
    Sound p.task ∧ p.task.Short :=
  @invariant_all _ _ step (fun p => Sound p.task ∧ p.task.Short)
    (fun _ c _ hp hc => perform_sound hp.1 hp.2 c (step_ok hc).1 (step_ok hc).2) _ _ _ ⟨create_sound, create_short⟩ h

/-! ### Names of any length

The field `name` of an entry has 100 bytes. -/

section
variable {t : Task} {i : Fin 25} {e : Entry}

/-- Nothing changes if what is stored over a field and on is what was there. -/
theorem overwrite_same {n v : Nat} {bytes rest : List Byte} (h : bytes <+: toLE n v ++ rest) (hv : v < 256 ^ n) :
    overwrite n bytes v = v := by
  cases bytes with
  | nil => rfl
  | cons b bytes =>
    have hlen := length_toLE n v
    have htake : (b :: bytes).take n = (toLE n v).take (min n (bytes.length + 1)) := by
      rw [List.prefix_iff_eq_take.mp h, List.take_take, List.take_append_of_le_length (by omega)]
      rfl
    have hall : (b :: bytes).take n ++ (toLE n v).drop (bytes.length + 1) = toLE n v := by
      rw [htake]
      by_cases hle : bytes.length + 1 ≤ n
      · rw [Nat.min_eq_right hle, List.take_append_drop]
      · rw [Nat.min_eq_left (by omega), List.take_of_length_le (by omega), List.drop_eq_nil_of_le (by omega),
          List.append_nil]
    rw [overwrite, hall, ofLE_toLE, Nat.mod_eq_of_lt hv]

/-- A string with its zero. -/
theorem takeWhile_zero {bytes : List Byte} (h : 0 ∈ bytes) : bytes.takeWhile (· ≠ 0) ++ [0] <+: bytes := by
  induction bytes with
  | nil => cases h
  | cons b rest ih =>
    by_cases hb : b = 0
    · subst hb
      exact ⟨rest, rfl⟩
    · obtain ⟨more, hmore⟩ := ih ((List.mem_cons.mp h).resolve_left (Ne.symm hb))
      rw [List.takeWhile_cons_of_pos (by simpa using hb)]
      exact ⟨more, congrArg (b :: ·) hmore⟩

theorem Intact.fields (h : Intact t) (i : Fin 25) :
    ∃ front, front.length = 32 ∧ (t.fd i).fields = front ++ toLE 8 0 := by
  refine ⟨_, ?_, by rw [File.fields, h.seek i]; rfl⟩
  simp only [List.length_append, length_toLE]

/-- The string of a slot ends inside of it, with what the slot has there. -/
theorem Intact.path (h : Intact t) (i : Fin 25) :
    t.path i = (t.fd i).path ∧ (t.fd i).path.length < 32 ∨
      ∃ more, t.path i = (t.fd i).path ++ more ∧ (t.fd i).path.length = 32 ∧ more ++ [0] <+: (t.fd i).fields ∧
        more.length ≤ 32 := by
  by_cases hshort : (t.fd i).path.length < 32
  · exact Or.inl ⟨t.path_short hshort, hshort⟩
  · have hfits := h.fits i
    obtain ⟨front, hfront, hfields⟩ := h.fields i
    have hzero : 0 ∈ (t.fd i).fields := by
      rw [hfields]
      exact List.mem_append_right _ (by decide)
    have hprefix := takeWhile_zero hzero
    refine Or.inr ⟨(t.fd i).fields.takeWhile (· ≠ 0), t.path_long hshort hzero, by omega, hprefix, ?_⟩
    rw [hfields, List.takeWhile_append]
    split
    · show (front ++ []).length ≤ 32
      rw [List.append_nil, hfront]
    · rw [← hfront]
      exact (List.takeWhile_prefix _).length_le

theorem Intact.within (h : Intact t) (i : Fin 25) : (t.path i).length < 72 := by
  obtain ⟨hpath, hlen⟩ | ⟨more, hpath, hlen, _, hmore⟩ := h.path i
  · rw [hpath]
    omega
  · rw [hpath, List.length_append]
    omega

/-- A copy of a slot has its `offset`, also where the string runs over it. -/
theorem Intact.copied (h : Intact t) (i : Fin 25) :
    (t.copied i).offset = (t.fd i).offset ∧ (t.copied i).seek = 0 ∧ (t.copied i).path.length ≤ 32 := by
  refine ⟨?_, ?_, File.overlay_length _ _ (Nat.zero_le _)⟩
  · have hprefix : (t.path i ++ [0]).drop 32 <+: toLE 8 (t.fd i).offset.toNat ++ (t.fd i).fields.drop 8 := by
      have hfields : toLE 8 (t.fd i).offset.toNat ++ (t.fd i).fields.drop 8 = (t.fd i).fields := by
        simp only [File.fields, List.append_assoc]
        rw [List.drop_append_of_le_length (by rw [length_toLE]), List.drop_eq_nil_of_le (by rw [length_toLE]),
          List.nil_append]
      rw [hfields]
      obtain ⟨hpath, hlen⟩ | ⟨more, hpath, hlen, hmore, _⟩ := h.path i
      · rw [hpath, List.drop_eq_nil_of_le (by rw [List.length_append]; exact hlen)]
        exact List.nil_prefix
      · rw [hpath, List.append_assoc, List.drop_left' hlen]
        exact hmore
    show BitVec.ofNat 64 (overwrite 8 ((t.path i ++ [0]).drop 32) (t.fd i).offset.toNat) = _
    rw [overwrite_same hprefix (t.fd i).offset.isLt, BitVec.ofNat_toNat, BitVec.setWidth_eq]
  · have hend : (t.path i ++ [0]).drop 64 = [] ∨ (t.path i ++ [0]).drop 64 = [0] := by
      have hlen : (t.path i).length ≤ 64 := by
        obtain ⟨hpath, hlen⟩ | ⟨more, hpath, hlen, _, hmore⟩ := h.path i
        · rw [hpath]
          omega
        · rw [hpath, List.length_append]
          omega
      by_cases hall : (t.path i).length = 64
      · exact Or.inr (List.drop_left' hall)
      · exact Or.inl (List.drop_eq_nil_of_le (by rw [List.length_append, List.length_singleton]; omega))
    show BitVec.ofNat 64 (overwrite 8 ((t.path i ++ [0]).drop 64) 0) = 0
    obtain hnil | hzero := hend
    · rw [hnil]
      rfl
    · rw [hzero]
      rfl

theorem copyFds_intact (h : Intact t) {dupArr : Fin 25 → Nat} (hunused : ∀ i, t.fdCnt < i.val → dupArr i = i.val)
    {c : Task} (hc : copyFds t dupArr = .ok c) : Intact c ∧ ∀ i, i.val ≤ t.fdCnt → (c.fd i).offset = (t.fd i).offset := by
  have hfd := copyFds_copied h.within hc
  refine ⟨⟨copyFds_handed h.toHanded h.within hunused hc, fun i => ?_, fun i => ?_⟩, fun i hi => ?_⟩
  · rw [hfd i]
    split
    · exact (h.copied i).2.2
    · exact Nat.zero_le _
  · rw [hfd i]
    split
    · exact (h.copied i).2.1
    · rfl
  · rw [hfd i, if_pos hi]
    exact (h.copied i).1

theorem Intact.setFd (h : Intact t) {f : File} (hf : t.fdCnt < i.val → f.Blank) (hpath : f.path.length ≤ 32)
    (hseek : f.seek = 0) : Intact (t.setFd i f) where
  toHanded := h.toHanded.setFd hf
  fits := by
    intro j
    by_cases he : j = i
    · rw [he, t.setFd_same]
      exact hpath
    · rw [t.setFd_other f he]
      exact h.fits j
  seek := by
    intro j
    by_cases he : j = i
    · rw [he, t.setFd_same]
      exact hseek
    · rw [t.setFd_other f he]
      exact h.seek j

theorem Intact.grow (h : Intact t) (hi : i.val = t.fdCnt + 1) {f : File} (hpath : f.path.length ≤ 32)
    (hseek : f.seek = 0) : Intact {t.setFd i f with fdCnt := t.fdCnt + 1} where
  toHanded := h.toHanded.grow hi f
  fits := by
    intro j
    show ((t.setFd i f).fd j).path.length ≤ 32
    by_cases he : j = i
    · rw [he, t.setFd_same]
      exact hpath
    · rw [t.setFd_other f he]
      exact h.fits j
  seek := by
    intro j
    show ((t.setFd i f).fd j).seek = 0
    by_cases he : j = i
    · rw [he, t.setFd_same]
      exact hseek
    · rw [t.setFd_other f he]
      exact h.seek j

/-- The end of a name reaches into `path` of the next slot and no further. -/
theorem fill_next (hname : e.name.length < 100) (flags : Int) {j : Fin 25} (hne : j ≠ i) :
    (t.fill i e flags).fd j = {t.fd j with path := ((t.fill i e flags).fd j).path} := by
  rw [Task.fill_other _ _ hne]
  split
  · rename_i hle
    have hlt : i.val < j.val := Nat.lt_of_le_of_ne hle fun hc => hne (Fin.ext hc.symm)
    exact File.overlay_low _ (by rw [List.length_drop, List.length_append, List.length_singleton]; omega)
  · rfl

/-- The descriptor that is opened is the next. -/
theorem Intact.fill (h : Intact t) (hi : i.val = t.fdCnt + 1) (hname : e.name.length < 100) (flags : Int) :
    Intact {t.fill i e flags with fdCnt := t.fdCnt + 1} where
  low := by
    have := h.low
    show 2 ≤ t.fdCnt + 1
    omega
  high := by
    have := i.isLt
    show t.fdCnt + 1 < 25
    omega
  unused := by
    intro j hj
    have hlt : t.fdCnt + 1 < j.val := hj
    have hne : j ≠ i := fun he => by
      have := congrArg Fin.val he
      omega
    obtain ⟨hblank, hdup⟩ := h.unused j (by omega)
    refine ⟨?_, ?_⟩
    · show ((t.fill i e flags).fd j).Blank
      rw [fill_next hname flags hne]
      exact ⟨hblank.offset, hblank.offsetRead, hblank.fileSize, hblank.seek⟩
    · show overwrite 8 ((e.name ++ [0]).drop (72 * (25 - i) + 8 * j)) (t.dupArr j) = j.val
      have hjlt := j.isLt
      rw [List.drop_eq_nil_of_le (by rw [List.length_append, List.length_singleton]; omega)]
      exact hdup
  fits := by
    intro j
    show ((t.fill i e flags).fd j).path.length ≤ 32
    by_cases he : j = i
    · rw [he, Task.fill_same]
      exact File.overlay_length _ _ (h.fits i)
    · rw [Task.fill_other _ _ he]
      split
      · exact File.overlay_length _ _ (h.fits j)
      · exact h.fits j
  seek := by
    intro j
    show ((t.fill i e flags).fd j).seek = 0
    by_cases he : j = i
    · rw [he, Task.fill_same]
      rfl
    · rw [fill_next hname flags he]
      exact h.seek j

end

theorem map_modifyFirst {α β : Type*} {p : α → Bool} {f : α → α} {g : α → β} (h : ∀ x, g (f x) = g x) (l : List α) :
    (modifyFirst p f l).map g = l.map g := by
  induction l with
  | nil => rfl
  | cons x rest ih =>
    rw [modifyFirst]
    split
    · rw [List.map_cons, List.map_cons, h]
    · rw [List.map_cons, List.map_cons, ih]

section
variable {index : List Entry} {t : Task}

theorem sysOpen_intact (h : Intact t) (hnames : ∀ e ∈ index, e.name.length < 100) {fileName : List Byte} {flags : Int}
    {o : Opened} (ho : sysOpen index t fileName flags = .ok o) : Intact o.task := by
  obtain ⟨_, rfl⟩ | ⟨e, i, hfind, hi, rfl⟩ := sysOpen_cases ho
  · exact h
  · exact h.fill hi (hnames e (List.mem_of_find?_eq_some hfind)) flags

theorem sysClose_intact (h : Intact t) {filedes : Int} {o : Opened} (ho : sysClose index t filedes = .ok o) :
    Intact o.task := by
  obtain ⟨i, _, ⟨_, rfl⟩ | ⟨e, _, rfl⟩⟩ := sysClose_cases ho
  · exact h
  · refine h.setFd (fun hout => ?_) (show 1 ≤ 32 by decide) (h.seek i)
    have hblank := (h.unused i hout).1
    exact ⟨rfl, hblank.offsetRead, hblank.fileSize, hblank.seek⟩

end

/-- The names of the index have room in their field. -/
def Proc.Named (p : Proc) : Prop := ∀ e ∈ p.index, e.name.length < 100

theorem Proc.Named.of_names {p q : Proc} (h : p.Named) (hsame : q.index.map Entry.name = p.index.map Entry.name) :
    q.Named := by
  intro e he
  obtain ⟨e', he', hname⟩ := List.mem_map.mp (hsame ▸ List.mem_map_of_mem he : e.name ∈ p.index.map Entry.name)
  rw [← hname]
  exact h e' he'

theorem perform_intact {p q : Proc} (h : Intact p.task) (hn : p.Named) {c : Call} (hc : perform p c = .ok q) :
    Intact q.task ∧ q.Named := by
  cases c with
  | sysOpen fileName flags =>
    obtain ⟨o, ho, rfl⟩ := map_ok.mp hc
    refine ⟨sysOpen_intact h hn ho, hn.of_names ?_⟩
    obtain ⟨_, rfl⟩ | ⟨e, i, _, _, rfl⟩ := sysOpen_cases ho
    · rfl
    · exact map_modifyFirst (f := Entry.retain) (fun _ => rfl) p.index
  | sysRead line mem fildes size =>
    obtain ⟨o, ho, rfl⟩ := map_ok.mp hc
    obtain hsame | ⟨i, _, hset, hmore⟩ := sysRead_task ho
    · dsimp only
      rw [hsame]
      exact ⟨h, hn⟩
    · dsimp only
      rw [hset]
      refine ⟨h.setFd (fun hout => ?_) (h.fits i) (h.seek i), hn⟩
      have hblank := (h.unused i hout).1
      rw [File.Unread, hblank.offset, hblank.offsetRead, hblank.fileSize] at hmore
      exact absurd hmore (by decide)
  | sysClose filedes =>
    obtain ⟨o, ho, rfl⟩ := map_ok.mp hc
    refine ⟨sysClose_intact h ho, hn.of_names ?_⟩
    obtain ⟨i, _, ⟨_, rfl⟩ | ⟨e, _, rfl⟩⟩ := sysClose_cases ho
    · rfl
    · exact map_modifyFirst (f := Entry.release) (fun _ => rfl) p.index
  | sysPipe pipeBuff =>
    obtain ⟨o, ho, rfl⟩ := map_ok.mp hc
    obtain ⟨_, rfl⟩ | ⟨i, j, _, hi, hj, rfl⟩ := sysPipe_cases ho
    · exact ⟨h, hn⟩
    · have hpath : ∀ f : File, (f.pipeEnd pipeBuff).path.length ≤ 32 := fun _ => show pipeName.length ≤ 32 by decide
      have hfirst := h.grow hi (f := (p.task.fd i).pipeEnd pipeBuff) (hpath _) (h.seek i)
      exact ⟨hfirst.grow (i := j) hj (f := (p.task.fd j).pipeEnd pipeBuff) (hpath _) (h.seek j), hn⟩
  | sysDup2 oldFd newFd =>
    obtain ⟨o, ho, rfl⟩ := map_ok.mp hc
    obtain rfl | ⟨i, hi, _, rfl⟩ := sysDup2_cases ho
    · exact ⟨h, hn⟩
    · exact ⟨⟨h.toHanded.dup hi _, h.fits, h.seek⟩, hn⟩
  | sysFork =>
    obtain ⟨t, ht, rfl⟩ := map_ok.mp hc
    exact ⟨(copyFds_intact h (fun _ _ => rfl) ht).1, hn⟩
  | sysExecve =>
    obtain ⟨t, ht, rfl⟩ := map_ok.mp hc
    exact ⟨(copyFds_intact h (fun i hi => (h.unused i hi).2) ht).1, hn⟩

theorem run_intact {index : List Entry} (hnames : ∀ e ∈ index, e.name.length < 100) {calls : List Call} {p : Proc}
    (h : run proceed (start index) calls = some p) : Intact p.task ∧ p.Named := by
  have hstart : (start index).Named := hnames
  exact @invariant_all _ _ proceed (fun p => Intact p.task ∧ p.Named)
      (fun _ _ _ hp hc => perform_intact hp.1 hp.2 (proceed_ok hc)) _ _ _ ⟨create_intact, hstart⟩ h

/-! ### How many descriptors are handed out -/

/-- The number of descriptors a call hands out. -/
def Call.handedOut (index : List Entry) : Call → Nat
  | .sysOpen fileName _ => if index.any (·.opens fileName) then 1 else 0
  | .sysPipe pipeBuff => if pipeBuff = 0 then 0 else 2
  | _ => 0

/-- The number of descriptors handed out by all of the calls, closed or not. -/
def handedOut (index : List Entry) (calls : List Call) : Nat := (calls.map (Call.handedOut index)).sum

/-- `sys_close` is given a number of a slot, and so is `sys_read`, which is not redirected to
anything else. -/
def Call.InRange (t : Task) : Call → Prop
  | .sysClose filedes => 0 ≤ filedes ∧ filedes < 25
  | .sysRead _ _ fildes size => size = 0 ∨ ∃ i : Fin 25, i.val = fildes ∧ t.dupArr i < 25
  | _ => True

theorem any_modifyFirst {α : Type*} {p q : α → Bool} {f : α → α} (h : ∀ x, q (f x) = q x) (l : List α) :
    (modifyFirst p f l).any q = l.any q := by
  induction l with
  | nil => rfl
  | cons x xs ih =>
    rw [modifyFirst]
    split
    · rw [List.any_cons, List.any_cons, h]
    · rw [List.any_cons, List.any_cons, ih]

theorem find_some_any {α : Type*} {p : α → Bool} {l : List α} {x : α} (h : l.find? p = some x) : l.any p = true :=
  List.any_eq_true.mpr ⟨x, List.mem_of_find?_eq_some h, List.find?_some h⟩

theorem find_none_any {α : Type*} {p : α → Bool} {l : List α} (h : l.find? p = none) : l.any p = false := by
  rw [List.any_eq_false]
  exact List.find?_eq_none.mp h

/-- The counts in the index do not matter for what can be opened. -/
theorem perform_index {p q : Proc} {c : Call} (hc : perform p c = .ok q) (fileName : List Byte) :
    q.index.any (·.opens fileName) = p.index.any (·.opens fileName) := by
  cases c with
  | sysOpen name flags =>
    obtain ⟨o, ho, rfl⟩ := map_ok.mp hc
    obtain ⟨_, rfl⟩ | ⟨e, i, _, _, rfl⟩ := sysOpen_cases ho
    · rfl
    · exact any_modifyFirst (f := Entry.retain) (fun _ => rfl) p.index
  | sysClose filedes =>
    obtain ⟨o, ho, rfl⟩ := map_ok.mp hc
    obtain ⟨i, _, ⟨_, rfl⟩ | ⟨e, _, rfl⟩⟩ := sysClose_cases ho
    · rfl
    · exact any_modifyFirst (f := Entry.release) (fun _ => rfl) p.index
  | sysRead line mem fildes size =>
    obtain ⟨_, _, rfl⟩ := map_ok.mp hc
    rfl
  | sysPipe pipeBuff =>
    obtain ⟨_, _, rfl⟩ := map_ok.mp hc
    rfl
  | sysDup2 oldFd newFd =>
    obtain ⟨_, _, rfl⟩ := map_ok.mp hc
    rfl
  | sysFork =>
    obtain ⟨_, _, rfl⟩ := map_ok.mp hc
    rfl
  | sysExecve =>
    obtain ⟨_, _, rfl⟩ := map_ok.mp hc
    rfl

theorem handedOut_congr {index index' : List Entry}
    (h : ∀ fileName, index'.any (·.opens fileName) = index.any (·.opens fileName)) (c : Call) :
    c.handedOut index' = c.handedOut index := by
  cases c with
  | sysOpen fileName flags => rw [Call.handedOut, Call.handedOut, h]
  | _ => rfl

/-- `fd_cnt` goes up by what is handed out, and by nothing down. -/
theorem perform_fdCnt {p q : Proc} {c : Call} (hc : perform p c = .ok q) :
    q.task.fdCnt = p.task.fdCnt + c.handedOut p.index := by
  cases c with
  | sysOpen fileName flags =>
    obtain ⟨o, ho, rfl⟩ := map_ok.mp hc
    obtain ⟨hfind, rfl⟩ | ⟨e, i, hfind, _, rfl⟩ := sysOpen_cases ho
    · rw [Call.handedOut, find_none_any hfind]
      rfl
    · rw [Call.handedOut, find_some_any hfind]
      rfl
  | sysRead line mem fildes size =>
    obtain ⟨o, ho, rfl⟩ := map_ok.mp hc
    obtain hsame | ⟨i, _, hset, _⟩ := sysRead_task ho
    · dsimp only
      rw [hsame]
      rfl
    · dsimp only
      rw [hset]
      rfl
  | sysClose filedes =>
    obtain ⟨o, ho, rfl⟩ := map_ok.mp hc
    obtain ⟨i, _, ⟨_, rfl⟩ | ⟨e, _, rfl⟩⟩ := sysClose_cases ho
    · rfl
    · rfl
  | sysPipe pipeBuff =>
    obtain ⟨o, ho, rfl⟩ := map_ok.mp hc
    obtain ⟨hbuff, rfl⟩ | ⟨i, j, hbuff, _, _, rfl⟩ := sysPipe_cases ho
    · rw [Call.handedOut, if_pos hbuff]
      rfl
    · rw [Call.handedOut, if_neg hbuff]
  | sysDup2 oldFd newFd =>
    obtain ⟨o, ho, rfl⟩ := map_ok.mp hc
    obtain rfl | ⟨i, _, _, rfl⟩ := sysDup2_cases ho
    · rfl
    · rfl
  | sysFork =>
    obtain ⟨t, ht, rfl⟩ := map_ok.mp hc
    exact (copyFds_shape ht).2.1
  | sysExecve =>
    obtain ⟨t, ht, rfl⟩ := map_ok.mp hc
    exact (copyFds_shape ht).2.1

theorem run_index {p q : Proc} {calls : List Call} (h : run proceed p calls = some q) (fileName : List Byte) :
    q.index.any (·.opens fileName) = p.index.any (·.opens fileName) :=
  @invariant_all _ _ proceed (fun q => q.index.any (·.opens fileName) = p.index.any (·.opens fileName))
    (fun _ _ _ hq hc => (perform_index (proceed_ok hc) fileName).trans hq) _ _ _ rfl h

theorem run_fdCnt {p q : Proc} {calls : List Call} (h : run proceed p calls = some q) :
    q.task.fdCnt = p.task.fdCnt + handedOut p.index calls := by
  induction calls generalizing p with
  | nil =>
    obtain rfl : p = q := by simpa [run] using h
    rfl
  | cons c rest ih =>
    obtain ⟨p', hp', hrest⟩ := run_cons_some h
    have hc := proceed_ok hp'
    have hsame : handedOut p'.index rest = handedOut p.index rest := by
      unfold handedOut
      rw [List.map_congr_left fun c _ => handedOut_congr (perform_index hc) c]
    rw [ih hrest, perform_fdCnt hc, hsame]
    simp only [handedOut, List.map_cons, List.sum_cons]
    omega

/-! ### Past the end of the table -/

theorem map_error {ε α β : Type} {x : Except ε α} {f : α → β} {e : ε} : x.map f = .error e ↔ x = .error e := by
  cases x with
  | error e' => exact ⟨fun h => by rw [Except.error.inj h], fun h => by rw [h]; rfl⟩
  | ok a => exact ⟨fun h => (nomatch h), fun h => (nomatch h)⟩

theorem bind_error {ε α β : Type} {x : Except ε α} {f : α → Except ε β} {e : ε} :
    x >>= f = .error e ↔ x = .error e ∨ ∃ a, x = .ok a ∧ f a = .error e := by
  cases x with
  | error e' =>
    constructor
    · intro h
      exact Or.inl (by rw [Except.error.inj h])
    · rintro (h | ⟨_, h, _⟩)
      · rw [h]
        rfl
      · cases h
  | ok a =>
    constructor
    · intro h
      exact Or.inr ⟨a, rfl, h⟩
    · rintro (h | ⟨_, h, hf⟩)
      · cases h
      · rw [Except.ok.inj h]
        exact hf

theorem slotOf_error {n : Int} {e : Fault} : slotOf n = .error e ↔ ¬ (0 ≤ n ∧ n < 25) ∧ e = .bounds := by
  unfold slotOf
  split
  · rename_i h
    exact ⟨fun he => (nomatch he), fun he => absurd h he.1⟩
  · rename_i h
    exact ⟨fun he => ⟨h, (Except.error.inj he).symm⟩, fun he => by rw [he.2]⟩

theorem deref_bounds (p : BitVec 64) : deref p ≠ .error .bounds := by
  unfold deref
  split
  · exact fun h => nomatch h
  · exact fun h => nomatch h

section
variable {index : List Entry} {t : Task}

theorem sysOpen_bounds (fileName : List Byte) (flags : Int) : sysOpen index t fileName flags = .error .bounds ↔
    index.any (·.opens fileName) ∧ 25 ≤ t.fdCnt + 1 := by
  unfold sysOpen
  cases hfind : index.find? (·.opens fileName) with
  | none =>
    rw [find_none_any hfind]
    exact ⟨fun h => (nomatch h), fun h => absurd h.1 (by decide)⟩
  | some e =>
    rw [find_some_any hfind]
    simp only [bind_error, slotOf_error, true_and]
    constructor
    · rintro (h | ⟨i, _, h⟩)
      · omega
      · cases h
    · intro h
      exact Or.inl ⟨by omega, trivial⟩

theorem sysClose_bounds (filedes : Int) : sysClose index t filedes = .error .bounds ↔ ¬ (0 ≤ filedes ∧ filedes < 25) := by
  unfold sysClose
  simp only [bind_error, slotOf_error, and_true]
  constructor
  · rintro (h | ⟨i, _, h⟩)
    · exact h
    · split at h
      · cases h
      · cases h
  · intro h
    exact Or.inl h

theorem sysPipe_bounds (pipeBuff : BitVec 64) : sysPipe t pipeBuff = .error .bounds ↔ pipeBuff ≠ 0 ∧ 25 ≤ t.fdCnt + 2 := by
  unfold sysPipe
  split
  · rename_i hbuff
    exact ⟨fun h => (nomatch h), fun h => absurd hbuff h.1⟩
  · rename_i hbuff
    simp only [bind_error, slotOf_error, and_true]
    constructor
    · rintro (h | ⟨i, hi, h⟩)
      · exact ⟨hbuff, by omega⟩
      · obtain h | ⟨_, _, h⟩ := h
        · exact ⟨hbuff, by omega⟩
        · cases h
    · intro h
      by_cases hone : t.fdCnt + 1 < 25
      · exact Or.inr ⟨⟨t.fdCnt + 1, hone⟩, slotOf_ok.mpr rfl, Or.inl (by omega)⟩
      · exact Or.inl (by omega)

theorem sysDup2_bounds (hhigh : t.fdCnt < 25) (oldFd newFd : Int) : sysDup2 t oldFd newFd ≠ .error .bounds := by
  unfold sysDup2
  split
  · exact fun hc => nomatch hc
  · split
    · exact fun hc => nomatch hc
    · intro hc
      obtain hc | ⟨_, _, hc⟩ := bind_error.mp hc
      · have := (slotOf_error.mp hc).1
        omega
      · cases hc

/-- Without a transfer to or from a pipe a slot is used, and otherwise the one it is redirected to. -/
theorem sysRead_bounds (line : List Byte) (mem : Store) (fildes size : Nat) :
    sysRead line mem t fildes size = .error .bounds ↔ ¬ (size = 0 ∨ ∃ i : Fin 25, i.val = fildes ∧ t.dupArr i < 25) := by
  unfold sysRead
  split
  · rename_i hsize
    simp only [bind_error, slotOf_error]
    constructor
    · rintro (hc | ⟨i, hi, hc⟩)
      · rintro (hzero | ⟨i, hi, _⟩)
        · omega
        · have := i.isLt
          omega
      · have hslot : (i.val : Int) = fildes := slotOf_ok.mp hi
        rintro (hzero | ⟨i', hi', hdup⟩)
        · omega
        · obtain rfl : i' = i := Fin.ext (by omega)
          split at hc
          · obtain hc | ⟨j, _, hc⟩ := bind_error.mp hc
            · have := (slotOf_error.mp hc).1
              omega
            · obtain hc | ⟨_, _, hc⟩ := bind_error.mp hc
              · exact deref_bounds _ hc
              · cases hc
          · split at hc
            · cases hc
            · split at hc
              · split at hc
                · obtain hc | ⟨_, _, hc⟩ := bind_error.mp hc
                  · exact deref_bounds _ hc
                  · cases hc
                · cases hc
              · cases hc
    · intro hc
      by_cases hlt : fildes < 25
      · have hdup : ¬ t.dupArr ⟨fildes, hlt⟩ < 25 := fun hdup => hc (Or.inr ⟨⟨fildes, hlt⟩, rfl, hdup⟩)
        refine Or.inr ⟨⟨fildes, hlt⟩, slotOf_ok.mpr rfl, ?_⟩
        rw [if_pos (by omega)]
        exact bind_error.mpr (Or.inl (slotOf_error.mpr ⟨by omega, rfl⟩))
      · exact Or.inl ⟨by omega, trivial⟩
  · rename_i hsize
    exact ⟨fun hc => (nomatch hc), fun hc => absurd (Or.inl (by omega)) hc⟩

theorem copyFds_bounds (hhigh : t.fdCnt < 25) (dupArr : Fin 25 → Nat) : copyFds t dupArr ≠ .error .bounds := by
  rw [copyFds, if_pos hhigh]
  exact fun hc => nomatch hc

theorem Sound.dup_lt (h : Sound t) (i : Fin 25) : t.dupArr i < 25 := by
  have hhigh := h.high
  by_cases hi : i.val ≤ t.fdCnt
  · have := h.redirected i hi
    omega
  · rw [(h.unused i (by omega)).2]
    exact i.isLt

end

/-- A call goes past the end exactly if the descriptors it hands out do, or the
number it is given. -/
theorem perform_bounds {p : Proc} (hhigh : p.task.fdCnt < 25) (c : Call) :
    perform p c = .error .bounds ↔ ¬ (p.task.fdCnt + c.handedOut p.index < 25 ∧ c.InRange p.task) := by
  cases c with
  | sysOpen fileName flags =>
    simp only [perform, map_error, sysOpen_bounds, Call.handedOut, Call.InRange]
    by_cases hany : p.index.any (·.opens fileName) = true
    · rw [if_pos hany]
      simp only [hany, true_and, and_true]
      omega
    · rw [if_neg hany]
      simp only [hany, Bool.false_eq_true, false_and, and_true, Nat.add_zero, hhigh, not_true]
  | sysRead line mem fildes size =>
    simp only [perform, map_error, sysRead_bounds, Call.handedOut, Call.InRange, Nat.add_zero, hhigh, true_and]
  | sysClose filedes =>
    simp only [perform, map_error, sysClose_bounds, Call.handedOut, Call.InRange, Nat.add_zero, hhigh, true_and]
  | sysPipe pipeBuff =>
    simp only [perform, map_error, sysPipe_bounds, Call.handedOut, Call.InRange]
    by_cases hbuff : pipeBuff = 0
    · rw [if_pos hbuff]
      simp only [hbuff, ne_eq, not_true, false_and, Nat.add_zero, hhigh, and_self]
    · rw [if_neg hbuff]
      simp only [hbuff, ne_eq, not_false_eq_true, true_and, and_true]
      omega
  | sysDup2 oldFd newFd =>
    simp only [perform, map_error, Call.handedOut, Call.InRange, sysDup2_bounds hhigh, Nat.add_zero, hhigh, and_self, not_true]
  | sysFork =>
    simp only [perform, map_error, Call.handedOut, Call.InRange, sysFork, copyFds_bounds hhigh, Nat.add_zero, hhigh,
      and_self, not_true]
  | sysExecve =>
    simp only [perform, map_error, Call.handedOut, Call.InRange, sysExecve, copyFds_bounds hhigh, Nat.add_zero, hhigh,
      and_self, not_true]

theorem run_high {index : List Entry} {calls : List Call} {p : Proc} (h : run proceed (start index) calls = some p) :
    p.task.fdCnt < 25 := by
  refine @invariant_all _ _ proceed (fun p => p.task.fdCnt < 25) (fun p c q hp hc => ?_) _ _ _ create_handed.high h
  have hc := proceed_ok hc
  have hin : perform p c ≠ .error .bounds := fun hout => by
    rw [hout] at hc
    cases hc
  rw [perform_fdCnt hc]
  exact (not_not.mp (mt (perform_bounds hp c).mpr hin)).1

/-- The same by the calls before. -/
theorem run_bounds {index : List Entry} {before : List Call} {p : Proc} (c : Call)
    (hp : run proceed (start index) before = some p) :
    perform p c ≠ .error .bounds ↔ handedOut index (before ++ [c]) ≤ 22 ∧ c.InRange p.task := by
  have hcnt : p.task.fdCnt = 2 + handedOut index before := run_fdCnt hp
  have hsame : c.handedOut p.index = c.handedOut index := handedOut_congr (run_index hp) c
  have hsum : handedOut index (before ++ [c]) = handedOut index before + c.handedOut index := by
    simp [handedOut]
  rw [Ne, perform_bounds (run_high hp) c, not_not, hcnt, hsame, hsum]
  constructor
  · intro hc
    exact ⟨by omega, hc.2⟩
  · intro hc
    exact ⟨by omega, hc.2⟩

/-- The bound of the table: every call of a run, up to and including the first that
faults, stays inside the tables exactly if along the run no more than 22 descriptors are
ever handed out, closed or not, and the calls are given numbers of slots. -/
theorem descriptor_table_iff (index : List Entry) (calls : List Call) :
    (∀ before c, before ++ [c] <+: calls → ∀ p, run proceed (start index) before = some p →
      perform p c ≠ .error .bounds) ↔
    ∀ before c, before ++ [c] <+: calls → ∀ p, run proceed (start index) before = some p →
      handedOut index (before ++ [c]) ≤ 22 ∧ c.InRange p.task := by
  constructor
  · intro h before c hprefix p hp
    exact (run_bounds c hp).mp (h before c hprefix p hp)
  · intro h before c hprefix p hp
    exact (run_bounds c hp).mpr (h before c hprefix p hp)

/-- The slots past the standard three that hold a descriptor. -/
def Task.openCount (t : Task) : Nat := ((List.finRange 25).filter fun i => 2 < i.val ∧ (t.fd i).offset ≠ 0).length

/-- One file, at the address 1000000. -/
def oneFile : List Entry := [⟨[0x61], 5, 0x30, 0, 999488, 1000000⟩]

/-- One file with a name of 36 letters, in the kernel. -/
def longNamed : List Entry := [⟨List.replicate 36 0x61, 5, 0x30, 0, 0xffffffff80212000, 0xffffffff80212200⟩]

/-- The file opened and closed over and over. -/
def reopening : List Call :=
  (List.range 23).flatMap fun k => [.sysOpen [0x61] 0, .sysClose (3 + k)]

/-- Never is more than one descriptor open, and the twenty-third goes past the end. -/
theorem reopening_past_table :
    Along proceed (fun p _ => p.task.openCount ≤ 1) (start oneFile) reopening ∧
      ¬ ∀ before c, before ++ [c] <+: reopening → ∀ p, run proceed (start oneFile) before = some p →
        perform p c ≠ .error .bounds := by
  refine ⟨by decide +kernel, fun h => ?_⟩
  have hprefix : reopening.take 44 ++ [.sysOpen [0x61] 0] <+: reopening := ⟨[.sysClose 25], rfl⟩
  obtain ⟨p, hp⟩ := Option.isSome_iff_exists.mp
    (by decide +kernel : (run proceed (start oneFile) (reopening.take 44)).isSome = true)
  have hbound := ((run_bounds _ hp).mp (h _ _ hprefix p hp)).1
  exact absurd hbound (by decide)

/-! ### What is inherited -/

/-- What the caller sees of a transfer: the result, the bytes, and which pipe buffer
they come from or go to. -/
def outcome (x : Except Fault Transfer) : Except Fault (Int × List Byte × Option Nat) :=
  x.map fun o => (o.ret, o.bytes, o.buffer)

/-- A copy of `offset` alone reads like the slot: both are at an end, or both use an
address that kills. -/
def File.CopyReads (f : File) : Prop := f.offset = 0 ∧ ¬ f.Unread ∨ f.offset ≠ 0 ∧ f.Unread ∧ f.src.toNat < initialMem

/-- A child reads like its parent: a standard stream or such a slot, not redirected, or a
slot with an `offset` that is redirected to where the parent is killed. -/
def Task.ForkReads (t : Task) (i : Fin 25) : Prop :=
  t.dupArr i = i ∧ (i.val ≤ 2 ∨ (t.fd i).CopyReads) ∨
    t.dupArr i ≠ i ∧ 2 < i.val ∧ (t.fd i).offset ≠ 0 ∧ ∃ j : Fin 25, j.val = t.dupArr i ∧ (t.fd j).offset.toNat < initialMem

section
variable {t : Task} {i : Fin 25} {mem : Store} {line data : List Byte} {size : Nat}

theorem slotOf_fin (i : Fin 25) : slotOf (i.val : Nat) = .ok i := slotOf_ok.mpr rfl

theorem read_nothing : outcome (sysRead line mem t i 0) = .ok (0, [], none) := rfl

/-- A descriptor that is redirected reads the whole string in the buffer, and empties it. -/
theorem sysRead_redirected (hsize : 0 < size) (hdup : t.dupArr i ≠ i) {j : Fin 25} (hj : j.val = t.dupArr i) :
    sysRead line mem t i size =
      if (t.fd j).offset.toNat < initialMem then .error .killed
      else .ok ⟨strlen mem (t.fd j).offset.toNat, cString mem (t.fd j).offset.toNat ++ [0],
        some (t.fd j).offset.toNat, t, memset mem (t.fd j).offset.toNat 0 (strlen mem (t.fd j).offset.toNat)⟩ := by
  have hslot : slotOf (t.dupArr i : Nat) = .ok j := slotOf_ok.mpr (by rw [hj])
  rw [sysRead, if_pos hsize, slotOf_fin]
  show (if t.dupArr i ≠ i.val then _ else _) = _
  rw [if_pos hdup, hslot]
  show deref (t.fd j).offset >>= _ = _
  unfold deref
  split
  · rfl
  · rfl

theorem read_redirected (hsize : 0 < size) (hdup : t.dupArr i ≠ i) {j : Fin 25} (hj : j.val = t.dupArr i) :
    outcome (sysRead line mem t i size) =
      if (t.fd j).offset.toNat < initialMem then .error .killed
      else .ok (strlen mem (t.fd j).offset.toNat, cString mem (t.fd j).offset.toNat ++ [0],
        some (t.fd j).offset.toNat) := by
  rw [sysRead_redirected hsize hdup hj]
  split
  · rfl
  · rfl

theorem read_console (hsize : 0 < size) (hdup : t.dupArr i = i) (hi : i.val = 0) :
    outcome (sysRead line mem t i size) =
      .ok (((min line.length size : Nat) : Int), line.take (min line.length size) ++ [0], none) := by
  rw [sysRead, if_pos hsize, slotOf_fin]
  show outcome (if t.dupArr i ≠ i.val then _ else _) = _
  rw [if_neg (not_not.mpr hdup), if_pos hi]
  rfl

theorem read_output (hsize : 0 < size) (hdup : t.dupArr i = i) (hi : 0 < i.val) (hi' : i.val ≤ 2) :
    outcome (sysRead line mem t i size) = .ok (0, [], none) := by
  rw [sysRead, if_pos hsize, slotOf_fin]
  show outcome (if t.dupArr i ≠ i.val then _ else _) = _
  rw [if_neg (not_not.mpr hdup), if_neg (by omega), if_neg (by omega)]
  rfl

/-- A slot that is not redirected is read up to the end, and if not at the end as far as
asked. -/
theorem sysRead_slot (hsize : 0 < size) (hdup : t.dupArr i = i) (hi : 2 < i.val) :
    sysRead line mem t i size =
      if (t.fd i).Unread then
        if (t.fd i).src.toNat < initialMem then .error .killed
        else .ok ⟨size, fetch mem (t.fd i).src.toNat size ++ [0], none,
          t.setFd i {t.fd i with offsetRead := (t.fd i).offsetRead + BitVec.ofNat 64 size}, mem⟩
      else .ok ⟨0, [], none, t, mem⟩ := by
  rw [sysRead, if_pos hsize, slotOf_fin]
  show (if t.dupArr i ≠ i.val then _ else _) = _
  rw [if_neg (not_not.mpr hdup), if_neg (by omega), if_pos hi]
  dsimp only
  by_cases hmore : (t.fd i).Unread
  · rw [if_pos hmore, if_pos hmore]
    show deref (t.fd i).src >>= _ = _
    unfold deref
    split
    · rfl
    · rfl
  · rw [if_neg hmore, if_neg hmore]

theorem read_slot (hsize : 0 < size) (hdup : t.dupArr i = i) (hi : 2 < i.val) :
    outcome (sysRead line mem t i size) =
      if (t.fd i).Unread then
        if (t.fd i).src.toNat < initialMem then .error .killed
        else .ok (size, fetch mem (t.fd i).src.toNat size ++ [0], none)
      else .ok (0, [], none) := by
  rw [sysRead_slot hsize hdup hi]
  split
  · split
    · rfl
    · rfl
  · rfl

/-- A descriptor that is redirected writes behind the string in the buffer. -/
theorem sysWrite_redirected (printk : List Byte → Int) (hdup : t.dupArr i ≠ i) {j : Fin 25} (hj : j.val = t.dupArr i) :
    sysWrite printk mem t i data =
      if (t.fd j).offset.toNat < initialMem then .error .killed
      else .ok ⟨data.length, data, some (t.fd j).offset.toNat, t,
        put mem ((t.fd j).offset.toNat + strlen mem (t.fd j).offset.toNat) data⟩ := by
  have hslot : slotOf (t.dupArr i : Nat) = .ok j := slotOf_ok.mpr (by rw [hj])
  rw [sysWrite, slotOf_fin]
  show (if t.dupArr i ≠ i.val then _ else _) = _
  rw [if_pos hdup, hslot]
  show deref (t.fd j).offset >>= _ = _
  unfold deref
  split
  · rfl
  · rfl

theorem write_redirected (printk : List Byte → Int) (hdup : t.dupArr i ≠ i) {j : Fin 25} (hj : j.val = t.dupArr i) :
    outcome (sysWrite printk mem t i data) =
      if (t.fd j).offset.toNat < initialMem then .error .killed
      else .ok (data.length, data, some (t.fd j).offset.toNat) := by
  rw [sysWrite_redirected printk hdup hj]
  split
  · rfl
  · rfl

theorem write_plain (printk : List Byte → Int) (hdup : t.dupArr i = i) :
    outcome (sysWrite printk mem t i data) =
      if i.val = 1 ∨ i.val = 2 then .ok (printk (data.takeWhile (· ≠ 0)), data.takeWhile (· ≠ 0), none)
      else .ok (0, [], none) := by
  rw [sysWrite, slotOf_fin]
  show outcome (if t.dupArr i ≠ i.val then _ else _) = _
  rw [if_neg (not_not.mpr hdup)]
  split
  · rfl
  · rfl

end

section
variable {t c : Task} {dupArr : Fin 25 → Nat} {i : Fin 25} {mem : Store} {line data : List Byte} {size : Nat}

/-- A slot of the new task has an `offset` and reads from the address zero. -/
theorem copyFds_slot (hs : t.Short) (hc : copyFds t dupArr = .ok c) (hi : i.val ≤ t.fdCnt) :
    (c.fd i).offset = (t.fd i).offset ∧ ((c.fd i).Unread ↔ (t.fd i).offset ≠ 0) ∧ (c.fd i).src = 0 := by
  rw [copyFds_short hs hc i, if_pos hi]
  refine ⟨rfl, ?_, rfl⟩
  show 0#64 < (t.fd i).offset + 0#64 ↔ (t.fd i).offset ≠ 0#64
  rw [BitVec.add_zero, BitVec.pos_iff_ne_zero]

theorem read_copied (hs : t.Short) (hc : copyFds t dupArr = .ok c) (hi : i.val ≤ t.fdCnt) (hsize : 0 < size) (hdup : dupArr i = i)
    (hslot : 2 < i.val) :
    outcome (sysRead line mem c i size) = if (t.fd i).offset ≠ 0 then .error .killed else .ok (0, [], none) := by
  obtain ⟨_, hmore, hsrc⟩ := copyFds_slot hs hc hi
  have hdup' : c.dupArr i = i := by
    rw [(copyFds_shape hc).2.2]
    exact hdup
  rw [read_slot hsize hdup' hslot, hsrc]
  simp only [hmore, show (0 : BitVec 64).toNat < initialMem by decide, if_true]

/-- The slot itself and its copy. -/
theorem read_copied_iff (hs : t.Short) (hc : copyFds t dupArr = .ok c) (hi : i.val ≤ t.fdCnt) (hsize : 0 < size) (hdup : dupArr i = i)
    (hparent : t.dupArr i = i) (hslot : 2 < i.val) :
    outcome (sysRead line mem c i size) = outcome (sysRead line mem t i size) ↔ (t.fd i).CopyReads := by
  rw [read_copied hs hc hi hsize hdup hslot, read_slot hsize hparent hslot, File.CopyReads]
  by_cases hoff : (t.fd i).offset = 0#64
  · by_cases hmore : (t.fd i).Unread
    · by_cases hsrc : (t.fd i).src.toNat < initialMem
      · simp [hoff, hmore, hsrc]
      · simp [hoff, hmore, hsrc]
    · simp [hoff, hmore]
  · by_cases hmore : (t.fd i).Unread
    · by_cases hsrc : (t.fd i).src.toNat < initialMem
      · simp [hoff, hmore, hsrc]
      · simp [hoff, hmore, hsrc]
    · simp [hoff, hmore]

/-- The standard streams do not depend on the slots. -/
theorem read_standard (hc : copyFds t dupArr = .ok c) (hdup : dupArr i = i) (hparent : t.dupArr i = i) (hi : i.val ≤ 2) :
    outcome (sysRead line mem c i size) = outcome (sysRead line mem t i size) := by
  have hdup' : c.dupArr i = i := by
    rw [(copyFds_shape hc).2.2]
    exact hdup
  rcases Nat.eq_zero_or_pos size with rfl | hsize
  · rfl
  · by_cases hzero : i.val = 0
    · rw [read_console hsize hdup' hzero, read_console hsize hparent hzero]
    · rw [read_output hsize hdup' (by omega) hi, read_output hsize hparent (by omega) hi]

end

section
variable {t child : Task} {i : Fin 25} {mem : Store} {line data : List Byte} {size : Nat}

theorem fork_read_iff (h : Sound t) (hs : t.Short) (hc : sysFork t = .ok child) (hi : i.val ≤ t.fdCnt) :
    outcome (sysRead line mem child i size) = outcome (sysRead line mem t i size) ↔ size = 0 ∨ t.ForkReads i := by
  rcases Nat.eq_zero_or_pos size with rfl | hsize
  · simp only [read_nothing, true_or]
  · have hne : size ≠ 0 := by omega
    simp only [hne, false_or, Task.ForkReads]
    by_cases hdup : t.dupArr i = i
    · by_cases hstd : i.val ≤ 2
      · simp only [read_standard hc rfl hdup hstd, hdup, hstd, true_or, and_true]
      · rw [read_copied_iff hs hc hi hsize rfl hdup (by omega)]
        simp only [hdup, hstd, false_or, true_and, ne_eq, not_true, false_and, or_false]
    · -- the parent uses the buffer of a pipe, which the child never does
      obtain ⟨j, hj⟩ : ∃ j : Fin 25, j.val = t.dupArr i := ⟨⟨t.dupArr i, h.dup_lt i⟩, rfl⟩
      have htarget : (∃ k : Fin 25, k.val = t.dupArr i ∧ (t.fd k).offset.toNat < initialMem) ↔
          (t.fd j).offset.toNat < initialMem := by
        constructor
        · rintro ⟨k, hk, hlow⟩
          obtain rfl : k = j := Fin.ext (hk.trans hj.symm)
          exact hlow
        · intro hlow
          exact ⟨j, hj, hlow⟩
      have hself : child.dupArr i = i := by rw [(copyFds_shape hc).2.2]
      rw [read_redirected hsize hdup hj, htarget]
      simp only [hdup, false_and, false_or, ne_eq, not_false_eq_true, true_and]
      by_cases hstd : i.val ≤ 2
      · have hslot : ¬ 2 < i.val := by omega
        simp only [hslot, false_and, iff_false]
        by_cases hzero : i.val = 0
        · rw [read_console hsize hself hzero]
          split
          · simp
          · simp
        · rw [read_output hsize hself (by omega) hstd]
          split
          · simp
          · simp
      · rw [read_copied hs hc hi hsize rfl (by omega)]
        by_cases hoff : (t.fd i).offset = 0#64
        · by_cases hlow : (t.fd j).offset.toNat < initialMem
          · simp [hoff, hlow]
          · simp [hoff, hlow]
        · by_cases hlow : (t.fd j).offset.toNat < initialMem
          · simp [hoff, hlow]
            omega
          · simp [hoff, hlow]

theorem execve_read_iff (h : Sound t) (hs : t.Short) (hc : sysExecve t = .ok child) (hi : i.val ≤ t.fdCnt) :
    outcome (sysRead line mem child i size) = outcome (sysRead line mem t i size) ↔
      size = 0 ∨ t.dupArr i ≠ i ∨ i.val ≤ 2 ∨ (t.fd i).CopyReads := by
  rcases Nat.eq_zero_or_pos size with rfl | hsize
  · simp only [read_nothing, true_or]
  · have hne : size ≠ 0 := by omega
    have hdup' : child.dupArr i = t.dupArr i := by rw [(copyFds_shape hc).2.2]
    simp only [hne, false_or]
    by_cases hdup : t.dupArr i = i
    · by_cases hstd : i.val ≤ 2
      · simp only [read_standard hc hdup hdup hstd, hstd, true_or, or_true]
      · rw [read_copied_iff hs hc hi hsize hdup hdup (by omega)]
        simp only [hdup, hstd, false_or, ne_eq, not_true]
    · obtain ⟨j, hj⟩ : ∃ j : Fin 25, j.val = t.dupArr i := ⟨⟨t.dupArr i, h.dup_lt i⟩, rfl⟩
      have hjle : j.val ≤ t.fdCnt := by
        rw [hj]
        exact h.redirected i hi
      rw [read_redirected hsize hdup hj, read_redirected hsize (by rw [hdup']; exact hdup) (by rw [hdup']; exact hj),
        (copyFds_slot hs hc hjle).1]
      simp only [hdup, ne_eq, not_false_eq_true, true_or]

theorem fork_write_iff (h : Sound t) (hc : sysFork t = .ok child) (printk : List Byte → Int) :
    outcome (sysWrite printk mem child i data) = outcome (sysWrite printk mem t i data) ↔ t.dupArr i = i := by
  have hself : child.dupArr i = i := by rw [(copyFds_shape hc).2.2]
  rw [write_plain printk hself]
  by_cases hdup : t.dupArr i = i
  · rw [write_plain printk hdup]
    simp only [hdup]
  · obtain ⟨j, hj⟩ : ∃ j : Fin 25, j.val = t.dupArr i := ⟨⟨t.dupArr i, h.dup_lt i⟩, rfl⟩
    rw [write_redirected printk hdup hj]
    simp only [hdup, iff_false]
    split
    · split
      · simp
      · simp
    · split
      · simp
      · simp

theorem execve_write (h : Sound t) (hs : t.Short) (hc : sysExecve t = .ok child) (hi : i.val ≤ t.fdCnt) (printk : List Byte → Int) :
    outcome (sysWrite printk mem child i data) = outcome (sysWrite printk mem t i data) := by
  have hdup' : child.dupArr i = t.dupArr i := by rw [(copyFds_shape hc).2.2]
  by_cases hdup : t.dupArr i = i
  · rw [write_plain printk hdup, write_plain printk (hdup'.trans hdup)]
  · obtain ⟨j, hj⟩ : ∃ j : Fin 25, j.val = t.dupArr i := ⟨⟨t.dupArr i, h.dup_lt i⟩, rfl⟩
    have hjle : j.val ≤ t.fdCnt := by
      rw [hj]
      exact h.redirected i hi
    rw [write_redirected printk hdup hj, write_redirected printk (by rw [hdup']; exact hdup) (by rw [hdup']; exact hj),
      (copyFds_slot hs hc hjle).1]

end

/-- What a child and a replacing task inherit, in every state a process can come to and
for every descriptor handed out: exactly when their first transfer is the one the
process itself would have made. -/
theorem inherits_iff (index : List Entry) (calls : List Call) (p : Proc) (hp : run step (start index) calls = some p)
    (i : Fin 25) (hi : i.val ≤ p.task.fdCnt) :
    ∃ child replacing, sysFork p.task = .ok child ∧ sysExecve p.task = .ok replacing ∧
      ∀ printk line mem data size,
        (outcome (sysRead line mem child i size) = outcome (sysRead line mem p.task i size) ↔
          size = 0 ∨ p.task.ForkReads i) ∧
        (outcome (sysWrite printk mem child i data) = outcome (sysWrite printk mem p.task i data) ↔
          p.task.dupArr i = i) ∧
        (outcome (sysRead line mem replacing i size) = outcome (sysRead line mem p.task i size) ↔
          size = 0 ∨ p.task.dupArr i ≠ i ∨ i.val ≤ 2 ∨ (p.task.fd i).CopyReads) ∧
        outcome (sysWrite printk mem replacing i data) = outcome (sysWrite printk mem p.task i data) := by
  obtain ⟨hsound, hshort⟩ := run_sound hp
  have hcopy : ∀ dupArr, ∃ c, copyFds p.task dupArr = .ok c := by
    intro dupArr
    rw [copyFds, if_pos hsound.high]
    exact ⟨_, rfl⟩
  obtain ⟨child, hchild⟩ := hcopy fun i => i
  obtain ⟨replacing, hreplacing⟩ := hcopy p.task.dupArr
  refine ⟨child, replacing, hchild, hreplacing, fun printk line mem data size => ⟨?_, ?_, ?_, ?_⟩⟩
  · exact fork_read_iff hsound hshort hchild hi
  · exact fork_write_iff hsound hchild printk
  · exact execve_read_iff hsound hshort hreplacing hi
  · exact execve_write hsound hshort hreplacing hi printk

/-- A child does not read an open file like its parent. -/
theorem inherits_iff_opened :
    ∃ p child, run step (start oneFile) [.sysOpen [0x61] 0] = some p ∧ sysFork p.task = .ok child ∧
      ∀ line mem, outcome (sysRead line mem child 3 5) ≠ outcome (sysRead line mem p.task 3 5) := by
  obtain ⟨child, _, hchild, _, hiff⟩ := inherits_iff oneFile [.sysOpen [0x61] 0] _ rfl 3 (by decide)
  refine ⟨_, child, rfl, hchild, fun line mem hsame => ?_⟩
  have hreads := (hiff (fun _ => 0) line mem [] 5).1.mp hsame
  revert hreads
  unfold Task.ForkReads File.CopyReads
  decide

/-- The parent gets the five bytes of the file, the child is killed. -/
theorem fork_loses_position :
    ∃ p child, run step (start oneFile) [.sysOpen [0x61] 0] = some p ∧ sysFork p.task = .ok child ∧
      outcome (sysRead [] (fun _ => 7) p.task 3 5) = .ok (5, [7, 7, 7, 7, 7, 0], none) ∧
      outcome (sysRead [] (fun _ => 7) child 3 5) = .error .killed :=
  ⟨_, _, rfl, rfl, by decide, by decide⟩

end Sbnix.Files
