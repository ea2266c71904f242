import Sbnix.Console.Print

/-! `sys_write` (`sys/iostream.c`, lines 7 to 29), on the bytes of memory.

A write to the console copies the caller's bytes and hands the copy to `printk` as its
format. A percent sign in it is not printed: together with the character behind it, it is
taken for a conversion. `console_verbatim_iff` says that this is the only thing that goes
wrong, apart from sizes that are no `int`. -/
namespace Sbnix.Console
open Library Library.Store Files

structure Written where
  ret : Int
  /-- What has been given to `c_printf`. -/
  out : List Byte
  /-- The number of variadic arguments that have been read. -/
  args : Nat
  /-- The addresses of the copy that have been read. -/
  reads : List Nat
  mem : Store

/-- `temBuf` is where the copy lies on the stack. -/
def sysWrite (m : Store) (f : Frame) (process : Task) (temBuf fildes buf size fuel : Nat) :
    Except Fault (Option Written) := do
  let i ← slotOf fildes
  if process.dupArr i ≠ fildes then
    let j ← slotOf (process.dupArr i)
    let pipeTempBuf ← deref (process.fd j).offset
    let len := strlen m pipeTempBuf
    .ok (some ⟨size, [], 0, [], copyFrom (pipeTempBuf + len) buf 0 size m⟩)
  else if fildes = 1 ∨ fildes = 2 then
    let m := strncpy m temBuf buf (BitVec.ofNat 32 size).toInt
    let m := put m (temBuf + size) [0]
    .ok ((printk m f temBuf fuel).map fun p => ⟨(BitVec.ofNat 32 p.printed).toInt, p.out, p.args, p.reads, m⟩)
  else .ok (some ⟨0, [], 0, [], m⟩)

/-- The call prints the bytes as they are, takes no argument, stays inside of its copy, and returns
the size. -/
def Verbatim (m : Store) (f : Frame) (process : Task) (temBuf fildes buf n : Nat) : Prop :=
  ∃ fuel w, sysWrite m f process temBuf fildes buf n fuel = .ok (some w) ∧ w.out = fetch m buf n ∧ w.args = 0 ∧
    (∀ a ∈ w.reads, a ≤ temBuf + n) ∧ w.ret = n

/-- The descriptor is one of the two on the console, and is not redirected. -/
structure OnConsole (process : Task) (fildes : Nat) : Prop where
  output : fildes = 1 ∨ fildes = 2
  plain : ∀ i : Fin 25, i.val = fildes → process.dupArr i = fildes

/-! ### Formats -/

section
variable {m : Store} {f : Frame} {a fuel : Nat} {p q w : Printed} {bs : List Byte}

/-- A format without percent signs is printed as it is. -/
theorem printkLoop_plain (h : Spells m a bs) (hplain : (0x25 : Byte) ∉ bs) (hfuel : bs.length < fuel) :
    printkLoop m f fuel a p = some {p with
      out := p.out ++ bs
      reads := p.reads ++ List.range' a (bs.length + 1)
      printed := p.printed + bs.length } := by
  induction bs generalizing a fuel p with
  | nil =>
    obtain ⟨fuel, rfl⟩ := Nat.exists_eq_succ_of_ne_zero (by omega : fuel ≠ 0)
    simp [printkLoop, spells_nil h]
  | cons b rest ih =>
    obtain ⟨fuel, rfl⟩ := Nat.exists_eq_succ_of_ne_zero (by omega : fuel ≠ 0)
    obtain ⟨hb, hnz, hspell⟩ := spells_cons h
    have hnp : b ≠ 0x25 := fun hc => hplain (hc ▸ List.mem_cons_self ..)
    rw [printkLoop]
    dsimp only
    rw [hb, if_neg hnz, if_neg hnp, ih hspell (fun hc => hplain (List.mem_cons_of_mem _ hc)) (Nat.lt_of_succ_lt_succ hfuel)]
    simp only [List.length_cons, List.range'_succ, List.append_assoc, List.singleton_append, Option.some.injEq,
      Printed.mk.injEq, true_and]
    omega

/-- A conversion reads nothing of the format and is not counted yet. -/
theorem convert_keeps {c : Byte} (h : convert m f c p = some q) : q.reads = p.reads ∧ q.printed = p.printed := by
  unfold convert at h
  dsimp only at h
  split_ifs at h
  all_goals first
    | (obtain rfl := Option.some.inj h; exact ⟨rfl, rfl⟩)
    | (obtain ⟨s, _, rfl⟩ := Option.map_eq_some_iff.mp h; exact ⟨rfl, rfl⟩)

/-- The loop reads the character it stands at, and forgets no read. -/
theorem printkLoop_reads (h : printkLoop m f fuel a p = some w) : a ∈ w.reads ∧ ∀ x ∈ p.reads, x ∈ w.reads := by
  induction fuel generalizing a p with
  | zero => cases h
  | succ fuel ih =>
    rw [printkLoop] at h
    dsimp only at h
    split_ifs at h
    · obtain rfl := Option.some.inj h
      exact ⟨by simp, fun x hx => by simp [hx]⟩
    · obtain ⟨q, hq, hrest⟩ := Option.bind_eq_some_iff.mp h
      have hreads := (convert_keeps hq).1
      obtain ⟨_, hold⟩ := ih hrest
      dsimp only at hold
      rw [hreads] at hold
      exact ⟨hold a (by simp), fun x hx => hold x (by simp [hx])⟩
    · obtain ⟨_, hold⟩ := ih h
      exact ⟨hold a (by simp), fun x hx => hold x (by simp [hx])⟩

/-- A loop that stays inside of the format counts at most one for each byte of it, and less if
there is a percent sign. -/
theorem printkLoop_counts (h : Spells m a bs) (hw : printkLoop m f fuel a p = some w)
    (hin : ∀ x ∈ w.reads, x ≤ a + bs.length) :
    w.printed ≤ p.printed + bs.length ∧ ((0x25 : Byte) ∈ bs → w.printed < p.printed + bs.length) := by
  induction fuel generalizing a p bs with
  | zero => cases hw
  | succ fuel ih =>
    rw [printkLoop] at hw
    dsimp only at hw
    cases bs with
    | nil =>
      rw [if_pos (spells_nil h)] at hw
      obtain rfl := Option.some.inj hw
      exact ⟨Nat.le_refl _, fun hc => absurd hc List.not_mem_nil⟩
    | cons b rest =>
      obtain ⟨hb, hnz, hspell⟩ := spells_cons h
      rw [hb, if_neg hnz] at hw
      rw [List.length_cons] at hin ⊢
      by_cases hpercent : b = 0x25
      · rw [if_pos hpercent] at hw
        obtain ⟨q, hq, hloop⟩ := Option.bind_eq_some_iff.mp hw
        have hcount := (convert_keeps hq).2
        cases rest with
        | nil =>
          -- the loop goes on behind the zero
          have hpast := hin _ (printkLoop_reads hloop).1
          simp only [List.length_nil] at hpast
          omega
        | cons c rest =>
          have hnext : Spells m (a + 2) rest := (spells_cons hspell).2.2
          obtain ⟨hle, _⟩ := ih hnext hloop (fun x hx => by have := hin x hx; simp only [List.length_cons] at this; omega)
          dsimp only at hle hcount
          rw [List.length_cons]
          exact ⟨by omega, fun _ => by omega⟩
      · rw [if_neg hpercent] at hw
        obtain ⟨hle, hlt⟩ := ih hspell hw (fun x hx => by have := hin x hx; omega)
        dsimp only at hle hlt
        refine ⟨by omega, fun hc => ?_⟩
        have := hlt ((List.mem_cons.mp hc).resolve_left (Ne.symm hpercent))
        omega

end

/-! ### The console -/

section
variable {m : Store} {f : Frame} {process : Task} {temBuf fildes buf n : Nat}

theorem OnConsole.sysWrite_eq (h : OnConsole process fildes) (fuel : Nat) :
    sysWrite m f process temBuf fildes buf n fuel =
      .ok ((printk (put (strncpy m temBuf buf (BitVec.ofNat 32 n).toInt) (temBuf + n) [0]) f temBuf fuel).map fun p =>
        ⟨(BitVec.ofNat 32 p.printed).toInt, p.out, p.args, p.reads,
          put (strncpy m temBuf buf (BitVec.ofNat 32 n).toInt) (temBuf + n) [0]⟩) := by
  have hlt : fildes < 25 := by
    have := h.output
    omega
  have hslot : slotOf fildes = .ok ⟨fildes, hlt⟩ := slotOf_ok.mpr rfl
  have hdup := h.plain ⟨fildes, hlt⟩ rfl
  unfold sysWrite
  rw [hslot]
  show (if process.dupArr ⟨fildes, hlt⟩ ≠ fildes then _ else _) = _
  rw [if_neg (by simpa using hdup), if_pos h.output]

/-- The copy is the caller's bytes, as a string. -/
theorem copy_spells (m : Store) (temBuf buf n : Nat) (hsize : n < 2 ^ 31) (hbuf : (0 : Byte) ∉ fetch m buf n)
    (hapart : temBuf + n ≤ buf ∨ buf + n ≤ temBuf) :
    Spells (put (strncpy m temBuf buf (BitVec.ofNat 32 n).toInt) (temBuf + n) [0]) temBuf (fetch m buf n) := by
  have hlen : (fetch m buf n).length = n := length_fetch m buf n
  have hholds : Holds m buf (fetch m buf n) := by
    rw [Holds, hlen]
  have hcopy : strncpy m temBuf buf (fetch m buf n).length = put m temBuf (fetch m buf n ++ [0]) :=
    strncpy_holds hholds hbuf (by rw [hlen]; exact hsize) (by rw [hlen]; exact hapart)
  rw [hlen] at hcopy
  have hall : Holds (put m temBuf (fetch m buf n ++ [0])) temBuf (fetch m buf n ++ [0]) := put_holds m _ _
  have hend := (holds_append.mp hall).2
  rw [hlen] at hend
  rw [toInt_small hsize, hcopy, put_same hend]
  exact ⟨hall, hbuf⟩

/-- The console prints the caller's bytes as they are just when there is no percent sign among
them and their number is an `int`. -/
theorem console_verbatim_iff (m : Store) (f : Frame) (process : Task) (temBuf fildes buf n : Nat)
    (h : OnConsole process fildes) (hbuf : (0 : Byte) ∉ fetch m buf n)
    (hapart : temBuf + n ≤ buf ∨ buf + n ≤ temBuf) :
    Verbatim m f process temBuf fildes buf n ↔ n < 2 ^ 31 ∧ (0x25 : Byte) ∉ fetch m buf n := by
  have hlen : (fetch m buf n).length = n := length_fetch m buf n
  constructor
  · rintro ⟨fuel, w, hw, _, _, hreads, hret⟩
    rw [h.sysWrite_eq] at hw
    obtain ⟨p, hp, rfl⟩ := Option.map_eq_some_iff.mp (Except.ok.inj hw)
    dsimp only at hret hreads
    have hsize : n < 2 ^ 31 := by
      have := BitVec.toInt_lt (x := BitVec.ofNat 32 p.printed)
      rw [hret] at this
      omega
    refine ⟨hsize, fun hpercent => ?_⟩
    obtain ⟨_, hless⟩ := printkLoop_counts (copy_spells m temBuf buf n hsize hbuf hapart) hp (by rw [hlen]; exact hreads)
    have hcount := hless hpercent
    rw [hlen] at hcount
    have hprinted : p.printed < n := by
      simpa [Printed.none] using hcount
    rw [toInt_small (by omega)] at hret
    omega
  · rintro ⟨hsize, hplain⟩
    have hprint := printkLoop_plain (f := f) (p := .none) (copy_spells m temBuf buf n hsize hbuf hapart) hplain
      (Nat.lt_succ_self _)
    refine ⟨_, _, by rw [h.sysWrite_eq, printk, hprint, Option.map_some], ?_, rfl, fun a ha => ?_, ?_⟩
    · exact List.nil_append _
    · simp only [Printed.none, List.nil_append, List.mem_range'_1, hlen] at ha
      omega
    · simp only [Printed.none, hlen, Nat.zero_add]
      exact toInt_small hsize

end

/-! ### Small writes -/

/-- A task whose descriptors are not redirected. -/
theorem create_onConsole : OnConsole Task.create 1 := ⟨Or.inl rfl, fun _ hi => hi⟩

/-- The caller's bytes at 4096. -/
def writeStore (bytes : List Byte) : Store := put (fun _ => 0) 4096 bytes

theorem console_verbatim_hi : Verbatim (writeStore [0x68, 0x69]) (numberFrame 0) Task.create 65536 1 4096 2 :=
  (console_verbatim_iff _ _ _ _ _ _ _ create_onConsole (by decide) (Or.inr (by decide))).mpr ⟨by decide, by decide⟩

/-- A single percent sign: nothing is printed, and the byte behind the copy is read. -/
theorem percent_not_verbatim : OnConsole Task.create 1 ∧ (0 : Byte) ∉ fetch (writeStore [0x25]) 4096 1 ∧
    (printk (writeStore [0x25, 0, 0]) (numberFrame 0) 4096 2).map (fun p => (p.out, p.reads)) =
      some ([], [4096, 4097, 4098]) ∧
    ¬ Verbatim (writeStore [0x25]) (numberFrame 0) Task.create 65536 1 4096 1 := by
  refine ⟨create_onConsole, by decide, by decide +kernel, ?_⟩
  rintro ⟨fuel, w, hw, _, _, hreads, hret⟩
  rw [create_onConsole.sysWrite_eq] at hw
  obtain ⟨p, hp, rfl⟩ := Option.map_eq_some_iff.mp (Except.ok.inj hw)
  have hspell := copy_spells (writeStore [0x25]) 65536 4096 1 (by decide) (by decide) (Or.inr (by decide))
  have hcount := (printkLoop_counts hspell hp hreads).2 (by decide)
  have hprinted : p.printed < 1 := hcount
  obtain hzero : p.printed = 0 := by omega
  rw [hzero] at hret
  cases hret

end Sbnix.Console
