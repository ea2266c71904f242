import Sbnix.Files.Inherit

/-! The counts of open descriptors in the index (`ref_cnt`).

`sys_open` counts up and `sys_close` down. `sys_fork` copies the slots of the parent
and `sys_exit` drops those of the caller, and neither looks at the counts. So they are
right along a run exactly if no process forks or exits with a file open and no name that is
opened runs over the `offset` of its slot (`open_counts_iff`). An entry of the table that `tarfs_initialize` did not fill has the
address zero, as has a slot that is closed: the counts of such entries mean nothing. -/
namespace Sbnix.Files
open Library Library.Store

/-- The index and the descriptors of the processes, by number; `none` has exited. -/
structure System where
  index : List Entry
  tasks : List (Option Task)

inductive SystemCall where
  | sysOpen (k : Nat) (fileName : List Byte) (flags : Int)
  | sysClose (k : Nat) (filedes : Int)
  | sysFork (k : Nat)
  | sysExit (k : Nat)
  deriving DecidableEq, Repr

/-- The process with a number, if it lives. -/
def System.live (s : System) (k : Nat) : Option Task := (s.tasks[k]?).join

/-- The process with a number goes on as another task, or not at all. -/
def System.setTask (s : System) (k : Nat) (t : Option Task) : System := {s with tasks := s.tasks.set k t}

def SystemCall.step (s : System) : SystemCall → Option System
  | sysOpen k fileName flags => (s.live k).bind fun t =>
    (Files.sysOpen s.index t fileName flags).toOption.map fun o => {s.setTask k (some o.task) with index := o.index}
  | sysClose k filedes => (s.live k).bind fun t =>
    (Files.sysClose s.index t filedes).toOption.map fun o => {s.setTask k (some o.task) with index := o.index}
  | sysFork k => (s.live k).bind fun t =>
    (Files.sysFork t).toOption.map fun child => {s with tasks := s.tasks ++ [some child]}
  | sysExit k => (s.live k).map fun _ => s.setTask k none

/-- Processes that have not opened anything. -/
def boot (index : List Entry) (n : Nat) : System := ⟨index, List.replicate n (some Task.create)⟩

/-- The number of slots with an address. -/
def Task.slots (a : BitVec 64) (t : Task) : Nat := ∑ i : Fin 25, if (t.fd i).offset = a then 1 else 0

/-- The number of slots with an address of all processes that live. -/
def System.slots (a : BitVec 64) (s : System) : Nat := (s.tasks.map fun o => o.elim 0 (Task.slots a)).sum

/-- The counts of the entries that have been filled are right. -/
def System.Exact (s : System) : Prop := ∀ e ∈ s.index, e.addr ≠ 0 → e.refCnt = s.slots e.addr

/-- The process has a slot on an entry. -/
def Task.Holds (index : List Entry) (t : Task) : Prop := ∃ e ∈ index, e.addr ≠ 0 ∧ t.slots e.addr ≠ 0

/-- What runs over `offset` of the name and its zero is what is there anyway. -/
def Entry.Keeps (e : Entry) : Prop := ((e.name ++ [0]).drop 32).take 8 <+: toLE 8 e.addr.toNat

instance (e : Entry) : Decidable e.Keeps := inferInstanceAs (Decidable (_ <+: _))

/-- A process that forks or exits holds no file, and one that gets a descriptor keeps its `offset`. -/
def SystemCall.Balanced (s : System) : SystemCall → Prop
  | sysOpen k fileName _ => ∀ t ∈ s.live k, t.fdCnt < 24 → ∀ e ∈ s.index.find? (·.opens fileName), e.Keeps
  | sysFork k => ∀ t ∈ s.live k, ¬ t.Holds s.index
  | sysExit k => ∀ t ∈ s.live k, ¬ t.Holds s.index
  | sysClose .. => True

instance (s : System) : Decidable s.Exact := inferInstanceAs (Decidable (∀ e ∈ s.index, _ → _))

instance (index : List Entry) (t : Task) : Decidable (t.Holds index) := inferInstanceAs (Decidable (∃ e ∈ index, _ ∧ _))

instance (s : System) : (c : SystemCall) → Decidable (c.Balanced s)
  | .sysFork k => inferInstanceAs (Decidable (∀ t ∈ s.live k, ¬ t.Holds s.index))
  | .sysExit k => inferInstanceAs (Decidable (∀ t ∈ s.live k, ¬ t.Holds s.index))
  | .sysOpen k fileName _ => inferInstanceAs (Decidable (∀ t ∈ s.live k, t.fdCnt < 24 →
      ∀ e ∈ s.index.find? (·.opens fileName), e.Keeps))
  | .sysClose .. => .isTrue trivial

/-- The entries that are filled lie at different addresses. -/
def Distinct (addrs : List (BitVec 64)) : Prop := addrs.Pairwise fun a b => a ≠ 0 → a ≠ b

/-- What `tarfs_initialize` leaves: names have room in their field of 100 bytes, and an entry that is
not filled has none. -/
structure Fresh (index : List Entry) : Prop where
  distinct : Distinct (index.map Entry.addr)
  unused : ∀ e ∈ index, e.addr ≠ 0 → e.refCnt = 0
  named : ∀ e ∈ index, e.name.length < 100
  unnamed : ∀ e ∈ index, e.addr = 0 → e.name = []

/-! ### Counting slots -/

section
variable {a : BitVec 64} {t : Task} {i : Fin 25} {f : File}

theorem slots_setFd : (t.setFd i f).slots a + (if (t.fd i).offset = a then 1 else 0) =
    t.slots a + (if f.offset = a then 1 else 0) := by
  have hsplit := Fintype.sum_eq_add_sum_compl i fun j => if (t.fd j).offset = a then 1 else 0
  have hsplit' := Fintype.sum_eq_add_sum_compl i fun j => if ((t.setFd i f).fd j).offset = a then 1 else 0
  have hothers : ∑ j ∈ {i}ᶜ, (if ((t.setFd i f).fd j).offset = a then 1 else 0) =
      ∑ j ∈ {i}ᶜ, if (t.fd j).offset = a then 1 else 0 := by
    apply Finset.sum_congr rfl
    intro j hj
    have hne : j ≠ i := by simpa using hj
    rw [t.setFd_other f hne]
  rw [t.setFd_same, hothers] at hsplit'
  rw [Task.slots, Task.slots, hsplit, hsplit']
  omega

theorem slots_create (ha : a ≠ 0) : Task.create.slots a = 0 := by
  apply Finset.sum_eq_zero
  intro i _
  exact if_neg fun h => ha h.symm

/-- A child has the slots of its parent. -/
theorem slots_fork {child : Task} (h : Intact t) (hc : sysFork t = .ok child) : child.slots a = t.slots a := by
  obtain ⟨hchild, hoffset⟩ := copyFds_intact h (fun _ _ => rfl) hc
  have hcnt := (copyFds_shape hc).2.1
  apply Finset.sum_congr rfl
  intro i _
  by_cases hi : i.val ≤ t.fdCnt
  · rw [hoffset i hi]
  · rw [(h.unused i (by omega)).1.offset, (hchild.unused i (by omega)).1.offset]

/-- A slot that is filled is the only one whose `offset` changes. -/
theorem slots_fill {e : Entry} (hname : e.name.length < 100) (flags : Int) :
    (t.fill i e flags).slots a + (if (t.fd i).offset = a then 1 else 0) =
      t.slots a + (if (e.filled (t.fd i) flags).offset = a then 1 else 0) := by
  have hsame : (t.fill i e flags).slots a = (t.setFd i (e.filled (t.fd i) flags)).slots a := by
    apply Finset.sum_congr rfl
    intro j _
    by_cases he : j = i
    · rw [he, Task.fill_same, t.setFd_same]
    · rw [fill_next hname flags he, t.setFd_other _ he]
  rw [hsame]
  exact slots_setFd

theorem overwrite_iff {n v : Nat} {bytes : List Byte} (hv : v < 256 ^ n) :
    overwrite n bytes v = v ↔ bytes.take n <+: toLE n v := by
  constructor
  · intro h
    cases bytes with
    | nil =>
      rw [List.take_nil]
      exact List.nil_prefix
    | cons b bytes =>
      have hlen : ((b :: bytes).take n ++ (toLE n v).drop (bytes.length + 1)).length = n := by
        rw [List.length_append, List.length_take, List.length_drop, length_toLE, List.length_cons]
        omega
      have hback := toLE_ofLE ((b :: bytes).take n ++ (toLE n v).drop (bytes.length + 1))
      rw [hlen] at hback
      exact ⟨_, hback.symm.trans (congrArg (toLE n) h)⟩
  · intro h
    have hprefix : bytes <+: toLE n v ++ bytes.drop n := by
      by_cases hle : bytes.length ≤ n
      · rw [List.take_of_length_le hle] at h
        exact h.trans (List.prefix_append ..)
      · have hall : bytes.take n = toLE n v := h.eq_of_length (by rw [List.length_take, length_toLE]; omega)
        rw [← hall, List.take_append_drop]
    exact overwrite_same hprefix hv

theorem filled_offset_iff {e : Entry} (flags : Int) : (e.filled f flags).offset = e.addr ↔ e.Keeps := by
  have hv : overwrite 8 ((e.name ++ [0]).drop 32) e.addr.toNat < 2 ^ 64 := by
    generalize (e.name ++ [0]).drop 32 = bytes
    cases bytes with
    | nil => exact e.addr.isLt
    | cons b bytes =>
      have hlt : ∀ l : List Byte, ofLE l < 256 ^ l.length := fun l => by
        have hback := ofLE_toLE l.length (ofLE l)
        rw [toLE_ofLE] at hback
        rw [hback]
        exact Nat.mod_lt _ (by positivity)
      refine lt_of_lt_of_le (hlt _) ?_
      rw [List.length_append, List.length_take, List.length_drop, length_toLE, List.length_cons]
      exact Nat.pow_le_pow_right (by decide) (by omega : _ ≤ 8)
  rw [Entry.Keeps, ← overwrite_iff e.addr.isLt]
  show BitVec.ofNat 64 (overwrite 8 ((e.name ++ [0]).drop 32) e.addr.toNat) = e.addr ↔ _
  rw [← BitVec.toNat_inj, BitVec.toNat_ofNat, Nat.mod_eq_of_lt hv]

end

section
variable {s : System} {k : Nat} {a : BitVec 64} {t : Task}

theorem sum_set {l : List Nat} {k x y : Nat} (h : l[k]? = some x) : (l.set k y).sum + x = l.sum + y := by
  induction l generalizing k with
  | nil => cases h
  | cons z rest ih =>
    cases k with
    | zero =>
      obtain rfl := Option.some.inj h
      simp only [List.set_cons_zero, List.sum_cons]
      omega
    | succ k =>
      have := ih h
      simp only [List.set_cons_succ, List.sum_cons]
      omega

theorem live_get (h : s.live k = some t) : s.tasks[k]? = some (some t) := Option.join_eq_some_iff.mp h

theorem slots_setTask (h : s.live k = some t) (o : Option Task) :
    (s.setTask k o).slots a + t.slots a = s.slots a + o.elim 0 (Task.slots a) := by
  have hget : (s.tasks.map fun o => o.elim 0 (Task.slots a))[k]? = some (t.slots a) := by
    rw [List.getElem?_map, live_get h]
    rfl
  rw [System.slots, System.setTask, List.map_set]
  exact sum_set hget

theorem slots_append (child : Task) :
    System.slots a {s with tasks := s.tasks ++ [some child]} = s.slots a + child.slots a := by
  simp [System.slots]

theorem slots_boot (index : List Entry) (n : Nat) (ha : a ≠ 0) : (boot index n).slots a = 0 := by
  have hone : (some Task.create).elim 0 (Task.slots a) = 0 := slots_create ha
  rw [System.slots, boot, List.map_replicate, hone, List.sum_replicate, smul_zero]

end

/-! ### Counts in the index -/

theorem toOption_ok {ε α : Type} {x : Except ε α} {a : α} (h : x.toOption = some a) : x = .ok a := by
  cases x with
  | error e => cases h
  | ok b => rw [Option.some.inj h]

theorem fork_ok {t : Task} (h : Intact t) : ∃ child, sysFork t = .ok child := by
  rw [sysFork, copyFds, if_pos h.high]
  exact ⟨_, rfl⟩

theorem mem_modifyFirst {α : Type*} {p : α → Bool} (f : α → α) {l : List α} {x : α} (h : l.find? p = some x) :
    f x ∈ modifyFirst p f l := by
  induction l with
  | nil => cases h
  | cons y rest ih =>
    by_cases hp : p y = true
    · rw [List.find?_cons_of_pos hp] at h
      rw [modifyFirst, if_pos hp, Option.some.inj h]
      exact List.mem_cons_self ..
    · rw [List.find?_cons_of_neg hp] at h
      rw [modifyFirst, if_neg hp]
      exact List.mem_cons_of_mem y (ih h)

/-- The first entry that is found changes its count, and the addresses of the others are
different. -/
theorem counts_modifyFirst (count count' : BitVec 64 → Int) {p : Entry → Bool} {f : Entry → Entry} {index : List Entry}
    {e : Entry} (hfind : index.find? p = some e) (hdistinct : Distinct (index.map Entry.addr))
    (hcount : ∀ x ∈ index, x.addr ≠ 0 → x.refCnt = count x.addr) (haddr : ∀ x, (f x).addr = x.addr)
    (hfound : e.addr ≠ 0 → (f e).refCnt = count' e.addr) (hother : ∀ a, a ≠ 0 → a ≠ e.addr → count' a = count a) :
    ∀ x ∈ modifyFirst p f index, x.addr ≠ 0 → x.refCnt = count' x.addr := by
  induction index with
  | nil => cases hfind
  | cons y rest ih =>
    obtain ⟨hy, hrest⟩ := List.pairwise_cons.mp hdistinct
    have hdiffer : ∀ x ∈ rest, x.addr ≠ 0 → y.addr ≠ x.addr := by
      intro x hx hne hsame
      exact hy x.addr (List.mem_map_of_mem hx) (hsame ▸ hne) hsame
    by_cases hp : p y = true
    · rw [List.find?_cons_of_pos hp] at hfind
      obtain rfl := Option.some.inj hfind
      rw [modifyFirst, if_pos hp]
      intro x hx hne
      obtain rfl | hx := List.mem_cons.mp hx
      · rw [haddr] at hne ⊢
        exact hfound hne
      · rw [hother x.addr hne (hdiffer x hx hne).symm]
        exact hcount x (List.mem_cons_of_mem y hx) hne
    · rw [List.find?_cons_of_neg hp] at hfind
      rw [modifyFirst, if_neg hp]
      intro x hx hne
      obtain rfl | hx := List.mem_cons.mp hx
      · have hsame : x.addr ≠ e.addr := fun h => hdiffer e (List.mem_of_find?_eq_some hfind) (h ▸ hne) h
        rw [hother x.addr hne hsame]
        exact hcount x List.mem_cons_self hne
      · exact ih hfind hrest (fun z hz => hcount z (List.mem_cons_of_mem y hz)) x hx hne

/-- What of an entry no call changes. -/
def Entry.key (e : Entry) : BitVec 64 × List Byte := (e.addr, e.name)

/-- What every call keeps. -/
structure System.WellFormed (s : System) : Prop where
  distinct : Distinct (s.index.map Entry.addr)
  named : ∀ e ∈ s.index, e.name.length < 100
  unnamed : ∀ e ∈ s.index, e.addr = 0 → e.name = []
  intact : ∀ t, some t ∈ s.tasks → Intact t

section
variable {s s' : System} {k : Nat} {t : Task}

theorem System.WellFormed.live (h : s.WellFormed) (hk : s.live k = some t) : Intact t :=
  h.intact t (List.mem_of_getElem? (live_get hk))

theorem System.WellFormed.setTask (h : s.WellFormed) {index : List Entry} {o : Option Task}
    (hindex : index.map Entry.key = s.index.map Entry.key) (ho : ∀ t, o = some t → Intact t) :
    System.WellFormed {s.setTask k o with index := index} := by
  have hkey : ∀ e ∈ index, ∃ e' ∈ s.index, e'.addr = e.addr ∧ e'.name = e.name := by
    intro e he
    obtain ⟨e', he', hsame⟩ := List.mem_map.mp (hindex ▸ List.mem_map_of_mem he : e.key ∈ s.index.map Entry.key)
    exact ⟨e', he', congrArg Prod.fst hsame, congrArg Prod.snd hsame⟩
  refine ⟨?_, fun e he => ?_, fun e he hzero => ?_, fun t ht => ?_⟩
  · have haddr := congrArg (List.map Prod.fst) hindex
    rw [List.map_map, List.map_map] at haddr
    show Distinct (index.map (Prod.fst ∘ Entry.key))
    rw [haddr]
    exact h.distinct
  · obtain ⟨e', he', _, hname⟩ := hkey e he
    rw [← hname]
    exact h.named e' he'
  · obtain ⟨e', he', haddr, hname⟩ := hkey e he
    rw [← hname]
    exact h.unnamed e' he' (haddr.trans hzero)
  · obtain hold | hnew := List.mem_or_eq_of_mem_set ht
    · exact h.intact t hold
    · exact ho t hnew.symm

/-- A process that goes on as it was. -/
theorem same_exact (h : s.WellFormed) (he : s.Exact) (hk : s.live k = some t) :
    System.WellFormed {s.setTask k (some t) with index := s.index} ∧
      System.Exact {s.setTask k (some t) with index := s.index} := by
  refine ⟨h.setTask rfl fun t' ht' => Option.some.inj ht' ▸ h.live hk, fun e hmem hne => ?_⟩
  have hslots : (s.setTask k (some t)).slots e.addr + t.slots e.addr = s.slots e.addr + t.slots e.addr :=
    slots_setTask hk (some t)
  rw [he e hmem hne]
  show (s.slots e.addr : Int) = (s.setTask k (some t)).slots e.addr
  omega

/-- The count of one entry changes as the slots of one process do. -/
theorem recount_exact (h : s.WellFormed) (he : s.Exact) (hk : s.live k = some t) {p : Entry → Bool} {f : Entry → Entry}
    {e : Entry} {t' : Task} (hfind : s.index.find? p = some e) (hkey : ∀ x, (f x).key = x.key) (ht' : Intact t')
    (hother : ∀ a, a ≠ 0 → a ≠ e.addr → t'.slots a = t.slots a)
    (hfound : e.addr ≠ 0 → (f e).refCnt + t.slots e.addr = e.refCnt + t'.slots e.addr) :
    System.WellFormed {s.setTask k (some t') with index := modifyFirst p f s.index} ∧
      System.Exact {s.setTask k (some t') with index := modifyFirst p f s.index} := by
  have hslots : ∀ a, (s.setTask k (some t')).slots a + t.slots a = s.slots a + t'.slots a :=
    fun a => slots_setTask hk (some t')
  refine ⟨h.setTask (map_modifyFirst hkey s.index) fun u hu => Option.some.inj hu ▸ ht', ?_⟩
  refine counts_modifyFirst (fun a => s.slots a) (fun a => (s.setTask k (some t')).slots a) hfind h.distinct he
    (fun x => congrArg Prod.fst (hkey x)) ?_ ?_
  · intro hne
    have hold := he e (List.mem_of_find?_eq_some hfind) hne
    have hnew := hfound hne
    have hsum := hslots e.addr
    show (f e).refCnt = (s.setTask k (some t')).slots e.addr
    omega
  · intro a hne hdiffer
    have hsame := hother a hne hdiffer
    have hsum := hslots a
    show ((s.setTask k (some t')).slots a : Int) = s.slots a
    omega

/-- `sys_open` counts up the entry whose address the new slot gets, if its name leaves that there. -/
theorem open_exact_iff (h : s.WellFormed) (he : s.Exact) (hk : s.live k = some t) {fileName : List Byte} {flags : Int}
    {o : Opened} (ho : sysOpen s.index t fileName flags = .ok o) :
    System.Exact {s.setTask k (some o.task) with index := o.index} ↔
      ∀ e ∈ s.index.find? (·.opens fileName), e.Keeps := by
  obtain ⟨hnone, rfl⟩ | ⟨e, i, hfind, hi, rfl⟩ := sysOpen_cases ho
  · rw [hnone]
    exact iff_of_true (same_exact h he hk).2 fun e he => nomatch he
  · have hmem := List.mem_of_find?_eq_some hfind
    -- the slot was not in use
    have hunused : (t.fd i).offset = 0 := ((h.live hk).unused i (by omega)).1.offset
    have hslots : ∀ a, Task.slots a {t.fill i e flags with fdCnt := t.fdCnt + 1} +
        (if (t.fd i).offset = a then 1 else 0) = t.slots a + (if (e.filled (t.fd i) flags).offset = a then 1 else 0) :=
      fun a => slots_fill (h.named e hmem) flags
    have hintact := sysOpen_intact (h.live hk) h.named ho
    dsimp only at hintact ⊢
    generalize ({t.fill i e flags with fdCnt := t.fdCnt + 1} : Task) = t' at hslots hintact ⊢
    constructor
    · intro hexact e' he'
      obtain rfl : e = e' := Option.some.inj (hfind.symm.trans he')
      by_cases hzero : e.addr = 0
      · rw [Entry.Keeps, h.unnamed e hmem hzero]
        exact List.nil_prefix
      · by_contra hkeeps
        have hnew : e.refCnt + 1 = (s.setTask k (some t')).slots e.addr :=
          hexact e.retain (mem_modifyFirst Entry.retain hfind) hzero
        have hsum : (s.setTask k (some t')).slots e.addr + t.slots e.addr = s.slots e.addr + t'.slots e.addr :=
          slots_setTask hk _
        have hslot := hslots e.addr
        rw [hunused, if_neg (Ne.symm hzero), if_neg (mt (filled_offset_iff flags).mp hkeeps)] at hslot
        have hold := he e hmem hzero
        omega
    · intro hkeeps
      have hoffset := (filled_offset_iff (f := t.fd i) flags).mpr (hkeeps e hfind)
      refine (recount_exact h he hk (f := Entry.retain) hfind (fun _ => rfl) hintact ?_ ?_).2
      · intro a hne hdiffer
        have hsum := hslots a
        rw [hunused, hoffset, if_neg (Ne.symm hne), if_neg (Ne.symm hdiffer)] at hsum
        omega
      · intro hne
        have hsum := hslots e.addr
        rw [hunused, hoffset, if_neg (Ne.symm hne), if_pos rfl] at hsum
        show e.refCnt + 1 + (t.slots e.addr : Int) = _
        omega

/-- `sys_close` counts down the entry whose address the slot had. -/
theorem close_exact (h : s.WellFormed) (he : s.Exact) (hk : s.live k = some t) {filedes : Int}
    {o : Opened} (ho : sysClose s.index t filedes = .ok o) :
    System.WellFormed {s.setTask k (some o.task) with index := o.index} ∧
      System.Exact {s.setTask k (some o.task) with index := o.index} := by
  have hintact := sysClose_intact (h.live hk) ho
  obtain ⟨i, _, ⟨_, rfl⟩ | ⟨e, hfind, rfl⟩⟩ := sysClose_cases ho
  · exact same_exact h he hk
  · have hstarts : e.startsAt (t.fd i).offset = true := List.find?_some hfind
    have haddr : e.addr = (t.fd i).offset := eq_of_beq hstarts
    have hslots : ∀ a, (t.setFd i {t.fd i with offset := 0, path := [0x20], flags := 0}).slots a +
        (if (t.fd i).offset = a then 1 else 0) = t.slots a + (if 0 = a then 1 else 0) := fun a => slots_setFd
    refine recount_exact h he hk hfind (fun _ => rfl) hintact ?_ ?_
    · intro a hne hdiffer
      have hsum := hslots a
      rw [← haddr, if_neg (Ne.symm hne), if_neg (Ne.symm hdiffer)] at hsum
      dsimp only at hsum ⊢
      omega
    · intro hne
      have hsum := hslots e.addr
      rw [← haddr, if_neg (Ne.symm hne), if_pos rfl] at hsum
      show e.refCnt - 1 + (t.slots e.addr : Int) = _
      dsimp only at hsum ⊢
      omega

/-- After a fork the counts are right if the parent held nothing. -/
theorem fork_exact_iff (h : s.WellFormed) (he : s.Exact) (hk : s.live k = some t) {child : Task}
    (hc : sysFork t = .ok child) :
    System.Exact {s with tasks := s.tasks ++ [some child]} ↔ ¬ t.Holds s.index := by
  have hslots : ∀ a, System.slots a {s with tasks := s.tasks ++ [some child]} = s.slots a + t.slots a := by
    intro a
    rw [slots_append, slots_fork (h.live hk) hc]
  constructor
  · rintro hexact ⟨e, hmem, hne, hheld⟩
    have hnew : e.refCnt = System.slots e.addr {s with tasks := s.tasks ++ [some child]} := hexact e hmem hne
    have hold := he e hmem hne
    rw [hslots] at hnew
    omega
  · intro hfree e hmem hne
    have hnone : t.slots e.addr = 0 := by
      by_contra hheld
      exact hfree ⟨e, hmem, hne, hheld⟩
    rw [hslots, hnone]
    exact he e hmem hne

/-- After an exit they are right if the process held nothing. -/
theorem exit_exact_iff (he : s.Exact) (hk : s.live k = some t) :
    (s.setTask k none).Exact ↔ ¬ t.Holds s.index := by
  have hslots : ∀ a, (s.setTask k none).slots a + t.slots a = s.slots a + 0 := fun a => slots_setTask hk none
  constructor
  · rintro hexact ⟨e, hmem, hne, hheld⟩
    have hnew : e.refCnt = (s.setTask k none).slots e.addr := hexact e hmem hne
    have hold := he e hmem hne
    have hsum := hslots e.addr
    omega
  · intro hfree e hmem hne
    have hnone : t.slots e.addr = 0 := by
      by_contra hheld
      exact hfree ⟨e, hmem, hne, hheld⟩
    have hold := he e hmem hne
    have hsum := hslots e.addr
    omega

/-- A call leaves the counts right exactly if it is balanced. -/
theorem step_exact_iff (h : s.WellFormed) (he : s.Exact) (c : SystemCall) :
    (∀ s', c.step s = some s' → s'.Exact) ↔ c.Balanced s := by
  cases c with
  | sysOpen k fileName flags =>
    constructor
    · intro hexact t hk hroom e hfind
      have hslot : slotOf ((t.fdCnt : Int) + 1) = .ok ⟨t.fdCnt + 1, by omega⟩ := slotOf_ok.mpr rfl
      obtain ⟨o, ho⟩ : ∃ o, Files.sysOpen s.index t fileName flags = .ok o := by
        rw [Files.sysOpen, Option.mem_def.mp hfind]
        simp only [hslot]
        exact ⟨_, rfl⟩
      refine (open_exact_iff h he hk ho).mp (hexact _ ?_) e hfind
      rw [SystemCall.step, Option.mem_def.mp hk, Option.bind_some, ho]
      rfl
    · intro hbalanced s' hs'
      obtain ⟨t, hk, hs'⟩ := Option.bind_eq_some_iff.mp hs'
      obtain ⟨o, ho, rfl⟩ := Option.map_eq_some_iff.mp hs'
      have ho := toOption_ok ho
      refine (open_exact_iff h he hk ho).mpr fun e hfind => ?_
      obtain ⟨hnone, _⟩ | ⟨e', i, _, hi, _⟩ := sysOpen_cases ho
      · rw [hnone] at hfind
        cases hfind
      · exact hbalanced t hk (by omega) e hfind
  | sysClose k filedes =>
    refine ⟨fun _ => trivial, fun _ s' hs' => ?_⟩
    obtain ⟨t, hk, hs'⟩ := Option.bind_eq_some_iff.mp hs'
    obtain ⟨o, ho, rfl⟩ := Option.map_eq_some_iff.mp hs'
    exact (close_exact h he hk (toOption_ok ho)).2
  | sysFork k =>
    constructor
    · intro hexact t hk
      obtain ⟨child, hc⟩ := fork_ok (h.live hk)
      refine (fork_exact_iff h he hk hc).mp (hexact _ ?_)
      rw [SystemCall.step, Option.mem_def.mp hk, Option.bind_some, hc]
      rfl
    · intro hbalanced s' hs'
      obtain ⟨t, hk, hs'⟩ := Option.bind_eq_some_iff.mp hs'
      obtain ⟨child, hc, rfl⟩ := Option.map_eq_some_iff.mp hs'
      exact (fork_exact_iff h he hk (toOption_ok hc)).mpr (hbalanced t hk)
  | sysExit k =>
    constructor
    · intro hexact t hk
      refine (exit_exact_iff he hk).mp (hexact _ ?_)
      rw [SystemCall.step, Option.mem_def.mp hk]
      rfl
    · intro hbalanced s' hs'
      obtain ⟨t, hk, rfl⟩ := Option.map_eq_some_iff.mp hs'
      exact (exit_exact_iff he hk).mpr (hbalanced t hk)

theorem step_wellFormed (h : s.WellFormed) (he : s.Exact) {c : SystemCall} (hs' : c.step s = some s') : s'.WellFormed := by
  cases c with
  | sysOpen k fileName flags =>
    obtain ⟨t, hk, hs'⟩ := Option.bind_eq_some_iff.mp hs'
    obtain ⟨o, ho, rfl⟩ := Option.map_eq_some_iff.mp hs'
    have ho := toOption_ok ho
    refine h.setTask ?_ fun u hu => Option.some.inj hu ▸ sysOpen_intact (h.live hk) h.named ho
    obtain ⟨_, rfl⟩ | ⟨e, i, _, _, rfl⟩ := sysOpen_cases ho
    · rfl
    · exact map_modifyFirst (f := Entry.retain) (fun _ => rfl) s.index
  | sysClose k filedes =>
    obtain ⟨t, hk, hs'⟩ := Option.bind_eq_some_iff.mp hs'
    obtain ⟨o, ho, rfl⟩ := Option.map_eq_some_iff.mp hs'
    exact (close_exact h he hk (toOption_ok ho)).1
  | sysFork k =>
    obtain ⟨t, hk, hs'⟩ := Option.bind_eq_some_iff.mp hs'
    obtain ⟨child, hc, rfl⟩ := Option.map_eq_some_iff.mp hs'
    refine ⟨h.distinct, h.named, h.unnamed, fun u hu => ?_⟩
    obtain hold | hnew := List.mem_append.mp hu
    · exact h.intact u hold
    · obtain rfl := Option.some.inj (List.mem_singleton.mp hnew)
      exact (copyFds_intact (h.live hk) (fun _ _ => rfl) (toOption_ok hc)).1
  | sysExit k =>
    obtain ⟨t, hk, rfl⟩ := Option.map_eq_some_iff.mp hs'
    exact h.setTask rfl fun u hu => nomatch hu

end

theorem boot_wellFormed {index : List Entry} (h : Fresh index) (n : Nat) :
    (boot index n).WellFormed ∧ (boot index n).Exact := by
  refine ⟨⟨h.distinct, h.named, h.unnamed, fun t ht => ?_⟩, fun e hmem hne => ?_⟩
  · obtain rfl := Option.some.inj (List.eq_of_mem_replicate ht)
    exact create_intact
  · rw [h.unused e hmem hne, slots_boot index n hne]
    rfl

/-- The index that `tarfs_initialize` makes of an archive, with entries behind it that it
leaves alone. -/
theorem Link.Loaded.fresh {k : Link} {m : Store} {rs : List Record} (h : k.Loaded m rs) (hcount : rs.length ≤ maxBin)
    (rest : List Entry) (hrest : ∀ e ∈ rest, e.addr = 0 ∧ e.name = []) :
    Fresh ((List.range rs.length).map (fun i => entryAt (k.pass^[rs.length] ⟨m, k.start, 0⟩).mem (k.entry i)) ++ rest) := by
  have hfits := h.fits
  refine ⟨?_, ?_, fun e he => ?_, fun e he hzero => ?_⟩
  · rw [List.map_append, List.map_map]
    refine List.pairwise_append.mpr ⟨List.pairwise_map.mpr ?_, ?_, ?_⟩
    · refine List.Pairwise.imp_of_mem ?_ List.pairwise_lt_range
      intro i j hi hj hlt _ hsame
      have hi := List.mem_range.mp hi
      have hj := List.mem_range.mp hj
      have hnat := congrArg BitVec.toNat hsame
      have hbefore := length_image_lt hlt (Nat.le_of_lt hj)
      have hfirst := h.record_le hi
      have hsecond := h.record_le hj
      simp only [Function.comp_apply, Entry.addr, h.entry_eq hcount hi, h.entry_eq hcount hj, Record.entry,
        BitVec.toNat_ofNat] at hnat
      omega
    · refine List.pairwise_map.mpr (List.Pairwise.imp_of_mem ?_ (List.pairwise_of_forall fun _ _ => trivial))
      intro e e' he _ _ hne
      exact absurd (hrest e he).1 hne
    · intro a _ b hb hne
      obtain ⟨e, he, rfl⟩ := List.mem_map.mp hb
      rw [(hrest e he).1]
      exact hne
  · intro e he hne
    obtain hfilled | hafter := List.mem_append.mp he
    · obtain ⟨i, hi, rfl⟩ := List.mem_map.mp hfilled
      rw [h.entry_eq hcount (List.mem_range.mp hi)]
      rfl
    · exact absurd (hrest e hafter).1 hne
  · obtain hfilled | hafter := List.mem_append.mp he
    · obtain ⟨i, hi, rfl⟩ := List.mem_map.mp hfilled
      have hi := List.mem_range.mp hi
      rw [h.entry_eq hcount hi]
      exact Nat.lt_succ_of_le (rs[i]).name_length
    · rw [(hrest e hafter).2]
      decide
  · obtain hfilled | hafter := List.mem_append.mp he
    · obtain ⟨i, hi, rfl⟩ := List.mem_map.mp hfilled
      have hi := List.mem_range.mp hi
      have hnat := (BitVec.toNat_eq.mp hzero).trans (show (0 : BitVec 64).toNat = 0 from rfl)
      have hinside := h.record_le hi
      simp only [Entry.addr, h.entry_eq hcount hi, Record.entry, BitVec.toNat_ofNat] at hnat
      omega
    · exact (hrest e hafter).2

/-- The counts of the index are right in every state of a run exactly if along the run no
process forks or exits with a file open, and no name that is opened changes the `offset` it runs
over. -/
theorem open_counts_iff (index : List Entry) (h : Fresh index) (n : Nat) (calls : List SystemCall) :
    (∀ before, before <+: calls → ∀ s, run SystemCall.step (boot index n) before = some s → s.Exact) ↔
      Along SystemCall.step SystemCall.Balanced (boot index n) calls := by
  have hexact := (boot_wellFormed h n).2
  rw [reached_iff]
  have hiff : Along SystemCall.step (fun s c => ∀ s', c.step s = some s' → s'.Exact) (boot index n) calls ↔
      Along SystemCall.step SystemCall.Balanced (boot index n) calls := by
    refine @along_iff_keeping _ _ SystemCall.step _ _ (fun s => s.WellFormed ∧ s.Exact) ?_ ?_ _ _ (boot_wellFormed h n)
    · intro s c hs
      exact step_exact_iff hs.1 hs.2 c
    · intro s c s' hs hbalanced hs'
      exact ⟨step_wellFormed hs.1 hs.2 hs', (step_exact_iff hs.1 hs.2 c).mpr hbalanced s' hs'⟩
  exact ⟨fun hall => hiff.mp hall.2, fun hall => ⟨hexact, hiff.mpr hall⟩⟩

/-- A file that is closed before its process forks and the child exits. -/
theorem open_counts_closed :
    ∃ s, run SystemCall.step (boot oneFile 1) [.sysOpen 0 [0x61] 0, .sysClose 0 3, .sysFork 0, .sysExit 1] = some s ∧
      s.Exact := by
  have hcounts := (open_counts_iff oneFile ⟨List.pairwise_singleton _ _, by decide, by decide, by decide⟩ 1
    [.sysOpen 0 [0x61] 0, .sysClose 0 3, .sysFork 0, .sysExit 1]).mpr (by decide +kernel)
  exact ⟨_, rfl, hcounts _ (List.prefix_refl _) _ rfl⟩

/-- A file that is open across a fork, and then closed by both processes. -/
theorem count_goes_negative :
    ∃ s e, run SystemCall.step (boot oneFile 1) [.sysOpen 0 [0x61] 0, .sysFork 0, .sysClose 0 3, .sysClose 1 3] = some s ∧
      s.index = [e] ∧ e.addr ≠ 0 ∧ e.refCnt = -1 ∧ ¬ s.Exact :=
  ⟨_, _, rfl, rfl, by decide, by decide, by decide +kernel⟩

/-- A file that is opened once, and whose name has taken the place of its address. -/
example : ∃ s, run SystemCall.step (boot longNamed 1) [.sysOpen 0 (List.replicate 36 0x61) 0] = some s ∧
    s.index.map Entry.refCnt = [1] ∧ (s.tasks.map fun t => t.map fun t => (t.fd 3).offset) = [some 0xffffff0061616161] :=
  ⟨_, rfl, by decide, by decide +kernel⟩

end Sbnix.Files
