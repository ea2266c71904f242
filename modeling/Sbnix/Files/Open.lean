import Sbnix.Files.Descriptors

/-! `sys_open`, byte by byte (`sys/tarfs.c`, lines 116 to 139).

Here the table and the task are bytes of the kernel's memory. The test of the loop picks
the entry whose name is the one asked for, or that and a slash (`opensAt_iff`), and a
call that finds none changes nothing. A call that finds one copies the name into a field
of 32 bytes after it has filled the fields behind it, so a longer name runs into them:
`sys_open_iff` says for which names the slot is right all the same. -/
namespace Sbnix.Files.Raw
open Library Library.Store

/-! ### The task -/

/-- The size of `struct task_struct`, and where `fd_cnt` is in it. -/
def taskSize : Nat := 6296
def fdCntAt (process : Nat) : Nat := process + 6232

/-- `&process->fd[i]`, a `struct File`: `path[32]`, then `offset` at 32, `offset_read` at 40,
`file_size` at 48, `flags` at 56 and `seek` at 64. -/
def fdAt (process : Nat) (i : Int) : Nat := (process + 4232 + 72 * i).toNat

/-- `&process->fd[process->fd_cnt]` -/
def lastFd (m : Store) (process : Nat) : Nat := fdAt process (loadInt m (fdCntAt process))

/-- A field of type `int`, as it is in memory. -/
def load32 (m : Store) (a : Nat) : BitVec 32 := BitVec.ofNat 32 (ofLE (fetch m a 4))

/-- `x++` on such a field. -/
def increment (m : Store) (a : Nat) : Store := storeInt m a (load32 m a + 1)

/-! ### `sys_open` -/

/-- The test of the loop. -/
def opensAt (m : Store) (fileName len e : Nat) : Bool :=
  strncmp (chars m fileName) (chars m e) len == 0 &&
    (m (e + len) == 0x2f && m (e + (len + 1)) == 0 || m (e + len) == 0)

/-- An `int` stored into a `uint64_t`. -/
def widen (v : Int) : Nat := (v % 2 ^ 64).toNat

/-- The fields that are filled before the name is copied. -/
def fillFields (m : Store) (e process : Nat) (flags : BitVec 32) : Store :=
  let m := storeLong m (lastFd m process + 32) (loadLong m (e + 117))
  let m := storeLong m (lastFd m process + 40) (loadLong m (e + 117))
  let m := storeLong m (lastFd m process + 48) (widen (loadInt m (e + 100)))
  storeInt m (lastFd m process + 56) flags

/-- The body of the loop, for the entry at `e`. -/
def openEntry (m : Store) (e process : Nat) (flags : BitVec 32) : Store :=
  let m := increment m (e + 105)
  let m := increment m (fdCntAt process)
  let m := fillFields m e process flags
  let m := strcpy m (lastFd m process) e
  storeLong m (lastFd m process + 64) 0

def sysOpen (k : Link) (m : Store) (process fileName : Nat) (flags : BitVec 32) : Int × Store :=
  let len := strlen m fileName
  match (List.range maxBin).find? fun ind => opensAt m fileName len (k.entry ind) with
  | some ind =>
    let m := openEntry m (k.entry ind) process flags
    (loadInt m (fdCntAt process), m)
  | none => (0, m)

/-! ### What is asked of it -/

/-- The entry's name is the name asked for, or that and a slash. -/
def Matches (query name : List Byte) : Prop := name = query ∨ name = query ++ [0x2f]

instance (query name : List Byte) : Decidable (Matches query name) := inferInstanceAs (Decidable (_ ∨ _))

/-- The first entry of that name. -/
def First (query : List Byte) (names : Nat → List Byte) (i : Nat) : Prop :=
  i < maxBin ∧ Matches query (names i) ∧ ∀ j < i, ¬ Matches query (names j)

/-- The first match gets a user more, the task a descriptor more, and the slot the entry. -/
structure Opened (m m' : Store) (e process slot : Nat) (name : List Byte) : Prop where
  refCnt : load32 m' (e + 105) = load32 m (e + 105) + 1
  fdCnt : load32 m' (fdCntAt process) = load32 m (fdCntAt process) + 1
  offset : loadLong m' (slot + 32) = loadLong m (e + 117)
  offsetRead : loadLong m' (slot + 40) = loadLong m (e + 117)
  fileSize : loadLong m' (slot + 48) = widen (loadInt m (e + 100))
  path : Spells m' slot name
  seek : loadLong m' (slot + 64) = 0
  others : ∀ x, (x < e + 105 ∨ e + 109 ≤ x) → (x < fdCntAt process ∨ fdCntAt process + 4 ≤ x) →
    (x < slot ∨ slot + 72 ≤ x) → m' x = m x

/-- A call on a table whose entries have the names, for a task with room for a descriptor. -/
structure Call (k : Link) (m : Store) (process fileName : Nat) (query : List Byte) (names : Nat → List Byte)
    (fdCnt : Nat) : Prop where
  asks : Spells m fileName query
  length_lt : query.length < intMax
  entries : ∀ i < maxBin, Spells m (k.entry i) (names i)
  length_le : ∀ i < maxBin, (names i).length ≤ 99
  handed : loadInt m (fdCntAt process) = fdCnt
  room : fdCnt < 24
  apart : k.tarfsInd + entrySize * maxBin ≤ process ∨ process + taskSize ≤ k.tarfsInd

/-- What the call does: the first match is opened; without one nothing happens. -/
def OpenSpec (k : Link) (m : Store) (process : Nat) (query : List Byte) (names : Nat → List Byte) (fdCnt : Nat)
    (res : Int × Store) : Prop :=
  (∀ i, First query names i → res.1 = fdCnt + 1 ∧
    Opened m res.2 (k.entry i) process (fdAt process (fdCnt + 1)) (names i)) ∧
  ((∀ i < maxBin, ¬ Matches query (names i)) → res = (0, m))

/-- The bytes of `offset`, `offset_read` and `file_size`. -/
def fields (binStartAddr fileSize : Nat) : List Byte := toLE 8 binStartAddr ++ toLE 8 binStartAddr ++ toLE 8 fileSize

/-- The name and its zero fit into `path`, or what runs over it is what `offset`, `offset_read`
and `file_size` have there anyway. -/
def PathFits (name : List Byte) (binStartAddr fileSize : Nat) : Prop :=
  name.length ≤ 64 ∧ ∀ i < 24, 32 + i ≤ name.length →
    (name ++ [0])[32 + i]? = (fields binStartAddr fileSize)[i]?

/-! ### The lookup -/

section
variable {m m' : Store} {k : Link} {process fileName fdCnt e : Nat} {query name : List Byte} {names : Nat → List Byte}

/-- The test of the loop picks the names that match. -/
theorem opensAt_iff (hq : Spells m fileName query) (hn : Spells m e name) :
    opensAt m fileName query.length e = true ↔ Matches query name := by
  unfold opensAt Matches
  rw [Bool.and_eq_true, beq_iff_eq, strncmp_isPrefix hq hn]
  constructor
  · rintro ⟨⟨rest, rfl⟩, hend⟩
    have hrest := spells_append hn
    cases rest with
    | nil => exact Or.inl (List.append_nil _)
    | cons b rest =>
      obtain ⟨hb, hne, htail⟩ := spells_cons hrest
      rw [hb, Bool.or_eq_true, Bool.and_eq_true, beq_iff_eq, beq_iff_eq, beq_iff_eq] at hend
      obtain ⟨rfl, hzero⟩ := hend.resolve_right hne
      cases rest with
      | nil => exact Or.inr rfl
      | cons c rest =>
        obtain ⟨hc, hcne, _⟩ := spells_cons htail
        exact absurd (hc.symm.trans hzero) hcne
  · rintro (rfl | rfl)
    · have hzero := spells_nil (spells_append (m := m) (a := e) (r := []) (by rwa [List.append_nil]))
      refine ⟨List.prefix_refl _, ?_⟩
      rw [hzero]
      rfl
    · obtain ⟨hb, _, hrest⟩ := spells_cons (spells_append hn)
      have hzero : m (e + (query.length + 1)) = 0 := spells_nil hrest
      refine ⟨⟨_, rfl⟩, ?_⟩
      rw [hb, hzero]
      rfl

/-- The test on entries that have been read from the table is the same. -/
theorem opensAt_eq (hq : Spells m fileName query) (hn : Spells m e name) (hlen : name.length < intMax) :
    opensAt m fileName query.length e = (entryAt m e).opens query := by
  have hname : (entryAt m e).name = name := cString_spells hn hlen
  rw [Bool.eq_iff_iff, opensAt_iff hq hn, Entry.opens, Entry.nameAt, Entry.nameAt, hname, Bool.and_eq_true,
    List.isPrefixOf_iff_prefix, Bool.or_eq_true, Bool.and_eq_true, beq_iff_eq, beq_iff_eq, beq_iff_eq]
  unfold Matches
  constructor
  · rintro (rfl | rfl)
    · exact ⟨List.prefix_refl _, Or.inr (List.getD_eq_default _ _ (Nat.le_refl _))⟩
    · have hslash : (query ++ [0x2f]).getD query.length 0 = 0x2f := by
        rw [List.getD_eq_getElem?_getD, List.getElem?_concat_length]
        rfl
      have hend : (query ++ [0x2f]).length ≤ query.length + 1 := by rw [List.length_append]; exact Nat.le_refl _
      exact ⟨⟨_, rfl⟩, Or.inl ⟨hslash, List.getD_eq_default _ _ hend⟩⟩
  · rintro ⟨⟨rest, rfl⟩, hend⟩
    have hat : ∀ i, (query ++ rest).getD (query.length + i) 0 = rest.getD i 0 := by
      intro i
      rw [List.getD_eq_getElem?_getD, List.getElem?_append_right (Nat.le_add_right ..), Nat.add_sub_cancel_left,
        List.getD_eq_getElem?_getD]
    have hzero : ∀ b ∈ rest, b ≠ 0 := fun b hb hc => hn.2 (List.mem_append_right _ (hc ▸ hb))
    have hfirst := hat 0
    rw [Nat.add_zero] at hfirst
    rw [hfirst, hat 1] at hend
    match rest with
    | [] => exact Or.inl (List.append_nil _)
    | [b] =>
      obtain ⟨rfl, _⟩ := hend.resolve_right (hzero b (List.mem_singleton_self b))
      exact Or.inr rfl
    | b :: c :: rest =>
      obtain ⟨_, hc⟩ := hend.resolve_right (hzero b (List.mem_cons_self ..))
      exact absurd hc (hzero c (List.mem_cons_of_mem _ (List.mem_cons_self ..)))

/-- The loop stops at the first match. -/
theorem Call.find_first (h : Call k m process fileName query names fdCnt) {i : Nat} (hi : First query names i) :
    (List.range maxBin).find? (fun ind => opensAt m fileName (strlen m fileName) (k.entry ind)) = some i := by
  obtain ⟨hlt, hmatch, hbefore⟩ := hi
  rw [strlen_spells h.asks h.length_lt]
  have htest : ∀ j < maxBin, (opensAt m fileName query.length (k.entry j) = true ↔ Matches query (names j)) :=
    fun j hj => opensAt_iff h.asks (h.entries j hj)
  refine (List.find?_range_eq_some).mpr ⟨(htest i hlt).mpr hmatch, List.mem_range.mpr hlt, fun j hj => ?_⟩
  have hno := mt (htest j (by omega)).mp (hbefore j hj)
  simpa using hno

theorem Call.find_none (h : Call k m process fileName query names fdCnt)
    (hnone : ∀ i < maxBin, ¬ Matches query (names i)) :
    (List.range maxBin).find? (fun ind => opensAt m fileName (strlen m fileName) (k.entry ind)) = none := by
  rw [strlen_spells h.asks h.length_lt]
  refine List.find?_eq_none.mpr (fun i hi => ?_)
  have hlt := List.mem_range.mp hi
  exact mt (opensAt_iff h.asks (h.entries i hlt)).mp (hnone i hlt)

/-! ### A slot that is right has a name that fits -/

theorem loadLong_holds {a v : Nat} (h : loadLong m a = v) : Holds m a (toLE 8 v) := by
  have hlen : (fetch m a 8).length = 8 := length_fetch m a 8
  have hback := toLE_ofLE (fetch m a 8)
  rw [hlen] at hback
  rw [Holds, length_toLE, ← h]
  exact hback.symm

theorem holds_loadLong {a v : Nat} (h : Holds m a (toLE 8 v)) (hv : v < 2 ^ 64) : loadLong m a = v := by
  rw [Holds, length_toLE] at h
  rw [loadLong, h, ofLE_toLE, Nat.mod_eq_of_lt (by omega)]

theorem holds_getElem? {a i : Nat} {bytes : List Byte} (h : Holds m a bytes) (hi : i < bytes.length) :
    bytes[i]? = some (m (a + i)) := by
  rw [h.at hi, List.getElem?_eq_getElem hi]

theorem length_fields (bin size : Nat) : (fields bin size).length = 24 := by
  simp only [fields, List.length_append, length_toLE]

theorem Opened.pathFits {slot : Nat} (h : Opened m m' e process slot name) :
    PathFits name (loadLong m (e + 117)) (widen (loadInt m (e + 100))) := by
  have hlen : (name ++ [0]).length = name.length + 1 := by rw [List.length_append]; rfl
  constructor
  · by_contra hc
    have hlt : 64 < name.length := by omega
    have hbyte : m' (slot + 64) = name[64] := h.path.holds.at hlt
    have hzero : m' (slot + 64) = 0 := (holds_cons.mp (loadLong_holds h.seek)).1
    exact h.path.2 (hzero ▸ hbyte ▸ List.getElem_mem hlt)
  · intro i hi hle
    have hfields : Holds m' (slot + 32) (fields (loadLong m (e + 117)) (widen (loadInt m (e + 100)))) := by
      refine holds_append.mpr ⟨holds_append.mpr ⟨loadLong_holds h.offset, ?_⟩, ?_⟩
      · rw [length_toLE]
        exact loadLong_holds h.offsetRead
      · rw [List.length_append, length_toLE]
        exact loadLong_holds h.fileSize
    have hname := holds_getElem? h.path.1 (i := 32 + i) (by omega)
    have hfield := holds_getElem? hfields (i := i) (by rw [length_fields]; omega)
    rw [hname, ← Nat.add_assoc]
    exact hfield.symm

/-! ### A name that fits gives a slot that is right -/

/-- The entry lies apart from the task, and the slot inside the table of descriptors. -/
structure Placed (e process slot : Nat) : Prop where
  apart : e + 125 ≤ process ∨ process + 6296 ≤ e
  lo : process ≤ slot
  hi : slot + 72 ≤ process + 6032

theorem Call.placed (h : Call k m process fileName query names fdCnt) {i : Nat} (hi : i < maxBin) :
    Placed (k.entry i) process (fdAt process (fdCnt + 1)) := by
  have hroom := h.room
  have hapart := h.apart
  unfold Link.entry
  unfold taskSize entrySize maxBin at hapart
  unfold maxBin at hi
  unfold entrySize
  refine ⟨by omega, ?_, ?_⟩
  · unfold fdAt
    omega
  · unfold fdAt
    omega

theorem put_apart (m : Store) {a b n : Nat} (bytes : List Byte) (h : a + bytes.length ≤ b ∨ b + n ≤ a) :
    fetch (put m a bytes) b n = fetch m b n := fetch_congr (put_agree m bytes h)

theorem lastFd_put {a : Nat} {bytes : List Byte}
    (h : a + bytes.length ≤ fdCntAt process ∨ fdCntAt process + 4 ≤ a) :
    lastFd (put m a bytes) process = lastFd m process := by
  unfold lastFd loadInt
  rw [put_apart m bytes h]

/-- Every store of `fillFields` goes to the same slot and reads the same entry. -/
theorem fillFields_eq {slot : Nat} (hp : Placed e process slot) (hslot : lastFd m process = slot) (flags : BitVec 32) :
    fillFields m e process flags =
      put (put m (slot + 32) (fields (loadLong m (e + 117)) (widen (loadInt m (e + 100))))) (slot + 56)
        (toLE 4 flags.toNat) := by
  obtain ⟨hapart, hlo, hhi⟩ := hp
  have h8 : ∀ v, (toLE 8 v).length = 8 := length_toLE 8
  -- a store into the slot moves neither the slot nor the entry
  have hstep : ∀ (t : Store) (a v : Nat), lastFd t process = slot → slot ≤ a → a + 8 ≤ slot + 72 →
      lastFd (storeLong t a v) process = slot ∧ loadLong (storeLong t a v) (e + 117) = loadLong t (e + 117) ∧
        loadInt (storeLong t a v) (e + 100) = loadInt t (e + 100) := by
    intro t a v ht halo hahi
    refine ⟨?_, ?_, ?_⟩
    · rw [storeLong, lastFd_put (by rw [h8]; unfold fdCntAt; omega), ht]
    · rw [loadLong, storeLong, put_apart t _ (by rw [h8]; omega)]
      rfl
    · rw [loadInt, storeLong, put_apart t _ (by rw [h8]; omega)]
      rfl
  unfold fillFields
  dsimp only
  obtain ⟨hslot₁, hlong₁, hint₁⟩ := hstep m (slot + 32) (loadLong m (e + 117)) hslot (by omega) (by omega)
  rw [hslot]
  generalize hm₁ : storeLong m (slot + 32) (loadLong m (e + 117)) = m₁ at *
  obtain ⟨hslot₂, hlong₂, hint₂⟩ := hstep m₁ (slot + 40) (loadLong m (e + 117)) hslot₁ (by omega) (by omega)
  rw [hslot₁, hlong₁]
  generalize hm₂ : storeLong m₁ (slot + 40) (loadLong m (e + 117)) = m₂ at *
  obtain ⟨hslot₃, _, _⟩ := hstep m₂ (slot + 48) (widen (loadInt m (e + 100))) hslot₂ (by omega) (by omega)
  rw [hslot₂, hint₂, hint₁, hslot₃, ← hm₂, ← hm₁]
  have hsecond : slot + 40 = slot + 32 + (toLE 8 (loadLong m (e + 117))).length := by rw [h8]
  have hthird : slot + 48 = slot + 32 + (toLE 8 (loadLong m (e + 117)) ++ toLE 8 (loadLong m (e + 117))).length := by
    rw [List.length_append, h8]
  unfold storeInt storeLong fields
  rw [hsecond, put_append, hthird, put_append]

theorem load32_put {a b : Nat} {bytes : List Byte} (h : a + bytes.length ≤ b ∨ b + 4 ≤ a) :
    load32 (put m a bytes) b = load32 m b := by
  rw [load32, put_apart m bytes h]
  rfl

theorem load32_storeInt (a : Nat) (v : BitVec 32) : load32 (storeInt m a v) a = v := by
  have h := loadInt_storeInt m a v
  exact BitVec.toInt_inj.mp h

/-- The number of the new slot. -/
theorem load32_next {a : Nat} (h : loadInt m a = fdCnt) (hlt : fdCnt < 24) : (load32 m a + 1).toInt = fdCnt + 1 := by
  have hload : load32 m a = BitVec.ofNat 32 fdCnt := by
    apply BitVec.toInt_inj.mp
    rw [toInt_small (by omega)]
    exact h
  have hnext : load32 m a + 1 = BitVec.ofNat 32 (fdCnt + 1) := by
    rw [hload, BitVec.ofNat_add]
    rfl
  rw [hnext, toInt_small (by omega)]
  rfl

/-- All that opening an entry stores. -/
theorem openEntry_eq {slot : Nat} (hp : Placed e process slot) (hname : Spells m e name) (hlen : name.length ≤ 99)
    (hcnt : loadInt m (fdCntAt process) = fdCnt) (hroom : fdCnt < 24) (hslot : slot = fdAt process (fdCnt + 1))
    (flags : BitVec 32) :
    openEntry m e process flags =
      put (put (put (put (put (put m (e + 105) (toLE 4 (load32 m (e + 105) + 1).toNat))
        (fdCntAt process) (toLE 4 (load32 m (fdCntAt process) + 1).toNat))
        (slot + 32) (fields (loadLong m (e + 117)) (widen (loadInt m (e + 100)))))
        (slot + 56) (toLE 4 flags.toNat))
        slot (name ++ [0]))
        (slot + 64) (toLE 8 0) := by
  have hpl := hp
  obtain ⟨hapart, hlo, hhi⟩ := hp
  have h4 : ∀ v, (toLE 4 v).length = 4 := length_toLE 4
  have hzlen : (name ++ [0]).length = name.length + 1 := by rw [List.length_append]; rfl
  have hat : fdCntAt process = process + 6232 := rfl
  unfold openEntry increment storeInt
  dsimp only
  rw [load32_put (b := fdCntAt process) (by rw [h4]; omega)]
  generalize hm₁ : put m (e + 105) (toLE 4 (load32 m (e + 105) + 1).toNat) = m₁
  generalize hm₂ : put m₁ (fdCntAt process) (toLE 4 (load32 m (fdCntAt process) + 1).toNat) = m₂
  have hlast : lastFd m₂ process = slot := by
    have hload : loadInt m₂ (fdCntAt process) = fdCnt + 1 := by
      rw [← hm₂, ← load32_next hcnt hroom]
      exact loadInt_storeInt m₁ (fdCntAt process) _
    rw [lastFd, hload, hslot]
  have hentry : Agree m m₂ e 105 ∧ Agree m m₂ (e + 109) 16 := by
    rw [← hm₂, ← hm₁]
    constructor
    · exact (put_agree m _ (by rw [h4]; omega)).trans (put_agree _ _ (by rw [h4]; omega))
    · exact (put_agree m _ (by rw [h4]; omega)).trans (put_agree _ _ (by rw [h4]; omega))
  have hlong : loadLong m₂ (e + 117) = loadLong m (e + 117) :=
    loadLong_congr (hentry.2.mono (by omega) (by omega))
  have hint : loadInt m₂ (e + 100) = loadInt m (e + 100) := loadInt_congr (hentry.1.mono (by omega) (by omega))
  have hfill := fillFields_eq hpl hlast flags
  rw [hlong, hint] at hfill
  rw [hfill]
  generalize hm₃ : put m₂ (slot + 32) (fields (loadLong m (e + 117)) (widen (loadInt m (e + 100)))) = m₃
  generalize hm₄ : put m₃ (slot + 56) (toLE 4 flags.toNat) = m₄
  have hlast₄ : lastFd m₄ process = slot := by
    rw [← hm₄, lastFd_put (by rw [h4]; omega), ← hm₃, lastFd_put (by rw [length_fields]; omega), hlast]
  have hspell : Spells m₄ e name := by
    have hagree : Agree m m₄ e 105 := by
      rw [← hm₄, ← hm₃]
      refine hentry.1.trans ((put_agree _ _ ?_).trans (put_agree _ _ ?_))
      · rw [length_fields]
        omega
      · rw [h4]
        omega
    exact hname.congr (hagree.mono (by omega) (by omega))
  have hcopy : strcpy m₄ slot e = put m₄ slot (name ++ [0]) :=
    strcpy_spells hspell (by unfold intMax; omega) (by omega)
  rw [hlast₄, hcopy, lastFd_put (by rw [hzlen]; omega), hlast₄]
  rfl

theorem widen_lt (v : Int) : widen v < 2 ^ 64 := by
  unfold widen
  omega

theorem loadLong_lt (m : Store) (a : Nat) : loadLong m a < 2 ^ 64 := by
  have h := congrArg ofLE (toLE_ofLE (fetch m a 8))
  rw [length_fetch, ofLE_toLE] at h
  have hlt : ofLE (fetch m a 8) % 256 ^ 8 < 256 ^ 8 := Nat.mod_lt _ (by decide)
  unfold loadLong
  omega

/-- The fields behind `path` survive a name that fits. -/
theorem fields_survive (slot : Nat) {bin size : Nat} (hfits : PathFits name bin size) (flags : BitVec 32) :
    Holds (put (put (put (put m (slot + 32) (fields bin size)) (slot + 56) (toLE 4 flags.toNat)) slot (name ++ [0]))
      (slot + 64) (toLE 8 0)) (slot + 32) (fields bin size) := by
  have hzlen : (name ++ [0]).length = name.length + 1 := by rw [List.length_append]; rfl
  refine holds_of_at fun i hi => ?_
  have hi' : i < 24 := by rwa [length_fields] at hi
  rw [put_below _ _ (by omega)]
  by_cases hover : 32 + i ≤ name.length
  · have hsame := hfits.2 i hi' hover
    rw [List.getElem?_eq_getElem (by omega), List.getElem?_eq_getElem hi] at hsame
    rw [Nat.add_assoc, put_at _ _ _ (by omega)]
    exact Option.some.inj hsame
  · rw [put_above _ _ (by omega), put_below _ _ (by omega), put_at _ _ _ hi]

/-- So does the name itself; its zero may fall on the first byte of `seek`. -/
theorem path_survives {slot : Nat} (hname : (0 : Byte) ∉ name) (hlen : name.length ≤ 64) :
    Spells (put (put m slot (name ++ [0])) (slot + 64) (toLE 8 0)) slot name := by
  have hzlen : (name ++ [0]).length = name.length + 1 := by rw [List.length_append]; rfl
  refine ⟨holds_of_at fun i hi => ?_, hname⟩
  by_cases hlow : i < 64
  · rw [put_below _ _ (by omega), put_at _ _ _ hi]
  · obtain rfl : i = name.length := by omega
    have hzero := put_at (put m slot (name ++ [0])) (slot + 64) (toLE 8 0) (i := 0) (by decide)
    rw [List.getElem_concat_length rfl, show name.length = 64 by omega]
    exact hzero

/-- Opening an entry whose name fits does all that is asked. -/
theorem openEntry_opened {slot : Nat} (hp : Placed e process slot) (hname : Spells m e name) (hlen : name.length ≤ 99)
    (hcnt : loadInt m (fdCntAt process) = fdCnt) (hroom : fdCnt < 24) (hslot : slot = fdAt process (fdCnt + 1))
    (hfits : PathFits name (loadLong m (e + 117)) (widen (loadInt m (e + 100)))) (flags : BitVec 32) :
    Opened m (openEntry m e process flags) e process slot name ∧
      loadInt (openEntry m e process flags) (fdCntAt process) = fdCnt + 1 := by
  have h64 := hfits.1
  have h4 : ∀ v, (toLE 4 v).length = 4 := length_toLE 4
  have h8 : ∀ v, (toLE 8 v).length = 8 := length_toLE 8
  have hzlen : (name ++ [0]).length = name.length + 1 := by rw [List.length_append]; rfl
  have hat : fdCntAt process = process + 6232 := rfl
  rw [openEntry_eq hp hname hlen hcnt hroom hslot flags]
  obtain ⟨hapart, hlo, hhi⟩ := hp
  generalize hm₂ : put (put m (e + 105) (toLE 4 (load32 m (e + 105) + 1).toNat)) (fdCntAt process)
    (toLE 4 (load32 m (fdCntAt process) + 1).toNat) = m₂
  -- stores into the slot are seen nowhere else
  have hslots : ∀ b, (b + 4 ≤ slot ∨ slot + 72 ≤ b) → load32 (put (put (put (put m₂ (slot + 32)
      (fields (loadLong m (e + 117)) (widen (loadInt m (e + 100))))) (slot + 56) (toLE 4 flags.toNat))
      slot (name ++ [0])) (slot + 64) (toLE 8 0)) b = load32 m₂ b := by
    intro b hb
    rw [load32_put (by rw [h8]; omega), load32_put (by rw [hzlen]; omega), load32_put (by rw [h4]; omega),
      load32_put (by rw [length_fields]; omega)]
  have hcount : load32 m₂ (e + 105) = load32 m (e + 105) + 1 := by
    rw [← hm₂, load32_put (by rw [h4]; omega)]
    exact load32_storeInt (m := m) (e + 105) _
  have hfd : load32 m₂ (fdCntAt process) = load32 m (fdCntAt process) + 1 := by
    rw [← hm₂]
    exact load32_storeInt (fdCntAt process) _
  have hfields := fields_survive (m := m₂) slot hfits flags
  obtain ⟨hfirst, hsize⟩ := holds_append.mp hfields
  obtain ⟨hoffset, hread⟩ := holds_append.mp hfirst
  rw [h8] at hread
  rw [List.length_append, h8] at hsize
  refine ⟨⟨?_, ?_, ?_, ?_, ?_, ?_, ?_, ?_⟩, ?_⟩
  · rw [hslots (e + 105) (by omega), hcount]
  · rw [hslots (fdCntAt process) (by omega), hfd]
  · exact holds_loadLong hoffset (loadLong_lt m _)
  · exact holds_loadLong hread (loadLong_lt m _)
  · exact holds_loadLong hsize (widen_lt _)
  · exact path_survives hname.2 h64
  · exact holds_loadLong (put_holds _ _ _) (by decide)
  · intro x hcnt hfd hx
    have hlong : ∀ {t : Store} {a : Nat} {bytes : List Byte}, (x < a ∨ a + bytes.length ≤ x) → put t a bytes x = t x :=
      fun h => h.elim (put_below _ _) (put_above _ _)
    rw [hlong (by rw [h8]; omega), hlong (by rw [hzlen]; omega), hlong (by rw [h4]; omega),
      hlong (by rw [length_fields]; omega), ← hm₂, hlong (by rw [h4]; omega), hlong (by rw [h4]; omega)]
  · show (load32 _ (fdCntAt process)).toInt = _
    rw [hslots (fdCntAt process) (by omega), hfd]
    exact load32_next hcnt hroom

/-- The call opens the first match. -/
theorem Call.sysOpen_first (h : Call k m process fileName query names fdCnt) {i : Nat} (hi : First query names i)
    (flags : BitVec 32) : sysOpen k m process fileName flags =
      (loadInt (openEntry m (k.entry i) process flags) (fdCntAt process), openEntry m (k.entry i) process flags) := by
  unfold sysOpen
  dsimp only
  rw [h.find_first hi]

/-- The call does what is asked just when the name of the entry it opens fits. -/
theorem sys_open_iff (k : Link) (m : Store) (process fileName : Nat) (flags : BitVec 32) (query : List Byte)
    (names : Nat → List Byte) (fdCnt : Nat) (h : Call k m process fileName query names fdCnt) :
    OpenSpec k m process query names fdCnt (sysOpen k m process fileName flags) ↔
      ∀ i, First query names i →
        PathFits (names i) (loadLong m (k.entry i + 117)) (widen (loadInt m (k.entry i + 100))) := by
  constructor
  · intro hspec i hi
    exact (hspec.1 i hi).2.pathFits
  · intro hfits
    refine ⟨fun i hi => ?_, fun hnone => ?_⟩
    · have hopened := openEntry_opened (h.placed hi.1) (h.entries i hi.1) (h.length_le i hi.1) h.handed h.room rfl
        (hfits i hi) flags
      rw [h.sysOpen_first hi]
      dsimp only
      exact And.symm hopened
    · unfold sysOpen
      dsimp only
      rw [h.find_none hnone]

end

/-! ### Small tables -/

/-- The table at 4096, with one entry that is used; the task at 65536, with two descriptors handed out;
and the name asked for at 131072. -/
def smallLink : Link := ⟨4096, 0, 0⟩

def smallStore (name : List Byte) : Store :=
  put (put (put (put (fun _ => 0) 4096 (name ++ [0])) (4096 + 117) (toLE 8 0x12345678)) (65536 + 6232) (toLE 4 2))
    131072 (name ++ [0])

def smallNames (name : List Byte) (i : Nat) : List Byte := if i = 0 then name else []

instance (m : Store) (a : Nat) (s : List Byte) : Decidable (Spells m a s) :=
  inferInstanceAs (Decidable (fetch m a (s ++ [0]).length = s ++ [0] ∧ (0 : Byte) ∉ s))

theorem short_call : Call smallLink (smallStore [0x66]) 65536 131072 [0x66] (smallNames [0x66]) 2 where
  asks := by decide +kernel
  length_lt := by decide
  entries := by decide +kernel
  length_le := by decide +kernel
  handed := by decide +kernel
  room := by decide
  apart := Or.inl (by decide)

theorem sys_open_short : Call smallLink (smallStore [0x66]) 65536 131072 [0x66] (smallNames [0x66]) 2 ∧
    OpenSpec smallLink (smallStore [0x66]) 65536 [0x66] (smallNames [0x66]) 2
      (sysOpen smallLink (smallStore [0x66]) 65536 131072 0) := by
  refine ⟨short_call, (sys_open_iff _ _ _ _ _ _ _ _ short_call).mpr fun i hi => ?_⟩
  have hlen : (smallNames [0x66] i).length ≤ 1 := by
    unfold smallNames
    split
    · exact Nat.le_refl _
    · exact Nat.zero_le _
  exact ⟨by omega, fun j _ hj => by omega⟩

/-- Forty times the letter a. -/
def longName : List Byte := List.replicate 40 0x61

theorem long_call : Call smallLink (smallStore longName) 65536 131072 longName (smallNames longName) 2 where
  asks := by decide +kernel
  length_lt := by decide
  entries := by decide +kernel
  length_le := by decide +kernel
  handed := by decide +kernel
  room := by decide
  apart := Or.inl (by decide)

/-- The end of the name has overwritten `offset`. -/
theorem long_name_overruns : Call smallLink (smallStore longName) 65536 131072 longName (smallNames longName) 2 ∧
    loadLong (sysOpen smallLink (smallStore longName) 65536 131072 0).2 (fdAt 65536 3 + 32) = 0x6161616161616161 ∧
    ¬ OpenSpec smallLink (smallStore longName) 65536 longName (smallNames longName) 2
      (sysOpen smallLink (smallStore longName) 65536 131072 0) := by
  refine ⟨long_call, by decide +kernel, fun hspec => ?_⟩
  have hfirst : First longName (smallNames longName) 0 := ⟨by decide, Or.inl rfl, fun j hj => absurd hj (by omega)⟩
  have hfits := (hspec.1 0 hfirst).2.pathFits.2 0 (by decide) (by decide)
  revert hfits
  decide +kernel

end Sbnix.Files.Raw
