import Sbnix.Files.Chdir

/-! Listing a directory: `sys_getdents` (`sys/tarfs.c`, lines 141 to 169), and `opendir` and
`readdir` of the library.

The kernel fills an array of records in the caller's buffer, one for each entry whose name
goes on after the path of the descriptor, and returns how many bytes that are. It does not
look at `count`: `getdents_respects_iff` says when the buffer is large enough all the same.
The library keeps the buffer in the `DIR` and goes from record to record by `d_reclen`;
`listing_round_trip` says that this gives the names back. -/
namespace Sbnix.Files.Raw
open Library Library.Store

/-! ### `sys_getdents` -/

/-- `sizeof(dirent)`: `d_ino`, then `d_off` at 8, `d_reclen` at 16 and `d_name[256]` at 18. -/
def direntSize : Nat := 280

def loadShort (m : Store) (a : Nat) : Nat := ofLE (fetch m a 2)
def storeShort (m : Store) (a v : Nat) : Store := put m a (toLE 2 v)

/-- The tests of the loop. -/
def listsAt (m : Store) (path len e : Nat) : Bool :=
  strncmp (chars m path) (chars m e) len == 0 && m (e + len) != 0 && decide (strlen m e > len)

/-- `arr[i]` is filled from the entry at `e`. -/
def fillRecord (m : Store) (r e : Nat) : Store :=
  let m := strcpy m (r + 18) e
  let m := storeLong m (r + 8) (loadLong m (e + 117))
  storeShort m (r + 16) direntSize

structure Dents where
  i : Nat
  numBytes : Nat
  mem : Store

/-- One pass of the loop. -/
def getdentsPass (k : Link) (path len dirp : Nat) (l : Dents) (ind : Nat) : Dents :=
  let e := k.entry ind
  if listsAt l.mem path len e then
    ⟨l.i + 1, l.numBytes + direntSize, fillRecord l.mem (dirp + direntSize * l.i) e⟩
  else l

def sysGetdents (k : Link) (m : Store) (process : Nat) (x : Int) (dirp : Nat) (_count : Int) : Nat × Store :=
  let path := fdAt process x
  let len := strlen m path
  if len > 0 then
    let l := (List.range maxBin).foldl (getdentsPass k path len dirp) ⟨0, 0, m⟩
    (l.numBytes, l.mem)
  else (0, m)

/-! ### `opendir` and `readdir` -/

/-- A `DIR` has `fd` at 0, `size` at 8, `offset` at 16 and `buffer[4000]` at 24. -/
def dirSize : Nat := 4568

/-- `O_DIRECTORY | O_RDONLY` -/
def dirFlags : BitVec 32 := 0x10000

/-- `dirn` is what `malloc` returned. -/
def opendir (k : Link) (m : Store) (process name dirn : Nat) : Nat × Store :=
  let (fd, m) := sysOpen k m process name dirFlags
  if fd ≠ 0 then
    let (numBytes, m) := sysGetdents k m process fd (dirn + 24) 1024
    let m := storeInt m dirn (BitVec.ofInt 32 fd)
    let m := storeLong m (dirn + 8) (widen (BitVec.ofNat 32 numBytes).toInt)
    let m := storeLong m (dirn + 16) 0
    (dirn, m)
  else (0, m)

/-- A field of type `long`. -/
def loadSigned (m : Store) (a : Nat) : Int := (BitVec.ofNat 64 (loadLong m a)).toInt

def readdir (m : Store) (dir : Nat) : Nat × Store :=
  let offset := loadSigned m (dir + 16)
  if offset ≥ loadSigned m (dir + 8) then (0, m)
  else
    let dirn := (dir + 24 + offset).toNat
    (dirn, storeLong m (dir + 16) (widen (offset + loadShort m (dirn + 16))))

/-- The memory after some calls of `readdir`. -/
def readdirs (dir n : Nat) (m : Store) : Store := (fun m => (readdir m dir).2)^[n] m

/-! ### What is asked of them -/

/-- The name goes on after the path. -/
def Extends (path name : List Byte) : Prop := path <+: name ∧ name ≠ path

instance (path name : List Byte) : Decidable (Extends path name) := inferInstanceAs (Decidable (_ ∧ _))

/-- The entries whose names do, in the order of the table. -/
def extending (names : Nat → List Byte) (path : List Byte) : List Nat :=
  (List.range maxBin).filter fun i => Extends path (names i)

/-- The descriptor has the path, and the entries of the table have the names. -/
structure Listable (k : Link) (m : Store) (process : Nat) (x : Int) (names : Nat → List Byte) (path : List Byte) :
    Prop where
  table : Table k m names
  spelled : Spells m (fdAt process x) path
  length_lt : path.length < intMax

/-- A place of the caller: neither the table nor the path is there. -/
structure Apart (k : Link) (process : Nat) (x : Int) (path : List Byte) (a n : Nat) : Prop where
  table : a + n ≤ k.tarfsInd ∨ k.tarfsInd + entrySize * maxBin ≤ a
  stored : a + n ≤ fdAt process x ∨ fdAt process x + (path.length + 1) ≤ a

/-- A whole record for an entry. -/
structure RecordAt (k : Link) (m₀ m : Store) (names : Nat → List Byte) (r i : Nat) : Prop where
  name : Spells m (r + 18) (names i)
  fits : (names i).length < 256
  off : loadLong m (r + 8) = loadLong m₀ (k.entry i + 117)
  reclen : loadShort m (r + 16) = direntSize

/-- Whole records, one after the other, and nothing else is changed. -/
structure Filled (k : Link) (m₀ m : Store) (names : Nat → List Byte) (dirp : Nat) (js : List Nat) : Prop where
  within : Within m₀ m dirp (direntSize * js.length)
  records : ∀ j (hj : j < js.length), RecordAt k m₀ m names (dirp + direntSize * j) js[j]

/-- The call stores whole records inside the first `count` bytes, and returns their size. -/
def Respects (k : Link) (m : Store) (names : Nat → List Byte) (dirp count : Nat) (res : Nat × Store) : Prop :=
  res.1 ≤ count ∧ ∃ js, res.1 = direntSize * js.length ∧ Filled k m res.2 names dirp js

/-- The calls of `readdir` yield the names, one after the other, and then no more. -/
def Yields (m : Store) (dir : Nat) (listed : List (List Byte)) : Prop :=
  ∀ n, match listed[n]? with
    | some name => (readdir (readdirs dir n m) dir).1 ≠ 0 ∧
        Spells (readdirs dir (n + 1) m) ((readdir (readdirs dir n m) dir).1 + 18) name
    | none => (readdir (readdirs dir n m) dir).1 = 0

/-! ### The loop -/

section
variable {k : Link} {m₀ m : Store} {process dirp room e r i : Nat} {x : Int} {names : Nat → List Byte}
  {path name : List Byte} {js : List Nat} {l : Dents}

/-- The tests of the loop pick the names that go on. -/
theorem listsAt_iff {a : Nat} (hp : Spells m a path) (hn : Spells m e name) (hlen : name.length < intMax) :
    listsAt m a path.length e = true ↔ Extends path name := by
  unfold listsAt Extends
  rw [Bool.and_eq_true, Bool.and_eq_true, beq_iff_eq, bne_iff_ne, decide_eq_true_iff, strncmp_isPrefix hp hn,
    strlen_spells hn hlen, and_assoc]
  refine and_congr_right ?_
  rintro ⟨rest, rfl⟩
  have hrest := spells_append hn
  cases rest with
  | nil =>
    have hzero := spells_nil hrest
    simp [hzero]
  | cons b rest =>
    obtain ⟨hb, hne, _⟩ := spells_cons hrest
    rw [hb]
    simpa using hne

/-- The stores of a record. -/
theorem fillRecord_eq (hn : Spells m e name) (hlen : name.length ≤ 99) (hd : r + direntSize ≤ e ∨ e + entrySize ≤ r) :
    fillRecord m r e =
      put (put (put m (r + 18) (name ++ [0])) (r + 8) (toLE 8 (loadLong m (e + 117)))) (r + 16) (toLE 2 direntSize) := by
  have hzlen : (name ++ [0]).length = name.length + 1 := by rw [List.length_append]; rfl
  unfold direntSize entrySize at hd
  have hcopy : strcpy m (r + 18) e = put m (r + 18) (name ++ [0]) :=
    strcpy_spells hn (by unfold intMax; omega) (by omega)
  have hlong : loadLong (put m (r + 18) (name ++ [0])) (e + 117) = loadLong m (e + 117) :=
    loadLong_congr (put_agree m _ (by omega))
  unfold fillRecord
  dsimp only
  rw [hcopy, hlong]
  rfl

theorem fillRecord_within (hn : Spells m e name) (hlen : name.length ≤ 99)
    (hd : r + direntSize ≤ e ∨ e + entrySize ≤ r) : Within m (fillRecord m r e) r direntSize := by
  have hzlen : (name ++ [0]).length = name.length + 1 := by rw [List.length_append]; rfl
  have h8 : (toLE 8 (loadLong m (e + 117))).length = 8 := length_toLE ..
  have h2 : (toLE 2 direntSize).length = 2 := length_toLE ..
  have hstore : ∀ (t : Store) (a : Nat) (bytes : List Byte), r ≤ a → a + bytes.length ≤ r + direntSize →
      Within t (put t a bytes) r direntSize := fun t a bytes hlo hhi => put_within t bytes hlo hhi
  rw [fillRecord_eq hn hlen hd]
  unfold direntSize at *
  refine (hstore _ _ _ ?_ ?_).trans ((hstore _ _ _ ?_ ?_).trans (hstore _ _ _ ?_ ?_)) <;> omega

theorem fillRecord_record (hn : Spells m (k.entry i) (names i)) (hlen : (names i).length ≤ 99)
    (hd : r + direntSize ≤ k.entry i ∨ k.entry i + entrySize ≤ r) :
    RecordAt k m (fillRecord m r (k.entry i)) names r i := by
  have hzlen : (names i ++ [0]).length = (names i).length + 1 := by rw [List.length_append]; rfl
  have h8 : (toLE 8 (loadLong m (k.entry i + 117))).length = 8 := length_toLE ..
  have h2 : (toLE 2 direntSize).length = 2 := length_toLE ..
  rw [fillRecord_eq hn hlen hd]
  constructor
  · have hname : Holds (put m (r + 18) (names i ++ [0])) (r + 18) (names i ++ [0]) := put_holds m _ _
    exact ⟨hname.congr ((put_agree _ _ (by omega)).trans (put_agree _ _ (by omega))), hn.2⟩
  · omega
  · have hoff : Holds _ (r + 8) (toLE 8 (loadLong m (k.entry i + 117))) :=
      put_holds (put m (r + 18) (names i ++ [0])) (r + 8) _
    exact holds_loadLong (hoff.congr (put_agree _ _ (by omega))) (loadLong_lt m _)
  · have hlen : Holds _ (r + 16) (toLE 2 direntSize) :=
      put_holds (put (put m (r + 18) (names i ++ [0])) (r + 8) (toLE 8 (loadLong m (k.entry i + 117)))) (r + 16) _
    rw [Holds, h2] at hlen
    rw [loadShort, hlen]
    rfl

theorem RecordAt.congr {m' : Store} (h : RecordAt k m₀ m names r i) (ha : Agree m m' r direntSize) :
    RecordAt k m₀ m' names r i := by
  have hfits := h.fits
  unfold direntSize at ha
  refine ⟨h.name.congr (ha.mono (by omega) (by omega)), hfits, ?_, ?_⟩
  · rw [loadLong_congr (ha.mono (by omega) (by omega))]
    exact h.off
  · rw [loadShort, fetch_congr (ha.mono (by omega) (by omega))]
    exact h.reclen

theorem entry_inside (hi : i < maxBin) : k.tarfsInd ≤ k.entry i ∧ k.entry i + entrySize ≤ k.tarfsInd + entrySize * maxBin := by
  unfold Link.entry entrySize maxBin at *
  omega

/-- Records in a place of the caller leave the table and the path as they are. -/
theorem Filled.listable (hf : Filled k m₀ m names dirp js) (h : Listable k m₀ process x names path)
    (ha : Apart k process x path dirp room) (hroom : direntSize * js.length ≤ room) :
    Listable k m process x names path where
  table :=
    { entries := fun i hi => by
        have hlen := h.table.length_le i hi
        have hin := entry_inside (k := k) hi
        have hapart := ha.table
        unfold entrySize maxBin at hin hapart
        exact (h.table.entries i hi).congr (hf.within.agree (by omega))
      length_le := h.table.length_le }
  spelled := by
    have hapart := ha.stored
    exact h.spelled.congr (hf.within.agree (by omega))
  length_lt := h.length_lt

/-- One record more. -/
theorem Filled.add (hf : Filled k m₀ m names dirp js) (h : Listable k m₀ process x names path)
    (ha : Apart k process x path dirp room) (hroom : direntSize * (js.length + 1) ≤ room) (hi : i < maxBin) :
    Filled k m₀ (fillRecord m (dirp + direntSize * js.length) (k.entry i)) names dirp (js ++ [i]) := by
  have hmul : direntSize * (js.length + 1) = direntSize * js.length + direntSize := Nat.mul_succ ..
  have hnow := hf.listable h ha (by omega)
  have hname := hnow.table.entries i hi
  have hlen := hnow.table.length_le i hi
  have hin := entry_inside (k := k) hi
  have hapart := ha.table
  have hd : dirp + direntSize * js.length + direntSize ≤ k.entry i ∨
      k.entry i + entrySize ≤ dirp + direntSize * js.length := by omega
  have hrec := fillRecord_within hname hlen hd
  constructor
  · rw [List.length_append, List.length_singleton, hmul]
    exact (hf.within.mono (by omega) (by omega)).trans (hrec.mono (by omega) (by omega))
  · intro j hj
    obtain hold | rfl : j < js.length ∨ j = js.length := by
      rw [List.length_append, List.length_singleton] at hj
      omega
    · have hbelow : direntSize * j + direntSize ≤ direntSize * js.length := by
        rw [← Nat.mul_succ]
        exact Nat.mul_le_mul_left _ hold
      rw [List.getElem_append_left hold]
      exact (hf.records j hold).congr (hrec.agree (Or.inl (by omega)))
    · have hnew := fillRecord_record hname hlen hd
      have hentry : loadLong m (k.entry i + 117) = loadLong m₀ (k.entry i + 117) := by
        unfold entrySize maxBin at hin hapart
        exact loadLong_congr (hf.within.agree (by omega))
      rw [List.getElem_concat_length rfl]
      exact {hnew with off := hnew.off.trans hentry}

/-- Where the loop is, when it has stored the records of some entries. -/
structure Listed (k : Link) (m₀ : Store) (names : Nat → List Byte) (dirp : Nat) (l : Dents) (js : List Nat) : Prop where
  index : l.i = js.length
  bytes : l.numBytes = direntSize * js.length
  filled : Filled k m₀ l.mem names dirp js

theorem getdentsPass_skips (hl : Listed k m₀ names dirp l js) (h : Listable k m₀ process x names path)
    (ha : Apart k process x path dirp room) (hroom : direntSize * js.length ≤ room) (hi : i < maxBin)
    (hno : ¬ Extends path (names i)) : getdentsPass k (fdAt process x) path.length dirp l i = l := by
  have hnow := hl.filled.listable h ha hroom
  have hlen := hnow.table.length_le i hi
  have htest := listsAt_iff hnow.spelled (hnow.table.entries i hi) (by unfold intMax; omega)
  exact if_neg (mt htest.mp hno)

theorem getdentsPass_stores (hl : Listed k m₀ names dirp l js) (h : Listable k m₀ process x names path)
    (ha : Apart k process x path dirp room) (hroom : direntSize * js.length ≤ room) (hi : i < maxBin)
    (hyes : Extends path (names i)) :
    getdentsPass k (fdAt process x) path.length dirp l i =
      ⟨js.length + 1, direntSize * (js.length + 1), fillRecord l.mem (dirp + direntSize * js.length) (k.entry i)⟩ := by
  have hnow := hl.filled.listable h ha hroom
  have hlen := hnow.table.length_le i hi
  have htest := listsAt_iff hnow.spelled (hnow.table.entries i hi) (by unfold intMax; omega)
  unfold getdentsPass
  dsimp only
  rw [if_pos (htest.mpr hyes), hl.index, hl.bytes]
  rfl

/-- A pass over an entry that goes on adds its record, if there is room for it. -/
theorem Listed.pass (hl : Listed k m₀ names dirp l js) (h : Listable k m₀ process x names path)
    (ha : Apart k process x path dirp room) (hroom : direntSize * (js.length + 1) ≤ room) (hi : i < maxBin)
    (hyes : Extends path (names i)) :
    Listed k m₀ names dirp (getdentsPass k (fdAt process x) path.length dirp l i) (js ++ [i]) := by
  have hlen : (js ++ [i]).length = js.length + 1 := by rw [List.length_append]; rfl
  have hnow : direntSize * js.length ≤ room := (Nat.mul_le_mul_left _ (Nat.le_succ _)).trans hroom
  rw [getdentsPass_stores hl h ha hnow hi hyes]
  exact ⟨hlen.symm, by rw [hlen], hl.filled.add h ha hroom hi⟩

/-- If there is room for all of them, the loop stores the records of the entries that go on. -/
theorem getdents_fills (h : Listable k m₀ process x names path) (ha : Apart k process x path dirp room)
    (is : List Nat) (his : ∀ i ∈ is, i < maxBin) (l : Dents) (js : List Nat) (hl : Listed k m₀ names dirp l js)
    (hroom : direntSize * (js.length + (is.filter fun i => Extends path (names i)).length) ≤ room) :
    Listed k m₀ names dirp (is.foldl (getdentsPass k (fdAt process x) path.length dirp) l)
      (js ++ is.filter fun i => Extends path (names i)) := by
  induction is generalizing l js with
  | nil =>
    rw [List.filter_nil, List.append_nil]
    exact hl
  | cons i is ih =>
    have hi := his i (List.mem_cons_self ..)
    have hrest : ∀ i ∈ is, i < maxBin := fun j hj => his j (List.mem_cons_of_mem _ hj)
    rw [List.foldl_cons]
    by_cases hext : Extends path (names i)
    · have hcons := List.filter_cons_of_pos (p := fun i => decide (Extends path (names i))) (l := is) (by simpa using hext)
      rw [hcons, List.length_cons] at hroom
      have hone : direntSize * (js.length + 1) ≤ room := (Nat.mul_le_mul_left _ (by omega)).trans hroom
      rw [hcons, List.append_cons]
      refine ih hrest _ (js ++ [i]) (hl.pass h ha hone hi hext) ?_
      rw [List.length_append, List.length_singleton, Nat.add_assoc, Nat.add_comm 1]
      exact hroom
    · have hcons := List.filter_cons_of_neg (p := fun i => decide (Extends path (names i))) (l := is) (by simpa using hext)
      have hnow : direntSize * js.length ≤ room := (Nat.mul_le_mul_left _ (Nat.le_add_right ..)).trans hroom
      rw [hcons] at hroom ⊢
      rw [getdentsPass_skips hl h ha hnow hi hext]
      exact ih hrest l js hl hroom

theorem getdents_grows (path len dirp : Nat) (is : List Nat) (l : Dents) :
    l.numBytes ≤ (is.foldl (getdentsPass k path len dirp) l).numBytes := by
  induction is generalizing l with
  | nil => exact Nat.le_refl _
  | cons i is ih =>
    refine Nat.le_trans ?_ (ih _)
    unfold getdentsPass
    dsimp only
    split
    · exact Nat.le_add_right ..
    · exact Nat.le_refl _

/-- If there is not, the size comes to more than the room. -/
theorem getdents_overruns (h : Listable k m₀ process x names path) (ha : Apart k process x path dirp room)
    (is : List Nat) (his : ∀ i ∈ is, i < maxBin) (l : Dents) (js : List Nat) (hl : Listed k m₀ names dirp l js)
    (hnow : direntSize * js.length ≤ room)
    (hroom : room < direntSize * (js.length + (is.filter fun i => Extends path (names i)).length)) :
    room < (is.foldl (getdentsPass k (fdAt process x) path.length dirp) l).numBytes := by
  induction is generalizing l js with
  | nil =>
    rw [List.filter_nil, List.length_nil, Nat.add_zero] at hroom
    omega
  | cons i is ih =>
    have hi := his i (List.mem_cons_self ..)
    have hrest : ∀ i ∈ is, i < maxBin := fun j hj => his j (List.mem_cons_of_mem _ hj)
    rw [List.foldl_cons]
    by_cases hext : Extends path (names i)
    · by_cases hone : direntSize * (js.length + 1) ≤ room
      · refine ih hrest _ (js ++ [i]) (hl.pass h ha hone hi hext) ?_ ?_
        · rw [List.length_append]
          exact hone
        · rw [List.filter_cons_of_pos (by simpa using hext), List.length_cons] at hroom
          rw [List.length_append, List.length_singleton, Nat.add_assoc, Nat.add_comm 1]
          exact hroom
      · -- the record that does not fit is counted
        have hgrows := getdents_grows (k := k) (fdAt process x) path.length dirp is
          (getdentsPass k (fdAt process x) path.length dirp l i)
        rw [getdentsPass_stores hl h ha hnow hi hext] at hgrows ⊢
        exact Nat.lt_of_lt_of_le (Nat.lt_of_not_le hone) hgrows
    · rw [List.filter_cons_of_neg (by simpa using hext)] at hroom
      rw [getdentsPass_skips hl h ha hnow hi hext]
      exact ih hrest l js hl hnow hroom

/-! ### The size of the buffer -/

theorem Listed.start (k : Link) (m : Store) (names : Nat → List Byte) (dirp : Nat) : Listed k m names dirp ⟨0, 0, m⟩ [] :=
  ⟨rfl, rfl, fun _ _ => rfl, fun _ hj => absurd hj (Nat.not_lt_zero _)⟩

/-- A path that is empty lists nothing. -/
theorem sysGetdents_empty (h : Listable k m process x names []) (dirp : Nat) (count : Int) :
    sysGetdents k m process x dirp count = (0, m) := by
  unfold sysGetdents
  dsimp only
  rw [strlen_spells h.spelled h.length_lt]
  rfl

theorem sysGetdents_eq (h : Listable k m process x names path) (hne : path ≠ []) (dirp : Nat) (count : Int) :
    sysGetdents k m process x dirp count =
      (((List.range maxBin).foldl (getdentsPass k (fdAt process x) path.length dirp) ⟨0, 0, m⟩).numBytes,
        ((List.range maxBin).foldl (getdentsPass k (fdAt process x) path.length dirp) ⟨0, 0, m⟩).mem) := by
  unfold sysGetdents
  dsimp only
  rw [strlen_spells h.spelled h.length_lt, if_pos (List.length_pos_iff.mpr hne)]

/-- With room for the records of the entries that go on, these are stored. -/
theorem sysGetdents_filled (h : Listable k m process x names path) (hne : path ≠ [])
    (ha : Apart k process x path dirp room) (hroom : direntSize * (extending names path).length ≤ room) (count : Int) :
    (sysGetdents k m process x dirp count).1 = direntSize * (extending names path).length ∧
      Filled k m (sysGetdents k m process x dirp count).2 names dirp (extending names path) := by
  have hrun := getdents_fills h ha (List.range maxBin) (fun i hi => List.mem_range.mp hi) ⟨0, 0, m⟩ []
    (Listed.start k m names dirp) (by rw [List.length_nil, Nat.zero_add]; exact hroom)
  rw [List.nil_append] at hrun
  rw [sysGetdents_eq h hne]
  exact ⟨hrun.bytes, hrun.filled⟩

/-- The buffer is respected just when the records of all the entries that go on fit into it. -/
theorem getdents_respects_iff (k : Link) (m : Store) (process : Nat) (x : Int) (names : Nat → List Byte)
    (path : List Byte) (dirp count : Nat) (h : Listable k m process x names path)
    (ha : Apart k process x path dirp count) :
    Respects k m names dirp count (sysGetdents k m process x dirp count) ↔
      path = [] ∨ direntSize * (extending names path).length ≤ count := by
  by_cases hne : path = []
  · subst hne
    rw [sysGetdents_empty h]
    have hstart := Listed.start k m names dirp
    exact iff_of_true ⟨Nat.zero_le _, [], rfl, hstart.filled⟩ (Or.inl rfl)
  · rw [or_iff_right hne]
    constructor
    · intro hresp
      by_contra hc
      have hover := getdents_overruns h ha (List.range maxBin) (fun i hi => List.mem_range.mp hi) ⟨0, 0, m⟩ []
        (Listed.start k m names dirp) (Nat.zero_le _)
        (by rw [List.length_nil, Nat.zero_add]; exact Nat.lt_of_not_le hc)
      have hle := hresp.1
      rw [sysGetdents_eq h hne] at hle
      exact absurd hle (Nat.not_le_of_lt hover)
    · intro hroom
      obtain ⟨hbytes, hfilled⟩ := sysGetdents_filled h hne ha hroom count
      exact ⟨hbytes.trans_le hroom, _, hbytes, hfilled⟩

/-! ### The round trip -/

theorem loadSigned_storeLong (m : Store) (a : Nat) {v : Nat} (hv : v < 2 ^ 63) : loadSigned (storeLong m a v) a = v := by
  have hnat : (BitVec.ofNat 64 v).toNat = v := by
    rw [BitVec.toNat_ofNat]
    omega
  rw [loadSigned, loadLong_storeLong _ _ (by omega), BitVec.toInt_eq_toNat_of_lt (by omega), hnat]

theorem loadSigned_congr {m' : Store} {a : Nat} (h : Agree m m' a 8) : loadSigned m' a = loadSigned m a := by
  rw [loadSigned, loadLong_congr h]
  rfl

theorem widen_nat {n : Nat} (h : n < 2 ^ 64) : widen n = n := by
  unfold widen
  omega

/-- The number of records that `buffer` has room for. -/
def maxRecords : Nat := 14

/-- A `DIR` of which `n` records have been read. -/
structure DirAt (k : Link) (m₀ m : Store) (names : Nat → List Byte) (dirn : Nat) (js : List Nat) (n : Nat) : Prop where
  few : js.length ≤ maxRecords
  size : loadSigned m (dirn + 8) = direntSize * js.length
  offset : loadSigned m (dirn + 16) = direntSize * n
  records : ∀ j (hj : j < js.length), RecordAt k m₀ m names (dirn + 24 + direntSize * j) js[j]

variable {dirn n : Nat}

theorem DirAt.readdir_next (h : DirAt k m₀ m names dirn js n) (hn : n < js.length) :
    (readdir m dirn).1 = dirn + 24 + direntSize * n ∧ DirAt k m₀ (readdir m dirn).2 names dirn js (n + 1) := by
  have hfew := h.few
  have hnot : ¬ loadSigned m (dirn + 16) ≥ loadSigned m (dirn + 8) := by
    rw [h.size, h.offset]
    unfold direntSize
    omega
  have haddr : ((dirn : Int) + 24 + loadSigned m (dirn + 16)).toNat = dirn + 24 + direntSize * n := by
    rw [h.offset]
    omega
  have hnext : widen (loadSigned m (dirn + 16) + loadShort m (dirn + 24 + direntSize * n + 16)) = direntSize * (n + 1) := by
    have hsum : (direntSize : Int) * n + direntSize = (direntSize * (n + 1) : Nat) := by
      push_cast
      ring
    rw [h.offset, (h.records n hn).reclen, hsum, widen_nat (by unfold direntSize maxRecords at *; omega)]
  have hres : readdir m dirn = (dirn + 24 + direntSize * n, storeLong m (dirn + 16) (direntSize * (n + 1))) := by
    unfold readdir
    dsimp only
    rw [if_neg hnot, haddr, hnext]
  have h8 : (toLE 8 (direntSize * (n + 1))).length = 8 := length_toLE ..
  rw [hres]
  refine ⟨rfl, hfew, ?_, ?_, fun j hj => (h.records j hj).congr (put_agree _ _ (by omega))⟩
  · rw [storeLong, loadSigned_congr (put_agree m _ (by omega))]
    exact h.size
  · have hsmall : direntSize * (n + 1) < 2 ^ 63 := by
      unfold direntSize maxRecords at *
      omega
    rw [loadSigned_storeLong _ _ hsmall]
    rfl

theorem DirAt.readdir_end (h : DirAt k m₀ m names dirn js js.length) : readdir m dirn = (0, m) := by
  unfold readdir
  dsimp only
  rw [if_pos (by rw [h.size, h.offset])]

theorem readdirs_succ (dirn n : Nat) (m : Store) : readdirs dirn (n + 1) m = (readdir (readdirs dirn n m) dirn).2 :=
  Function.iterate_succ_apply' ..

theorem DirAt.readdirs (h : DirAt k m₀ m names dirn js 0) (n : Nat) :
    DirAt k m₀ (readdirs dirn n m) names dirn js (min n js.length) := by
  induction n with
  | zero =>
    rw [Nat.zero_min]
    exact h
  | succ n ih =>
    rw [readdirs_succ]
    by_cases hn : n < js.length
    · rw [Nat.min_eq_left hn.le] at ih
      rw [Nat.min_eq_left hn]
      exact (ih.readdir_next hn).2
    · rw [Nat.min_eq_right (Nat.le_of_not_lt hn)] at ih
      rw [Nat.min_eq_right (by omega), ih.readdir_end]
      exact ih

/-- What is in the buffer comes out again. -/
theorem DirAt.yields (h : DirAt k m₀ m names dirn js 0) : Yields m dirn (js.map names) := by
  intro n
  have hnow := h.readdirs n
  rw [List.getElem?_map]
  by_cases hn : n < js.length
  · rw [Nat.min_eq_left hn.le] at hnow
    obtain ⟨hres, hnext⟩ := hnow.readdir_next hn
    rw [List.getElem?_eq_getElem hn, readdirs_succ, hres]
    exact ⟨by omega, (hnext.records n hn).name⟩
  · rw [Nat.min_eq_right (Nat.le_of_not_lt hn)] at hnow
    rw [List.getElem?_eq_none (Nat.le_of_not_lt hn), hnow.readdir_end]
    rfl

/-- The fields that `opendir` fills once the records are there. -/
theorem Filled.dirAt (h : Filled k m₀ m names (dirn + 24) js) (hfew : js.length ≤ maxRecords) (fd : BitVec 32) :
    DirAt k m₀ (storeLong (storeLong (storeInt m dirn fd) (dirn + 8) (widen (BitVec.ofNat 32 (direntSize * js.length)).toInt))
      (dirn + 16) 0) names dirn js 0 := by
  have hsmall : direntSize * js.length < 2 ^ 31 := by
    unfold direntSize maxRecords at *
    omega
  rw [toInt_small hsmall, widen_nat (by omega)]
  have h4 : (toLE 4 fd.toNat).length = 4 := length_toLE ..
  have h8 : ∀ v, (toLE 8 v).length = 8 := length_toLE 8
  refine ⟨hfew, ?_, loadSigned_storeLong _ _ (by decide), fun j hj => (h.records j hj).congr ?_⟩
  · have hkept : ∀ t : Store, Agree t (storeLong t (dirn + 16) 0) (dirn + 8) 8 :=
      fun t => put_agree t _ (by rw [h8]; omega)
    rw [loadSigned_congr (hkept _), loadSigned_storeLong _ _ (by omega)]
    push_cast
    rfl
  · refine (put_agree m _ ?_).trans ((put_agree _ _ ?_).trans (put_agree _ _ ?_))
    · omega
    · rw [h8]
      omega
    · rw [h8]
      omega

theorem Apart.mono (h : Apart k process x path dirn room) {a n : Nat} (hlo : dirn ≤ a) (hhi : a + n ≤ dirn + room) :
    Apart k process x path a n := by
  obtain ⟨htable, hstored⟩ := h
  exact ⟨by omega, by omega⟩

/-- A directory whose descriptor has a path, with at most as many entries under it as the buffer
holds: the calls of `readdir` yield the names of these, in the order of the table. -/
theorem listing_round_trip (k : Link) (m m₁ : Store) (process name dirn : Nat) (fd : Int) (names : Nat → List Byte)
    (path : List Byte) (hopen : sysOpen k m process name dirFlags = (fd, m₁)) (hfd : fd ≠ 0)
    (h : Listable k m₁ process fd names path) (hne : path ≠ []) (ha : Apart k process fd path dirn dirSize)
    (hfew : (extending names path).length ≤ maxRecords) :
    (opendir k m process name dirn).1 = dirn ∧
      Yields (opendir k m process name dirn).2 dirn ((extending names path).map names) := by
  have hroom : direntSize * (extending names path).length ≤ 4000 := by
    unfold direntSize maxRecords at *
    omega
  have hbuffer : Apart k process fd path (dirn + 24) 4000 := ha.mono (by omega) (by unfold dirSize; omega)
  obtain ⟨hbytes, hfilled⟩ := sysGetdents_filled h hne hbuffer hroom 1024
  unfold opendir
  rw [hopen]
  dsimp only
  rw [if_pos hfd, hbytes]
  exact ⟨rfl, (hfilled.dirAt hfew _).yields⟩

/-- A path that is empty yields nothing. -/
theorem opendir_empty {m₁ : Store} {name : Nat} {fd : Int} (hopen : sysOpen k m process name dirFlags = (fd, m₁))
    (hfd : fd ≠ 0) (h : Listable k m₁ process fd names []) : Yields (opendir k m process name dirn).2 dirn [] := by
  have hfilled : Filled k m₁ m₁ names (dirn + 24) [] := (Listed.start k m₁ names (dirn + 24)).filled
  unfold opendir
  rw [hopen]
  dsimp only
  rw [if_pos hfd, sysGetdents_empty h]
  exact (hfilled.dirAt (Nat.zero_le _) _).yields

/-- What `sys_open` leaves behind, for a name that fits. -/
theorem Call.listable {fileName fdCnt : Nat} {query : List Byte} (h : Call k m process fileName query names fdCnt)
    (hi : First query names i) (hlen : (names i).length < 32) (flags : BitVec 32) :
    ∃ m₁, sysOpen k m process fileName flags = ((fdCnt + 1 : Int), m₁) ∧
      Listable k m₁ process (fdCnt + 1) names (names i) := by
  obtain ⟨hopened, hret⟩ := openEntry_opened (h.placed hi.1) (h.entries i hi.1) (h.length_le i hi.1) h.handed h.room rfl
    ⟨by omega, fun j _ hj => by omega⟩ flags
  refine ⟨_, ?_, ⟨fun j hj => ?_, h.length_le⟩, hopened.path, by unfold intMax; omega⟩
  · rw [h.sysOpen_first hi, hret]
  · have hshort := h.length_le j hj
    have hroom := h.room
    have hapart := h.apart
    have hin := entry_inside (k := k) hj
    refine (h.entries j hj).congr fun x hx hlt => hopened.others x ?_ ?_ ?_
    · exact entry_gap (k := k) hx (by omega)
    · unfold taskSize entrySize maxBin fdCntAt at *
      omega
    · unfold taskSize entrySize maxBin fdAt at *
      omega

end

/-! ### A small table -/

/-- The table with `bin/` and `bin/tools/`, a task at 65536 with two descriptors handed out, and the
name asked for at 131072. -/
def listingStore (query : List Byte) : Store :=
  put (put dirsStore (65536 + 6232) (toLE 4 2)) 131072 (query ++ [0])

/-- "bin/ls" -/
def lsName : List Byte := binName ++ [slash, 0x6c, 0x73]

/-- The third entry is `bin/ls`. -/
def binStore : Store := put (listingStore binName) (4096 + 250) lsName

def binNames (i : Nat) : List Byte := if i = 2 then lsName else dirsNames i

theorem bin_call : Call smallLink binStore 65536 131072 binName binNames 2 where
  asks := by decide +kernel
  length_lt := by decide
  entries := by decide +kernel
  length_le := by decide +kernel
  handed := by decide +kernel
  room := by decide
  apart := Or.inl (by decide)

theorem bin_first : First binName binNames 0 := ⟨by decide, Or.inr rfl, fun j hj => absurd hj (Nat.not_lt_zero _)⟩

/-- `opendir("bin")` yields `bin/tools/` and then `bin/ls`. -/
theorem listing_round_trip_bin :
    Yields (opendir smallLink binStore 65536 131072 200000).2 200000 [toolsName ++ [slash], lsName] := by
  obtain ⟨m₁, hopen, h⟩ := bin_call.listable bin_first (by decide) dirFlags
  have hlist : extending binNames (binNames 0) = [1, 2] := by decide +kernel
  have hapart : Apart smallLink 65536 3 (binNames 0) 200000 dirSize := ⟨Or.inr (by decide), Or.inr (by decide)⟩
  have htrip := listing_round_trip smallLink binStore m₁ 65536 131072 200000 3 binNames (binNames 0) hopen
    (by decide) h (by decide) hapart (by rw [hlist]; decide)
  rw [hlist] at htrip
  exact htrip.2

theorem empty_call : Call smallLink (listingStore []) 65536 131072 [] dirsNames 2 where
  asks := by decide +kernel
  length_lt := by decide
  entries := by decide +kernel
  length_le := by decide +kernel
  handed := by decide +kernel
  room := by decide
  apart := Or.inl (by decide)

/-- `opendir("")` opens an entry that is not used, and nothing is listed although every name in the
table goes on after the empty path. -/
theorem empty_path_lists_nothing :
    ∃ (m₁ : Store), sysOpen smallLink (listingStore []) 65536 131072 dirFlags = (3, m₁) ∧
      Listable smallLink m₁ 65536 3 dirsNames [] ∧ Apart smallLink 65536 3 [] 200000 dirSize ∧
      (extending dirsNames []).length ≤ maxRecords ∧
      ¬ Yields (opendir smallLink (listingStore []) 65536 131072 200000).2 200000 ((extending dirsNames []).map dirsNames) := by
  have hfirst : First [] dirsNames 2 := ⟨by decide, Or.inl rfl, by decide⟩
  obtain ⟨m₁, hopen, h⟩ := empty_call.listable hfirst (by decide) dirFlags
  have hlist : (extending dirsNames []).map dirsNames = [binName ++ [slash], toolsName ++ [slash]] := by decide +kernel
  refine ⟨m₁, hopen, h, ⟨Or.inr (by decide), Or.inr (by decide)⟩, by decide +kernel, fun hy => ?_⟩
  rw [hlist] at hy
  have hnone : Yields (opendir smallLink (listingStore []) 65536 131072 200000).2 200000 [] :=
    opendir_empty hopen (by decide) h
  exact (hy 0).1 (hnone 0)

/-- A descriptor on `bin/`, in slot 3 of the task. -/
def descriptorStore : Store := put dirsStore (fdAt 65536 3) (binName ++ [slash, 0])

theorem descriptor_listable : Listable smallLink descriptorStore 65536 3 dirsNames (binName ++ [slash]) where
  table := ⟨by decide +kernel, by decide +kernel⟩
  spelled := by decide +kernel
  length_lt := by decide

theorem descriptor_apart (count : Nat) : Apart smallLink 65536 3 (binName ++ [slash]) 200000 count :=
  ⟨Or.inr (by decide), Or.inr (by decide)⟩

/-- One record, and room for it. -/
theorem getdents_respects_one : Respects smallLink descriptorStore dirsNames 200000 280
    (sysGetdents smallLink descriptorStore 65536 3 200000 280) :=
  (getdents_respects_iff smallLink descriptorStore 65536 3 dirsNames _ 200000 280 descriptor_listable
    (descriptor_apart 280)).mpr (Or.inr (by decide +kernel))

/-- One record of 280 bytes, in a buffer of 100. -/
theorem getdents_overruns_buffer :
    Listable smallLink descriptorStore 65536 3 dirsNames (binName ++ [slash]) ∧
    Apart smallLink 65536 3 (binName ++ [slash]) 200000 100 ∧
    (sysGetdents smallLink descriptorStore 65536 3 200000 100).1 = 280 ∧
    ¬ Respects smallLink descriptorStore dirsNames 200000 100 (sysGetdents smallLink descriptorStore 65536 3 200000 100) := by
  have hret : (sysGetdents smallLink descriptorStore 65536 3 200000 100).1 = 280 := by decide +kernel
  refine ⟨descriptor_listable, descriptor_apart 100, hret, fun hresp => ?_⟩
  have hle := hresp.1
  rw [hret] at hle
  exact absurd hle (by decide)

end Sbnix.Files.Raw
