import Sbnix.Files.Strings

/-! The archive index (`sys/tarfs.c`, lines 8 to 30, and `sys/tarfs.h`).

The archive is linked into the kernel image between `_binary_tarfs_start` and
`_binary_tarfs_end`. `tarfs_initialize` goes from header to header and fills one
entry of `tarfs_ind` for each. The entries are written into kernel memory byte by
byte, packed: a string that is too long for its field runs into the next one, and
an entry past the fortieth runs into whatever follows the table.

`Record` is a header with what it announces, `Member` a file or a directory, and
`image` an archive: members and then zero blocks. -/
namespace Sbnix.Files
open Library Library.Store

def maxBin : Nat := 40

/-- `struct tarfs`. -/
structure Entry where
  name : List Byte
  fileSize : Int
  typeflag : Byte
  refCnt : Int
  tarfsStartAddr : Nat
  binStartAddr : Nat
  deriving DecidableEq, Repr

def entrySize : Nat := 125

def loadInt (m : Store) (a : Nat) : Int := (BitVec.ofNat 32 (ofLE (fetch m a 4))).toInt
def loadLong (m : Store) (a : Nat) : Nat := ofLE (fetch m a 8)
def storeInt (m : Store) (a : Nat) (v : BitVec 32) : Store := put m a (toLE 4 v.toNat)
def storeLong (m : Store) (a : Nat) (v : Nat) : Store := put m a (toLE 8 v)

/-- The entry at an address: `name[100]`, `file_size`, `typeflag[1]`, `ref_cnt` and
the two addresses, packed. -/
def entryAt (m : Store) (e : Nat) : Entry where
  name := cString m e
  fileSize := loadInt m (e + 100)
  typeflag := m (e + 104)
  refCnt := loadInt m (e + 105)
  tarfsStartAddr := loadLong m (e + 109)
  binStartAddr := loadLong m (e + 117)

/-- Where the linker put the table and the archive. -/
structure Link where
  tarfsInd : Nat
  start : Nat
  stop : Nat

/-- `tarfs_str + k`, for a pointer to headers of 512 bytes. -/
def advance (p : Nat) (k : Int) : Nat := ((p + 512 * k) % 2 ^ 64).toNat

/-- What a pass writes from the header: in the header the name is at 0, the size at
124 and the type flag at 156, where the copy goes on into the link name. -/
def fillHeader (m : Store) (e tarfsStr : Nat) : Store :=
  let m := strcpy m e tarfsStr
  let m := storeInt m (e + 105) 0
  let m := storeInt m (e + 100) (atoo m (tarfsStr + 124))
  strcpy m (e + 104) (tarfsStr + 156)

/-- What a pass writes of the places of the header and of the content. -/
def fillAddrs (m : Store) (e tarfsStr bin : Nat) : Store :=
  storeLong (storeLong m (e + 109) tarfsStr) (e + 117) bin

structure Loop where
  mem : Store
  tarfsStr : Nat
  ind : Nat

namespace Link

/-- `&tarfs_ind[ind]` -/
def entry (k : Link) (ind : Nat) : Nat := k.tarfsInd + entrySize * ind

/-- One pass of the loop. -/
def pass (k : Link) (l : Loop) : Loop :=
  let e := k.entry l.ind
  let bin := advance l.tarfsStr 1
  let m := fillAddrs (fillHeader l.mem e l.tarfsStr) e l.tarfsStr bin
  let fileSize := loadInt m (e + 100)
  let blocks := if fileSize.tmod 512 = 0 then fileSize.tdiv 512 else fileSize.tdiv 512 + 1
  ⟨m, advance bin blocks, l.ind + 1⟩

def loop (k : Link) : Nat → Loop → Option Loop
  | 0, _ => none
  | fuel + 1, l => if l.tarfsStr < k.stop then loop k fuel (k.pass l) else some l

def tarfsInitialize (k : Link) (m : Store) (fuel : Nat) : Option Loop := k.loop fuel ⟨m, k.start, 0⟩

/-- The loop comes to a pass number `i`, counted from 0: the test has succeeded
before it and before every pass until it. -/
def Makes (k : Link) (m : Store) (i : Nat) : Prop :=
  ∀ j ≤ i, (k.pass^[j] ⟨m, k.start, 0⟩).tarfsStr < k.stop

/-- The index that pass number `i` writes at. -/
def indexAt (k : Link) (m : Store) (i : Nat) : Nat := (k.pass^[i] ⟨m, k.start, 0⟩).ind

end Link

/-! ### Archives -/

/-- A header of 512 bytes and the content it announces, padded to whole blocks. -/
structure Record where
  header : List Byte
  name : List Byte
  digits : List (Fin 8)
  flag : Byte
  content : List Byte
  padding : List Byte
  header_length : header.length = 512
  name_length : name.length ≤ 99
  name_ends : (0 : Byte) ∉ name
  name_at : name ++ [0] <+: header
  digits_length : digits.length ≤ 11
  digits_at : digits.map octalChar ++ [0] <+: header.drop 124
  size_eq : octal digits = content.length
  size_lt : content.length < 2 ^ 31
  flag_at : [flag, 0] <+: header.drop 156
  padding_length : padding.length < 512
  padded : (content.length + padding.length) % 512 = 0

/-- A file or a directory of the archive. -/
structure Member extends Record where
  kind : flag = 0x30 ∨ flag = 0x35

namespace Record

def bytes (r : Record) : List Byte := r.header ++ (r.content ++ r.padding)

/-- The end of an archive is made of these. -/
def zeroBlock : Record where
  header := List.replicate 512 0
  name := []
  digits := []
  flag := 0
  content := []
  padding := []
  header_length := List.length_replicate
  name_length := by decide
  name_ends := by decide
  name_at := ⟨List.replicate 511 0, rfl⟩
  digits_length := by decide
  digits_at := ⟨List.replicate 387 0, by rw [List.drop_replicate]; rfl⟩
  size_eq := rfl
  size_lt := by decide
  flag_at := ⟨List.replicate 354 0, by rw [List.drop_replicate]; rfl⟩
  padding_length := by decide
  padded := rfl

/-- What the index should say of a record whose header is at `start`. -/
def entry (r : Record) (start : Nat) : Entry where
  name := r.name
  fileSize := r.content.length
  typeflag := r.flag
  refCnt := 0
  tarfsStartAddr := start
  binStartAddr := start + 512

end Record

def records (members : List Member) (zeros : Nat) : List Record :=
  members.map Member.toRecord ++ List.replicate zeros Record.zeroBlock

def image (rs : List Record) : List Byte := rs.flatMap Record.bytes

/-- The archive lies between its two symbols, inside the address space and apart
from the table. -/
structure Link.Loaded (k : Link) (m : Store) (rs : List Record) : Prop where
  holds : Holds m k.start (image rs)
  stop_eq : k.stop = k.start + (image rs).length
  fits : k.stop < 2 ^ 64
  apart : k.tarfsInd + entrySize * maxBin ≤ k.start ∨ k.stop ≤ k.tarfsInd

/-! ### Small archives -/

/-- A header for a name and eleven size digits; every other field is zero. -/
def plainHeader (name : List Byte) (digits : List (Fin 8)) (flag : Byte) : List Byte :=
  name ++ List.replicate (124 - name.length) 0 ++ digits.map octalChar ++ List.replicate (32 - digits.length) 0 ++
    flag :: List.replicate 355 0

theorem length_plainHeader {name : List Byte} {digits : List (Fin 8)} {flag : Byte} (hn : name.length ≤ 124)
    (hd : digits.length ≤ 32) : (plainHeader name digits flag).length = 512 := by
  simp only [plainHeader, List.length_append, List.length_cons, List.length_map, List.length_replicate]
  omega

/-- The directory `d/`. -/
def plainDirectory : Member where
  header := plainHeader [0x64, 0x2f] (List.replicate 11 0) 0x35
  name := [0x64, 0x2f]
  digits := List.replicate 11 0
  flag := 0x35
  content := []
  padding := []
  header_length := length_plainHeader (by decide) (by decide)
  name_length := by decide
  name_ends := by decide
  name_at := ⟨_, rfl⟩
  digits_length := by decide
  digits_at := ⟨_, rfl⟩
  size_eq := by decide
  size_lt := by decide
  flag_at := ⟨_, rfl⟩
  padding_length := by decide
  padded := rfl
  kind := Or.inr rfl

/-- The file `f` with two bytes in it. -/
def plainFile : Member where
  header := plainHeader [0x66] (List.replicate 10 0 ++ [2]) 0x30
  name := [0x66]
  digits := List.replicate 10 0 ++ [2]
  flag := 0x30
  content := [0x68, 0x69]
  padding := List.replicate 510 0
  header_length := length_plainHeader (by decide) (by decide)
  name_length := by decide
  name_ends := by decide
  name_at := ⟨_, rfl⟩
  digits_length := by decide
  digits_at := ⟨_, rfl⟩
  size_eq := by decide
  size_lt := by decide
  flag_at := ⟨_, rfl⟩
  padding_length := by rw [List.length_replicate]; decide
  padded := by rw [List.length_replicate]; rfl
  kind := Or.inl rfl

def plainRecords : List Record := records [plainDirectory, plainFile] 2

/-- The table at 4096 and the archive at 65536. -/
def plainLink (rs : List Record) : Link := ⟨4096, 65536, 65536 + (image rs).length⟩

def plainStore (rs : List Record) : Store := put (fun _ => 0) 65536 (image rs)

theorem plain_loaded {rs : List Record} (h : (image rs).length ≤ 2 ^ 20) :
    (plainLink rs).Loaded (plainStore rs) rs :=
  ⟨put_holds _ _ _, rfl, by simp only [plainLink]; omega, Or.inl (by simp only [plainLink, entrySize, maxBin]; omega)⟩

/-! ### Fields -/

theorem loadInt_storeInt (m : Store) (a : Nat) (v : BitVec 32) : loadInt (storeInt m a v) a = v.toInt := by
  have hbytes : fetch (put m a (toLE 4 v.toNat)) a 4 = toLE 4 v.toNat := by
    have := put_holds m a (toLE 4 v.toNat)
    rw [Holds, length_toLE] at this
    exact this
  have hlt := v.isLt
  rw [loadInt, storeInt, hbytes, ofLE_toLE, Nat.mod_eq_of_lt (by omega), BitVec.ofNat_toNat, BitVec.setWidth_eq]

theorem loadLong_storeLong (m : Store) (a : Nat) {v : Nat} (hv : v < 2 ^ 64) :
    loadLong (storeLong m a v) a = v := by
  have hbytes : fetch (put m a (toLE 8 v)) a 8 = toLE 8 v := by
    have := put_holds m a (toLE 8 v)
    rw [Holds, length_toLE] at this
    exact this
  rw [loadLong, storeLong, hbytes, ofLE_toLE, Nat.mod_eq_of_lt (by omega)]

theorem loadInt_congr {m m' : Store} {a : Nat} (h : Agree m m' a 4) : loadInt m' a = loadInt m a := by
  rw [loadInt, loadInt, fetch_congr h]

theorem loadLong_congr {m m' : Store} {a : Nat} (h : Agree m m' a 8) : loadLong m' a = loadLong m a := by
  rw [loadLong, loadLong, fetch_congr h]

theorem storeInt_within (m : Store) {a e n : Nat} (v : BitVec 32) (hlo : e ≤ a) (hhi : a + 4 ≤ e + n) :
    Within m (storeInt m a v) e n := put_within m _ hlo (by rw [length_toLE]; exact hhi)

theorem storeLong_within (m : Store) {a e n : Nat} (v : Nat) (hlo : e ≤ a) (hhi : a + 8 ≤ e + n) :
    Within m (storeLong m a v) e n := put_within m _ hlo (by rw [length_toLE]; exact hhi)

theorem loadInt_zeros {m : Store} {a : Nat} (h : Holds m a [0, 0, 0, 0]) : loadInt m a = 0 := by
  have hbytes : fetch m a 4 = [0, 0, 0, 0] := h
  rw [loadInt, hbytes]
  rfl

/-- A table entry is read from its 125 bytes. -/
theorem entryAt_congr {m m' : Store} {e : Nat} {name : List Byte} (hname : Spells m e name)
    (hlen : name.length ≤ 99) (h : Agree m m' e entrySize) : entryAt m' e = entryAt m e := by
  have hsize : entrySize = 125 := rfl
  have hname' : Spells m' e name := hname.congr (h.mono (by omega) (by omega))
  have hmax : name.length < intMax := by
    rw [intMax]
    omega
  rw [entryAt, entryAt, cString_spells hname hmax, cString_spells hname' hmax,
    loadInt_congr (h.mono (b := e + 100) (k := 4) (by omega) (by omega)),
    loadInt_congr (h.mono (b := e + 105) (k := 4) (by omega) (by omega)),
    loadLong_congr (h.mono (b := e + 109) (k := 8) (by omega) (by omega)),
    loadLong_congr (h.mono (b := e + 117) (k := 8) (by omega) (by omega)),
    h (e + 104) (by omega) (by omega)]

/-! ### One pass -/

namespace Record

theorem length_bytes (r : Record) : r.bytes.length = 512 + (r.content.length + r.padding.length) := by
  rw [bytes, List.length_append, List.length_append, r.header_length]

section
variable {r : Record} {m : Store} {a : Nat}

theorem name_spells (r : Record) (h : Holds m a r.bytes) : Spells m a r.name :=
  ⟨((holds_append.mp h).1).of_isPrefix r.name_at, r.name_ends⟩

theorem digits_hold (r : Record) (h : Holds m a r.bytes) :
    Holds m (a + 124) (r.digits.map octalChar ++ [0]) := by
  have hheader : Holds m (a + 124) (r.header.drop 124) :=
    (holds_append.mp h).1.drop (by rw [r.header_length]; omega)
  exact hheader.of_isPrefix r.digits_at

theorem flag_holds (r : Record) (h : Holds m a r.bytes) : Holds m (a + 156) [r.flag, 0] := by
  have hheader : Holds m (a + 156) (r.header.drop 156) :=
    (holds_append.mp h).1.drop (by rw [r.header_length]; omega)
  exact hheader.of_isPrefix r.flag_at

theorem content_holds (r : Record) (h : Holds m a r.bytes) : Holds m (a + 512) r.content := by
  have hcontent := (holds_append.mp h).2
  rw [r.header_length] at hcontent
  exact (holds_append.mp hcontent).1

end

/-- The blocks the decoder steps over are those of the content. -/
theorem blocks_eq (r : Record) :
    512 * (if (r.content.length : Int).tmod 512 = 0 then (r.content.length : Int).tdiv 512
      else (r.content.length : Int).tdiv 512 + 1) = (r.content.length + r.padding.length : Nat) := by
  have hlt := r.padding_length
  have hmul := r.padded
  rw [Int.tmod_eq_emod_of_nonneg (by omega), Int.tdiv_eq_ediv_of_nonneg (by omega)]
  split <;> omega

end Record

theorem advance_eq {p n : Nat} {k : Int} (hk : 512 * k = n) (h : p + n < 2 ^ 64) : advance p k = p + n := by
  rw [advance, hk]
  omega

/-- The copy of the type flag, when the link name is empty: it leaves the flag and
keeps the zero count behind it. -/
theorem strcpy_flag {m : Store} {dst src : Nat} {flag : Byte} (h : Holds m src [flag, 0])
    (hd : dst + 2 ≤ src ∨ src + 2 ≤ dst) (hzero : Holds m (dst + 1) [0, 0, 0, 0]) :
    Within m (strcpy m dst src) dst 2 ∧ strcpy m dst src dst = flag ∧
      Holds (strcpy m dst src) (dst + 1) [0, 0, 0, 0] := by
  by_cases hflag : flag = 0
  · subst hflag
    have hspell : Spells m src [] := ⟨h.of_isPrefix ⟨[0], rfl⟩, List.not_mem_nil⟩
    have hcopy : strcpy m dst src = put m dst [0] := strcpy_spells hspell (by decide) (by simp only [List.length_nil]; omega)
    rw [hcopy]
    exact ⟨put_within m _ (le_refl dst) (by simp only [List.length_singleton]; omega), put_at m dst [0] (i := 0) (by decide),
      hzero.congr (put_agree m _ (Or.inl (by simp)))⟩
  · have hspell : Spells m src [flag] := ⟨h, by simpa using Ne.symm hflag⟩
    have hcopy : strcpy m dst src = put m dst [flag, 0] :=
      strcpy_spells hspell (show 1 < 2 ^ 31 by decide) (by simp only [List.length_singleton]; omega)
    have hrest : Holds (put m dst [flag, 0]) (dst + 2) [0, 0, 0] :=
      (holds_cons.mp hzero).2.congr (put_agree m _ (Or.inl (by simp)))
    rw [hcopy]
    exact ⟨put_within m _ (le_refl dst) (by simp), put_at m dst [flag, 0] (i := 0) (by simp),
      holds_cons.mpr ⟨put_at m dst [flag, 0] (i := 1) (by simp), hrest⟩⟩

/-- An entry with the fields of the record, but for the addresses. -/
structure Headed (r : Record) (m : Store) (e : Nat) : Prop where
  name : Spells m e r.name
  fileSize : loadInt m (e + 100) = r.content.length
  typeflag : m (e + 104) = r.flag
  refCnt : loadInt m (e + 105) = 0

theorem fillHeader_spec {m : Store} {e str : Nat} {r : Record} (hat : Holds m str r.bytes)
    (hapart : e + entrySize ≤ str ∨ str + r.bytes.length ≤ e) :
    Within m (fillHeader m e str) e entrySize ∧ Headed r (fillHeader m e str) e := by
  have hlen := r.length_bytes
  have hnameLen := r.name_length
  have hdigitsLen := r.digits_length
  have hsizeLt := r.size_lt
  have hentry : entrySize = 125 := rfl
  have hmax : intMax = 2 ^ 31 := rfl
  -- the name
  have h1 : strcpy m e str = put m e (r.name ++ [0]) :=
    strcpy_spells (r.name_spells hat) (by omega) (by omega)
  have hlenName : (r.name ++ [0]).length = r.name.length + 1 := by simp
  have w1 : Within m (put m e (r.name ++ [0])) e entrySize := put_within m _ (le_refl e) (by omega)
  have s1 : Spells (put m e (r.name ++ [0])) e r.name := ⟨put_holds m e _, r.name_ends⟩
  simp only [fillHeader, h1]
  generalize put m e (r.name ++ [0]) = m1 at w1 s1 ⊢
  -- the count
  have w2 : Within m (storeInt m1 (e + 105) 0) e entrySize :=
    w1.trans (storeInt_within m1 0 (by omega) (by omega))
  have s2 : Spells (storeInt m1 (e + 105) 0) e r.name := s1.congr (put_agree m1 _ (Or.inr (by omega)))
  have z2 : Holds (storeInt m1 (e + 105) 0) (e + 105) [0, 0, 0, 0] := put_holds m1 (e + 105) [0, 0, 0, 0]
  generalize storeInt m1 (e + 105) 0 = m2 at w2 s2 z2 ⊢
  -- the size
  have a2 : Holds m2 str r.bytes := hat.congr (w2.agree (by omega))
  have hsize : atoo m2 (str + 124) = BitVec.ofNat 32 r.content.length := by
    rw [atoo_digits (r.digits_hold a2) (by omega), r.size_eq]
  have hval : (BitVec.ofNat 32 r.content.length).toInt = r.content.length := by
    rw [BitVec.toInt_eq_toNat_of_lt (by rw [BitVec.toNat_ofNat]; omega), BitVec.toNat_ofNat]
    omega
  rw [hsize]
  have w3 : Within m2 (storeInt m2 (e + 100) (BitVec.ofNat 32 r.content.length)) (e + 100) 4 :=
    storeInt_within m2 _ (le_refl _) (le_refl _)
  have f3 := loadInt_storeInt m2 (e + 100) (BitVec.ofNat 32 r.content.length)
  rw [hval] at f3
  generalize storeInt m2 (e + 100) (BitVec.ofNat 32 r.content.length) = m3 at w3 f3 ⊢
  have w13 : Within m m3 e entrySize := w2.trans (w3.mono (by omega) (by omega))
  -- the type flag
  have a3 : Holds m3 str r.bytes := hat.congr (w13.agree (by omega))
  obtain ⟨w4, t4, z4⟩ := strcpy_flag (r.flag_holds a3) (by omega)
    (z2.congr (w3.agree (by simp only [List.length_cons, List.length_nil]; omega)))
  refine ⟨w13.trans (w4.mono (by omega) (by omega)), ?_, ?_, t4, loadInt_zeros z4⟩
  · exact (s2.congr (w3.agree (by omega))).congr (w4.agree (by omega))
  · rw [loadInt_congr (w4.agree (by omega)), f3]

theorem fillAddrs_spec {m : Store} {e str bin : Nat} {r : Record} (h : Headed r m e)
    (hbin : bin = str + 512) (hfit : bin < 2 ^ 64) :
    Within m (fillAddrs m e str bin) e entrySize ∧ Spells (fillAddrs m e str bin) e r.name ∧
      entryAt (fillAddrs m e str bin) e = r.entry str := by
  have hnameLen := r.name_length
  have hentry : entrySize = 125 := rfl
  have hmax : intMax = 2 ^ 31 := rfl
  have w1 : Within m (storeLong m (e + 109) str) (e + 109) 8 := storeLong_within m str (le_refl _) (le_refl _)
  have p1 : loadLong (storeLong m (e + 109) str) (e + 109) = str := loadLong_storeLong m _ (by omega)
  rw [fillAddrs]
  generalize storeLong m (e + 109) str = m1 at w1 p1 ⊢
  have w2 : Within m1 (storeLong m1 (e + 117) bin) (e + 117) 8 := storeLong_within m1 _ (le_refl _) (le_refl _)
  have p2 : loadLong (storeLong m1 (e + 117) bin) (e + 117) = bin := loadLong_storeLong m1 _ hfit
  generalize storeLong m1 (e + 117) bin = m2 at w2 p2 ⊢
  have w : Within m m2 (e + 109) 16 := (w1.mono (by omega) (by omega)).trans (w2.mono (by omega) (by omega))
  have hname : Spells m2 e r.name := h.name.congr (w.agree (by omega))
  have hstart : loadLong m2 (e + 109) = str := by rw [loadLong_congr (w2.agree (by omega)), p1]
  refine ⟨w.mono (by omega) (by omega), hname, ?_⟩
  rw [entryAt, cString_spells hname (by omega), loadInt_congr (w.agree (b := e + 100) (k := 4) (by omega)),
    loadInt_congr (w.agree (b := e + 105) (k := 4) (by omega)), h.fileSize, h.refCnt, w (e + 104) (by omega),
    h.typeflag, hstart, p2, hbin]
  rfl

namespace Link

variable {k : Link}

/-- One pass over a record: the pointer moves over the record, and the entry of the
index says what it should. -/
structure Indexed (k : Link) (r : Record) (l l' : Loop) : Prop where
  tarfsStr : l'.tarfsStr = l.tarfsStr + r.bytes.length
  ind : l'.ind = l.ind + 1
  within : Within l.mem l'.mem (k.entry l.ind) entrySize
  entry : entryAt l'.mem (k.entry l.ind) = r.entry l.tarfsStr
  name : Spells l'.mem (k.entry l.ind) r.name

theorem pass_indexed {l : Loop} {r : Record} (hat : Holds l.mem l.tarfsStr r.bytes)
    (hfit : l.tarfsStr + r.bytes.length < 2 ^ 64)
    (hapart : k.entry l.ind + entrySize ≤ l.tarfsStr ∨ l.tarfsStr + r.bytes.length ≤ k.entry l.ind) :
    k.Indexed r l (k.pass l) := by
  have hlen := r.length_bytes
  have hbin : advance l.tarfsStr 1 = l.tarfsStr + 512 := advance_eq (by norm_num) (by omega)
  obtain ⟨w1, headed⟩ := fillHeader_spec hat hapart
  obtain ⟨w2, hname, hentry⟩ := fillAddrs_spec headed hbin (by omega)
  have w := w1.trans w2
  generalize hmem : fillAddrs (fillHeader l.mem (k.entry l.ind) l.tarfsStr) (k.entry l.ind) l.tarfsStr
    (advance l.tarfsStr 1) = m at w hname hentry
  have hsize : loadInt m (k.entry l.ind + 100) = r.content.length := congrArg Entry.fileSize hentry
  have hpass : k.pass l = ⟨m, l.tarfsStr + r.bytes.length, l.ind + 1⟩ := by
    simp only [Link.pass, hmem, hsize]
    rw [hbin, advance_eq r.blocks_eq (by omega), hlen, Nat.add_assoc]
  rw [hpass]
  exact ⟨rfl, rfl, w, hentry, hname⟩

/-! ### The whole loop -/

theorem entry_add (i n : Nat) : k.entry (i + n) = k.entry i + entrySize * n := by
  simp only [Link.entry]
  ring

/-- Passes over consecutive records. -/
structure Filled (k : Link) (rs : List Record) (l l' : Loop) : Prop where
  tarfsStr : l'.tarfsStr = l.tarfsStr + (image rs).length
  ind : l'.ind = l.ind + rs.length
  within : Within l.mem l'.mem (k.entry l.ind) (entrySize * rs.length)
  entries : ∀ i (h : i < rs.length),
    entryAt l'.mem (k.entry (l.ind + i)) = rs[i].entry (l.tarfsStr + (image (rs.take i)).length)

theorem passes_filled (rs : List Record) (l : Loop) (hat : Holds l.mem l.tarfsStr (image rs))
    (hfit : l.tarfsStr + (image rs).length < 2 ^ 64)
    (hapart : k.entry (l.ind + rs.length) ≤ l.tarfsStr ∨ l.tarfsStr + (image rs).length ≤ k.entry l.ind) :
    k.Filled rs l (k.pass^[rs.length] l) := by
  induction rs generalizing l with
  | nil =>
    refine ⟨rfl, rfl, fun _ _ => rfl, ?_⟩
    intro i h
    exact absurd h (Nat.not_lt_zero i)
  | cons r rs ih =>
    have himage : image (r :: rs) = r.bytes ++ image rs := List.flatMap_cons
    have hlen : (image (r :: rs)).length = r.bytes.length + (image rs).length := by
      rw [himage, List.length_append]
    have hcons : (r :: rs).length = rs.length + 1 := rfl
    have hmul : entrySize * (rs.length + 1) = entrySize + entrySize * rs.length := by ring
    rw [himage, holds_append] at hat
    rw [hcons, entry_add] at hapart
    have hpass := pass_indexed (k := k) hat.1 (by omega) (by omega)
    have hnext : k.entry (l.ind + 1) = k.entry l.ind + entrySize := by rw [entry_add, Nat.mul_one]
    have hrest : Holds (k.pass l).mem (k.pass l).tarfsStr (image rs) := by
      rw [hpass.tarfsStr]
      exact hat.2.congr (hpass.within.agree (by omega))
    have hfilled := ih (k.pass l) hrest (by rw [hpass.tarfsStr]; omega)
      (by rw [hpass.tarfsStr, hpass.ind, entry_add, hnext]; omega)
    rw [hcons, Function.iterate_succ_apply]
    obtain ⟨hstr, hind, hwithin, hentries⟩ := hfilled
    rw [hpass.ind, hnext] at hwithin
    refine ⟨?_, ?_, ?_, ?_⟩
    · rw [hstr, hpass.tarfsStr]
      omega
    · rw [hind, hpass.ind]
      omega
    · exact (hpass.within.mono (le_refl _) (by rw [hcons]; omega)).trans
        (hwithin.mono (by omega) (by rw [hcons]; omega))
    · intro i h
      cases i with
      | zero =>
        rw [Nat.add_zero, entryAt_congr hpass.name r.name_length (hwithin.agree (by omega)), hpass.entry]
        rfl
      | succ i =>
        have hidx : l.ind + (i + 1) = (k.pass l).ind + i := by
          rw [hpass.ind]
          omega
        have htake : (image ((r :: rs).take (i + 1))).length = r.bytes.length + (image (rs.take i)).length := by
          rw [List.take_succ_cons, image, List.flatMap_cons, List.length_append]
          rfl
        rw [hidx, hentries i (by omega), hpass.tarfsStr, htake, Nat.add_assoc]
        rfl

theorem loop_iterate {n fuel : Nat} {l : Loop} (hgo : ∀ j < n, (k.pass^[j] l).tarfsStr < k.stop)
    (hstop : ¬ (k.pass^[n] l).tarfsStr < k.stop) (hfuel : n < fuel) :
    k.loop fuel l = some (k.pass^[n] l) := by
  induction n generalizing l fuel with
  | zero =>
    obtain ⟨fuel, rfl⟩ := Nat.exists_eq_succ_of_ne_zero (by omega : fuel ≠ 0)
    have hend : ¬ l.tarfsStr < k.stop := hstop
    rw [loop, if_neg hend]
    rfl
  | succ n ih =>
    obtain ⟨fuel, rfl⟩ := Nat.exists_eq_succ_of_ne_zero (by omega : fuel ≠ 0)
    have hfirst : l.tarfsStr < k.stop := hgo 0 (by omega)
    rw [loop, if_pos hfirst, Function.iterate_succ_apply]
    exact ih (fun j hj => hgo (j + 1) (by omega)) hstop (by omega)

section
variable {m : Store} {rs : List Record}

theorem length_image_take (rs : List Record) (j : Nat) :
    (image rs).length = (image (rs.take j)).length + (image (rs.drop j)).length := by
  have hsplit : image rs = image (rs.take j) ++ image (rs.drop j) := by
    rw [image, image, image, ← List.flatMap_append, List.take_append_drop]
  rw [hsplit, List.length_append]

theorem Loaded.holds_take (h : k.Loaded m rs) (j : Nat) : Holds m k.start (image (rs.take j)) := by
  apply h.holds.of_isPrefix
  refine ⟨image (rs.drop j), ?_⟩
  rw [image, image, image, ← List.flatMap_append, List.take_append_drop]

/-- As long as the entries fit the table, the passes fill it. -/
theorem Loaded.filled (h : k.Loaded m rs) {j : Nat} (hj : j ≤ rs.length) (hb : j ≤ maxBin) :
    k.Filled (rs.take j) ⟨m, k.start, 0⟩ (k.pass^[j] ⟨m, k.start, 0⟩) := by
  have hlen : (rs.take j).length = j := List.length_take_of_le hj
  have hsplit := length_image_take rs j
  have hstop := h.stop_eq
  have hfits := h.fits
  have hmul : entrySize * j ≤ entrySize * maxBin := Nat.mul_le_mul_left _ hb
  have hend : k.entry (0 + j) = k.tarfsInd + entrySize * j := by rw [Link.entry, Nat.zero_add]
  have hstart : k.entry 0 = k.tarfsInd := by rw [Link.entry, Nat.mul_zero, Nat.add_zero]
  have hfilled := passes_filled (k := k) (rs.take j) ⟨m, k.start, 0⟩ (h.holds_take j)
    (by dsimp only; omega)
    (by
      rw [hlen]
      dsimp only
      rw [hend, hstart]
      have := h.apart
      omega)
  rw [hlen] at hfilled
  exact hfilled

theorem image_ne_nil {rs : List Record} (h : rs ≠ []) : 0 < (image rs).length := by
  obtain ⟨r, rest, rfl⟩ := List.exists_cons_of_ne_nil h
  have hlen := r.length_bytes
  rw [image, List.flatMap_cons, List.length_append]
  omega

/-- The test of the loop succeeds before exactly the headers of the archive. -/
theorem Loaded.goes_on (h : k.Loaded m rs) {j : Nat} (hj : j ≤ rs.length) (hb : j ≤ maxBin) :
    (k.pass^[j] ⟨m, k.start, 0⟩).tarfsStr < k.stop ↔ j < rs.length := by
  have hsplit := length_image_take rs j
  rw [(h.filled hj hb).tarfsStr, h.stop_eq]
  constructor
  · intro hlt
    by_contra hge
    have hdrop : rs.drop j = [] := List.drop_eq_nil_of_le (by omega)
    rw [hdrop] at hsplit
    simp only [image, List.flatMap_nil, List.length_nil] at hsplit hlt
    omega
  · intro hlt
    have hpos : 0 < (image (rs.drop j)).length := by
      apply image_ne_nil
      intro hnil
      have := congrArg List.length hnil
      rw [List.length_drop, List.length_nil] at this
      omega
    dsimp only
    omega

/-- The record number `i` lies where the records before it end. -/
theorem Loaded.holds_record (h : k.Loaded m rs) {i : Nat} (hi : i < rs.length) :
    Holds m (k.start + (image (rs.take i)).length) rs[i].bytes := by
  have hsplit : image rs = image (rs.take i) ++ (rs[i].bytes ++ image (rs.drop (i + 1))) := by
    simp only [image]
    rw [← List.flatMap_cons, ← List.flatMap_append, List.getElem_cons_drop, List.take_append_drop]
  have hall := h.holds
  rw [hsplit, holds_append, holds_append] at hall
  exact hall.2.1

theorem length_image_lt {i j : Nat} (hij : i < j) (hj : j ≤ rs.length) :
    (image (rs.take i)).length < (image (rs.take j)).length := by
  have hsplit := length_image_take (rs.take j) i
  rw [List.take_take, Nat.min_eq_left (by omega)] at hsplit
  have hpos : 0 < (image ((rs.take j).drop i)).length := by
    apply image_ne_nil
    intro hnil
    have hlen := congrArg List.length hnil
    rw [List.length_drop, List.length_take_of_le hj, List.length_nil] at hlen
    omega
  omega

theorem length_image_succ {i : Nat} (hi : i < rs.length) :
    (image (rs.take (i + 1))).length = (image (rs.take i)).length + rs[i].bytes.length := by
  rw [List.take_succ_eq_append_getElem hi, image, List.flatMap_append, List.length_append, List.flatMap_singleton]
  rfl

/-- A record lies before the end of the archive. -/
theorem Loaded.record_le (h : k.Loaded m rs) {i : Nat} (hi : i < rs.length) :
    k.start + (image (rs.take i)).length + 512 + rs[i].content.length ≤ k.stop := by
  have hstop := h.stop_eq
  have hbytes := rs[i].length_bytes
  have hupto := length_image_take rs (i + 1)
  have hone := length_image_succ hi
  omega

/-- The entry of a record, when all of them have been filled. -/
theorem Loaded.entry_eq (h : k.Loaded m rs) (hb : rs.length ≤ maxBin) {i : Nat} (hi : i < rs.length) :
    entryAt (k.pass^[rs.length] ⟨m, k.start, 0⟩).mem (k.entry i) =
      rs[i].entry (k.start + (image (rs.take i)).length) := by
  have hfilled := h.filled (Nat.le_refl rs.length) hb
  rw [List.take_length] at hfilled
  have := hfilled.entries i hi
  rw [Nat.zero_add] at this
  exact this

end

theorem length_records (members : List Member) (zeros : Nat) :
    (records members zeros).length = members.length + zeros := by
  rw [records, List.length_append, List.length_map, List.length_replicate]

theorem length_image_append (rs rs' : List Record) : (image (rs ++ rs')).length = (image rs).length + (image rs').length := by
  rw [image, List.flatMap_append, List.length_append]
  rfl

theorem length_image_replicate (n : Nat) (r : Record) : (image (List.replicate n r)).length = n * r.bytes.length := by
  induction n with
  | zero => rw [Nat.zero_mul]; rfl
  | succ n ih =>
    rw [List.replicate_succ, image, List.flatMap_cons, List.length_append, Nat.succ_mul, Nat.add_comm]
    exact congrArg (· + _) ih

theorem records_member (members : List Member) (zeros : Nat) {i : Nat} (h : i < members.length) :
    (records members zeros)[i]? = some members[i].toRecord := by
  rw [records, List.getElem?_append_left (by rw [List.length_map]; exact h), List.getElem?_map,
    List.getElem?_eq_getElem h]
  rfl

theorem records_zero (members : List Member) (zeros : Nat) {i : Nat} (hlo : members.length ≤ i)
    (hhi : i < members.length + zeros) : (records members zeros)[i]? = some Record.zeroBlock := by
  rw [records, List.getElem?_append_right (by rw [List.length_map]; exact hlo), List.length_map,
    List.getElem?_replicate_of_lt (by omega)]

/-- `tarfs_initialize` inverts the layout of the archive: it returns, and every entry
of the index says what its member is and where its content lies. -/
theorem tarfsInitialize_inverts (k : Link) (m : Store) (members : List Member) (zeros : Nat)
    (hload : k.Loaded m (records members zeros)) (hcount : members.length + zeros ≤ maxBin) :
    ∃ m', (∀ fuel, members.length + zeros < fuel →
        k.tarfsInitialize m fuel = some ⟨m', k.stop, members.length + zeros⟩) ∧
      (∀ i (h : i < members.length),
        (entryAt m' (k.entry i)).name = members[i].name ∧
        (entryAt m' (k.entry i)).fileSize = members[i].content.length ∧
        (entryAt m' (k.entry i)).typeflag = members[i].flag ∧
        (entryAt m' (k.entry i)).refCnt = 0 ∧
        Holds m' (entryAt m' (k.entry i)).binStartAddr members[i].content) ∧
      (∀ i, members.length ≤ i → i < members.length + zeros →
        (entryAt m' (k.entry i)).name = [] ∧ (entryAt m' (k.entry i)).fileSize = 0) ∧
      (∀ i j, i < j → j < members.length + zeros →
        (entryAt m' (k.entry i)).binStartAddr < (entryAt m' (k.entry j)).binStartAddr) := by
  have hlen := length_records members zeros
  generalize hrs : records members zeros = rs at hload hlen
  have hfilled := hload.filled (Nat.le_refl rs.length) (by omega)
  rw [List.take_length] at hfilled
  have hentry : ∀ i (h : i < rs.length), entryAt (k.pass^[rs.length] ⟨m, k.start, 0⟩).mem (k.entry i) =
      rs[i].entry (k.start + (image (rs.take i)).length) := fun i h => hload.entry_eq (by omega) h
  refine ⟨(k.pass^[rs.length] ⟨m, k.start, 0⟩).mem, ?_, ?_, ?_, ?_⟩
  · intro fuel hfuel
    have hgo : ∀ j < rs.length, (k.pass^[j] ⟨m, k.start, 0⟩).tarfsStr < k.stop :=
      fun j hj => (hload.goes_on (by omega) (by omega)).mpr hj
    have hend : ¬ (k.pass^[rs.length] ⟨m, k.start, 0⟩).tarfsStr < k.stop :=
      fun hlt => absurd ((hload.goes_on (le_refl _) (by omega)).mp hlt) (lt_irrefl _)
    have hstr := hfilled.tarfsStr
    have hind : (k.pass^[rs.length] ⟨m, k.start, 0⟩).ind = members.length + zeros := by
      rw [hfilled.ind, Nat.zero_add, hlen]
    rw [← hload.stop_eq] at hstr
    rw [tarfsInitialize, loop_iterate hgo hend (by omega)]
    generalize k.pass^[rs.length] ⟨m, k.start, 0⟩ = l at hstr hind ⊢
    rw [← hstr, ← hind]
  · intro i h
    have hi : i < rs.length := by omega
    have hmember := records_member members zeros h
    rw [hrs, List.getElem?_eq_getElem hi] at hmember
    have hrecord := Option.some.inj hmember
    have hcontent := rs[i].content_holds (hload.holds_record hi)
    rw [hentry i hi]
    refine ⟨congrArg Record.name hrecord, ?_, congrArg Record.flag hrecord, rfl, ?_⟩
    · rw [← hrecord]
      rfl
    · rw [← hrecord]
      -- the table is apart from the archive, and the content is part of the archive
      have hapart := hload.apart
      have hinside := hload.record_le hi
      have hmul : entrySize * rs.length ≤ entrySize * maxBin := Nat.mul_le_mul_left _ (by omega)
      have hstart : k.entry 0 = k.tarfsInd := by rw [Link.entry, Nat.mul_zero, Nat.add_zero]
      apply hcontent.congr
      apply hfilled.within.agree
      dsimp only
      rw [hstart]
      omega
  · intro i hlo hhi
    have hi : i < rs.length := by omega
    have hzero := records_zero members zeros hlo hhi
    rw [hrs, List.getElem?_eq_getElem hi] at hzero
    have hrecord := Option.some.inj hzero
    rw [hentry i hi, hrecord]
    exact ⟨rfl, rfl⟩
  · intro i j hij hj
    have hlt : (image (rs.take i)).length < (image (rs.take j)).length := length_image_lt hij (by omega)
    rw [hentry i (by omega), hentry j (by omega)]
    simp only [Record.entry]
    omega

theorem length_zeroBlock : Record.zeroBlock.bytes.length = 512 := Record.zeroBlock.length_bytes

theorem length_plainRecords : (image plainRecords).length = 5 * 512 := by
  have hdirectory : plainDirectory.bytes.length = 512 := plainDirectory.length_bytes
  have hpadding : plainFile.padding.length = 510 := List.length_replicate
  have hcontent : plainFile.content.length = 2 := rfl
  have hfile := plainFile.length_bytes
  rw [hpadding, hcontent] at hfile
  rw [plainRecords, records, length_image_append, length_image_replicate, length_zeroBlock, image, List.map_cons,
    List.flatMap_cons, List.map_singleton, List.flatMap_singleton, List.length_append, hdirectory, hfile]

/-- A directory and a file, and the two zero blocks that end an archive. -/
theorem tarfsInitialize_inverts_file :
    ∃ m', (∀ fuel, 4 < fuel → (plainLink plainRecords).tarfsInitialize (plainStore plainRecords) fuel =
        some ⟨m', 65536 + 5 * 512, 4⟩) ∧
      (entryAt m' ((plainLink plainRecords).entry 1)).name = [0x66] ∧
      (entryAt m' ((plainLink plainRecords).entry 1)).fileSize = 2 ∧
      Holds m' (entryAt m' ((plainLink plainRecords).entry 1)).binStartAddr [0x68, 0x69] := by
  have hlen : (image plainRecords).length = 5 * 512 := length_plainRecords
  obtain ⟨m', hreturns, hmembers, _, _⟩ :=
    tarfsInitialize_inverts (plainLink plainRecords) (plainStore plainRecords) [plainDirectory, plainFile] 2
      (plain_loaded (by rw [hlen]; decide)) (by decide)
  have hstop : (plainLink plainRecords).stop = 65536 + 5 * 512 := by rw [plainLink, hlen]
  obtain ⟨hname, hsize, _, _, hcontent⟩ := hmembers 1 (by decide)
  rw [hstop] at hreturns
  exact ⟨m', hreturns, hname, hsize, hcontent⟩

/-! ### The size of the table -/

section
variable {m : Store} {rs : List Record}

theorem Loaded.makes (h : k.Loaded m rs) {i : Nat} (hi : i < rs.length) (hb : i ≤ maxBin) : k.Makes m i := by
  intro j hj
  exact (h.goes_on (by omega) (by omega)).mpr (by omega)

theorem Loaded.indexAt_eq (h : k.Loaded m rs) {i : Nat} (hi : i ≤ rs.length) (hb : i ≤ maxBin) :
    k.indexAt m i = i := by
  have hind := (h.filled hi hb).ind
  rw [List.length_take_of_le hi, Nat.zero_add] at hind
  exact hind

/-- The loop makes one pass for each record, so the index stays inside the table as
long as there are no more records than entries. -/
theorem Loaded.bounded_iff (h : k.Loaded m rs) :
    (∀ i, k.Makes m i → k.indexAt m i < maxBin) ↔ rs.length ≤ maxBin := by
  constructor
  · intro hall
    by_contra hmore
    have hidx := hall maxBin (h.makes (by omega) (le_refl _))
    rw [h.indexAt_eq (by omega) (le_refl _)] at hidx
    exact lt_irrefl _ hidx
  · intro hle i hmakes
    have hi : i < rs.length := by
      by_contra hge
      have hlast := (h.goes_on (le_refl _) hle).mp (hmakes rs.length (by omega))
      exact lt_irrefl _ hlast
    rw [h.indexAt_eq (by omega) (by omega)]
    omega

end

/-- The index stays inside the table exactly for archives whose members and zero
blocks together are at most as many as its entries. -/
theorem index_bounded_iff (k : Link) (m : Store) (members : List Member) (zeros : Nat)
    (hload : k.Loaded m (records members zeros)) :
    (∀ i, k.Makes m i → k.indexAt m i < maxBin) ↔ members.length + zeros ≤ maxBin := by
  rw [hload.bounded_iff, length_records]

theorem index_bounded_iff_small :
    (∀ i, (plainLink plainRecords).Makes (plainStore plainRecords) i →
      (plainLink plainRecords).indexAt (plainStore plainRecords) i < maxBin) ↔ 4 ≤ maxBin := by
  have hlen : (image plainRecords).length = 5 * 512 := length_plainRecords
  exact index_bounded_iff (plainLink plainRecords) (plainStore plainRecords) [plainDirectory, plainFile] 2
    (plain_loaded (by rw [hlen]; decide))

/-- Thirty-nine directories, and the zero blocks that fill the archive up to three
records of twenty blocks. -/
def manyRecords : List Record := records (List.replicate 39 plainDirectory) 21

theorem index_past_table :
    (plainLink manyRecords).Loaded (plainStore manyRecords) manyRecords ∧
      ∃ i, (plainLink manyRecords).Makes (plainStore manyRecords) i ∧
        maxBin ≤ (plainLink manyRecords).indexAt (plainStore manyRecords) i := by
  have hlen : (image manyRecords).length = 60 * 512 := by
    rw [manyRecords, records, List.map_replicate, length_image_append, length_image_replicate, length_image_replicate,
      length_zeroBlock, Record.length_bytes]
    rfl
  have hload : (plainLink manyRecords).Loaded (plainStore manyRecords) manyRecords :=
    plain_loaded (by rw [hlen]; decide)
  have hcount : manyRecords.length = 60 := by rw [manyRecords, length_records, List.length_replicate]
  have hmax : maxBin = 40 := rfl
  refine ⟨hload, maxBin, hload.makes (by omega) (le_refl _), ?_⟩
  rw [hload.indexAt_eq (by omega) (le_refl _)]

end Link

end Sbnix.Files
