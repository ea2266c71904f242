import Sbnix.Files.Inherit

/-! Reading a file through a descriptor (`sys/iostream.c`, lines 31 to 101).

`FileCall.spec` is what reading and seeking mean for a file: a position, an `off_t`
that starts at zero, from which as many bytes are read as the file still has. The code
keeps a position twice, `offset_read` for the end of the file and `seek`, and reads
whole requests: `seek` is taken for an address when it is not zero, it does not move
when bytes are read, and the end is looked for once in a request.

`FileCall.Allowed` is what a request must keep to for that not to show. Over all that a
file may hold it is exact (`reads_like_file_iff`). A name of 32 bytes or more has been stored over
`offset`, `offset_read` and `file_size` of the slot, which are then not those of the entry. -/
namespace Sbnix.Files
open Library Library.Store

/-- The calls on a descriptor that has been opened. -/
inductive FileCall where
  | sysRead (size : Nat)
  | sysLseek (offset : BitVec 64) (whence : Whence)
  deriving DecidableEq, Repr

/-- What a call returns, and what it stores into the caller's buffer. -/
structure Reply where
  ret : Int
  bytes : List Byte
  deriving DecidableEq, Repr

/-- The file of an entry lies in the kernel's memory. -/
structure Entry.Placed (e : Entry) : Prop where
  size : 0 ≤ e.fileSize
  low : initialMem ≤ e.binStartAddr
  high : e.binStartAddr + e.fileSize.toNat < 2 ^ 64

namespace FileCall

/-- The code. The keyboard is not read: the descriptor is not the standard input. -/
def perform (index : List Entry) (mem : Store) (i : Fin 25) (t : Task) : FileCall → Except Fault (Reply × Task)
  | sysRead size => (Files.sysRead [] mem t i size).map fun o => (⟨o.ret, o.bytes⟩, o.task)
  | sysLseek offset whence => (Files.sysLseek index t i.val offset whence).map fun o => (⟨o.1, []⟩, o.2)

/-- What the call is for: the reply, and the position after it. -/
def spec (e : Entry) (mem : Store) (pos : BitVec 64) : FileCall → Reply × BitVec 64
  | sysRead size =>
    let m := min size (e.fileSize.toNat - pos.toNat)
    (⟨m, fetch mem (e.binStartAddr + pos.toNat) m⟩, pos + BitVec.ofNat 64 m)
  | sysLseek offset .set => (⟨offset.toInt, []⟩, offset)
  | sysLseek offset .cur => (⟨(pos + offset).toInt, []⟩, pos + offset)
  | sysLseek offset .end => (⟨(e.size + offset).toInt, []⟩, e.size + offset)

/-- The task, and the position the file should be at. -/
def step (index : List Entry) (mem : Store) (i : Fin 25) (e : Entry) (s : Task × BitVec 64) (c : FileCall) :
    Option (Task × BitVec 64) :=
  (c.perform index mem i s.1).toOption.map fun o => (o.2, (c.spec e mem s.2).2)

end FileCall

/-- The same result and the same bytes, perhaps with a zero behind them. -/
def Reply.Agrees (r expected : Reply) : Prop :=
  r.ret = expected.ret ∧ (r.bytes = expected.bytes ∨ r.bytes = expected.bytes ++ [0])

/-- The call does what it is for. -/
def FileCall.LikeFile (index : List Entry) (mem : Store) (i : Fin 25) (e : Entry) (s : Task × BitVec 64)
    (c : FileCall) : Prop :=
  ∃ o, c.perform index mem i s.1 = .ok o ∧ o.1.Agrees (c.spec e mem s.2).1

/-- Nothing is asked for, or both positions are at the end, or the code reads at the
position and as much as the file has. Seeking from the current position is relative
to what was last sought. Seeking from the end takes the size of the first entry with the name
that is in the slot. -/
def FileCall.Allowed (index : List Entry) (e : Entry) (i : Fin 25) (s : Task × BitVec 64) : FileCall → Prop
  | sysRead size =>
    size = 0 ∨ (¬ (s.1.fd i).Unread ∧ e.fileSize.toNat ≤ s.2.toNat) ∨
      ((s.1.fd i).Unread ∧ (s.1.fd i).src = e.addr + s.2 ∧ s.2.toNat + size ≤ e.fileSize.toNat)
  | sysLseek _ .set => True
  | sysLseek _ .cur => (s.1.fd i).seek = s.2
  | sysLseek _ .end => e.name.length < 32 ∨ ∃ e' ∈ index.find? (·.name == s.1.path i), e'.size = e.size

instance (index : List Entry) (e : Entry) (i : Fin 25) (s : Task × BitVec 64) :
    (c : FileCall) → Decidable (c.Allowed index e i s)
  | .sysRead _ => inferInstanceAs (Decidable (_ ∨ _ ∨ _))
  | .sysLseek _ .set => .isTrue trivial
  | .sysLseek _ .cur => inferInstanceAs (Decidable (_ = _))
  | .sysLseek _ .end => inferInstanceAs (Decidable (e.name.length < 32 ∨ ∃ e' ∈ index.find? (·.name == s.1.path i), e'.size = e.size))

/-- The descriptor is open on the entry, and the entry is the first of its name. -/
structure OpenOn (index : List Entry) (e : Entry) (i : Fin 25) (t : Task) : Prop where
  above : 2 < i.val
  direct : t.dupArr i = i
  path : e.name.length < 32 → (t.fd i).path = e.name
  listed : ∃ e', index.find? (·.name == e.name) = some e' ∧ e'.size = e.size

/-- What `sys_lseek` adds the offset to. -/
def Task.base (index : List Entry) (t : Task) (i : Fin 25) : Whence → Option (BitVec 64)
  | .set => some 0
  | .cur => some (t.fd i).seek
  | .end => (index.find? (·.name == t.path i)).map Entry.size

section
variable {index : List Entry} {mem mem' : Store} {i : Fin 25} {e : Entry} {t : Task} {pos : BitVec 64} {size : Nat}

theorem Entry.Placed.addr_add (h : e.Placed) (hpos : pos.toNat ≤ e.fileSize.toNat) :
    (e.addr + pos).toNat = e.binStartAddr + pos.toNat := by
  have := h.high
  rw [BitVec.toNat_add, Entry.addr, BitVec.toNat_ofNat]
  omega

theorem OpenOn.setFd (h : OpenOn index e i t) {f : File} (hpath : f.path = (t.fd i).path) :
    OpenOn index e i (t.setFd i f) where
  above := h.above
  direct := h.direct
  path := fun hshort => by
    rw [t.setFd_same, hpath, h.path hshort]
  listed := h.listed

theorem OpenOn.perform_read (h : OpenOn index e i t) (hsize : 0 < size) :
    (FileCall.sysRead size).perform index mem i t =
      if (t.fd i).Unread then
        if (t.fd i).src.toNat < initialMem then .error .killed
        else .ok (⟨size, fetch mem (t.fd i).src.toNat size ++ [0]⟩,
          t.setFd i {t.fd i with offsetRead := (t.fd i).offsetRead + BitVec.ofNat 64 size})
      else .ok (⟨0, []⟩, t) := by
  rw [FileCall.perform, sysRead_slot hsize h.direct h.above]
  split
  · split
    · rfl
    · rfl
  · rfl

/-- The end of a file with a short name is found. -/
theorem OpenOn.base_end (h : OpenOn index e i t) (hshort : e.name.length < 32) :
    t.base index i .end = some e.size := by
  obtain ⟨e', hfind, hsame⟩ := h.listed
  rw [Task.base, t.path_short (by rw [h.path hshort]; exact hshort), h.path hshort, hfind, Option.map_some, hsame]

theorem perform_lseek (offset : BitVec 64) (whence : Whence) {base : BitVec 64} (hbase : t.base index i whence = some base) :
    (FileCall.sysLseek offset whence).perform index mem i t =
      .ok (⟨(base + offset).toInt, []⟩, t.setFd i {t.fd i with seek := base + offset}) := by
  have hslot : slotOf (i.val : Int) = .ok i := slotOf_ok.mpr rfl
  rw [FileCall.perform, sysLseek, hslot]
  cases whence with
  | set =>
    obtain rfl := Option.some.inj hbase
    rw [show (0 : BitVec 64) + offset = offset from BitVec.zero_add offset]
    rfl
  | cur =>
    obtain rfl := Option.some.inj hbase
    rfl
  | «end» =>
    obtain ⟨e', hfind, rfl⟩ := Option.map_eq_some_iff.mp hbase
    simp only [Bind.bind, Except.bind, hfind]
    rfl

theorem perform_lseek_none (offset : BitVec 64) (whence : Whence) (hbase : t.base index i whence = none) :
    (FileCall.sysLseek offset whence).perform index mem i t = .error .bounds := by
  have hslot : slotOf (i.val : Int) = .ok i := slotOf_ok.mpr rfl
  cases whence with
  | set => cases hbase
  | cur => cases hbase
  | «end» =>
    have hfind := Option.map_eq_none_iff.mp hbase
    rw [FileCall.perform, sysLseek, hslot]
    simp only [Bind.bind, Except.bind, hfind]
    rfl

/-- What the memory holds does not change where a call leads. -/
theorem OpenOn.step_eq (h : OpenOn index e i t) (c : FileCall) :
    c.step index mem i e (t, pos) = c.step index mem' i e (t, pos) := by
  cases c with
  | sysLseek offset whence =>
    cases whence with
    | set => rfl
    | cur => rfl
    | «end» => rfl
  | sysRead size =>
    rcases Nat.eq_zero_or_pos size with rfl | hsize
    · rfl
    · simp only [FileCall.step, h.perform_read hsize]
      split
      · split
        · rfl
        · rfl
      · rfl

theorem OpenOn.step (h : OpenOn index e i t) {c : FileCall} {s : Task × BitVec 64}
    (hs : c.step index mem i e (t, pos) = some s) : OpenOn index e i s.1 := by
  obtain ⟨o, ho, rfl⟩ := Option.map_eq_some_iff.mp hs
  dsimp only
  cases c with
  | sysLseek offset whence =>
    cases hbase : t.base index i whence with
    | none =>
      rw [perform_lseek_none offset whence hbase] at ho
      cases ho
    | some base =>
      rw [perform_lseek offset whence hbase] at ho
      obtain rfl := Option.some.inj ho
      exact h.setFd rfl
  | sysRead size =>
    rcases Nat.eq_zero_or_pos size with rfl | hsize
    · obtain rfl := Option.some.inj ho
      exact h
    · rw [h.perform_read hsize] at ho
      split at ho
      · split at ho
        · cases ho
        · obtain rfl := Option.some.inj ho
          exact h.setFd rfl
      · obtain rfl := Option.some.inj ho
        exact h

/-- Of two places in memory that always hold the same, one is the other. -/
theorem fetch_eq_iff {a b n : Nat} (hn : 0 < n) : (∀ mem, fetch mem a n = fetch mem b n) ↔ a = b := by
  constructor
  · intro h
    have hfirst := congrArg (·[0]?) (h fun x => if x = a then 1 else 0)
    simp only [getElem?_fetch _ _ hn, Nat.add_zero, if_true] at hfirst
    by_contra hne
    rw [if_neg (Ne.symm hne)] at hfirst
    exact absurd hfirst (by decide)
  · intro h mem
    rw [h]

/-- A whole request is read as the file should be, whatever it holds, if the file has
that much and the address is that of the position. -/
theorem agrees_iff {src start rest : Nat} (hsize : 0 < size) :
    (∀ mem, Reply.Agrees ⟨size, fetch mem src size ++ [0]⟩ ⟨(min size rest : Nat), fetch mem start (min size rest)⟩) ↔
      size ≤ rest ∧ src = start := by
  constructor
  · intro h
    have hret : (size : Int) = (min size rest : Nat) := (h fun _ => 0).1
    have hmin : min size rest = size := by omega
    refine ⟨by omega, (fetch_eq_iff hsize).mp fun mem => ?_⟩
    obtain hshort | hzero := (h mem).2
    · have hlen := congrArg List.length hshort
      simp only [List.length_append, length_fetch, List.length_singleton] at hlen
      omega
    · simp only [hmin] at hzero
      exact List.append_cancel_right hzero
  · rintro ⟨hle, rfl⟩ mem
    rw [Nat.min_eq_left hle]
    exact ⟨rfl, Or.inr rfl⟩

/-- The file has what is asked for, and the code reads it at the position, or both are
at the end. -/
theorem OpenOn.like_read_iff (h : OpenOn index e i t) (hplaced : e.Placed) (size : Nat) :
    (∀ mem, (FileCall.sysRead size).LikeFile index mem i e (t, pos)) ↔
      (FileCall.sysRead size).Allowed index e i (t, pos) := by
  rcases Nat.eq_zero_or_pos size with rfl | hsize
  · refine ⟨fun _ => Or.inl rfl, fun _ mem => ⟨_, rfl, ?_⟩⟩
    simp only [FileCall.spec, Nat.zero_min]
    exact ⟨rfl, Or.inl rfl⟩
  · have hne : size ≠ 0 := by omega
    simp only [FileCall.LikeFile, FileCall.Allowed, FileCall.spec, h.perform_read hsize, hne, false_or]
    by_cases hmore : (t.fd i).Unread
    · simp only [hmore, if_true, not_true, false_and, true_and, false_or]
      constructor
      · intro hlike
        have hreads : ∀ mem, Reply.Agrees ⟨size, fetch mem (t.fd i).src.toNat size ++ [0]⟩
            ⟨(min size (e.fileSize.toNat - pos.toNat) : Nat),
              fetch mem (e.binStartAddr + pos.toNat) (min size (e.fileSize.toNat - pos.toNat))⟩ := by
          intro mem
          obtain ⟨o, ho, hagrees⟩ := hlike mem
          split at ho
          · cases ho
          · rw [← Except.ok.inj ho] at hagrees
            exact hagrees
        obtain ⟨hle, hsrc⟩ := (agrees_iff hsize).mp hreads
        refine ⟨BitVec.eq_of_toNat_eq ?_, by omega⟩
        rw [hplaced.addr_add (by omega)]
        exact hsrc
      · rintro ⟨hsrc, hle⟩ mem
        have haddr : (e.addr + pos).toNat = e.binStartAddr + pos.toNat := hplaced.addr_add (by omega)
        have hlow := hplaced.low
        rw [← hsrc] at haddr
        rw [if_neg (by omega)]
        exact ⟨_, rfl, (agrees_iff hsize).mpr ⟨by omega, haddr⟩ mem⟩
    · simp only [hmore, if_false, not_false_eq_true, true_and, false_and, or_false]
      constructor
      · intro hlike
        obtain ⟨o, ho, hret, _⟩ := hlike fun _ => 0
        rw [← Except.ok.inj ho] at hret
        dsimp only at hret
        omega
      · intro hend mem
        rw [show min size (e.fileSize.toNat - pos.toNat) = 0 by omega]
        exact ⟨_, rfl, rfl, Or.inl rfl⟩

theorem OpenOn.like_lseek_iff (h : OpenOn index e i t) (offset : BitVec 64) (whence : Whence) :
    (FileCall.sysLseek offset whence).LikeFile index mem i e (t, pos) ↔
      (FileCall.sysLseek offset whence).Allowed index e i (t, pos) := by
  -- the reply is right just if what the offset is added to is
  have hreply : ∀ {base target : BitVec 64}, t.base index i whence = some base →
      ((FileCall.sysLseek offset whence).spec e mem pos).1 = ⟨(target + offset).toInt, []⟩ →
        ((FileCall.sysLseek offset whence).LikeFile index mem i e (t, pos) ↔ base = target) := by
    intro base target hbase hspec
    rw [FileCall.LikeFile, perform_lseek offset whence hbase, hspec]
    constructor
    · rintro ⟨o, ho, hret, _⟩
      rw [← Except.ok.inj ho] at hret
      exact (BitVec.add_left_inj offset).mp (BitVec.eq_of_toInt_eq hret)
    · rintro rfl
      exact ⟨_, rfl, rfl, Or.inl rfl⟩
  cases whence with
  | set =>
    have hzero : (0 : BitVec 64) + offset = offset := BitVec.zero_add offset
    exact iff_of_true ((hreply rfl (by rw [hzero]; rfl)).mpr rfl) trivial
  | cur => exact hreply rfl rfl
  | «end» =>
    by_cases hshort : e.name.length < 32
    · exact iff_of_true ((hreply (h.base_end hshort) rfl).mpr rfl) (Or.inl hshort)
    · cases hfind : index.find? (·.name == t.path i) with
      | none =>
        refine iff_of_false ?_ ?_
        · rintro ⟨o, ho, _⟩
          rw [perform_lseek_none offset .end (by rw [Task.base, hfind]; rfl)] at ho
          cases ho
        · rintro (hc | ⟨e', he', _⟩)
          · exact hshort hc
          · rw [hfind] at he'
            cases he'
      | some e' =>
        rw [hreply (by rw [Task.base, hfind]; rfl) rfl]
        constructor
        · exact fun hsame => Or.inr ⟨e', hfind, hsame⟩
        · rintro (hc | ⟨e'', he'', hsame⟩)
          · exact absurd hc hshort
          · rw [hfind] at he''
            rw [Option.some.inj he'']
            exact hsame

/-- A call does what it is for, whatever the file holds, exactly if it is allowed. -/
theorem OpenOn.like_iff (h : OpenOn index e i t) (hplaced : e.Placed) (c : FileCall) :
    (∀ mem, c.LikeFile index mem i e (t, pos)) ↔ c.Allowed index e i (t, pos) := by
  cases c with
  | sysRead size => exact h.like_read_iff hplaced size
  | sysLseek offset whence =>
    constructor
    · intro hlike
      exact (h.like_lseek_iff offset whence).mp (hlike fun _ => 0)
    · intro hallowed mem
      exact (h.like_lseek_iff offset whence).mpr hallowed

/-- And so do the calls of a run. -/
theorem OpenOn.along_iff (h : OpenOn index e i t) (hplaced : e.Placed) (mem : Store) (calls : List FileCall) :
    (∀ content, Along (FileCall.step index content i e) (FileCall.LikeFile index content i e) (t, pos) calls) ↔
      Along (FileCall.step index mem i e) (FileCall.Allowed index e i) (t, pos) calls := by
  induction calls generalizing t pos with
  | nil => exact ⟨fun _ => trivial, fun _ _ => trivial⟩
  | cons c rest ih =>
    constructor
    · intro hlike
      refine ⟨(h.like_iff hplaced c).mp fun content => (hlike content).1, fun s hs => ?_⟩
      refine (ih (h.step hs)).mp fun content => (hlike content).2 s ?_
      rw [← hs]
      exact h.step_eq c
    · intro hallowed content
      refine ⟨(h.like_iff hplaced c).mpr hallowed.1 content, fun s hs => ?_⟩
      have hs' : c.step index mem i e (t, pos) = some s := by
        rw [← hs]
        exact h.step_eq c
      exact (ih (h.step hs')).mpr (hallowed.2 s hs') content

end

/-! ### A descriptor that has just been opened -/

/-- The name alone decides whether an entry is opened. -/
theorem opens_congr {fileName : List Byte} {e e' : Entry} (h : e.name = e'.name) : e.opens fileName = e'.opens fileName := by
  simp only [Entry.opens, Entry.nameAt, h]

/-- The entry that is opened is the first one of its name. -/
theorem find_name {index : List Entry} {fileName : List Byte} {e : Entry}
    (h : index.find? (·.opens fileName) = some e) :
    ∃ e', (modifyFirst (·.opens fileName) Entry.retain index).find? (·.name == e.name) = some e' ∧ e'.size = e.size := by
  induction index with
  | nil => cases h
  | cons x rest ih =>
    by_cases hx : x.opens fileName = true
    · rw [List.find?_cons_of_pos hx] at h
      obtain rfl := Option.some.inj h
      rw [modifyFirst, if_pos hx]
      exact ⟨x.retain, List.find?_cons_of_pos (beq_self_eq_true x.name), rfl⟩
    · rw [List.find?_cons_of_neg hx] at h
      have hname : ¬ (x.name == e.name) = true := by
        intro hsame
        rw [opens_congr (eq_of_beq hsame)] at hx
        exact hx (List.find?_some h)
      obtain ⟨e', hfind, hsame⟩ := ih h
      rw [modifyFirst, if_neg hx]
      exact ⟨e', (List.find?_cons_of_neg (p := fun x : Entry => x.name == e.name) hname).trans hfind, hsame⟩

theorem sysOpen_openOn {index : List Entry} {t : Task} (h : Handed t) {fileName : List Byte} {flags : Int} {o : Opened}
    {e : Entry} (ho : sysOpen index t fileName flags = .ok o) (he : index.find? (·.opens fileName) = some e)
    (hname : e.name.length < 100) : ∃ i : Fin 25, o.ret = i.val ∧ OpenOn o.index e i o.task := by
  obtain ⟨hnone, _⟩ | ⟨e', i, hfind, hi, rfl⟩ := sysOpen_cases ho
  · rw [he] at hnone
    cases hnone
  · obtain rfl : e = e' := Option.some.inj (he.symm.trans hfind)
    have hlow := h.low
    refine ⟨i, by rw [hi]; rfl, by omega, ?_, fun hshort => ?_, find_name he⟩
    · show overwrite 8 ((e.name ++ [0]).drop (72 * (25 - i) + 8 * i)) (t.dupArr i) = i.val
      rw [List.drop_eq_nil_of_le (by rw [List.length_append, List.length_singleton]; omega)]
      exact (h.unused i (by omega)).2
    · show ((t.fill i e flags).fd i).path = e.name
      rw [Task.fill_same, Entry.filled_short hshort]
      rfl

/-- Where the archive lies, every entry that `tarfs_initialize` makes is placed. -/
theorem Link.Loaded.placed {k : Link} {m : Store} {rs : List Record} (h : k.Loaded m rs) (hlow : initialMem ≤ k.start)
    {j : Nat} (hj : j < rs.length) : (rs[j].entry (k.start + (image (rs.take j)).length)).Placed := by
  have hfits := h.fits
  have hinside := h.record_le hj
  refine ⟨?_, ?_, ?_⟩
  · show (0 : Int) ≤ (rs[j].content.length : Nat)
    omega
  · show initialMem ≤ k.start + (image (rs.take j)).length + 512
    omega
  · show k.start + (image (rs.take j)).length + 512 + (rs[j].content.length : Int).toNat < 2 ^ 64
    omega

/-- Reading and seeking on a descriptor that `sys_open` has just returned, in any state a
process can come to: whatever the memory holds, every call of the run returns and
stores what the position says, exactly if every call is allowed. -/
theorem reads_like_file_iff (index : List Entry) (hnames : ∀ e ∈ index, e.name.length < 100) (before : List Call)
    (p : Proc) (hp : run proceed (start index) before = some p) (fileName : List Byte) (flags : Int) (o : Opened) (e : Entry)
    (ho : sysOpen p.index p.task fileName flags = .ok o) (he : p.index.find? (·.opens fileName) = some e)
    (hplaced : e.Placed) :
    ∃ i : Fin 25, o.ret = i.val ∧ ∀ (mem : Store) (calls : List FileCall),
      (∀ content, Along (FileCall.step o.index content i e) (FileCall.LikeFile o.index content i e)
        (o.task, 0) calls) ↔
      Along (FileCall.step o.index mem i e) (FileCall.Allowed o.index e i) (o.task, 0) calls := by
  obtain ⟨hintact, hnamed⟩ := run_intact hnames hp
  obtain ⟨i, hret, hopen⟩ := sysOpen_openOn hintact.toHanded ho he (hnamed e (List.mem_of_find?_eq_some he))
  exact ⟨i, hret, fun mem calls => hopen.along_iff hplaced mem calls⟩

/-- The file of five bytes, read from its start to its end and then sought in. -/
def readThrough : List FileCall := [.sysRead 2, .sysRead 3, .sysRead 4, .sysLseek 7 .set, .sysLseek 1 .cur, .sysRead 1]

theorem reads_like_file_through :
    ∃ o e, sysOpen oneFile Task.create [0x61] 0 = .ok o ∧ oneFile.head? = some e ∧ o.ret = 3 ∧
      ∀ content, Along (FileCall.step o.index content 3 e) (FileCall.LikeFile o.index content 3 e)
        (o.task, 0) readThrough := by
  obtain ⟨i, hret, hiff⟩ := reads_like_file_iff oneFile (by decide) [] (start oneFile) rfl [0x61] 0 _ _ rfl rfl
    ⟨by decide, by decide, by decide⟩
  obtain rfl : i = 3 := by
    apply Fin.ext
    have : (3 : Int) = i.val := hret
    show i.val = 3
    omega
  exact ⟨_, _, rfl, rfl, rfl, (hiff (fun _ => 0) readThrough).mpr (by decide +kernel)⟩

/-- A request for ten bytes of the file is served in full, past its end, and a position
that was sought is read as an address. -/
theorem read_past_end :
    ∃ o e, sysOpen oneFile Task.create [0x61] 0 = .ok o ∧ oneFile.head? = some e ∧ o.ret = 3 ∧
      ¬ Along (FileCall.step o.index (fun _ => 7) 3 e) (FileCall.LikeFile o.index (fun _ => 7) 3 e)
        (o.task, 0) [.sysRead 10] ∧
      ¬ Along (FileCall.step o.index (fun _ => 7) 3 e) (FileCall.LikeFile o.index (fun _ => 7) 3 e)
        (o.task, 0) [.sysLseek 2 .set, .sysRead 1] := by
  refine ⟨_, _, rfl, rfl, rfl, ?_, ?_⟩
  · rintro ⟨⟨o, ho, hret, _⟩, _⟩
    rw [← Except.ok.inj ho] at hret
    exact absurd hret (by decide)
  · rintro ⟨_, hrest⟩
    obtain ⟨⟨o, ho, _⟩, _⟩ := hrest _ rfl
    cases ho

/-- A file with a long name is at its end from the start. -/
example : ∃ o, sysOpen longNamed Task.create (List.replicate 36 0x61) 0 = .ok o ∧ o.ret = 3 ∧
    ((FileCall.sysRead 5).perform o.index (fun _ => 7) 3 o.task).map Prod.fst = .ok ⟨0, []⟩ :=
  ⟨_, rfl, rfl, by decide +kernel⟩

end Sbnix.Files
