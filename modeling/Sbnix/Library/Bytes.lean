import Mathlib.Data.List.Basic
import Mathlib.Tactic.Ring
import Sbnix.Library.Words

/-! Byte memory.

A store gives every address a byte. `put` writes a run of bytes, `fetch` reads
one, and numbers are kept as little-endian runs. A string is the bytes before the
first zero; `Spells` says which string an address points at. -/
namespace Sbnix.Library

export Words (Byte toInt_small)

abbrev Store := Nat → Byte

namespace Store

/-- The `n` bytes at `a`. -/
def fetch (m : Store) : Nat → Nat → List Byte
  | _, 0 => []
  | a, n + 1 => m a :: fetch m (a + 1) n

def put (m : Store) (a : Nat) (bytes : List Byte) : Store := fun x =>
  if a ≤ x then (bytes[x - a]?).getD (m x) else m x

/-- The two stores hold the same bytes at the `n` addresses from `a` on. -/
def Agree (m m' : Store) (a n : Nat) : Prop := ∀ x, a ≤ x → x < a + n → m' x = m x

/-- The second store differs from the first only at the `n` addresses from `e` on. -/
def Within (m m' : Store) (e n : Nat) : Prop := ∀ x, x < e ∨ e + n ≤ x → m' x = m x

/-- The bytes lie at `a`. -/
def Holds (m : Store) (a : Nat) (bytes : List Byte) : Prop := fetch m a bytes.length = bytes

theorem length_fetch (m : Store) (a n : Nat) : (fetch m a n).length = n := by
  induction n generalizing a with
  | zero => rfl
  | succ n ih => simp [fetch, ih]

theorem getElem?_fetch (m : Store) (a : Nat) {n i : Nat} (h : i < n) : (fetch m a n)[i]? = some (m (a + i)) := by
  induction n generalizing a i with
  | zero => omega
  | succ n ih =>
    cases i with
    | zero => rfl
    | succ i =>
      have : a + (i + 1) = a + 1 + i := by omega
      rw [fetch, List.getElem?_cons_succ, ih (a + 1) (by omega), this]

theorem fetch_congr {m m' : Store} {a n : Nat} (h : Agree m m' a n) : fetch m' a n = fetch m a n := by
  induction n generalizing a with
  | zero => rfl
  | succ n ih =>
    have htail : Agree m m' (a + 1) n := fun x hx hlt => h x (by omega) (by omega)
    rw [fetch, fetch, h a (by omega) (by omega), ih htail]

theorem fetch_add (m : Store) (a n k : Nat) : fetch m a (n + k) = fetch m a n ++ fetch m (a + n) k := by
  induction n generalizing a with
  | zero => simp [fetch]
  | succ n ih =>
    have hsum : n + 1 + k = n + k + 1 := by omega
    have hnext : a + (n + 1) = a + 1 + n := by omega
    rw [hsum, fetch, ih, fetch, hnext, List.cons_append]

theorem Agree.trans {m m' m'' : Store} {a n : Nat} (h : Agree m m' a n) (h' : Agree m' m'' a n) :
    Agree m m'' a n := fun x hx hlt => (h' x hx hlt).trans (h x hx hlt)

theorem Agree.mono {m m' : Store} {a n b k : Nat} (h : Agree m m' a n) (hlo : a ≤ b) (hhi : b + k ≤ a + n) :
    Agree m m' b k := fun x hx hlt => h x (by omega) (by omega)

theorem put_below (m : Store) {a x : Nat} (bytes : List Byte) (h : x < a) : put m a bytes x = m x := by
  rw [put, if_neg (by omega)]

theorem put_above (m : Store) {a x : Nat} (bytes : List Byte) (h : a + bytes.length ≤ x) :
    put m a bytes x = m x := by
  rw [put, if_pos (by omega), List.getElem?_eq_none (by omega)]
  rfl

theorem put_at (m : Store) (a : Nat) (bytes : List Byte) {i : Nat} (h : i < bytes.length) :
    put m a bytes (a + i) = bytes[i] := by
  have : a + i - a = i := by omega
  rw [put, if_pos (by omega), this, List.getElem?_eq_getElem h]
  rfl

/-- Two writes, one right after the other. -/
theorem put_append (m : Store) (a : Nat) (xs ys : List Byte) :
    put (put m a xs) (a + xs.length) ys = put m a (xs ++ ys) := by
  funext x
  by_cases hlow : x < a
  · rw [put_below _ _ (by omega), put_below _ _ hlow, put_below _ _ hlow]
  · obtain ⟨i, rfl⟩ := Nat.exists_eq_add_of_le (by omega : a ≤ x)
    have hall : (xs ++ ys).length = xs.length + ys.length := List.length_append
    by_cases hfirst : i < xs.length
    · rw [put_below _ _ (by omega), put_at _ _ _ hfirst, put_at _ _ _ (by omega), List.getElem_append_left hfirst]
    · by_cases hlast : i < xs.length + ys.length
      · have hsub : a + i = a + xs.length + (i - xs.length) := by omega
        rw [put_at _ _ (xs ++ ys) (by omega), List.getElem_append_right (by omega), hsub, put_at _ _ _ (by omega)]
      · rw [put_above _ _ (by omega), put_above _ _ (by omega), put_above _ _ (by omega)]

theorem put_put {a b : Nat} (m : Store) (xs ys : List Byte) (h : b = a + xs.length) :
    put (put m a xs) b ys = put m a (xs ++ ys) := by
  rw [h, put_append]

/-- A write outside a range leaves the range alone. -/
theorem put_agree (m : Store) {a b n : Nat} (bytes : List Byte) (h : a + bytes.length ≤ b ∨ b + n ≤ a) :
    Agree m (put m a bytes) b n := by
  intro x hx hlt
  obtain h | h := h
  · exact put_above m bytes (by omega)
  · exact put_below m bytes (by omega)

theorem put_within (m : Store) {a e n : Nat} (bytes : List Byte) (hlo : e ≤ a) (hhi : a + bytes.length ≤ e + n) :
    Within m (put m a bytes) e n := by
  intro x hx
  obtain hx | hx := hx
  · exact put_below m bytes (by omega)
  · exact put_above m bytes (by omega)

theorem Within.trans {m m' m'' : Store} {e n : Nat} (h : Within m m' e n) (h' : Within m' m'' e n) :
    Within m m'' e n := fun x hx => (h' x hx).trans (h x hx)

theorem Within.mono {m m' : Store} {e n b k : Nat} (h : Within m m' e n) (hlo : b ≤ e) (hhi : e + n ≤ b + k) :
    Within m m' b k := fun x hx => h x (by omega)

theorem Within.agree {m m' : Store} {e n b k : Nat} (h : Within m m' e n) (hd : b + k ≤ e ∨ e + n ≤ b) :
    Agree m m' b k := fun x hx hlt => h x (by omega)

theorem holds_of_at {m : Store} {a : Nat} {bytes : List Byte}
    (h : ∀ i (hi : i < bytes.length), m (a + i) = bytes[i]) : Holds m a bytes := by
  apply List.ext_getElem?
  intro i
  by_cases hi : i < bytes.length
  · rw [getElem?_fetch _ _ hi, h i hi, List.getElem?_eq_getElem hi]
  · rw [List.getElem?_eq_none (by rw [length_fetch]; omega), List.getElem?_eq_none (by omega)]

theorem put_holds (m : Store) (a : Nat) (bytes : List Byte) : Holds (put m a bytes) a bytes :=
  holds_of_at fun _ hi => put_at m a bytes hi

theorem Holds.congr {m m' : Store} {a : Nat} {bytes : List Byte} (h : Holds m a bytes)
    (ha : Agree m m' a bytes.length) : Holds m' a bytes := by
  rw [Holds, fetch_congr ha]
  exact h

theorem Holds.at {m : Store} {a : Nat} {bytes : List Byte} (h : Holds m a bytes) {i : Nat}
    (hi : i < bytes.length) : m (a + i) = bytes[i] := by
  have hget : (fetch m a bytes.length)[i]? = bytes[i]? := by rw [h]
  rw [getElem?_fetch m a hi, List.getElem?_eq_getElem hi] at hget
  exact Option.some.inj hget

/-- Storing what is there already changes nothing. -/
theorem put_same {m : Store} {a : Nat} {bytes : List Byte} (h : Holds m a bytes) : put m a bytes = m := by
  funext x
  by_cases hlow : x < a
  · exact put_below m bytes hlow
  · obtain ⟨i, rfl⟩ := Nat.exists_eq_add_of_le (Nat.le_of_not_lt hlow)
    by_cases hi : i < bytes.length
    · rw [put_at m a bytes hi, h.at hi]
    · exact put_above m bytes (by omega)

theorem holds_append {m : Store} {a : Nat} {xs ys : List Byte} :
    Holds m a (xs ++ ys) ↔ Holds m a xs ∧ Holds m (a + xs.length) ys := by
  rw [Holds, List.length_append, fetch_add]
  constructor
  · intro h
    exact List.append_inj h (length_fetch m a xs.length)
  · intro h
    rw [h.1, h.2]

theorem Holds.of_isPrefix {m : Store} {a : Nat} {xs ys : List Byte} (h : Holds m a ys) (hp : xs <+: ys) :
    Holds m a xs := by
  obtain ⟨rest, rfl⟩ := hp
  exact (holds_append.mp h).1

theorem Holds.drop {m : Store} {a : Nat} {xs : List Byte} (h : Holds m a xs) {k : Nat} (hk : k ≤ xs.length) :
    Holds m (a + k) (xs.drop k) := by
  have hsplit : Holds m a (xs.take k ++ xs.drop k) := by rw [List.take_append_drop]; exact h
  have hlen : (xs.take k).length = k := List.length_take_of_le hk
  have := (holds_append.mp hsplit).2
  rw [hlen] at this
  exact this

theorem holds_nil (m : Store) (a : Nat) : Holds m a [] := rfl

theorem holds_cons {m : Store} {a : Nat} {b : Byte} {bytes : List Byte} :
    Holds m a (b :: bytes) ↔ m a = b ∧ Holds m (a + 1) bytes := by
  rw [Holds, List.length_cons, fetch, List.cons.injEq]
  rfl

/-! ### Several writes -/

/-- Two ranges do not overlap. -/
def Clear (a n b k : Nat) : Prop := a + n ≤ b ∨ b + k ≤ a

/-- Write runs of bytes, the first of the list first. -/
def putAll (m : Store) (writes : List (Nat × List Byte)) : Store := writes.foldl (fun m w => put m w.1 w.2) m

theorem putAll_agree {m : Store} {a n : Nat} {writes : List (Nat × List Byte)}
    (h : ∀ w ∈ writes, Clear w.1 w.2.length a n) : Agree m (putAll m writes) a n := by
  induction writes generalizing m with
  | nil => exact fun _ _ _ => rfl
  | cons w rest ih =>
    exact (put_agree m w.2 (h w (List.mem_cons_self ..))).trans (ih fun w' hw => h w' (List.mem_cons_of_mem _ hw))

/-- Writes that do not overlap can all be read back. -/
theorem putAll_holds {m : Store} {writes : List (Nat × List Byte)}
    (h : writes.Pairwise fun w w' => Clear w'.1 w'.2.length w.1 w.2.length) {w : Nat × List Byte} (hw : w ∈ writes) :
    Holds (putAll m writes) w.1 w.2 := by
  induction writes generalizing m with
  | nil => cases hw
  | cons w' rest ih =>
    obtain ⟨hfirst, hrest⟩ := List.pairwise_cons.mp h
    obtain rfl | hw := List.mem_cons.mp hw
    · exact (put_holds m w.1 w.2).congr (putAll_agree hfirst)
    · exact ih hrest hw

end Store

/-! ### Little-endian numbers -/

def toLE : Nat → Nat → List Byte
  | 0, _ => []
  | n + 1, v => BitVec.ofNat 8 v :: toLE n (v / 256)

def ofLE : List Byte → Nat
  | [] => 0
  | b :: rest => b.toNat + 256 * ofLE rest

theorem length_toLE (n v : Nat) : (toLE n v).length = n := by
  induction n generalizing v with
  | zero => rfl
  | succ n ih => simp [toLE, ih]

theorem ofLE_toLE (n v : Nat) : ofLE (toLE n v) = v % 256 ^ n := by
  induction n generalizing v with
  | zero => simp [toLE, ofLE, Nat.mod_one]
  | succ n ih =>
    have hpow : 256 ^ (n + 1) = 256 * 256 ^ n := by ring
    rw [toLE, ofLE, ih, BitVec.toNat_ofNat, hpow, Nat.mod_mul]

theorem toLE_ofLE (bytes : List Byte) : toLE bytes.length (ofLE bytes) = bytes := by
  induction bytes with
  | nil => rfl
  | cons b rest ih =>
    have hlt := b.isLt
    have hbyte : BitVec.ofNat 8 (b.toNat + 256 * ofLE rest) = b := by
      apply BitVec.eq_of_toNat_eq
      rw [BitVec.toNat_ofNat]
      omega
    have hrest : (b.toNat + 256 * ofLE rest) / 256 = ofLE rest := by omega
    rw [List.length_cons, toLE, ofLE, hbyte, hrest, ih]

/-! ### Strings -/

namespace Store

/-- The address points at the string: its bytes, none of them zero, and then a zero. -/
def Spells (m : Store) (a : Nat) (s : List Byte) : Prop := Holds m a (s ++ [0]) ∧ (0 : Byte) ∉ s

/-- The number of bytes before the first zero, among the first `fuel`. -/
def scan (m : Store) : Nat → Nat → Nat
  | _, 0 => 0
  | a, fuel + 1 => if m a = 0 then 0 else scan m (a + 1) fuel + 1

theorem Spells.congr {m m' : Store} {a : Nat} {s : List Byte} (h : Spells m a s)
    (ha : Agree m m' a (s.length + 1)) : Spells m' a s :=
  ⟨h.1.congr (by rw [List.length_append]; exact ha), h.2⟩

theorem scan_spells {m : Store} {a fuel : Nat} {s : List Byte} (h : Spells m a s) (hf : s.length < fuel) :
    scan m a fuel = s.length := by
  induction s generalizing a fuel with
  | nil =>
    obtain ⟨fuel, rfl⟩ := Nat.exists_eq_succ_of_ne_zero (by omega : fuel ≠ 0)
    have hzero : m a = 0 := (holds_cons.mp h.1).1
    rw [scan, if_pos hzero]
    rfl
  | cons b rest ih =>
    obtain ⟨fuel, rfl⟩ := Nat.exists_eq_succ_of_ne_zero (by omega : fuel ≠ 0)
    obtain ⟨hbyte, hrest⟩ := holds_cons.mp h.1
    have hb : m a ≠ 0 := by
      rw [hbyte]
      intro hzero
      exact h.2 (hzero ▸ List.mem_cons_self)
    have hspell : Spells m (a + 1) rest := ⟨hrest, fun hz => h.2 (List.mem_cons_of_mem b hz)⟩
    have hlen : rest.length < fuel := by
      rw [List.length_cons] at hf
      omega
    rw [scan, if_neg hb, ih hspell hlen, List.length_cons]

theorem scan_le (m : Store) (a fuel : Nat) : scan m a fuel ≤ fuel := by
  induction fuel generalizing a with
  | zero => exact Nat.le_refl _
  | succ fuel ih =>
    rw [scan]
    split
    · exact Nat.zero_le _
    · exact Nat.succ_le_succ (ih _)

/-- The bytes before the first zero are a string. -/
theorem spells_scan {m : Store} {a fuel : Nat} (h : scan m a fuel < fuel) : Spells m a (fetch m a (scan m a fuel)) := by
  induction fuel generalizing a with
  | zero => cases h
  | succ fuel ih =>
    rw [scan] at h ⊢
    by_cases hzero : m a = 0
    · rw [if_pos hzero]
      exact ⟨holds_cons.mpr ⟨hzero, holds_nil m _⟩, List.not_mem_nil⟩
    · rw [if_neg hzero] at h ⊢
      obtain ⟨hholds, hnone⟩ := ih (a := a + 1) (by omega)
      rw [fetch]
      refine ⟨holds_cons.mpr ⟨rfl, hholds⟩, fun hc => ?_⟩
      obtain hc | hc := List.mem_cons.mp hc
      · exact hzero hc.symm
      · exact hnone hc

theorem scan_congr {m m' : Store} {a n : Nat} (h : Agree m m' a n) : scan m' a n = scan m a n := by
  induction n generalizing a with
  | zero => rfl
  | succ n ih =>
    rw [scan, scan, h a (Nat.le_refl _) (by omega), ih (h.mono (by omega) (by omega))]

/-- Bytes that are not zero are passed over. -/
theorem scan_append {m : Store} {a fuel : Nat} {s : List Byte} (h : Holds m a s) (hz : (0 : Byte) ∉ s)
    (hf : s.length ≤ fuel) : scan m a fuel = s.length + scan m (a + s.length) (fuel - s.length) := by
  induction s generalizing a fuel with
  | nil => rw [List.length_nil, Nat.add_zero, Nat.sub_zero, Nat.zero_add]
  | cons b rest ih =>
    rw [List.length_cons] at hf
    obtain ⟨fuel, rfl⟩ := Nat.exists_eq_succ_of_ne_zero (by omega : fuel ≠ 0)
    obtain ⟨hbyte, hrest⟩ := holds_cons.mp h
    have hb : m a ≠ 0 := by
      rw [hbyte]
      exact fun hc => hz (hc ▸ List.mem_cons_self ..)
    have htail := ih hrest (fun hc => hz (List.mem_cons_of_mem b hc)) (Nat.le_of_succ_le_succ hf)
    rw [scan, if_neg hb, htail, List.length_cons, Nat.succ_sub_succ, Nat.add_right_comm, Nat.add_assoc a,
      Nat.add_comm 1]

theorem Spells.holds {m : Store} {a : Nat} {s : List Byte} (h : Spells m a s) : Holds m a s :=
  (holds_append.mp h.1).1

theorem Spells.unique {m : Store} {a : Nat} {s t : List Byte} (hs : Spells m a s) (ht : Spells m a t) : s = t := by
  have hlen : s.length = t.length := by
    rw [← scan_spells hs (Nat.lt_succ_of_le (Nat.le_add_right s.length t.length)),
      scan_spells ht (Nat.lt_succ_of_le (Nat.le_add_left t.length s.length))]
  rw [← hs.holds, ← ht.holds, hlen]

theorem spells_append {m : Store} {a : Nat} {s r : List Byte} (h : Spells m a (s ++ r)) : Spells m (a + s.length) r := by
  refine ⟨?_, fun hc => h.2 (List.mem_append_right _ hc)⟩
  have hall := h.1
  rw [List.append_assoc] at hall
  exact (holds_append.mp hall).2

theorem spells_nil {m : Store} {a : Nat} (h : Spells m a []) : m a = 0 := (holds_cons.mp h.1).1

theorem spells_cons {m : Store} {a : Nat} {b : Byte} {s : List Byte} (h : Spells m a (b :: s)) :
    m a = b ∧ b ≠ 0 ∧ Spells m (a + 1) s := by
  obtain ⟨hb, hrest⟩ := holds_cons.mp h.1
  exact ⟨hb, fun hc => h.2 (hc ▸ List.mem_cons_self ..), hrest, fun hc => h.2 (List.mem_cons_of_mem _ hc)⟩

/-- Copy `n` bytes one after the other, from the `i`-th on. -/
def copyFrom (dst src : Nat) : Nat → Nat → Store → Store
  | _, 0, m => m
  | i, n + 1, m => copyFrom dst src (i + 1) n (put m (dst + i) [m (src + i)])

/-- A copy between places that do not overlap writes what was read. -/
theorem copyFrom_eq (dst src : Nat) {len : Nat} (m₀ : Store) (hd : dst + len ≤ src ∨ src + len ≤ dst) :
    ∀ (n i : Nat) (m : Store), i + n ≤ len → Agree m₀ m src len → ∀ x,
      copyFrom dst src i n m x = if dst + i ≤ x ∧ x < dst + i + n then m₀ (src + (x - dst)) else m x := by
  intro n
  induction n with
  | zero =>
    intro i m _ _ x
    rw [copyFrom, if_neg (by omega)]
  | succ n ih =>
    intro i m hlen hagree x
    have hsrc : m (src + i) = m₀ (src + i) := hagree (src + i) (by omega) (by omega)
    have hstep : Agree m₀ (put m (dst + i) [m (src + i)]) src len := by
      refine hagree.trans (put_agree m _ ?_)
      simp only [List.length_singleton]
      omega
    rw [copyFrom, ih (i + 1) _ (by omega) hstep x]
    by_cases hx : x = dst + i
    · subst hx
      have hat := put_at m (dst + i) [m (src + i)] (show 0 < 1 by omega)
      have hoff : dst + i - dst = i := by omega
      rw [if_neg (by omega), if_pos (by omega), hoff, ← hsrc]
      exact hat
    · by_cases hin : dst + (i + 1) ≤ x ∧ x < dst + (i + 1) + n
      · rw [if_pos hin, if_pos (by omega)]
      · rw [if_neg hin, if_neg (by omega)]
        by_cases hlow : x < dst + i
        · exact put_below m _ hlow
        · exact put_above m _ (by rw [List.length_singleton]; omega)

end Store

end Sbnix.Library
