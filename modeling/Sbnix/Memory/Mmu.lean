import Sbnix.Memory.Spaces

/-! User-mode accesses.

The processor translates an address by reading one entry on each of the four
levels, from the root in `cr3` down. An absent entry on the way, or a right missing
on any level, raises a page fault with an error code: bit 0 says that the page was
present, bit 1 that the access was a write, bit 2 that it came from user mode. The
handler runs, and the instruction is started again; a fault drops what the
processor had cached for the address, so the second walk sees the tables as the
handler left them. No entry of the kernel's tables has the page-size bit. -/
namespace Sbnix.Memory
open Words Library

def pageUser : Word := 4

/-- The frame an entry, or `cr3`, names: bits 12 to 51. -/
def entryFrame (e : Word) : Nat := e.toNat / 4096 % 2 ^ 40

def faultCode (present write : Bool) : Word :=
  (if present then pagePresent else 0) ||| (if write then pageWrite else 0) ||| pageUser

/-- The entry permits the access. -/
def allows (write : Bool) (e : Word) : Bool :=
  e &&& pageUser != 0 && (!write || e &&& pageWrite != 0)

/-- The frame of the page, or the error code. -/
def translate (s : Mem) (cr3 v : Word) (write : Bool) : Except Word Nat :=
  let pml4e := s.phys (entryFrame cr3) (slot v .pml4e)
  if pml4e &&& pagePresent = 0 then .error (faultCode false write)
  else
    let pdpe := s.phys (entryFrame pml4e) (slot v .pdpe)
    if pdpe &&& pagePresent = 0 then .error (faultCode false write)
    else
      let pde := s.phys (entryFrame pdpe) (slot v .pde)
      if pde &&& pagePresent = 0 then .error (faultCode false write)
      else
        let pte := s.phys (entryFrame pde) (slot v .pte)
        if pte &&& pagePresent = 0 then .error (faultCode false write)
        else if allows write pml4e && allows write pdpe && allows write pde && allows write pte then
          .ok (entryFrame pte)
        else .error (faultCode true write)

/-- Translate, and if that faults run the handler and translate again; no frame if
the access cannot be done. -/
def access (exitReturns : Bool) (s : Mem) (cr3 pml4e v : Word) (write : Bool) : Option Nat × Mem :=
  match translate s cr3 v write with
  | .ok f => (some f, s)
  | .error code =>
    match pageFault exitReturns s pml4e v code with
    | .resolved _ s' => ((translate s' cr3 v write).toOption, s')
    | .killed s' => (none, s')
    | .crashed => (none, s)

/-- The word of its page an address lies in. -/
def wordOf (v : Word) : Fin 512 := ⟨v.toNat % 4096 / 8, by omega⟩

/-- A byte of a page. -/
def pageByte (page : Fin 512 → Word) (v : Word) : Byte := byteOf (page (wordOf v)) (v.toNat % 8)

/-- Memory with one byte of a frame replaced. -/
def setFrameByte (s : Mem) (f : Nat) (v : Word) (b : Byte) : Mem :=
  {s with phys := writeEntry s.phys f (wordOf v) (setByte (s.phys f (wordOf v)) (v.toNat % 8) b)}

theorem translate_lt {s : Mem} {cr3 v : Word} {write : Bool} {f : Nat} (h : translate s cr3 v write = .ok f) :
    f < 2 ^ 40 := by
  unfold translate at h
  dsimp only at h
  split at h
  · cases h
  · split at h
    · cases h
    · split at h
      · cases h
      · split at h
        · cases h
        · split at h
          · cases h
            exact Nat.mod_lt _ (by decide)
          · cases h

theorem access_lt {exitReturns : Bool} {s : Mem} {cr3 pml4e v : Word} {write : Bool} {f : Nat}
    (h : (access exitReturns s cr3 pml4e v write).1 = some f) : f < 2 ^ 40 := by
  unfold access at h
  split at h
  · rename_i g htrans
    obtain rfl := Option.some.inj h
    exact translate_lt htrans
  · split at h
    · rename_i s' _
      cases htrans : translate s' cr3 v write with
      | ok g =>
        rw [htrans] at h
        obtain rfl := Option.some.inj h
        exact translate_lt htrans
      | error code =>
        rw [htrans] at h
        cases h
    · cases h
    · cases h

/-- Writing a byte stores a word. -/
theorem setFrameByte_steps (s : Mem) {f : Nat} (hf : f < 2 ^ 40) (v : Word) (b : Byte) :
    Steps s (setFrameByte s f v b) := by
  have hstore : setFrameByte s f v b =
      s.store (nth (framePtr f) (wordOf v)) (setByte (s.phys f (wordOf v)) (v.toNat % 8) b) :=
    (store_nth s (by omega) (wordOf v) _).symm
  rw [hstore]
  exact Steps.refl.store _ _

theorem access_length (exitReturns : Bool) (s : Mem) (cr3 pml4e v : Word) (write : Bool) :
    (access exitReturns s cr3 pml4e v write).2.handed.length ≤ s.handed.length + 4 := by
  unfold access
  split
  · dsimp only
    omega
  · rename_i code _
    have hfault := pageFault_length exitReturns s pml4e v code
    cases hrun : pageFault exitReturns s pml4e v code with
    | resolved n t =>
      rw [hrun] at hfault
      exact hfault t rfl
    | killed t =>
      rw [hrun] at hfault
      exact hfault t rfl
    | crashed =>
      dsimp only
      omega

theorem access_steps (exitReturns : Bool) (s : Mem) (cr3 pml4e v : Word) (write : Bool) :
    Steps s (access exitReturns s cr3 pml4e v write).2 := by
  unfold access
  split
  · exact .refl
  · rename_i code _
    have hfault := pageFault_steps exitReturns s pml4e v code
    cases hrun : pageFault exitReturns s pml4e v code with
    | resolved n t =>
      rw [hrun] at hfault
      exact hfault t rfl
    | killed t =>
      rw [hrun] at hfault
      exact hfault t rfl
    | crashed => exact .refl

/-! ### Translation reads the page map -/

/-- The path of an address to its last-level entry. -/
def pagePath (v : Word) : List (Fin 512) := tablePath v ++ [slot v .pte]

/-- The part of an address the four indices and the offset distinguish. -/
def addr (v : Word) : Nat := v.toNat % 2 ^ 48

theorem pagePath_eq_iff (v w : Word) : pagePath v = pagePath w ↔ addr v / 4096 = addr w / 4096 := by
  have hpath : pagePath v = pagePath w ↔ tablePath v = tablePath w ∧ slot v .pte = slot w .pte := by
    unfold pagePath
    constructor
    · intro h
      obtain ⟨htable, hslot⟩ := List.append_inj' h rfl
      exact ⟨htable, by simpa using hslot⟩
    · intro h
      rw [h.1, h.2]
  rw [hpath, path_eq_iff, SamePage, addr, addr]
  omega

variable {s s' : Mem} {loc loc' : TableMap} {pg pg' : PageMap} {r f g : Nat} {p : Page Nat}

theorem entryFrame_frameAddr (hf : f < maxMem) : entryFrame (frameAddr f) = f := by
  have hmax := maxMem_lt
  rw [entryFrame, frameAddr_toNat (by omega)]
  omega

theorem entryFrame_table (hf : f < 2 ^ 15) : entryFrame (tableEntry (some f)) = f := by
  rw [entryFrame, tableEntry, entry_toNat (by omega)]
  omega

theorem entryFrame_page (hp : p.frame < maxMem) : entryFrame (pageEntry (some p)) = p.frame := by
  have hmax := maxMem_lt
  have h := congrArg BitVec.toNat (pageEntry_mask hp)
  rw [toNat_and_pageMask, frameAddr_toNat (by omega)] at h
  rw [entryFrame]
  omega

theorem allows_table (write : Bool) (f : Nat) : allows write (tableEntry (some f)) = true := by
  have hu : tableEntry (some f) &&& pageUser ≠ 0 := fun h => by
    have := congrArg (fun w : Word => w.getLsbD 2) h
    simp [tableEntry, pagePerm, pageUser] at this
  have hw : tableEntry (some f) &&& pageWrite ≠ 0 := fun h => by
    have := congrArg (fun w : Word => w.getLsbD 1) h
    simp [tableEntry, pagePerm, pageWrite] at this
  have hu' : (tableEntry (some f) &&& pageUser != 0) = true := by simpa using hu
  have hw' : (tableEntry (some f) &&& pageWrite != 0) = true := by simpa using hw
  rw [allows, hu', hw', Bool.or_true, Bool.and_true]

theorem allows_page (write : Bool) (hp : p.frame < maxMem) :
    allows write (pageEntry (some p)) = (!write || p.writable) := by
  have hu : pageEntry (some p) &&& pageUser ≠ 0 := fun h => by
    have := congrArg (fun w : Word => w.getLsbD 2) h
    cases p with
    | mk f w => cases w <;> simp [pageEntry, pagePerm, readPerm, pageUser] at this
  have hw : (pageEntry (some p) &&& pageWrite != 0) = p.writable := by
    cases hwr : p.writable with
    | true =>
      have hne : pageEntry (some p) &&& pageWrite ≠ 0 := fun h => by
        have := congrArg (fun w : Word => w.getLsbD 1) h
        simp [pageEntry, hwr, pagePerm, pageWrite] at this
      simpa using hne
    | false =>
      have hclear : pageEntry (some p) = pageEntry (some p) &&& ~~~pageWrite := by
        rw [pageEntry_protect hp]
        cases p with
        | mk f w =>
          obtain rfl : w = false := hwr
          rfl
      rw [hclear, BitVec.and_assoc, BitVec.not_and_self]
      simp
  have hu' : (pageEntry (some p) &&& pageUser != 0) = true := by simpa using hu
  rw [allows, hu', hw, Bool.true_and]

/-- What the processor finds is what the page map says. -/
theorem Mapped.translate_eq (h : Mapped s loc pg) (hr : loc r [] = some r) (v : Word) (write : Bool)
    (ho : userSlot r (slot v .pml4e)) :
    translate s (frameAddr r) v write =
      match pg (r, pagePath v) with
      | none => .error (faultCode false write)
      | some p => if !write || p.writable then .ok p.frame else .error (faultCode true write) := by
  have hown : Owned userSlot r ([slot v .pml4e]) := by simpa [Owned] using ho
  have hlink : ∀ {π : List (Fin 512)} {f : Nat} (l : Level), loc r π = some f → π.length < 3 →
      Owned userSlot r (π ++ [slot v l]) → s.phys f (slot v l) = tableEntry (loc r (π ++ [slot v l])) :=
    fun l hf hd ho => h.tables.forest.links hf hd ho
  have hno : loc r (tablePath v) = none → pg (r, pagePath v) = none := fun hl =>
    Option.eq_none_iff_forall_ne_some.mpr fun p hp => by
      obtain ⟨f, hf⟩ := h.table hp
      rw [hl] at hf
      cases hf
  have habsent : tableEntry none &&& pagePresent = 0 := rfl
  have hpresent : ∀ f, tableEntry (some f) &&& pagePresent ≠ 0 := fun f => entry_present _
  unfold translate
  dsimp only
  rw [entryFrame_frameAddr (h.tables.taken hr).1, hlink .pml4e hr (by decide) hown, List.nil_append]
  cases h₁ : loc r [slot v .pml4e] with
  | none =>
    have hl : loc r (tablePath v) = none :=
      h.tables.forest.below_none (π := [slot v .pml4e]) (by simp) h₁ [slot v .pdpe, slot v .pde]
    rw [hno hl, if_pos habsent]
  | some g₁ =>
    rw [if_neg (hpresent _), entryFrame_table (h.tables.lt h₁),
      hlink .pdpe h₁ (by simp) (hown.append (by simp) _)]
    cases h₂ : loc r ([slot v .pml4e] ++ [slot v .pdpe]) with
    | none =>
      have hl : loc r (tablePath v) = none := h.tables.forest.below_none (by simp) h₂ [slot v .pde]
      rw [hno hl, if_pos habsent]
    | some g₂ =>
      rw [if_neg (hpresent _), entryFrame_table (h.tables.lt h₂),
        hlink .pde h₂ (by simp) (hown.append (by simp) _)]
      cases h₃ : loc r ([slot v .pml4e] ++ [slot v .pdpe] ++ [slot v .pde]) with
      | none =>
        rw [hno h₃, if_pos habsent]
      | some g₃ =>
        have hentry : s.phys g₃ (slot v .pte) = pageEntry (pg (r, pagePath v)) := by
          rw [pagePath, ← h.entries r (slot v .pte) (by simp [tablePath]), entryOf]
          exact (leaf_some (π := tablePath v) h₃ (slot v .pte)).symm
        rw [if_neg (hpresent _), entryFrame_table (h.tables.lt h₃), hentry]
        cases hp : pg (r, pagePath v) with
        | none => rw [if_pos pageEntry_absent]
        | some p =>
          have hlt := (h.busy hp).1
          rw [if_neg (pageEntry_present p), allows_table, allows_table, allows_table, allows_page _ hlt,
            entryFrame_page hlt, Bool.true_and, Bool.true_and, Bool.true_and]

end Sbnix.Memory
