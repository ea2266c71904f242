import Sbnix.Memory.CowWalk
import Sbnix.Memory.Fault

/-! Copy-on-write refines eager copying.

`World` is the kernel's memory with the processes it holds, each by the physical
address of its root. In the reference semantics a process is a map from addresses
(48 bits: what the four indices and the offset distinguish) to bytes, a new process
is all zero, `fork` copies the map, and an access reads or updates it. Whatever the
order of the steps, the two give the same answers as long as no allocation fails
(`cow_refines_eager`): `Simulates` is kept by each step (`step_simulates`), and by
induction along the run.

A process is built by inserting frames of the pool, as `kmalloc_user_space` and
`allocate` do, and by writing to them; these steps may come at any time. -/
namespace Sbnix.Memory
open Words Library

structure World where
  mem : Mem
  procs : List Word

/-- A step by one of the processes, which are numbered in the order they are made. -/
inductive Op where
  | create
  | insert (p : Nat) (v : Word)
  | fork (p : Nat)
  | read (p : Nat) (v : Word)
  | write (p : Nat) (v : Word) (b : Byte)

inductive Out where
  | done
  | byte (b : Byte)
  /-- The access could not be carried out. -/
  | stuck
  deriving DecidableEq, Repr

/-- The parameters are whether `sys_exit` would come back to the fault handler, and
the kernel's own root. -/
def step (exitReturns : Bool) (pml4e : Word) (w : World) : Op → Out × World
  | .create =>
    let root := newRoot w.mem pml4e
    (.done, ⟨root.2, w.procs ++ [root.1]⟩)
  | .insert p v =>
    match w.procs[p]? with
    | none => (.done, w)
    | some cr3 =>
      let page := memAllocate w.mem
      (.done, ⟨pageInsert page.2 (kernMem + cr3) v page.1, w.procs⟩)
  | .fork p =>
    match w.procs[p]? with
    | none => (.done, w)
    | some cr3 =>
      let child := forkSpace w.mem pml4e (kernMem + cr3)
      (.done, ⟨child.2, w.procs ++ [child.1]⟩)
  | .read p v =>
    match w.procs[p]? with
    | none => (.done, w)
    | some cr3 =>
      let found := access exitReturns w.mem cr3 (kernMem + cr3) v false
      match found.1 with
      | some f => (.byte (pageByte (found.2.phys f) v), ⟨found.2, w.procs⟩)
      | none => (.stuck, ⟨found.2, w.procs⟩)
  | .write p v b =>
    match w.procs[p]? with
    | none => (.done, w)
    | some cr3 =>
      let found := access exitReturns w.mem cr3 (kernMem + cr3) v true
      match found.1 with
      | some f => (.done, ⟨setFrameByte found.2 f v b, w.procs⟩)
      | none => (.stuck, ⟨found.2, w.procs⟩)

def runOps (exitReturns : Bool) (pml4e : Word) (w : World) : List Op → List Out × World
  | [] => ([], w)
  | op :: ops =>
    let one := step exitReturns pml4e w op
    let rest := runOps exitReturns pml4e one.2 ops
    (one.1 :: rest.1, rest.2)

/-! ### The reference semantics -/

abbrev Space := Nat → Byte

def Space.empty : Space := fun _ => 0

def Space.set (m : Space) (v : Word) (b : Byte) : Space := fun a => if a = addr v then b else m a

/-- The page of an address, made zero. -/
def Space.clear (m : Space) (v : Word) : Space := fun a => if a / 4096 = addr v / 4096 then 0 else m a

def eagerStep (spaces : List Space) : Op → Out × List Space
  | .create => (.done, spaces ++ [Space.empty])
  | .insert p v => (.done, spaces.modify p fun m => m.clear v)
  | .fork p =>
    match spaces[p]? with
    | none => (.done, spaces)
    | some m => (.done, spaces ++ [m])
  | .read p v =>
    match spaces[p]? with
    | none => (.done, spaces)
    | some m => (.byte (m (addr v)), spaces)
  | .write p v b => (.done, spaces.modify p fun m => m.set v b)

def runEager (spaces : List Space) : List Op → List Out × List Space
  | [] => ([], spaces)
  | op :: ops =>
    let one := eagerStep spaces op
    let rest := runEager one.2 ops
    (one.1 :: rest.1, rest.2)

/-! ### Addresses -/

/-- Replacing a byte of a page. -/
theorem pageByte_update (page : Fin 512 → Word) (v w : Word) (b : Byte) :
    pageByte (Function.update page (wordOf v) (setByte (page (wordOf v)) (v.toNat % 8) b)) w =
      if w.toNat % 4096 = v.toNat % 4096 then b else pageByte page w := by
  unfold pageByte
  by_cases hw : wordOf w = wordOf v
  · have hword : w.toNat % 4096 / 8 = v.toNat % 4096 / 8 := congrArg Fin.val hw
    rw [hw, Function.update_self]
    by_cases he : w.toNat % 4096 = v.toNat % 4096
    · rw [if_pos he, show w.toNat % 8 = v.toNat % 8 by omega, byteOf_setByte_same _ (by omega)]
    · rw [if_neg he, byteOf_setByte_other _ (by omega) _ (by omega)]
  · have hne : w.toNat % 4096 ≠ v.toNat % 4096 := fun he => hw (Fin.ext (by simp [wordOf, he]))
    rw [Function.update_of_ne hw, if_neg hne]

/-- Any address below the kernel's slot is on a path that `cow_walk_pages` copies. -/
theorem pagePath_between {v : Word} {r : Nat} (ho : userSlot r (slot v .pml4e)) :
    pagePath v ∈ between [] 0 511 := by
  have hlt := (slot v .pml4e).isLt
  unfold userSlot at ho
  exact ⟨slot v .pml4e, by omega, by omega, [slot v .pdpe, slot v .pde, slot v .pte], rfl⟩

/-! ### The simulation -/

/-- Accesses at or above `INITIAL_MEM`, everything outside the kernel's slot. -/
def Op.Valid : Op → Prop
  | .create => True
  | .insert _ v => (slot v .pml4e).val ≠ 511
  | .fork _ => True
  | .read _ v => ¬ v < initialMem ∧ (slot v .pml4e).val ≠ 511
  | .write _ v _ => ¬ v < initialMem ∧ (slot v .pml4e).val ≠ 511

instance : (op : Op) → Decidable op.Valid
  | .create => inferInstanceAs (Decidable True)
  | .insert _ v => inferInstanceAs (Decidable ((slot v .pml4e).val ≠ 511))
  | .fork _ => inferInstanceAs (Decidable True)
  | .read _ v => inferInstanceAs (Decidable (¬ v < initialMem ∧ (slot v .pml4e).val ≠ 511))
  | .write _ v _ => inferInstanceAs (Decidable (¬ v < initialMem ∧ (slot v .pml4e).val ≠ 511))

/-- The pages below the root `r` hold the bytes of the space `m`. -/
def Agrees (s : Mem) (pg : PageMap) (r : Nat) (m : Space) : Prop :=
  ∀ v, userSlot r (slot v .pml4e) → pageByte (pageAt s pg (r, pagePath v)) v = m (addr v)

structure Simulates (w : World) (loc : TableMap) (pg : PageMap) (roots : List Nat) (spaces : List Space) : Prop where
  mapped : Spaces w.mem loc pg
  procs : w.procs = roots.map frameAddr
  nodup : roots.Nodup
  root : ∀ r ∈ roots, loc r [] = some r
  length : roots.length = spaces.length
  agrees : ∀ {p : Nat} {r : Nat} {m : Space}, roots[p]? = some r → spaces[p]? = some m → Agrees w.mem pg r m

variable {w : World} {s' : Mem} {loc loc' : TableMap} {pg pg' : PageMap} {roots : List Nat} {spaces : List Space}

/-- Both sides have the same processes. -/
theorem Simulates.lookup (h : Simulates w loc pg roots spaces) (p : Nat) :
    (w.procs[p]? = none ∧ spaces[p]? = none) ∨
      ∃ r m, roots[p]? = some r ∧ w.procs[p]? = some (frameAddr r) ∧ spaces[p]? = some m ∧ loc r [] = some r := by
  rw [h.procs, List.getElem?_map]
  cases hr : roots[p]? with
  | none =>
    left
    have hlen := List.getElem?_eq_none_iff.mp hr
    exact ⟨rfl, List.getElem?_eq_none_iff.mpr (by have := h.length; omega)⟩
  | some r =>
    right
    obtain ⟨hlt, _⟩ := List.getElem?_eq_some_iff.mp hr
    have hm : p < spaces.length := by
      rw [← h.length]
      exact hlt
    exact ⟨r, spaces[p], rfl, rfl, List.getElem?_eq_getElem hm, h.root r (List.mem_of_getElem? hr)⟩

/-- Two processes with the same root are one. -/
theorem Simulates.same (h : Simulates w loc pg roots spaces) {p q r : Nat} (hp : roots[p]? = some r)
    (hq : roots[q]? = some r) : p = q := by
  obtain ⟨hlt, he⟩ := List.getElem?_eq_some_iff.mp hp
  obtain ⟨hlt', he'⟩ := List.getElem?_eq_some_iff.mp hq
  exact (List.Nodup.getElem_inj_iff h.nodup).mp (he.trans he'.symm)

/-- A step that changes memory but no process's contents. -/
theorem Simulates.keep (h : Simulates w loc pg roots spaces) (hs : Spaces s' loc' pg')
    (hroots : ∀ {q : Nat}, loc q [] = some q → loc' q [] = some q)
    (hpages : ∀ k, pageAt s' pg' k = pageAt w.mem pg k) :
    Simulates ⟨s', w.procs⟩ loc' pg' roots spaces where
  mapped := hs
  procs := h.procs
  nodup := h.nodup
  root := fun r hr => hroots (h.root r hr)
  length := h.length
  agrees := fun hr hm v ho => by
    rw [hpages]
    exact h.agrees hr hm v ho

/-- A step that changes the contents of one process. -/
theorem Simulates.modify (h : Simulates w loc pg roots spaces) (hs : Spaces s' loc' pg')
    (hroots : ∀ {q : Nat}, loc q [] = some q → loc' q [] = some q) {p r : Nat} (hr : roots[p]? = some r)
    (f : Space → Space) (hother : ∀ q σ, q ≠ r → pageAt s' pg' (q, σ) = pageAt w.mem pg (q, σ))
    (hself : ∀ m, Agrees w.mem pg r m → Agrees s' pg' r (f m)) :
    Simulates ⟨s', w.procs⟩ loc' pg' roots (spaces.modify p f) where
  mapped := hs
  procs := h.procs
  nodup := h.nodup
  root := fun r hr => hroots (h.root r hr)
  length := by rw [List.length_modify, h.length]
  agrees := by
    intro q r' m hr' hm
    rw [List.getElem?_modify] at hm
    by_cases hq : p = q
    · subst hq
      rw [hr] at hr'
      obtain rfl := Option.some.inj hr'
      cases hold : spaces[p]? with
      | none => simp [hold] at hm
      | some m₀ =>
        obtain rfl : f m₀ = m := by simpa [hold] using hm
        exact hself m₀ (h.agrees hr hold)
    · have hne : r' ≠ r := fun he => hq (h.same hr (he ▸ hr'))
      have hold : spaces[q]? = some m := by simpa [hq] using hm
      intro v ho
      rw [hother r' _ hne]
      exact h.agrees hr' hold v ho

/-- A step that adds a process. -/
theorem Simulates.add (h : Simulates w loc pg roots spaces) (hs : Spaces s' loc' pg')
    (hroots : ∀ q, loc q [] = some q → loc' q [] = some q) {c : Nat} (hav : w.mem.Avail c)
    (hc : loc' c [] = some c) {m : Space} (hchild : Agrees s' pg' c m)
    (hother : ∀ q σ, q ≠ c → pageAt s' pg' (q, σ) = pageAt w.mem pg (q, σ)) :
    Simulates ⟨s', w.procs ++ [frameAddr c]⟩ loc' pg' (roots ++ [c]) (spaces ++ [m]) := by
  have hfresh : c ∉ roots := fun hmem => (h.mapped.tables.taken (h.root c hmem)).2 hav
  refine ⟨hs, by simp [h.procs], ?_, ?_, by simp [h.length], ?_⟩
  · exact List.nodup_append.mpr ⟨h.nodup, by simp, by
      intro a ha b hb
      rw [List.mem_singleton.mp hb]
      exact fun he => hfresh (he ▸ ha)⟩
  · intro r hr
    rcases List.mem_append.mp hr with hr | hr
    · exact hroots r (h.root r hr)
    · rw [List.mem_singleton.mp hr]
      exact hc
  · intro p r m' hr hm
    by_cases hp : p < roots.length
    · rw [List.getElem?_append_left hp] at hr
      rw [List.getElem?_append_left (by rw [← h.length]; exact hp)] at hm
      have hne : r ≠ c := fun he => hfresh (he ▸ List.mem_of_getElem? hr)
      intro v ho
      rw [hother r _ hne]
      exact h.agrees hr hm v ho
    · rw [List.getElem?_append_right (by omega)] at hr
      rw [List.getElem?_append_right (by rw [← h.length]; omega), ← h.length] at hm
      have hr' := List.mem_singleton.mp (List.mem_of_getElem? hr)
      have hm' := List.mem_singleton.mp (List.mem_of_getElem? hm)
      rw [hr', hm']
      exact hchild

/-! ### Each step -/

variable (exitReturns : Bool) (pml4e : Word)

theorem create_simulates (h : Simulates w loc pg roots spaces)
    (h0 : 0 ∉ (step exitReturns pml4e w .create).2.mem.handed) :
    ∃ loc' pg' roots', Simulates (step exitReturns pml4e w .create).2 loc' pg' roots' (spaces ++ [Space.empty]) := by
  obtain ⟨c, s', hroot, hav, hs', hphys, _⟩ := newRoot_spec h.mapped pml4e h0
  have hpages : ∀ k, pageAt s' pg k = pageAt w.mem pg k :=
    h.mapped.pageAt_eq fun ha _ => hphys _ fun he => ha (he ▸ hav)
  have hnone : ∀ σ, pg (c, σ) = none := fun σ =>
    Option.eq_none_iff_forall_ne_some.mpr fun p hp =>
      (h.mapped.tables.taken (h.mapped.rooted hp)).2 hav
  have hkeep : ∀ q, loc q [] = some q → place loc c [] c q [] = some q := by
    intro q hq
    have hne : q ≠ c := fun he => (h.mapped.tables.taken hq).2 (he ▸ hav)
    rw [place_other _ _ (fun hc => hne hc.1)]
    exact hq
  have hempty : Agrees s' pg c Space.empty := fun v _ => by
    rw [pageAt, hnone]
    exact byteOf_zero _
  have hstep : (step exitReturns pml4e w .create).2 = ⟨s', w.procs ++ [frameAddr c]⟩ := by
    rw [step, hroot]
  rw [hstep]
  exact ⟨_, pg, roots ++ [c], h.add hs' hkeep hav (place_same ..) hempty fun q σ _ => hpages _⟩

theorem insert_simulates (h : Simulates w loc pg roots spaces) (p : Nat) {v : Word}
    (hv : (slot v .pml4e).val ≠ 511) (h0 : 0 ∉ (step exitReturns pml4e w (.insert p v)).2.mem.handed) :
    ∃ loc' pg' roots', Simulates (step exitReturns pml4e w (.insert p v)).2 loc' pg' roots'
      (spaces.modify p fun m => m.clear v) := by
  rcases h.lookup p with ⟨hp, hm⟩ | ⟨r, m, hr, hp, hm, hroot⟩
  · rw [step, hp, List.modify_eq_self (List.getElem?_eq_none_iff.mp hm)]
    exact ⟨loc, pg, roots, h⟩
  · rw [step, hp] at h0 ⊢
    dsimp only at h0 ⊢
    obtain ⟨loc', g, hs', hroots, hpages, _⟩ := pageInsert_fresh h.mapped hroot (v := v) hv h0
    refine ⟨loc', _, roots, h.modify hs' hroots hr _ (fun q σ hq => ?_) (fun m₀ hagree v' ho => ?_)⟩
    · rw [hpages, if_neg (fun hc => hq (Prod.mk.inj hc).1)]
    · rw [hpages, Space.clear]
      by_cases hsame : pagePath v' = pagePath v
      · rw [if_pos (by rw [hsame]), if_pos ((pagePath_eq_iff _ _).mp hsame)]
        exact byteOf_zero _
      · rw [if_neg (fun hc => hsame (Prod.mk.inj hc).2), if_neg (fun hc => hsame ((pagePath_eq_iff _ _).mpr hc))]
        exact hagree v' ho

theorem fork_simulates (h : Simulates w loc pg roots spaces) {p : Nat} {r : Nat} {m : Space}
    (hr : roots[p]? = some r) (hm : spaces[p]? = some m) (hroot : loc r [] = some r)
    (h0 : 0 ∉ (forkSpace w.mem pml4e (framePtr r)).2.handed) :
    ∃ loc' pg' roots', Simulates ⟨(forkSpace w.mem pml4e (framePtr r)).2,
      w.procs ++ [(forkSpace w.mem pml4e (framePtr r)).1]⟩ loc' pg' roots' (spaces ++ [m]) := by
  obtain ⟨c, s', loc', pg', hrun, hav, hs', hc, hroots, hchild, hother, _⟩ :=
    forkSpace_spec h.mapped hroot pml4e h0
  rw [hrun]
  refine ⟨loc', pg', roots ++ [c], h.add hs' hroots hav hc (fun v ho => ?_) hother⟩
  rw [hchild _ (pagePath_between ho)]
  exact h.agrees hr hm v ho

/-- A byte written into a page is the byte written into the space. -/
theorem write_agrees {s : Mem} {r : Nat} {p : Page Nat} (hs : Spaces s loc pg) {v : Word}
    (hp : pg (r, pagePath v) = some p) (hw : p.writable = true) (b : Byte) {m : Space} (hagree : Agrees s pg r m) :
    Agrees (setFrameByte s p.frame v b) pg r (m.set v b) := by
  obtain ⟨_, hother, hself⟩ := hs.setFrameByte hp hw v b
  intro v' ho
  rw [Space.set]
  by_cases hsame : pagePath v' = pagePath v
  · rw [hsame, hself, pageByte_update]
    have hpage := (pagePath_eq_iff _ _).mp hsame
    by_cases hoff : v'.toNat % 4096 = v.toNat % 4096
    · have haddr : addr v' = addr v := by
        unfold addr at hpage ⊢
        omega
      rw [if_pos hoff, if_pos haddr]
    · have haddr : addr v' ≠ addr v := fun he => by
        unfold addr at he
        omega
      rw [if_neg hoff, if_neg haddr, ← hsame]
      exact hagree v' ho
  · have haddr : addr v' ≠ addr v := fun he => hsame ((pagePath_eq_iff _ _).mpr (by rw [he]))
    rw [hother _ (fun hc => hsame (Prod.mk.inj hc).2), if_neg haddr]
    exact hagree v' ho

/-- Every step gives the answer of the reference and keeps the two in step. -/
theorem step_simulates (h : Simulates w loc pg roots spaces) (op : Op) (hvalid : op.Valid)
    (h0 : 0 ∉ (step exitReturns pml4e w op).2.mem.handed) :
    (step exitReturns pml4e w op).1 = (eagerStep spaces op).1 ∧ ∃ loc' pg' roots',
      Simulates (step exitReturns pml4e w op).2 loc' pg' roots' (eagerStep spaces op).2 := by
  cases op with
  | create => exact ⟨rfl, create_simulates exitReturns pml4e h h0⟩
  | insert p v =>
    refine ⟨?_, insert_simulates exitReturns pml4e h p hvalid h0⟩
    rw [step]
    split
    · rfl
    · rfl
  | fork p =>
    rcases h.lookup p with ⟨hp, hm⟩ | ⟨r, m, hr, hp, hm, hroot⟩
    · rw [step, eagerStep, hp, hm]
      exact ⟨rfl, loc, pg, roots, h⟩
    · rw [step, hp] at h0 ⊢
      rw [eagerStep, hm]
      exact ⟨rfl, fork_simulates pml4e h hr hm hroot h0⟩
  | read p v =>
    rcases h.lookup p with ⟨hp, hm⟩ | ⟨r, m, hr, hp, hm, hroot⟩
    · rw [step, eagerStep, hp, hm]
      exact ⟨rfl, loc, pg, roots, h⟩
    · rw [step, hp] at h0 ⊢
      rw [eagerStep, hm]
      dsimp only at h0 ⊢
      have hacc : 0 ∉ (access exitReturns w.mem (frameAddr r) (framePtr r) v false).2.handed := by
        split at h0
        · exact h0
        · exact h0
      obtain ⟨p', s', loc', pg', hrun, hs', hroots, hpages, hp', _⟩ :=
        access_spec h.mapped hroot hvalid.2 hvalid.1 exitReturns false hacc
      rw [show kernMem + frameAddr r = framePtr r from rfl, hrun]
      refine ⟨?_, loc', pg', roots, h.keep hs' hroots hpages⟩
      have hbyte := h.agrees hr hm v hvalid.2
      rw [← hpages, pageAt, hp'] at hbyte
      exact congrArg Out.byte hbyte
  | write p v b =>
    rcases h.lookup p with ⟨hp, hm⟩ | ⟨r, m, hr, hp, hm, hroot⟩
    · rw [step, eagerStep, hp, List.modify_eq_self (List.getElem?_eq_none_iff.mp hm)]
      exact ⟨rfl, loc, pg, roots, h⟩
    · rw [step, hp] at h0 ⊢
      rw [eagerStep]
      dsimp only at h0 ⊢
      have hacc : 0 ∉ (access exitReturns w.mem (frameAddr r) (framePtr r) v true).2.handed := by
        split at h0
        · exact h0
        · exact h0
      obtain ⟨p', s', loc', pg', hrun, hs', hroots, hpages, hp', hw, _⟩ :=
        access_spec h.mapped hroot hvalid.2 hvalid.1 exitReturns true hacc
      rw [show kernMem + frameAddr r = framePtr r from rfl, hrun]
      obtain ⟨hset, hother, _⟩ := hs'.setFrameByte hp' (hw rfl) v b
      refine ⟨rfl, loc', pg', roots, h.modify hset hroots hr _ (fun q σ hq => ?_) (fun m₀ hagree => ?_)⟩
      · rw [hother _ (fun hc => hq (Prod.mk.inj hc).1), hpages]
      · refine write_agrees hs' hp' (hw rfl) b fun v' ho => ?_
        rw [hpages]
        exact hagree v' ho

/-! ### Whole runs -/

theorem step_steps (w : World) (op : Op) : Steps w.mem (step exitReturns pml4e w op).2.mem := by
  cases op with
  | create => exact newRoot_steps _ _
  | insert p v =>
    rw [step]
    split
    · exact .refl
    · exact (memAllocate_steps _).trans (pageInsert_steps _ _ _ _)
  | fork p =>
    rw [step]
    split
    · exact .refl
    · exact forkSpace_steps _ _ _
  | read p v =>
    rw [step]
    split
    · exact .refl
    · dsimp only
      split
      · exact access_steps ..
      · exact access_steps ..
  | write p v b =>
    rw [step]
    split
    · exact .refl
    · dsimp only
      split
      · rename_i hfound
        exact (access_steps ..).trans (setFrameByte_steps _ (access_lt hfound) v b)
      · exact access_steps ..

theorem runOps_steps (w : World) (ops : List Op) : Steps w.mem (runOps exitReturns pml4e w ops).2.mem := by
  induction ops generalizing w with
  | nil => exact .refl
  | cons op ops ih => exact (step_steps exitReturns pml4e w op).trans (ih _)

theorem runOps_simulates (h : Simulates w loc pg roots spaces) (ops : List Op) (hvalid : ∀ op ∈ ops, op.Valid)
    (h0 : 0 ∉ (runOps exitReturns pml4e w ops).2.mem.handed) :
    (runOps exitReturns pml4e w ops).1 = (runEager spaces ops).1 := by
  induction ops generalizing w loc pg roots spaces with
  | nil => rfl
  | cons op ops ih =>
    have h0' := (runOps_steps exitReturns pml4e _ ops).ok h0
    obtain ⟨hout, loc', pg', roots', hnext⟩ :=
      step_simulates exitReturns pml4e h op (hvalid op (List.mem_cons_self ..)) h0'
    have hrest := ih hnext (fun op' hop => hvalid op' (List.mem_cons_of_mem _ hop)) h0
    rw [runOps, runEager]
    dsimp only
    rw [hout, hrest]

theorem simulates_nil {s : Mem} (hs : ZeroedPool s) :
    Simulates ⟨s, []⟩ (fun _ _ => none) (fun _ => none) [] [] where
  mapped := hs.mapped
  procs := rfl
  nodup := List.nodup_nil
  root := fun _ hr => nomatch hr
  length := rfl
  agrees := fun hr => nomatch hr

/-! ### Runs that the pool is enough for -/

/-- How many frames can be gone after a run at most, `n` of them before it. -/
def takenBy : List Op → Nat → Nat
  | [], n => n
  | .fork _ :: ops, n => takenBy ops (2 * n + 2)
  | _ :: ops, n => takenBy ops (n + 4)

theorem takenBy_cons (op : Op) (ops : List Op) (n : Nat) : takenBy (op :: ops) n = takenBy ops (takenBy [op] n) := by
  cases op with
  | create => rfl
  | insert p v => rfl
  | fork p => rfl
  | read p v => rfl
  | write p v b => rfl

theorem takenBy_mono (ops : List Op) {n m : Nat} (h : n ≤ m) : takenBy ops n ≤ takenBy ops m := by
  induction ops generalizing n m with
  | nil => exact h
  | cons op ops ih =>
    rw [takenBy_cons, takenBy_cons op ops m]
    apply ih
    cases op with
    | fork p => show 2 * n + 2 ≤ 2 * m + 2; omega
    | _ => show n + 4 ≤ m + 4; omega

theorem le_takenBy (ops : List Op) (n : Nat) : n ≤ takenBy ops n := by
  induction ops generalizing n with
  | nil => exact Nat.le_refl n
  | cons op ops ih =>
    rw [takenBy_cons]
    refine Nat.le_trans ?_ (ih _)
    cases op with
    | fork p => show n ≤ 2 * n + 2; omega
    | _ => show n ≤ n + 4; omega

/-- All but a fork take four frames at most. -/
theorem step_length (w : World) (op : Op) (hop : ∀ p, op ≠ .fork p) :
    (step exitReturns pml4e w op).2.mem.handed.length ≤ w.mem.handed.length + 4 := by
  cases op with
  | create =>
    show (newRoot w.mem pml4e).2.handed.length ≤ _
    rw [newRoot_length]
    omega
  | insert p v =>
    rw [step]
    split
    · dsimp only
      omega
    · rename_i cr3 _
      have hpage := memAllocate_length w.mem
      have := pageInsert_length (memAllocate w.mem).2 (kernMem + cr3) v (memAllocate w.mem).1
      dsimp only
      omega
  | fork p => exact absurd rfl (hop p)
  | read p v =>
    rw [step]
    split
    · dsimp only
      omega
    · dsimp only
      split
      · exact access_length ..
      · exact access_length ..
  | write p v b =>
    rw [step]
    split
    · dsimp only
      omega
    · dsimp only
      split
      · exact access_length ..
      · exact access_length ..

theorem step_fork_length (h : Simulates w loc pg roots spaces) {n : Nat} (hshape : Shape w.mem n)
    (hroom : 2 * n + 2 ≤ maxMem) (p : Nat) :
    (step exitReturns pml4e w (.fork p)).2.mem.handed.length ≤ w.mem.handed.length + n + 2 := by
  rw [step]
  rcases h.lookup p with ⟨hp, _⟩ | ⟨r, m, _, hp, _, hroot⟩
  · rw [hp]
    dsimp only
    omega
  · rw [hp]
    exact CowWalk.forkSpace_length h.mapped hshape hroom hroot pml4e

theorem step_shape (h : Simulates w loc pg roots spaces) {n : Nat} (hshape : Shape w.mem n) (op : Op)
    (hroom : takenBy [op] n ≤ maxMem) :
    ∃ m ≤ takenBy [op] n, Shape (step exitReturns pml4e w op).2.mem m := by
  have hlen : n + (step exitReturns pml4e w op).2.mem.handed.length ≤ takenBy [op] n + w.mem.handed.length := by
    by_cases hop : ∃ p, op = .fork p
    · obtain ⟨p, rfl⟩ := hop
      have hfork := step_fork_length exitReturns pml4e h hshape hroom p
      show _ ≤ 2 * n + 2 + _
      omega
    · have hother := step_length exitReturns pml4e w op fun p he => hop ⟨p, he⟩
      have hfour : takenBy [op] n = n + 4 := by
        cases op with
        | fork p => exact absurd ⟨p, rfl⟩ hop
        | _ => rfl
      omega
  exact ⟨_, by omega, (step_steps exitReturns pml4e w op).enough hshape (by omega)⟩

theorem runOps_shape (h : Simulates w loc pg roots spaces) {n : Nat} (hshape : Shape w.mem n) (ops : List Op)
    (hvalid : ∀ op ∈ ops, op.Valid) (hroom : takenBy ops n ≤ maxMem) :
    ∃ m, Shape (runOps exitReturns pml4e w ops).2.mem m := by
  induction ops generalizing w loc pg roots spaces n with
  | nil => exact ⟨n, hshape⟩
  | cons op ops ih =>
    rw [takenBy_cons] at hroom
    obtain ⟨m, hm, hnext⟩ := step_shape exitReturns pml4e h hshape op ((le_takenBy ops _).trans hroom)
    obtain ⟨_, loc', pg', roots', hsim⟩ :=
      step_simulates exitReturns pml4e h op (hvalid op (List.mem_cons_self ..)) hnext.ok
    exact ih hsim hnext (fun op' hop => hvalid op' (List.mem_cons_of_mem _ hop)) ((takenBy_mono ops hm).trans hroom)

/-- From boot on, a run with few forks has no allocation that fails. -/
theorem runOps_enough (ops : List Op) (hvalid : ∀ op ∈ ops, op.Valid) (hroom : takenBy ops 513 ≤ maxMem) :
    0 ∉ (runOps exitReturns pml4e ⟨bootMem, []⟩ ops).2.mem.handed := by
  obtain ⟨m, hshape⟩ := runOps_shape exitReturns pml4e (simulates_nil bootMem_zeroedPool) bootMem_shape ops hvalid hroom
  exact hshape.ok

/-! ### The refinement -/

/-- Copy-on-write fork refines eager copying: over any interleaving, every read
returns what it returns when `fork` copies all the parent's bytes and absent pages
are zero, as long as no allocation has failed. -/
theorem cow_refines_eager (s : Mem) (hs : ZeroedPool s) (ops : List Op) (hvalid : ∀ op ∈ ops, op.Valid)
    (h0 : 0 ∉ (runOps exitReturns pml4e ⟨s, []⟩ ops).2.mem.handed) :
    (runOps exitReturns pml4e ⟨s, []⟩ ops).1 = (runEager [] ops).1 :=
  runOps_simulates exitReturns pml4e (simulates_nil hs) ops hvalid h0

/-- A page written before the fork is read by the child; then both write to it, and each
reads what it wrote itself, and beside that what the page held before. -/
theorem cow_refines_eager_boot :
    (runOps false (framePtr 1) ⟨bootMem, []⟩
      [.create, .write 0 0x400000 5, .write 0 0x400001 6, .fork 0, .read 1 0x400000, .write 0 0x400000 7,
        .write 1 0x400000 9, .read 0 0x400000, .read 1 0x400000, .read 0 0x400001, .read 1 0x400001]).1 =
      [.done, .done, .done, .done, .byte 5, .done, .done, .byte 7, .byte 9, .byte 6, .byte 6] := by
  rw [cow_refines_eager false (framePtr 1) bootMem bootMem_zeroedPool _ (by decide)
    (runOps_enough false (framePtr 1) _ (by decide) (by decide))]
  decide

end Sbnix.Memory
