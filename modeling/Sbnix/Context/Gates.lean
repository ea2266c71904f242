import Sbnix.Library.Bytes
import Sbnix.Context.Exceptions

/-! The interrupt descriptor table (`sys/idt.c`, `isrs_install` and `fault_handler` of `sys/isrs.c`,
`irq_install` of `sys/irq.c`).

`idt_set_gate` cuts the address of a handler in three parts and the processor puts it together
again (`gateAt_set`). An event for which there is no gate, or which its gate does not allow,
ends in a general protection fault, and `fault_handler` never returns from that. So a user
program halts the system with one instruction, and so does any interrupt but those of the
timer and the keyboard, none of which `irq_remap` leaves masked (`halted_iff`).

The table lies at `idt`; the addresses of the handlers are a parameter. -/
namespace Sbnix.Context
open Library Library.Store

/-! ### The code -/

/-- The labels of `sys/isr.s` and `sys/irq.s`. -/
inductive Handler where
  | isr (v : Fin 32)
  | irq0
  | irq1
  | idt80
  | idt128
  deriving DecidableEq

/-- `sizeof(struct idt_entry)` -/
def gateSize : Nat := 16

/-- The assignments of `idt_set_gate` to the entry at `e`: `base_lo`, `base_mid`, `base_high`, `sel`,
`always0` and `flags`. -/
def gateWrites (e : Nat) (base : Word) (sel : BitVec 16) (flags : Byte) : List (Nat × List Byte) :=
  [(e, toLE 2 (base &&& 0xffff).toNat), (e + 6, toLE 2 (base >>> 16 &&& 0xffff).toNat),
    (e + 8, toLE 4 (base >>> 32 &&& 0xffffffff).toNat), (e + 2, toLE 2 sel.toNat), (e + 4, [0]), (e + 5, [flags])]

def idtSetGate (idt : Nat) (m : Store) (num : Nat) (base : Word) (sel : BitVec 16) (flags : Byte) : Store :=
  putAll m (gateWrites (idt + gateSize * num) base sel flags)

/-- The calls of `isrs_install`, in their order. Two are made twice. -/
def isrGates : List (Fin 32) :=
  [0, 1, 2, 3, 4, 5, 6, 7, 8, 9, 10, 11, 12, 13, 14, 13, 14, 15, 16, 17, 18, 19, 20, 21, 22, 23, 24, 25, 26, 27, 28,
    29, 30, 31]

def isrsInstall (addr : Handler → Word) (idt : Nat) (m : Store) : Store :=
  isrGates.foldl (fun m (v : Fin 32) => idtSetGate idt m v (addr (.isr v)) 0x08 0x8e) m

def irqInstall (addr : Handler → Word) (idt : Nat) (m : Store) : Store :=
  let m := idtSetGate idt m 32 (addr .irq0) 0x08 0x8e
  let m := idtSetGate idt m 33 (addr .irq1) 0x08 0x8e
  let m := idtSetGate idt m 80 (addr .idt80) 0x08 0xee
  idtSetGate idt m 128 (addr .idt128) 0x08 0xee

/-- `reload_idt`: `idtp.limit`, and the table. -/
def reloadIdt (addr : Handler → Word) (idt : Nat) (m : Store) : Nat × Store :=
  (gateSize * 256 - 1, irqInstall addr idt (isrsInstall addr idt m))

/-- `irq_remap`: the two controllers begin at these vectors. -/
def irqVector (irq : Fin 16) : Nat := if irq.val < 8 then 0x20 + irq.val else 0x28 + (irq.val - 8)

/-- What the code behind the label comes to: the stubs pass their number on to `fault_handler`. -/
def Handler.outcome (errCode : Word) : Handler → Outcome
  | .isr v => faultHandler (BitVec.ofNat 64 v) errCode
  | _ => .returns

/-! ### The processor -/

/-- A gate, as the processor reads it. -/
structure Gate where
  offset : Nat
  sel : Nat
  ist : Nat
  type : Nat
  dpl : Nat
  present : Bool

def gateAt (idt : Nat) (m : Store) (v : Nat) : Gate :=
  let e := idt + gateSize * v
  let flags := (m (e + 5)).toNat
  { offset := ofLE (fetch m e 2) + 2 ^ 16 * ofLE (fetch m (e + 6) 2) + 2 ^ 32 * ofLE (fetch m (e + 8) 4)
    sel := ofLE (fetch m (e + 2) 2)
    ist := (m (e + 4)).toNat % 8
    type := flags % 32
    dpl := flags / 32 % 4
    present := flags / 128 = 1 }

/-- An event is delivered through a gate, or an exception takes its place. Only an instruction `int`
needs the privilege. -/
def deliver (idt : Nat) (table : Nat × Store) (v : Nat) (cpl : Option Nat) : Except Nat Nat :=
  let g := gateAt idt table.2 v
  if table.1 < gateSize * v + 15 then .error 13
  else if g.type ≠ 14 ∧ g.type ≠ 15 then .error 13
  else if ∃ level ∈ cpl, g.dpl < level then .error 13
  else if g.present then .ok g.offset
  else .error 11

/-- Where the processor goes on; after a second exception it is not followed. -/
def entered (idt : Nat) (table : Nat × Store) (v : Nat) (cpl : Option Nat) : Option Nat :=
  match deliver idt table v cpl with
  | .ok offset => some offset
  | .error exception => (deliver idt table exception none).toOption

/-- An exception, an interrupt of a controller, or an `int` of a program in ring 3. -/
inductive Trigger where
  | exception (v : Fin 32)
  | irq (n : Fin 16)
  | int (v : Fin 256)

def Trigger.vector : Trigger → Nat
  | .exception v => v
  | .irq n => irqVector n
  | .int v => v

def Trigger.cpl : Trigger → Option Nat
  | .int _ => some 3
  | _ => none

/-- Where it leads: a general protection fault takes the place of what has no gate. -/
def Trigger.handler : Trigger → Handler
  | .exception v => .isr v
  | .irq n => if n = 0 then .irq0 else if n = 1 then .irq1 else .isr 13
  | .int v => if v = 80 then .idt80 else if v = 128 then .idt128 else .isr 13

/-- What is printed when the system halts. -/
def Trigger.message : Trigger → String
  | .exception v => exceptionMessages.getD v.val ""
  | _ => "General Protection Fault"

/-- The triggers that the kernel has something to do for. -/
def Trigger.Served : Trigger → Prop
  | .exception v => v = 14
  | .irq n => n = 0 ∨ n = 1
  | .int v => v = 80 ∨ v = 128

/-! ### Gates -/

section
variable {idt num v : Nat} {m : Store} {base : Word} {sel : BitVec 16} {flags : Byte} {addr : Handler → Word}

/-- The gate that `idt_set_gate` is asked for. -/
def gateOf (base : Word) (sel : BitVec 16) (flags : Byte) : Gate :=
  ⟨base.toNat, sel.toNat, 0, flags.toNat % 32, flags.toNat / 32 % 4, flags.toNat / 128 = 1⟩

theorem ofLE_fetch {a n w : Nat} (h : Holds m a (toLE n w)) : ofLE (fetch m a n) = w % 256 ^ n := by
  have hbytes : fetch m a n = toLE n w := by
    have hholds := h
    rwa [Holds, length_toLE] at hholds
  rw [hbytes, ofLE_toLE]

/-- The three parts are those of the address. -/
theorem base_parts (base : Word) :
    (base &&& 0xffff).toNat = base.toNat % 2 ^ 16 ∧ (base >>> 16 &&& 0xffff).toNat = base.toNat / 2 ^ 16 % 2 ^ 16 ∧
      (base >>> 32 &&& 0xffffffff).toNat = base.toNat / 2 ^ 32 % 2 ^ 32 := by
  refine ⟨?_, ?_, ?_⟩
  · exact Nat.and_two_pow_sub_one_eq_mod base.toNat 16
  · rw [BitVec.toNat_and, BitVec.toNat_ushiftRight, Nat.shiftRight_eq_div_pow]
    exact Nat.and_two_pow_sub_one_eq_mod _ 16
  · rw [BitVec.toNat_and, BitVec.toNat_ushiftRight, Nat.shiftRight_eq_div_pow]
    exact Nat.and_two_pow_sub_one_eq_mod _ 32

/-- The fields do not overlap. -/
theorem gateWrites_hold (m : Store) (e : Nat) (base : Word) (sel : BitVec 16) (flags : Byte) :
    Holds (putAll m (gateWrites e base sel flags)) e (toLE 2 (base &&& 0xffff).toNat) ∧
      Holds (putAll m (gateWrites e base sel flags)) (e + 6) (toLE 2 (base >>> 16 &&& 0xffff).toNat) ∧
      Holds (putAll m (gateWrites e base sel flags)) (e + 8) (toLE 4 (base >>> 32 &&& 0xffffffff).toNat) ∧
      Holds (putAll m (gateWrites e base sel flags)) (e + 2) (toLE 2 sel.toNat) ∧
      Holds (putAll m (gateWrites e base sel flags)) (e + 4) [0] ∧
      Holds (putAll m (gateWrites e base sel flags)) (e + 5) [flags] := by
  have hapart : (gateWrites e base sel flags).Pairwise fun w w' => Clear w'.1 w'.2.length w.1 w.2.length := by
    simp [gateWrites, Clear, length_toLE]
  have hholds : ∀ w ∈ gateWrites e base sel flags, Holds (putAll m (gateWrites e base sel flags)) w.1 w.2 :=
    fun w hw => putAll_holds hapart hw
  have hlater : ∀ {w w' : Nat × List Byte} {rest : List (Nat × List Byte)}, w' ∈ rest → w' ∈ w :: rest :=
    List.mem_cons_of_mem _
  exact ⟨hholds _ (List.mem_cons_self ..), hholds _ (hlater (List.mem_cons_self ..)),
    hholds _ (hlater (hlater (List.mem_cons_self ..))), hholds _ (hlater (hlater (hlater (List.mem_cons_self ..)))),
    hholds _ (hlater (hlater (hlater (hlater (List.mem_cons_self ..))))),
    hholds _ (hlater (hlater (hlater (hlater (hlater (List.mem_cons_self ..))))))⟩

/-- What is set is what the processor reads. -/
theorem gateAt_set (idt : Nat) (m : Store) (num : Nat) (base : Word) (sel : BitVec 16) (flags : Byte) :
    gateAt idt (idtSetGate idt m num base sel flags) num = gateOf base sel flags := by
  obtain ⟨hlow, hmid, hhigh⟩ := base_parts base
  have hbase := base.isLt
  have hsel := sel.isLt
  unfold gateAt gateOf idtSetGate
  dsimp only
  generalize idt + gateSize * num = e
  obtain ⟨hlo, hmi, hhi, hse, hze, hfl⟩ := gateWrites_hold m e base sel flags
  have hzero : putAll m (gateWrites e base sel flags) (e + 4) = 0 := (holds_cons.mp hze).1
  have hflags : putAll m (gateWrites e base sel flags) (e + 5) = flags := (holds_cons.mp hfl).1
  rw [ofLE_fetch hlo, ofLE_fetch hmi, ofLE_fetch hhi, ofLE_fetch hse, hzero, hflags, hlow, hmid, hhigh]
  congr 1
  · omega
  · omega

theorem gateWrites_inside {e : Nat} {w : Nat × List Byte} (hw : w ∈ gateWrites e base sel flags) :
    e ≤ w.1 ∧ w.1 + w.2.length ≤ e + gateSize := by
  have hall : ∀ w ∈ gateWrites e base sel flags, e ≤ w.1 ∧ w.1 + w.2.length ≤ e + gateSize := by
    simp [gateWrites, gateSize, length_toLE, Nat.add_assoc]
  exact hall w hw

/-- The other gates stay. -/
theorem gateAt_set_ne (h : v ≠ num) : gateAt idt (idtSetGate idt m num base sel flags) v = gateAt idt m v := by
  have hagree : Agree m (idtSetGate idt m num base sel flags) (idt + gateSize * v) gateSize := by
    have hfar : idt + gateSize * num + gateSize ≤ idt + gateSize * v ∨
        idt + gateSize * v + gateSize ≤ idt + gateSize * num := by
      unfold gateSize
      omega
    refine putAll_agree fun w hw => ?_
    obtain ⟨hlow, hhigh⟩ := gateWrites_inside hw
    unfold Clear
    omega
  have hbyte : ∀ i < gateSize, idtSetGate idt m num base sel flags (idt + gateSize * v + i) =
      m (idt + gateSize * v + i) := fun i hi => hagree _ (by omega) (by omega)
  have hfetch : ∀ i n, i + n ≤ gateSize → fetch (idtSetGate idt m num base sel flags) (idt + gateSize * v + i) n =
      fetch m (idt + gateSize * v + i) n := fun i n hn => fetch_congr (hagree.mono (by omega) (by omega))
  have hlow := hfetch 0 2 (by decide)
  rw [Nat.add_zero] at hlow
  unfold gateAt
  dsimp only
  rw [hbyte 4 (by decide), hbyte 5 (by decide), hlow, hfetch 2 2 (by decide), hfetch 6 2 (by decide),
    hfetch 8 4 (by decide)]

/-! ### The table -/

theorem gateAt_isrs (addr : Handler → Word) (idt : Nat) (gates : List (Fin 32)) (m : Store) (v : Fin 32) :
    gateAt idt (gates.foldl (fun m (v : Fin 32) => idtSetGate idt m v (addr (.isr v)) 0x08 0x8e) m) v =
      if v ∈ gates then gateOf (addr (.isr v)) 0x08 0x8e else gateAt idt m v := by
  induction gates generalizing m with
  | nil => rfl
  | cons w rest ih =>
    rw [List.foldl_cons, ih]
    by_cases hrest : v ∈ rest
    · rw [if_pos hrest, if_pos (List.mem_cons_of_mem _ hrest)]
    · rw [if_neg hrest]
      by_cases hfirst : v = w
      · rw [hfirst, gateAt_set, if_pos (List.mem_cons_self ..)]
      · rw [gateAt_set_ne (fun hc => hfirst (Fin.ext hc)), if_neg]
        exact fun hmem => (List.mem_cons.mp hmem).elim hfirst hrest

theorem gateAt_isrs_above (gates : List (Fin 32)) (m : Store) (h : 32 ≤ v) :
    gateAt idt (gates.foldl (fun m (v : Fin 32) => idtSetGate idt m v (addr (.isr v)) 0x08 0x8e) m) v =
      gateAt idt m v := by
  induction gates generalizing m with
  | nil => rfl
  | cons w rest ih =>
    rw [List.foldl_cons, ih, gateAt_set_ne (by omega)]

/-- The handler of a vector, and the flags of its gate. -/
def handlerAt (v : Nat) : Option (Handler × Byte) :=
  if h : v < 32 then some (.isr ⟨v, h⟩, 0x8e)
  else if v = 32 then some (.irq0, 0x8e)
  else if v = 33 then some (.irq1, 0x8e)
  else if v = 80 then some (.idt80, 0xee)
  else if v = 128 then some (.idt128, 0xee)
  else none

/-- The table after `reload_idt`. -/
theorem gateAt_reload (addr : Handler → Word) (idt : Nat) (m : Store) (v : Nat) :
    gateAt idt (reloadIdt addr idt m).2 v =
      (handlerAt v).elim (gateAt idt m v) fun h => gateOf (addr h.1) 0x08 h.2 := by
  unfold reloadIdt irqInstall isrsInstall
  dsimp only
  by_cases h128 : v = 128
  · rw [h128, gateAt_set]
    rfl
  rw [gateAt_set_ne h128]
  by_cases h80 : v = 80
  · rw [h80, gateAt_set]
    rfl
  rw [gateAt_set_ne h80]
  by_cases h33 : v = 33
  · rw [h33, gateAt_set]
    rfl
  rw [gateAt_set_ne h33]
  by_cases h32 : v = 32
  · rw [h32, gateAt_set]
    rfl
  rw [gateAt_set_ne h32]
  by_cases hisr : v < 32
  · have hall : ∀ w : Fin 32, w ∈ isrGates := by decide
    have hgate := gateAt_isrs addr idt isrGates m ⟨v, hisr⟩
    rw [if_pos (hall _)] at hgate
    rw [hgate, handlerAt, dif_pos hisr]
    rfl
  · rw [gateAt_isrs_above _ _ (by omega), handlerAt, dif_neg hisr, if_neg h32, if_neg h33, if_neg h80, if_neg h128]
    rfl

theorem handlerAt_flags {g : Handler × Byte} (hv : v < 256) (hg : handlerAt v = some g) :
    g.2 = 0x8e ∨ g.2 = 0xee := by
  have hall : ∀ w : Fin 256, ∀ g ∈ handlerAt w, g.2 = 0x8e ∨ g.2 = 0xee := by decide +kernel
  exact hall ⟨v, hv⟩ g hg

/-- A vector that has a gate. -/
theorem deliver_gate {g : Handler × Byte} {cpl : Option Nat} (hv : v < 256) (hg : handlerAt v = some g) :
    deliver idt (reloadIdt addr idt m) v cpl =
      if ∃ level ∈ cpl, g.2.toNat / 32 % 4 < level then .error 13 else .ok (addr g.1).toNat := by
  have hgate := gateAt_reload addr idt m v
  rw [hg, Option.elim_some] at hgate
  have hlimit : ¬ (reloadIdt addr idt m).1 < gateSize * v + 15 := by
    unfold reloadIdt gateSize
    dsimp only
    omega
  have htype : (gateOf (addr g.1) 0x08 g.2).type = 14 ∧ (gateOf (addr g.1) 0x08 g.2).present = true := by
    unfold gateOf
    obtain hflags | hflags := handlerAt_flags hv hg
    · rw [hflags]
      exact ⟨rfl, rfl⟩
    · rw [hflags]
      exact ⟨rfl, rfl⟩
  unfold deliver
  dsimp only
  rw [hgate, if_neg hlimit, if_neg (fun hc => hc.1 htype.1), if_pos htype.2]
  rfl

/-- One that has none. -/
theorem deliver_no_gate {cpl : Option Nat} (hzero : ∀ x, idt ≤ x → x < idt + gateSize * 256 → m x = 0) (hv : v < 256)
    (hg : handlerAt v = none) : deliver idt (reloadIdt addr idt m) v cpl = .error 13 := by
  have hgate := gateAt_reload addr idt m v
  rw [hg, Option.elim_none] at hgate
  have hflags : m (idt + gateSize * v + 5) = 0 := by
    refine hzero _ (by omega) ?_
    unfold gateSize
    omega
  have htype : (gateAt idt m v).type = 0 := by
    unfold gateAt
    dsimp only
    rw [hflags]
    rfl
  unfold deliver
  dsimp only
  rw [hgate]
  split
  · rfl
  · rw [htype, if_pos ⟨by decide, by decide⟩]

/-- A vector whose gate lets the event through. -/
theorem entered_gate {g : Handler × Byte} {cpl : Option Nat} (hv : v < 256) (hg : handlerAt v = some g)
    (hcpl : ¬ ∃ level ∈ cpl, g.2.toNat / 32 % 4 < level) :
    entered idt (reloadIdt addr idt m) v cpl = some (addr g.1).toNat := by
  rw [entered, deliver_gate hv hg, if_neg hcpl]

/-- Everything else is a general protection fault. -/
theorem entered_fault {cpl : Option Nat} (h : deliver idt (reloadIdt addr idt m) v cpl = .error 13) :
    entered idt (reloadIdt addr idt m) v cpl = some (addr (.isr 13)).toNat := by
  have hnone : ¬ ∃ level ∈ (none : Option Nat), (0x8e : Byte).toNat / 32 % 4 < level := fun ⟨_, hlevel, _⟩ => by
    cases hlevel
  have hfault : deliver idt (reloadIdt addr idt m) 13 none = _ := deliver_gate (by decide) rfl
  rw [if_neg hnone] at hfault
  rw [entered, h]
  dsimp only
  rw [hfault]
  rfl

/-! ### What halts the system -/

theorem outcome_isr (v : Fin 32) (errCode : Word) :
    Handler.outcome errCode (.isr v) =
      if v = 14 then .pageFault errCode else .halted (exceptionMessages.getD v.val "") := by
  have hnumber : ∀ v : Fin 32, (BitVec.ofNat 64 v.val = 14 ↔ v = 14) ∧ BitVec.ofNat 64 v.val < 32 ∧
      (BitVec.ofNat 64 v.val).toNat = v.val := by decide
  obtain ⟨hpage, hlt, hval⟩ := hnumber v
  rw [Handler.outcome, faultHandler, hval, if_pos hlt]
  simp only [hpage]

theorem entered_handler (hzero : ∀ x, idt ≤ x → x < idt + gateSize * 256 → m x = 0) (t : Trigger) :
    entered idt (reloadIdt addr idt m) t.vector t.cpl = some (addr t.handler).toNat := by
  have hfree : ∀ flags : Byte, ¬ ∃ level ∈ (none : Option Nat), flags.toNat / 32 % 4 < level := by
    rintro flags ⟨_, hlevel, _⟩
    cases hlevel
  cases t with
  | exception v =>
    have hgate : handlerAt v = some (.isr v, 0x8e) := dif_pos v.isLt
    exact entered_gate (by omega) hgate (hfree _)
  | irq n =>
    by_cases htimer : n = 0
    · subst htimer
      exact entered_gate (g := (.irq0, 0x8e)) (by decide) rfl (hfree _)
    by_cases hkey : n = 1
    · subst hkey
      exact entered_gate (g := (.irq1, 0x8e)) (by decide) rfl (hfree _)
    have hother : ∀ n : Fin 16, n ≠ 0 → n ≠ 1 → irqVector n < 256 ∧ handlerAt (irqVector n) = none := by decide
    obtain ⟨hlt, hgate⟩ := hother n htimer hkey
    rw [Trigger.handler, if_neg htimer, if_neg hkey]
    exact entered_fault (deliver_no_gate hzero hlt hgate)
  | int v =>
    have hring : ¬ ∃ level ∈ some 3, (0xee : Byte).toNat / 32 % 4 < level := by
      rintro ⟨level, hlevel, hlt⟩
      obtain rfl := Option.mem_some.mp hlevel
      exact absurd hlt (by decide)
    by_cases hold : v = 80
    · subst hold
      exact entered_gate (g := (.idt80, 0xee)) (by decide) rfl hring
    by_cases hcall : v = 128
    · subst hcall
      exact entered_gate (g := (.idt128, 0xee)) (by decide) rfl hring
    -- the gates of the exceptions and of the two interrupts are for ring 0
    have hother : ∀ v : Fin 256, v ≠ 80 → v ≠ 128 → ∀ g ∈ handlerAt v, g.2 = 0x8e := by decide +kernel
    have hdenied : deliver idt (reloadIdt addr idt m) v (some 3) = .error 13 := by
      cases hgate : handlerAt v with
      | none => exact deliver_no_gate hzero v.isLt hgate
      | some g =>
        rw [deliver_gate v.isLt hgate, if_pos]
        exact ⟨3, rfl, by rw [hother v hold hcall g hgate]; decide⟩
    rw [Trigger.handler, if_neg hold, if_neg hcall]
    exact entered_fault hdenied

end

/-- What comes of it. -/
theorem outcome_served {t : Trigger} (h : t.Served) (errCode : Word) (message : String) :
    t.handler.outcome errCode ≠ .halted message := by
  intro hhalted
  cases t with
  | exception v =>
    have hpage : v = 14 := h
    rw [Trigger.handler, outcome_isr, if_pos hpage] at hhalted
    cases hhalted
  | irq n => obtain rfl | rfl := h <;> cases hhalted
  | int v => obtain rfl | rfl := h <;> cases hhalted

theorem outcome_not_served {t : Trigger} (h : ¬ t.Served) (errCode : Word) :
    t.handler.outcome errCode = .halted t.message := by
  cases t with
  | exception v =>
    have hother : v ≠ 14 := h
    rw [Trigger.handler, outcome_isr, if_neg hother]
    rfl
  | irq n =>
    obtain ⟨htimer, hkey⟩ := not_or.mp h
    rw [Trigger.handler, if_neg htimer, if_neg hkey, outcome_isr]
    rfl
  | int v =>
    obtain ⟨hold, hcall⟩ := not_or.mp h
    rw [Trigger.handler, if_neg hold, if_neg hcall, outcome_isr]
    rfl

/-- With the table that `reload_idt` makes of one filled with zeros, every event enters its handler. The
system halts just when it is an exception other than the page fault, an interrupt other than those
of the timer and the keyboard, or an `int` of a user program other than 80 and 128. Only the
exceptions are reported as what they are. -/
theorem halted_iff (addr : Handler → Word) (idt : Nat) (m : Store)
    (hzero : ∀ x, idt ≤ x → x < idt + gateSize * 256 → m x = 0) (t : Trigger) :
    entered idt (reloadIdt addr idt m) t.vector t.cpl = some (addr t.handler).toNat ∧
      ∀ errCode, ((∃ message, t.handler.outcome errCode = .halted message) ↔ ¬ t.Served) ∧
        (¬ t.Served → t.handler.outcome errCode = .halted t.message) := by
  refine ⟨entered_handler hzero t, fun errCode => ⟨⟨?_, ?_⟩, fun h => outcome_not_served h errCode⟩⟩
  · rintro ⟨message, hhalted⟩ hserved
    exact outcome_served hserved errCode message hhalted
  · exact fun h => ⟨t.message, outcome_not_served h errCode⟩

/-- The stubs of the exceptions, 16 bytes each, and the others behind them. -/
def labels : Handler → Word
  | .isr v => 0x200000 + BitVec.ofNat 64 (16 * v)
  | .irq0 => 0x200200
  | .irq1 => 0x200230
  | .idt80 => 0x200260
  | .idt128 => 0x2002a0

/-- A user program that executes `int $3`. -/
theorem halted_breakpoint :
    entered 4096 (reloadIdt labels 4096 fun _ => 0) 3 (some 3) = some 0x2000d0 ∧
      (Handler.isr 13).outcome 26 = .halted "General Protection Fault" := by
  obtain ⟨hentered, houtcome⟩ := halted_iff labels 4096 (fun _ => 0) (fun _ _ _ => rfl) (.int 3)
  refine ⟨hentered, (houtcome 26).2 ?_⟩
  rintro (hold | hcall)
  · exact absurd hold (by decide)
  · exact absurd hcall (by decide)

end Sbnix.Context
