/-
# `KoeOs.Interrupt.Gate` — the interrupt descriptor table of `src/interrupt.rs`

A vector's descriptor is sixteen bytes.  The source packs it from the address of the
stub; the processor reads it back:

    bits   0 ..  16    offset, low          bits  48 ..  64    offset, middle
    bits  16 ..  32    segment selector     bits  64 ..  96    offset, high
    bits  32 ..  48    attributes           bits  96 .. 128    reserved

    attributes: type in 8 .. 12, zero in 12, privilege in 13 .. 15, present in 15

`init_exn_handlers` and `init_irq_handlers` fill the table from `ISR_TABLE`.  The result
follows an interrupt from the processor's look into the table to the return of its stub.
-/
import KoeOs.Interrupt.Entry
import KoeOs.Rust.Code

namespace Koe

open Amd64

namespace Interrupt

inductive Privilege where
  | user
  | kernel
  deriving DecidableEq, Repr

def Privilege.code : Privilege → BitVec 8
  | user => 3
  | kernel => 0

inductive GateTyp where
  | intrpt
  | trap
  deriving DecidableEq, Repr

def GateTyp.code : GateTyp → BitVec 8
  | intrpt => 0b1110
  | trap => 0b1111

/-- `bits[first..first + len].store_le(value)`. -/
def storeLe (bits : BitVec 16) (first len : ℕ) (value : BitVec 8) : BitVec 16 :=
  bits &&& ~~~(BitVec.ofNat 16 (2 ^ len - 1) <<< first) |||
    (value.setWidth 16 &&& BitVec.ofNat 16 (2 ^ len - 1)) <<< first

structure InterruptDesc where
  lowLowOffset : BitVec 16
  segmentSelector : BitVec 16
  attributes : BitVec 16
  highLowOffset : BitVec 16
  highOffset : BitVec 32
  reserved : BitVec 32
  deriving DecidableEq, Repr

namespace InterruptDesc

def attributesOf (typ : GateTyp) (dpl : Privilege) : BitVec 16 :=
  storeLe (storeLe (storeLe 0 8 4 typ.code) 13 2 dpl.code) 15 1 1

def new (addr : Word) (typ : GateTyp) (dpl : Privilege) : InterruptDesc where
  lowLowOffset := addr.extractLsb' 0 16
  segmentSelector := 8
  attributes := attributesOf typ dpl
  highLowOffset := addr.extractLsb' 16 16
  highOffset := addr.extractLsb' 32 32
  reserved := 0

def exn (addr : Word) : InterruptDesc := new addr .trap .kernel

def irq (addr : Word) : InterruptDesc := new addr .trap .kernel

def null : InterruptDesc := ⟨0, 0, 0, 0, 0, 0⟩

/-- The descriptor in memory, the first field lowest. -/
def bits (d : InterruptDesc) : BitVec 128 :=
  d.reserved ++ d.highOffset ++ d.highLowOffset ++ d.attributes ++ d.segmentSelector ++
    d.lowLowOffset

end InterruptDesc

/-! ## What the processor reads -/

/-- A present interrupt or trap gate. -/
structure Gate where
  offset : Word
  selector : BitVec 16
  ist : BitVec 3
  typ : BitVec 4
  dpl : BitVec 2
  deriving DecidableEq, Repr

namespace Gate

/-- The gate in sixteen bytes of the table; without one the processor raises an exception. -/
def decode (d : BitVec 128) : Option Gate :=
  let gate : Gate := {
    offset := d.extractLsb' 64 32 ++ d.extractLsb' 48 16 ++ d.extractLsb' 0 16
    selector := d.extractLsb' 16 16
    ist := d.extractLsb' 32 3
    typ := d.extractLsb' 40 4
    dpl := d.extractLsb' 45 2 }
  if d.getLsbD 47 && !d.getLsbD 44 && (gate.typ == 0b1110 || gate.typ == 0b1111) then some gate
  else none

/-- The flags the gate clears: an interrupt gate disables interrupts, a trap gate does not. -/
def mask (g : Gate) : Word :=
  if g.typ = 0b1110 then clearedFlags ||| interruptFlag else clearedFlags

end Gate

namespace InterruptDesc

variable (d : InterruptDesc)

theorem bits_low : d.bits.extractLsb' 0 16 = d.lowLowOffset :=
  BitVec.extractLsb'_append_eq_right

theorem bits_selector : d.bits.extractLsb' 16 16 = d.segmentSelector := by
  rw [bits, BitVec.extractLsb'_append_eq_of_le (by decide)]
  exact BitVec.extractLsb'_append_eq_right

theorem bits_attributes {first len : ℕ} (h : first + len ≤ 16) :
    d.bits.extractLsb' (32 + first) len = d.attributes.extractLsb' first len := by
  rw [bits, BitVec.extractLsb'_append_eq_of_le (by omega),
    BitVec.extractLsb'_append_eq_of_le (by omega),
    BitVec.extractLsb'_append_eq_of_add_le (by omega)]
  congr 1
  omega

theorem bits_middle : d.bits.extractLsb' 48 16 = d.highLowOffset := by
  rw [bits, BitVec.extractLsb'_append_eq_of_le (by decide),
    BitVec.extractLsb'_append_eq_of_le (by decide), BitVec.extractLsb'_append_eq_of_le (by decide)]
  exact BitVec.extractLsb'_append_eq_right

theorem bits_high : d.bits.extractLsb' 64 32 = d.highOffset := by
  rw [bits, BitVec.extractLsb'_append_eq_of_le (by decide),
    BitVec.extractLsb'_append_eq_of_le (by decide), BitVec.extractLsb'_append_eq_of_le (by decide),
    BitVec.extractLsb'_append_eq_of_le (by decide)]
  exact BitVec.extractLsb'_append_eq_right

theorem bits_bit {i : ℕ} (h : i < 16) : d.bits.getLsbD (32 + i) = d.attributes.getLsbD i := by
  have hfield : d.bits.extractLsb' (32 + i) 1 = d.attributes.extractLsb' i 1 :=
    d.bits_attributes (by omega)
  have hbit := congrArg (BitVec.getLsbD · 0) hfield
  simpa using hbit

/-- The processor reads the address back that the descriptor was made from. -/
theorem offset_new (addr : Word) :
    addr.extractLsb' 32 32 ++ addr.extractLsb' 16 16 ++ addr.extractLsb' 0 16 = addr := by
  have hhigh : addr.extractLsb' 32 32 ++ addr.extractLsb' 16 16 = addr.extractLsb' 16 (32 + 16) :=
    BitVec.extractLsb'_append_extractLsb'_eq_extractLsb' rfl
  have hall : addr.extractLsb' 16 (32 + 16) ++ addr.extractLsb' 0 16 =
      addr.extractLsb' 0 (32 + 16 + 16) :=
    BitVec.extractLsb'_append_extractLsb'_eq_extractLsb' rfl
  rw [hhigh, hall]
  exact BitVec.extractLsb'_eq_self

theorem attributesOf_bits (typ : GateTyp) (dpl : Privilege) :
    (attributesOf typ dpl).getLsbD 15 = true ∧ (attributesOf typ dpl).getLsbD 12 = false ∧
      (attributesOf typ dpl).extractLsb' 0 3 = 0 ∧
      (attributesOf typ dpl).extractLsb' 8 4 = typ.code.setWidth 4 ∧
      (attributesOf typ dpl).extractLsb' 13 2 = dpl.code.setWidth 2 := by
  cases typ <;> cases dpl <;> decide

/-- The format's round trip. -/
theorem decode_new (addr : Word) (typ : GateTyp) (dpl : Privilege) :
    Gate.decode (new addr typ dpl).bits =
      some ⟨addr, 8, 0, typ.code.setWidth 4, dpl.code.setWidth 2⟩ := by
  obtain ⟨hpresent, hzero, hist, htyp, hdpl⟩ := attributesOf_bits typ dpl
  have hgate : (typ.code.setWidth 4 == 0b1110 || typ.code.setWidth 4 == 0b1111) = true := by
    cases typ <;> rfl
  simp only [Gate.decode]
  rw [bits_high, bits_middle, bits_low, bits_selector, bits_bit _ (by decide : 15 < 16),
    bits_bit _ (by decide : 12 < 16), bits_attributes _ (by decide : 0 + 3 ≤ 16),
    bits_attributes _ (by decide : 8 + 4 ≤ 16), bits_attributes _ (by decide : 13 + 2 ≤ 16)]
  simp only [new, offset_new, hpresent, hzero, hist, htyp, hdpl, hgate]
  rfl

theorem decode_null : Gate.decode null.bits = none := by decide

end InterruptDesc

/-! ## The table -/

/-- `IDT`, by vector. -/
abbrev Idt := Fin 256 → InterruptDesc

/-- `ISR_TABLE[i]`: the words of the macros, and behind them whatever the linker put there. -/
def isrTable (place : ℕ → Word) (behind : ℕ → Word) (i : ℕ) : Word :=
  ((macros.flatMap (Macro.data place))[i]?).getD (behind i)

/-- `idt.0[i] = desc`. -/
def setDesc (i : ℕ) (desc : InterruptDesc) : Code Idt Unit :=
  if h : i < 256 then modify fun idt => Function.update idt ⟨i, h⟩ desc else throw .bounds

/-- One round of the loops of `init_exn_handlers` and `init_irq_handlers`. -/
def initHandler (table : ℕ → Word) (desc : Word → InterruptDesc) (i : ℕ) : Code Idt Unit :=
  let addr := table i
  if addr = 0 then return else setDesc i (desc addr)

def initExnHandlers (table : ℕ → Word) : Code Idt Unit :=
  (List.range' 0 22).forM (initHandler table .exn)

def initIrqHandlers (table : ℕ → Word) : Code Idt Unit :=
  (List.range' 32 16).forM (initHandler table .irq)

/-- What `init` does to the table. -/
def initIdt (table : ℕ → Word) : Code Idt Unit := do
  initExnHandlers table
  initIrqHandlers table

/-- The table after a round. -/
def fill (table : ℕ → Word) (idt : Idt) (i : ℕ) : Idt :=
  if table i = 0 then idt else fun v => if v = i then .new (table i) .trap .kernel else idt v

theorem initHandler_run (table : ℕ → Word) {desc : Word → InterruptDesc}
    (hdesc : ∀ a, desc a = .new a .trap .kernel) {i : ℕ} (hi : i < 256) (idt : Idt) :
    (initHandler table desc i).run idt = .ok () (fill table idt i) := by
  by_cases haddr : table i = 0
  · rw [initHandler, if_pos haddr, fill, if_pos haddr]
    rfl
  · have hset : Function.update idt ⟨i, hi⟩ (desc (table i)) =
        fun v : Fin 256 => if v = i then .new (table i) .trap .kernel else idt v := by
      funext v
      by_cases hv : (v : ℕ) = i
      · rw [if_pos hv, show v = ⟨i, hi⟩ from Fin.ext hv, Function.update_self, hdesc]
      · rw [if_neg hv, Function.update_of_ne fun h => hv (congrArg Fin.val h)]
    rw [initHandler, if_neg haddr, fill, if_neg haddr, setDesc, dif_pos hi, ← hset]
    rfl

theorem fill_apply (table : ℕ → Word) (idt : Idt) (i : ℕ) (v : Fin 256) :
    fill table idt i v =
      if v = i ∧ table v ≠ 0 then .new (table v) .trap .kernel else idt v := by
  by_cases haddr : table i = 0
  · rw [fill, if_pos haddr, if_neg]
    rintro ⟨hv, hne⟩
    exact hne (hv ▸ haddr)
  · rw [fill, if_neg haddr]
    by_cases hv : (v : ℕ) = i
    · simp only [hv, if_true, true_and, ne_eq, haddr, not_false_eq_true]
    · simp only [hv, if_false, false_and]

/-- The table after a loop over the vectors `l`. -/
theorem foldl_fill (table : ℕ → Word) (l : List ℕ) (idt : Idt) (v : Fin 256) :
    l.foldl (fill table) idt v =
      if (v : ℕ) ∈ l ∧ table v ≠ 0 then .new (table v) .trap .kernel else idt v := by
  induction l generalizing idt with
  | nil => simp
  | cons i l ih =>
    rw [List.foldl_cons, ih, fill_apply]
    by_cases hl : (v : ℕ) ∈ l ∧ table v ≠ 0
    · rw [if_pos hl, if_pos ⟨List.mem_cons_of_mem i hl.1, hl.2⟩]
    · by_cases hi : (v : ℕ) = i ∧ table v ≠ 0
      · rw [if_neg hl, if_pos hi, if_pos ⟨List.mem_cons.mpr (.inl hi.1), hi.2⟩]
      · rw [if_neg hl, if_neg hi, if_neg]
        rintro ⟨hmem, hne⟩
        rcases List.mem_cons.mp hmem with h | h
        · exact hi ⟨h, hne⟩
        · exact hl ⟨h, hne⟩

/-- The vectors that the two loops go over. -/
def served : List ℕ := List.range' 0 22 ++ List.range' 32 16

theorem initIdt_run (table : ℕ → Word) (idt : Idt) :
    (initIdt table).run idt = .ok () fun v =>
      if (v : ℕ) ∈ served ∧ table v ≠ 0 then .new (table v) .trap .kernel else idt v := by
  have hloop {desc : Word → InterruptDesc} (hdesc : ∀ a, desc a = .new a .trap .kernel)
      {l : List ℕ} (hl : ∀ i ∈ l, i < 256) (idt : Idt) :
      (l.forM (initHandler table desc)).run idt = .ok () (l.foldl (fill table) idt) :=
    Code.forM_foldl_run (e := id) (fun i hi idt => initHandler_run table hdesc (hl i hi) idt) idt
  have hexn : (initExnHandlers table).run idt =
      .ok () ((List.range' 0 22).foldl (fill table) idt) :=
    hloop (fun _ => rfl) (by decide) idt
  rw [initIdt, Code.bind_ok hexn]
  refine (hloop (fun _ => rfl) (by decide) _).trans ?_
  rw [← List.foldl_append]
  congr 1
  funext v
  exact foldl_fill table served idt v

/-! ## From the table to the return -/

/-- The processor takes the interrupt `vec` in `m`; `none` if the table has no gate for it. -/
def accept (idt : Idt) (vec : Fin 256) (errno : Word) (m : Machine) : Option Machine :=
  (Gate.decode (idt vec).bits).map fun g =>
    m.interrupt (if pushesErrno vec then some errno else none) g.offset (g.selector.setWidth 64)
      g.mask

/-- The macros put the address of each stub at its vector. -/
theorem data_eq (place : ℕ → Word) : macros.flatMap (Macro.data place) =
    (List.range 48).map fun v => if (handlerOf v).isSome then place v else 0 := by
  simp [macros, Macro.data, List.range_succ, handlerOf, Macro.vec?]

theorem isrTable_eq (place behind : ℕ → Word) {v : ℕ} (hv : v ∈ served) :
    isrTable place behind v = if (handlerOf v).isSome then place v else 0 := by
  have hlt : v < 48 := (by decide : ∀ v ∈ served, v < 48) v hv
  rw [isrTable, data_eq, List.getElem?_map, List.getElem?_range hlt]
  rfl

theorem mem_served {vec : ℕ} (h : (handlerOf vec).isSome) : vec ∈ served := by
  obtain ⟨f, hf⟩ := Option.isSome_iff_exists.mp h
  unfold handlerOf at hf
  obtain ⟨d, hfind, -⟩ := Option.map_eq_some_iff.mp hf
  have hvec : d.vec? = some vec := by simpa using List.find?_some hfind
  exact (by decide : ∀ d ∈ macros, ∀ vec ∈ d.vec?, vec ∈ served) d
    (List.mem_of_find?_eq_some hfind) vec hvec

/-- The table that `init` leaves has a trap gate to the stub of each vector with a stub,
and no other gate. -/
theorem initIdt_null (place behind : ℕ → Word) (hplace : ∀ v, place v ≠ 0) :
    (initIdt (isrTable place behind)).run (fun _ => .null) = .ok () fun v =>
      if (handlerOf v).isSome then .new (place v) .trap .kernel else .null := by
  rw [initIdt_run]
  congr 1
  funext v
  by_cases hsome : (handlerOf v).isSome
  · have hmem := mem_served hsome
    rw [isrTable_eq place behind hmem, if_pos hsome, if_pos hsome, if_pos ⟨hmem, hplace v⟩]
  · rw [if_neg hsome, if_neg]
    rintro ⟨hmem, hne⟩
    rw [isrTable_eq place behind hmem, if_neg hsome] at hne
    exact hne rfl

theorem mask_trap : (GateTyp.code .trap).setWidth 4 ≠ 0b1110 ∧
    ~~~clearedFlags &&& interruptFlag = interruptFlag := by decide

/-- **Every interrupt that has a gate is served, and only those have one.**  Whatever the
linker made of the stubs, after `init` a vector without a stub has no gate.  An interrupt
at a vector with one, taken in any machine, starts at its stub with the interrupt flag as
it was; the stub calls the vector's handler with the vector and the interrupted frame, with
nothing written but below the interrupted stack, and if the handler keeps the calling
convention there, the run ends in the interrupted machine with the memory the handler
left. -/
theorem interrupts_served (callee : Handler → Machine → Machine) (link : Handler → Word)
    (alu : Word → Word → Word → Word) {place : ℕ → Word} (behind : ℕ → Word)
    (hplace : ∀ v, place v ≠ 0) :
    ∃ idt, (initIdt (isrTable place behind)).run (fun _ => .null) = .ok () idt ∧
      ∀ (vec : Fin 256) (errno : Word) (m : Machine),
        (handlerOf vec = none → accept idt vec errno m = none) ∧
        ∀ f, handlerOf vec = some f →
          ∃ start, accept idt vec errno m = some start ∧ start.rip = place vec ∧
            start.rflags &&& interruptFlag = m.rflags &&& interruptFlag ∧
            ((∀ e, e.gpr .rsp = aligned (m.gpr .rsp) - 144 → Abi 136 (callee f) e) →
              ∃ n e slot, Call m vec slot e ∧ (pushesErrno vec → slot = errno) ∧
                (program callee link alu).exec n (text (.isr vec)) start =
                  some { m with mem := (callee f e).mem }) := by
  refine ⟨_, initIdt_null place behind hplace, fun vec errno m => ⟨fun hnone => ?_, fun f hf => ?_⟩⟩
  · simp [accept, hnone, InterruptDesc.decode_null]
  · have hgate : accept (fun v => if (handlerOf v).isSome then .new (place v) .trap .kernel
        else .null) vec errno m = some (m.interrupt (if pushesErrno vec then some errno else none)
          (place vec) 8 clearedFlags) := by
      simp only [accept, hf, Option.isSome_some, if_true, InterruptDesc.decode_new, Option.map_some,
        Gate.mask, if_neg mask_trap.1]
      rfl
    refine ⟨_, hgate, rfl, ?_, fun habi => ?_⟩
    · show m.rflags &&& ~~~clearedFlags &&& interruptFlag = _
      rw [BitVec.and_assoc, mask_trap.2]
    · exact isr_transparent callee link alu hf errno (place vec) 8 clearedFlags m habi

/-- The keyboard, with a handler that returns at once: what the interrupted code has on its
stack is still there. -/
theorem interrupts_served_keyboard : ∃ idt start n e slot,
    (initIdt (isrTable (fun _ => 9) fun _ => 0)).run (fun _ => .null) = .ok () idt ∧
      accept idt 33 0 ⟨fun _ => 0x1008, 5, 2, 8, 0, fun _ => 4⟩ = some start ∧
      Call ⟨fun _ => 0x1008, 5, 2, 8, 0, fun _ => 4⟩ 33 slot e ∧
      (program (fun _ => idle) (fun _ => 7) fun flags _ _ => flags).exec n (text (.isr 33)) start =
        some ⟨fun _ => 0x1008, 5, 2, 8, 0, (idle e).mem⟩ ∧ (idle e).mem 0x1008 = 4 := by
  obtain ⟨idt, hinit, hserved⟩ := interrupts_served (fun _ => idle) (fun _ => 7)
    (fun flags _ _ => flags) (fun _ => 0) (fun _ => (by decide : (9 : Word) ≠ 0))
  obtain ⟨start, haccept, -, -, hrun⟩ := (hserved 33 0 ⟨fun _ => 0x1008, 5, 2, 8, 0, fun _ => 4⟩).2
    .irqHandler (by decide)
  obtain ⟨n, e, slot, hcall, -, hexec⟩ := hrun fun e _ => idle_abi 136 e
  exact ⟨idt, start, n, e, slot, hinit, haccept, hcall, hexec, hcall.mem 0x1008 (by decide)⟩

end Interrupt

end Koe
