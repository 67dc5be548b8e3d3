/-
# `KoeOs.Interrupt.Pic` — the interrupt controllers of `src/interrupt/pic.rs`

Two 8259 controllers, the second behind line 2 of the first.  The source writes to their
ports; `Chip` is the device behind a command port and a data port:

    imr    the lines that are masked
    irr    the lines that ask for service
    isr    the lines in service

A controller asks the processor for its first line that is requested, not masked, and
comes before all lines in service.  A write of `0x20` to the command port drops the first
line in service; the device is not told which service has ended.

Commands that the source never sends have no effect in the model.
-/
import KoeOs.Io.Keyboard
import KoeOs.Lib.Service

namespace Koe

namespace Interrupt

/-! ## The device -/

/-- What the data port expects: the words of an initialization, or a mask. -/
inductive Phase where
  | icw2
  | icw3
  | icw4
  | ready
  deriving DecidableEq, Repr

structure Chip where
  phase : Phase
  /-- From the first word: no other controller; a fourth word will follow. -/
  single : Bool
  ic4 : Bool
  /-- The vector of line 0. -/
  offset : BitVec 8
  icw3 : BitVec 8
  icw4 : BitVec 8
  imr : BitVec 8
  irr : BitVec 8
  isr : BitVec 8
  deriving DecidableEq, Repr

namespace Chip

/-- The first line in service is dropped. -/
def endOfInterrupt (c : Chip) : Chip :=
  match (List.range 8).find? c.isr.getLsbD with
  | some i => { c with isr := setBit c.isr i false }
  | none => c

/-- A write to the command port. -/
def command (c : Chip) (value : BitVec 8) : Chip :=
  if value.getLsbD 4 then
    { c with
      phase := .icw2
      single := value.getLsbD 1
      ic4 := value.getLsbD 0
      imr := 0
      irr := 0
      isr := 0 }
  else if value = 0x20 then c.endOfInterrupt
  else c

/-- The phase after the second or third word. -/
def phaseAfter (c : Chip) (third : Bool) : Phase :=
  if third && !c.single then .icw3 else if c.ic4 then .icw4 else .ready

/-- A write to the data port. -/
def data (c : Chip) (value : BitVec 8) : Chip :=
  match c.phase with
  | .icw2 => { c with offset := value &&& 0xF8, phase := c.phaseAfter true }
  | .icw3 => { c with icw3 := value, phase := c.phaseAfter false }
  | .icw4 => { c with icw4 := value, phase := .ready }
  | .ready => { c with imr := value }

/-- The line for which the controller interrupts, if `irr` are its requests. -/
def next (c : Chip) (irr : BitVec 8) : Option ℕ :=
  (List.range 8).find? fun i =>
    irr.getLsbD i && !c.imr.getLsbD i && (List.range (i + 1)).all fun j => !c.isr.getLsbD j

/-- The processor acknowledges line `i`. -/
def take (c : Chip) (i : ℕ) : Chip :=
  { c with isr := setBit c.isr i true, irr := setBit c.irr i false }

/-- A device raises line `i`. -/
def raise (c : Chip) (i : ℕ) : Chip := { c with irr := setBit c.irr i true }

/-- The lines in service. -/
def inService (c : Chip) : Finset ℕ := (Finset.range 8).filter (c.isr.getLsbD ·)

end Chip

structure Pics where
  pic1 : Chip
  pic2 : Chip
  deriving DecidableEq, Repr

/-! ## The source -/

def pic1CmdPort : ℕ := 0x20
def pic1DataPort : ℕ := 0x21
def pic2CmdPort : ℕ := 0xA0
def pic2DataPort : ℕ := 0xA1

def vectorPic : ℕ := 32

def icw1 : BitVec 8 := 0b00010001
def icw2Pic1 : BitVec 8 := .ofNat 8 vectorPic
def icw2Pic2 : BitVec 8 := .ofNat 8 (vectorPic + 8)
def icw3Pic1 : BitVec 8 := 0b100
def icw3Pic2 : BitVec 8 := 2
def icw4 : BitVec 8 := 0b00000001
def eoi : BitVec 8 := 0x20

def outb (port : ℕ) (value : BitVec 8) : Code Pics Unit :=
  modify fun s =>
    if port = pic1CmdPort then { s with pic1 := s.pic1.command value }
    else if port = pic1DataPort then { s with pic1 := s.pic1.data value }
    else if port = pic2CmdPort then { s with pic2 := s.pic2.command value }
    else if port = pic2DataPort then { s with pic2 := s.pic2.data value }
    else s

/-- A data port reads as the mask. -/
def inb (port : ℕ) : Code Pics (BitVec 8) := do
  let s ← get
  return if port = pic1DataPort then s.pic1.imr else s.pic2.imr

def initPic : Code Pics Unit := do
  outb pic1CmdPort icw1
  outb pic2CmdPort icw1
  outb pic1DataPort icw2Pic1
  outb pic2DataPort icw2Pic2
  outb pic1DataPort icw3Pic1
  outb pic2DataPort icw3Pic2
  outb pic1DataPort icw4
  outb pic2DataPort icw4

def maskAll : Code Pics Unit := do
  outb pic1DataPort 0xff
  outb pic2DataPort 0xff

def unmaskAll : Code Pics Unit := do
  outb pic1DataPort 0
  outb pic2DataPort 0

def ack (irq : ℕ) : Code Pics Unit :=
  if irq < 8 then outb pic1CmdPort eoi
  else if irq < 16 then outb pic2CmdPort eoi
  -- nothing on an invalid irq
  else return

/-- The data port and the line of the `match` in `mask` and `unmask`. -/
def lineOf (irq : ℕ) : Option (ℕ × ℕ) :=
  if irq < 8 then some (pic1DataPort, irq)
  else if irq < 16 then some (pic2DataPort, irq - 8)
  else none

def mask (irq : ℕ) : Code Pics Unit := do
  let some (pic, irqOffset) := lineOf irq | return
  let mask ← inb pic
  outb pic (mask ||| 1#8 <<< irqOffset)

def unmask (irq : ℕ) : Code Pics Unit := do
  let some (pic, irqOffset) := lineOf irq | return
  let mask ← inb pic
  outb pic (mask &&& ~~~(1#8 <<< irqOffset))

/-- What `interrupt::init` does to the controllers. -/
def initMasked : Code Pics Unit := do
  initPic
  maskAll
  unmask 1

/-! ## Initialization -/

/-- A controller as `init_pic` leaves it, with the mask `imr`. -/
def started (offset icw3 imr : BitVec 8) : Chip where
  phase := .ready
  single := false
  ic4 := true
  offset := offset
  icw3 := icw3
  icw4 := 1
  imr := imr
  irr := 0
  isr := 0

theorem initPic_run (s : Pics) :
    initPic.run s = .ok () ⟨started 32 0b100 0, started 40 2 0⟩ := rfl

/-! ## Masks -/

namespace Pics

/-- Whether the line of `irq` is masked. -/
def masked (s : Pics) (irq : ℕ) : Bool :=
  if irq < 8 then s.pic1.imr.getLsbD irq else s.pic2.imr.getLsbD (irq - 8)

/-- Both controllers are initialized. -/
def Ready (s : Pics) : Prop := s.pic1.phase = .ready ∧ s.pic2.phase = .ready

/-- The controllers with other masks. -/
def withMasks (s : Pics) (imr1 imr2 : BitVec 8) : Pics :=
  ⟨{ s.pic1 with imr := imr1 }, { s.pic2 with imr := imr2 }⟩

end Pics

/-- The calls that change masks. -/
inductive MaskCall where
  | mask (irq : ℕ)
  | unmask (irq : ℕ)
  | maskAll
  | unmaskAll
  deriving DecidableEq, Repr

namespace MaskCall

def code : MaskCall → Code Pics Unit
  | mask irq => Interrupt.mask irq
  | unmask irq => Interrupt.unmask irq
  | maskAll => Interrupt.maskAll
  | unmaskAll => Interrupt.unmaskAll

/-- What the call is for: the set of masked lines. -/
def apply (M : ℕ → Bool) : MaskCall → ℕ → Bool
  | mask irq => Function.update M irq true
  | unmask irq => Function.update M irq false
  | maskAll => fun _ => true
  | unmaskAll => fun _ => false

end MaskCall

theorem outb_data1 {s : Pics} (hs : s.Ready) (imr : BitVec 8) :
    (outb pic1DataPort imr).run s = .ok () (s.withMasks imr s.pic2.imr) := by
  obtain ⟨⟨phase, _⟩, _⟩ := s
  obtain rfl : phase = .ready := hs.1
  rfl

theorem outb_data2 {s : Pics} (hs : s.Ready) (imr : BitVec 8) :
    (outb pic2DataPort imr).run s = .ok () (s.withMasks s.pic1.imr imr) := by
  obtain ⟨_, ⟨phase, _⟩⟩ := s
  obtain rfl : phase = .ready := hs.2
  rfl

theorem inb_data1 (s : Pics) : (inb pic1DataPort).run s = .ok s.pic1.imr s := rfl

theorem inb_data2 (s : Pics) : (inb pic2DataPort).run s = .ok s.pic2.imr s := rfl

/-- The body that `mask` and `unmask` share: one line's register is read and written. -/
def change (f : BitVec 8 → ℕ → BitVec 8) (irq : ℕ) : Code Pics Unit := do
  let some (pic, irqOffset) := lineOf irq | return
  let mask ← inb pic
  outb pic (f mask irqOffset)

theorem change_low {s : Pics} (hs : s.Ready) {irq : ℕ} (h : irq < 8)
    (f : BitVec 8 → ℕ → BitVec 8) :
    (change f irq).run s = .ok () (s.withMasks (f s.pic1.imr irq) s.pic2.imr) := by
  have hline : lineOf irq = some (pic1DataPort, irq) := if_pos h
  simp only [change, hline]
  rw [Code.bind_ok (inb_data1 s)]
  exact outb_data1 hs _

theorem change_high {s : Pics} (hs : s.Ready) {irq : ℕ} (h : 8 ≤ irq) (h' : irq < 16)
    (f : BitVec 8 → ℕ → BitVec 8) :
    (change f irq).run s = .ok () (s.withMasks s.pic1.imr (f s.pic2.imr (irq - 8))) := by
  have hline : lineOf irq = some (pic2DataPort, irq - 8) := by
    rw [lineOf, if_neg (by omega), if_pos h']
  simp only [change, hline]
  rw [Code.bind_ok (inb_data2 s)]
  exact outb_data2 hs _

theorem change_none {irq : ℕ} (h : 16 ≤ irq) (f : BitVec 8 → ℕ → BitVec 8) (s : Pics) :
    (change f irq).run s = .ok () s := by
  have hline : lineOf irq = none := by rw [lineOf, if_neg (by omega), if_neg (by omega)]
  simp only [change, hline]
  rfl

/-- If `f` sets one bit of a register, the mask of the line is what changes. -/
theorem change_run {s : Pics} (hs : s.Ready) (irq : ℕ) {value : Bool}
    {f : BitVec 8 → ℕ → BitVec 8} (hf : ∀ imr i, i < 8 → f imr i = setBit imr i value) :
    ∃ imr1 imr2, (change f irq).run s = .ok () (s.withMasks imr1 imr2) ∧
      ∀ j < 16, (s.withMasks imr1 imr2).masked j = Function.update s.masked irq value j := by
  rcases Nat.lt_or_ge irq 8 with hlow | hlow
  · refine ⟨_, _, change_low hs hlow f, fun j hj => ?_⟩
    by_cases hj8 : j < 8
    · simp only [Pics.masked, Pics.withMasks, hj8, if_true, hf _ irq hlow,
        getLsbD_setBit _ hlow, Function.update_apply, eq_comm]
    · rw [Function.update_of_ne (by omega)]
      simp only [Pics.masked, Pics.withMasks, hj8, if_false]
  · rcases Nat.lt_or_ge irq 16 with hhigh | hhigh
    · refine ⟨_, _, change_high hs hlow hhigh f, fun j hj => ?_⟩
      have hlt : irq - 8 < 8 := by omega
      by_cases hj8 : j < 8
      · rw [Function.update_of_ne (by omega)]
        simp only [Pics.masked, Pics.withMasks, hj8, if_true]
      · have hiff : irq - 8 = j - 8 ↔ j = irq := by omega
        simp only [Pics.masked, Pics.withMasks, hj8, if_false, hf _ (irq - 8) hlt,
          getLsbD_setBit _ hlt, Function.update_apply, hiff]
    · exact ⟨s.pic1.imr, s.pic2.imr, change_none hhigh f s, fun j hj =>
        (Function.update_of_ne (by omega) _ _).symm⟩

theorem unmask_eq (irq : ℕ) : unmask irq = change (fun imr i => imr &&& ~~~(1#8 <<< i)) irq := rfl

theorem outb_both {s : Pics} (hs : s.Ready) (imr : BitVec 8) :
    (do outb pic1DataPort imr; outb pic2DataPort imr : Code Pics Unit).run s =
      .ok () (s.withMasks imr imr) := by
  rw [Code.bind_ok (outb_data1 hs imr)]
  exact outb_data2 (s := s.withMasks imr s.pic2.imr) hs imr

/-- Whatever state the controllers were in, only line 1 of the first is left unmasked, and
the lines have the vectors from 32 on. -/
theorem initMasked_run (s : Pics) :
    initMasked.run s = .ok () ⟨started 32 0b100 0xFD, started 40 2 0xFF⟩ := by
  have hmask : maskAll.run ⟨started 32 0b100 0, started 40 2 0⟩ =
      .ok () ⟨started 32 0b100 0xFF, started 40 2 0xFF⟩ :=
    outb_both (s := ⟨started 32 0b100 0, started 40 2 0⟩) ⟨rfl, rfl⟩ 0xff
  have hbits : (0xFF : BitVec 8) &&& ~~~(1#8 <<< 1) = 0xFD := by decide
  rw [initMasked, Code.bind_ok (initPic_run s), Code.bind_ok hmask, unmask_eq,
    change_low ⟨rfl, rfl⟩ (by decide)]
  simp only [Pics.withMasks, started, hbits]

theorem getLsbD_all {i : ℕ} (h : i < 8) : (0xff : BitVec 8).getLsbD i = true ∧
    (0 : BitVec 8).getLsbD i = false :=
  (by decide : ∀ i < 8, (0xff : BitVec 8).getLsbD i = true ∧ (0 : BitVec 8).getLsbD i = false) i h

theorem MaskCall.code_run {s : Pics} (hs : s.Ready) (c : MaskCall) :
    ∃ imr1 imr2, c.code.run s = .ok () (s.withMasks imr1 imr2) ∧
      ∀ j < 16, (s.withMasks imr1 imr2).masked j = c.apply s.masked j := by
  cases c with
  | mask irq => exact change_run hs irq fun imr i _ => by rw [← BitVec.twoPow_eq]; rfl
  | unmask irq => exact change_run hs irq fun imr i _ => by rw [← BitVec.twoPow_eq]; rfl
  | maskAll =>
    refine ⟨0xff, 0xff, outb_both hs 0xff, fun j hj => ?_⟩
    rcases Nat.lt_or_ge j 8 with hj8 | hj8
    · exact (if_pos hj8).trans (getLsbD_all hj8).1
    · exact (if_neg (by omega)).trans (getLsbD_all (by omega : j - 8 < 8)).1
  | unmaskAll =>
    refine ⟨0, 0, outb_both hs 0, fun j hj => ?_⟩
    rcases Nat.lt_or_ge j 8 with hj8 | hj8
    · exact (if_pos hj8).trans (getLsbD_all hj8).2
    · exact (if_neg (by omega)).trans (getLsbD_all (by omega : j - 8 < 8)).2

theorem MaskCall.apply_congr {M N : ℕ → Bool} (h : ∀ j < 16, M j = N j) (c : MaskCall) :
    ∀ j < 16, c.apply M j = c.apply N j := by
  intro j hj
  cases c <;> simp only [MaskCall.apply, Function.update_apply, h j hj]

theorem MaskCall.foldl_apply_congr (calls : List MaskCall) {M N : ℕ → Bool}
    (h : ∀ j < 16, M j = N j) :
    ∀ j < 16, calls.foldl MaskCall.apply M j = calls.foldl MaskCall.apply N j := by
  induction calls generalizing M N with
  | nil => exact h
  | cons c calls ih => exact ih (c.apply_congr h)

/-- **The masks are a set of lines.**  Any sequence of `mask`, `unmask`, `mask_all` and
`unmask_all` calls, with any numbers, on initialized controllers leaves exactly the lines
masked that the calls say, and changes nothing else of the controllers. -/
theorem masks_refine {s : Pics} (hs : s.Ready) (calls : List MaskCall) :
    ∃ imr1 imr2, (calls.forM MaskCall.code).run s = .ok () (s.withMasks imr1 imr2) ∧
      ∀ j < 16, (s.withMasks imr1 imr2).masked j = calls.foldl MaskCall.apply s.masked j := by
  induction calls generalizing s with
  | nil => exact ⟨s.pic1.imr, s.pic2.imr, rfl, fun j _ => rfl⟩
  | cons c calls ih =>
    obtain ⟨imr1, imr2, hrun, hmasked⟩ := MaskCall.code_run hs c
    obtain ⟨imr1', imr2', hrun', hmasked'⟩ := ih (s := s.withMasks imr1 imr2) hs
    refine ⟨imr1', imr2', ?_, fun j hj => ?_⟩
    · rw [List.forM_eq_forM, List.forM_cons, Code.bind_ok hrun]
      exact hrun'
    · exact (hmasked' j hj).trans (MaskCall.foldl_apply_congr calls hmasked j hj)

theorem masks_refine_started : ∃ imr1 imr2,
    ([.maskAll, .unmask 1, .mask 9].forM MaskCall.code).run ⟨started 32 4 0, started 40 2 0⟩ =
      .ok () (Pics.withMasks ⟨started 32 4 0, started 40 2 0⟩ imr1 imr2) ∧
      ∀ j < 16, (Pics.withMasks ⟨started 32 4 0, started 40 2 0⟩ imr1 imr2).masked j =
        [MaskCall.maskAll, .unmask 1, .mask 9].foldl MaskCall.apply
          (Pics.masked ⟨started 32 4 0, started 40 2 0⟩) j :=
  masks_refine ⟨rfl, rfl⟩ _

/-! ## Service -/

namespace Chip

variable {c : Chip} {i : ℕ}

theorem mem_inService : i ∈ c.inService ↔ i < 8 ∧ c.isr.getLsbD i = true := by
  simp [inService]

theorem inService_take (hi : i < 8) : (c.take i).inService = insert i c.inService := by
  ext j
  simp only [Finset.mem_insert, mem_inService, take, getLsbD_setBit _ hi]
  by_cases hij : i = j
  · simp [hij.symm, hi]
  · simp [hij, Ne.symm hij]

/-- The end of an interrupt drops the first line in service. -/
theorem inService_endOfInterrupt : c.endOfInterrupt.inService = Service.finish c.inService := by
  unfold endOfInterrupt
  cases hfind : (List.range 8).find? c.isr.getLsbD with
  | none =>
    have hnone : c.inService = ∅ := Finset.filter_eq_empty_iff.mpr fun i hi =>
      List.find?_eq_none.mp hfind i (List.mem_range.mpr (Finset.mem_range.mp hi))
    simp [hnone, Service.finish]
  | some q =>
    obtain ⟨hbit, hq, hmin⟩ := List.find?_range_eq_some.mp hfind
    have hq8 : q < 8 := List.mem_range.mp hq
    rw [Service.finish_of_isLeast (mem_inService.mpr ⟨hq8, hbit⟩) fun p hp => ?_]
    · ext j
      simp only [Finset.mem_erase, mem_inService, getLsbD_setBit _ hq8]
      by_cases hqj : q = j
      · simp [hqj]
      · simp [hqj, Ne.symm hqj]
    · by_contra hlt
      have hnot := hmin p (Nat.lt_of_not_le hlt)
      simp [(mem_inService.mp hp).2] at hnot

theorem endOfInterrupt_keeps (c : Chip) :
    c.endOfInterrupt.phase = c.phase ∧ c.endOfInterrupt.offset = c.offset := by
  unfold endOfInterrupt
  split <;> exact ⟨rfl, rfl⟩

theorem next_eq_some {irr : BitVec 8} (h : c.next irr = some i) :
    i < 8 ∧ irr.getLsbD i = true ∧ c.imr.getLsbD i = false ∧ Service.Free c.inService i := by
  obtain ⟨hbits, hi, -⟩ := List.find?_range_eq_some.mp h
  simp only [Bool.and_eq_true, Bool.not_eq_true', List.all_eq_true, List.mem_range] at hbits
  refine ⟨List.mem_range.mp hi, hbits.1.1, hbits.1.2, fun q hq => ?_⟩
  by_contra hle
  have hclear := hbits.2 q (by omega)
  rw [(mem_inService.mp hq).2] at hclear
  cases hclear

/-- A line that may be served is offered, unless one before it is. -/
theorem next_le {irr : BitVec 8} (hi : i < 8) (hirr : irr.getLsbD i = true)
    (himr : c.imr.getLsbD i = false) (hisr : ∀ j ≤ i, c.isr.getLsbD j = false) :
    ∃ k ≤ i, c.next irr = some k := by
  have hasks : (irr.getLsbD i && !c.imr.getLsbD i &&
      (List.range (i + 1)).all fun j => !c.isr.getLsbD j) = true := by
    rw [hirr, himr, Bool.not_false, Bool.and_true, Bool.true_and, List.all_eq_true]
    intro j hj
    rw [hisr j (Nat.le_of_lt_succ (List.mem_range.mp hj)), Bool.not_false]
  cases hnext : c.next irr with
  | none => exact absurd hasks (List.find?_eq_none.mp hnext i (List.mem_range.mpr hi))
  | some k =>
    obtain ⟨-, -, hmin⟩ := List.find?_range_eq_some.mp hnext
    refine ⟨k, Nat.le_of_not_lt fun hlt => ?_, rfl⟩
    have hnot := hmin i hlt
    rw [hasks] at hnot
    cases hnot

end Chip

end Interrupt

end Koe
