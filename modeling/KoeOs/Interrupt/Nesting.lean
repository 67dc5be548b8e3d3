/-
# `KoeOs.Interrupt.Nesting` — interrupts, handlers and guards over whole runs

After `interrupt::init` the processor may be interrupted whenever its interrupt flag is
set, in handlers too: the gates are trap gates, which leave the flag alone.  A handler that
has not acknowledged is not interrupted by its own line: the controller holds the line in
service until `irq_handler` acknowledges it.  From there to its return it may be, and then
it is entered a second time.  A run is any interleaving of

    raise      a device raises a line
    take       the processor takes the interrupt that the controllers offer
    ack        the running handler is done with its device, and acknowledges its line
    ret        the running handler returns
    new, drop  an `InterruptGuard` of the running code begins or ends
    mask       the running code masks or unmasks lines

Exceptions and the non-maskable interrupt are no steps, nor are the spurious interrupts of
the controllers (vectors 39 and 47, for a request that is gone when the processor asks).

For a line of the second controller `ack` writes to that controller only.  Its line 2 of
the first stays in service, and the first then takes the next acknowledgement of some
other line for it.  `taken` counts the interrupts of the second controller; the results
say what this leads to, and what it leaves intact.

The counter of the guards does not wrap: fewer than `2 ^ 64` are alive at any time.
-/
import KoeOs.Interrupt.Pic

namespace Koe

namespace Interrupt

/-! ## `InterruptGuard` -/

/-- The interrupt flag, and `INTERRUPT_GUARD_CNT`. -/
structure Cpu where
  enabled : Bool
  guardCnt : ℕ
  deriving DecidableEq, Repr

/-- `InterruptGuard::new`: interrupts are disabled, then the counter grows. -/
def Cpu.newGuard (c : Cpu) : Cpu := ⟨false, (c.guardCnt + 1) % Usize.modulus⟩

/-- `drop`: the counter falls; whoever takes it from one to zero enables interrupts. -/
def Cpu.dropGuard (c : Cpu) : Cpu :=
  let prevCnt := c.guardCnt
  ⟨if prevCnt = 1 then true else c.enabled, (prevCnt + (Usize.modulus - 1)) % Usize.modulus⟩

/-! ## Runs -/

/-- The controllers' answer to the processor: the vector of the line they offer, and the
line in service. -/
def Pics.acknowledge (s : Pics) : Option (ℕ × Pics) :=
  -- line 2 of the first controller is the second one's request
  let second := s.pic2.next s.pic2.irr
  (s.pic1.next (setBit s.pic1.irr 2 second.isSome)).bind fun i =>
    if i = 2 then second.map fun j => (s.pic2.offset.toNat + j, ⟨s.pic1.take 2, s.pic2.take j⟩)
    else some (s.pic1.offset.toNat + i, { s with pic1 := s.pic1.take i })

/-- A handler that has not returned. -/
structure Frame where
  vec : ℕ
  /-- The interrupt flag that its return restores. -/
  enabled : Bool
  acked : Bool
  /-- The guards it holds. -/
  guards : ℕ
  deriving DecidableEq, Repr

namespace Frame

/-- The line of the first controller that the handler has yet to acknowledge. -/
def line1 (f : Frame) : Option ℕ :=
  if f.acked = false ∧ f.vec < 40 then some (f.vec - 32) else none

/-- The line of the second. -/
def line2 (f : Frame) : Option ℕ :=
  if f.acked = false ∧ 40 ≤ f.vec then some (f.vec - 40) else none

end Frame

structure System where
  pics : Pics
  cpu : Cpu
  /-- The handlers, the running one first. -/
  frames : List Frame
  /-- The guards of the code under all handlers. -/
  guards : ℕ
  /-- How many interrupts of the second controller were taken. -/
  taken : ℕ
  deriving DecidableEq, Repr

namespace System

/-- The guards of the running code. -/
def live (s : System) : ℕ := s.frames.head?.elim s.guards Frame.guards

/-- The running code has `n` guards. -/
def withLive (s : System) (n : ℕ) : System :=
  match s.frames with
  | [] => { s with guards := n }
  | f :: rest => { s with frames := { f with guards := n } :: rest }

/-- As `interrupt::init` leaves it (`initMasked_start`). -/
def start : System where
  pics := ⟨started 32 0b100 0xFD, started 40 2 0xFF⟩
  cpu := ⟨true, 0⟩
  frames := []
  guards := 0
  taken := 0

inductive Step : System → System → Prop
  | raise1 {s : System} {i : ℕ} (hi : i < 8) (hi2 : i ≠ 2) :
      Step s { s with pics := { s.pics with pic1 := s.pics.pic1.raise i } }
  | raise2 {s : System} {i : ℕ} (hi : i < 8) :
      Step s { s with pics := { s.pics with pic2 := s.pics.pic2.raise i } }
  | take {s : System} {vec : ℕ} {pics : Pics} (hon : s.cpu.enabled = true)
      (h : s.pics.acknowledge = some (vec, pics)) :
      Step s { s with
        pics := pics
        frames := ⟨vec, s.cpu.enabled, false, 0⟩ :: s.frames
        taken := s.taken + if 40 ≤ vec then 1 else 0 }
  | ack {s : System} {f : Frame} {rest : List Frame} {pics : Pics} (hs : s.frames = f :: rest)
      (hf : f.acked = false) (h : (Interrupt.ack (f.vec - vectorPic)).run s.pics = .ok () pics) :
      Step s { s with pics := pics, frames := { f with acked := true } :: rest }
  | ret {s : System} {f : Frame} {rest : List Frame} (hs : s.frames = f :: rest)
      (hf : f.acked = true) (hg : f.guards = 0) :
      Step s { s with cpu := { s.cpu with enabled := f.enabled }, frames := rest }
  | newGuard {s : System} (h : s.live + 1 < Usize.modulus) :
      Step s ({ s with cpu := s.cpu.newGuard }.withLive (s.live + 1))
  | dropGuard {s : System} {n : ℕ} (h : s.live = n + 1) :
      Step s ({ s with cpu := s.cpu.dropGuard }.withLive n)
  | mask {s : System} (call : MaskCall) {pics : Pics} (h : call.code.run s.pics = .ok () pics) :
      Step s { s with pics := pics }

/-- Whatever state the controllers were in. -/
theorem initMasked_start (pics : Pics) : initMasked.run pics = .ok () start.pics :=
  initMasked_run pics

/-- The states of runs that begin when `interrupt::init` is done. -/
inductive Reachable : System → Prop
  | init {before pics : Pics} (h : initMasked.run before = .ok () pics) :
      Reachable { start with pics := pics }
  | step {s t : System} (hs : Reachable s) (h : Step s t) : Reachable t

/-- The lines of the first controller whose handlers have not acknowledged them. -/
def active1 (s : System) : List ℕ := s.frames.filterMap Frame.line1

/-- Those of the second. -/
def active2 (s : System) : List ℕ := s.frames.filterMap Frame.line2

/-! ## What a step can do to the controllers -/

end System

theorem Pics.acknowledge_cases {s pics : Pics} {vec : ℕ} (h : s.acknowledge = some (vec, pics)) :
    (∃ j < 8, Service.Free s.pic1.inService 2 ∧ Service.Free s.pic2.inService j ∧
      vec = s.pic2.offset.toNat + j ∧ pics = ⟨s.pic1.take 2, s.pic2.take j⟩) ∨
    ∃ i < 8, i ≠ 2 ∧ Service.Free s.pic1.inService i ∧
      vec = s.pic1.offset.toNat + i ∧ pics = { s with pic1 := s.pic1.take i } := by
  obtain ⟨i, hfirst, h⟩ := Option.bind_eq_some_iff.mp h
  obtain ⟨hi, -, -, hfree⟩ := Chip.next_eq_some hfirst
  by_cases hi2 : i = 2
  · rw [if_pos hi2] at h
    obtain ⟨j, hsecond, hvec⟩ := Option.map_eq_some_iff.mp h
    obtain ⟨hj, -, -, hfree2⟩ := Chip.next_eq_some hsecond
    cases hvec
    exact .inl ⟨j, hj, hi2 ▸ hfree, hfree2, rfl, rfl⟩
  · rw [if_neg hi2] at h
    cases h
    exact .inr ⟨i, hi, hi2, hfree, rfl, rfl⟩

theorem ack_first {irq : ℕ} (h : irq < 8) (s : Pics) :
    (ack irq).run s = .ok () { s with pic1 := s.pic1.endOfInterrupt } := by
  rw [ack, if_pos h]
  rfl

theorem ack_second {irq : ℕ} (h : 8 ≤ irq) (h' : irq < 16) (s : Pics) :
    (ack irq).run s = .ok () { s with pic2 := s.pic2.endOfInterrupt } := by
  rw [ack, if_neg (by omega), if_pos h']
  rfl

namespace System

/-- The controllers serve the handlers that have not acknowledged. -/
structure Served (s : System) : Prop where
  ready : s.pics.Ready
  offset1 : s.pics.pic1.offset = 32
  offset2 : s.pics.pic2.offset = 40
  vec : ∀ f ∈ s.frames, 32 ≤ f.vec ∧ f.vec < 48
  covered1 : Service.Covered s.pics.pic1.inService s.active1
  exact1 : Service.ExactBelow (if s.taken = 0 then 8 else 2) s.pics.pic1.inService s.active1
  count1 : s.pics.pic1.inService.card = s.active1.length + s.taken
  covered2 : Service.Covered s.pics.pic2.inService s.active2
  exact2 : Service.ExactBelow 8 s.pics.pic2.inService s.active2

theorem served_start : start.Served where
  ready := ⟨rfl, rfl⟩
  offset1 := rfl
  offset2 := rfl
  vec := by simp [start]
  covered1 := Service.covered_nil
  exact1 := Service.exactBelow_nil _
  count1 := rfl
  covered2 := Service.covered_nil
  exact2 := Service.exactBelow_nil _

variable {s t : System}

/-- Nothing that the controllers serve changes. -/
theorem Served.congr (h : s.Served) (hready : t.pics.Ready)
    (h1 : t.pics.pic1.offset = s.pics.pic1.offset ∧ t.pics.pic1.isr = s.pics.pic1.isr)
    (h2 : t.pics.pic2.offset = s.pics.pic2.offset ∧ t.pics.pic2.isr = s.pics.pic2.isr)
    (hactive1 : t.active1 = s.active1) (hactive2 : t.active2 = s.active2)
    (hvec : ∀ f ∈ t.frames, 32 ≤ f.vec ∧ f.vec < 48) (htaken : t.taken = s.taken) : t.Served := by
  have hin1 : t.pics.pic1.inService = s.pics.pic1.inService := by
    rw [Chip.inService, Chip.inService, h1.2]
  have hin2 : t.pics.pic2.inService = s.pics.pic2.inService := by
    rw [Chip.inService, Chip.inService, h2.2]
  refine ⟨hready, h1.1.trans h.offset1, h2.1.trans h.offset2, hvec, ?_, ?_, ?_, ?_, ?_⟩
  · rw [hin1, hactive1]; exact h.covered1
  · rw [hin1, hactive1, htaken]; exact h.exact1
  · rw [hin1, hactive1, htaken]; exact h.count1
  · rw [hin2, hactive2]; exact h.covered2
  · rw [hin2, hactive2]; exact h.exact2

theorem served_raise1 (h : s.Served) (i : ℕ) :
    Served { s with pics := { s.pics with pic1 := s.pics.pic1.raise i } } :=
  h.congr h.ready ⟨rfl, rfl⟩ ⟨rfl, rfl⟩ rfl rfl h.vec rfl

theorem served_raise2 (h : s.Served) (i : ℕ) :
    Served { s with pics := { s.pics with pic2 := s.pics.pic2.raise i } } :=
  h.congr h.ready ⟨rfl, rfl⟩ ⟨rfl, rfl⟩ rfl rfl h.vec rfl

theorem served_mask (h : s.Served) (call : MaskCall) {pics : Pics}
    (hrun : call.code.run s.pics = .ok () pics) : Served { s with pics := pics } := by
  obtain ⟨imr1, imr2, hmasks, -⟩ := MaskCall.code_run h.ready call
  cases hrun.symm.trans hmasks
  exact h.congr h.ready ⟨rfl, rfl⟩ ⟨rfl, rfl⟩ rfl rfl h.vec rfl

/-- The handler of a line of the first controller begins. -/
theorem served_take1 (h : s.Served) {i : ℕ} (hi : i < 8)
    (hfree : Service.Free s.pics.pic1.inService i) (on : Bool) :
    Served { s with
      pics := { s.pics with pic1 := s.pics.pic1.take i }
      frames := ⟨32 + i, on, false, 0⟩ :: s.frames
      taken := s.taken + 0 } := by
  have hline1 : Frame.line1 ⟨32 + i, on, false, 0⟩ = some i := by
    simp [Frame.line1]; omega
  have hline2 : Frame.line2 ⟨32 + i, on, false, 0⟩ = none := by
    simp [Frame.line2]; omega
  refine ⟨h.ready, h.offset1, h.offset2, ?_, ?_, ?_, ?_, ?_, ?_⟩
  · exact List.forall_mem_cons.mpr ⟨by dsimp; omega, h.vec⟩
  all_goals simp only [active1, active2, List.filterMap_cons, hline1, hline2,
    Chip.inService_take hi]
  · exact h.covered1.take hfree
  · exact h.exact1.take i
  · rw [Service.card_insert_of_free hfree, List.length_cons, h.count1]
    simp only [active1]
    omega
  · exact h.covered2
  · exact h.exact2

/-- That of a line of the second: the first has its line 2 in service for it. -/
theorem served_take2 (h : s.Served) {j : ℕ} (hj : j < 8)
    (hfree1 : Service.Free s.pics.pic1.inService 2)
    (hfree2 : Service.Free s.pics.pic2.inService j) (on : Bool) :
    Served { s with
      pics := ⟨s.pics.pic1.take 2, s.pics.pic2.take j⟩
      frames := ⟨40 + j, on, false, 0⟩ :: s.frames
      taken := s.taken + 1 } := by
  have hline1 : Frame.line1 ⟨40 + j, on, false, 0⟩ = none := by simp [Frame.line1]
  have hline2 : Frame.line2 ⟨40 + j, on, false, 0⟩ = some j := by simp [Frame.line2]
  refine ⟨h.ready, h.offset1, h.offset2, ?_, ?_, ?_, ?_, ?_, ?_⟩
  · exact List.forall_mem_cons.mpr ⟨by dsimp; omega, h.vec⟩
  all_goals simp only [active1, active2, List.filterMap_cons, hline1, hline2,
    Chip.inService_take hj, Chip.inService_take (by decide : 2 < 8)]
  · exact h.covered1.takeOnly 2
  · rw [if_neg (Nat.succ_ne_zero s.taken)]
    refine Service.ExactBelow.takeOnly (fun p hp => h.exact1 p ?_) (Nat.le_refl 2)
    split <;> omega
  · rw [Service.card_insert_of_free hfree1, h.count1]
    simp only [active1]
    omega
  · exact h.covered2.take hfree2
  · exact h.exact2.take j

theorem served_take (h : s.Served) {vec : ℕ} {pics : Pics} (on : Bool)
    (hack : s.pics.acknowledge = some (vec, pics)) :
    Served { s with
      pics := pics
      frames := ⟨vec, on, false, 0⟩ :: s.frames
      taken := s.taken + if 40 ≤ vec then 1 else 0 } := by
  obtain ⟨j, hj, hfree1, hfree2, hvec, rfl⟩ | ⟨i, hi, -, hfree, hvec, rfl⟩ :=
    Pics.acknowledge_cases hack
  · obtain rfl : vec = 40 + j := by rw [hvec, h.offset2]; rfl
    rw [if_pos (Nat.le_add_right 40 j)]
    exact served_take2 h hj hfree1 hfree2 on
  · obtain rfl : vec = 32 + i := by rw [hvec, h.offset1]; rfl
    rw [if_neg (by omega)]
    exact served_take1 h hi hfree on

/-- The handler of a line of the first controller acknowledges it. -/
theorem served_ack1 (h : s.Served) {f : Frame} {rest : List Frame} (hs : s.frames = f :: rest)
    (hf : f.acked = false) (hvec : f.vec < 40) :
    Served { s with
      pics := { s.pics with pic1 := s.pics.pic1.endOfInterrupt }
      frames := { f with acked := true } :: rest } := by
  have hactive1 : s.active1 = (f.vec - 32) :: rest.filterMap Frame.line1 := by
    simp [active1, hs, Frame.line1, hf, hvec]
  have hactive2 : s.active2 = rest.filterMap Frame.line2 := by
    have hline2 : f.line2 = none := by simp [Frame.line2]; omega
    rw [active2, hs, List.filterMap_cons, hline2]
  obtain ⟨hready, ho1, ho2, hv, hcov1, hex1, hcnt, hcov2, hex2⟩ := h
  rw [hactive1] at hcov1 hex1 hcnt
  rw [hactive2] at hcov2 hex2
  rw [hs] at hv
  obtain ⟨hphase, hoffset⟩ := s.pics.pic1.endOfInterrupt_keeps
  have hpos : s.pics.pic1.inService.Nonempty := Finset.card_pos.mp (by rw [hcnt]; simp)
  refine ⟨⟨hphase.trans hready.1, hready.2⟩, hoffset.trans ho1, ho2, ?_, ?_, ?_, ?_, ?_, ?_⟩
  · exact List.forall_mem_cons.mpr ⟨(List.forall_mem_cons.mp hv).1, (List.forall_mem_cons.mp hv).2⟩
  all_goals simp only [active1, active2, List.filterMap_cons, Frame.line1, Frame.line2,
    Chip.inService_endOfInterrupt, Bool.true_eq_false, false_and, if_false]
  · exact hcov1.finish
  · exact hex1.finish hcov1
  · have hcard := Service.card_finish hpos
    simp only [List.length_cons] at hcnt
    change _ = (rest.filterMap Frame.line1).length + s.taken
    omega
  · exact hcov2
  · exact hex2

/-- That of a line of the second acknowledges it to the second only. -/
theorem served_ack2 (h : s.Served) {f : Frame} {rest : List Frame} (hs : s.frames = f :: rest)
    (hf : f.acked = false) (hvec : 40 ≤ f.vec) :
    Served { s with
      pics := { s.pics with pic2 := s.pics.pic2.endOfInterrupt }
      frames := { f with acked := true } :: rest } := by
  have hactive1 : s.active1 = rest.filterMap Frame.line1 := by
    have hline1 : f.line1 = none := by simp [Frame.line1]; omega
    rw [active1, hs, List.filterMap_cons, hline1]
  have hactive2 : s.active2 = (f.vec - 40) :: rest.filterMap Frame.line2 := by
    simp [active2, hs, Frame.line2, hf, hvec]
  obtain ⟨hready, ho1, ho2, hv, hcov1, hex1, hcnt, hcov2, hex2⟩ := h
  rw [hactive1] at hcov1 hex1 hcnt
  rw [hactive2] at hcov2 hex2
  rw [hs] at hv
  obtain ⟨hphase, hoffset⟩ := s.pics.pic2.endOfInterrupt_keeps
  refine ⟨⟨hready.1, hphase.trans hready.2⟩, ho1, hoffset.trans ho2, ?_, ?_, ?_, ?_, ?_, ?_⟩
  · exact List.forall_mem_cons.mpr ⟨(List.forall_mem_cons.mp hv).1, (List.forall_mem_cons.mp hv).2⟩
  all_goals simp only [active1, active2, List.filterMap_cons, Frame.line1, Frame.line2,
    Chip.inService_endOfInterrupt, Bool.true_eq_false, false_and, if_false]
  · exact hcov1
  · exact hex1
  · exact hcnt
  · exact hcov2.finish
  · exact hex2.finish hcov2

theorem served_ack (h : s.Served) {f : Frame} {rest : List Frame} {pics : Pics}
    (hs : s.frames = f :: rest) (hf : f.acked = false)
    (hrun : (ack (f.vec - vectorPic)).run s.pics = .ok () pics) :
    Served { s with pics := pics, frames := { f with acked := true } :: rest } := by
  obtain ⟨hge, hlt⟩ := h.vec f (hs ▸ List.mem_cons_self)
  have hirq : f.vec - vectorPic = f.vec - 32 := rfl
  rcases Nat.lt_or_ge f.vec 40 with hvec | hvec
  · cases hrun.symm.trans (ack_first (by omega) s.pics)
    exact served_ack1 h hs hf hvec
  · cases hrun.symm.trans (ack_second (by omega) (by omega) s.pics)
    exact served_ack2 h hs hf hvec

theorem served_ret (h : s.Served) {f : Frame} {rest : List Frame} (hs : s.frames = f :: rest)
    (hf : f.acked = true) (cpu : Cpu) : Served { s with cpu := cpu, frames := rest } := by
  refine h.congr h.ready ⟨rfl, rfl⟩ ⟨rfl, rfl⟩ ?_ ?_ ?_ rfl
  · simp [active1, hs, Frame.line1, hf]
  · simp [active2, hs, Frame.line2, hf]
  · exact fun g hg => h.vec g (hs ▸ List.mem_cons_of_mem f hg)

theorem served_withLive (h : s.Served) (cpu : Cpu) (n : ℕ) :
    ({ s with cpu := cpu }.withLive n).Served := by
  cases hs : s.frames with
  | nil =>
    simp only [withLive]
    exact h.congr h.ready ⟨rfl, rfl⟩ ⟨rfl, rfl⟩ (by simp [active1, hs]) (by simp [active2, hs])
      (by simp) rfl
  | cons f rest =>
    simp only [withLive]
    refine h.congr h.ready ⟨rfl, rfl⟩ ⟨rfl, rfl⟩ ?_ ?_ ?_ rfl
    · rw [active1, active1, hs]
      rfl
    · rw [active2, active2, hs]
      rfl
    · have hvec := h.vec
      rw [hs] at hvec
      exact List.forall_mem_cons.mpr ⟨(List.forall_mem_cons.mp hvec).1,
        (List.forall_mem_cons.mp hvec).2⟩

theorem reachable_start : Reachable start := .init (initMasked_start start.pics)

theorem Step.served (hstep : Step s t) (h : s.Served) : t.Served := by
  cases hstep with
  | raise1 hi hi2 => exact served_raise1 h _
  | raise2 hi => exact served_raise2 h _
  | take hon hack => exact served_take h _ hack
  | ack hs hf hrun => exact served_ack h hs hf hrun
  | ret hs hf hg => exact served_ret h hs hf _
  | newGuard hlt => exact served_withLive h _ _
  | dropGuard hlive => exact served_withLive h _ _
  | mask call hrun => exact served_mask h call hrun

theorem Reachable.served (h : Reachable s) : s.Served := by
  induction h with
  | init hinit =>
      cases hinit.symm.trans (initMasked_start _)
      exact served_start
  | step _ hstep ih => exact hstep.served ih

/-! ## Guards -/

/-- All guards that are alive belong to the running code; the counter counts them, and
interrupts are on when there are none. -/
structure Guarded (s : System) : Prop where
  cnt : s.cpu.guardCnt = s.live
  enabled : s.cpu.enabled = decide (s.live = 0)
  lt : s.live < Usize.modulus
  saved : ∀ f ∈ s.frames, f.enabled = true
  below : ∀ f ∈ s.frames.tail, f.guards = 0
  base : s.frames ≠ [] → s.guards = 0

theorem guarded_start : start.Guarded :=
  ⟨rfl, rfl, by decide, by simp [start], by simp [start], by simp [start]⟩

theorem withLive_of_nil (hs : s.frames = []) (n : ℕ) : s.withLive n = { s with guards := n } := by
  simp [withLive, hs]

theorem withLive_of_cons {f : Frame} {rest : List Frame} (hs : s.frames = f :: rest) (n : ℕ) :
    s.withLive n = { s with frames := { f with guards := n } :: rest } := by
  simp [withLive, hs]

theorem live_of_nil (hs : s.frames = []) : s.live = s.guards := by simp [live, hs]

theorem live_of_cons {f : Frame} {rest : List Frame} (hs : s.frames = f :: rest) :
    s.live = f.guards := by simp [live, hs]

/-- Only the running code's guards change. -/
theorem guarded_withLive (h : s.Guarded) {cpu : Cpu} {n : ℕ} (hcnt : cpu.guardCnt = n)
    (hon : cpu.enabled = decide (n = 0)) (hlt : n < Usize.modulus) :
    ({ s with cpu := cpu }.withLive n).Guarded := by
  cases hs : s.frames with
  | nil =>
    rw [withLive_of_nil rfl]
    exact ⟨hcnt, hon, hlt, by simp, by simp, fun hne => absurd rfl hne⟩
  | cons f rest =>
    rw [withLive_of_cons rfl]
    have hsaved := h.saved
    have hbelow := h.below
    rw [hs] at hsaved hbelow
    exact ⟨hcnt, hon, hlt, List.forall_mem_cons.mpr (List.forall_mem_cons.mp hsaved), hbelow,
      fun _ => h.base (by rw [hs]; exact List.cons_ne_nil f rest)⟩

theorem guarded_new (h : s.Guarded) (hlt : s.live + 1 < Usize.modulus) :
    ({ s with cpu := s.cpu.newGuard }.withLive (s.live + 1)).Guarded := by
  refine guarded_withLive h ?_ ?_ hlt
  · rw [Cpu.newGuard, h.cnt]
    exact Nat.mod_eq_of_lt hlt
  · exact (decide_eq_false (Nat.succ_ne_zero _)).symm

theorem guarded_drop (h : s.Guarded) {n : ℕ} (hlive : s.live = n + 1) :
    ({ s with cpu := s.cpu.dropGuard }.withLive n).Guarded := by
  have hlt := h.lt
  rw [hlive] at hlt
  refine guarded_withLive h ?_ ?_ (by omega)
  · show (s.cpu.guardCnt + (Usize.modulus - 1)) % Usize.modulus = n
    rw [h.cnt, hlive, show n + 1 + (Usize.modulus - 1) = n + Usize.modulus by omega,
      Nat.add_mod_right, Nat.mod_eq_of_lt (by omega)]
  · show (if s.cpu.guardCnt = 1 then true else s.cpu.enabled) = decide (n = 0)
    rw [h.cnt, h.enabled, hlive]
    by_cases hn : n = 0 <;> simp [hn]

/-- A handler begins without guards, and no code under it has any: interrupts were on. -/
theorem guarded_take (h : s.Guarded) (hon : s.cpu.enabled = true) (vec taken : ℕ) (pics : Pics) :
    Guarded { s with
      pics := pics
      frames := ⟨vec, s.cpu.enabled, false, 0⟩ :: s.frames
      taken := taken } := by
  have hzero : s.live = 0 := by
    rw [h.enabled] at hon
    exact of_decide_eq_true hon
  refine ⟨h.cnt.trans hzero, hon, (by decide : 0 < Usize.modulus), ?_, ?_, ?_⟩
  · exact List.forall_mem_cons.mpr ⟨hon, h.saved⟩
  · show ∀ f ∈ s.frames, f.guards = 0
    cases hs : s.frames with
    | nil => simp
    | cons f rest =>
      have hbelow := h.below
      rw [hs] at hbelow
      exact List.forall_mem_cons.mpr ⟨(live_of_cons hs).symm.trans hzero, hbelow⟩
  · intro _
    by_cases hs : s.frames = []
    · exact (live_of_nil hs).symm.trans hzero
    · exact h.base hs

theorem guarded_ack (h : s.Guarded) {f : Frame} {rest : List Frame} (hs : s.frames = f :: rest)
    (pics : Pics) :
    Guarded { s with pics := pics, frames := { f with acked := true } :: rest } := by
  obtain ⟨hcnt, hon, hlt, hsaved, hbelow, hbase⟩ := h
  rw [live_of_cons hs] at hcnt hon hlt
  rw [hs] at hsaved hbelow hbase
  exact ⟨hcnt, hon, hlt, List.forall_mem_cons.mpr (List.forall_mem_cons.mp hsaved), hbelow,
    fun _ => hbase (List.cons_ne_nil f rest)⟩

/-- The code a handler returns to has no guards, and the flag comes back on. -/
theorem guarded_ret (h : s.Guarded) {f : Frame} {rest : List Frame} (hs : s.frames = f :: rest)
    (hg : f.guards = 0) :
    Guarded { s with cpu := { s.cpu with enabled := f.enabled }, frames := rest } := by
  obtain ⟨hcnt, -, -, hsaved, hbelow, hbase⟩ := h
  rw [live_of_cons hs, hg] at hcnt
  rw [hs] at hsaved hbelow hbase
  have hlive : System.live { s with cpu := { s.cpu with enabled := f.enabled }, frames := rest } =
      0 := by
    cases hrest : rest with
    | nil => exact (live_of_nil rfl).trans (hbase (List.cons_ne_nil f rest))
    | cons g rest' => exact (live_of_cons rfl).trans (hbelow g (by simp [hrest]))
  refine ⟨hcnt.trans hlive.symm, ?_, ?_, ?_, ?_, ?_⟩
  · rw [hlive]
    exact (List.forall_mem_cons.mp hsaved).1
  · rw [hlive]
    decide
  · exact (List.forall_mem_cons.mp hsaved).2
  · exact fun g hg => hbelow g (List.mem_of_mem_tail hg)
  · exact fun _ => hbase (List.cons_ne_nil f rest)

theorem Step.guarded (hstep : Step s t) (h : s.Guarded) : t.Guarded := by
  cases hstep with
  | raise1 hi hi2 => exact ⟨h.cnt, h.enabled, h.lt, h.saved, h.below, h.base⟩
  | raise2 hi => exact ⟨h.cnt, h.enabled, h.lt, h.saved, h.below, h.base⟩
  | take hon hack => exact guarded_take h hon _ _ _
  | ack hs hf hrun => exact guarded_ack h hs _
  | ret hs hf hg => exact guarded_ret h hs hg
  | newGuard hlt => exact guarded_new h hlt
  | dropGuard hlive => exact guarded_drop h hlive
  | mask call hrun => exact ⟨h.cnt, h.enabled, h.lt, h.saved, h.below, h.base⟩

theorem Reachable.guarded (h : Reachable s) : s.Guarded := by
  induction h with
  | init hinit =>
      cases hinit.symm.trans (initMasked_start _)
      exact guarded_start
  | step _ hstep ih => exact hstep.guarded ih

/-! ## Results -/

/-- The guards that are alive. -/
def alive (s : System) : ℕ := s.guards + (s.frames.map Frame.guards).sum

theorem Guarded.alive_eq (h : s.Guarded) : s.alive = s.live := by
  cases hs : s.frames with
  | nil => simp [alive, hs, live_of_nil hs]
  | cons f rest =>
    have hbelow := h.below
    rw [hs] at hbelow
    have hrest : (rest.map Frame.guards).sum = 0 :=
      List.sum_eq_zero fun n hn => by
        obtain ⟨g, hg, rfl⟩ := List.mem_map.mp hn
        exact hbelow g hg
    have hbase := h.base (by rw [hs]; exact List.cons_ne_nil f rest)
    rw [alive, hs, List.map_cons, List.sum_cons, hrest, hbase, live_of_cons hs]
    omega

theorem length_withLive (s : System) (n : ℕ) : (s.withLive n).frames.length = s.frames.length := by
  cases hs : s.frames with
  | nil => rw [withLive_of_nil hs, hs]
  | cons f rest => rw [withLive_of_cons hs, List.length_cons, List.length_cons]

/-- **While a guard is alive no interrupt is taken.**  In every state of every run the
counter is the number of guards alive, in the interrupted code and in handlers, and the
interrupt flag is set exactly when there are none; so no handler begins while one lives. -/
theorem guards_exclude (h : Reachable s) : s.cpu.guardCnt = s.alive ∧
    (s.cpu.enabled = true ↔ s.alive = 0) ∧
    (0 < s.alive → ∀ t, Step s t → t.frames.length ≤ s.frames.length) := by
  have hg := h.guarded
  rw [hg.alive_eq]
  refine ⟨hg.cnt, by rw [hg.enabled, decide_eq_true_iff], fun hpos t hstep => ?_⟩
  cases hstep with
  | take hon _ =>
    rw [hg.enabled, decide_eq_true_iff] at hon
    omega
  | ack hs _ _ => simp [hs]
  | ret hs _ _ => simp [hs]
  | newGuard _ => rw [length_withLive]
  | dropGuard _ => rw [length_withLive]
  | raise1 | raise2 | mask => exact Nat.le_refl _

/-- The first guard begins. -/
def guarded : System := { start with cpu := ⟨false, 1⟩, guards := 1 }

theorem guards_exclude_guarded : guarded.cpu.guardCnt = guarded.alive ∧
    (guarded.cpu.enabled = true ↔ guarded.alive = 0) ∧
    (0 < guarded.alive → ∀ t, Step guarded t → t.frames.length ≤ guarded.frames.length) :=
  guards_exclude (s := guarded) (reachable_start.step (.newGuard (by decide)))

/-- **Handlers of one vector acknowledge one at a time, and acknowledgements find their
lines.**  In every state of every run two handlers that have not acknowledged serve
different vectors; a handler that has acknowledged may still run under another of its
vector.  As long as the second controller was never used,
the lines in service are those of the handlers that have not acknowledged; so each
acknowledgement drops the line of the handler that sends it. -/
theorem handlers_nest (h : Reachable s) :
    (s.frames.Pairwise fun f g => f.acked = false → g.acked = false → f.vec ≠ g.vec) ∧
      (s.taken = 0 → ∀ p, p ∈ s.pics.pic1.inService ↔ p ∈ s.active1) := by
  have hserved := h.served
  refine ⟨?_, fun htaken p => ?_⟩
  · have h1 := List.pairwise_filterMap.mp hserved.covered1.sorted
    have h2 := List.pairwise_filterMap.mp hserved.covered2.sorted
    refine (h1.and h2).imp fun {f g} hfg hf hg heq => ?_
    rcases Nat.lt_or_ge f.vec 40 with hvec | hvec
    · have hlt := hfg.1 (f.vec - 32) (by simp [Frame.line1, hf, hvec]) (g.vec - 32)
        (by simp [Frame.line1, hg, ← heq, hvec])
      omega
    · have hlt := hfg.2 (f.vec - 40) (by simp [Frame.line2, hf, hvec]) (g.vec - 40)
        (by simp [Frame.line2, hg, ← heq, hvec])
      omega
  · have hexact := hserved.exact1
    rw [if_pos htaken] at hexact
    by_cases hp : p < 8
    · exact hexact p hp
    · constructor
      · exact fun hmem => absurd (Chip.mem_inService.mp hmem).1 hp
      · intro hmem
        obtain ⟨f, hf, hline⟩ := List.mem_filterMap.mp hmem
        simp only [Frame.line1] at hline
        split at hline
        · cases hline
          have := (hserved.vec f hf).2
          omega
        · cases hline

/-- The handler of line 1, interrupted by that of line 0. -/
def nested : System :=
  { start with
    pics := ⟨{ started 32 0b100 0 with isr := 0b11 }, started 40 2 0⟩
    frames := [⟨32, true, false, 0⟩, ⟨33, true, false, 0⟩] }

theorem handlers_nest_nested :
    (nested.frames.Pairwise fun f g => f.acked = false → g.acked = false → f.vec ≠ g.vec) ∧
      (nested.taken = 0 → ∀ p, p ∈ nested.pics.pic1.inService ↔ p ∈ nested.active1) := by
  have hunmask := reachable_start.step (.mask .unmaskAll rfl)
  have hfirst := (hunmask.step (.raise1 (i := 1) (by decide) (by decide))).step (.take rfl rfl)
  have hsecond := (hfirst.step (.raise1 (i := 0) (by decide) (by decide))).step (.take rfl rfl)
  exact handlers_nest (s := nested) hsecond

/-- **Each interrupt of the second controller leaves a line of the first in service.**  In
every state of every run the first controller has as many lines in service as handlers of
its lines that have not acknowledged, and one more for every interrupt of the second
controller there ever was.  A run therefore has at most six of those. -/
theorem second_controller_leaks (h : Reachable s) :
    s.pics.pic1.inService.card = s.active1.length + s.taken ∧ s.taken ≤ 6 := by
  have hserved := h.served
  refine ⟨hserved.count1, ?_⟩
  -- lines 0 and 1 are in service for handlers only
  have hlow : (s.pics.pic1.inService.filter (· < 2)).card ≤ s.active1.length := by
    refine (Finset.card_le_card fun p hp => ?_).trans s.active1.toFinset_card_le
    obtain ⟨hmem, hlt⟩ := Finset.mem_filter.mp hp
    exact List.mem_toFinset.mpr ((hserved.exact1 p (by split <;> omega)).mp hmem)
  have hhigh : (s.pics.pic1.inService.filter (¬ · < 2)).card ≤ (Finset.Ico 2 8).card := by
    refine Finset.card_le_card fun p hp => ?_
    obtain ⟨hmem, hge⟩ := Finset.mem_filter.mp hp
    exact Finset.mem_Ico.mpr ⟨Nat.le_of_not_lt hge, (Chip.mem_inService.mp hmem).1⟩
  have hsplit := Finset.card_filter_add_card_filter_not (s := s.pics.pic1.inService) (· < 2)
  have hcard : (Finset.Ico 2 8).card = 6 := rfl
  have hcount := hserved.count1
  omega

/-- A handler of the second controller has run. -/
def secondServed : System :=
  { start with
    pics := ⟨{ started 32 0b100 0 with isr := 0b100 }, started 40 2 0⟩
    taken := 1 }

theorem reachable_secondServed : Reachable secondServed := by
  have hunmask := reachable_start.step (.mask .unmaskAll rfl)
  have htake : Reachable { secondServed with
      pics := ⟨secondServed.pics.pic1, { started 40 2 0 with isr := 1 }⟩
      frames := [⟨40, true, false, 0⟩] } :=
    (hunmask.step (.raise2 (i := 0) (by decide))).step (.take rfl rfl)
  have hack : Reachable { secondServed with frames := [⟨40, true, true, 0⟩] } :=
    htake.step (.ack (f := ⟨40, true, false, 0⟩) rfl rfl rfl)
  exact hack.step (.ret (f := ⟨40, true, true, 0⟩) rfl rfl rfl)

theorem second_controller_leaks_served :
    secondServed.pics.pic1.inService.card = secondServed.active1.length + secondServed.taken ∧
      secondServed.taken ≤ 6 :=
  second_controller_leaks reachable_secondServed

/-- Line 2 of the first controller is in service, and no handler will acknowledge it. -/
structure Silenced (s : System) : Prop where
  held : 2 ∈ s.pics.pic1.inService
  active : ∀ p ∈ s.active1, p < 2

theorem Silenced.congr (h : s.Silenced) (hisr : t.pics.pic1.isr = s.pics.pic1.isr)
    (hactive : t.active1 = s.active1) : t.Silenced := by
  obtain ⟨hheld, hlt⟩ := h
  refine ⟨?_, hactive ▸ hlt⟩
  rwa [Chip.inService, hisr]

theorem silenced_take (h : s.Silenced) (hserved : s.Served) {vec : ℕ} {pics : Pics} (on : Bool)
    (hack : s.pics.acknowledge = some (vec, pics)) :
    vec < 34 ∧ Silenced { s with
      pics := pics
      frames := ⟨vec, on, false, 0⟩ :: s.frames
      taken := s.taken + if 40 ≤ vec then 1 else 0 } := by
  obtain ⟨j, hj, hfree, -⟩ | ⟨i, hi, -, hfree, hvec, rfl⟩ := Pics.acknowledge_cases hack
  · exact absurd (hfree 2 h.held) (by omega)
  · obtain rfl : vec = 32 + i := by rw [hvec, hserved.offset1]; rfl
    have hi2 : i < 2 := hfree 2 h.held
    refine ⟨by omega, ?_, ?_⟩
    · rw [Chip.inService_take hi]
      exact Finset.mem_insert_of_mem h.held
    · have hline : Frame.line1 ⟨32 + i, on, false, 0⟩ = some i := by simp [Frame.line1]; omega
      simp only [active1, List.filterMap_cons, hline]
      exact List.forall_mem_cons.mpr ⟨hi2, h.active⟩

/-- A line below 2 is dropped, for the handler that acknowledges has one. -/
theorem silenced_ack (h : s.Silenced) (hserved : s.Served) {f : Frame} {rest : List Frame}
    {pics : Pics} (hs : s.frames = f :: rest) (hf : f.acked = false)
    (hrun : (ack (f.vec - vectorPic)).run s.pics = .ok () pics) :
    Silenced { s with pics := pics, frames := { f with acked := true } :: rest } := by
  obtain ⟨hge, hlt⟩ := hserved.vec f (hs ▸ List.mem_cons_self)
  have hirq : f.vec - vectorPic = f.vec - 32 := rfl
  rcases Nat.lt_or_ge f.vec 40 with hvec | hvec
  · cases hrun.symm.trans (ack_first (by omega) s.pics)
    have hactive : s.active1 = (f.vec - 32) :: rest.filterMap Frame.line1 := by
      simp [active1, hs, Frame.line1, hf, hvec]
    obtain ⟨hheld, hactives⟩ := h
    have hexact := hserved.exact1
    rw [hactive] at hactives hexact
    obtain ⟨hlow, hrest⟩ := List.forall_mem_cons.mp hactives
    have hmem := (hexact (f.vec - 32) (by split <;> omega)).mpr List.mem_cons_self
    refine ⟨?_, ?_⟩
    · obtain ⟨q, -, hmin, hfin⟩ := Service.exists_isLeast ⟨2, hheld⟩
      rw [Chip.inService_endOfInterrupt, hfin, Finset.mem_erase]
      exact ⟨by have := hmin _ hmem; omega, hheld⟩
    · simpa [active1, Frame.line1] using hrest
  · cases hrun.symm.trans (ack_second (by omega) (by omega) s.pics)
    have hline : f.line1 = none := by simp [Frame.line1]; omega
    exact h.congr rfl (by
      rw [active1, active1, hs, List.filterMap_cons_none rfl, List.filterMap_cons_none hline])

theorem active1_withLive (s : System) (n : ℕ) : (s.withLive n).active1 = s.active1 := by
  cases hs : s.frames with
  | nil => rw [withLive_of_nil hs, active1, active1, hs]
  | cons f rest => rw [withLive_of_cons hs, active1, active1, hs]; rfl

theorem pics_withLive (s : System) (n : ℕ) : (s.withLive n).pics = s.pics := by
  unfold withLive
  split <;> rfl

theorem taken_withLive (s : System) (n : ℕ) : (s.withLive n).taken = s.taken := by
  unfold withLive
  split <;> rfl

theorem Step.silenced (hstep : Step s t) (hserved : s.Served) (h : s.Silenced) :
    t.Silenced ∧ t.taken = s.taken := by
  cases hstep with
  | raise1 | raise2 => exact ⟨h.congr rfl rfl, rfl⟩
  | take hon hack =>
    obtain ⟨hvec, hsil⟩ := silenced_take h hserved s.cpu.enabled hack
    exact ⟨hsil, by rw [if_neg (by omega)]; rfl⟩
  | ack hs hf hrun => exact ⟨silenced_ack h hserved hs hf hrun, rfl⟩
  | ret hs hf hg => exact ⟨h.congr rfl (by simp [active1, hs, Frame.line1, hf]), rfl⟩
  | newGuard _ =>
    exact ⟨h.congr (by rw [pics_withLive]) (active1_withLive _ _), taken_withLive _ _⟩
  | dropGuard _ =>
    exact ⟨h.congr (by rw [pics_withLive]) (active1_withLive _ _), taken_withLive _ _⟩
  | mask call hrun =>
    obtain ⟨imr1, imr2, hmasks, -⟩ := MaskCall.code_run hserved.ready call
    cases hrun.symm.trans hmasks
    exact ⟨h.congr rfl rfl, rfl⟩

/-- **The second controller can fall silent for good.**  If line 2 of the first controller
is in service when no handler runs that could acknowledge it, no run from there ever
takes another interrupt of the second controller, whatever is raised or unmasked. -/
theorem second_controller_silenced (h : Reachable s) (hheld : 2 ∈ s.pics.pic1.inService)
    (hidle : s.frames = []) (hrun : Relation.ReflTransGen Step s t) : t.taken = s.taken := by
  have hstart : s.Silenced := ⟨hheld, by simp [active1, hidle]⟩
  suffices hall : Reachable t ∧ t.Silenced ∧ t.taken = s.taken from hall.2.2
  induction hrun with
  | refl => exact ⟨h, hstart, rfl⟩
  | tail _ hstep ih =>
    obtain ⟨hreach, hsil, htaken⟩ := ih
    obtain ⟨hsil', htaken'⟩ := hstep.silenced hreach.served hsil
    exact ⟨hreach.step hstep, hsil', htaken'.trans htaken⟩

theorem second_controller_silenced_served : ∃ t, Relation.ReflTransGen Step secondServed t ∧
    t.pics.pic2.irr = 1 ∧ t.taken = 1 := by
  have hraise := Relation.ReflTransGen.single (Step.raise2 (s := secondServed) (i := 0) (by decide))
  exact ⟨_, hraise, rfl,
    second_controller_silenced reachable_secondServed (by decide) rfl hraise⟩

/-- **The keyboard is heard all the same.**  In every state of every run, while interrupts
are on and no handler of line 0 or 1 has yet to acknowledge, a request of line 1 that is
not masked can be taken at once, unless line 0 is requested, too, and not masked: then that
one comes first. -/
theorem keyboard_heard (h : Reachable s) (hon : s.cpu.enabled = true)
    (hactive : ∀ p ∈ s.active1, 2 ≤ p) (hraised : s.pics.pic1.irr.getLsbD 1 = true)
    (hmask : s.pics.masked 1 = false) :
    ∃ t f, Step s t ∧ t.frames = f :: s.frames ∧ (f.vec = 33 ∨
      f.vec = 32 ∧ s.pics.pic1.irr.getLsbD 0 = true ∧ s.pics.masked 0 = false) := by
  have hserved := h.served
  have hfree (j : ℕ) (hj : j < 2) : s.pics.pic1.isr.getLsbD j = false := by
    by_contra hbit
    have hmem : j ∈ s.pics.pic1.inService :=
      Chip.mem_inService.mpr ⟨by omega, eq_true_of_ne_false hbit⟩
    have := hactive j ((hserved.exact1 j (by split <;> omega)).mp hmem)
    omega
  -- the second controller's request does not touch line 1
  have hirr (second : Bool) : (setBit s.pics.pic1.irr 2 second).getLsbD 1 = true := by
    rw [getLsbD_setBit _ (by decide), if_neg (by decide), hraised]
  obtain ⟨i, hi, hnext⟩ := Chip.next_le (by decide) (hirr _) hmask fun j hj => hfree j (by omega)
  have hack : s.pics.acknowledge = some (32 + i, { s.pics with pic1 := s.pics.pic1.take i }) := by
    rw [Pics.acknowledge, hnext, Option.bind_some, if_neg (by omega), hserved.offset1]
    rfl
  refine ⟨_, _, .take hon hack, rfl, ?_⟩
  obtain rfl | rfl : i = 0 ∨ i = 1 := by omega
  · obtain ⟨-, hasked, hunmasked, -⟩ := Chip.next_eq_some hnext
    rw [getLsbD_setBit _ (by decide), if_neg (by decide)] at hasked
    exact .inr ⟨rfl, hasked, hunmasked⟩
  · exact .inl rfl

theorem keyboard_heard_served :
    ∃ t f, Step { secondServed with pics :=
        { secondServed.pics with pic1 := secondServed.pics.pic1.raise 1 } } t ∧
      t.frames = f :: secondServed.frames ∧ f.vec = 33 := by
  obtain ⟨t, f, hstep, hframes, hvec | ⟨-, hraised, -⟩⟩ := keyboard_heard
    (reachable_secondServed.step (.raise1 (i := 1) (by decide) (by decide))) rfl
    (by simp [active1, secondServed, start]) rfl rfl
  · exact ⟨t, f, hstep, hframes, hvec⟩
  · exact absurd hraised (by decide)

end System

end Interrupt

end Koe
