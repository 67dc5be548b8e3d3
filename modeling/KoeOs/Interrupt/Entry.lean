/-
# `KoeOs.Interrupt.Entry` — the entry code of `src/interrupt/handler.S`

A macro of the file gives one vector its stub, `isr_N`, and one word in
`ISR_TABLE`.  The processor has pushed what it interrupted, and for some
exceptions an error code; the stub makes room for one where there is none,
pushes the vector and jumps to the code that all vectors share:

    ss, rsp, rflags, cs, rip     pushed by the processor
    error code                   pushed by the processor, or eight bytes of room
    vector                       pushed by the stub
    rax, rdi, ..., r11           pushed by the shared code
    eight bytes                  `sub rsp, 0x8`

The handler then gets the vector and the address of the error code, where its
`InterruptStack` begins.

The result is that an interrupt is invisible to what it interrupts: whatever the
handler does within the calling convention, all that differs afterwards is memory
that the handler wrote, or that lay below the interrupted stack pointer.
-/
import KoeOs.Lib.Amd64

namespace Koe

open Amd64

namespace Interrupt

/-- The functions the entry code calls. -/
inductive Handler where
  | exceptionHandler
  | irqHandler
  deriving DecidableEq, Repr

inductive Label where
  | isr (vec : ℕ)
  | doExceptionHandler
  | doIrqHandler
  deriving DecidableEq, Repr

/-- The macros of the file. -/
inductive Macro where
  | exnEntry (vec : ℕ)
  | exnErrnoEntry (vec : ℕ)
  | irqEntry (vec : ℕ)
  | isrPadding (cnt : ℕ)
  deriving DecidableEq, Repr

namespace Macro

/-- The vector whose stub the macro defines. -/
def vec? : Macro → Option ℕ
  | exnEntry vec | exnErrnoEntry vec | irqEntry vec => some vec
  | isrPadding _ => none

/-- What the macro adds to `.text`. -/
def text : Macro → List (Instr Label Handler)
  | exnEntry vec => [.sub .rsp 0x8, .pushImm (.ofNat 64 vec), .jmp .doExceptionHandler]
  | exnErrnoEntry vec => [.pushImm (.ofNat 64 vec), .jmp .doExceptionHandler]
  | irqEntry vec => [.sub .rsp 0x8, .pushImm (.ofNat 64 vec), .jmp .doIrqHandler]
  | isrPadding _ => []

/-- What the macro adds to `.data`, where the linker placed the stub of `vec` at
`place vec`. -/
def data (place : ℕ → Word) : Macro → List Word
  | exnEntry vec | exnErrnoEntry vec | irqEntry vec => [place vec]
  | isrPadding cnt => List.replicate cnt 0

/-- The function its stub ends up in. -/
def handler : Macro → Handler
  | exnEntry _ | exnErrnoEntry _ | isrPadding _ => .exceptionHandler
  | irqEntry _ => .irqHandler

end Macro

/-- The table and the stubs, in the order of the file. -/
def macros : List Macro := [
  .exnEntry 0, .exnEntry 1, .exnEntry 2, .exnEntry 3, .exnEntry 4, .exnEntry 5, .exnEntry 6,
  .exnEntry 7, .exnErrnoEntry 8, .exnEntry 9, .exnErrnoEntry 10, .exnErrnoEntry 11,
  .exnErrnoEntry 12, .exnErrnoEntry 13, .exnErrnoEntry 14, .isrPadding 1, .exnEntry 16,
  .exnErrnoEntry 17, .exnEntry 18, .exnEntry 19, .exnEntry 20, .exnErrnoEntry 21,
  .isrPadding 10,
  .irqEntry 32, .irqEntry 33, .irqEntry 34, .irqEntry 35, .irqEntry 36, .irqEntry 37,
  .irqEntry 38, .irqEntry 39, .irqEntry 40, .irqEntry 41, .irqEntry 42, .irqEntry 43,
  .irqEntry 44, .irqEntry 45, .irqEntry 46, .irqEntry 47]

/-- `_do_exception_handler` and `_do_irq_handler`, which differ in the function they call. -/
def doHandler (f : Handler) : List (Instr Label Handler) := [
  .push .rax, .push .rdi, .push .rsi, .push .rdx, .push .rcx, .push .r8, .push .r9, .push .r10,
  .push .r11,
  .sub .rsp 0x8,
  .load .rdi .rsp 0x50,
  .lea .rsi .rsp 0x58,
  .call f,
  .add .rsp 0x8,
  .pop .r11, .pop .r10, .pop .r9, .pop .r8, .pop .rcx, .pop .rdx, .pop .rsi, .pop .rdi, .pop .rax,
  .add .rsp 0x10,
  .iretq]

def text : Label → List (Instr Label Handler)
  | .isr vec => ((macros.find? fun d => d.vec? = some vec).map Macro.text).getD []
  | .doExceptionHandler => doHandler .exceptionHandler
  | .doIrqHandler => doHandler .irqHandler

/-- The vectors with a stub, and the function that serves them. -/
def handlerOf (vec : ℕ) : Option Handler :=
  (macros.find? fun d => d.vec? = some vec).map Macro.handler

/-- The vectors for which the processor pushes an error code. -/
def pushesErrno (vec : ℕ) : Bool := vec ∈ [8, 10, 11, 12, 13, 14, 17, 21, 29, 30]

/-- The entry code, with handlers that do what `callee` says. -/
def program (callee : Handler → Machine → Machine) (link : Handler → Word)
    (alu : Word → Word → Word → Word) : Program Label Handler :=
  ⟨text, callee, link, alu⟩

/-! ## The shared code -/

/-- The registers that the shared code saves. -/
def saved : List Reg := [.rax, .rdi, .rsi, .rdx, .rcx, .r8, .r9, .r10, .r11]

/-- A register is saved by the shared code or by the function it calls. -/
theorem saved_or_calleeSaved (r : Reg) (h : r ≠ .rsp) : r ∈ saved ∨ r ∈ calleeSaved := by
  cases r <;> first | exact absurd rfl h | decide

/-- The machine at the first instruction of the handler, called from the shared
code that was entered in `m`. -/
def called (P : Program Label Handler) (f : Handler) (m : Machine) : Machine :=
  let s := m.pushAll saved
  let s := s.setFlags .rsp (s.gpr .rsp - 0x8) (P.alu s.rflags (s.gpr .rsp) 0x8)
  let s := s.set .rdi (s.mem.load (s.gpr .rsp + 0x50))
  let s := s.set .rsi (s.gpr .rsp + 0x58)
  s.push (P.link f)

/-- The machine when the shared code begins to restore the registers. -/
def returned (P : Program Label Handler) (f : Handler) (m : Machine) : Machine :=
  let s := P.callee f (called P f m)
  s.setFlags .rsp (s.gpr .rsp + 0x8) (P.alu s.rflags (s.gpr .rsp) 0x8)

variable {P : Program Label Handler} {f : Handler} {m : Machine} {w : Word} {ws : List Word} {n : ℕ}

/-- The shared code in blocks: registers are saved, the handler is called, registers
are restored. -/
theorem doHandler_exec (P : Program Label Handler) (f : Handler) (m : Machine) :
    P.exec 25 (doHandler f) m =
      P.exec 11 (saved.reverse.map .pop ++ [.add .rsp 0x10, .iretq]) (returned P f m) :=
  rfl

theorem rsp_notMem_saved : .rsp ∉ saved := by decide

/-- The stack pointer above the saved registers is the one the code was entered with. -/
theorem above_pushed (sp : Word) : Stacked.above (sp - 72) saved.length = sp := by
  simp only [Stacked.above, saved, List.length_cons, List.length_nil]
  bv_omega

theorem pushAll_saved_rsp (m : Machine) : (m.pushAll saved).gpr .rsp = m.gpr .rsp - 72 := by
  rw [Machine.pushAll_eq rsp_notMem_saved, Machine.pushWords_rsp]
  rfl

theorem pushAll_saved_stacked (hfit : ws.length ≤ 16) (hs : Stacked m.mem (m.gpr .rsp) ws) :
    Stacked (m.pushAll saved).mem (m.gpr .rsp - 72) (saved.reverse.map m.gpr ++ ws) := by
  have hpushed := Machine.pushWords_stacked (saved.map m.gpr)
    (by simp only [List.length_map, saved, List.length_cons, List.length_nil]; omega) hs
  rw [← Machine.pushAll_eq rsp_notMem_saved, pushAll_saved_rsp, ← List.map_reverse] at hpushed
  exact hpushed

theorem called_rsp (P : Program Label Handler) (f : Handler) (m : Machine) :
    (called P f m).gpr .rsp = m.gpr .rsp - 88 := by
  simp only [called, Machine.push_rsp]
  rw [Machine.set_gpr_of_ne (by decide), Machine.set_gpr_of_ne (by decide), Machine.setFlags_gpr,
    Machine.set_gpr_self, pushAll_saved_rsp]
  bv_omega

theorem called_rsi (P : Program Label Handler) (f : Handler) (m : Machine) :
    (called P f m).gpr .rsi = m.gpr .rsp + 8 := by
  simp only [called]
  rw [Machine.push_gpr (by decide), Machine.set_gpr_self, Machine.set_gpr_of_ne (by decide),
    Machine.setFlags_gpr, Machine.set_gpr_self, pushAll_saved_rsp]
  bv_omega

/-- The first argument is the word on top of the stack. -/
theorem called_rdi (hfit : (w :: ws).length ≤ 16) (hs : Stacked m.mem (m.gpr .rsp) (w :: ws)) :
    (called P f m).gpr .rdi = w := by
  have hpushed := (Stacked.append.mp (pushAll_saved_stacked hfit hs)).2
  rw [List.length_map, List.length_reverse, above_pushed] at hpushed
  simp only [called]
  rw [Machine.push_gpr (by decide), Machine.set_gpr_of_ne (by decide), Machine.set_gpr_self,
    Machine.setFlags_gpr, Machine.set_gpr_self, pushAll_saved_rsp, Machine.setFlags_mem]
  have hoff : m.gpr .rsp - 72 - 8 + 0x50 = m.gpr .rsp := by bv_omega
  rw [hoff]
  exact hpushed.1

theorem called_saved {r : Reg} (h : r ∈ calleeSaved) (P : Program Label Handler) (f : Handler)
    (m : Machine) : (called P f m).gpr r = m.gpr r := by
  have hne : r ≠ .rsp ∧ r ≠ .rsi ∧ r ≠ .rdi := by
    refine ⟨?_, ?_, ?_⟩ <;> rintro rfl <;> exact absurd h (by decide)
  simp only [called]
  rw [Machine.push_gpr hne.1, Machine.set_gpr_of_ne hne.2.1, Machine.set_gpr_of_ne hne.2.2,
    Machine.setFlags_gpr, Machine.set_gpr_of_ne hne.1, Machine.pushAll_eq rsp_notMem_saved,
    Machine.pushWords_gpr hne.1]

theorem called_mem (P : Program Label Handler) (f : Handler) (m : Machine) :
    (called P f m).mem = (m.pushAll saved).mem.store (m.gpr .rsp - 88) (P.link f) := by
  simp only [called, Machine.push_mem, Machine.set_mem, Machine.setFlags_mem]
  rw [Machine.set_gpr_of_ne (by decide), Machine.set_gpr_of_ne (by decide), Machine.setFlags_gpr,
    Machine.set_gpr_self, pushAll_saved_rsp]
  congr 1
  bv_omega

/-- The handler finds the saved registers and all that was on the stack. -/
theorem called_stacked (hfit : ws.length ≤ 16) (hs : Stacked m.mem (m.gpr .rsp) ws) :
    Stacked (called P f m).mem (m.gpr .rsp - 72) (saved.reverse.map m.gpr ++ ws) := by
  rw [called_mem]
  refine (pushAll_saved_stacked hfit hs).congr ?_ fun x hx => Memory.store_of_le _ _ ?_
  · simp only [List.length_append, List.length_map, List.length_reverse, saved, List.length_cons,
      List.length_nil]
    omega
  · simp only [List.length_append, List.length_map, List.length_reverse, saved, List.length_cons,
      List.length_nil] at hx
    bv_omega

theorem returned_rsp (habi : Abi n (P.callee f) (called P f m)) :
    (returned P f m).gpr .rsp = m.gpr .rsp - 72 := by
  simp only [returned, Machine.setFlags_gpr, Machine.set_gpr_self]
  rw [habi.rsp, called_rsp]
  bv_omega

/-- The handler left the saved registers and all that was on the stack. -/
theorem returned_stacked (hn : 8 * (ws.length + 10) ≤ n) (hfit : ws.length ≤ 16)
    (habi : Abi n (P.callee f) (called P f m)) (hs : Stacked m.mem (m.gpr .rsp) ws) :
    Stacked (returned P f m).mem (m.gpr .rsp - 72) (saved.reverse.map m.gpr ++ ws) := by
  have hlen : (saved.reverse.map m.gpr ++ ws).length = 9 + ws.length := by
    simp [saved]; omega
  refine (called_stacked hfit hs).congr (by omega) fun x hx => habi.mem x ?_
  rw [hlen] at hx
  rw [called_rsp]
  bv_omega

/-- All registers but the stack pointer come back. -/
theorem restored_gpr (hn : 8 * (ws.length + 10) ≤ n) (hfit : ws.length ≤ 16)
    (habi : Abi n (P.callee f) (called P f m)) (hs : Stacked m.mem (m.gpr .rsp) ws) {r : Reg}
    (hr : r ≠ .rsp) : ((returned P f m).popAll saved.reverse).gpr r = m.gpr r := by
  have hstacked := (Stacked.append.mp (returned_stacked hn hfit habi hs)).1
  rw [← returned_rsp habi] at hstacked
  rw [Machine.popAll_gpr (by decide) hr hstacked]
  by_cases hsaved : r ∈ saved
  · rw [if_pos (List.mem_reverse.mpr hsaved)]
  · have hcallee := (saved_or_calleeSaved r hr).resolve_left hsaved
    rw [if_neg (mt List.mem_reverse.mp hsaved)]
    simp only [returned, Machine.setFlags_gpr]
    rw [Machine.set_gpr_of_ne hr, habi.saved r hcallee, called_saved hcallee]

theorem restored_rsp (habi : Abi n (P.callee f) (called P f m)) :
    ((returned P f m).popAll saved.reverse).gpr .rsp = m.gpr .rsp := by
  rw [Machine.popAll_rsp (by decide), returned_rsp habi, List.length_reverse, above_pushed]

/-- The shared code, entered with a vector, an error code and what the processor
saved on the stack, returns to what was interrupted. -/
theorem doHandler_run {vec errno rip cs rflags sp ss : Word}
    (hs : Stacked m.mem (m.gpr .rsp) [vec, errno, rip, cs, rflags, sp, ss])
    (habi : Abi 136 (P.callee f) (called P f m)) :
    P.exec 25 (doHandler f) m = some ⟨Function.update m.gpr .rsp sp, rip, rflags, cs, ss,
      (P.callee f (called P f m)).mem⟩ := by
  have hfit : [vec, errno, rip, cs, rflags, sp, ss].length ≤ 16 := by simp
  have hreturned := returned_stacked (Nat.le_refl 136) hfit habi hs
  set s := (returned P f m).popAll saved.reverse with hsdef
  have hmem : s.mem = (returned P f m).mem := Machine.popAll_mem _ _
  -- above the vector and the error code
  have hframe : Stacked s.mem (m.gpr .rsp + 0x10) [rip, cs, rflags, sp, ss] := by
    have htop := (Stacked.append.mp hreturned).2
    rw [List.length_map, List.length_reverse, above_pushed, ← hmem] at htop
    have := htop.2.2
    rwa [BitVec.add_assoc] at this
  have hexec : P.exec 25 (doHandler f) m =
      some (s.setFlags .rsp (s.gpr .rsp + 0x10) (P.alu s.rflags (s.gpr .rsp) 0x10)).iret := by
    rw [doHandler_exec]
    exact P.exec_pops saved.reverse 2 _ _
  have hiret : Stacked (s.setFlags .rsp (s.gpr .rsp + 0x10) (P.alu s.rflags (s.gpr .rsp) 0x10)).mem
      ((s.setFlags .rsp (s.gpr .rsp + 0x10) (P.alu s.rflags (s.gpr .rsp) 0x10)).gpr .rsp)
      [rip, cs, rflags, sp, ss] := by
    rw [Machine.setFlags_mem, Machine.setFlags_gpr, Machine.set_gpr_self, hsdef, restored_rsp habi]
    exact hframe
  rw [hexec, Machine.iret_eq hiret]
  congr 2
  · funext r
    by_cases hr : r = .rsp
    · simp [hr]
    · rw [Function.update_of_ne hr, Function.update_of_ne hr, Machine.setFlags_gpr,
        Machine.set_gpr_of_ne hr, hsdef, restored_gpr (Nat.le_refl 136) hfit habi hs hr]

/-! ## The stubs -/

/-- The machine `t` that enters the shared code after `m` was interrupted. -/
structure Entered (m : Machine) (vec errno : Word) (t : Machine) : Prop where
  rsp : t.gpr .rsp = aligned (m.gpr .rsp) - 56
  gpr : ∀ r, r ≠ .rsp → t.gpr r = m.gpr r
  stacked : Stacked t.mem (t.gpr .rsp)
    [vec, errno, m.rip, m.cs, m.rflags, m.gpr .rsp, m.ss]
  mem : ∀ x, (x - aligned (m.gpr .rsp)).toNat + 56 < 2 ^ 64 → t.mem x = m.mem x

/-- A stub that finds an error code pushes the vector. -/
theorem entered_of_errno (m : Machine) (vec errno offset selector mask : Word) :
    Entered m vec errno ((m.interrupt (some errno) offset selector mask).push vec) where
  rsp := by
    rw [Machine.push_rsp, Machine.interrupt_rsp]
    simp only [Option.toList_some, List.length_singleton]
    bv_omega
  gpr r hr := by rw [Machine.push_gpr hr, Machine.interrupt_gpr hr]
  stacked := Machine.push_stacked (by simp) (Machine.interrupt_stacked m (some errno) _ _ _) vec
  mem x hx := by
    rw [Machine.push_mem, Machine.interrupt_rsp, Memory.store_of_le,
      Machine.interrupt_mem (by omega)]
    simp only [Option.toList_some, List.length_singleton]
    bv_omega

/-- A stub that finds none makes room for one first. -/
theorem entered_of_none {s : Machine} {offset selector mask : Word} (flags vec : Word)
    (hs : s = m.interrupt none offset selector mask) :
    Entered m vec (s.mem.load (s.gpr .rsp - 8))
      ((s.setFlags .rsp (s.gpr .rsp - 0x8) flags).push vec) := by
  have hsp : s.gpr .rsp = aligned (m.gpr .rsp) - 40 := by
    rw [hs, Machine.interrupt_rsp]
    rfl
  have hstacked : Stacked s.mem (s.gpr .rsp) [m.rip, m.cs, m.rflags, m.gpr .rsp, m.ss] := by
    rw [hs]
    exact Machine.interrupt_stacked m none _ _ _
  refine ⟨?_, fun r hr => ?_, Machine.push_stacked (by simp) ?_ vec, fun x hx => ?_⟩
  · rw [Machine.push_rsp, Machine.setFlags_gpr, Machine.set_gpr_self, hsp]
    bv_omega
  · rw [Machine.push_gpr hr, Machine.setFlags_gpr, Machine.set_gpr_of_ne hr, hs,
      Machine.interrupt_gpr hr]
  · rw [Machine.setFlags_mem, Machine.setFlags_gpr, Machine.set_gpr_self]
    refine ⟨rfl, ?_⟩
    rwa [BitVec.sub_add_cancel]
  · rw [Machine.push_mem, Machine.setFlags_gpr, Machine.set_gpr_self, Machine.setFlags_mem, hsp,
      Memory.store_of_le, hs, Machine.interrupt_mem (by omega)]
    bv_omega

theorem exec_room (P : Program Label Handler) (m : Machine) (vec : ℕ)
    (offset selector mask : Word) (l : Label) : ∃ slot t, Entered m (.ofNat 64 vec) slot t ∧
      P.exec 28 [.sub .rsp 0x8, .pushImm (.ofNat 64 vec), .jmp l]
        (m.interrupt none offset selector mask) = P.exec 25 (P.text l) t :=
  ⟨_, _, entered_of_none _ (.ofNat 64 vec) (rfl : m.interrupt none offset selector mask = _), rfl⟩

/-- What the handler of `vec` finds when it is called after `m` was interrupted: the
vector, and the address of its `InterruptStack`.  Above the return address the stack
pointer is eight off a multiple of sixteen, where the calling convention wants one: with
nine registers pushed the `sub rsp, 0x8` of the shared code is what takes it there.
Processor and entry code wrote to no more than the 144 bytes below the interrupted stack. -/
structure Call (m : Machine) (vec : ℕ) (errno : Word) (e : Machine) : Prop where
  rdi : e.gpr .rdi = .ofNat 64 vec
  stack : Stacked e.mem (e.gpr .rsi) [errno, m.rip, m.cs, m.rflags, m.gpr .rsp, m.ss]
  rsp : e.gpr .rsp = aligned (m.gpr .rsp) - 144
  misaligned : (e.gpr .rsp + 8).toNat % 16 = 8
  mem : ∀ x, (x - aligned (m.gpr .rsp)).toNat + 144 < 2 ^ 64 → e.mem x = m.mem x

theorem Entered.call {vec : ℕ} {errno : Word} {t : Machine} (h : Entered m (.ofNat 64 vec) errno t)
    (P : Program Label Handler) (f : Handler) : Call m vec errno (called P f t) where
  rdi := called_rdi (by simp) h.stacked
  stack := by
    have hstack := (Stacked.append.mp (called_stacked (P := P) (f := f) (by simp) h.stacked)).2.2
    rw [called_rsi]
    rwa [List.length_map, List.length_reverse, above_pushed] at hstack
  rsp := by
    rw [called_rsp, h.rsp]
    bv_omega
  misaligned := by
    have hal := aligned_mod (m.gpr .rsp)
    rw [called_rsp, h.rsp]
    bv_omega
  mem x hx := by
    have hbelow : 8 ≤ (x - (t.gpr .rsp - 88)).toNat := by
      rw [h.rsp]
      bv_omega
    have hpushed : (t.pushAll saved).mem x = t.mem x := by
      rw [Machine.pushAll_eq rsp_notMem_saved]
      refine Machine.pushWords_mem ?_
      rw [h.rsp]
      simp only [List.length_map, saved, List.length_cons, List.length_nil]
      bv_omega
    rw [called_mem, Memory.store_of_le _ _ hbelow, hpushed, h.mem x (by omega)]

theorem Entered.run {vec : ℕ} {errno : Word} {t : Machine} (h : Entered m (.ofNat 64 vec) errno t)
    (habi : Abi 136 (P.callee f) (called P f t)) :
    P.exec 25 (doHandler f) t = some { m with mem := (P.callee f (called P f t)).mem } := by
  rw [doHandler_run h.stacked habi]
  congr 2
  funext r
  by_cases hr : r = .rsp
  · rw [hr, Function.update_self]
  · rw [Function.update_of_ne hr, h.gpr r hr]

/-- The stub of a macro agrees with the processor on whether there is an error code. -/
def Macro.errno : Macro → Bool
  | exnErrnoEntry _ => true
  | _ => false

theorem pushesErrno_eq : ∀ d ∈ macros, ∀ vec ∈ d.vec?, pushesErrno vec = d.errno := by decide

theorem exists_macro {vec : ℕ} (h : handlerOf vec = some f) :
    ∃ d : Macro, d.vec? = some vec ∧ d.handler = f ∧ text (.isr vec) = d.text ∧
      pushesErrno vec = d.errno := by
  unfold handlerOf at h
  obtain ⟨d, hfind, hd⟩ := Option.map_eq_some_iff.mp h
  have hvec : d.vec? = some vec := by simpa using List.find?_some hfind
  refine ⟨d, hvec, hd, by rw [text, hfind]; rfl, ?_⟩
  exact pushesErrno_eq d (List.mem_of_find?_eq_some hfind) vec hvec

/-- **An interrupt is invisible to what it interrupts.**  For every vector with a stub and
every machine, if the handler keeps the calling convention where it is called, the entry
code calls it once, with the vector and the frame the processor left, and then returns to
the interrupted machine: all registers, flags and segments are what they were, and memory
is what the handler left.  The entry code itself wrote only below the interrupted stack, and
nothing after the call. -/
theorem isr_transparent (callee : Handler → Machine → Machine) (link : Handler → Word)
    (alu : Word → Word → Word → Word) {vec : ℕ} (hvec : handlerOf vec = some f)
    (errno offset selector mask : Word) (m : Machine)
    (habi : ∀ e, e.gpr .rsp = aligned (m.gpr .rsp) - 144 → Abi 136 (callee f) e) :
    ∃ n e slot, Call m vec slot e ∧ (pushesErrno vec → slot = errno) ∧
      (program callee link alu).exec n (text (.isr vec))
        (m.interrupt (if pushesErrno vec then some errno else none) offset selector mask) =
      some { m with mem := (callee f e).mem } := by
  obtain ⟨d, hd, rfl, htext, herrno⟩ := exists_macro hvec
  set P := program callee link alu with hP
  have hrun {t : Machine} {slot : Word} (h : Entered m (.ofNat 64 vec) slot t) :
      P.exec 25 (doHandler d.handler) t =
        some { m with mem := (callee d.handler (called P d.handler t)).mem } :=
    h.run (habi _ (h.call P d.handler).rsp)
  rw [htext, herrno]
  cases d with
  | exnEntry v =>
    cases hd
    obtain ⟨slot, t, hentered, hexec⟩ := exec_room P m vec offset selector mask .doExceptionHandler
    exact ⟨28, _, slot, hentered.call P _, nofun, hexec.trans (hrun hentered)⟩
  | exnErrnoEntry v =>
    cases hd
    have hentered := entered_of_errno m (.ofNat 64 vec) errno offset selector mask
    exact ⟨27, _, errno, hentered.call P _, fun _ => rfl, hrun hentered⟩
  | irqEntry v =>
    cases hd
    obtain ⟨slot, t, hentered, hexec⟩ := exec_room P m vec offset selector mask .doIrqHandler
    exact ⟨28, _, slot, hentered.call P _, nofun, hexec.trans (hrun hentered)⟩
  | isrPadding cnt => cases hd

/-- A handler that returns at once. -/
def idle (m : Machine) : Machine := m.set .rsp (m.gpr .rsp + 8)

theorem idle_abi (n : ℕ) (m : Machine) : Abi n idle m where
  rsp := m.set_gpr_self .rsp _
  saved r hr := Machine.set_gpr_of_ne (by rintro rfl; exact absurd hr (by decide)) m _
  mem _ _ := rfl

end Interrupt

end Koe
