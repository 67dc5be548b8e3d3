/-
# `KoeOs.Lib.Amd64` — a part of the AMD64 machine, and its stack

The instructions that entry code is written in: it saves registers on the
stack, calls a function, restores the registers and returns to what was
interrupted.  Memory is bytes, a word is eight of them in little-endian order,
and addresses wrap at `2 ^ 64`.

    Stacked m sp ws     the words `ws` lie in memory from `sp` up
    pushAll, popAll     what a sequence of pushes, and of pops, does
    Abi                 what a called function promises its caller

A called function is given by its effect, from its first instruction to the one
after the call.  What additions and subtractions leave in the flags is a
parameter of the program: no result depends on it.
-/
import Mathlib.Logic.Function.Basic
import Mathlib.Data.Nat.Notation
import Mathlib.Tactic.Linarith

namespace Koe.Amd64

abbrev Word := BitVec 64

/-- Bytes by address. -/
abbrev Memory := Word → BitVec 8

namespace Memory

variable {m m' : Memory} {a b v : Word}

def load (m : Memory) (a : Word) : Word :=
  m (a + 7) ++ m (a + 6) ++ m (a + 5) ++ m (a + 4) ++ m (a + 3) ++ m (a + 2) ++ m (a + 1) ++ m a

def store (m : Memory) (a v : Word) : Memory := fun x =>
  if (x - a).toNat < 8 then v.extractLsb' (8 * (x - a).toNat) 8 else m x

/-- A word is the bytes that it is stored as. -/
theorem bytes_append (v : Word) :
    v.extractLsb' 56 8 ++ v.extractLsb' 48 8 ++ v.extractLsb' 40 8 ++ v.extractLsb' 32 8 ++
      v.extractLsb' 24 8 ++ v.extractLsb' 16 8 ++ v.extractLsb' 8 8 ++ v.extractLsb' 0 8 = v := by
  have hjoin (k len : ℕ) : v.extractLsb' (k + 8) len ++ v.extractLsb' k 8 =
      v.extractLsb' k (len + 8) :=
    BitVec.extractLsb'_append_extractLsb'_eq_extractLsb' rfl
  rw [hjoin 48 8, hjoin 40, hjoin 32, hjoin 24, hjoin 16, hjoin 8, hjoin 0]
  exact BitVec.extractLsb'_eq_self

theorem load_store (m : Memory) (a v : Word) : (m.store a v).load a = v := by
  have hbyte (i : Word) (hi : i.toNat < 8) :
      m.store a v (a + i) = v.extractLsb' (8 * i.toNat) 8 := by
    rw [store, BitVec.add_comm a i, BitVec.add_sub_cancel, if_pos hi]
  have hfirst : m.store a v a = v.extractLsb' 0 8 := by
    rw [store, BitVec.sub_self, if_pos (by decide)]
    rfl
  rw [load, hbyte 7 (by decide), hbyte 6 (by decide), hbyte 5 (by decide), hbyte 4 (by decide),
    hbyte 3 (by decide), hbyte 2 (by decide), hbyte 1 (by decide), hfirst]
  exact bytes_append v

theorem load_congr (h : ∀ x, (x - a).toNat < 8 → m' x = m x) : m'.load a = m.load a := by
  have hoff (i : Word) : a + i - a = i := by rw [BitVec.add_comm, BitVec.add_sub_cancel]
  simp only [load]
  rw [h (a + 7), h (a + 6), h (a + 5), h (a + 4), h (a + 3), h (a + 2), h (a + 1), h a] <;>
    simp [hoff]

theorem store_of_le (m : Memory) (v : Word) {x : Word} (h : 8 ≤ (x - a).toNat) :
    m.store a v x = m x :=
  if_neg (Nat.not_lt.mpr h)

end Memory

/-! ## Words on a stack -/

/-- The words `ws` lie in memory one after the other, the first at `sp`. -/
def Stacked (m : Memory) : Word → List Word → Prop
  | _, [] => True
  | sp, w :: ws => m.load sp = w ∧ Stacked m (sp + 8) ws

namespace Stacked

variable {m m' : Memory} {sp v w : Word} {vs ws : List Word}

@[simp] theorem nil (m : Memory) (sp : Word) : Stacked m sp [] := trivial

theorem cons : Stacked m sp (w :: ws) ↔ m.load sp = w ∧ Stacked m (sp + 8) ws := .rfl

/-- The address `n` words above `sp`. -/
def above (sp : Word) (n : ℕ) : Word := sp + BitVec.ofNat 64 (8 * n)

theorem above_succ (sp : Word) (n : ℕ) : above (sp + 8) n = above sp (n + 1) := by
  simp only [above, BitVec.add_assoc]
  congr 1
  apply BitVec.eq_of_toNat_eq
  simp
  omega

theorem append : Stacked m sp (vs ++ ws) ↔ Stacked m sp vs ∧ Stacked m (above sp vs.length) ws := by
  induction vs generalizing sp with
  | nil => simp [above]
  | cons v vs ih => simp only [List.cons_append, cons, ih, above_succ, List.length_cons, and_assoc]

/-- Memory that agrees on the words has the same words. -/
theorem congr (hfit : 8 * ws.length ≤ 2 ^ 64)
    (h : ∀ x, (x - sp).toNat < 8 * ws.length → m' x = m x) (hs : Stacked m sp ws) :
    Stacked m' sp ws := by
  induction ws generalizing sp with
  | nil => trivial
  | cons w ws ih =>
    simp only [List.length_cons] at hfit h
    refine ⟨(Memory.load_congr fun x hx => h x (by omega)).trans hs.1,
      ih (by omega) (fun x hx => h x ?_) hs.2⟩
    -- a byte of the words above the first one
    have hx' : (x - sp).toNat = (x - (sp + 8)).toNat + 8 := by bv_omega
    omega

/-- One more word below the others. -/
theorem push (hfit : 8 * (ws.length + 1) ≤ 2 ^ 64) (hs : Stacked m sp ws) (v : Word) :
    Stacked (m.store (sp - 8) v) (sp - 8) (v :: ws) := by
  refine ⟨Memory.load_store m _ v, ?_⟩
  rw [BitVec.sub_add_cancel]
  refine hs.congr (by omega) fun x hx => Memory.store_of_le m v ?_
  bv_omega

end Stacked

/-! ## The machine -/

inductive Reg where
  | rax | rbx | rcx | rdx | rsi | rdi | rbp | rsp
  | r8 | r9 | r10 | r11 | r12 | r13 | r14 | r15
  deriving DecidableEq, Repr

@[ext] structure Machine where
  gpr : Reg → Word
  rip : Word
  rflags : Word
  cs : Word
  ss : Word
  mem : Memory

namespace Machine

variable {m : Machine} {r : Reg} {rs : List Reg} {vs ws : List Word}

def set (m : Machine) (r : Reg) (v : Word) : Machine := { m with gpr := Function.update m.gpr r v }

/-- An arithmetic instruction wrote `v` to `r`. -/
def setFlags (m : Machine) (r : Reg) (v flags : Word) : Machine :=
  { m.set r v with rflags := flags }

def push (m : Machine) (v : Word) : Machine :=
  { m.set .rsp (m.gpr .rsp - 8) with mem := m.mem.store (m.gpr .rsp - 8) v }

def pop (m : Machine) (r : Reg) : Machine :=
  (m.set .rsp (m.gpr .rsp + 8)).set r (m.mem.load (m.gpr .rsp))

/-- `iretq`: instruction pointer, code segment, flags, stack pointer and stack
segment come back from the stack. -/
def iret (m : Machine) : Machine :=
  let sp := m.gpr .rsp
  { m.set .rsp (m.mem.load (sp + 24)) with
    rip := m.mem.load sp
    cs := m.mem.load (sp + 8)
    rflags := m.mem.load (sp + 16)
    ss := m.mem.load (sp + 32) }

def pushWords (m : Machine) (vs : List Word) : Machine := vs.foldl push m

def pushAll (m : Machine) (rs : List Reg) : Machine := rs.foldl (fun m r => m.push (m.gpr r)) m

def popAll (m : Machine) (rs : List Reg) : Machine := rs.foldl pop m

@[simp] theorem set_gpr_self (m : Machine) (r : Reg) (v : Word) : (m.set r v).gpr r = v := by
  simp [set]

theorem set_gpr_of_ne {q : Reg} (h : q ≠ r) (m : Machine) (v : Word) :
    (m.set r v).gpr q = m.gpr q := by
  simp [set, h]

@[simp] theorem setFlags_gpr (m : Machine) (r : Reg) (v flags : Word) :
    (m.setFlags r v flags).gpr = (m.set r v).gpr := rfl

@[simp] theorem setFlags_mem (m : Machine) (r : Reg) (v flags : Word) :
    (m.setFlags r v flags).mem = m.mem := rfl

@[simp] theorem set_mem (m : Machine) (r : Reg) (v : Word) : (m.set r v).mem = m.mem := rfl

@[simp] theorem push_rsp (m : Machine) (v : Word) : (m.push v).gpr .rsp = m.gpr .rsp - 8 :=
  set_gpr_self m .rsp _

theorem push_gpr (h : r ≠ .rsp) (m : Machine) (v : Word) : (m.push v).gpr r = m.gpr r :=
  set_gpr_of_ne h m _

@[simp] theorem push_mem (m : Machine) (v : Word) :
    (m.push v).mem = m.mem.store (m.gpr .rsp - 8) v := rfl

theorem push_stacked (hfit : 8 * (ws.length + 1) ≤ 2 ^ 64) (hs : Stacked m.mem (m.gpr .rsp) ws)
    (v : Word) : Stacked (m.push v).mem ((m.push v).gpr .rsp) (v :: ws) := by
  rw [push_rsp, push_mem]
  exact hs.push hfit v

theorem pushWords_cons (m : Machine) (v : Word) (vs : List Word) :
    m.pushWords (v :: vs) = (m.push v).pushWords vs := rfl

theorem pushWords_rsp (m : Machine) (vs : List Word) :
    (m.pushWords vs).gpr .rsp = m.gpr .rsp - BitVec.ofNat 64 (8 * vs.length) := by
  induction vs generalizing m with
  | nil => simp [pushWords]
  | cons v vs ih =>
    rw [pushWords_cons, ih, push_rsp, List.length_cons]
    bv_omega

theorem pushWords_gpr (h : r ≠ .rsp) (m : Machine) (vs : List Word) :
    (m.pushWords vs).gpr r = m.gpr r := by
  induction vs generalizing m with
  | nil => rfl
  | cons v vs ih => exact (ih (m.push v)).trans (push_gpr h m v)

/-- The words lie on the stack, the last one pushed lowest. -/
theorem pushWords_stacked (vs : List Word) (hfit : 8 * (vs.length + ws.length) ≤ 2 ^ 64)
    (hs : Stacked m.mem (m.gpr .rsp) ws) :
    Stacked (m.pushWords vs).mem ((m.pushWords vs).gpr .rsp) (vs.reverse ++ ws) := by
  induction vs generalizing m ws with
  | nil => exact hs
  | cons v vs ih =>
    simp only [List.length_cons] at hfit
    have hpushed := ih (by simp only [List.length_cons]; omega) (push_stacked (by omega) hs v)
    simpa [pushWords_cons] using hpushed

/-- Nothing changes from the old stack pointer on. -/
theorem pushWords_mem {x : Word} (hx : (x - m.gpr .rsp).toNat + 8 * vs.length < 2 ^ 64) :
    (m.pushWords vs).mem x = m.mem x := by
  induction vs generalizing m with
  | nil => rfl
  | cons v vs ih =>
    simp only [List.length_cons] at hx
    rw [pushWords_cons, ih (by rw [push_rsp]; bv_omega), push_mem]
    exact Memory.store_of_le m.mem _ (by bv_omega)

/-- Pushes do not change the registers that are pushed after them. -/
theorem pushAll_eq (hrs : .rsp ∉ rs) : m.pushAll rs = m.pushWords (rs.map m.gpr) := by
  induction rs generalizing m with
  | nil => rfl
  | cons r rs ih =>
    simp only [List.mem_cons, not_or] at hrs
    have hsame : rs.map (m.push (m.gpr r)).gpr = rs.map m.gpr :=
      List.map_congr_left fun q hq => push_gpr (fun h => hrs.2 (h ▸ hq)) m _
    rw [List.map_cons, pushWords_cons, ← hsame]
    exact ih hrs.2

@[simp] theorem pop_mem (m : Machine) (r : Reg) : (m.pop r).mem = m.mem := rfl

theorem pop_gpr_self (m : Machine) (r : Reg) : (m.pop r).gpr r = m.mem.load (m.gpr .rsp) :=
  set_gpr_self _ r _

theorem pop_rsp (h : r ≠ .rsp) (m : Machine) : (m.pop r).gpr .rsp = m.gpr .rsp + 8 := by
  rw [pop, set_gpr_of_ne h.symm, set_gpr_self]

theorem pop_gpr_of_ne {q : Reg} (hr : q ≠ r) (hq : q ≠ .rsp) (m : Machine) :
    (m.pop r).gpr q = m.gpr q := by
  rw [pop, set_gpr_of_ne hr, set_gpr_of_ne hq]

theorem popAll_cons (m : Machine) (r : Reg) (rs : List Reg) :
    m.popAll (r :: rs) = (m.pop r).popAll rs := rfl

theorem popAll_mem (m : Machine) (rs : List Reg) : (m.popAll rs).mem = m.mem := by
  induction rs generalizing m with
  | nil => rfl
  | cons r rs ih => exact ih (m.pop r)

theorem popAll_rsp (hrs : .rsp ∉ rs) :
    (m.popAll rs).gpr .rsp = Stacked.above (m.gpr .rsp) rs.length := by
  induction rs generalizing m with
  | nil => simp [popAll, Stacked.above]
  | cons r rs ih =>
    simp only [List.mem_cons, not_or] at hrs
    rw [popAll_cons, ih hrs.2, pop_rsp (Ne.symm hrs.1), Stacked.above_succ, List.length_cons]

/-- Pops give the registers the words on the stack. -/
theorem popAll_gpr (hrs : .rsp ∉ rs) {g : Reg → Word} (hq : r ≠ .rsp)
    (hs : Stacked m.mem (m.gpr .rsp) (rs.map g)) :
    (m.popAll rs).gpr r = if r ∈ rs then g r else m.gpr r := by
  induction rs generalizing m with
  | nil => simp [popAll]
  | cons p rs ih =>
    simp only [List.mem_cons, not_or] at hrs
    obtain ⟨hload, hrest⟩ := hs
    have hpop : Stacked (m.pop p).mem ((m.pop p).gpr .rsp) (rs.map g) := by
      rwa [pop_mem, pop_rsp (Ne.symm hrs.1)]
    rw [popAll_cons, ih hrs.2 hpop]
    by_cases hrp : r = p
    · subst hrp
      simp [pop_gpr_self, hload]
    · simp [hrp, pop_gpr_of_ne hrp hq]

/-- What was on the stack is where the machine goes on. -/
theorem iret_eq {rip cs rflags sp ss : Word}
    (hs : Stacked m.mem (m.gpr .rsp) [rip, cs, rflags, sp, ss]) :
    m.iret = ⟨Function.update m.gpr .rsp sp, rip, rflags, cs, ss, m.mem⟩ := by
  simp only [Stacked.cons, BitVec.add_assoc] at hs
  obtain ⟨rfl, rfl, rfl, rfl, rfl, -⟩ := hs
  rfl

end Machine

/-! ## Interrupts -/

/-- The stack pointer, aligned to sixteen bytes. -/
def aligned (sp : Word) : Word := sp &&& ~~~15

theorem aligned_mod (sp : Word) : (aligned sp).toNat % 16 = 0 := by
  have hmask : aligned sp &&& 15 = 0 := by
    rw [aligned, BitVec.and_assoc]
    simp
  have hand := congrArg BitVec.toNat hmask
  rwa [BitVec.toNat_and, show (15 : Word).toNat = 2 ^ 4 - 1 from rfl,
    Nat.and_two_pow_sub_one_eq_mod] at hand

/-- The bits of the flags that every interrupt clears: trap, nested task, resume
and virtual-8086 mode. -/
def clearedFlags : Word := 1 <<< 8 ||| 1 <<< 14 ||| 1 <<< 16 ||| 1 <<< 17

/-- The interrupt flag. -/
def interruptFlag : Word := 1 <<< 9

namespace Machine

/-- The processor leaves the interrupted code, without a change of privilege:
stack segment, stack pointer, flags, code segment and instruction pointer go to
the aligned stack, and an error code where there is one.  That a fault sets the
resume flag in the saved flags is left out. -/
def leave (m : Machine) (errno : Option Word) : Machine :=
  (m.set .rsp (aligned (m.gpr .rsp))).pushWords
    ([m.ss, m.gpr .rsp, m.rflags, m.cs, m.rip] ++ errno.toList)

/-- It goes on at `offset` in the segment `selector`, with the flags in `mask` cleared. -/
def interrupt (m : Machine) (errno : Option Word) (offset selector mask : Word) : Machine :=
  { m.leave errno with rip := offset, cs := selector, rflags := m.rflags &&& ~~~mask }

variable {m : Machine} {errno : Option Word}

theorem interrupt_gpr {r : Reg} (h : r ≠ .rsp) (m : Machine) (errno : Option Word)
    (offset selector mask : Word) :
    (m.interrupt errno offset selector mask).gpr r = m.gpr r :=
  (pushWords_gpr h _ _).trans (set_gpr_of_ne h m _)

theorem interrupt_rsp (m : Machine) (errno : Option Word) (offset selector mask : Word) :
    (m.interrupt errno offset selector mask).gpr .rsp =
      aligned (m.gpr .rsp) - BitVec.ofNat 64 (8 * (5 + errno.toList.length)) := by
  refine (pushWords_rsp _ _).trans ?_
  rw [set_gpr_self, List.length_append]
  rfl

theorem interrupt_stacked (m : Machine) (errno : Option Word) (offset selector mask : Word) :
    Stacked (m.interrupt errno offset selector mask).mem
      ((m.interrupt errno offset selector mask).gpr .rsp)
      (errno.toList ++ [m.rip, m.cs, m.rflags, m.gpr .rsp, m.ss]) := by
  have hpushed := pushWords_stacked ([m.ss, m.gpr .rsp, m.rflags, m.cs, m.rip] ++ errno.toList)
    (by cases errno <;> simp) (Stacked.nil (m.set .rsp (aligned (m.gpr .rsp))).mem _)
  rw [List.append_nil, List.reverse_append] at hpushed
  cases errno <;> exact hpushed

theorem interrupt_mem {x : Word} (hx : (x - aligned (m.gpr .rsp)).toNat + 48 < 2 ^ 64)
    (errno : Option Word) (offset selector mask : Word) :
    (m.interrupt errno offset selector mask).mem x = m.mem x := by
  have hlen : ([m.ss, m.gpr .rsp, m.rflags, m.cs, m.rip] ++ errno.toList).length ≤ 6 := by
    cases errno <;> simp
  refine pushWords_mem ?_
  rw [set_gpr_self]
  omega

end Machine

/-! ## Programs -/

/-- The instructions of entry code, with the labels `L` it jumps to and the
functions `F` it calls. -/
inductive Instr (L F : Type) where
  | push (r : Reg)
  | pushImm (v : Word)
  | pop (r : Reg)
  | add (r : Reg) (v : Word)
  | sub (r : Reg) (v : Word)
  /-- `mov r, [b + off]`. -/
  | load (r b : Reg) (off : Word)
  | lea (r b : Reg) (off : Word)
  | jmp (l : L)
  | call (f : F)
  | iretq
  deriving DecidableEq, Repr

structure Program (L F : Type) where
  text : L → List (Instr L F)
  /-- A called function, from its first instruction to its return. -/
  callee : F → Machine → Machine
  /-- Where the call of `f` returns to. -/
  link : F → Word
  /-- What an addition or subtraction leaves in the flags. -/
  alu : Word → Word → Word → Word

namespace Program

variable {L F : Type} (P : Program L F)

/-- Run code until it returns from the interrupt; `none` if it does not within
`fuel` instructions. -/
def exec : ℕ → List (Instr L F) → Machine → Option Machine
  | 0, _, _ | _ + 1, [], _ => none
  | n + 1, .push r :: is, m => exec n is (m.push (m.gpr r))
  | n + 1, .pushImm v :: is, m => exec n is (m.push v)
  | n + 1, .pop r :: is, m => exec n is (m.pop r)
  | n + 1, .add r v :: is, m =>
    exec n is (m.setFlags r (m.gpr r + v) (P.alu m.rflags (m.gpr r) v))
  | n + 1, .sub r v :: is, m =>
    exec n is (m.setFlags r (m.gpr r - v) (P.alu m.rflags (m.gpr r) v))
  | n + 1, .load r b off :: is, m => exec n is (m.set r (m.mem.load (m.gpr b + off)))
  | n + 1, .lea r b off :: is, m => exec n is (m.set r (m.gpr b + off))
  | n + 1, .jmp l :: _, m => exec n (P.text l) m
  | n + 1, .call f :: is, m => exec n is (P.callee f (m.push (P.link f)))
  | _ + 1, .iretq :: _, m => some m.iret

theorem exec_pops (rs : List Reg) (n : ℕ) (is : List (Instr L F)) (m : Machine) :
    P.exec (n + rs.length) (rs.map .pop ++ is) m = P.exec n is (m.popAll rs) := by
  induction rs generalizing m with
  | nil => rfl
  | cons r rs ih => exact ih (m.pop r)

end Program

/-! ## Calls -/

/-- The registers a called function gives back as it found them, but for the
stack pointer. -/
def calleeSaved : List Reg := [.rbx, .rbp, .r12, .r13, .r14, .r15]

/-- What the function `f`, called in `m`, promises: it returns to its caller's
stack pointer, keeps the callee-saved registers, and does not write to the
first `frame` bytes of its caller. -/
structure Abi (frame : ℕ) (f : Machine → Machine) (m : Machine) : Prop where
  rsp : (f m).gpr .rsp = m.gpr .rsp + 8
  saved : ∀ r ∈ calleeSaved, (f m).gpr r = m.gpr r
  mem : ∀ x, (x - (m.gpr .rsp + 8)).toNat < frame → (f m).mem x = m.mem x

end Koe.Amd64
