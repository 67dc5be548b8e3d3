/-
# `KoeOs.Io.Keyboard` — `VirtKeyboard` of `src/io/keyboard.rs`

The keyboard is a bitmap, one bit for each key code, and a set of modifiers.  A packet
is a key code and whether the key was pressed or released:

    update    set the bit of the key; for some keys set, clear or toggle a modifier
    event     the packet, with the modifiers of the moment
    parse     both

The bitmap is two 64-bit words, read as 128 bits from the least significant on.  The
key codes that no function here refers to are left out.
-/
import KoeOs.Rust.Usize

namespace Koe

/-! ## Key codes -/

/-- A `u16`. -/
abbrev KeyCode := UInt16

def keyLeftctrl : KeyCode := 29
def keyLeftshift : KeyCode := 42
def keyRightshift : KeyCode := 54
def keyLeftalt : KeyCode := 56
def keyCapslock : KeyCode := 58
def keyNumlock : KeyCode := 69
def keyScrolllock : KeyCode := 70
def keycodeMax : KeyCode := 88

/-! ## Modifiers -/

/-- A set of flags in the bits of a `u8`. -/
@[ext] structure Modifier where
  bits : BitVec 8
  deriving DecidableEq, Repr

namespace Modifier

def empty : Modifier := ⟨0⟩
def alt : Modifier := ⟨0b1⟩
def shift : Modifier := ⟨0b10⟩
def ctrl : Modifier := ⟨0b100⟩
def capslock : Modifier := ⟨0b1000⟩
def scrolllock : Modifier := ⟨0b10000⟩
def numlock : Modifier := ⟨0b100000⟩

def contains (m flag : Modifier) : Bool := m.bits &&& flag.bits == flag.bits

def set (m flag : Modifier) (value : Bool) : Modifier :=
  if value then ⟨m.bits ||| flag.bits⟩ else ⟨m.bits &&& ~~~flag.bits⟩

def toggle (m flag : Modifier) : Modifier := ⟨m.bits ^^^ flag.bits⟩

end Modifier

/-! ## The keyboard -/

/-- The number of words of the bitmap. -/
def statesLen : ℕ := Usize.divCeil (keycodeMax.toNat + 1) 64

/-- One bit of a word set or cleared. -/
def setBit {w : ℕ} (x : BitVec w) (i : ℕ) (value : Bool) : BitVec w :=
  if value then x ||| BitVec.twoPow w i else x &&& ~~~BitVec.twoPow w i

/-- `words.view_bits_mut::<Lsb0>().set(i, value)`. -/
def bitsSet {σ : Type} {n : ℕ} (words : Vector (BitVec 64) n) (i : ℕ) (value : Bool) :
    Code σ (Vector (BitVec 64) n) :=
  if h : i / 64 < n then pure (words.set (i / 64) (setBit words[i / 64] (i % 64) value) h)
  else throw .bounds

@[ext] structure VirtKeyboard where
  states : Vector (BitVec 64) statesLen
  modifier : Modifier
  deriving DecidableEq

structure KeyEvent where
  key : KeyCode
  isPress : Bool
  modifier : Modifier
  deriving DecidableEq

namespace VirtKeyboard

def new : VirtKeyboard where
  states := Vector.replicate statesLen 0
  modifier := .empty

/-- What `update` does to the modifiers. -/
def nextModifier (m : Modifier) (packet : KeyCode × Bool) : Modifier :=
  if packet.1 = keyLeftalt then m.set .alt packet.2
  else if packet.1 = keyLeftctrl then m.set .ctrl packet.2
  else if packet.1 = keyLeftshift ∨ packet.1 = keyRightshift then m.set .shift packet.2
  else if packet.1 = keyCapslock ∧ packet.2 = true then m.toggle .capslock
  else if packet.1 = keyScrolllock ∧ packet.2 = true then m.toggle .scrolllock
  else if packet.1 = keyNumlock ∧ packet.2 = true then m.toggle .numlock
  else m

def update (packet : KeyCode × Bool) : Code VirtKeyboard Unit := do
  let states ← bitsSet (← get).states packet.1.toNat packet.2
  modify fun s => { s with states := states }
  modify fun s => { s with modifier := nextModifier s.modifier packet }

def event (s : VirtKeyboard) (packet : KeyCode × Bool) : KeyEvent :=
  ⟨packet.1, packet.2, s.modifier⟩

def parse (packet : KeyCode × Bool) : Code VirtKeyboard (Option KeyEvent) := do
  update packet
  return some ((← get).event packet)

/-- The bit of a key. -/
def bit (s : VirtKeyboard) (key : KeyCode) : Bool :=
  (s.states[key.toNat / 64]?.map (·.getLsbD (key.toNat % 64))).getD false

end VirtKeyboard

/-! ## Flags -/

namespace Modifier

variable (m : Modifier) {flag other : Modifier} (value : Bool)

theorem contains_set_self (h : flag.bits ≠ 0) : (m.set flag value).contains flag = value := by
  cases value with
  | false =>
      have hclear : m.bits &&& ~~~flag.bits &&& flag.bits = 0 := by
        ext i; simp
      show (m.bits &&& ~~~flag.bits &&& flag.bits == flag.bits) = false
      rw [hclear]
      exact beq_false_of_ne (Ne.symm h)
  | true =>
      have habsorb : (m.bits ||| flag.bits) &&& flag.bits = flag.bits := by
        ext i
        rw [BitVec.getElem_and, BitVec.getElem_or]
        cases flag.bits[i] <;> simp
      show ((m.bits ||| flag.bits) &&& flag.bits == flag.bits) = true
      rw [habsorb]
      exact beq_self_eq_true _

/-- Two flags without a bit in common: a bit of the second is none of the first. -/
theorem getElem_eq_false_of_disjoint (h : flag.bits &&& other.bits = 0) {i : ℕ} (hi : i < 8)
    (ho : other.bits[i] = true) : flag.bits[i] = false := by
  have hand : (flag.bits &&& other.bits)[i] = false := by rw [h]; simp
  rwa [BitVec.getElem_and, ho, Bool.and_true] at hand

theorem contains_set_of_disjoint (h : flag.bits &&& other.bits = 0) :
    (m.set flag value).contains other = m.contains other := by
  have hkeep : (m.set flag value).bits &&& other.bits = m.bits &&& other.bits := by
    ext i hi
    rw [BitVec.getElem_and, BitVec.getElem_and]
    cases ho : other.bits[i] with
    | false => rw [Bool.and_false, Bool.and_false]
    | true =>
        have hf := getElem_eq_false_of_disjoint h hi ho
        cases value <;> simp [set, hf]
  rw [contains, hkeep]
  rfl

theorem contains_toggle_of_disjoint (h : flag.bits &&& other.bits = 0) :
    (m.toggle flag).contains other = m.contains other := by
  have hkeep : (m.toggle flag).bits &&& other.bits = m.bits &&& other.bits := by
    ext i hi
    rw [BitVec.getElem_and, BitVec.getElem_and]
    cases ho : other.bits[i] with
    | false => rw [Bool.and_false, Bool.and_false]
    | true => simp [toggle, getElem_eq_false_of_disjoint h hi ho]
  rw [contains, hkeep]
  rfl

/-- A flag of one bit is contained if the bit is set. -/
theorem contains_of_twoPow {i : ℕ} (hi : i < 8) (h : flag.bits = BitVec.twoPow 8 i) :
    m.contains flag = m.bits.getLsbD i := by
  have hne : (0#8 == BitVec.twoPow 8 i) = false :=
    beq_false_of_ne fun h0 => by
      have hbit := congrArg (·.getLsbD i) h0
      simp [hi] at hbit
  rw [contains, h, BitVec.and_twoPow]
  cases m.bits.getLsbD i with
  | false => exact hne
  | true => exact beq_self_eq_true _

theorem contains_toggle_self {i : ℕ} (hi : i < 8) (h : flag.bits = BitVec.twoPow 8 i) :
    (m.toggle flag).contains flag = !m.contains flag := by
  rw [contains_of_twoPow _ hi h, contains_of_twoPow _ hi h, toggle, h]
  simp [hi]

end Modifier

/-! ## A packet -/

theorem getLsbD_setBit {w : ℕ} (x : BitVec w) {i : ℕ} (hi : i < w) (value : Bool) (j : ℕ) :
    (setBit x i value).getLsbD j = if i = j then value else x.getLsbD j := by
  by_cases hij : i = j
  · subst hij
    cases value <;> simp [setBit, hi]
  · rw [if_neg hij]
    rcases Nat.lt_or_ge j w with hj | hj
    · cases value <;> simp [setBit, Ne.symm hij, hj]
    · rw [BitVec.getLsbD_of_ge _ _ hj, BitVec.getLsbD_of_ge _ _ hj]

namespace VirtKeyboard

/-- The keyboard after a packet that `update` accepts. -/
def step (s : VirtKeyboard) (packet : KeyCode × Bool) (h : packet.1.toNat / 64 < statesLen) :
    VirtKeyboard where
  states := s.states.set (packet.1.toNat / 64)
    (setBit s.states[packet.1.toNat / 64] (packet.1.toNat % 64) packet.2) h
  modifier := nextModifier s.modifier packet

theorem parse_run (s : VirtKeyboard) {packet : KeyCode × Bool}
    (h : packet.1.toNat / 64 < statesLen) :
    (parse packet).run s = .ok (some ((s.step packet h).event packet)) (s.step packet h) := by
  have hset : (bitsSet s.states packet.1.toNat packet.2 : Code VirtKeyboard _).run s
      = .ok (s.step packet h).states s := by
    rw [bitsSet, dif_pos h]
    rfl
  have hupdate : (update packet).run s = .ok () (s.step packet h) := by
    rw [update, Code.get_bind, Code.bind_ok hset]
    rfl
  rw [parse, Code.bind_ok hupdate]
  rfl

theorem parse_error (s : VirtKeyboard) {packet : KeyCode × Bool}
    (h : ¬ packet.1.toNat / 64 < statesLen) : (parse packet).run s = .error .bounds s := by
  have hset : (bitsSet s.states packet.1.toNat packet.2 : Code VirtKeyboard _).run s
      = .error .bounds s := by
    rw [bitsSet, dif_neg h]
    rfl
  have hupdate : (update packet).run s = .error .bounds s := by
    rw [update, Code.get_bind, Code.bind_error hset]
  rw [parse, Code.bind_error hupdate]

/-- The bit of the key of the packet says whether it was pressed; the others are as before. -/
theorem bit_step (s : VirtKeyboard) {packet : KeyCode × Bool}
    (h : packet.1.toNat / 64 < statesLen) (key : KeyCode) :
    (s.step packet h).bit key = if packet.1 = key then packet.2 else s.bit key := by
  rw [bit, step, Vector.getElem?_set]
  by_cases hword : packet.1.toNat / 64 = key.toNat / 64
  · rw [if_pos hword, Option.map_some, Option.getD_some,
      getLsbD_setBit _ (Nat.mod_lt _ (by decide))]
    by_cases heq : packet.1 = key
    · rw [if_pos heq, if_pos (by rw [heq])]
    · have hne : packet.1.toNat ≠ key.toNat := fun h => heq (UInt16.toNat_inj.mp h)
      rw [if_neg heq, if_neg (by omega), bit, ← hword, Vector.getElem?_eq_getElem h]
      rfl
  · rw [if_neg hword, if_neg fun heq => hword (by rw [heq]), bit]

end VirtKeyboard

end Koe
