/-
# `KoeOs.Drivers.Ps2` — the scan codes of `src/drivers/ps2.rs`

The keyboard controller sends bytes.  In scan code set 1 a byte below `0x80` says that a
key went down, or that it is still down; the same byte with `0x80` added that it went up:

    0x00 ..= 0x53, 0x57, 0x58      (byte, true)
    0x80 ..= 0xD3, 0xD7, 0xD8      (byte - 0x80, false)
    any other byte                 no packet

The key code of the packet is the scan code.  The later arms of the source's `match`,
for `0x0F`, `0x8F`, `0x39` and `0xB9`, are kept: the first two arms take these bytes.

`Sc1::parse` never leaves the state it starts in, so the `todo!()`s of the other states
are not reached.
-/
import KoeOs.Io.Keyboard

namespace Koe

def keyReserved : KeyCode := 0
def keyBackspace : KeyCode := 14
def keySpace : KeyCode := 57
def keyKpdot : KeyCode := 83
def keyF11 : KeyCode := 87
def keyF12 : KeyCode := 88

/-- Where the parser of scan code set 1 is in a sequence of bytes. -/
inductive Sc1 where
  | normal
  | extra (byte : UInt8)
  | pause (byte : UInt8)
  | command
  deriving DecidableEq, Repr

namespace Sc1

def parseNormal (byte : UInt8) : Option (KeyCode × Bool) :=
  let byte : UInt16 := byte.toUInt16
  if (keyReserved ≤ byte ∧ byte ≤ keyKpdot) ∨ (keyF11 ≤ byte ∧ byte ≤ keyF12) then
    some (byte, true)
  else if (keyReserved + 0x80 ≤ byte ∧ byte ≤ keyKpdot + 0x80) ∨
      (keyF11 + 0x80 ≤ byte ∧ byte ≤ keyF12 + 0x80) then
    some (byte - 0x80, false)
  else if byte = 0x0F then some (keyBackspace, true)
  else if byte = 0x8F then some (keyBackspace, false)
  else if byte = 0x39 then some (keySpace, true)
  else if byte = 0xB9 then some (keySpace, false)
  else none

def parse (byte : UInt8) : Code Sc1 (Option (KeyCode × Bool)) := do
  match ← get with
  | normal => return parseNormal byte
  -- `todo!()`
  | extra _ => throw (.unreachable "not yet implemented")
  | pause _ => throw (.unreachable "not yet implemented")
  | command => throw (.unreachable "not yet implemented")

/-- Feed bytes to `parse`, and collect the packets. -/
def scan : List UInt8 → Code Sc1 (List (KeyCode × Bool))
  | [] => return []
  | byte :: bytes => do
      let packet ← parse byte
      let packets ← scan bytes
      return packet.toList ++ packets

theorem parse_normal (byte : UInt8) : (parse byte).run normal = .ok (parseNormal byte) normal := rfl

/-- From the first state on every sequence of bytes is parsed, one byte at a time. -/
theorem scan_normal (bytes : List UInt8) :
    (scan bytes).run normal = .ok (bytes.filterMap parseNormal) normal := by
  induction bytes with
  | nil => rfl
  | cons byte bytes ih =>
      rw [scan, Code.bind_ok (parse_normal byte), Code.bind_ok ih]
      cases hbyte : parseNormal byte with
      | none => rw [List.filterMap_cons_none hbyte]; rfl
      | some packet => rw [List.filterMap_cons_some hbyte]; rfl

/-- A packet's key is at most the last key code. -/
theorem key_le_of_parseNormal {byte : UInt8} {packet : KeyCode × Bool}
    (h : parseNormal byte = some packet) : packet.1 ≤ keycodeMax := by
  unfold parseNormal at h
  simp only at h
  split_ifs at h with hpress hrelease
  all_goals cases h
  · rcases hpress with ⟨-, hle⟩ | ⟨-, hle⟩
    · exact UInt16.le_trans hle (by decide)
    · exact hle
  · have hlow : (0x80 : UInt16) ≤ byte.toUInt16 := by
      rcases hrelease with ⟨hge, -⟩ | ⟨hge, -⟩
      · exact hge
      · exact UInt16.le_trans (by decide) hge
    have hhigh : byte.toUInt16 ≤ keycodeMax + 0x80 := by
      rcases hrelease with ⟨-, hle⟩ | ⟨-, hle⟩
      · exact UInt16.le_trans hle (by decide)
      · exact hle
    rw [UInt16.le_iff_toNat_le] at hhigh ⊢
    rw [UInt16.toNat_sub_of_le _ _ hlow]
    change _ ≤ 88 + 128 at hhigh
    change _ - 128 ≤ 88
    omega
  all_goals decide

/-- The bitmap of `VirtKeyboard` has a bit for it. -/
theorem key_lt_of_parseNormal {byte : UInt8} {packet : KeyCode × Bool}
    (h : parseNormal byte = some packet) : packet.1.toNat / 64 < statesLen := by
  have hle : packet.1.toNat ≤ 88 := UInt16.le_iff_toNat_le.mp (key_le_of_parseNormal h)
  show packet.1.toNat / 64 < 2
  omega

end Sc1

end Koe
