/-
# `KoeOs.Io.Locks` — the lock keys

CAPSLOCK, SCROLLLOCK and NUMLOCK are to change each time their key goes down.  `update`
toggles them at every packet that is a press, and the keyboard repeats the press while
a key is held:

    down                   CAPSLOCK set
    down, down             the key went down once, and CAPSLOCK is not set

A press is a transition if the key was up and a repeat if it was down already.  The
modifier is the parity of all presses, so it is the parity of the transitions exactly
if the number of repeats is even.
-/
import KoeOs.Io.Modifiers
import KoeOs.Drivers.Ps2

namespace Koe

/-- The number of presses of a key that find it up, or down. -/
def pressesWhen (down : Bool) (packets : List (KeyCode × Bool)) (key : KeyCode) : ℕ :=
  (List.range packets.length).countP fun i =>
    packets[i]? = some (key, true) ∧ isDown (packets.take i) key = down

/-- The number of times a key goes from up to down. -/
def transitions (packets : List (KeyCode × Bool)) (key : KeyCode) : ℕ :=
  pressesWhen false packets key

/-- The number of presses of a key that is down already. -/
def repeats (packets : List (KeyCode × Bool)) (key : KeyCode) : ℕ :=
  pressesWhen true packets key

theorem pressesWhen_concat (down : Bool) (packets : List (KeyCode × Bool))
    (packet : KeyCode × Bool) (key : KeyCode) :
    pressesWhen down (packets ++ [packet]) key = pressesWhen down packets key +
      if packet = (key, true) ∧ isDown packets key = down then 1 else 0 := by
  unfold pressesWhen
  rw [List.length_append, List.length_singleton, List.range_succ, List.countP_append,
    List.countP_singleton]
  congr 1
  · refine List.countP_congr fun i hi => ?_
    have hlt : i < packets.length := List.mem_range.mp hi
    rw [List.getElem?_append_left hlt, List.take_append_of_le_length (Nat.le_of_lt hlt)]
  · simp

/-- Every press is a transition or a repeat. -/
theorem count_press (packets : List (KeyCode × Bool)) (key : KeyCode) :
    packets.count (key, true) = transitions packets key + repeats packets key := by
  induction packets using List.reverseRecOn with
  | nil => rfl
  | append_singleton packets packet ih =>
      rw [List.count_append, ih, transitions, transitions, repeats, repeats, pressesWhen_concat,
        pressesWhen_concat, List.count_singleton]
      by_cases hpress : packet = (key, true)
      · cases isDown packets key with
        | false =>
            simp [hpress]
            omega
        | true =>
            simp [hpress]
            omega
      · simp [hpress]

namespace VirtKeyboard

/-- Each lock modifier is the parity of the transitions of its key. -/
def Locked (packets : List (KeyCode × Bool)) (s : VirtKeyboard) : Prop :=
  ∀ lock ∈ lockKeys, s.modifier.contains lock.2 = decide (transitions packets lock.1 % 2 = 1)

/-- `parse` returns on every packet, and the lock modifiers are right in the end. -/
def LocksToggled (packets : List (KeyCode × Bool)) : Prop :=
  ∃ s, (feed packets).run .new = .ok () s ∧ Locked packets s

/-! ## One packet -/

theorem lockFlags_bit : ∀ lock ∈ lockFlags, ∃ i < 8, lock.bits = BitVec.twoPow 8 i := by decide

theorem lockKeys_injective : ∀ lock ∈ lockKeys, ∀ other ∈ lockKeys, lock.1 = other.1 →
    lock = other := by decide

theorem lockKeys_disjoint : ∀ lock ∈ lockKeys, ∀ other ∈ lockKeys, lock ≠ other →
    lock.2.bits &&& other.2.bits = 0 := by decide

/-- No lock key is a key that has a flag. -/
theorem flagOf_lockKeys : ∀ lock ∈ lockKeys, flagOf lock.1 = none := by decide

/-- A lock is toggled by the presses of its key and by nothing else. -/
theorem contains_lock_nextModifier (m : Modifier) (packet : KeyCode × Bool)
    {lock : KeyCode × Modifier} (hlock : lock ∈ lockKeys) :
    (nextModifier m packet).contains lock.2
      = if packet = (lock.1, true) then !m.contains lock.2 else m.contains lock.2 := by
  have hflag := lockKeys_flag lock hlock
  rcases nextModifier_cases m packet with
    ⟨flag, hheld, hkey, hnext⟩ | ⟨-, own, hown, hpress, hnext⟩ | ⟨-, hno, hnext⟩
  · have hne : packet ≠ (lock.1, true) := by
      rintro rfl
      exact nomatch (flagOf_lockKeys lock hlock).symm.trans hkey
    rw [hnext, if_neg hne]
    refine m.contains_set_of_disjoint packet.2 ?_
    rw [BitVec.and_comm]
    exact lockFlags_disjoint lock.2 hflag flag hheld
  · rw [hnext]
    by_cases heq : own = lock
    · obtain ⟨i, hi, hbit⟩ := lockFlags_bit lock.2 hflag
      rw [if_pos (by rw [hpress, heq]), heq]
      exact m.contains_toggle_self hi hbit
    · have hne : packet ≠ (lock.1, true) := fun h =>
        heq (lockKeys_injective own hown lock hlock (Prod.ext_iff.mp (hpress.symm.trans h)).1)
      rw [if_neg hne]
      exact m.contains_toggle_of_disjoint (lockKeys_disjoint own hown lock hlock heq)
  · rw [hnext, if_neg (hno lock hlock)]

/-! ## Sequences of packets -/

/-- A sequence is taken to its end exactly if every key has a bit in the bitmap. -/
theorem feed_returns_iff (packets : List (KeyCode × Bool)) :
    (∃ s, (feed packets).run .new = .ok () s) ↔
      ∀ packet ∈ packets, packet.1.toNat / 64 < statesLen := by
  induction packets using List.reverseRecOn with
  | nil => exact iff_of_true ⟨new, rfl⟩ fun _ h => absurd h List.not_mem_nil
  | append_singleton packets packet ih =>
      rw [List.forall_mem_append, List.forall_mem_singleton, ← ih]
      constructor
      · rintro ⟨t, ht⟩
        obtain ⟨s, hs, hkey, -⟩ := feed_concat_iff.mp ht
        exact ⟨⟨s, hs⟩, hkey⟩
      · rintro ⟨⟨s, hs⟩, hkey⟩
        exact ⟨_, feed_concat_iff.mpr ⟨s, hs, hkey, rfl⟩⟩

theorem contains_lock_new : ∀ lock ∈ lockKeys, new.modifier.contains lock.2 = false := by decide

/-- A lock modifier is the parity of all presses of its key. -/
theorem contains_lock_feed {packets : List (KeyCode × Bool)} {s : VirtKeyboard}
    (h : (feed packets).run .new = .ok () s) {lock : KeyCode × Modifier}
    (hlock : lock ∈ lockKeys) :
    s.modifier.contains lock.2 = decide (packets.count (lock.1, true) % 2 = 1) := by
  induction packets using List.reverseRecOn generalizing s with
  | nil =>
      cases h
      rw [contains_lock_new lock hlock]
      rfl
  | append_singleton packets packet ih =>
      obtain ⟨t, ht, hkey, rfl⟩ := feed_concat_iff.mp h
      show (nextModifier t.modifier packet).contains lock.2 = _
      rw [contains_lock_nextModifier _ _ hlock, ih ht, List.count_append, List.count_singleton]
      by_cases hpress : packet = (lock.1, true)
      · rw [if_pos hpress, if_pos (beq_iff_eq.mpr hpress), ← decide_not, decide_eq_decide]
        omega
      · rw [if_neg hpress, if_neg (by simpa using hpress), Nat.add_zero]

/-- The presses that are no transitions have to cancel out. -/
theorem locked_iff {packets : List (KeyCode × Bool)} {s : VirtKeyboard}
    (h : (feed packets).run .new = .ok () s) :
    Locked packets s ↔ ∀ lock ∈ lockKeys, repeats packets lock.1 % 2 = 0 := by
  refine forall₂_congr fun lock hlock => ?_
  rw [contains_lock_feed h hlock, decide_eq_decide, count_press]
  omega

/-- The lock modifiers are the parities of the transitions exactly if each lock key was repeated
an even number of times. -/
theorem locksToggled_iff (packets : List (KeyCode × Bool)) :
    LocksToggled packets ↔ (∀ packet ∈ packets, packet.1.toNat / 64 < statesLen) ∧
      ∀ lock ∈ lockKeys, repeats packets lock.1 % 2 = 0 := by
  rw [← feed_returns_iff]
  constructor
  · rintro ⟨s, hs, hlocked⟩
    exact ⟨⟨s, hs⟩, (locked_iff hs).mp hlocked⟩
  · rintro ⟨⟨s, hs⟩, heven⟩
    exact ⟨s, hs, (locked_iff hs).mpr heven⟩

/-- The make code of CAPSLOCK twice, as a key that is held sends it: it went down once, and the
modifier is not set. -/
theorem capslock_repeated : ∃ packets s,
    (Sc1.scan [0x3A, 0x3A]).run .normal = .ok packets .normal ∧
      (feed packets).run .new = .ok () s ∧ transitions packets keyCapslock = 1 ∧
      s.modifier.contains .capslock = false ∧ ¬ LocksToggled packets := by
  refine ⟨[(keyCapslock, true), (keyCapslock, true)], _, rfl, rfl, rfl, by decide, ?_⟩
  rintro ⟨s, hs, hlocked⟩
  have hset := hlocked (keyCapslock, .capslock) (by decide)
  cases hs
  exact absurd hset (by decide)

/-- What the bytes of the controller are parsed to is always taken to the end, so there the
repeats decide alone. -/
theorem locksToggled_scan_iff (bytes : List UInt8) :
    ∃ packets, (Sc1.scan bytes).run .normal = .ok packets .normal ∧
      (LocksToggled packets ↔ ∀ lock ∈ lockKeys, repeats packets lock.1 % 2 = 0) := by
  refine ⟨_, Sc1.scan_normal bytes, ?_⟩
  obtain ⟨s, hs⟩ := (feed_returns_iff (bytes.filterMap Sc1.parseNormal)).mpr fun packet hmem => by
    obtain ⟨byte, -, hbyte⟩ := List.mem_filterMap.mp hmem
    exact Sc1.key_lt_of_parseNormal hbyte
  rw [← locked_iff hs]
  constructor
  · rintro ⟨t, ht, hlocked⟩
    cases hs.symm.trans ht
    exact hlocked
  · intro hlocked
    exact ⟨s, hs, hlocked⟩

end VirtKeyboard

end Koe
