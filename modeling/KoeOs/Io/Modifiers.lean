/-
# `KoeOs.Io.Modifiers` — the modifiers and the keys that are down

A key is down after a sequence of packets if its last packet was a press.  The bitmap
says so of every key.  The modifiers SHIFT, CTRL and ALT are to say so of theirs, but
SHIFT has two keys and one bit: a release of either clears it.

    left down, right down, left up      the right key is down and SHIFT is not set

The theorem states of every sequence of packets when the two records agree after each
packet.
-/
import KoeOs.Io.Keyboard
import Mathlib.Data.List.Induction
import Mathlib.Data.List.Infix

namespace Koe

/-- The last packet of the key was a press. -/
def isDown (packets : List (KeyCode × Bool)) (key : KeyCode) : Bool :=
  (packets.filter (·.1 = key)).getLast?.elim false (·.2)

theorem isDown_concat (packets : List (KeyCode × Bool)) (packet : KeyCode × Bool) (key : KeyCode) :
    isDown (packets ++ [packet]) key = if packet.1 = key then packet.2 else isDown packets key := by
  by_cases h : packet.1 = key
  · simp [isDown, List.filter_append, h]
  · simp [isDown, List.filter_append, h]

namespace VirtKeyboard

/-- Feed packets to `parse`. -/
def feed (packets : List (KeyCode × Bool)) : Code VirtKeyboard Unit :=
  packets.forM fun packet => do let _ ← parse packet

/-- A release of a shift key while the other is down. -/
def ReleasesOne (packets : List (KeyCode × Bool)) (packet : KeyCode × Bool) : Prop :=
  packet.2 = false ∧
    ((packet.1 = keyLeftshift ∧ isDown packets keyRightshift = true) ∨
      (packet.1 = keyRightshift ∧ isDown packets keyLeftshift = true))

/-- The modifiers agree with the keys that are down, and so does the bitmap. -/
structure Held (packets : List (KeyCode × Bool)) (s : VirtKeyboard) : Prop where
  shift : s.modifier.contains .shift
    = (isDown packets keyLeftshift || isDown packets keyRightshift)
  ctrl : s.modifier.contains .ctrl = isDown packets keyLeftctrl
  alt : s.modifier.contains .alt = isDown packets keyLeftalt
  bitmap : ∀ key, s.bit key = isDown packets key

/-- `parse` returns and the modifiers agree with the keys, after each packet. -/
def HeldThroughout (packets : List (KeyCode × Bool)) : Prop :=
  ∀ before, before <+: packets → ∃ s, (feed before).run .new = .ok () s ∧ Held before s

/-! ## One packet -/

/-- The modifiers that are set as long as a key is down, and those that a press toggles. -/
def heldFlags : List Modifier := [.alt, .ctrl, .shift]

@[inherit_doc heldFlags] def lockFlags : List Modifier := [.capslock, .scrolllock, .numlock]

/-- The modifier that is set as long as the key is down. -/
def flagOf (key : KeyCode) : Option Modifier :=
  if key = keyLeftalt then some .alt
  else if key = keyLeftctrl then some .ctrl
  else if key = keyLeftshift ∨ key = keyRightshift then some .shift
  else none

/-- The keys that have such a modifier. -/
def heldKeys : List (KeyCode × Modifier) :=
  [(keyLeftalt, .alt), (keyLeftctrl, .ctrl), (keyLeftshift, .shift), (keyRightshift, .shift)]

theorem flagOf_eq_some {key : KeyCode} {flag : Modifier} :
    flagOf key = some flag ↔ (key, flag) ∈ heldKeys := by
  constructor
  · intro h
    unfold flagOf at h
    split_ifs at h with halt hctrl hshift
    all_goals cases h
    · rw [halt]; decide
    · rw [hctrl]; decide
    · rcases hshift with rfl | rfl <;> decide
  · intro h
    simp only [heldKeys, List.mem_cons, Prod.mk.injEq, List.not_mem_nil, or_false] at h
    rcases h with ⟨rfl, rfl⟩ | ⟨rfl, rfl⟩ | ⟨rfl, rfl⟩ | ⟨rfl, rfl⟩ <;> rfl

/-- The keys that toggle a modifier when they are pressed. -/
def lockKeys : List (KeyCode × Modifier) :=
  [(keyCapslock, .capslock), (keyScrolllock, .scrolllock), (keyNumlock, .numlock)]

/-- What a packet can do to the modifiers: a key that has a flag sets or clears it; a press of a
lock key toggles its lock; nothing else changes them. -/
theorem nextModifier_cases (m : Modifier) (packet : KeyCode × Bool) :
    (∃ flag ∈ heldFlags, flagOf packet.1 = some flag ∧
      nextModifier m packet = m.set flag packet.2) ∨
    (flagOf packet.1 = none ∧ ∃ lock ∈ lockKeys, packet = (lock.1, true) ∧
      nextModifier m packet = m.toggle lock.2) ∨
    (flagOf packet.1 = none ∧ (∀ lock ∈ lockKeys, packet ≠ (lock.1, true)) ∧
      nextModifier m packet = m) := by
  unfold nextModifier flagOf
  split_ifs with halt hctrl hshift hcaps hscroll hnum
  · exact .inl ⟨.alt, by decide, rfl, rfl⟩
  · exact .inl ⟨.ctrl, by decide, rfl, rfl⟩
  · exact .inl ⟨.shift, by decide, rfl, rfl⟩
  · exact .inr (.inl ⟨rfl, (keyCapslock, .capslock), by decide, Prod.ext hcaps.1 hcaps.2, rfl⟩)
  · exact .inr (.inl ⟨rfl, (keyScrolllock, .scrolllock), by decide,
      Prod.ext hscroll.1 hscroll.2, rfl⟩)
  · exact .inr (.inl ⟨rfl, (keyNumlock, .numlock), by decide, Prod.ext hnum.1 hnum.2, rfl⟩)
  · refine .inr (.inr ⟨rfl, ?_, rfl⟩)
    rintro lock hlock rfl
    simp only [lockKeys, List.mem_cons, List.not_mem_nil, or_false] at hlock
    rcases hlock with rfl | rfl | rfl
    · exact hcaps ⟨rfl, rfl⟩
    · exact hscroll ⟨rfl, rfl⟩
    · exact hnum ⟨rfl, rfl⟩

theorem heldFlags_ne_zero : ∀ flag ∈ heldFlags, flag.bits ≠ 0 := by decide

theorem heldFlags_disjoint : ∀ flag ∈ heldFlags, ∀ other ∈ heldFlags, flag ≠ other →
    flag.bits &&& other.bits = 0 := by decide

theorem lockKeys_flag : ∀ lock ∈ lockKeys, lock.2 ∈ lockFlags := by decide

theorem lockFlags_disjoint : ∀ lock ∈ lockFlags, ∀ flag ∈ heldFlags,
    lock.bits &&& flag.bits = 0 := by decide

theorem contains_nextModifier (m : Modifier) (packet : KeyCode × Bool) {flag : Modifier}
    (hflag : flag ∈ heldFlags) : (nextModifier m packet).contains flag
      = if flagOf packet.1 = some flag then packet.2 else m.contains flag := by
  rcases nextModifier_cases m packet with
    ⟨own, hown, hkey, hnext⟩ | ⟨hkey, lock, hlock, -, hnext⟩ | ⟨hkey, -, hnext⟩
  · rw [hnext, hkey]
    by_cases heq : own = flag
    · rw [if_pos (congrArg some heq), heq]
      exact m.contains_set_self packet.2 (heldFlags_ne_zero flag hflag)
    · rw [if_neg fun h => heq (Option.some.inj h)]
      exact m.contains_set_of_disjoint packet.2 (heldFlags_disjoint own hown flag hflag heq)
  · rw [hnext, hkey, if_neg (Option.some_ne_none flag).symm]
    exact m.contains_toggle_of_disjoint
      (lockFlags_disjoint lock.2 (lockKeys_flag lock hlock) flag hflag)
  · rw [hnext, hkey, if_neg (Option.some_ne_none flag).symm]

/-- The bit of SHIFT is that of the last packet of a shift key. -/
theorem shift_agrees_iff (packets : List (KeyCode × Bool)) (packet : KeyCode × Bool) :
    (if packet.1 = keyLeftshift ∨ packet.1 = keyRightshift then packet.2
      else (isDown packets keyLeftshift || isDown packets keyRightshift))
        = (isDown (packets ++ [packet]) keyLeftshift ||
            isDown (packets ++ [packet]) keyRightshift) ↔
      ¬ ReleasesOne packets packet := by
  rw [isDown_concat, isDown_concat, ReleasesOne]
  by_cases hleft : packet.1 = keyLeftshift
  · have hne : packet.1 ≠ keyRightshift := by rw [hleft]; decide
    cases packet.2 <;> simp [hleft, hleft ▸ hne]
  · by_cases hright : packet.1 = keyRightshift
    · cases packet.2 <;> simp [hright, hright ▸ hleft]
    · simp [hleft, hright]

/-- A packet keeps the records in agreement exactly if it is no release of one shift key under
the other. -/
theorem held_step_iff {packets : List (KeyCode × Bool)} {packet : KeyCode × Bool}
    {s : VirtKeyboard} (hs : Held packets s) (h : packet.1.toNat / 64 < statesLen) :
    Held (packets ++ [packet]) (s.step packet h) ↔ ¬ ReleasesOne packets packet := by
  have hctrl : (s.step packet h).modifier.contains .ctrl
      = isDown (packets ++ [packet]) keyLeftctrl := by
    rw [isDown_concat, ← hs.ctrl]
    exact (contains_nextModifier _ _ (by decide)).trans (by simp +decide [flagOf_eq_some, heldKeys])
  have halt : (s.step packet h).modifier.contains .alt
      = isDown (packets ++ [packet]) keyLeftalt := by
    rw [isDown_concat, ← hs.alt]
    exact (contains_nextModifier _ _ (by decide)).trans (by simp +decide [flagOf_eq_some, heldKeys])
  have hbitmap : ∀ key, (s.step packet h).bit key = isDown (packets ++ [packet]) key := by
    intro key
    rw [isDown_concat, ← hs.bitmap, bit_step]
  have hshift : (s.step packet h).modifier.contains .shift
      = if packet.1 = keyLeftshift ∨ packet.1 = keyRightshift then packet.2
        else (isDown packets keyLeftshift || isDown packets keyRightshift) := by
    rw [← hs.shift]
    exact (contains_nextModifier _ _ (by decide)).trans (by simp +decide [flagOf_eq_some, heldKeys])
  constructor
  · intro hheld
    exact (shift_agrees_iff packets packet).mp (hshift.symm.trans hheld.shift)
  · intro hr
    exact ⟨hshift.trans ((shift_agrees_iff packets packet).mpr hr), hctrl, halt, hbitmap⟩

/-! ## Sequences of packets -/

theorem held_new : Held [] new where
  shift := by decide
  ctrl := by decide
  alt := by decide
  bitmap := by
    intro key
    rw [bit, new, Vector.getElem?_replicate]
    split <;> simp [isDown]

theorem feed_concat (packets : List (KeyCode × Bool)) (packet : KeyCode × Bool) :
    feed (packets ++ [packet]) = feed packets >>= fun _ => (do let _ ← parse packet) :=
  Code.forM_concat ..

/-- One more packet returns if its key has a bit. -/
theorem feed_concat_eq_ok {packets : List (KeyCode × Bool)} {packet : KeyCode × Bool}
    {s t : VirtKeyboard} (hs : (feed packets).run .new = .ok () s) :
    (feed (packets ++ [packet])).run .new = .ok () t ↔
      ∃ h : packet.1.toNat / 64 < statesLen, t = s.step packet h := by
  rw [feed_concat, Code.bind_ok hs]
  by_cases h : packet.1.toNat / 64 < statesLen
  · rw [Code.bind_ok (s.parse_run h)]
    constructor
    · intro ht; cases ht; exact ⟨h, rfl⟩
    · rintro ⟨_, rfl⟩; rfl
  · rw [Code.bind_error (s.parse_error h)]
    exact iff_of_false (by simp) fun ⟨h', _⟩ => h h'

theorem feed_concat_iff {packets : List (KeyCode × Bool)} {packet : KeyCode × Bool}
    {t : VirtKeyboard} : (feed (packets ++ [packet])).run .new = .ok () t ↔
      ∃ s, (feed packets).run .new = .ok () s ∧
        ∃ h : packet.1.toNat / 64 < statesLen, t = s.step packet h := by
  constructor
  · intro ht
    have hrun := ht
    rw [feed_concat] at hrun
    obtain ⟨_, s, hs, -⟩ := Code.bind_eq_ok.mp hrun
    exact ⟨s, hs, (feed_concat_eq_ok hs).mp ht⟩
  · rintro ⟨s, hs, hstep⟩
    exact (feed_concat_eq_ok hs).mpr hstep

theorem heldThroughout_concat (packets : List (KeyCode × Bool)) (packet : KeyCode × Bool) :
    HeldThroughout (packets ++ [packet]) ↔ HeldThroughout packets ∧
      packet.1.toNat / 64 < statesLen ∧ ¬ ReleasesOne packets packet := by
  constructor
  · intro h
    have hpackets : HeldThroughout packets :=
      fun before hb => h before (hb.trans (List.prefix_append _ _))
    obtain ⟨s, hrun, hs⟩ := hpackets packets (List.prefix_refl _)
    obtain ⟨t, hrun', ht⟩ := h (packets ++ [packet]) (List.prefix_refl _)
    obtain ⟨hkey, rfl⟩ := (feed_concat_eq_ok hrun).mp hrun'
    exact ⟨hpackets, hkey, (held_step_iff hs hkey).mp ht⟩
  · rintro ⟨hpackets, hkey, hr⟩ before hb
    rcases List.prefix_concat_iff.mp hb with rfl | hb
    · obtain ⟨s, hrun, hs⟩ := hpackets packets (List.prefix_refl _)
      exact ⟨_, (feed_concat_eq_ok hrun).mpr ⟨hkey, rfl⟩, (held_step_iff hs hkey).mpr hr⟩
    · exact hpackets before hb

/-- Somewhere in the sequence a shift key is released while the other is down. -/
def OverlappingShifts (packets : List (KeyCode × Bool)) : Prop :=
  ∃ before packet, before ++ [packet] <+: packets ∧ ReleasesOne before packet

theorem overlappingShifts_concat {packets : List (KeyCode × Bool)} {packet : KeyCode × Bool} :
    OverlappingShifts (packets ++ [packet]) ↔
      OverlappingShifts packets ∨ ReleasesOne packets packet := by
  constructor
  · rintro ⟨before, last, hprefix, hr⟩
    rcases List.prefix_concat_iff.mp hprefix with heq | hprefix
    · obtain ⟨rfl, hlast⟩ := List.append_inj' heq rfl
      cases List.singleton_inj.mp hlast
      exact .inr hr
    · exact .inl ⟨before, last, hprefix, hr⟩
  · rintro (⟨before, last, hprefix, hr⟩ | hr)
    · exact ⟨before, last, hprefix.trans (List.prefix_append _ _), hr⟩
    · exact ⟨packets, packet, List.prefix_refl _, hr⟩

/-- The modifiers agree with the keys after each packet exactly if every key has a bit in the
bitmap and no shift key is released while the other is down. -/
theorem heldThroughout_iff (packets : List (KeyCode × Bool)) :
    HeldThroughout packets ↔
      (∀ packet ∈ packets, packet.1.toNat / 64 < statesLen) ∧ ¬ OverlappingShifts packets := by
  induction packets using List.reverseRecOn with
  | nil =>
      refine iff_of_true ?_ ⟨fun _ h => absurd h List.not_mem_nil, ?_⟩
      · intro before hb
        rw [List.prefix_nil.mp hb]
        exact ⟨new, rfl, held_new⟩
      · rintro ⟨before, packet, hb, -⟩
        exact absurd (List.prefix_nil.mp hb) (by simp)
  | append_singleton packets packet ih =>
      rw [heldThroughout_concat, ih, overlappingShifts_concat, List.forall_mem_append,
        List.forall_mem_singleton, not_or]
      tauto

/-- Left down, right down, left up: the right key is down and SHIFT is not set. -/
theorem shift_lost :
    (∃ s, (feed [(keyLeftshift, true), (keyRightshift, true), (keyLeftshift, false)]).run .new
        = .ok () s ∧ s.bit keyRightshift = true ∧ s.modifier.contains .shift = false) ∧
      ¬ HeldThroughout [(keyLeftshift, true), (keyRightshift, true), (keyLeftshift, false)] := by
  refine ⟨⟨_, rfl, by decide, by decide⟩, fun h => ?_⟩
  have hlast := (heldThroughout_concat [(keyLeftshift, true), (keyRightshift, true)]
    (keyLeftshift, false)).mp h
  exact hlast.2.2 ⟨rfl, .inl ⟨rfl, by decide⟩⟩

end VirtKeyboard

end Koe
