/-
# `KoeOs.Paging.EntryRecord` — an entry as a record

An entry keeps an address and flags in one word.  `EntryRecord` keeps them apart, and
`Represents` says that a word holds a record:

    bits 9 and up    the address, which is aligned to what the entry refers to
    bit of a flag    its last value

`set_addr` and `set_flags` write one of the two and leave the other; they write nothing if
they return `false`.  So after a `reinit` that succeeded the word represents the record
through any sequence of calls (`Run.represents`).

A `reinit` that returns `None` may have written: the flags are in the word before `set_addr`
looks at the address (`reinit_all_or_nothing_iff`).
-/
import KoeOs.Paging.Entry

namespace Koe

namespace Entry

/-! ## Bits -/

/-- The order of what `set_addr` aligns the address to. -/
def addrOrder (level : Level) (pageSizeBit : Bool) : ℕ :=
  match level, pageSizeBit with
  | .pdpt, true => 30
  | .pd, true => 21
  | _, _ => 12

theorem addrOrder_mem (level : Level) (pageSizeBit : Bool) :
    12 ≤ addrOrder level pageSizeBit ∧ addrOrder level pageSizeBit ≤ 48 := by
  cases level <;> cases pageSizeBit <;> decide

/-- The mask of `set_addr` clears the bits of the address. -/
theorem testBit_addrMask {k : ℕ} (hk : k ≤ 48) (i : ℕ) :
    (Usize.modulus - 1 - (2 ^ 48 - 2 ^ k)).testBit i
      = (decide (i < 64) && !(decide (k ≤ i) && decide (i < 48))) := by
  have hle : 2 ^ k ≤ 2 ^ 48 := Nat.pow_le_pow_right (by decide) hk
  have hmask : Usize.modulus - 1 - (2 ^ 48 - 2 ^ k) = 2 ^ 64 - (2 ^ 48 - 2 ^ k + 1) := by
    rw [Usize.modulus, Usize.bits]
    omega
  have hshift : 2 ^ 48 - 2 ^ k = (2 ^ (48 - k) - 1) <<< k := by
    rw [Nat.shiftLeft_eq, Nat.sub_mul, ← Nat.pow_add, Nat.sub_add_cancel hk, Nat.one_mul]
  have hlt : 2 ^ 48 - 2 ^ k < 2 ^ 64 := Nat.lt_of_le_of_lt (Nat.sub_le _ _) (by decide)
  rw [hmask, Nat.testBit_two_pow_sub_succ hlt, hshift, Nat.testBit_shiftLeft,
    Nat.testBit_two_pow_sub_one]
  by_cases hki : k ≤ i
  · have hlt : i - k < 48 - k ↔ i < 48 := by omega
    simp only [hlt]
  · simp [hki]

/-- One bit of a word, written. -/
theorem testBit_setBit {raw idx : ℕ} (hraw : ∀ i, 64 ≤ i → raw.testBit i = false)
    (hidx : idx < 64) (value : Bool) (i : ℕ) :
    (setBit raw idx value).testBit i = if i = idx then value else raw.testBit i := by
  have hpow : 2 ^ idx < 2 ^ 64 := Nat.pow_lt_pow_right (by decide) hidx
  cases value with
  | true =>
      rw [setBit, if_pos rfl, Nat.testBit_or, Nat.one_shiftLeft, Nat.testBit_two_pow]
      by_cases hi : i = idx
      · simp [hi]
      · simp [hi, Ne.symm hi]
  | false =>
      have hmask : Usize.modulus - 1 - 1 <<< idx = 2 ^ 64 - (2 ^ idx + 1) := by
        rw [Usize.modulus, Usize.bits, Nat.one_shiftLeft]
        omega
      rw [setBit, if_neg Bool.false_ne_true, hmask, Nat.testBit_and,
        Nat.testBit_two_pow_sub_succ hpow, Nat.testBit_two_pow]
      by_cases hi : i = idx
      · simp [hi]
      · by_cases h64 : i < 64
        · simp [hi, Ne.symm hi, h64]
        · simp [hi, hraw i (Nat.le_of_not_lt h64)]

theorem testBit_of_dvd {a k i : ℕ} (ha : 2 ^ k ∣ a) (hi : i < k) : a.testBit i = false := by
  obtain ⟨q, rfl⟩ := ha
  rw [Nat.testBit_two_pow_mul, decide_eq_false (by omega), Bool.false_and]

/-- The address, read back from the bits from `k` to 47. -/
theorem and_mask_of_bits {raw a k : ℕ} (hk : 9 ≤ k) (hk' : k ≤ 48)
    (hbits : ∀ i, 9 ≤ i → raw.testBit i = a.testBit i) (ha : 2 ^ k ∣ a) (hlt : a < 2 ^ 48) :
    raw &&& (2 ^ (48 - k) - 1) <<< k = a := by
  refine Nat.eq_of_testBit_eq fun i => ?_
  rw [Nat.testBit_and, Nat.testBit_shiftLeft, Nat.testBit_two_pow_sub_one]
  by_cases hki : k ≤ i
  · rw [hbits i (by omega)]
    by_cases hi : i < 48
    · simp [hki, (by omega : i - k < 48 - k)]
    · have hzero : a.testBit i = false := Nat.testBit_lt_two_pow
        (Nat.lt_of_lt_of_le hlt (Nat.pow_le_pow_right (by decide) (by omega)))
      simp [hzero]
  · simp [hki, testBit_of_dvd ha (Nat.lt_of_not_le hki)]

/-! ## `set_addr` and `reinit`, on every word -/

variable {level : Level} {flags : List Flag} {raw data : ℕ} {addr : Addr uma}

/-- What `set_addr` does once it knows the alignment. -/
theorem setAddr_alignment (align : ℕ) (addr : Addr uma) (raw : ℕ) :
    (do if !addr.isAlignedTo align then return false
        set (raw &&& (Usize.modulus - 1 - (2 ^ 48 - align)) ||| addr.value)
        return true : Code ℕ Bool).run raw
      = if align ∣ addr.value then
          .ok true (raw &&& (Usize.modulus - 1 - (2 ^ 48 - align)) ||| addr.value)
        else .ok false raw := by
  by_cases hal : align ∣ addr.value
  · have hbool : addr.isAlignedTo align = true := beq_iff_eq.mpr (Nat.mod_eq_zero_of_dvd hal)
    rw [hbool, if_pos hal]
    rfl
  · have hbool : addr.isAlignedTo align = false :=
      beq_eq_false_iff_ne.mpr fun h => hal (Nat.dvd_of_mod_eq_zero h)
    rw [hbool, if_neg hal]
    rfl

/-- `set_addr` on an entry that refers to something. -/
theorem setAddr_run (h : InSpace level raw) (hdec : decode level raw ≠ .none) (addr : Addr uma) :
    (setAddr level addr).run raw
      = if 2 ^ addrOrder level (raw.testBit 7) ∣ addr.value then
          .ok true (raw &&& (Usize.modulus - 1 - (2 ^ 48 - 2 ^ addrOrder level (raw.testBit 7)))
            ||| addr.value)
        else .ok false raw := by
  rw [setAddr, Code.get_bind, Code.bind_ok (target_run h raw)]
  cases level with
  | cr3 => exact setAddr_alignment (2 ^ 12) addr raw
  | pml4 | pt =>
      cases hp : raw.testBit 0 with
      | false => exact absurd ((decode_eq_none (by decide)).mpr hp) hdec
      | true =>
          simp only [decode, hp, if_true]
          exact setAddr_alignment (2 ^ 12) addr raw
  | pdpt | pd =>
      cases hp : raw.testBit 0 with
      | false => exact absurd ((decode_eq_none (by decide)).mpr hp) hdec
      | true =>
          cases hs : raw.testBit 7 with
          | false =>
              simp only [decode, hp, hs, if_true]
              exact setAddr_alignment (2 ^ 12) addr raw
          | true =>
              simp only [decode, hp, hs, if_true]
              exact setAddr_alignment _ addr raw

/-- The word of valid flags has their bits. -/
theorem testBit_flagBits_iff {presentBit pageSizeBit : Bool}
    (h : flagBits level presentBit pageSizeBit flags = some data) (i : ℕ) :
    data.testBit i = true ↔ ∃ f ∈ flags, f.bit = i := by
  have hvalid := flagBits_isSome.mp (Option.isSome_of_eq_some h)
  rw [testBit_flagBits h]
  refine exists_congr fun f => and_congr_right fun hf => ?_
  obtain ⟨j, hj⟩ := Option.isSome_iff_exists.mp (hvalid f hf)
  rw [hj, idx_eq_bit hj, Option.some_inj]

theorem testBit_flagBits_bit {presentBit pageSizeBit : Bool}
    (h : flagBits level presentBit pageSizeBit flags = some data) (f : Flag) :
    data.testBit f.bit = decide (f ∈ flags) := by
  refine Bool.eq_iff_iff.mpr ?_
  rw [testBit_flagBits_iff h, decide_eq_true_iff]
  constructor
  · rintro ⟨g, hg, hbit⟩
    rwa [← Flag.bit_injective hbit]
  · intro hf
    exact ⟨f, hf, rfl⟩

/-- `set_addr` takes the address for an entry of these flags. -/
def Takes (level : Level) (addr : Addr uma) (flags : List Flag) : Prop :=
  (level = .cr3 ∨ .present ∈ flags) ∧ 2 ^ addrOrder level (flags.contains .pageSize) ∣ addr.value

section Reinit

variable (h : flagBits level (flags.contains .present) (flags.contains .pageSize) flags = some data)
include h

theorem decode_flagBits_ne_none : decode level data ≠ .none ↔ level = .cr3 ∨ .present ∈ flags := by
  by_cases hl : level = .cr3
  · subst hl
    exact iff_of_true (by simp [decode]) (.inl rfl)
  · have hbit : data.testBit 0 = decide (.present ∈ flags) := testBit_flagBits_bit h .present
    rw [Ne, decode_eq_none hl, hbit]
    simp [hl]

theorem testBit_seven_flagBits : data.testBit 7 = flags.contains .pageSize :=
  (testBit_flagBits_bit h .pageSize).trans (List.contains_eq_mem _ _).symm

theorem and_addrMask_flagBits {k : ℕ} (hk : 12 ≤ k) (hk' : k ≤ 48) :
    data &&& (Usize.modulus - 1 - (2 ^ 48 - 2 ^ k)) = data := by
  refine Nat.eq_of_testBit_eq fun i => ?_
  rw [Nat.testBit_and, testBit_addrMask hk']
  by_cases hi : i < 9
  · rw [decide_eq_true (by omega : i < 64), decide_eq_false (by omega : ¬ k ≤ i)]
    simp
  · have hzero : data.testBit i = false := Nat.testBit_lt_two_pow
      (Nat.lt_of_lt_of_le (flagBits_lt h) (Nat.pow_le_pow_right (by decide) (by omega)))
    simp [hzero]

/-- Flags and an address that go together are written. -/
theorem reinit_taken (htakes : Takes level addr flags) (raw : ℕ) :
    (reinit level addr flags).run raw = .ok (some ()) (data ||| addr.value) := by
  have hset := setAddr_run (inSpace_of_flags (flagBits_lt h))
    ((decode_flagBits_ne_none h).mpr htakes.1) addr
  obtain ⟨hk, hk'⟩ := addrOrder_mem level (flags.contains .pageSize)
  rw [testBit_seven_flagBits h, if_pos htakes.2, and_addrMask_flagBits h hk hk'] at hset
  exact reinit_of_setAddr h hset raw

/-- Otherwise the flags are written, and the address is not. -/
theorem reinit_refused (hrefuses : ¬ Takes level addr flags) (raw : ℕ) :
    (reinit level addr flags).run raw = .ok none data := by
  by_cases hdec : decode level data = .none
  · exact reinit_of_setAddr h (setAddr_none (flagBits_lt h) hdec addr) raw
  · have hset := setAddr_run (inSpace_of_flags (flagBits_lt h)) hdec addr
    have hal : ¬ 2 ^ addrOrder level (flags.contains .pageSize) ∣ addr.value := fun hal =>
      hrefuses ⟨(decode_flagBits_ne_none h).mp hdec, hal⟩
    rw [testBit_seven_flagBits h, if_neg hal] at hset
    exact reinit_of_setAddr h hset raw

end Reinit

/-! ## When `reinit` returns `None` -/

/-- A `reinit`, or an `init`, that returns `None` has left the word as it was. -/
def AllOrNothing (level : Level) (addr : Addr uma) (flags : List Flag) (raw : ℕ) : Prop :=
  (∀ raw', (reinit level addr flags).run raw = .ok none raw' → raw' = raw) ∧
    ∀ raw', (init level addr flags).run raw = .ok none raw' → raw' = raw

/-- `init` fails when `reinit` does, with the same word. -/
theorem init_eq_none {raw' : ℕ} : (init level addr flags).run raw = .ok none raw' ↔
    (reinit level addr flags).run raw = .ok none raw' := by
  rw [init, Code.bind_eq_ok]
  constructor
  · rintro ⟨res, _, hrun, h⟩
    cases res with
    | none =>
        cases h
        exact hrun
    | some u => cases h
  · intro hrun
    exact ⟨none, raw', hrun, rfl⟩

/-- Where the flags are valid, their bits are the word. -/
theorem eq_flagBits_iff {presentBit pageSizeBit : Bool}
    (h : flagBits level presentBit pageSizeBit flags = some data) :
    data = raw ↔ ∀ i, raw.testBit i = true ↔ ∃ f ∈ flags, f.bit = i := by
  constructor
  · rintro rfl
    exact testBit_flagBits_iff h
  · intro hraw
    refine Nat.eq_of_testBit_eq fun i => Bool.eq_iff_iff.mpr ?_
    rw [testBit_flagBits_iff h, hraw]

/-- It has done so just if a flag has no bit at this level, or if there is nothing to fail for, or
if the word happened to be that of the flags. -/
theorem reinit_all_or_nothing_iff (level : Level) (addr : Addr uma) (flags : List Flag) (raw : ℕ) :
    AllOrNothing level addr flags raw ↔
      (∃ f ∈ flags, f.idx level (flags.contains .present) (flags.contains .pageSize) = none) ∨
      Takes level addr flags ∨ ∀ i, raw.testBit i = true ↔ ∃ f ∈ flags, f.bit = i := by
  simp only [AllOrNothing, init_eq_none, and_self]
  cases h : flagBits level (flags.contains .present) (flags.contains .pageSize) flags with
  | none =>
      have hbad : ∃ f ∈ flags,
          f.idx level (flags.contains .present) (flags.contains .pageSize) = none := by
        by_contra hall
        push Not at hall
        have hsome := flagBits_isSome.mpr fun f hf => Option.isSome_iff_ne_none.mpr (hall f hf)
        rw [h] at hsome
        cases hsome
      refine iff_of_true (fun raw' hrun => ?_) (.inl hbad)
      cases (reinit_invalid h addr raw).symm.trans hrun
      rfl
  | some data =>
      have hvalid := flagBits_isSome.mp (Option.isSome_of_eq_some h)
      have hgood : ¬ ∃ f ∈ flags,
          f.idx level (flags.contains .present) (flags.contains .pageSize) = none := by
        rintro ⟨f, hf, hnone⟩
        exact absurd (hvalid f hf) (by rw [hnone]; decide)
      by_cases htakes : Takes level addr flags
      · refine iff_of_true (fun raw' hrun => ?_) (.inr (.inl htakes))
        cases (reinit_taken h htakes raw).symm.trans hrun
      · have hrefused := reinit_refused h htakes raw
        constructor
        · intro hall
          exact .inr (.inr ((eq_flagBits_iff h).mp (hall data hrefused)))
        · rintro (hbad | htakes' | hsame) raw' hrun
          · exact absurd hbad hgood
          · exact absurd htakes' htakes
          · cases hrefused.symm.trans hrun
            exact (eq_flagBits_iff h).mpr hsame

/-- A page at `0x5000`, to be replaced by one at an address that is not aligned: `reinit` returns
`None`, and leaves an entry that refers to the page at 0. -/
theorem reinit_writes_none :
    (reinit .pt ⟨0x6008⟩ [.present, .readWrite]).run 0x5003 = .ok none 3 ∧
      (init .pt ⟨0x6008⟩ [.present, .readWrite]).run 0x5003 = .ok none 3 ∧
      decode .pt 0x5003 = .page .pt ⟨0x5000⟩ ∧ decode .pt 3 = .page .pt ⟨0⟩ := by
  decide +kernel

end Entry

/-! ## The record -/

/-- What the calls have said an entry is: the last address, and the last value of each flag. -/
structure EntryRecord where
  addr : Addr uma
  flags : Flag → Bool

namespace EntryRecord

/-- What an entry of this level refers to. -/
def target (level : Level) (r : EntryRecord) : EntryTarget :=
  match level, r.flags .pageSize with
  | .cr3, _ => .table .pml4 r.addr
  | .pml4, _ => .table .pdpt r.addr
  | .pdpt, false => .table .pd r.addr
  | .pdpt, true => .page .pdpt r.addr
  | .pd, false => .table .pt r.addr
  | .pd, true => .page .pd r.addr
  | .pt, _ => .page .pt r.addr

/-- The value of a flag, if an entry of this level and kind has it. -/
def flag (level : Level) (r : EntryRecord) (f : Flag) : Option Bool :=
  if (f.idx level (r.flags .present) (r.flags .pageSize)).isSome then some (r.flags f) else none

/-- The record after some flags were set to `value`. -/
def setFlags (r : EntryRecord) (flags : List Flag) (value : Bool) : EntryRecord :=
  { r with flags := fun f => if f ∈ flags then value else r.flags f }

end EntryRecord

/-- A call on an entry. -/
inductive EntryCall where
  | reinit (addr : Addr uma) (flags : List Flag)
  | setAddr (addr : Addr uma)
  | setFlags (flags : List Flag) (value : Bool)

namespace EntryCall

/-- Run the call on the word of an entry; whether it succeeded. -/
def run (level : Level) : EntryCall → Code ℕ Bool
  | .reinit addr flags => do return (← Entry.reinit level addr flags).isSome
  | .setAddr addr => Entry.setAddr level addr
  | .setFlags flags value => Entry.setFlags level flags value

/-- What a call that succeeds does to the record. -/
def apply : EntryCall → EntryRecord → EntryRecord
  | .reinit addr flags, _ => ⟨addr, fun f => decide (f ∈ flags)⟩
  | .setAddr addr, r => { r with addr }
  | .setFlags flags value, r => r.setFlags flags value

/-- The address of the call is one of physical memory, as an `Addr<UMASpace>` is. -/
def InSpace : EntryCall → Prop
  | .reinit addr _ => addr.value < uma.stop
  | .setAddr addr => addr.value < uma.stop
  | .setFlags _ _ => True

/-- The call is no `reinit`. -/
def IsSet : EntryCall → Prop
  | .reinit _ _ => False
  | .setAddr _ => True
  | .setFlags _ _ => True

end EntryCall

namespace Entry

/-- The word holds the record. -/
structure Represents (level : Level) (r : EntryRecord) (raw : ℕ) : Prop where
  addr_lt : r.addr.value < uma.stop
  aligned : 2 ^ addrOrder level (r.flags .pageSize) ∣ r.addr.value
  present : level ≠ .cr3 → r.flags .present = true
  high : ∀ i, 9 ≤ i → raw.testBit i = r.addr.value.testBit i
  bits : ∀ f : Flag, raw.testBit f.bit = r.flags f

namespace Represents

variable {level : Level} {r : EntryRecord} {raw : ℕ} (h : Represents level r raw)
include h

theorem aligned_page : 2 ^ 12 ∣ r.addr.value :=
  Nat.dvd_trans (Nat.pow_dvd_pow 2 (addrOrder_mem level _).1) h.aligned

theorem addr_lt_field : r.addr.value < 2 ^ 48 := Nat.lt_of_lt_of_le h.addr_lt (by decide)

theorem field_eq : field raw = r.addr.value := by
  rw [← and_tableMask]
  exact and_mask_of_bits (k := 12) (by decide) (by decide) h.high h.aligned_page h.addr_lt_field

theorem largeField_eq (hlarge : 2 ^ 21 ∣ r.addr.value) : largeField raw = r.addr.value := by
  rw [← and_pageMask]
  exact and_mask_of_bits (k := 13) (by decide) (by decide) h.high
    (Nat.dvd_trans (by decide) hlarge) h.addr_lt_field

theorem inSpace : InSpace level raw := fun _ => h.field_eq.symm ▸ h.addr_lt

theorem testBit_present (hl : level ≠ .cr3) : raw.testBit 0 = true :=
  (h.bits .present).trans (h.present hl)

theorem testBit_pageSize : raw.testBit 7 = r.flags .pageSize := h.bits .pageSize

/-- The entry refers to what the record says. -/
theorem decode_eq : decode level raw = r.target level := by
  have hseven := h.testBit_pageSize
  have hal := h.aligned
  cases level with
  | cr3 => rw [decode, EntryRecord.target, h.field_eq]
  | pml4 | pt => rw [decode, if_pos (h.testBit_present (by decide)), EntryRecord.target, h.field_eq]
  | pdpt | pd =>
      rw [decode, if_pos (h.testBit_present (by decide)), hseven]
      cases hsize : r.flags .pageSize with
      | false => simp only [EntryRecord.target, hsize, h.field_eq, Bool.false_eq_true, if_false]
      | true =>
          rw [hsize] at hal
          have hlarge := h.largeField_eq (Nat.dvd_trans (by decide) hal)
          simp only [EntryRecord.target, hsize, hlarge, if_true]

theorem target_ne_none : decode level raw ≠ .none := by
  by_cases hl : level = .cr3
  · subst hl
    simp [decode]
  · rw [Ne, decode_eq_none hl, h.testBit_present hl]
    exact Bool.true_eq_false_eq_False

/-- The bit of a flag is looked up under what the record says. -/
theorem getFlagIdx_eq (f : Flag) :
    getFlagIdx ⟨level, raw⟩ f = f.idx level (r.flags .present) (r.flags .pageSize) := by
  have hseven := h.testBit_pageSize
  cases level with
  | cr3 => rfl
  | pml4 | pt =>
      have hzero := h.testBit_present (by decide)
      rw [h.present (by decide)]
      cases f <;> simp [getFlagIdx, Flag.idx, Flag.pml4Idx, Flag.ptIdx, hzero]
  | pdpt | pd =>
      have hzero := h.testBit_present (by decide)
      rw [h.present (by decide), ← hseven]
      simp [getFlagIdx, Flag.idx, Flag.pdptIdx, Flag.pdIdx, Flag.directoryIdx, hzero]

theorem flag_eq (f : Flag) : flag ⟨level, raw⟩ f = r.flag level f := by
  rw [flag, h.getFlagIdx_eq, EntryRecord.flag]
  cases hidx : f.idx level (r.flags .present) (r.flags .pageSize) with
  | none => rfl
  | some i =>
      rw [Option.map_some, idx_eq_bit hidx, h.bits]
      rfl

/-- A new address, with the flags left as they are. -/
theorem setAddr {addr : Addr uma} (hlt : addr.value < uma.stop)
    (hal : 2 ^ addrOrder level (r.flags .pageSize) ∣ addr.value) :
    Represents level { r with addr }
      (raw &&& (Usize.modulus - 1 - (2 ^ 48 - 2 ^ addrOrder level (r.flags .pageSize)))
        ||| addr.value) := by
  have huma : uma.stop = 2 ^ 46 := rfl
  obtain ⟨hk, hk'⟩ := addrOrder_mem level (r.flags .pageSize)
  have hold := h.aligned
  have hold_lt := h.addr_lt
  refine ⟨hlt, hal, h.present, fun i hi => ?_, fun f => ?_⟩
  · rw [Nat.testBit_or, Nat.testBit_and, testBit_addrMask hk', h.high i hi]
    generalize addrOrder level (r.flags .pageSize) = k at hk hk' hold hal
    by_cases hki : i < k
    · rw [testBit_of_dvd hold hki, Bool.false_and, Bool.false_or]
    · by_cases h48 : i < 48
      · rw [decide_eq_true h48, decide_eq_true (Nat.le_of_not_lt hki)]
        simp
      · -- past the address, both have no bits
        have hzero : r.addr.value.testBit i = false := Nat.testBit_lt_two_pow
          (Nat.lt_of_lt_of_le h.addr_lt_field (Nat.pow_le_pow_right (by decide) (by omega)))
        rw [hzero, Bool.false_and, Bool.false_or]
  · have hbit : f.bit < 9 := by cases f <;> decide
    have hzero : addr.value.testBit f.bit = false := testBit_of_dvd hal (by omega)
    rw [Nat.testBit_or, Nat.testBit_and, testBit_addrMask hk', hzero, h.bits,
      decide_eq_true (by omega : f.bit < 64), decide_eq_false (by omega)]
    simp

/-- `set_addr` writes the address, or nothing. -/
theorem setAddr_cases {addr : Addr uma} (hlt : addr.value < uma.stop) :
    (∃ raw', (Entry.setAddr level addr).run raw = .ok true raw' ∧
      Represents level { r with addr } raw') ∨
    (Entry.setAddr level addr).run raw = .ok false raw := by
  have hrun := setAddr_run h.inSpace h.target_ne_none addr
  rw [h.testBit_pageSize] at hrun
  by_cases hal : 2 ^ addrOrder level (r.flags .pageSize) ∣ addr.value
  · rw [if_pos hal] at hrun
    exact .inl ⟨_, hrun, h.setAddr hlt hal⟩
  · rw [if_neg hal] at hrun
    exact .inr hrun

/-- A new value of one flag. -/
theorem setFlag {f : Flag} (hf : f ≠ .present ∧ f ≠ .pageSize) (value : Bool) :
    Represents level (r.setFlags [f] value) (setBit raw f.bit value) := by
  have huma : uma.stop = 2 ^ 46 := rfl
  have hbit : f.bit < 9 := by cases f <;> decide
  have hsize : (r.setFlags [f] value).flags .pageSize = r.flags .pageSize :=
    if_neg fun hmem => hf.2 (List.mem_singleton.mp hmem).symm
  have hpresent : (r.setFlags [f] value).flags .present = r.flags .present :=
    if_neg fun hmem => hf.1 (List.mem_singleton.mp hmem).symm
  have hhigh : ∀ i, 64 ≤ i → raw.testBit i = false := fun i hi => by
    rw [h.high i (by omega)]
    exact Nat.testBit_lt_two_pow
      (Nat.lt_of_lt_of_le h.addr_lt_field (Nat.pow_le_pow_right (by decide) (by omega)))
  have hset := fun i => testBit_setBit hhigh (by omega : f.bit < 64) value i
  refine ⟨h.addr_lt, ?_, fun hl => hpresent.trans (h.present hl), fun i hi => ?_, fun g => ?_⟩
  · rw [hsize]
    exact h.aligned
  · rw [hset, if_neg (by omega), h.high i hi]
    rfl
  · rw [hset]
    by_cases hgf : g = f
    · subst hgf
      simp [EntryRecord.setFlags]
    · rw [if_neg fun hbits => hgf (Flag.bit_injective hbits), h.bits]
      simp [EntryRecord.setFlags, hgf]

end Represents

variable {level : Level} {r : EntryRecord} {raw : ℕ}

/-- The loop of `set_flags` writes all flags, or ends with the word it began with. -/
theorem setFlagsLoop_cases (h : Represents level r raw) {flags : List Flag}
    (hflags : .present ∉ flags ∧ .pageSize ∉ flags) (value : Bool) (prevData : ℕ) :
    (∃ raw', (setFlagsLoop level value prevData flags).run raw = .ok true raw' ∧
      Represents level (r.setFlags flags value) raw') ∨
    (setFlagsLoop level value prevData flags).run raw = .ok false prevData := by
  induction flags generalizing r raw with
  | nil => exact .inl ⟨raw, rfl, h⟩
  | cons f flags ih =>
      obtain ⟨hp, hs⟩ := hflags
      rw [List.mem_cons, not_or] at hp hs
      have hidx := h.getFlagIdx_eq f
      rw [setFlagsLoop, Code.get_bind, hidx]
      cases hbit : f.idx level (r.flags .present) (r.flags .pageSize) with
      | none => exact .inr rfl
      | some i =>
          obtain rfl := idx_eq_bit hbit
          simp only
          rw [Code.bind_ok (EStateM.run_set ..)]
          have hstep := h.setFlag (f := f) ⟨Ne.symm hp.1, Ne.symm hs.1⟩ value
          have hmerge : (r.setFlags [f] value).setFlags flags value
              = r.setFlags (f :: flags) value := by
            simp only [EntryRecord.setFlags, EntryRecord.mk.injEq, true_and]
            funext g
            by_cases hg : g ∈ flags <;> simp [hg]
          rw [← hmerge]
          exact ih hstep ⟨hp.2, hs.2⟩

/-- `set_flags` writes all flags, or nothing. -/
theorem setFlags_cases (h : Represents level r raw) (flags : List Flag) (value : Bool) :
    (∃ raw', (setFlags level flags value).run raw = .ok true raw' ∧
      Represents level (r.setFlags flags value) raw') ∨
    (setFlags level flags value).run raw = .ok false raw := by
  by_cases hflags : .present ∉ flags ∧ .pageSize ∉ flags
  · have hnone : (flags.contains .present || flags.contains .pageSize) = false := by
      simp [hflags.1, hflags.2]
    rw [setFlags, hnone, if_neg Bool.false_ne_true, Code.get_bind]
    exact setFlagsLoop_cases h hflags value raw
  · have hsome : (flags.contains .present || flags.contains .pageSize) = true := by
      simpa [or_iff_not_imp_left] using hflags
    rw [setFlags, hsome, if_pos rfl]
    exact .inr rfl

/-- A `reinit` that succeeds writes the record from nothing. -/
theorem reinit_represents {addr : Addr uma} {flags : List Flag} {raw' : ℕ}
    (hlt : addr.value < uma.stop) (h : (reinit level addr flags).run raw = .ok (some ()) raw') :
    Represents level ⟨addr, fun f => decide (f ∈ flags)⟩ raw' := by
  cases hflags : flagBits level (flags.contains .present) (flags.contains .pageSize) flags with
  | none => cases (reinit_invalid hflags addr raw).symm.trans h
  | some data =>
      by_cases htakes : Takes level addr flags
      swap
      · cases (reinit_refused hflags htakes raw).symm.trans h
      cases (reinit_taken hflags htakes raw).symm.trans h
      obtain ⟨hpresent, hal⟩ := htakes
      have hal' : 2 ^ 12 ∣ addr.value := Nat.dvd_trans (Nat.pow_dvd_pow 2 (addrOrder_mem _ _).1) hal
      refine ⟨hlt, ?_, fun hl => ?_, fun i hi => ?_, fun f => ?_⟩
      · rw [List.contains_eq_mem] at hal
        exact hal
      · exact decide_eq_true (hpresent.resolve_left hl)
      · have hzero : data.testBit i = false := Nat.testBit_lt_two_pow
          (Nat.lt_of_lt_of_le (flagBits_lt hflags) (Nat.pow_le_pow_right (by decide) hi))
        rw [Nat.testBit_or, hzero, Bool.false_or]
      · have hbit : f.bit < 12 := by cases f <;> decide
        rw [testBit_or_addr hal' hbit, testBit_flagBits_bit hflags]

/-! ## Runs -/

/-- The word of an entry after a `reinit` that succeeded, and any calls after it of which no
`reinit` failed, with the record of those that succeeded. -/
inductive Run (level : Level) : EntryRecord → ℕ → Prop
  | start {addr : Addr uma} {flags : List Flag} {raw raw' : ℕ} (inSpace : addr.value < uma.stop)
      (run : (reinit level addr flags).run raw = .ok (some ()) raw') :
      Run level ⟨addr, fun f => decide (f ∈ flags)⟩ raw'
  | succeed {r : EntryRecord} {raw raw' : ℕ} {call : EntryCall} (before : Run level r raw)
      (inSpace : call.InSpace) (run : (call.run level).run raw = .ok true raw') :
      Run level (call.apply r) raw'
  | fail {r : EntryRecord} {raw raw' : ℕ} {call : EntryCall} (before : Run level r raw)
      (inSpace : call.InSpace) (isSet : call.IsSet)
      (run : (call.run level).run raw = .ok false raw') : Run level r raw'

/-- A call that is no `reinit` does what the record says, or nothing. -/
theorem Represents.call_cases (h : Represents level r raw) {call : EntryCall}
    (hspace : call.InSpace) (hset : call.IsSet) :
    (∃ raw', (call.run level).run raw = .ok true raw' ∧ Represents level (call.apply r) raw') ∨
    (call.run level).run raw = .ok false raw := by
  cases call with
  | reinit addr flags => exact hset.elim
  | setAddr addr => exact h.setAddr_cases hspace
  | setFlags flags value => exact setFlags_cases h flags value

theorem Represents.succeed (h : Represents level r raw) {call : EntryCall} {raw' : ℕ}
    (hspace : call.InSpace) (hrun : (call.run level).run raw = .ok true raw') :
    Represents level (call.apply r) raw' := by
  by_cases hset : call.IsSet
  · rcases h.call_cases hspace hset with ⟨_, hrun', hrep⟩ | hrun'
    · cases hrun'.symm.trans hrun
      exact hrep
    · cases hrun'.symm.trans hrun
  · cases call with
    | setAddr addr => exact absurd trivial hset
    | setFlags flags value => exact absurd trivial hset
    | reinit addr flags =>
        rw [EntryCall.run] at hrun
        obtain ⟨res, _, hre, hres⟩ := Code.bind_eq_ok.mp hrun
        cases res with
        | none => cases hres
        | some u =>
            cases hres
            exact reinit_represents hspace hre

theorem Run.represents (h : Run level r raw) : Represents level r raw := by
  induction h with
  | start inSpace run => exact reinit_represents inSpace run
  | succeed _ inSpace run ih => exact ih.succeed inSpace run
  | fail _ inSpace isSet run ih =>
      rcases ih.call_cases inSpace isSet with ⟨_, hrun, -⟩ | hrun
      · cases hrun.symm.trans run
      · cases hrun.symm.trans run
        exact ih

/-- The entry refers to the last address, as the level and the last `reinit` fix it; its flags have
their last values; and a `set_addr` or `set_flags` that fails changes nothing. -/
theorem entry_refines_record (h : Run level r raw) :
    (∀ (σ : Type) (s : σ), (target ⟨level, raw⟩ : Code σ EntryTarget).run s
      = .ok (r.target level) s) ∧
    (∀ f, flag ⟨level, raw⟩ f = r.flag level f) ∧
    ∀ call : EntryCall, call.InSpace → call.IsSet →
      (∃ raw', (call.run level).run raw = .ok true raw') ∨
      (call.run level).run raw = .ok false raw := by
  have hrep := h.represents
  refine ⟨fun σ s => ?_, hrep.flag_eq, fun call hspace hset => ?_⟩
  · rw [← hrep.decode_eq]
    exact target_run hrep.inSpace s
  · rcases hrep.call_cases hspace hset with ⟨raw', hrun, -⟩ | hrun
    · exact .inl ⟨raw', hrun⟩
    · exact .inr hrun

/-- A page of 2 MiB, made global and moved; a move to an address that is not aligned fails. -/
theorem entry_refines_record_moved :
    ∃ raw, Run .pd ((EntryCall.setAddr ⟨0x400000⟩).apply
        ((EntryCall.setFlags [.global] true).apply
          ⟨⟨0x200000⟩, fun f => decide (f ∈ [.present, .pageSize])⟩)) raw ∧
      (target ⟨.pd, raw⟩ : Code Unit EntryTarget).run () = .ok (.page .pd ⟨0x400000⟩) () ∧
      flag ⟨.pd, raw⟩ .global = some true := by
  have hstart : (reinit .pd ⟨0x200000⟩ [.present, .pageSize]).run 0 = .ok (some ()) 0x200081 := by
    decide +kernel
  have hglobal : ((EntryCall.setFlags [.global] true).run .pd).run 0x200081
      = .ok true 0x200181 := by decide +kernel
  have hmoved : ((EntryCall.setAddr ⟨0x400000⟩).run .pd).run 0x200181 = .ok true 0x400181 := by
    decide +kernel
  have hrefused : ((EntryCall.setAddr ⟨0x401000⟩).run .pd).run 0x400181 = .ok false 0x400181 := by
    decide +kernel
  have hspace : ∀ a ≤ 0x401000, EntryCall.InSpace (.setAddr ⟨a⟩) := fun a ha =>
    Nat.lt_of_le_of_lt ha (by decide)
  have hflags : EntryCall.InSpace (.setFlags [.global] true) := trivial
  have hset : EntryCall.IsSet (.setAddr ⟨0x401000⟩) := trivial
  have hrun := ((Run.start (by decide) hstart).succeed hflags hglobal).succeed
    (hspace _ (by decide)) hmoved
  have hfailed := hrun.fail (hspace _ (by decide)) hset hrefused
  obtain ⟨htarget, hflag, -⟩ := entry_refines_record hfailed
  exact ⟨_, hfailed, htarget Unit (), hflag .global⟩

end Entry

end Koe
