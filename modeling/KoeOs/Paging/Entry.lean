/-
# `KoeOs.Paging.Entry` — `src/mem/paging/entry.rs`

An entry of a page table is a machine word and the level of the table it is in.  What
its bits mean depends on the level, and on two of the bits themselves:

    bit     0 present   1 read/write   2 user   7 page size   8 global   12.. address
    pml4    a table, whatever bit 7 is
    pdpt    bit 7: a page of 1 GiB, else a table
    pd      bit 7: a page of 2 MiB, else a table
    pt      a page of 4 KiB, whatever bit 7 is

`target` reads an entry and `reinit` writes one.  `target` also asserts that the address
lies in physical memory; where it does, the entry means what `decode` says.
-/
import KoeOs.Mem.Addr
import Mathlib.Data.Nat.Bitwise

namespace Koe

/-! ## Levels -/

/-- Levels of the paging hierarchy; `cr3` is the register that points to the top. -/
inductive Level where
  | cr3
  | pml4
  | pdpt
  | pd
  | pt
  deriving DecidableEq, Repr

namespace Level

variable {σ : Type}

/-- The bits of a virtual address that index a table of this level. -/
def pageTableIdxRange : Level → Code σ (ℕ × ℕ)
  | cr3 => throw (.assertion "Level::CR3 should not identify a page table level")
  | pml4 => pure (39, 48)
  | pdpt => pure (30, 39)
  | pd => pure (21, 30)
  | pt => pure (12, 21)

/-- The level whose entries refer to pages of this size. -/
def fromPageSize : PageSize → Level
  | .small => pt
  | .large => pd
  | .huge => pdpt

def nextLevel : Level → Option Level
  | cr3 => some pml4
  | pml4 => some pdpt
  | pdpt => some pd
  | pd => some pt
  | pt => none

end Level

/-! ## Flags -/

inductive Flag where
  | present
  | readWrite
  | userSuper
  | pageSize
  | global
  deriving DecidableEq, Repr

namespace Flag

def cr3Idx (_ : Flag) (_ _ : Bool) : Option ℕ := none

def pml4Idx (flag : Flag) (presentBit _pageSizeBit : Bool) : Option ℕ :=
  match presentBit, flag with
  | false, present => some 0
  | false, _ => none
  | true, present => some 0
  | true, readWrite => some 1
  | true, userSuper => some 2
  | true, _ => none

/-- The flags of a level whose entries may be tables or pages. -/
def directoryIdx (flag : Flag) (presentBit pageSizeBit : Bool) : Option ℕ :=
  match presentBit, pageSizeBit, flag with
  | false, _, present => some 0
  | false, _, _ => none
  | true, true, present => some 0
  | true, true, readWrite => some 1
  | true, true, userSuper => some 2
  | true, true, pageSize => some 7
  | true, true, global => some 8
  | true, false, present => some 0
  | true, false, readWrite => some 1
  | true, false, userSuper => some 2
  | true, false, pageSize => some 7
  | true, false, _ => none

def pdptIdx : Flag → Bool → Bool → Option ℕ := directoryIdx

def pdIdx : Flag → Bool → Bool → Option ℕ := directoryIdx

def ptIdx (flag : Flag) (presentBit _pageSizeBit : Bool) : Option ℕ :=
  match presentBit, flag with
  | false, present => some 0
  | false, _ => none
  | true, present => some 0
  | true, readWrite => some 1
  | true, userSuper => some 2
  | true, global => some 8
  | true, _ => none

/-- The bit of a flag, in an entry with these present and page size bits; `None` if such an
entry has no such flag. -/
def idx (flag : Flag) (level : Level) (presentBit pageSizeBit : Bool) : Option ℕ :=
  match level with
  | .cr3 => cr3Idx flag presentBit pageSizeBit
  | .pml4 => pml4Idx flag presentBit pageSizeBit
  | .pdpt => pdptIdx flag presentBit pageSizeBit
  | .pd => pdIdx flag presentBit pageSizeBit
  | .pt => ptIdx flag presentBit pageSizeBit

/-- The bit a flag has wherever there is such a flag. -/
def bit : Flag → ℕ
  | present => 0
  | readWrite => 1
  | userSuper => 2
  | pageSize => 7
  | global => 8

theorem bit_injective {f g : Flag} (h : f.bit = g.bit) : f = g := by
  cases f <;> cases g <;> first | rfl | cases h

end Flag

/-! ## Entries -/

/-- What an entry refers to. -/
inductive EntryTarget where
  | none
  | table (level : Level) (addr : Addr uma)
  | page (level : Level) (addr : Addr uma)
  deriving DecidableEq, Repr

/-- `TABLE_ALIGNMENT`, and the size of a table. -/
def tableAlignment : ℕ := 4096

/-- An entry as it is read: the level and the word. -/
structure Entry where
  level : Level
  raw : ℕ
  deriving DecidableEq, Repr

namespace Entry

variable {σ : Type}

def getFlagIdx (e : Entry) (flag : Flag) : Option ℕ :=
  let presentBit := (Flag.present.idx e.level false false).elim false e.raw.testBit
  let pageSizeBit := (Flag.pageSize.idx e.level presentBit false).elim false e.raw.testBit
  flag.idx e.level presentBit pageSizeBit

def flag (e : Entry) (flag : Flag) : Option Bool := (e.getFlagIdx flag).map e.raw.testBit

/-- What the entry refers to. -/
def target (e : Entry) : Code σ EntryTarget := do
  -- only `cr3` has no present flag, and it always has a target
  if !(e.flag .present).getD true then return .none
  let isPage := e.flag .pageSize
  let mask := match e.level, isPage with
    | .pdpt, some true | .pd, some true => 0x0000FFFFFFFFE000
    | _, _ => 0x0000FFFFFFFFF000
  let addr ← Addr.new (e.raw &&& mask)
  match e.level, isPage with
  | .pt, none | .pdpt, some true | .pd, some true => return .page e.level addr
  | .cr3, none | .pml4, none | .pdpt, some false | .pd, some false =>
      let nextLevel ← Code.expect e.level.nextLevel "All level except PT should have next level"
      return .table nextLevel addr
  | _, _ => throw (.unreachable "")

/-- Point the entry, whose word is the state, to `addr`; `false` if it has no target or `addr`
is not aligned. -/
def setAddr (level : Level) (addr : Addr uma) : Code ℕ Bool := do
  let raw ← get
  let align ← match level, ← target ⟨level, raw⟩ with
    | _, .none => return false
    | _, .table _ _ => pure tableAlignment
    | .pdpt, .page _ _ => pure (2 ^ 30)
    | .pd, .page _ _ => pure (2 ^ 21)
    | .pt, .page _ _ => pure (2 ^ 12)
    | _, _ => throw (.unreachable "")
  if !addr.isAlignedTo align then return false
  let mask := Usize.modulus - 1 - (2 ^ 48 - align)
  set (raw &&& mask ||| addr.value)
  return true

/-- One round of the loop over the flags: set the bit of `flag`. -/
def setFlag (level : Level) (presentBit pageSizeBit : Bool) (data : ℕ) (flag : Flag) : Option ℕ :=
  (flag.idx level presentBit pageSizeBit).map fun idx => data ||| 1 <<< idx

/-- The word with the bits of the flags set; `None` if one of them has no bit. -/
def flagBits (level : Level) (presentBit pageSizeBit : Bool) (flags : List Flag) : Option ℕ :=
  flags.foldlM (setFlag level presentBit pageSizeBit) 0

/-- Write the entry, whose word is the state, from nothing; `None` if the flags or the address
are not valid. -/
def reinit (level : Level) (addr : Addr uma) (flags : List Flag) : Code ℕ (Option Unit) := do
  let presentBit := flags.contains .present
  let pageSizeBit := flags.contains .pageSize
  match flagBits level presentBit pageSizeBit flags with
  | none => return none
  | some data =>
      set data
      return if ← setAddr level addr then some () else none

/-- Write a new entry at a word of this level, and return it; `None` as `reinit` does. -/
def init (level : Level) (addr : Addr uma) (flags : List Flag) : Code ℕ (Option Entry) := do
  match ← reinit level addr flags with
  | none => return none
  | some () => return some ⟨level, ← get⟩

/-- `BitSlice::set_unchecked` on the bits of a word. -/
def setBit (raw idx : ℕ) (value : Bool) : ℕ :=
  if value then raw ||| 1 <<< idx else raw &&& (Usize.modulus - 1 - 1 <<< idx)

/-- The loop over the flags; the bit of each is looked up in the word as it is by then. -/
def setFlagsLoop (level : Level) (value : Bool) (prevData : ℕ) : List Flag → Code ℕ Bool
  | [] => return true
  | flag :: flags => do
      let raw ← get
      match getFlagIdx ⟨level, raw⟩ flag with
      | none =>
          set prevData
          return false
      | some idx =>
          set (setBit raw idx value)
          setFlagsLoop level value prevData flags

/-- Set the flags of the entry, whose word is the state, to `value`; `false` if one of them is
`Present` or `PageSize`, or has no bit. -/
def setFlags (level : Level) (flags : List Flag) (value : Bool) : Code ℕ Bool := do
  let presentBit := flags.contains .present
  let pageSizeBit := flags.contains .pageSize
  if presentBit || pageSizeBit then return false
  let prevData ← get
  setFlagsLoop level value prevData flags

/-! ## What an entry means -/

/-- The address of a table, or of a small page. -/
def field (raw : ℕ) : ℕ := raw / 2 ^ 12 % 2 ^ 36 * 2 ^ 12

/-- The address of a larger page: bit 12 is not part of it. -/
def largeField (raw : ℕ) : ℕ := raw / 2 ^ 13 % 2 ^ 35 * 2 ^ 13

/-- What `target` returns, by the bits. -/
def decode (level : Level) (raw : ℕ) : EntryTarget :=
  match level with
  | .cr3 => .table .pml4 ⟨field raw⟩
  | .pml4 => if raw.testBit 0 then .table .pdpt ⟨field raw⟩ else .none
  | .pdpt =>
      if raw.testBit 0 then
        if raw.testBit 7 then .page .pdpt ⟨largeField raw⟩ else .table .pd ⟨field raw⟩
      else .none
  | .pd =>
      if raw.testBit 0 then
        if raw.testBit 7 then .page .pd ⟨largeField raw⟩ else .table .pt ⟨field raw⟩
      else .none
  | .pt => if raw.testBit 0 then .page .pt ⟨field raw⟩ else .none

/-- What the entry refers to, if anything, lies inside physical memory. -/
def InSpace (level : Level) (raw : ℕ) : Prop := decode level raw ≠ .none → field raw < uma.stop

theorem and_mask (raw start len : ℕ) :
    raw &&& (2 ^ len - 1) <<< start = raw / 2 ^ start % 2 ^ len * 2 ^ start := by
  rw [← Nat.shiftLeft_eq, ← Nat.shiftRight_eq_div_pow]
  refine Nat.eq_of_testBit_eq fun i => ?_
  simp only [Nat.testBit_and, Nat.testBit_shiftLeft, Nat.testBit_two_pow_sub_one,
    Nat.testBit_mod_two_pow, Nat.testBit_shiftRight]
  by_cases h : start ≤ i
  · simp [h, Bool.and_comm]
  · simp [h]

theorem and_tableMask (raw : ℕ) : raw &&& 0x0000FFFFFFFFF000 = field raw := and_mask raw 12 36

theorem and_pageMask (raw : ℕ) : raw &&& 0x0000FFFFFFFFE000 = largeField raw := and_mask raw 13 35

theorem largeField_le_field (raw : ℕ) : largeField raw ≤ field raw := by
  simp only [largeField, field]
  omega

theorem new_run {a : ℕ} (h : a < uma.stop) (s : σ) :
    (Addr.new a : Code σ (Addr uma)).run s = .ok ⟨a⟩ s := Addr.new_of_mem ⟨Nat.zero_le _, h⟩ s

theorem flag_present {level : Level} (raw : ℕ) (h : level ≠ .cr3) :
    flag ⟨level, raw⟩ .present = some (raw.testBit 0) := by
  cases level with
  | cr3 => exact absurd rfl h
  | pml4 | pt => cases hp : raw.testBit 0 <;> simp [flag, getFlagIdx, Flag.idx, Flag.pml4Idx,
      Flag.ptIdx, hp]
  | pdpt | pd => cases hp : raw.testBit 0 <;> cases hs : raw.testBit 7 <;>
      simp [flag, getFlagIdx, Flag.idx, Flag.pdptIdx, Flag.pdIdx, Flag.directoryIdx, hp, hs]

/-- A present entry of a directory has a page size flag. -/
theorem flag_pageSize_directory {level : Level} {raw : ℕ} (h : level = .pdpt ∨ level = .pd)
    (hp : raw.testBit 0 = true) : flag ⟨level, raw⟩ .pageSize = some (raw.testBit 7) := by
  rcases h with rfl | rfl <;> cases hs : raw.testBit 7 <;>
    simp [flag, getFlagIdx, Flag.idx, Flag.pdptIdx, Flag.pdIdx, Flag.directoryIdx, hp, hs]

theorem flag_pageSize_other {level : Level} (raw : ℕ) (h : level ≠ .pdpt ∧ level ≠ .pd) :
    flag ⟨level, raw⟩ .pageSize = none := by
  cases level with
  | cr3 => rfl
  | pdpt => exact absurd rfl h.1
  | pd => exact absurd rfl h.2
  | pml4 | pt => cases hp : raw.testBit 0 <;> simp [flag, getFlagIdx, Flag.idx, Flag.pml4Idx,
      Flag.ptIdx, hp]

theorem target_not_present {level : Level} {raw : ℕ} (h : level ≠ .cr3)
    (hp : raw.testBit 0 = false) (s : σ) :
    (target ⟨level, raw⟩ : Code σ EntryTarget).run s = .ok .none s := by
  rw [target, flag_present raw h, hp]
  rfl

theorem decode_eq_none {level : Level} {raw : ℕ} (h : level ≠ .cr3) :
    decode level raw = .none ↔ raw.testBit 0 = false := by
  cases level with
  | cr3 => exact absurd rfl h
  | pml4 | pt => cases hp : raw.testBit 0 <;> simp [decode, hp]
  | pdpt | pd => cases hp : raw.testBit 0 <;> cases hs : raw.testBit 7 <;> simp [decode, hp, hs]

/-- `target` returns what the bits say. -/
theorem target_run {level : Level} {raw : ℕ} (h : InSpace level raw) (s : σ) :
    (target ⟨level, raw⟩ : Code σ EntryTarget).run s = .ok (decode level raw) s := by
  by_cases hnone : decode level raw = .none
  · have hl : level ≠ .cr3 := by rintro rfl; exact nomatch hnone
    rw [hnone]
    exact target_not_present hl ((decode_eq_none hl).mp hnone) s
  have hfield := new_run (σ := σ) (h hnone) s
  have hlarge := new_run (σ := σ) (Nat.lt_of_le_of_lt (largeField_le_field raw) (h hnone)) s
  rw [← and_tableMask] at hfield
  rw [← and_pageMask] at hlarge
  have hp : level ≠ .cr3 → raw.testBit 0 = true := fun hl =>
    Bool.ne_false_iff.mp fun hp => hnone ((decode_eq_none hl).mpr hp)
  cases level with
  | cr3 =>
      rw [target, flag_pageSize_other raw (by decide)]
      exact (Code.bind_ok hfield).trans (by rw [and_tableMask]; rfl)
  | pml4 | pt =>
      rw [target, flag_present raw (by decide), flag_pageSize_other raw (by decide), hp (by decide)]
      refine (Code.bind_ok hfield).trans ?_
      rw [and_tableMask, decode, hp (by decide)]
      rfl
  | pdpt | pd =>
      rw [target, flag_present raw (by decide),
        flag_pageSize_directory (by decide) (hp (by decide)), hp (by decide)]
      cases hs : raw.testBit 7 with
      | false =>
          refine (Code.bind_ok hfield).trans ?_
          rw [and_tableMask, decode, hp (by decide), hs]
          rfl
      | true =>
          refine (Code.bind_ok hlarge).trans ?_
          rw [and_pageMask, decode, hp (by decide), hs]
          rfl

/-- `target` only returns for what lies inside physical memory. -/
theorem inSpace_of_target {level : Level} {raw : ℕ} {res : EntryTarget} {s s' : σ}
    (h : (target ⟨level, raw⟩ : Code σ EntryTarget).run s = .ok res s') : InSpace level raw := by
  intro hnone
  have hlarge : largeField raw < uma.stop → field raw < uma.stop := by
    simp only [largeField, field, show uma.stop = 2 ^ 46 from rfl]
    omega
  unfold target at h
  split at h
  · rename_i hpresent
    by_cases hl : level = .cr3
    · subst hl
      exact nomatch hpresent
    · rw [flag_present raw hl] at hpresent
      exact absurd ((decode_eq_none hl).mpr (by simpa using hpresent)) hnone
  · obtain ⟨addr, s₁, hnew, -⟩ := Code.bind_eq_ok.mp h
    obtain ⟨-, -, hlt, -⟩ := Addr.new_eq_ok hnew
    split at hlt
    · rw [and_pageMask] at hlt
      exact hlarge hlt
    · rw [and_pageMask] at hlt
      exact hlarge hlt
    · rw [and_tableMask] at hlt
      exact hlt

/-- An entry that refers to a page has its present flag set, and its page size flag, unless the
level has none. -/
theorem target_eq_page {e : Entry} {l : Level} {a : Addr uma} {s s' : σ}
    (h : (target e : Code σ EntryTarget).run s = .ok (.page l a) s') :
    (e.flag .present).getD true = true ∧
      (e.flag .pageSize = some true ∨ e.level = .pt ∧ e.flag .pageSize = none) := by
  unfold target at h
  split at h
  · cases h
  · rename_i hpresent
    refine ⟨by simpa using hpresent, ?_⟩
    obtain ⟨addr, s₁, -, h⟩ := Code.bind_eq_ok.mp h
    split at h
    · exact .inr ⟨by assumption, by assumption⟩
    · exact .inl (by assumption)
    · exact .inl (by assumption)
    all_goals
      -- a table, or the arm that is never reached
      first
      | obtain ⟨_, _, -, h⟩ := Code.bind_eq_ok.mp h
        cases h
      | cases h

/-! ## The bits of flags -/

variable {level : Level} {presentBit pageSizeBit : Bool} {flags : List Flag} {data : ℕ}

theorem idx_eq_bit {f : Flag} {i : ℕ} (h : f.idx level presentBit pageSizeBit = some i) :
    i = f.bit := by
  have hidx : f.idx level presentBit pageSizeBit = none ∨
      f.idx level presentBit pageSizeBit = some f.bit := by
    cases level <;> cases presentBit <;> cases pageSizeBit <;> cases f <;>
      first | exact .inl rfl | exact .inr rfl
  rcases hidx with hnone | hbit
  · cases hnone.symm.trans h
  · exact Option.some.inj (h.symm.trans hbit)

theorem idx_le {f : Flag} {i : ℕ} (h : f.idx level presentBit pageSizeBit = some i) : i ≤ 8 := by
  rw [idx_eq_bit h]
  cases f <;> decide

theorem testBit_flagBits (h : flagBits level presentBit pageSizeBit flags = some data) (i : ℕ) :
    data.testBit i = true ↔ ∃ f ∈ flags, f.idx level presentBit pageSizeBit = some i := by
  suffices hacc : ∀ acc, flags.foldlM (setFlag level presentBit pageSizeBit) acc = some data →
      (data.testBit i = true ↔ acc.testBit i = true ∨
        ∃ f ∈ flags, f.idx level presentBit pageSizeBit = some i) by
    rw [hacc 0 h]; simp
  clear h
  induction flags with
  | nil => intro acc h; cases h; simp
  | cons f flags ih =>
      intro acc h
      rw [List.foldlM_cons] at h
      obtain ⟨acc', hidx, hrest⟩ := Option.bind_eq_some_iff.mp h
      obtain ⟨j, hj, rfl⟩ := Option.map_eq_some_iff.mp hidx
      rw [ih _ hrest, Nat.testBit_or, Nat.one_shiftLeft, Nat.testBit_two_pow]
      simp [hj, or_assoc]

/-- No two flags share a bit. -/
theorem idx_injective {f g : Flag} {i : ℕ} (hf : f.idx level presentBit pageSizeBit = some i)
    (hg : g.idx level presentBit pageSizeBit = some i) : f = g :=
  Flag.bit_injective ((idx_eq_bit hf).symm.trans (idx_eq_bit hg))

theorem testBit_flagBits_idx {f : Flag} {i : ℕ}
    (h : flagBits level presentBit pageSizeBit flags = some data)
    (hf : f.idx level presentBit pageSizeBit = some i) : data.testBit i = true ↔ f ∈ flags := by
  rw [testBit_flagBits h]
  constructor
  · rintro ⟨g, hg, hgi⟩
    rwa [idx_injective hf hgi]
  · intro hmem
    exact ⟨f, hmem, hf⟩

/-- The flags are valid if and only if each has a bit. -/
theorem flagBits_isSome :
    (flagBits level presentBit pageSizeBit flags).isSome ↔
      ∀ f ∈ flags, (f.idx level presentBit pageSizeBit).isSome := by
  suffices hacc : ∀ acc, (flags.foldlM (setFlag level presentBit pageSizeBit) acc).isSome ↔
      ∀ f ∈ flags, (f.idx level presentBit pageSizeBit).isSome from hacc 0
  induction flags with
  | nil => intro acc; simp
  | cons f flags ih =>
      intro acc
      rw [List.foldlM_cons, List.forall_mem_cons, setFlag]
      cases f.idx level presentBit pageSizeBit with
      | none => simp
      | some i => simpa using ih _

theorem flagBits_lt (h : flagBits level presentBit pageSizeBit flags = some data) :
    data < 2 ^ 9 := by
  refine Nat.lt_pow_two_of_testBit data fun i hi => ?_
  refine Bool.eq_false_iff.mpr fun hbit => ?_
  obtain ⟨f, -, hf⟩ := (testBit_flagBits h i).mp hbit
  exact absurd (idx_le hf) (by omega)

/-- A word of flags and an address: the two do not overlap. -/
theorem field_or {a : ℕ} (hdata : data < 2 ^ 9) (ha : 2 ^ 12 ∣ a) (hlt : a < 2 ^ 48) :
    field (data ||| a) = a := by
  obtain ⟨q, rfl⟩ := ha
  rw [Nat.lor_comm, ← Nat.two_pow_add_eq_or_of_lt (by omega), field]
  omega

theorem largeField_or {a : ℕ} (hdata : data < 2 ^ 9) (ha : 2 ^ 13 ∣ a) (hlt : a < 2 ^ 48) :
    largeField (data ||| a) = a := by
  obtain ⟨q, rfl⟩ := ha
  rw [Nat.lor_comm, ← Nat.two_pow_add_eq_or_of_lt (by omega), largeField]
  omega

theorem testBit_or_addr {a i : ℕ} (ha : 2 ^ 12 ∣ a) (hi : i < 12) :
    (data ||| a).testBit i = data.testBit i := by
  obtain ⟨q, rfl⟩ := ha
  rw [Nat.testBit_or, Nat.testBit_two_pow_mul, decide_eq_false (by omega), Bool.false_and,
    Bool.or_false]

/-- The mask of `set_addr` keeps the flags. -/
theorem and_addrMask {align : ℕ} (hdata : data < 2 ^ 9)
    (hmask : (Usize.modulus - 1 - (2 ^ 48 - align)) % 2 ^ 9 = 2 ^ 9 - 1) :
    data &&& (Usize.modulus - 1 - (2 ^ 48 - align)) = data := by
  have hlt : data &&& (Usize.modulus - 1 - (2 ^ 48 - align)) < 2 ^ 9 :=
    Nat.lt_of_le_of_lt Nat.and_le_left hdata
  rw [← Nat.mod_eq_of_lt hlt, Nat.and_mod_two_pow, hmask, Nat.and_two_pow_sub_one_eq_mod,
    Nat.mod_mod, Nat.mod_eq_of_lt hdata]

/-! ## Writing an entry -/

theorem inSpace_of_flags (hdata : data < 2 ^ 9) : InSpace level data := fun _ => by
  have huma : uma.stop = 2 ^ 46 := rfl
  rw [field]
  omega

variable {addr : Addr uma} {size : PageSize}

theorem setAddr_none (hdata : data < 2 ^ 9) (hdec : decode level data = .none) (addr : Addr uma) :
    (setAddr level addr).run data = .ok false data := by
  rw [setAddr, Code.get_bind, Code.bind_ok (target_run (inSpace_of_flags hdata) data), hdec]
  rfl

/-- What `set_addr` does once it knows the alignment. -/
theorem setAddr_aligned {align : ℕ} (hdata : data < 2 ^ 9)
    (hmask : (Usize.modulus - 1 - (2 ^ 48 - align)) % 2 ^ 9 = 2 ^ 9 - 1)
    (hal : align ∣ addr.value) :
    (do if !addr.isAlignedTo align then return false
        set (data &&& (Usize.modulus - 1 - (2 ^ 48 - align)) ||| addr.value)
        return true : Code ℕ Bool).run data = .ok true (data ||| addr.value) := by
  have hbool : addr.isAlignedTo align = true := beq_iff_eq.mpr (Nat.mod_eq_zero_of_dvd hal)
  rw [hbool, and_addrMask hdata hmask]
  rfl

theorem setAddr_table {next : Level} {a : Addr uma} (hdata : data < 2 ^ 9)
    (hdec : decode level data = .table next a) (hal : tableAlignment ∣ addr.value) :
    (setAddr level addr).run data = .ok true (data ||| addr.value) := by
  rw [setAddr, Code.get_bind, Code.bind_ok (target_run (inSpace_of_flags hdata) data), hdec]
  exact setAddr_aligned hdata (by decide) hal

theorem setAddr_page {l : Level} {a : Addr uma} (hdata : data < 2 ^ 9)
    (hdec : decode (.fromPageSize size) data = .page l a) (hal : size.align ∣ addr.value) :
    (setAddr (.fromPageSize size) addr).run data = .ok true (data ||| addr.value) := by
  rw [setAddr, Code.get_bind, Code.bind_ok (target_run (inSpace_of_flags hdata) data), hdec]
  cases size with
  | small | large | huge => exact setAddr_aligned hdata (by decide) hal

theorem reinit_invalid
    (h : flagBits level (flags.contains .present) (flags.contains .pageSize) flags = none)
    (addr : Addr uma) (raw : ℕ) : (reinit level addr flags).run raw = .ok none raw := by
  rw [reinit]
  simp only [h]
  rfl

theorem reinit_of_setAddr {ok : Bool} {raw' : ℕ}
    (h : flagBits level (flags.contains .present) (flags.contains .pageSize) flags = some data)
    (hset : (setAddr level addr).run data = .ok ok raw') (raw : ℕ) :
    (reinit level addr flags).run raw = .ok (if ok then some () else none) raw' := by
  rw [reinit]
  simp only [h]
  refine (Code.bind_ok (EStateM.run_set ..)).trans ?_
  rw [Code.bind_ok hset]
  cases ok <;> rfl

end Entry

/-! ## Links -/

/-- The level of the entries of a table at depth `d`. -/
def Level.ofDepth : ℕ → Level
  | 0 => .pml4
  | 1 => .pdpt
  | 2 => .pd
  | _ => .pt

/-- `DEFAULT_PAGE_TABLE_FLAGS`. -/
def defaultPageTableFlags : List Flag := [.present, .readWrite]

namespace Entry

variable {d f : ℕ} {addr : Addr uma} {size : PageSize} {flags : List Flag}

/-- The word of an entry that leads to the table `f`: present and writable. -/
def link (f : ℕ) : ℕ := 3 ||| f

theorem decode_link (hd : d < 3) (hal : tableAlignment ∣ f) (hlt : f < uma.stop) :
    decode (.ofDepth d) (link f) = .table (.ofDepth (d + 1)) ⟨f⟩ := by
  have huma : uma.stop = 2 ^ 46 := rfl
  have hfield : field (link f) = f := field_or (by decide) hal (by omega)
  have hpresent : (link f).testBit 0 = true := (testBit_or_addr hal (by decide)).trans (by decide)
  have hsize : (link f).testBit 7 = false := (testBit_or_addr hal (by decide)).trans (by decide)
  obtain rfl | rfl | rfl : d = 0 ∨ d = 1 ∨ d = 2 := by omega
  all_goals simp [Level.ofDepth, decode, hfield, hpresent, hsize]

theorem inSpace_link {level : Level} (hal : tableAlignment ∣ f) (hlt : f < uma.stop) :
    InSpace level (link f) := fun _ => by
  have huma : uma.stop = 2 ^ 46 := rfl
  rw [link, field_or (by decide) hal (by omega)]
  exact hlt

theorem reinit_link (hd : d < 3) (hal : tableAlignment ∣ f) (raw : ℕ) :
    (reinit (.ofDepth d) ⟨f⟩ defaultPageTableFlags).run raw = .ok (some ()) (link f) := by
  have hdata : 3 < 2 ^ 9 := by decide
  obtain rfl | rfl | rfl : d = 0 ∨ d = 1 ∨ d = 2 := by omega
  all_goals exact reinit_of_setAddr rfl (setAddr_table hdata rfl hal) raw

theorem field_frame (hal : tableAlignment ∣ f) (hlt : f < uma.stop) : field f = f := by
  have huma : uma.stop = 2 ^ 46 := rfl
  simp only [field, tableAlignment] at hal ⊢
  omega

/-- The word for `cr3` is the address of the table. -/
theorem reinit_cr3 (hal : tableAlignment ∣ f) (raw : ℕ) :
    (reinit .cr3 ⟨f⟩ []).run raw = .ok (some ()) f := by
  have hset : (setAddr .cr3 ⟨f⟩).run 0 = .ok true (0 ||| f) := setAddr_table (by decide) rfl hal
  rw [Nat.zero_or] at hset
  exact reinit_of_setAddr rfl hset raw

end Entry

/-! ## Pages -/

namespace PageSize

/-- The depth of the entries that refer to pages of this size. -/
def depth : PageSize → ℕ
  | small => 3
  | large => 2
  | huge => 1

theorem depth_le (p : PageSize) : p.depth ≤ 3 := by cases p <;> decide

theorem fromPageSize_eq (p : PageSize) : Level.fromPageSize p = .ofDepth p.depth := by
  cases p <;> rfl

end PageSize

/-- Flags that make a page of this size: present, and the page size flag where an entry of the
level could also be a table. -/
structure PageFlags (size : PageSize) (flags : List Flag) : Prop where
  present : .present ∈ flags
  pageSize : .pageSize ∈ flags ↔ size ≠ .small

namespace Entry

variable {addr : Addr uma} {size : PageSize} {flags : List Flag}

/-- The word of an entry for a page. -/
def pageWord (size : PageSize) (addr : Addr uma) (flags : List Flag) : ℕ :=
  (flagBits (.fromPageSize size) true (flags.contains .pageSize) flags).getD 0 ||| addr.value

end Entry

namespace PageFlags

variable {addr : Addr uma} {size : PageSize} {flags : List Flag} (h : PageFlags size flags)
include h

theorem contains_present : flags.contains .present = true := List.contains_iff_mem.mpr h.present

/-- They are valid. -/
theorem exists_bits : ∃ data,
    Entry.flagBits (.fromPageSize size) true (flags.contains .pageSize) flags = some data := by
  refine Option.isSome_iff_exists.mp (Entry.flagBits_isSome.mpr fun f hf => ?_)
  cases size with
  | small =>
      cases f with
      | pageSize => exact absurd rfl (h.pageSize.mp hf)
      | present | readWrite | userSuper | global => rfl
  | large | huge =>
      rw [List.contains_iff_mem.mpr (h.pageSize.mpr (by decide))]
      cases f <;> rfl

/-- The word of a page is its flags and its address. -/
theorem pageWord_eq (addr : Addr uma) : ∃ data,
    Entry.flagBits (.fromPageSize size) true (flags.contains .pageSize) flags = some data ∧
      Entry.pageWord size addr flags = data ||| addr.value := by
  obtain ⟨data, hdata⟩ := h.exists_bits
  exact ⟨data, hdata, by rw [Entry.pageWord, hdata]; rfl⟩

/-- A flag that an entry of this level can have is set if it is given. -/
theorem testBit_pageWord (hal : size.align ∣ addr.value) {f : Flag} {i : ℕ}
    (hf : f.idx (.fromPageSize size) true (flags.contains .pageSize) = some i) :
    (Entry.pageWord size addr flags).testBit i = true ↔ f ∈ flags := by
  obtain ⟨data, hdata, hword⟩ := h.pageWord_eq addr
  have hsmall : 2 ^ 12 ∣ addr.value := Nat.dvd_trans size.small_dvd_align hal
  rw [hword, Entry.testBit_or_addr hsmall (Nat.lt_of_le_of_lt (Entry.idx_le hf) (by decide))]
  exact Entry.testBit_flagBits_idx hdata hf

theorem testBit_present (hal : size.align ∣ addr.value) :
    (Entry.pageWord size addr flags).testBit 0 = true := by
  refine (h.testBit_pageWord hal ?_).mpr h.present
  cases size <;> cases flags.contains .pageSize <;> rfl

theorem testBit_pageSize (hal : size.align ∣ addr.value) (hsize : size ≠ .small) :
    (Entry.pageWord size addr flags).testBit 7 = true := by
  refine (h.testBit_pageWord hal ?_).mpr (h.pageSize.mpr hsize)
  cases size with
  | small => exact absurd rfl hsize
  | large | huge => cases flags.contains .pageSize <;> rfl

/-- The entry means the page. -/
theorem decode_pageWord (hal : size.align ∣ addr.value) (hlt : addr.value < uma.stop) :
    Entry.decode (.fromPageSize size) (Entry.pageWord size addr flags)
      = .page (.fromPageSize size) addr := by
  have huma : uma.stop = 2 ^ 46 := rfl
  have hpresent := h.testBit_present hal
  obtain ⟨data, hdata, hword⟩ := h.pageWord_eq addr
  have hbits := Entry.flagBits_lt hdata
  cases size with
  | small =>
      have hfield := Entry.field_or hbits hal (by omega)
      rw [← hword] at hfield
      simp [Level.fromPageSize, Entry.decode, hpresent, hfield]
  | large | huge =>
      have hsize := h.testBit_pageSize hal (by decide)
      have hfield := Entry.largeField_or hbits (Nat.dvd_trans (by decide) hal) (by omega)
      rw [← hword] at hfield
      simp [Level.fromPageSize, Entry.decode, hpresent, hsize, hfield]

theorem inSpace_pageWord {level : Level} (hal : size.align ∣ addr.value)
    (hlt : addr.value < uma.stop) :
    Entry.InSpace level (Entry.pageWord size addr flags) := fun _ => by
  have huma : uma.stop = 2 ^ 46 := rfl
  obtain ⟨data, hdata, hword⟩ := h.pageWord_eq addr
  rw [hword, Entry.field_or (Entry.flagBits_lt hdata)
    (Nat.dvd_trans size.small_dvd_align hal) (by omega)]
  exact hlt

/-- A word with the flags alone already is a page, at address zero. -/
theorem decode_bits {data : ℕ}
    (hdata : Entry.flagBits (.fromPageSize size) true (flags.contains .pageSize) flags
      = some data) :
    Entry.decode (.fromPageSize size) data = .page (.fromPageSize size) ⟨0⟩ := by
  have hword : Entry.pageWord size ⟨0⟩ flags = data := by
    rw [Entry.pageWord, hdata]; exact Nat.or_zero data
  rw [← hword]
  exact h.decode_pageWord (Nat.dvd_zero _) (by decide)

theorem reinit_page (hal : size.align ∣ addr.value) (raw : ℕ) :
    (Entry.reinit (.fromPageSize size) addr flags).run raw
      = .ok (some ()) (Entry.pageWord size addr flags) := by
  obtain ⟨data, hdata, hword⟩ := h.pageWord_eq addr
  have hset := Entry.setAddr_page (Entry.flagBits_lt hdata) (h.decode_bits hdata) hal
  rw [hword]
  refine Entry.reinit_of_setAddr ?_ hset raw
  rw [h.contains_present]
  exact hdata

/-- The entry has the flags that were given. -/
theorem flag_pageWord (hal : size.align ∣ addr.value) (f : Flag) :
    Entry.flag ⟨.fromPageSize size, Entry.pageWord size addr flags⟩ f = some true ↔ f ∈ flags := by
  have hpresent := h.testBit_present hal
  have hidx : Entry.getFlagIdx ⟨.fromPageSize size, Entry.pageWord size addr flags⟩ f
      = f.idx (.fromPageSize size) true (flags.contains .pageSize) := by
    cases size with
    | small => simp [Entry.getFlagIdx, Level.fromPageSize, Flag.idx, Flag.ptIdx, hpresent]
    | large | huge =>
        rw [List.contains_iff_mem.mpr (h.pageSize.mpr (by decide))]
        simp [Entry.getFlagIdx, Level.fromPageSize, Flag.idx, Flag.pdIdx, Flag.pdptIdx,
          Flag.directoryIdx, hpresent, h.testBit_pageSize hal (by decide)]
  obtain ⟨data, hdata⟩ := h.exists_bits
  have hvalid := Entry.flagBits_isSome.mp (Option.isSome_of_eq_some hdata)
  rw [Entry.flag, hidx, Option.map_eq_some_iff]
  constructor
  · rintro ⟨i, hi, hbit⟩
    exact (h.testBit_pageWord hal hi).mp hbit
  · intro hf
    obtain ⟨i, hi⟩ := Option.isSome_iff_exists.mp (hvalid f hf)
    exact ⟨i, hi, (h.testBit_pageWord hal hi).mpr hf⟩

end PageFlags

/-- Flags that are those of an entry for a page make a page. -/
theorem PageFlags.of_target {σ : Type} {size : PageSize} {flags : List Flag} {raw : ℕ} {l : Level}
    {addr : Addr uma} {s s' : σ}
    (h : (Entry.target ⟨.fromPageSize size, raw⟩ : Code σ EntryTarget).run s
      = .ok (.page l addr) s')
    (hflags : ∀ f, Entry.flag ⟨.fromPageSize size, raw⟩ f = some true ↔ f ∈ flags) :
    PageFlags size flags := by
  obtain ⟨hp, hps⟩ := Entry.target_eq_page h
  have hlevel : Level.fromPageSize size ≠ .cr3 := by cases size <;> decide
  refine ⟨(hflags .present).mp ?_, ?_⟩
  · rw [Entry.flag_present raw hlevel] at hp ⊢
    exact congrArg some hp
  · rw [← hflags]
    cases size with
    | small => simp [Level.fromPageSize, Entry.flag_pageSize_other]
    | large | huge => exact iff_of_true (hps.resolve_right fun h => by cases h.1) (by decide)

/-- What `reinit` does to an entry that could refer to a page of this size: it makes the entry
refer to the page if the flags say so, and otherwise clears it or does nothing. -/
theorem Entry.reinit_cases {addr : Addr uma} {size : PageSize} {flags : List Flag}
    (hflags : .present ∈ flags → size ≠ .small → .pageSize ∈ flags)
    (hal : size.align ∣ addr.value) (raw : ℕ) :
    ∃ res raw', (reinit (.fromPageSize size) addr flags).run raw = .ok res raw' ∧
      ((¬ PageFlags size flags ∧ (raw' = raw ∨ raw' = 0)) ∨
        (PageFlags size flags ∧ raw' = pageWord size addr flags)) := by
  cases hbits : flagBits (.fromPageSize size) (flags.contains .present) (flags.contains .pageSize)
      flags with
  | none =>
      refine ⟨none, raw, reinit_invalid hbits addr raw, .inl ⟨fun h => ?_, .inl rfl⟩⟩
      obtain ⟨data, hdata⟩ := h.exists_bits
      rw [h.contains_present] at hbits
      exact nomatch hbits.symm.trans hdata
  | some data =>
      have hvalid := flagBits_isSome.mp (Option.isSome_of_eq_some hbits)
      by_cases hp : Flag.present ∈ flags
      · -- present: then the page size flag is right, or it has no bit
        have h : PageFlags size flags := by
          refine ⟨hp, fun hps hsmall => ?_, hflags hp⟩
          subst hsmall
          have hidx := hvalid _ hps
          rw [List.contains_iff_mem.mpr hp] at hidx
          exact nomatch hidx
        exact ⟨_, _, h.reinit_page hal raw, .inr ⟨h, rfl⟩⟩
      · -- not present: no flag has a bit, so there is none
        have hnil : flags = [] := by
          refine List.eq_nil_iff_forall_not_mem.mpr fun f hf => ?_
          have hidx := hvalid f hf
          rw [Bool.eq_false_iff.mpr fun hc => hp (List.contains_iff_mem.mp hc)] at hidx
          cases f with
          | present => exact hp hf
          | readWrite | userSuper | pageSize | global => cases size <;> exact nomatch hidx
        subst hnil
        have hset : (setAddr (.fromPageSize size) addr).run 0 = .ok false 0 :=
          setAddr_none (by decide) (by cases size <;> rfl) addr
        exact ⟨_, _, reinit_of_setAddr rfl hset raw, .inl ⟨fun h => (nomatch h.present), .inr rfl⟩⟩

end Koe
