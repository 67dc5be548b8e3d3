/-
# `KoeOs.Boot.Tables` — the page tables of `src/boot/boot.S`

Before the kernel runs, `_enable_paging` fills three tables of the bootstrap section.
Two entries of the PML4 lead to one PDPT and two entries of the PDPT to one PD, so that
the first 8 MiB of memory appear four times:

    pml4   pdpt   from
    0      0      0
    0      510    0x7F80000000
    511    0      0xFFFFFF8000000000
    511    510    0xFFFFFFFF80000000     the kernel

The code runs in 32-bit mode: a store writes the low half of an entry, and the loader has
zeroed the other half.

The kernel runs in the last window, and the start-up code in the first, until
`X86_64MemoryManager::init` loads `cr3` with tables of its own.  No window but the kernel's
is left then; the kernel itself must not notice.
-/
import KoeOs.Paging.KernelImage

namespace Koe

open TableTree
open Function (update)

namespace Boot

/-! ## `_enable_paging` -/

/-- Where the linker placed the three tables. -/
structure Placement where
  pgMl4Table : ℕ
  aligned : tableAlignment ∣ pgMl4Table
  /-- Addresses have 32 bits. -/
  lt : pgMl4Table + 3 * tableAlignment ≤ 2 ^ 32

namespace Placement

variable (l : Placement)

def pgDirPtrTable : ℕ := l.pgMl4Table + tableAlignment

def pgDirTable : ℕ := l.pgMl4Table + 2 * tableAlignment

/-- The end of the tables. -/
def stop : ℕ := l.pgMl4Table + 3 * tableAlignment

theorem apart : l.pgDirPtrTable < 2 ^ 32 ∧ l.pgDirTable < 2 ^ 32 ∧
    l.pgMl4Table ≠ l.pgDirPtrTable ∧ l.pgMl4Table ≠ l.pgDirTable ∧
    l.pgDirPtrTable ≠ l.pgDirTable := by
  have hlt := l.lt
  simp only [pgDirPtrTable, pgDirTable, tableAlignment] at hlt ⊢
  omega

end Placement

structure Cpu where
  eax : BitVec 32
  cr3 : ℕ
  tables : Tables

/-- `mov eax, value`, or `lea`. -/
def movEax (value : ℕ) : Code Cpu Unit := modify fun s => { s with eax := .ofNat 32 value }

/-- `or eax, value`. -/
def orEax (value : BitVec 32) : Code Cpu Unit := modify fun s => { s with eax := s.eax ||| value }

/-- `mov [table + 8 * k], eax`: the low half of an entry. -/
def storeEax (table : ℕ) (k : Fin tableLen) : Code Cpu Unit := modify fun s =>
  { s with tables := set s.tables table k (s.tables table k / 2 ^ 32 * 2 ^ 32 + s.eax.toNat) }

/-- `mov cr3, eax`. -/
def movCr3 : Code Cpu Unit := modify fun s => { s with cr3 := s.eax.toNat }

/-- The three instructions that set an entry. -/
def setEntry (table : ℕ) (k : Fin tableLen) (value : ℕ) (flags : BitVec 32) : Code Cpu Unit := do
  movEax value
  orEax flags
  storeEax table k

def enablePaging (l : Placement) : Code Cpu Unit := do
  setEntry l.pgMl4Table 0 l.pgDirPtrTable 0b11
  setEntry l.pgMl4Table 511 l.pgDirPtrTable 0b11
  setEntry l.pgDirPtrTable 0 l.pgDirTable 0b11
  setEntry l.pgDirPtrTable 510 l.pgDirTable 0b11
  setEntry l.pgDirTable 0 0 0b10000011
  setEntry l.pgDirTable 1 0x200000 0b10000011
  setEntry l.pgDirTable 2 0x400000 0b10000011
  setEntry l.pgDirTable 3 0x600000 0b10000011
  movEax l.pgMl4Table
  movCr3

/-! ## What is in the tables -/

variable {l : Placement} {tables : Tables} {v : ℕ}

/-- The flags of the pages. -/
def pageFlags : List Flag := [.present, .readWrite, .pageSize]

/-- The entry of the `k`th 2 MiB. -/
def pageWord (k : ℕ) : ℕ := Entry.pageWord .large ⟨k * 2 ^ 21⟩ pageFlags

/-- A table as the loader leaves it. -/
def blankTable : Fin tableLen → ℕ := fun _ => 0

/-- The three tables when `cr3` is loaded. -/
structure Filled (l : Placement) (tables : Tables) : Prop where
  pml4 : tables l.pgMl4Table =
    update (update blankTable 0 (Entry.link l.pgDirPtrTable)) 511 (Entry.link l.pgDirPtrTable)
  pdpt : tables l.pgDirPtrTable =
    update (update blankTable 0 (Entry.link l.pgDirTable)) 510 (Entry.link l.pgDirTable)
  pd : tables l.pgDirTable =
    update (update (update (update blankTable 0 (pageWord 0)) 1 (pageWord 1)) 2 (pageWord 2))
      3 (pageWord 3)

theorem setEntry_run {table value : ℕ} {k : Fin tableLen} {flags : BitVec 32} {s : Cpu}
    (hzero : s.tables table k = 0) (hvalue : value < 2 ^ 32) :
    (setEntry table k value flags).run s = .ok () { s with
      eax := .ofNat 32 value ||| flags
      tables := set s.tables table k (flags.toNat ||| value) } := by
  have hword : s.tables table k / 2 ^ 32 * 2 ^ 32 + (BitVec.ofNat 32 value ||| flags).toNat =
      flags.toNat ||| value := by
    rw [hzero, BitVec.toNat_or, BitVec.toNat_ofNat, Nat.mod_eq_of_lt hvalue, Nat.lor_comm]
    omega
  rw [← hword]
  rfl

theorem set_row {t e : ℕ} {i : Fin tableLen} : set tables t i e t = update (tables t) i e :=
  Function.update_self ..

theorem enablePaging_run (l : Placement) {s : Cpu}
    (hzero : ∀ t, l.pgMl4Table ≤ t → t < l.stop → ∀ k, s.tables t k = 0) :
    ∃ s', (enablePaging l).run s = .ok () s' ∧ s'.cr3 = l.pgMl4Table ∧ Filled l s'.tables ∧
      ∀ t, l.stop ≤ t → s'.tables t = s.tables t := by
  obtain ⟨hv, hv', h1, h2, h3⟩ := l.apart
  have hrow : ∀ t, t = l.pgMl4Table ∨ t = l.pgDirPtrTable ∨ t = l.pgDirTable →
      s.tables t = blankTable := by
    intro t ht
    refine funext fun k => hzero t ?_ ?_ k <;>
      simp only [Placement.stop, Placement.pgDirPtrTable, Placement.pgDirTable, tableAlignment]
        at ht ⊢ <;> omega
  have hpml4 := hrow _ (.inl rfl)
  have hpdpt := hrow _ (.inr (.inl rfl))
  have hpd := hrow _ (.inr (.inr rfl))
  rw [enablePaging, Code.bind_ok (setEntry_run (congrFun hpml4 0) hv),
    Code.bind_ok (setEntry_run (by simp [set_row, hpml4, blankTable]) hv),
    Code.bind_ok (setEntry_run (by simp [set_table_of_ne h1.symm, hpdpt, blankTable]) hv'),
    Code.bind_ok (setEntry_run (by simp [set_row, set_table_of_ne h1.symm, hpdpt, blankTable]) hv'),
    Code.bind_ok (setEntry_run (by simp [set_table_of_ne, h2.symm, h3.symm, hpd, blankTable])
      (by decide)),
    Code.bind_ok (setEntry_run
      (by simp [set_row, set_table_of_ne, h2.symm, h3.symm, hpd, blankTable]) (by decide)),
    Code.bind_ok (setEntry_run
      (by simp [set_row, set_table_of_ne, h2.symm, h3.symm, hpd, blankTable]) (by decide)),
    Code.bind_ok (setEntry_run
      (by simp [set_row, set_table_of_ne, h2.symm, h3.symm, hpd, blankTable]) (by decide))]
  refine ⟨_, rfl, ?_, ⟨?_, ?_, ?_⟩, fun t ht => ?_⟩
  · exact Nat.mod_eq_of_lt (by have := l.lt; simp only [tableAlignment] at this; omega)
  · simp only [set_row, set_table_of_ne h1, set_table_of_ne h2, hpml4]
    rfl
  · simp only [set_row, set_table_of_ne h1.symm, set_table_of_ne h3, hpdpt]
    rfl
  · simp only [set_row, set_table_of_ne h2.symm, set_table_of_ne h3.symm, hpd]
    rfl
  · have hne : t ≠ l.pgMl4Table ∧ t ≠ l.pgDirPtrTable ∧ t ≠ l.pgDirTable := by
      simp only [Placement.stop, Placement.pgDirPtrTable, Placement.pgDirTable, tableAlignment]
        at ht ⊢
      omega
    simp only [set_table_of_ne hne.1, set_table_of_ne hne.2.1, set_table_of_ne hne.2.2]

/-! ## The walk -/

namespace Filled

variable (h : Filled l tables)
include h

theorem pml4_apply (k : Fin tableLen) : tables l.pgMl4Table k =
    if k.val = 0 ∨ k.val = 511 then Entry.link l.pgDirPtrTable else 0 := by
  have h0 : k = 0 ↔ k.val = 0 := Fin.ext_iff
  have h511 : k = 511 ↔ k.val = 511 := Fin.ext_iff
  rw [h.pml4, Function.update_apply, Function.update_apply, blankTable]
  simp only [h0, h511]
  by_cases hk : k.val = 511
  · simp [hk]
  · simp [hk]

theorem pdpt_apply (k : Fin tableLen) : tables l.pgDirPtrTable k =
    if k.val = 0 ∨ k.val = 510 then Entry.link l.pgDirTable else 0 := by
  have h0 : k = 0 ↔ k.val = 0 := Fin.ext_iff
  have h510 : k = 510 ↔ k.val = 510 := Fin.ext_iff
  rw [h.pdpt, Function.update_apply, Function.update_apply, blankTable]
  simp only [h0, h510]
  by_cases hk : k.val = 510
  · simp [hk]
  · simp [hk]

theorem pd_apply (k : Fin tableLen) :
    tables l.pgDirTable k = if k.val < 4 then pageWord k.val else 0 := by
  rw [h.pd]
  by_cases hk : k.val < 4
  · rw [if_pos hk]
    obtain ⟨k, hlt⟩ := k
    obtain rfl | rfl | rfl | rfl : k = 0 ∨ k = 1 ∨ k = 2 ∨ k = 3 := by simp only at hk; omega
    all_goals rfl
  · have hne (j : Fin tableLen) (hj : j.val < 4) : k ≠ j := fun heq => hk (heq ▸ hj)
    rw [if_neg hk, Function.update_of_ne (hne 3 (by decide)),
      Function.update_of_ne (hne 2 (by decide)), Function.update_of_ne (hne 1 (by decide)),
      Function.update_of_ne (hne 0 (by decide))]
    rfl

end Filled

theorem pageFlags_ok : PageFlags .large pageFlags := ⟨by decide, by decide⟩

theorem decode_zero (d : ℕ) : Hardware.decode d 0 = .notPresent :=
  Hardware.decode_not_present (Nat.zero_testBit 0)

theorem Placement.isFrame (l : Placement) : IsFrame l.pgDirPtrTable ∧ IsFrame l.pgDirTable := by
  have huma : uma.stop = 2 ^ 46 := rfl
  have hal := l.aligned
  have hlt := l.lt
  simp only [IsFrame, pgDirPtrTable, pgDirTable, tableAlignment] at hal hlt ⊢
  omega

/-- The address is in one of the four windows, by its indices. -/
def InWindow (v : ℕ) : Prop :=
  ((key v 0).val = 0 ∨ (key v 0).val = 511) ∧ ((key v 1).val = 0 ∨ (key v 1).val = 510) ∧
    (key v 2).val < 4

instance (v : ℕ) : Decidable (InWindow v) := inferInstanceAs (Decidable (_ ∧ _))

theorem walk_eq (h : Filled l tables) (v : ℕ) : Hardware.walk tables l.pgMl4Table v =
    if InWindow v then .page 2 ((key v 2).val * 2 ^ 21) true false else .notPresent := by
  have huma : uma.stop = 2 ^ 46 := rfl
  have hbase : Hardware.base 12 l.pgMl4Table = l.pgMl4Table := by
    have hal := l.aligned
    have hlt := l.lt
    simp only [Hardware.base, tableAlignment] at hal hlt ⊢
    omega
  obtain ⟨hpdpt, hpd⟩ := l.isFrame
  rw [Hardware.walk, hbase, Hardware.walkFrom, h.pml4_apply]
  by_cases h0 : (key v 0).val = 0 ∨ (key v 0).val = 511
  · rw [if_pos h0, Hardware.decode_link (by decide) hpdpt]
    simp only
    rw [Hardware.walkFrom, h.pdpt_apply]
    by_cases h1 : (key v 1).val = 0 ∨ (key v 1).val = 510
    · rw [if_pos h1, Hardware.decode_link (by decide) hpd]
      simp only
      rw [Hardware.walkFrom, h.pd_apply]
      by_cases h2 : (key v 2).val < 4
      · have hal : PageSize.large.align ∣ (key v 2).val * 2 ^ 21 := Nat.dvd_mul_left _ _
        have hdecode : Hardware.decode 2 (pageWord (key v 2).val) =
            .page ((key v 2).val * 2 ^ 21) :=
          Hardware.decode_pageWord pageFlags_ok hal
            (show (key v 2).val * 2 ^ 21 < uma.stop by omega)
        have hwrite : (pageWord (key v 2).val).testBit 1 = true :=
          (Hardware.pageWord_writable pageFlags_ok hal).mpr (by decide)
        rw [if_pos h2, if_pos ⟨h0, h1, h2⟩, hdecode]
        simp only [hwrite, Hardware.link_writable, Hardware.link_user, hpdpt, hpd, Bool.and_true,
          Bool.and_false, Bool.false_and]
      · rw [if_neg h2, if_neg fun hin => h2 hin.2.2, decode_zero]
    · rw [if_neg h1, if_neg fun hin => h1 hin.2.1, decode_zero]
  · rw [if_neg h0, if_neg fun hin => h0 hin.1, decode_zero]

/-- Where the windows start. -/
def windows : List ℕ := [0, 0x7F80000000, 0xFFFFFF8000000000, 0xFFFFFFFF80000000]

/-- Addresses that the processor takes: bits 47 to 63 are equal. -/
def Canonical (v : ℕ) : Prop := v < 2 ^ 47 ∨ (2 ^ 64 - 2 ^ 47 ≤ v ∧ v < 2 ^ 64)

theorem inWindow_iff (hv : Canonical v) :
    InWindow v ↔ ∃ start ∈ windows, start ≤ v ∧ v < start + 2 ^ 23 := by
  simp only [windows, List.mem_cons, List.not_mem_nil, or_false, exists_eq_or_imp, exists_eq_left]
  simp only [InWindow, key, tableLen, Canonical] at hv ⊢
  omega

/-- An address in a window, and its distance from the start of the window. -/
theorem sub_window {start : ℕ} (hmem : start ∈ windows) (hle : start ≤ v)
    (hlt : v < start + 2 ^ 23) : (key v 2).val * 2 ^ 21 + v % 2 ^ 21 = v - start := by
  simp only [windows, List.mem_cons, List.not_mem_nil, or_false] at hmem
  simp only [key, tableLen]
  omega

theorem mapsTo_iff (h : Filled l tables) (hv : Canonical v) (p : ℕ) :
    Hardware.MapsTo tables l.pgMl4Table v p ↔
      ∃ start ∈ windows, start ≤ v ∧ v < start + 2 ^ 23 ∧ p = v - start := by
  have hwalk := walk_eq h v
  by_cases hin : InWindow v
  · rw [if_pos hin] at hwalk
    rw [Hardware.mapsTo_iff_of_page hwalk]
    obtain ⟨start, hmem, hle, hlt⟩ := (inWindow_iff hv).mp hin
    have hoffset := sub_window hmem hle hlt
    constructor
    · rintro rfl
      exact ⟨start, hmem, hle, hlt, hoffset⟩
    · rintro ⟨start', hmem', hle', hlt', rfl⟩
      exact (sub_window hmem' hle' hlt').symm
  · rw [if_neg hin] at hwalk
    constructor
    · rintro ⟨d, base, writable, user, hpage, -⟩
      rw [hwalk] at hpage
      cases hpage
    · rintro ⟨start, hmem, hle, hlt, -⟩
      exact absurd ((inWindow_iff hv).mpr ⟨start, hmem, hle, hlt⟩) hin

/-- **The start-up code maps the first 8 MiB, four times, and nothing else.**  Wherever the linker
placed the three tables, `_enable_paging` leaves `cr3` such that the processor takes a canonical
address to a physical one exactly if it lies in one of the windows, and then to its distance from
the start of that window. -/
theorem boot_windows (l : Placement) {s : Cpu}
    (hzero : ∀ t, l.pgMl4Table ≤ t → t < l.stop → ∀ k, s.tables t k = 0) :
    ∃ s', (enablePaging l).run s = .ok () s' ∧ ∀ v, Canonical v → ∀ p,
      (Hardware.MapsTo s'.tables s'.cr3 v p ↔
        ∃ start ∈ windows, start ≤ v ∧ v < start + 2 ^ 23 ∧ p = v - start) := by
  obtain ⟨s', hrun, hcr3, hfilled, -⟩ := enablePaging_run l hzero
  refine ⟨s', hrun, fun v hv p => ?_⟩
  rw [hcr3]
  exact mapsTo_iff hfilled hv p

/-- The tables right after the header of the image, at 2 MiB and a page. -/
def afterHeader : Placement := ⟨0x201000, by decide, by decide⟩

theorem boot_windows_afterHeader :
    ∃ s', (enablePaging afterHeader).run ⟨0, 0, fun _ _ => 0⟩ = .ok () s' ∧ ∀ v, Canonical v → ∀ p,
      (Hardware.MapsTo s'.tables s'.cr3 v p ↔
        ∃ start ∈ windows, start ≤ v ∧ v < start + 2 ^ 23 ∧ p = v - start) :=
  boot_windows afterHeader fun _ _ _ _ => rfl

/-! ## The switch of `cr3` -/

/-- The tables of the start-up code lie below those of `init`. -/
def Below (l : Placement) (st : Statics) : Prop :=
  l.stop ≤ st.pml4 ∧ l.stop ≤ st.pd ∧ ∀ i < 256, l.stop ≤ st.pdpt i

/-- `init` leaves the tables of the start-up code alone. -/
theorem Filled.rounds {st : Statics} {last : ℕ} {tables' : Tables} (h : Filled l tables)
    (hbelow : Below l st) (hrounds : MemoryManager.Rounds st last 256 tables tables') :
    Filled l tables' := by
  obtain ⟨hpml4, hpd, hpdpt⟩ := hbelow
  have hsame : ∀ t, t < l.stop → tables' t = tables t := by
    intro t ht
    refine hrounds.other t (by omega) ?_
    rintro i hi (rfl | ⟨-, rfl⟩)
    · exact absurd (hpdpt i hi) (by omega)
    · omega
  have hlt : l.pgMl4Table < l.stop ∧ l.pgDirPtrTable < l.stop ∧ l.pgDirTable < l.stop := by
    simp only [Placement.stop, Placement.pgDirPtrTable, Placement.pgDirTable, tableAlignment]
    omega
  exact ⟨(hsame _ hlt.1).trans h.pml4, (hsame _ hlt.2.1).trans h.pdpt,
    (hsame _ hlt.2.2).trans h.pd⟩

/-- No address of the lower half is mapped by the tables of `init`. -/
theorem walk_lower {st : Statics} {last : ℕ} {tables' : Tables}
    (hrounds : MemoryManager.Rounds st last 256 tables tables')
    (hzero : ∀ k, tables st.pml4 k = 0) (hv : v < 2 ^ 47) :
    Hardware.walk tables' st.pml4 v = .notPresent := by
  have hkey : (key v 0).val < 256 := key_lower hv
  have hentry : tables' st.pml4 (key v 0) = 0 := by
    rw [hrounds.pml4 _ (by omega), hzero]
  rw [Hardware.walk, MemoryManager.base_pml4, Hardware.walkFrom, hentry, decode_zero]

theorem zeroed_of_same {st : Statics} {tables' : Tables} (hbelow : Below l st)
    (hzero : MemoryManager.Zeroed st tables) (hsame : ∀ t, l.stop ≤ t → tables' t = tables t) :
    MemoryManager.Zeroed st tables' := by
  obtain ⟨hpml4, hpd, hpdpt⟩ := hbelow
  intro t ht k
  have hge : l.stop ≤ t := by
    rcases ht with rfl | rfl | ⟨i, hi, rfl⟩
    · exact hpml4
    · exact hpd
    · exact hpdpt i hi
  rw [hsame t hge]
  exact hzero t ht k

/-- **The kernel does not notice the switch.**  For every kernel that ends in the first 8 MiB, and
whatever memory is managed: the start-up code fills its tables, and `init` fills its own, after
which those still are as the start-up code filled them.  In memory as it then is, the value of
`cr3` before the switch and the one after take every address of the kernel image to the same
place, its distance from the start of the image; and with the one after, no address of the lower
half is mapped. -/
theorem switch_unnoticed {π : Type} (l : Placement) (st : Statics) (bmm : MemblockSystem) (b : Cpu)
    (m : Machine π) (hbelow : Below l st) (hend : st.kernelEnd ≤ kernelImage.start + 2 ^ 23)
    (hpos : 0 < bmm.managedRange.size) (hfit : bmm.managedRange.size ≤ uma.stop)
    (hboot : ∀ t, l.pgMl4Table ≤ t → t < l.stop → ∀ k, b.tables t k = 0)
    (hzero : MemoryManager.Zeroed st b.tables) :
    ∃ b' map m', (enablePaging l).run b = .ok () b' ∧
      (MemoryManager.init st bmm).run { m with tables := b'.tables } = .ok map m' ∧
      Filled l b'.tables ∧ Filled l m'.tables ∧
      (∀ v, kernelImage.start ≤ v → v < st.kernelEnd →
        Hardware.MapsTo m'.tables b'.cr3 v (v - kernelImage.start) ∧
          Hardware.MapsTo m'.tables map.cr3 v (v - kernelImage.start)) ∧
      ∀ v < 2 ^ 47, Hardware.walk m'.tables map.cr3 v = .notPresent := by
  have hstart : kernelImage.start = 0xFFFFFFFF80000000 := rfl
  obtain ⟨b', hrun, hcr3, hfilled, hsame⟩ := enablePaging_run l hboot
  have hzero' := zeroed_of_same hbelow hzero hsame
  obtain ⟨tables, hinit, hrounds, hkernel⟩ :=
    MemoryManager.init_run_kernel st bmm hpos hfit { m with tables := b'.tables } hzero'
  have hfilled' := hfilled.rounds hbelow hrounds
  have hend' : st.kernelEnd ≤ kernelImage.start + 2 ^ 30 :=
    hend.trans (Nat.add_le_add_left (by decide) _)
  refine ⟨b', _, _, hrun, hinit, hfilled, hfilled', fun v hle hlt => ⟨?_, ?_⟩, fun v hv => ?_⟩
  · rw [hcr3]
    refine (mapsTo_iff hfilled' (.inr (by omega)) _).mpr ⟨kernelImage.start, ?_, hle, by omega, rfl⟩
    simp [windows, hstart]
  · have hwalk := hrounds.walk_kernel hkernel hend' hle hlt
    refine (Hardware.mapsTo_iff_of_page hwalk _).mpr ?_
    simp only [Hardware.order]
    omega
  · exact walk_lower hrounds (hzero' _ (.inl rfl)) hv

theorem below_fourMiB : Below ⟨0x1FD000, by decide, by decide⟩ MemoryManager.fourMiB := by
  have hstart : kernelImage.start = 0xFFFFFFFF80000000 := rfl
  refine ⟨?_, ?_, fun i _ => ?_⟩
  · rw [Statics.pml4, Statics.frame_eq]
    decide
  · rw [Statics.pd, Statics.frame_eq]
    decide
  · rw [Statics.pdpt, Statics.frame_eq, Statics.pdptTable, hstart]
    simp only [Placement.stop, tableAlignment, MemoryManager.fourMiB]
    omega

theorem switch_unnoticed_fourMiB : ∃ b' map m', (enablePaging ⟨0x1FD000, by decide, by decide⟩).run
      ⟨0, 0, fun _ _ => 0⟩ = .ok () b' ∧
    (MemoryManager.init MemoryManager.fourMiB (MemoryManager.managing 0x400000 (2 ^ 30))).run
      { MemoryManager.blankMemory with tables := b'.tables } = .ok map m' ∧
    Filled ⟨0x1FD000, by decide, by decide⟩ m'.tables ∧
    Hardware.MapsTo m'.tables map.cr3 0xFFFFFFFF800B8000 0xB8000 := by
  obtain ⟨b', map, m', hboot, hinit, -, hfilled, hmaps, -⟩ := switch_unnoticed
    ⟨0x1FD000, by decide, by decide⟩ MemoryManager.fourMiB
    (MemoryManager.managing 0x400000 (2 ^ 30)) ⟨0, 0, fun _ _ => 0⟩
    MemoryManager.blankMemory below_fourMiB (by decide) (by decide) (by decide)
    (fun _ _ _ _ => rfl) fun _ _ _ => rfl
  have hscreen := (hmaps 0xFFFFFFFF800B8000 (by decide) (by decide)).2
  have hoffset : 0xFFFFFFFF800B8000 - kernelImage.start = 0xB8000 := by decide
  rw [hoffset] at hscreen
  exact ⟨b', map, m', hboot, hinit, hfilled, hscreen⟩

end Boot

end Koe
