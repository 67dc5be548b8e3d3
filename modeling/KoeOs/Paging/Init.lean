/-
# `KoeOs.Paging.Init` — `X86_64MemoryManager::init` of `src/mem/paging.rs`

The first map is built in statics of the kernel image: a PML4 table, 256 PDPTs for its upper
half, and one PD for the kernel itself.  Slot `i` of the PDPTs belongs to entry `256 + i`:

    entry 511         the kernel: 2 MiB pages from 0 up to its end, by the PD
    entries 273..end  the window: 512 pages of 1 GiB, the slot's part of physical memory
    other entries     empty

What is in every entry of the tables afterwards is said by `PdptFilled` and `KernelFilled`.

Where the window ends is computed from the *size* of the managed range.  The window starts
at physical address 0 and not at the base of the range, so the last addresses of the range
may lie in a slot past the end: exactly if the base pushes them over a 512 GiB boundary
(`init_remaps_iff`, `init_misses_end`).

Before `init`, the boot loader's tables map the kernel image to the physical memory it was
loaded to, so a static at `vaddr` is the frame at `vaddr` less the start of the image.
-/
import KoeOs.Paging.Hardware
import KoeOs.Phy.Memblock

namespace Koe

open TableTree

/-! ## The statics -/

/-- Where the linker placed the tables of `init` and the end of the kernel. -/
structure Statics where
  /-- `PML4_TABLE`. -/
  pml4Table : ℕ
  /-- `PDPT_TABLES`: the first of 256. -/
  pdptTables : ℕ
  /-- `KERNEL_PD_TABLE`. -/
  kernelPdTable : ℕ
  /-- `_KERNEL_END_VMA`. -/
  kernelEnd : ℕ
  pml4_aligned : tableAlignment ∣ pml4Table
  pdpts_aligned : tableAlignment ∣ pdptTables
  pd_aligned : tableAlignment ∣ kernelPdTable
  pml4_mem : kernelImage.start ≤ pml4Table ∧ pml4Table + tableAlignment ≤ kernelEnd
  pdpts_mem : kernelImage.start ≤ pdptTables ∧ pdptTables + 256 * tableAlignment ≤ kernelEnd
  pd_mem : kernelImage.start ≤ kernelPdTable ∧ kernelPdTable + tableAlignment ≤ kernelEnd
  pml4_pdpts : pml4Table + tableAlignment ≤ pdptTables ∨
    pdptTables + 256 * tableAlignment ≤ pml4Table
  pml4_pd : pml4Table + tableAlignment ≤ kernelPdTable ∨
    kernelPdTable + tableAlignment ≤ pml4Table
  pd_pdpts : kernelPdTable + tableAlignment ≤ pdptTables ∨
    pdptTables + 256 * tableAlignment ≤ kernelPdTable
  kernelEnd_lt : kernelEnd < kernelImage.stop

namespace Statics

variable (st : Statics)

/-- The address of one of the 256. -/
def pdptTable (i : ℕ) : ℕ := st.pdptTables + i * tableAlignment

/-- The frame of a static. -/
def frame (vaddr : ℕ) : ℕ := vaddr - kernelImage.start

theorem frame_eq (vaddr : ℕ) : frame vaddr = vaddr - kernelImage.start := rfl

-- unfolded, it is a subtraction of a large literal from a variable
attribute [irreducible] frame

/-- The frame of the PML4 table. -/
def pml4 : ℕ := frame st.pml4Table

/-- The frame of the `i`th PDPT. -/
def pdpt (i : ℕ) : ℕ := frame (st.pdptTable i)

/-- The frame of the kernel's PD. -/
def pd : ℕ := frame st.kernelPdTable

end Statics

/-! ## `init` -/

namespace MemoryManager

variable {π σ : Type}

/-- `KERNEL_PAGE_FLAGS`. -/
def kernelPageFlags : List Flag := [.present, .pageSize, .global, .readWrite]

/-- `KERNEL_PAGE_SIZE`, that of a page a PD entry refers to. -/
def kernelPageSize : PageSize := .large

/-- `REMAP_PAGE_FLAGS`. -/
def remapPageFlags : List Flag := [.present, .pageSize, .global, .readWrite]

/-- `REMAP_PAGE_SIZE`, that of a page a PDPT entry refers to. -/
def remapPageSize : PageSize := .huge

/-- `while kernel_page_vaddr < kernel_end_vma()`. -/
def kernelPages (st : Statics) : ℕ → Addr kernelImage → Code (Machine π) Unit
  | 0, _ => throw .outOfFuel
  | fuel + 1, kernelPageVaddr => do
      if kernelPageVaddr < (← Addr.new st.kernelEnd) then
        let kernelPagePaddr ← imageV2p kernelPageVaddr
        let pdEnt ← TableRef.indexWithVaddr .pd st.pd kernelPageVaddr
        let _ ← pdEnt.reinit kernelPagePaddr kernelPageFlags
        kernelPages st fuel (← kernelPageVaddr.byteAdd kernelPageSize.usize)
      else return ()

/-- `init_kernel_pdpt`. -/
def initKernelPdpt (st : Statics) (pdpt : ℕ) : Code (Machine π) Unit := do
  let kernelSpaceStart : Addr kernelImage ← Addr.new kernelImage.start
  let pdptEnt ← TableRef.indexWithVaddr .pdpt pdpt kernelSpaceStart
  let res ← pdptEnt.reinit (← imageV2p (← Addr.new st.kernelPdTable)) defaultPageTableFlags
  let _ ← Code.expect res "init kernel pd should succeed"
  kernelPages st 1024 kernelSpaceStart

/-- One round of the loop of `init_physical_remap_pdpt`. -/
def remapPage (pdpt remapStart : ℕ) (idx : Fin tableLen) : Code (Machine π) Unit := do
  let remapPaddr ← Addr.new (← Usize.add remapStart (idx.val * remapPageSize.usize))
  let _ ← EntryRef.reinit ⟨.pdpt, some (pdpt, idx)⟩ remapPaddr remapPageFlags

/-- `init_physical_remap_pdpt`. -/
def initPhysicalRemapPdpt (pdpt remapIdx : ℕ) : Code (Machine π) Unit := do
  let remapStart ← Usize.mul remapIdx (remapPageSize.usize * tableLen)
  (List.finRange tableLen).forM (remapPage pdpt remapStart)

/-- The PML4 index of an address. -/
def pml4Idx {S : AddrSpace} (vaddr : Addr S) : Code σ ℕ := do
  vaddr.indexRange (← Level.pml4.pageTableIdxRange)

/-- The PML4 index where the window ends, by the size of the managed range. -/
def remapEnd (bmm : MemblockSystem) : Code σ ℕ := do
  let stop ← Usize.sub (← Usize.add physicalRemap.start bmm.managedRange.size) 1
  pml4Idx (← Addr.new (min (physicalRemap.stop - 1) stop) : Addr physicalRemap)

/-- What a round of the loop of `init` does to the `i`th PDPT, which belongs to entry `idx`. -/
def fillPdpt (st : Statics) (bmm : MemblockSystem) (i idx : ℕ) : Code (Machine π) Unit := do
  let kernelPageIdx ← pml4Idx (← Addr.new kernelImage.start : Addr kernelImage)
  let remapPageStart ← pml4Idx (← Addr.new physicalRemap.start : Addr physicalRemap)
  let remapPageEnd ← remapEnd bmm
  if idx = kernelPageIdx then initKernelPdpt st (st.pdpt i)
  else if remapPageStart ≤ idx ∧ idx ≤ remapPageEnd then
    initPhysicalRemapPdpt (st.pdpt i) (← Usize.sub idx remapPageStart)
  else return ()

/-- A round of the loop of `init`. -/
def initPdpt (st : Statics) (bmm : MemblockSystem) (i : ℕ) : Code (Machine π) Unit := do
  -- the PDPTs are for the upper half
  let idx ← Usize.add i 256
  fillPdpt st bmm i idx
  let pdptTablePaddr ← imageV2p (← Addr.new (st.pdptTable i))
  let pml4Ent ← TableRef.index .pml4 st.pml4 idx
  let _ ← pml4Ent.reinit pdptTablePaddr defaultPageTableFlags

/-- The first map; it is loaded into `cr3`. -/
def init (st : Statics) (bmm : MemblockSystem) : Code (Machine π) MemoryMap := do
  (List.range 256).forM (initPdpt st bmm)
  let pml4Paddr ← imageV2p (← Addr.new st.pml4Table)
  let (res, cr3) ← Code.locally 0 (Entry.reinit .cr3 pml4Paddr [])
  let _ ← Code.expect res "cr3 fail"
  return ⟨cr3, []⟩

end MemoryManager

/-! ## Where the statics are -/

namespace Statics

variable (st : Statics) {i j : ℕ}

theorem frame_isFrame {vaddr : ℕ} (hal : tableAlignment ∣ vaddr) (hle : kernelImage.start ≤ vaddr)
    (hlt : vaddr < kernelImage.stop) : IsFrame (frame vaddr) := by
  have hstart : kernelImage.start = 0xFFFFFFFF80000000 := rfl
  have hstop : kernelImage.stop = 0xFFFFFFFFFF600000 := rfl
  have huma : uma.stop = 2 ^ 46 := rfl
  simp only [IsFrame, frame_eq, tableAlignment] at hal ⊢
  omega

theorem pdptTable_mem (hi : i < 256) :
    kernelImage.start ≤ st.pdptTable i ∧ st.pdptTable i + tableAlignment ≤ st.kernelEnd := by
  have hmem := st.pdpts_mem
  simp only [pdptTable, tableAlignment] at hmem ⊢
  omega

theorem pml4_isFrame : IsFrame st.pml4 := by
  have hmem := st.pml4_mem
  have hend := st.kernelEnd_lt
  refine frame_isFrame st.pml4_aligned hmem.1 ?_
  simp only [tableAlignment] at hmem
  omega

theorem pd_isFrame : IsFrame st.pd := by
  have hmem := st.pd_mem
  have hend := st.kernelEnd_lt
  refine frame_isFrame st.pd_aligned hmem.1 ?_
  simp only [tableAlignment] at hmem
  omega

theorem pdpt_isFrame (hi : i < 256) : IsFrame (st.pdpt i) := by
  have hmem := st.pdptTable_mem hi
  have hend := st.kernelEnd_lt
  refine frame_isFrame (Nat.dvd_add st.pdpts_aligned (Nat.dvd_mul_left _ _)) hmem.1 ?_
  simp only [tableAlignment] at hmem
  omega

theorem frame_lt {vaddr : ℕ} (hle : kernelImage.start ≤ vaddr) (hlt : vaddr < st.kernelEnd) :
    frame vaddr < frame st.kernelEnd := by
  rw [frame_eq, frame_eq]
  omega

theorem pml4_lt : st.pml4 < frame st.kernelEnd :=
  st.frame_lt st.pml4_mem.1 (Nat.lt_of_lt_of_le (Nat.lt_add_of_pos_right (by decide)) st.pml4_mem.2)

theorem pd_lt : st.pd < frame st.kernelEnd :=
  st.frame_lt st.pd_mem.1 (Nat.lt_of_lt_of_le (Nat.lt_add_of_pos_right (by decide)) st.pd_mem.2)

theorem pdpt_lt (hi : i < 256) : st.pdpt i < frame st.kernelEnd :=
  st.frame_lt (st.pdptTable_mem hi).1
    (Nat.lt_of_lt_of_le (Nat.lt_add_of_pos_right (by decide)) (st.pdptTable_mem hi).2)

theorem pdpt_injective (h : st.pdpt i = st.pdpt j) : i = j := by
  have hmem := st.pdpts_mem
  simp only [pdpt, frame_eq, pdptTable, tableAlignment] at h hmem
  omega

theorem pml4_ne_pdpt (hi : i < 256) : st.pml4 ≠ st.pdpt i := by
  have hmem := st.pml4_mem
  have hmem' := st.pdpts_mem
  have hor := st.pml4_pdpts
  simp only [pml4, pdpt, frame_eq, pdptTable, tableAlignment] at hmem hmem' hor ⊢
  omega

theorem pd_ne_pdpt (hi : i < 256) : st.pd ≠ st.pdpt i := by
  have hmem := st.pd_mem
  have hmem' := st.pdpts_mem
  have hor := st.pd_pdpts
  simp only [pd, pdpt, frame_eq, pdptTable, tableAlignment] at hmem hmem' hor ⊢
  omega

theorem pml4_ne_pd : st.pml4 ≠ st.pd := by
  have hmem := st.pml4_mem
  have hmem' := st.pd_mem
  have hor := st.pml4_pd
  simp only [pml4, pd, frame_eq, tableAlignment] at hmem hmem' hor ⊢
  omega

end Statics

/-! ## What the parts of `init` do -/

theorem imageV2p_run {σ : Type} {vaddr : ℕ} (hle : kernelImage.start ≤ vaddr)
    (hlt : vaddr < kernelImage.stop) (s : σ) :
    (imageV2p ⟨vaddr⟩).run s = .ok ⟨Statics.frame vaddr⟩ s := by
  have hstart : kernelImage.start = 0xFFFFFFFF80000000 := rfl
  have hstop : kernelImage.stop = 0xFFFFFFFFFF600000 := rfl
  have huma : uma.stop = 2 ^ 46 := rfl
  rw [imageV2p, Code.bind_ok (Code.assert_of (decide_eq_true ⟨hle, hlt⟩) _ s),
    Code.bind_ok (Usize.sub_of_le hle s), Statics.frame_eq]
  exact Addr.new_of_mem ⟨Nat.zero_le _, by omega⟩ s

namespace MemoryManager

variable {π σ : Type} {S : AddrSpace} {st : Statics} {bmm : MemblockSystem} {i r : ℕ}

theorem kernelPageFlags_ok : PageFlags kernelPageSize kernelPageFlags := ⟨by decide, by decide⟩

theorem remapPageFlags_ok : PageFlags remapPageSize remapPageFlags := ⟨by decide, by decide⟩

/-- The entry of the `k`th GiB of the `r`th 512 GiB. -/
def remapWord (r : ℕ) (k : Fin tableLen) : ℕ :=
  Entry.pageWord remapPageSize ⟨r * 2 ^ 39 + k.val * 2 ^ 30⟩ remapPageFlags

theorem pml4Idx_run (vaddr : Addr S) (s : σ) :
    (pml4Idx vaddr).run s = .ok (vaddr.value / 2 ^ 39 % 512) s := by
  rw [pml4Idx]
  exact Addr.indexRange_run vaddr (n := 39) (by decide) s

/-- The last slot of the window, counted from 0. -/
def lastSlot (bmm : MemblockSystem) : ℕ := (bmm.managedRange.size - 1) / 2 ^ 39

theorem remapEnd_run (hpos : 0 < bmm.managedRange.size) (hle : bmm.managedRange.size ≤ uma.stop)
    (s : σ) : (remapEnd bmm).run s = .ok (273 + lastSlot bmm) s := by
  have hstart : physicalRemap.start = 0xFFFF888000000000 := rfl
  have hstop : physicalRemap.stop = 0xFFFFC88000000000 := rfl
  have huma : uma.stop = 2 ^ 46 := rfl
  have hmodulus : Usize.modulus = 2 ^ 64 := rfl
  have hmin : min (physicalRemap.stop - 1) (physicalRemap.start + bmm.managedRange.size - 1)
      = physicalRemap.start + bmm.managedRange.size - 1 := Nat.min_eq_right (by omega)
  rw [remapEnd, Code.bind_ok (Usize.add_of_lt (by omega) s),
    Code.bind_ok (Usize.sub_of_le (by omega) s), hmin,
    Code.bind_ok (Addr.new_of_mem ⟨by omega, by omega⟩ s), pml4Idx_run]
  congr 1
  simp only [lastSlot]
  omega

/-- Nothing to manage: the end of the window is before its start. -/
theorem remapEnd_error (hzero : bmm.managedRange.size = 0) (s : σ) :
    (remapEnd bmm).run s = .error (.assertion "") s := by
  rw [remapEnd, hzero]
  rfl

theorem remapPage_run (hr : r < 128) (t : ℕ) (k : Fin tableLen) (s : Machine π) :
    (remapPage t (r * 2 ^ 39) k).run s
      = .ok () { s with tables := set s.tables t k (remapWord r k) } := by
  have huma : uma.stop = 2 ^ 46 := rfl
  have hmodulus : Usize.modulus = 2 ^ 64 := rfl
  have husize : remapPageSize.usize = 2 ^ 30 := rfl
  have hk : k.val < 512 := k.isLt
  have hal : remapPageSize.align ∣ r * 2 ^ 39 + k.val * 2 ^ 30 :=
    Nat.dvd_add (Nat.dvd_trans (by decide) (Nat.dvd_mul_left _ _)) (Nat.dvd_mul_left _ _)
  rw [remapPage, husize, Code.bind_ok (Usize.add_of_lt (by omega) s),
    Code.bind_ok (Addr.new_of_mem ⟨Nat.zero_le _, by omega⟩ s)]
  exact Code.bind_ok (EntryRef.reinit_run (remapPageFlags_ok.reinit_page hal _))

/-- The first `n` entries of the table `t`, replaced. -/
def overwritten (tables : Tables) (t n : ℕ) (entries : Fin tableLen → ℕ) : Tables :=
  Function.update tables t fun k => if k.val < n then entries k else tables t k

theorem overwritten_succ (tables : Tables) (t : ℕ) (entries : Fin tableLen → ℕ)
    (i : Fin tableLen) :
    set (overwritten tables t i entries) t i (entries i)
      = overwritten tables t (i + 1) entries := by
  rw [overwritten, set_update, overwritten]
  congr 1
  funext k
  by_cases hk : k = i
  · subst hk
    simp
  · have hne : k.val ≠ i.val := fun hv => hk (Fin.ext hv)
    have hlt : k.val < i.val + 1 ↔ k.val < i.val := by omega
    simp only [Function.update_of_ne hk, hlt]

theorem initPhysicalRemapPdpt_run (hr : r < 128) (t : ℕ) (s : Machine π) :
    (initPhysicalRemapPdpt t r).run s
      = .ok () { s with tables := Function.update s.tables t (remapWord r) } := by
  have hmodulus : Usize.modulus = 2 ^ 64 := rfl
  have hslot : remapPageSize.usize * tableLen = 2 ^ 39 := rfl
  have hstep : ∀ (i : Fin tableLen) (s₁ : Machine π),
      s₁ = { s with tables := overwritten s.tables t i (remapWord r) } →
      ∃ s₂, (remapPage t (r * 2 ^ 39) i).run s₁ = .ok () s₂ ∧
        s₂ = { s with tables := overwritten s.tables t (i + 1) (remapWord r) } := by
    rintro i _ rfl
    exact ⟨_, remapPage_run hr t i _, by rw [overwritten_succ]⟩
  obtain ⟨s', hrun, rfl⟩ := Code.forM_finRange_run
    (I := fun n s' => s' = { s with tables := overwritten s.tables t n (remapWord r) }) hstep
    (s := s) (by simp [overwritten])
  rw [initPhysicalRemapPdpt, hslot, Code.bind_ok (Usize.mul_of_lt (by omega) s), hrun]
  simp only [overwritten, Fin.is_lt, if_true]

/-- The entry of a page of the kernel. -/
def IsKernelPage (e : ℕ) : Prop :=
  ∃ addr : Addr uma, kernelPageSize.align ∣ addr.value ∧ addr.value < uma.stop ∧
    e = Entry.pageWord kernelPageSize addr kernelPageFlags

/-- Where the page of entry `k` of the PD is. -/
def kernelPageAt (k : Fin tableLen) : ℕ := kernelImage.start + k.val * 2 ^ 21

/-- The entry of that page. -/
def kernelWord (k : Fin tableLen) : ℕ :=
  Entry.pageWord kernelPageSize ⟨k.val * 2 ^ 21⟩ kernelPageFlags

/-- The pages from `vaddr` on are in the PD, up to the end of the kernel, if it ends in the one GiB
that a PD is for. -/
def KernelFilled (st : Statics) (vaddr : ℕ) (old entries : Fin tableLen → ℕ) : Prop :=
  st.kernelEnd ≤ kernelImage.start + 2 ^ 30 → ∀ k,
    entries k = if vaddr ≤ kernelPageAt k ∧ kernelPageAt k < st.kernelEnd then kernelWord k
      else old k

/-- A page more, at the front. -/
theorem KernelFilled.cons {vaddr : ℕ} {old entries : Fin tableLen → ℕ}
    (hle : kernelImage.start ≤ vaddr) (hal : kernelPageSize.align ∣ vaddr)
    (hmore : vaddr < st.kernelEnd)
    (h : KernelFilled st (vaddr + 2 ^ 21) (Function.update old (key vaddr 2)
      (Entry.pageWord kernelPageSize ⟨Statics.frame vaddr⟩ kernelPageFlags)) entries) :
    KernelFilled st vaddr old entries := by
  have hstart : kernelImage.start = 0xFFFFFFFF80000000 := rfl
  obtain ⟨q, rfl⟩ : 2 ^ 21 ∣ vaddr := hal
  intro hend k
  rw [h hend k]
  have hkey : (key (2 ^ 21 * q) 2).val = q % 512 := by
    simp only [key, tableLen]
    omega
  have hk : k.val < 512 := k.isLt
  by_cases heq : k = key (2 ^ 21 * q) 2
  · have hval : k.val = q % 512 := heq ▸ hkey
    have hat : kernelPageAt k = 2 ^ 21 * q := by
      rw [kernelPageAt]
      omega
    have haddr : Statics.frame (2 ^ 21 * q) = q % 512 * 2 ^ 21 := by
      rw [Statics.frame_eq]
      rw [kernelPageAt] at hat
      omega
    rw [if_neg (by omega), if_pos ⟨by omega, by omega⟩, heq, Function.update_self, kernelWord,
      haddr, hkey]
  · have hval : k.val ≠ q % 512 := fun hval => heq (Fin.ext (hval.trans hkey.symm))
    have hiff : 2 ^ 21 * q + 2 ^ 21 ≤ kernelPageAt k ↔ 2 ^ 21 * q ≤ kernelPageAt k := by
      rw [kernelPageAt]
      omega
    simp only [Function.update_of_ne heq, hiff]

/-- The loop over the pages of the kernel writes entries of the PD only. -/
theorem kernelPages_run (st : Statics) (fuel : ℕ) {vaddr : ℕ} (hle : kernelImage.start ≤ vaddr)
    (hal : kernelPageSize.align ∣ vaddr) (hlt : vaddr < st.kernelEnd + 2 ^ 21)
    (hfuel : st.kernelEnd + 2 ^ 21 ≤ vaddr + fuel * 2 ^ 21) (s : Machine π) : ∃ entries,
      (kernelPages st fuel ⟨vaddr⟩).run s
        = .ok () { s with tables := Function.update s.tables st.pd entries } ∧
      (∀ k, entries k = s.tables st.pd k ∨ IsKernelPage (entries k)) ∧
      KernelFilled st vaddr (s.tables st.pd) entries := by
  have hstart : kernelImage.start = 0xFFFFFFFF80000000 := rfl
  have hstop : kernelImage.stop = 0xFFFFFFFFFF600000 := rfl
  have huma : uma.stop = 2 ^ 46 := rfl
  have hmodulus : Usize.modulus = 2 ^ 64 := rfl
  have husize : kernelPageSize.usize = 2 ^ 21 := rfl
  have hend := st.kernelEnd_lt
  have hpd := st.pd_mem
  induction fuel generalizing vaddr s with
  | zero => omega
  | succ fuel ih =>
      rw [kernelPages, Code.bind_ok (Addr.new_of_mem ⟨by omega, hend⟩ s)]
      by_cases hmore : vaddr < st.kernelEnd
      · have hframe : kernelPageSize.align ∣ Statics.frame vaddr := by
          rw [Statics.frame_eq]
          exact Nat.dvd_sub hal (by decide)
        have hpaddr : Statics.frame vaddr < uma.stop := by
          rw [Statics.frame_eq]
          omega
        have hnext : kernelImage.start ≤ vaddr + 2 ^ 21 := by omega
        obtain ⟨entries, hrun, hentries, hfilled⟩ := ih hnext
          (Nat.dvd_add hal (Nat.dvd_refl _)) (by omega) (by omega)
          { s with
            tables := set s.tables st.pd (key vaddr 2)
              (Entry.pageWord kernelPageSize ⟨Statics.frame vaddr⟩ kernelPageFlags) }
        refine ⟨entries, ?_, fun k => ?_, ?_⟩
        · rw [if_pos (show (⟨vaddr⟩ : Addr kernelImage) < ⟨st.kernelEnd⟩ from hmore),
            Code.bind_ok (imageV2p_run hle (by omega) s)]
          refine (Code.bind_ok (LinearWalker.indexWithVaddr_run (d := 2) (by decide) s)).trans ?_
          refine (Code.bind_ok (EntryRef.reinit_run
            (kernelPageFlags_ok.reinit_page hframe _))).trans ?_
          refine (Code.bind_ok (Addr.byteAdd_of_lt hle (by simp only; omega) _)).trans ?_
          simp only [update_set] at hrun
          exact hrun
        · simp only at hentries
          rcases hentries k with hold | hnew
          · by_cases hk : k = key vaddr 2
            · rw [hk, set_self] at hold
              exact .inr ⟨⟨Statics.frame vaddr⟩, hframe, hpaddr, by rw [hk, hold]⟩
            · rw [set_of_ne fun h => hk h.2] at hold
              exact .inl hold
          · exact .inr hnew
        · refine KernelFilled.cons hle hal hmore ?_
          simp only [TableTree.set, Function.update_self] at hfilled
          exact hfilled
      · refine ⟨s.tables st.pd, ?_, fun k => .inl rfl, fun _ k => (if_neg (by omega)).symm⟩
        rw [if_neg (show ¬ (⟨vaddr⟩ : Addr kernelImage) < ⟨st.kernelEnd⟩ from hmore),
          Function.update_eq_self]
        rfl

/-- What is in a PDPT, and below it, when its round is over. -/
def PdptFilled (st : Statics) (last i : ℕ) (tables : Tables) : Prop :=
  if i = 255 then
    tables (st.pdpt i) 510 = Entry.link st.pd ∧ (∀ k ≠ 510, tables (st.pdpt i) k = 0) ∧
      ∀ k, tables st.pd k = 0 ∨ IsKernelPage (tables st.pd k)
  else if 17 ≤ i ∧ i ≤ 17 + last then tables (st.pdpt i) = remapWord (i - 17)
  else ∀ k, tables (st.pdpt i) k = 0

/-- A write elsewhere. -/
theorem PdptFilled.congr {last : ℕ} {tables tables' : Tables} (h : PdptFilled st last i tables)
    (hpdpt : tables' (st.pdpt i) = tables (st.pdpt i))
    (hpd : i = 255 → tables' st.pd = tables st.pd) : PdptFilled st last i tables' := by
  unfold PdptFilled at h ⊢
  split at h
  · rename_i hi
    rw [if_pos hi, hpdpt, hpd hi]
    exact h
  · rename_i hi
    rw [if_neg hi, hpdpt]
    exact h

theorem initKernelPdpt_run {t : ℕ} (ht : t ≠ st.pd) (s : Machine π) : ∃ entries,
    (initKernelPdpt st t).run s = .ok () { s with
      tables := Function.update (set s.tables t 510 (Entry.link st.pd)) st.pd entries } ∧
      (∀ k, entries k = s.tables st.pd k ∨ IsKernelPage (entries k)) ∧
      KernelFilled st kernelImage.start (s.tables st.pd) entries := by
  have hstart : kernelImage.start = 0xFFFFFFFF80000000 := rfl
  have hstop : kernelImage.stop = 0xFFFFFFFFFF600000 := rfl
  have hend := st.kernelEnd_lt
  have hpd := st.pd_mem
  simp only [tableAlignment] at hpd
  have hkey : key kernelImage.start 1 = 510 := by decide
  obtain ⟨entries, hrun, hentries⟩ := kernelPages_run st 1024 (Nat.le_refl _) (by decide)
    (by omega) (by omega) { s with tables := set s.tables t 510 (Entry.link st.pd) }
  refine ⟨entries, ?_, ?_⟩
  · rw [initKernelPdpt, Code.bind_ok (Addr.new_of_mem ⟨Nat.le_refl _, by decide⟩ s)]
    refine (Code.bind_ok (LinearWalker.indexWithVaddr_run (d := 1) (by decide) s)).trans ?_
    rw [Code.bind_ok (Addr.new_of_mem ⟨hpd.1, by omega⟩ s),
      Code.bind_ok (imageV2p_run hpd.1 (by omega) s)]
    refine (Code.bind_ok (EntryRef.reinit_run
      (Entry.reinit_link (d := 1) (by decide) st.pd_isFrame.1 _))).trans ?_
    refine (Code.bind_ok (Code.expect_some _ _ _)).trans ?_
    simp only [hkey]
    exact hrun
  · simp only [set_table_of_ne ht.symm] at hentries
    exact hentries

theorem lastSlot_le (hle : bmm.managedRange.size ≤ uma.stop) : lastSlot bmm ≤ 127 := by
  have huma : uma.stop = 2 ^ 46 := rfl
  rw [lastSlot]
  omega

/-- The tables that the round of the `i`th PDPT writes. -/
def RoundTable (st : Statics) (i t : ℕ) : Prop := t = st.pdpt i ∨ (i = 255 ∧ t = st.pd)

theorem fillPdpt_run (hpos : 0 < bmm.managedRange.size) (hle : bmm.managedRange.size ≤ uma.stop)
    (hi : i < 256) (s : Machine π) (hzero : ∀ t, RoundTable st i t → ∀ k, s.tables t k = 0) :
    ∃ tables, (fillPdpt st bmm i (i + 256)).run s = .ok () { s with tables } ∧
      PdptFilled st (lastSlot bmm) i tables ∧
      (i = 255 → KernelFilled st kernelImage.start 0 (tables st.pd)) ∧
      ∀ t, ¬ RoundTable st i t → tables t = s.tables t := by
  have hlast := lastSlot_le hle
  have hkernel : kernelImage.start / 2 ^ 39 % 512 = 511 := by decide
  have hremap : physicalRemap.start / 2 ^ 39 % 512 = 273 := by decide
  rw [fillPdpt, Code.bind_ok (Addr.new_of_mem ⟨Nat.le_refl _, by decide⟩ s),
    Code.bind_ok (pml4Idx_run _ s), Code.bind_ok (Addr.new_of_mem ⟨Nat.le_refl _, by decide⟩ s),
    Code.bind_ok (pml4Idx_run _ s), Code.bind_ok (remapEnd_run hpos hle s), hkernel, hremap]
  by_cases h255 : i = 255
  · subst h255
    obtain ⟨entries, hrun, hentries, hkernel⟩ := initKernelPdpt_run (st.pd_ne_pdpt hi).symm s
    have hpd : s.tables st.pd = 0 := funext (hzero st.pd (.inr ⟨rfl, rfl⟩))
    rw [if_pos rfl]
    refine ⟨_, hrun, ?_, fun _ => ?_, ?_⟩
    · rw [PdptFilled, if_pos rfl, Function.update_of_ne (st.pd_ne_pdpt hi).symm,
        Function.update_self]
      refine ⟨set_self, fun k hk => ?_, fun k => ?_⟩
      · rw [set_of_ne fun h => hk h.2]
        exact hzero _ (.inl rfl) k
      · rw [← hzero st.pd (.inr ⟨rfl, rfl⟩) k]
        exact hentries k
    · rw [Function.update_self, ← hpd]
      exact hkernel
    · intro t ht
      rw [Function.update_of_ne fun h => ht (.inr ⟨rfl, h⟩),
        set_table_of_ne fun h => ht (.inl h)]
  · rw [if_neg (by omega)]
    by_cases hslot : 17 ≤ i ∧ i ≤ 17 + lastSlot bmm
    · rw [if_pos (by omega), Code.bind_ok (Usize.sub_of_le (by omega) s),
        show i + 256 - 273 = i - 17 by omega, initPhysicalRemapPdpt_run (by omega)]
      refine ⟨_, rfl, ?_, fun h => absurd h h255, ?_⟩
      · rw [PdptFilled, if_neg h255, if_pos hslot, Function.update_self]
      · intro t ht
        exact Function.update_of_ne (fun h => ht (.inl h)) _ _
    · rw [if_neg (by omega)]
      refine ⟨s.tables, rfl, ?_, fun h => absurd h h255, fun t _ => rfl⟩
      rw [PdptFilled, if_neg h255, if_neg hslot]
      exact hzero _ (.inl rfl)

/-- What a round does. -/
structure Round (st : Statics) (last i : ℕ) (tables tables' : Tables) : Prop where
  filled : PdptFilled st last i tables'
  link : ∀ k : Fin tableLen, k.val = i + 256 → tables' st.pml4 k = Entry.link (st.pdpt i)
  pml4 : ∀ k : Fin tableLen, k.val ≠ i + 256 → tables' st.pml4 k = tables st.pml4 k
  other : ∀ t, t ≠ st.pml4 → ¬ RoundTable st i t → tables' t = tables t

theorem pml4_not_roundTable (hi : i < 256) : ¬ RoundTable st i st.pml4 := by
  rintro (h | ⟨-, h⟩)
  · exact st.pml4_ne_pdpt hi h
  · exact st.pml4_ne_pd h

theorem initPdpt_run (hpos : 0 < bmm.managedRange.size) (hle : bmm.managedRange.size ≤ uma.stop)
    (hi : i < 256) (s : Machine π) (hzero : ∀ t, RoundTable st i t → ∀ k, s.tables t k = 0) :
    ∃ tables, (initPdpt st bmm i).run s = .ok () { s with tables } ∧
      Round st (lastSlot bmm) i s.tables tables ∧
      (i = 255 → KernelFilled st kernelImage.start 0 (tables st.pd)) := by
  have hmodulus : Usize.modulus = 2 ^ 64 := rfl
  have hmem := st.pdptTable_mem hi
  have hend := st.kernelEnd_lt
  simp only [tableAlignment] at hmem
  obtain ⟨tables, hrun, hfilled, hkernel, hother⟩ := fillPdpt_run hpos hle hi s hzero
  have hidx : i + 256 < tableLen := by simp only [tableLen]; omega
  have hpd := set_table_of_ne (m := tables) (i := ⟨i + 256, hidx⟩) (e := Entry.link (st.pdpt i))
    st.pml4_ne_pd.symm
  refine ⟨set tables st.pml4 ⟨i + 256, hidx⟩ (Entry.link (st.pdpt i)), ?_, ⟨?_, ?_, ?_, ?_⟩,
    hpd ▸ hkernel⟩
  · rw [initPdpt, Code.bind_ok (Usize.add_of_lt (by omega) s), Code.bind_ok hrun,
      Code.bind_ok (Addr.new_of_mem ⟨hmem.1, by omega⟩ _),
      Code.bind_ok (imageV2p_run hmem.1 (by omega) _), TableRef.index, dif_pos hidx, pure_bind]
    exact Code.bind_ok (EntryRef.reinit_run
      (Entry.reinit_link (d := 0) (by decide) (st.pdpt_isFrame hi).1 _))
  · exact hfilled.congr (set_table_of_ne (st.pml4_ne_pdpt hi).symm) fun _ => hpd
  · intro k hk
    obtain rfl : k = ⟨i + 256, hidx⟩ := Fin.ext hk
    exact set_self
  · intro k hk
    rw [set_of_ne fun h => hk (congrArg Fin.val h.2), hother _ (pml4_not_roundTable hi)]
  · intro t hne ht
    rw [set_table_of_ne hne, hother t ht]

/-- What is in the statics after `n` rounds. -/
structure Rounds (st : Statics) (last n : ℕ) (tables tables' : Tables) : Prop where
  filled : ∀ i < n, PdptFilled st last i tables'
  upper : ∀ i < n, ∀ k : Fin tableLen, k.val = i + 256 → tables' st.pml4 k = Entry.link (st.pdpt i)
  pml4 : ∀ k : Fin tableLen, (∀ i < n, k.val ≠ i + 256) → tables' st.pml4 k = tables st.pml4 k
  other : ∀ t, t ≠ st.pml4 → (∀ i < n, ¬ RoundTable st i t) → tables' t = tables t

theorem Rounds.round {n last : ℕ} {tables₀ tables tables' : Tables} (hn : n < 256)
    (h : Rounds st last n tables₀ tables) (h' : Round st last n tables tables') :
    Rounds st last (n + 1) tables₀ tables' where
  filled i hi := by
    rcases Nat.lt_succ_iff_lt_or_eq.mp hi with hlt | rfl
    · refine (h.filled i hlt).congr (h'.other _ (st.pml4_ne_pdpt (by omega)).symm ?_)
        fun hi' => absurd hi' (by omega)
      rintro (hsame | ⟨-, hsame⟩)
      · exact absurd (st.pdpt_injective hsame) (by omega)
      · exact st.pd_ne_pdpt (by omega) hsame.symm
    · exact h'.filled
  upper i hi k hk := by
    rcases Nat.lt_succ_iff_lt_or_eq.mp hi with hlt | rfl
    · rw [h'.pml4 k (by omega), h.upper i hlt k hk]
    · exact h'.link k hk
  pml4 k hk := by
    rw [h'.pml4 k (hk n (Nat.lt_succ_self n)), h.pml4 k fun i hi => hk i (Nat.lt_succ_of_lt hi)]
  other t hne ht := by
    rw [h'.other t hne (ht n (Nat.lt_succ_self n)),
      h.other t hne fun i hi => ht i (Nat.lt_succ_of_lt hi)]

theorem not_roundTable_of_lt {n t : ℕ} (hin : i < n) (hn : n < 256) (ht : RoundTable st n t) :
    ¬ RoundTable st i t := by
  rintro (h | ⟨rfl, -⟩)
  · rw [h] at ht
    rcases ht with hsame | ⟨-, hsame⟩
    · exact absurd (st.pdpt_injective hsame) (by omega)
    · exact st.pd_ne_pdpt (by omega) hsame.symm
  · omega

/-- The tables of `init` are zero, as the statics are at first. -/
def Zeroed (st : Statics) (tables : Tables) : Prop :=
  ∀ t, t = st.pml4 ∨ t = st.pd ∨ (∃ i < 256, t = st.pdpt i) → ∀ k, tables t k = 0

theorem Zeroed.of_lt {tables : Tables} (h : ∀ t < Statics.frame st.kernelEnd, tables t = 0) :
    Zeroed st tables := by
  rintro t (rfl | rfl | ⟨i, hi, rfl⟩) k
  · rw [h _ st.pml4_lt]; rfl
  · rw [h _ st.pd_lt]; rfl
  · rw [h _ (st.pdpt_lt hi)]; rfl

theorem Zeroed.roundTable {tables : Tables} (h : Zeroed st tables) (hi : i < 256) {t : ℕ}
    (ht : RoundTable st i t) (k : Fin tableLen) : tables t k = 0 := by
  rcases ht with ht | ⟨-, ht⟩
  · exact h t (.inr (.inr ⟨i, hi, ht⟩)) k
  · exact h t (.inr (.inl ht)) k

/-- `init` returns the map of the PML4 table, and the pages of the kernel are in its PD. -/
theorem init_run_kernel (st : Statics) (bmm : MemblockSystem) (hpos : 0 < bmm.managedRange.size)
    (hle : bmm.managedRange.size ≤ uma.stop) (s : Machine π) (hzero : Zeroed st s.tables) :
    ∃ tables, (init st bmm).run s = .ok ⟨st.pml4, []⟩ { s with tables } ∧
      Rounds st (lastSlot bmm) 256 s.tables tables ∧
      KernelFilled st kernelImage.start 0 (tables st.pd) := by
  -- the kernel comes in the last round, so nothing has to be kept
  have hstep : ∀ i < 256, ∀ s₁ : Machine π,
      (∃ tables, s₁ = { s with tables } ∧ Rounds st (lastSlot bmm) i s.tables tables ∧
        (i = 256 → KernelFilled st kernelImage.start 0 (tables st.pd))) →
      ∃ s₂, (initPdpt st bmm i).run s₁ = .ok () s₂ ∧
        ∃ tables, s₂ = { s with tables } ∧ Rounds st (lastSlot bmm) (i + 1) s.tables tables ∧
          (i + 1 = 256 → KernelFilled st kernelImage.start 0 (tables st.pd)) := by
    rintro i hi _ ⟨tables, rfl, hrounds, -⟩
    have hstill : ∀ t, RoundTable st i t → ∀ k, tables t k = 0 := by
      intro t ht k
      have hne : t ≠ st.pml4 := fun h => pml4_not_roundTable hi (h ▸ ht)
      rw [hrounds.other t hne fun j hj => not_roundTable_of_lt hj hi ht]
      exact hzero.roundTable hi ht k
    obtain ⟨tables', hrun, hround, hkernel⟩ := initPdpt_run hpos hle hi { s with tables } hstill
    exact ⟨_, hrun, tables', rfl, hrounds.round hi hround, fun h => hkernel (by omega)⟩
  obtain ⟨_, hrun, tables, rfl, hrounds, hkernel⟩ := Code.forM_range_run hstep (s := s)
    ⟨s.tables, rfl, ⟨fun i hi => absurd hi (Nat.not_lt_zero i),
      fun i hi => absurd hi (Nat.not_lt_zero i), fun _ _ => rfl, fun _ _ _ => rfl⟩,
      fun h => nomatch h⟩
  have hmem := st.pml4_mem
  have hend := st.kernelEnd_lt
  simp only [tableAlignment] at hmem
  refine ⟨tables, ?_, hrounds, hkernel rfl⟩
  rw [init, Code.bind_ok hrun, Code.bind_ok (Addr.new_of_mem ⟨hmem.1, by omega⟩ _),
    Code.bind_ok (imageV2p_run hmem.1 (by omega) _)]
  exact Code.bind_ok (Code.locally_ok (Entry.reinit_cr3 st.pml4_isFrame.1 0))

theorem init_run (st : Statics) (bmm : MemblockSystem) (hpos : 0 < bmm.managedRange.size)
    (hle : bmm.managedRange.size ≤ uma.stop) (s : Machine π) (hzero : Zeroed st s.tables) :
    ∃ tables, (init st bmm).run s = .ok ⟨st.pml4, []⟩ { s with tables } ∧
      Rounds st (lastSlot bmm) 256 s.tables tables := by
  obtain ⟨tables, hrun, hrounds, -⟩ := init_run_kernel st bmm hpos hle s hzero
  exact ⟨tables, hrun, hrounds⟩

/-- With nothing to manage, `init` panics in its first round. -/
theorem init_error (st : Statics) (hzero : bmm.managedRange.size = 0) (s : Machine π) :
    ∃ q s', (init st bmm).run s = .error q s' := by
  have hround : (initPdpt st bmm 0).run s = .error (.assertion "") s := by
    rw [initPdpt, Code.bind_ok (Usize.add_of_lt (by decide) s)]
    refine Code.bind_error ?_
    rw [fillPdpt, Code.bind_ok (Addr.new_of_mem ⟨Nat.le_refl _, by decide⟩ s),
      Code.bind_ok (pml4Idx_run _ s), Code.bind_ok (Addr.new_of_mem ⟨Nat.le_refl _, by decide⟩ s),
      Code.bind_ok (pml4Idx_run _ s)]
    exact Code.bind_error (remapEnd_error hzero s)
  have hloop : ((List.range 256).forM (initPdpt st bmm)).run s = .error (.assertion "") s := by
    rw [List.range_eq_range', List.range'_succ, List.forM_eq_forM, List.forM_cons]
    exact Code.bind_error hround
  exact ⟨_, _, Code.bind_error hloop⟩

/-! ## The tree of the upper half -/

theorem IsKernelPage.leaf {e : ℕ} (h : e = 0 ∨ IsKernelPage e) :
    next 2 e = none ∧ Entry.InSpace (.ofDepth 2) e := by
  rcases h with rfl | ⟨addr, hal, hlt, rfl⟩
  · exact ⟨next_zero 2, inSpace_zero 2⟩
  · exact ⟨kernelPageFlags_ok.next_pageWord hal hlt, kernelPageFlags_ok.inSpace_pageWord hal hlt⟩

theorem remapWord_leaf (hr : r < 128) (k : Fin tableLen) :
    next 1 (remapWord r k) = none ∧ Entry.InSpace (.ofDepth 1) (remapWord r k) := by
  have huma : uma.stop = 2 ^ 46 := rfl
  have hk : k.val < 512 := k.isLt
  have hal : remapPageSize.align ∣ r * 2 ^ 39 + k.val * 2 ^ 30 :=
    Nat.dvd_add (Nat.dvd_trans (by decide) (Nat.dvd_mul_left _ _)) (Nat.dvd_mul_left _ _)
  have hlt : r * 2 ^ 39 + k.val * 2 ^ 30 < uma.stop := by omega
  exact ⟨remapPageFlags_ok.next_pageWord hal hlt, remapPageFlags_ok.inSpace_pageWord hal hlt⟩

/-- Only one entry of the PDPTs leads to a table. -/
theorem PdptFilled.entry {last : ℕ} {tables : Tables} (h : PdptFilled st last i tables)
    (hlast : last ≤ 127) (k : Fin tableLen) :
    (i = 255 ∧ k = 510 ∧ tables (st.pdpt i) k = Entry.link st.pd) ∨
      (next 1 (tables (st.pdpt i) k) = none ∧
        Entry.InSpace (.ofDepth 1) (tables (st.pdpt i) k)) := by
  have hzero : next 1 0 = none ∧ Entry.InSpace (.ofDepth 1) 0 := ⟨next_zero 1, inSpace_zero 1⟩
  rw [PdptFilled] at h
  split at h
  · rename_i hi
    by_cases hk : k = 510
    · rw [hk]
      exact .inl ⟨hi, rfl, h.1⟩
    · rw [h.2.1 k hk]
      exact .inr hzero
  · split at h
    · rw [h]
      exact .inr (remapWord_leaf (by omega) k)
    · rw [h k]
      exact .inr hzero

namespace Rounds

variable {last : ℕ} {tables₀ tables : Tables} (h : Rounds st last 256 tables₀ tables)
  (hlast : last ≤ 127) {k : ℕ → Fin tableLen}
include h

/-- The slot of a key of the upper half. -/
theorem upper_link (hi : (k 0).val = i + 256) :
    i < 256 ∧ tables st.pml4 (k 0) = Entry.link (st.pdpt i) := by
  have hlt : (k 0).val < 512 := (k 0).isLt
  have hi' : i < 256 := by omega
  exact ⟨hi', h.upper i hi' (k 0) hi⟩

/-- Nothing is written above the kernel. -/
theorem above {t : ℕ} (ht : Statics.frame st.kernelEnd ≤ t) : tables t = tables₀ t := by
  refine h.other t (Nat.ne_of_gt (Nat.lt_of_lt_of_le st.pml4_lt ht)) ?_
  rintro i hi (rfl | ⟨-, rfl⟩)
  · exact absurd (st.pdpt_lt hi) (Nat.not_lt.mpr ht)
  · exact absurd st.pd_lt (Nat.not_lt.mpr ht)

theorem pd_leaf (j : Fin tableLen) :
    next 2 (tables st.pd j) = none ∧ Entry.InSpace (.ofDepth 2) (tables st.pd j) := by
  have hfilled := h.filled 255 (by decide)
  rw [PdptFilled, if_pos rfl] at hfilled
  exact IsKernelPage.leaf (hfilled.2.2 j)

include hlast

/-- The tables of the upper half. -/
theorem upper_tableAt (hi : (k 0).val = i + 256) {d t : ℕ}
    (ht : tableAt next tables st.pml4 k d = some t) :
    (d = 0 ∧ t = st.pml4) ∨ (d = 1 ∧ t = st.pdpt i) ∨
      (d = 2 ∧ t = st.pd ∧ i = 255 ∧ k 1 = 510) := by
  obtain ⟨hi', hlink⟩ := h.upper_link hi
  have hone : tableAt next tables st.pml4 k 1 = some (st.pdpt i) := by
    rw [tableAt_succ rfl, hlink, next_link (by decide) (st.pdpt_isFrame hi')]
  have htwo : ∀ u, tableAt next tables st.pml4 k 2 = some u →
      u = st.pd ∧ i = 255 ∧ k 1 = 510 := by
    intro u hu
    rw [tableAt_succ hone] at hu
    rcases PdptFilled.entry (h.filled i hi') hlast (k 1) with ⟨hi, hk, hpd⟩ | ⟨hnone, -⟩
    · rw [hpd, next_link (by decide) st.pd_isFrame] at hu
      exact ⟨(Option.some.inj hu).symm, hi, hk⟩
    · exact nomatch hnone.symm.trans hu
  have hthree : tableAt next tables st.pml4 k 3 = none := by
    cases hu : tableAt next tables st.pml4 k 2 with
    | none => exact tableAt_none_of_le hu (by decide)
    | some u => rw [tableAt_succ hu, (htwo u hu).1, (h.pd_leaf (k 2)).1]
  match d with
  | 0 => exact .inl ⟨rfl, (Option.some.inj ht).symm⟩
  | 1 => exact .inr (.inl ⟨rfl, Option.some.inj (ht.symm.trans hone)⟩)
  | 2 => exact .inr (.inr ⟨rfl, htwo t ht⟩)
  | d + 3 => exact nomatch (tableAt_none_of_le hthree (Nat.le_add_left 3 d)).symm.trans ht

/-- Their entries refer to physical memory. -/
theorem upper_inSpace (hi : (k 0).val = i + 256) {d e : ℕ}
    (he : entryAt next tables st.pml4 k d = some e) : Entry.InSpace (.ofDepth d) e := by
  obtain ⟨hi', hlink⟩ := h.upper_link hi
  obtain ⟨t, ht, rfl⟩ := entryAt_eq_some.mp he
  rcases h.upper_tableAt hlast hi ht with ⟨rfl, rfl⟩ | ⟨rfl, rfl⟩ | ⟨rfl, rfl, -, -⟩
  · rw [hlink]
    exact Entry.inSpace_link (st.pdpt_isFrame hi').1 (st.pdpt_isFrame hi').2
  · rcases PdptFilled.entry (h.filled i hi') hlast (k 1) with ⟨-, -, hpd⟩ | ⟨-, hspace⟩
    · rw [hpd]
      exact Entry.inSpace_link st.pd_isFrame.1 st.pd_isFrame.2
    · exact hspace
  · exact (h.pd_leaf (k 2)).2

theorem upper_apart : Apart next tables st.pml4 upperKeys := by
  intro k hk k' hk' d d' t ht ht'
  obtain ⟨i, hi⟩ := Nat.exists_eq_add_of_le' hk
  obtain ⟨j, hj⟩ := Nat.exists_eq_add_of_le' hk'
  have hi' := (h.upper_link hi).1
  have hj' := (h.upper_link hj).1
  rcases h.upper_tableAt hlast hi ht with ⟨rfl, h₁⟩ | ⟨rfl, h₁⟩ | ⟨rfl, h₁, hi₁, hk₁⟩ <;>
    rcases h.upper_tableAt hlast hj ht' with ⟨rfl, h₂⟩ | ⟨rfl, h₂⟩ | ⟨rfl, h₂, hj₂, hk₂⟩
  · exact ⟨rfl, fun l hl => absurd hl (Nat.not_lt_zero l)⟩
  · exact absurd (h₁.symm.trans h₂) (st.pml4_ne_pdpt hj')
  · exact absurd (h₁.symm.trans h₂) st.pml4_ne_pd
  · exact absurd (h₂.symm.trans h₁) (st.pml4_ne_pdpt hi')
  · have hsame := st.pdpt_injective (h₁.symm.trans h₂)
    refine ⟨rfl, fun l hl => ?_⟩
    obtain rfl : l = 0 := Nat.lt_one_iff.mp hl
    exact Fin.ext (by omega)
  · exact absurd (h₂.symm.trans h₁) (st.pd_ne_pdpt hi')
  · exact absurd (h₂.symm.trans h₁) st.pml4_ne_pd
  · exact absurd (h₁.symm.trans h₂) (st.pd_ne_pdpt hj')
  · refine ⟨rfl, fun l hl => ?_⟩
    obtain rfl | rfl : l = 0 ∨ l = 1 := by omega
    · exact Fin.ext (by omega)
    · exact hk₁.trans hk₂.symm

end Rounds

/-! ## The window -/

/-- The word in `cr3` is the address of the table. -/
theorem base_pml4 (st : Statics) : Hardware.base 12 st.pml4 = st.pml4 := by
  have hframe := st.pml4_isFrame
  have hbase := Hardware.base_or (.inl rfl) (show 0 < 2 ^ 9 by decide) hframe.1 hframe.2
  rwa [Nat.zero_or] at hbase

/-- The processor finds physical address `p` in the window, if its 512 GiB are in a slot that
was filled. -/
theorem Rounds.walk_window {last : ℕ} {tables₀ tables : Tables}
    (h : Rounds st last 256 tables₀ tables) {p : ℕ} (hp : p < uma.stop) :
    Hardware.walk tables st.pml4 (p + physicalRemap.start)
      = if p / 2 ^ 39 ≤ last then .page 1 (p / 2 ^ 30 * 2 ^ 30) true false else .notPresent := by
  have huma : uma.stop = 2 ^ 46 := rfl
  have hstart : physicalRemap.start = 0xFFFF888000000000 := rfl
  have hslot : p / 2 ^ 39 < 128 := by omega
  have hkey : (key (p + physicalRemap.start) 0).val = 17 + p / 2 ^ 39 + 256 := by
    simp only [key, tableLen]
    omega
  have hframe := st.pdpt_isFrame (i := 17 + p / 2 ^ 39) (by omega)
  have hupper := h.upper (17 + p / 2 ^ 39) (by omega) _ hkey
  have hfilled := h.filled (17 + p / 2 ^ 39) (by omega)
  have htable := Hardware.decode_link (d := 0) (by decide) hframe
  rw [PdptFilled, if_neg (by omega)] at hfilled
  rw [Hardware.walk, base_pml4]
  simp only [Hardware.walkFrom, hupper, htable, Hardware.link_writable hframe,
    Hardware.link_user hframe, Bool.and_true, Bool.and_false]
  by_cases hin : p / 2 ^ 39 ≤ last
  · have hk : ((key (p + physicalRemap.start) 1).val : ℕ) = p / 2 ^ 30 % 512 := by
      simp only [key, tableLen]
      omega
    have hword : tables (st.pdpt (17 + p / 2 ^ 39)) (key (p + physicalRemap.start) 1)
        = Entry.pageWord remapPageSize ⟨p / 2 ^ 30 * 2 ^ 30⟩ remapPageFlags := by
      have haddr : (17 + p / 2 ^ 39 - 17) * 2 ^ 39 + p / 2 ^ 30 % 512 * 2 ^ 30
          = p / 2 ^ 30 * 2 ^ 30 := by omega
      rw [if_pos (by omega)] at hfilled
      rw [hfilled, remapWord, hk, haddr]
    have hal : remapPageSize.align ∣ p / 2 ^ 30 * 2 ^ 30 := Nat.dvd_mul_left _ _
    have hdec : Hardware.decode 1 _ = _ := Hardware.decode_pageWord remapPageFlags_ok hal
      (show p / 2 ^ 30 * 2 ^ 30 < uma.stop by omega)
    have hbit := (Hardware.pageWord_writable remapPageFlags_ok hal).mpr (by decide)
    rw [if_pos hin, hword]
    simp only [hdec, hbit]
    rfl
  · rw [if_neg (by omega)] at hfilled
    have hdec : Hardware.decode 1 0 = .notPresent := rfl
    rw [if_neg hin, hfilled]
    simp only [hdec]

/-- After `init` returns, the processor takes every managed physical address from the window to
itself. -/
def Remaps (st : Statics) (bmm : MemblockSystem) (s : Machine π) : Prop :=
  ∃ map s', (init st bmm).run s = .ok map s' ∧
    ∀ p : Addr uma, bmm.managedRange.base.value ≤ p.value →
      p.value < bmm.managedRange.base.value + bmm.managedRange.size →
      ∃ v, (p2v p).run s' = .ok v s' ∧ Hardware.MapsTo s'.tables map.cr3 v.value p.value

theorem Rounds.mapsTo_iff {last : ℕ} {tables₀ tables : Tables}
    (h : Rounds st last 256 tables₀ tables) {p : ℕ} (hp : p < uma.stop) :
    Hardware.MapsTo tables st.pml4 (p + physicalRemap.start) p ↔ p / 2 ^ 39 ≤ last := by
  have hstart : physicalRemap.start = 0xFFFF888000000000 := rfl
  have hwalk := h.walk_window hp
  by_cases hin : p / 2 ^ 39 ≤ last
  · rw [if_pos hin] at hwalk
    rw [Hardware.mapsTo_iff_of_page hwalk]
    refine iff_of_true ?_ hin
    simp only [Hardware.order]
    omega
  · rw [if_neg hin] at hwalk
    rw [Hardware.MapsTo, hwalk]
    refine iff_of_false ?_ hin
    rintro ⟨_, _, _, _, hbad, -⟩
    cases hbad

/-- All managed memory is in the window if there is some, and its last byte lies in no later
512 GiB than the last byte of a range of that size at address 0. -/
theorem init_remaps_iff (st : Statics) (bmm : MemblockSystem) (s : Machine π)
    (hfit : bmm.managedRange.base.value + bmm.managedRange.size ≤ uma.stop)
    (hzero : Zeroed st s.tables) :
    Remaps st bmm s ↔ 0 < bmm.managedRange.size ∧
      (bmm.managedRange.base.value + bmm.managedRange.size - 1) / 2 ^ 39
        ≤ (bmm.managedRange.size - 1) / 2 ^ 39 := by
  rcases Nat.eq_zero_or_pos bmm.managedRange.size with hnone | hpos
  · obtain ⟨q, s', herror⟩ := init_error st hnone s
    refine iff_of_false ?_ fun h => by omega
    rintro ⟨map, s'', hrun, -⟩
    exact nomatch herror.symm.trans hrun
  have hle : bmm.managedRange.size ≤ uma.stop := by omega
  obtain ⟨tables, hrun, hrounds⟩ := init_run st bmm hpos hle s hzero
  constructor
  · rintro ⟨map, s', hrun', hall⟩
    obtain ⟨hmap, hs'⟩ := EStateM.Result.ok.inj (hrun.symm.trans hrun')
    subst hmap hs'
    refine ⟨hpos, ?_⟩
    -- the last byte of the range
    have hlt : bmm.managedRange.base.value + bmm.managedRange.size - 1 < uma.stop := by omega
    obtain ⟨v, hv, hmaps⟩ := hall ⟨bmm.managedRange.base.value + bmm.managedRange.size - 1⟩
      (by simp only; omega) (by simp only; omega)
    have hvalue := (EStateM.Result.ok.inj ((PageAllocator.p2v_run hlt _).symm.trans hv)).1
    rw [← hvalue] at hmaps
    exact (hrounds.mapsTo_iff hlt).mp hmaps
  · rintro ⟨-, hslot⟩
    refine ⟨_, _, hrun, fun p hlo hhi => ⟨_, PageAllocator.p2v_run (by omega) _, ?_⟩⟩
    refine (hrounds.mapsTo_iff (by omega)).mpr ?_
    rw [lastSlot]
    omega

/-- A kernel of 4 MiB, with the tables of `init` in its third MiB. -/
def fourMiB : Statics where
  pml4Table := 0xFFFFFFFF80200000
  pdptTables := 0xFFFFFFFF80202000
  kernelPdTable := 0xFFFFFFFF80201000
  kernelEnd := 0xFFFFFFFF80400000
  pml4_aligned := by decide
  pdpts_aligned := by decide
  pd_aligned := by decide
  pml4_mem := by decide
  pdpts_mem := by decide
  pd_mem := by decide
  pml4_pdpts := by decide
  pml4_pd := by decide
  pd_pdpts := by decide
  kernelEnd_lt := by decide

/-- Memory that is all zero. -/
def blankMemory : Machine Unit := ⟨0, [], fun _ _ => 0, (), []⟩

/-- The boot memory of one available area above the kernel. -/
def managing (base size : ℕ) : MemblockSystem :=
  ⟨[], [], some ⟨⟨base⟩, size, .free⟩, 0, ⟨⟨base⟩, size⟩, false⟩

theorem init_remaps_oneGiB : Remaps fourMiB (managing 0x400000 (2 ^ 30)) blankMemory :=
  (init_remaps_iff fourMiB (managing 0x400000 (2 ^ 30)) blankMemory (by decide)
    fun _ _ _ => rfl).mpr (by decide)

/-- An available area of 512 GiB from 4 MiB on: its last 4 MiB are not in the window. -/
theorem init_misses_end :
    (∃ b b', (MemblockSystem.init ⟨0x400000⟩ [⟨0x400000, 2 ^ 39, .available⟩]).run b
      = .ok (managing 0x400000 (2 ^ 39)) b') ∧
    ∃ map s', (init fourMiB (managing 0x400000 (2 ^ 39))).run blankMemory = .ok map s' ∧
      Hardware.walk s'.tables map.cr3 (2 ^ 39 + physicalRemap.start) = .notPresent := by
  refine ⟨⟨⟨[], ⟨0⟩, ⟨0⟩⟩, ⟨[⟨⟨0x400000⟩, 2 ^ 39, .free⟩], ⟨0x400000⟩, ⟨2 ^ 39 + 0x400000⟩⟩,
    by decide +kernel⟩, ?_⟩
  obtain ⟨tables, hrun, hrounds⟩ := init_run fourMiB (managing 0x400000 (2 ^ 39)) (by decide)
    (by decide) blankMemory fun _ _ _ => rfl
  exact ⟨_, _, hrun, hrounds.walk_window (by decide)⟩

end MemoryManager

end Koe
