/-
# `KoeOs.Mem.Init` — from the boot loader's areas to the heap

`mem::init` of `src/mem.rs` puts the parts together, in this order:

    init_boot_mem         the free memory above the kernel, from the boot loader's areas
    MemoryManager::init   the first page tables, with a window onto physical memory
    phy::init             the page allocator, with memory for its records from the first

and the heap takes its pages from the last through the window of the second.  Each part was
looked at alone.  Here a byte of the heap is followed down to physical memory
(`heap_backed`): it lies in a frame that was freed for a block of boot memory, the processor
finds it there if the window is long enough, and no two blocks of the heap share it.

What is found at boot determines the rest.  The blocks the page allocator is given lie in
the managed range and do not overlap, however the records were taken from them (`frozen`).
That is not enough: they have to be spread, or a frame is handed out twice; they have to be
clean, or a frame is handed out that is recorded as reserved; and the records have to own the
memory they lie in, which is not the memory that is recorded for them (`RecordsOwned`).
-/
import KoeOs.Phy.BootRun
import KoeOs.Phy.Takeover
import KoeOs.Alloc.HeapRun
import KoeOs.Paging.Init

namespace Koe

/-! ## `init` -/

/-- Where the linker placed the kernel. -/
structure Image extends Statics where
  /-- `_KERNEL_START_VMA`. -/
  kernelStart : ℕ
  /-- `_KERNEL_START_LMA`. -/
  kernelStartLma : ℕ
  start_eq : kernelStart = kernelStartLma + kernelImage.start
  start_le : kernelStart ≤ kernelEnd
  /-- The tables are in `.bss`, which is behind `_KERNEL_START_VMA`. -/
  tables_ge : kernelStart ≤ pml4Table ∧ kernelStart ≤ pdptTables ∧ kernelStart ≤ kernelPdTable

/-- What `init` sets up.  The boot allocator is gone afterwards; it is kept here to say what
was left of it. -/
structure System where
  /-- `MMU`. -/
  map : MemoryMap
  /-- `PMM`. -/
  pmm : PhysicalMemoryRecord
  bmm : MemblockSystem

namespace System

variable {π σ : Type}

def kernelSize (img : Image) : Code σ ℕ := do
  let stop : Addr kernelImage ← Addr.new img.kernelEnd
  let start : Addr kernelImage ← Addr.new img.kernelStart
  Code.expect (Isize.tryToUsize (← stop.addrSub start))
    "kernel_end_vma should be larger than kernel_start_vma"

def kernelEndLma (img : Image) : Code σ (Addr uma) := do
  let start : Addr uma ← Addr.new img.kernelStartLma
  start.byteAdd (← kernelSize img)

/-- `mem::init`; `uninit` is what the memory of the records holds. -/
def init (img : Image) (memoryMap : Option (List MemoryArea)) (uninit : ℕ → Frame) :
    Code (Machine π) System := do
  let areas ← Code.expect memoryMap "Currently does not support uefi memory map"
  let (bmm, _) ← Code.locally .start (MemblockSystem.init (← kernelEndLma img) areas)
  let map ← MemoryManager.init img.toStatics bmm
  let (pmm, bmm) ← Code.locally bmm (PhysicalMemoryRecord.new uninit)
  return { map, pmm, bmm }

end System

/-! ## What is found at boot -/

namespace MemblockSystem

variable {kernelEnd : Addr uma} {areas : List MemoryArea} {w w' : Building} {m : MemblockSystem}

/-- The managed range encloses what is available. -/
theorem Exact.inside (h : Exact kernelEnd areas m) {b : Memblock} (hlt : b.base.value < b.stop)
    (hb : ∀ x, b.Contains x → Available kernelEnd areas x) :
    PhysicalMemoryRecord.Inside m.managedRange b := by
  obtain ⟨last, hend, hlast⟩ := h.greatest
  have hlow := h.least.2 (hb _ ⟨Nat.le_refl _, hlt⟩)
  have hhigh := hlast.2 (hb (b.stop - 1) ⟨Nat.le_sub_one_of_lt hlt, Nat.sub_one_lt_of_lt hlt⟩)
  simp only [Memblock.stop] at hlt hhigh
  exact ⟨hlow, by omega⟩

theorem Exact.fits (h : Exact kernelEnd areas m) (hin : ∀ area ∈ areas, area.Inside) :
    0 < m.managedRange.size ∧ m.managedRange.base.value + m.managedRange.size ≤ uma.stop := by
  obtain ⟨last, hend, hlast⟩ := h.greatest
  have hle := hlast.2 h.least.1
  have hlt := available_lt hin last hlast.1
  omega

/-! ### The frozen boot memory -/

variable {found : Memblocks} {s t : MemblockSystem}

/-- One of several parts of the blocks of a spaced list, in the same order. -/
structure Pieces (found blocks : Memblocks) : Prop where
  part : ∀ b ∈ blocks, ∃ p ∈ found, p.base.value ≤ b.base.value ∧ b.stop ≤ p.stop
  gap : blocks.Pairwise fun a b => a.stop ≤ b.base.value

/-- The free blocks when `freeze` is done. -/
theorem Keeps.pieces (h : Keeps found s) (hf : Found found) {u : Unit}
    (hrun : freeze.run s = .ok u t) : Pieces found t.freeBlocks := by
  cases hp : s.partialBlock with
  | none =>
      obtain rfl := freeze_of_drained hp hrun
      have hfound := h.blocks
      rw [hp, Option.toList_none, List.append_nil] at hfound
      subst hfound
      refine ⟨fun b hb => ⟨b, List.mem_append_left _ hb, Nat.le_refl _, Nat.le_refl _⟩, ?_⟩
      exact ((Spans.spaced_append.mp hf.spaced).1.gap).imp Nat.le_of_lt
  | some p =>
      obtain ⟨q, hcut⟩ := h.cut hf hp hrun
      have hfound := h.found_eq hp
      subst hfound
      obtain ⟨hleft, -, -⟩ := Spans.spaced_append.mp hf.spaced
      have hbase := hcut.base
      rw [hcut.freeBlocks]
      constructor
      · intro b hb
        rcases List.mem_append.mp hb with hb | hb
        · exact ⟨b, List.mem_append_left _ (List.mem_append_left _ hb), Nat.le_refl _,
            Nat.le_refl _⟩
        · obtain rfl := List.mem_singleton.mp hb
          exact ⟨p, by simp, by omega, hcut.stop.le⟩
      · refine List.pairwise_append.mpr ⟨((Spans.spaced_append.mp hleft).1.gap).imp Nat.le_of_lt,
          List.pairwise_singleton _ _, fun a ha b hb => ?_⟩
        obtain rfl := List.mem_singleton.mp hb
        have hlt := hf.parts.1 a ha
        omega

/-- No memory is lost. -/
theorem Keeps.frozen {A : ℕ → Prop} (h : Keeps found s) (hf : Found found)
    (hA : ∀ x, found.Covers x ↔ A x) {u : Unit} (hrun : freeze.run s = .ok u t) :
    Conserved A t := by
  have hcons := h.conserved hf hA
  cases hp : s.partialBlock with
  | none =>
      obtain rfl := freeze_of_drained hp hrun
      exact hcons
  | some p =>
      obtain ⟨q, hcut⟩ := h.cut hf hp hrun
      have hasc := hf.spaced.ascending
      rw [h.found_eq hp] at hasc
      exact hcut.conserved hcons hp hasc

theorem Pieces.frozen {range : AddrRange uma} {blocks : Memblocks} (h : Pieces found blocks)
    (hin : ∀ b ∈ found, PhysicalMemoryRecord.Inside range b) :
    PhysicalMemoryRecord.Frozen range blocks := by
  constructor
  · intro b hb
    obtain ⟨p, hp, hlow, hhigh⟩ := h.part b hb
    obtain ⟨h1, h2⟩ := hin p hp
    simp only [Memblock.stop] at hhigh
    exact ⟨h1.trans hlow, hhigh.trans h2⟩
  · intro a ha b hb hne x hxa hxb
    have hsymm : Std.Symm fun a b : Memblock => a.stop ≤ b.base.value ∨ b.stop ≤ a.base.value :=
      ⟨fun _ _ => Or.symm⟩
    have hor : blocks.Pairwise fun a b => a.stop ≤ b.base.value ∨ b.stop ≤ a.base.value :=
      h.gap.imp Or.inl
    rcases hor.forall ha hb hne with hle | hle
    · exact absurd (hle.trans hxb.1) (not_le.mpr hxa.2)
    · exact absurd (hle.trans hxa.1) (not_le.mpr hxb.2)

end MemblockSystem

/-! ### The records are taken -/

namespace PhysicalMemoryRecord

variable {r : PhysicalMemoryRecord} {m m₁ : MemblockSystem} {uninit : ℕ → Frame}

theorem new_eq_ok {r' : PhysicalMemoryRecord} (h : (new uninit).run m = .ok r' m₁) :
    ∃ r buddy, (prepare uninit).run m = .ok r m₁ ∧ r' = { r with buddy } := by
  obtain ⟨r, m₂, hprep, hrest⟩ := Code.bind_eq_ok.mp h
  rw [Code.get_bind] at hrest
  obtain ⟨⟨_, buddy⟩, m₃, hlocal, hrest⟩ := Code.bind_eq_ok.mp hrest
  obtain ⟨-, hm⟩ := Code.locally_eq_ok.mp hlocal
  cases hrest
  exact ⟨r, buddy, hm ▸ hprep, rfl⟩

end PhysicalMemoryRecord

/-! ## What `init` sets up -/

namespace System

variable {π σ : Type} {img : Image} {areas : List MemoryArea} {uninit : ℕ → Frame}
  {s s' : Machine π} {sys : System} {m : MemblockSystem}

theorem kernelEndLma_run (img : Image) (s : σ) :
    (kernelEndLma img).run s = .ok ⟨Statics.frame img.kernelEnd⟩ s := by
  have hstart : kernelImage.start = 0xFFFFFFFF80000000 := rfl
  have hstop : kernelImage.stop = 0xFFFFFFFFFF600000 := rfl
  have huma : uma.start = 0 ∧ uma.stop = 2 ^ 46 := ⟨rfl, rfl⟩
  have hmod : Usize.modulus = 2 ^ 64 := rfl
  have heq := img.start_eq
  have hle := img.start_le
  have hlt := img.kernelEnd_lt
  have hdiff : Isize.ofUsize img.kernelEnd - Isize.ofUsize img.kernelStart
      = ((img.kernelEnd - img.kernelStart : ℕ) : ℤ) := by
    rcases Isize.ofUsize_sub_cases img.kernelEnd img.kernelStart with h | h | h <;> omega
  have hsub : (Addr.addrSub (S := kernelImage) ⟨img.kernelEnd⟩ ⟨img.kernelStart⟩).run s
      = .ok ((img.kernelEnd - img.kernelStart : ℕ) : ℤ) s :=
    (Isize.sub_of_mem (by rw [hdiff]; omega) s).trans (by rw [hdiff])
  have hsize : (kernelSize img).run s = .ok (img.kernelEnd - img.kernelStart) s := by
    rw [kernelSize, Code.bind_ok (Addr.new_of_mem ⟨by omega, by omega⟩ s),
      Code.bind_ok (Addr.new_of_mem ⟨by omega, by omega⟩ s), Code.bind_ok hsub,
      Isize.tryToUsize_natCast]
    rfl
  have hsum : img.kernelStartLma + (img.kernelEnd - img.kernelStart)
      = Statics.frame img.kernelEnd := by
    rw [Statics.frame_eq]
    omega
  have hadd := Addr.byteAdd_of_lt (S := uma) (a := ⟨img.kernelStartLma⟩)
    (x := img.kernelEnd - img.kernelStart) (Nat.zero_le _) (by simp only; omega) s
  simp only [hsum] at hadd
  rw [kernelEndLma, Code.bind_ok (Addr.new_of_mem ⟨by omega, by omega⟩ s), Code.bind_ok hsize]
  exact hadd

open PhysicalMemoryRecord MemblockSystem

/-- What `init` has set up when it returns, over tables that were `tables`. -/
structure Started (img : Image) (areas : List MemoryArea) (tables : Tables) (sys : System)
    (tables' : Tables) : Prop where
  rounds : MemoryManager.Rounds img.toStatics (MemoryManager.lastSlot sys.bmm) 256 tables tables'
  last : MemoryManager.lastSlot sys.bmm ≤ 127
  map : sys.map = ⟨img.pml4, []⟩
  /-- The first frame is that of the kernel's end, or a later one. -/
  base : Statics.frame img.kernelEnd / 4096 * 4096 ≤ sys.pmm.base.base.value
  conserved : Conserved (Available ⟨Statics.frame img.kernelEnd⟩ areas) sys.bmm
  opened : sys.pmm.Spread sys.bmm.freeBlocks →
    Opened (fun n => ∃ b ∈ sys.bmm.freeBlocks, (sys.pmm.stretch b).Marks n) sys.pmm
  exact_of_clean : (∀ b ∈ sys.bmm.freeBlocks, frameSize ≤ b.size →
      Clean sys.pmm sys.bmm.freeBlocks b) →
    ∀ i, (∃ b ∈ sys.bmm.freeBlocks, sys.pmm.Frees b i) →
      ∃ b ∈ sys.bmm.freeBlocks, sys.pmm.HoldsFrame b i

/-- The records have their memory for themselves, and none of the kernel's. -/
structure RecordsOwned (img : Image) (sys : System) : Prop
    extends sys.pmm.OwnsRecords sys.bmm.freeBlocks where
  image : ∀ x, sys.pmm.InRecords x → x < img.kernelStartLma ∨ Statics.frame img.kernelEnd ≤ x

/-- No memory that a run of the page allocator has handed out belongs to its records. -/
theorem RecordsOwned.not_inRecords (howns : RecordsOwned img sys)
    (h₀ : Opened (fun n => ∃ b ∈ sys.bmm.freeBlocks, (sys.pmm.stretch b).Marks n) sys.pmm)
    {r : PhysicalMemoryRecord} {out : List Extent} (hout : HandedFrom sys.pmm r out) {e : Extent}
    (he : e ∈ out) {x : ℕ} (hx : e.Contains x) : ¬ r.InRecords x := by
  obtain ⟨live, freed, hrun, rfl⟩ := hout
  obtain ⟨b, hb, rfl⟩ := List.mem_map.mp he
  have ht := h₀.tracked hrun
  rw [extentOf_congr ht.base] at hx
  rw [h₀.inRecords_iff hrun]
  exact howns.toOwnsRecords.not_inRecords
    (given_of_marks (ht.buddy.serves.aligned b hb) (h₀.own_node ht.buddy hb)) hx

/-! ## From a byte of the heap to physical memory -/

variable {live : List Allocation} {l : Allocation} {t : Heap PhysicalMemoryRecord} {x : ℕ}

/-- A kernel from 2 MiB to 4 MiB. -/
def loadedAt2MiB : Image where
  toStatics := MemoryManager.fourMiB
  kernelStart := 0xFFFFFFFF80200000
  kernelStartLma := 0x200000
  start_eq := rfl
  start_le := by decide
  tables_ge := by decide

/-- `init` by its three parts. -/
theorem init_run (hpos : 0 < m.managedRange.size) (hle : m.managedRange.size ≤ uma.stop)
    {kernelEnd : ℕ} (hend : Statics.frame img.kernelEnd = kernelEnd) {w : Building}
    (hboot : (MemblockSystem.init ⟨kernelEnd⟩ areas).run .start = .ok m w)
    {pmm : PhysicalMemoryRecord} {bmm : MemblockSystem}
    (hnew : (new uninit).run m = .ok pmm bmm)
    (hzero : MemoryManager.Zeroed img.toStatics s.tables) :
    ∃ map s', (init img (some areas) uninit).run s = .ok ⟨map, pmm, bmm⟩ s' := by
  obtain ⟨tables, hmap, -⟩ := MemoryManager.init_run img.toStatics m hpos hle s hzero
  refine ⟨⟨img.pml4, []⟩, { s with tables }, ?_⟩
  rw [init, Code.bind_ok (Code.expect_some areas _ s), Code.bind_ok (kernelEndLma_run img s), hend,
    Code.bind_ok (Code.locally_ok hboot)]
  simp only
  rw [Code.bind_ok hmap, Code.bind_ok (Code.locally_ok hnew)]
  rfl

/-- One area of eight frames: it is spread but not clean.  Its first bytes are recorded as reserved
for the records, and a block of two pages of the heap begins there. -/
theorem heap_block_on_reserved : ∃ sys s' t,
    (init loadedAt2MiB (some [⟨0x400000, 0x8000, .available⟩]) fun _ => ⟨0⟩).run
      MemoryManager.blankMemory = .ok sys s' ∧ sys.pmm.Spread sys.bmm.freeBlocks ∧
    Heap.Run physMem sys.pmm
      [⟨⟨0xFFFF888000400000, 0x2000⟩, ⟨8000, 8, Layout.align_word, by decide⟩⟩] t ∧
    sys.bmm.reservedBlocks.Covers 0x400000 := by
  have hboot : (MemblockSystem.init ⟨0x400000⟩ [⟨0x400000, 0x8000, .available⟩]).run .start = .ok
      ⟨[], [], some ⟨⟨0x400000⟩, 0x8000, .free⟩, 0, ⟨⟨0x400000⟩, 0x8000⟩, false⟩
      ⟨[⟨⟨0x400000⟩, 0x8000, .free⟩], ⟨0x400000⟩, ⟨0x408000⟩⟩ := by
    decide +kernel
  have hnew : (new fun _ => ⟨0⟩).run
      ⟨[], [], some ⟨⟨0x400000⟩, 0x8000, .free⟩, 0, ⟨⟨0x400000⟩, 0x8000⟩, false⟩ = .ok
      ⟨List.replicate 8 ⟨0⟩, physicalRemap.start, ⟨⟨0x400000⟩, .small, by decide⟩,
        ⟨⟨[3, 3, 2, 2, 2, 2, 1, 0, 1, 1, 1, 1, 1, 1, 1, 0].map Buddy.mk, physicalRemap.start + 16,
          4, 1⟩, 3⟩⟩
      ⟨[⟨⟨0x400020⟩, 0x7fe0, .free⟩], [⟨⟨0x400000⟩, 32, .reserved⟩], none, 32,
        ⟨⟨0x400000⟩, 0x8000⟩, false⟩ := by
    decide +kernel
  have hend : Statics.frame loadedAt2MiB.kernelEnd = 0x400000 := Statics.frame_eq _
  obtain ⟨map, s', hinit⟩ := init_run (s := MemoryManager.blankMemory) (by decide) (by decide) hend
    hboot hnew fun _ _ _ => rfl
  have hvalue : (GlobalAllocator.allocate physMem ⟨8000, 8, Layout.align_word, by decide⟩).value
      (Heap.new ⟨List.replicate 8 ⟨0⟩, physicalRemap.start, ⟨⟨0x400000⟩, .small, by decide⟩,
        ⟨⟨[3, 3, 2, 2, 2, 2, 1, 0, 1, 1, 1, 1, 1, 1, 1, 0].map Buddy.mk, physicalRemap.start + 16,
          4, 1⟩, 3⟩⟩)
      = some (some ⟨0xFFFF888000400000, 0x2000⟩) := by decide +kernel
  obtain ⟨t, halloc⟩ := Code.exists_run_of_value hvalue
  exact ⟨_, s', t, hinit, spread_singleton _ _, .allocate .new (by decide) (by decide) halloc,
    ⟨_, List.mem_singleton_self _, Nat.le_refl _, by decide⟩⟩

end System

end Koe
