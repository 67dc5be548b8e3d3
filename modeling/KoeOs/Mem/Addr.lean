/-
# `KoeOs.Mem.Addr` — `src/mem/addr.rs`

Addresses of an address space, ranges of them, and pages.  `Addr S` is a plain
number: only some of the constructors check that it lies inside `S`, and
`byteAdd` does not check the upper bound at all.  A `PageAddr` on the other hand
can only be built on a page boundary, so it carries that as a field.

Not modelled are the conversions to pointers and the iterator over the pages of a
range.
-/
import KoeOs.Rust.Layout

namespace Koe

/-! ## Pages -/

/-- Hardware page sizes. -/
inductive PageSize where
  | small
  | large
  | huge
  deriving DecidableEq, Repr

namespace PageSize

/-- Base-2 log of the size in bytes. -/
def order : PageSize → ℕ
  | small => 12
  | large => 21
  | huge => 30

/-- Size in bytes. -/
def usize (p : PageSize) : ℕ := 1 <<< p.order

/-- Alignment in bytes, the size. -/
def align (p : PageSize) : ℕ := p.usize

/-- `PageSize::MIN`. -/
def min : PageSize := small

/-- `PageSize::VARIANTS`. -/
def variants : List PageSize := [small, large, huge]

/-- The size of a page for `layout`; `None` if no single page can hold it. -/
def fit (layout : Layout) : Option PageSize :=
  let alignOrder := Usize.bits - Usize.leadingZeros layout.padToAlign.size
  variants.find? fun p => alignOrder ≤ p.order

theorem usize_eq (p : PageSize) : p.usize = 2 ^ p.order := Nat.one_shiftLeft _

theorem align_pow (p : PageSize) : 2 ^ p.align.log2 = p.align := by
  cases p <;> decide

theorem roundUp_le (p : PageSize) : Usize.roundUp p.usize p.align ≤ Usize.isizeMax := by
  cases p <;> decide

/-- Memory layout of a page. -/
def layout (p : PageSize) : Layout := ⟨p.usize, p.align, p.align_pow, p.roundUp_le⟩

/-- A page is a whole number of small pages. -/
theorem small_dvd_align (p : PageSize) : 2 ^ 12 ∣ p.align := by
  cases p <;> decide

end PageSize

/-! ## Addresses -/

/-- `AddrSpace`, by its `RANGE`.  The trait wants it aligned to the largest page, but nothing
evaluates the constant that asserts it, and the space of the kernel image is not. -/
structure AddrSpace where
  start : ℕ
  stop : ℕ
  stop_lt : stop < Usize.modulus

/-- An address, meant to lie inside `S`. -/
@[ext] structure Addr (S : AddrSpace) where
  value : ℕ
  deriving DecidableEq, Repr

namespace Addr

variable {S : AddrSpace} {σ : Type}

instance : LE (Addr S) := ⟨fun a b => a.value ≤ b.value⟩
instance : LT (Addr S) := ⟨fun a b => a.value < b.value⟩

instance (a b : Addr S) : Decidable (a ≤ b) := inferInstanceAs (Decidable (a.value ≤ b.value))
instance (a b : Addr S) : Decidable (a < b) := inferInstanceAs (Decidable (a.value < b.value))

/-- An address that must lie inside the space. -/
def new (value : ℕ) : Code σ (Addr S) := do
  Code.assert (S.start ≤ value ∧ value < S.stop) ""
  return ⟨value⟩

/-- `addr + x`. -/
def byteAdd (a : Addr S) (x : ℕ) : Code σ (Addr S) := do
  let value ← Usize.add a.value x
  Code.assert (S.start ≤ value) ""
  return ⟨value⟩

/-- `addr + x`, or `None` outside the space. -/
def checkedByteAdd (a : Addr S) (x : ℕ) : Option (Addr S) :=
  if a.value + x < Usize.modulus ∧ S.start ≤ a.value + x ∧ a.value + x < S.stop then
    some ⟨a.value + x⟩
  else none

/-- `addr - x`, or `None` outside the space. -/
def checkedByteSub (a : Addr S) (x : ℕ) : Option (Addr S) :=
  if x ≤ a.value ∧ S.start ≤ a.value - x ∧ a.value - x < S.stop then some ⟨a.value - x⟩ else none

/-- The signed difference in bytes. -/
def addrSub (a b : Addr S) : Code σ ℤ :=
  Isize.sub (Isize.ofUsize a.value) (Isize.ofUsize b.value)

/-- Round up to a multiple of `align`; `None` past the end of the space. -/
def alignCeil (a : Addr S) (align : ℕ) : Option (Addr S) :=
  let value := Usize.roundUp a.value align
  if value < Usize.modulus ∧ value < S.stop then some ⟨value⟩ else none

/-- Round down to a multiple of `align`; `None` before the start of the space. -/
def alignFloor (a : Addr S) (align : ℕ) : Option (Addr S) :=
  let value := a.value - a.value % align
  if S.start ≤ value then some ⟨value⟩ else none

def isAlignedTo (a : Addr S) (alignment : ℕ) : Bool := a.value % alignment == 0

/-- The bits of the address from `range.1` up to `range.2`, as a number. -/
def indexRange (a : Addr S) (range : ℕ × ℕ) : Code σ ℕ :=
  if range.2 ≤ range.1 then pure 0
  else if range.2 < Usize.bits then pure ((a.value &&& (1 <<< range.2 - 1)) >>> range.1)
  else throw .overflow

theorem new_of_mem {value : ℕ} (h : S.start ≤ value ∧ value < S.stop) (s : σ) :
    (new value : Code σ (Addr S)).run s = .ok ⟨value⟩ s := by
  rw [new, Code.bind_ok (Code.assert_of (decide_eq_true h) _ s)]; rfl

theorem new_eq_ok {value : ℕ} {a : Addr S} {s s' : σ}
    (h : (new value : Code σ (Addr S)).run s = .ok a s') :
    a.value = value ∧ S.start ≤ value ∧ value < S.stop ∧ s = s' := by
  obtain ⟨_, _, ha, hret⟩ := Code.bind_eq_ok.mp h
  obtain ⟨hb, rfl⟩ := Code.assert_eq_ok.mp ha
  cases hret
  exact ⟨rfl, (of_decide_eq_true hb).1, (of_decide_eq_true hb).2, rfl⟩

section Preserves

variable {I : σ → Prop}

theorem preserves_new (value : ℕ) : Code.Preserves I (new value : Code σ (Addr S)) :=
  (Code.preserves_assert _ _).bind fun _ => Code.preserves_pure _

theorem preserves_byteAdd (a : Addr S) (x : ℕ) : Code.Preserves I (a.byteAdd x) :=
  (Usize.preserves_add _ _).bind fun _ =>
    (Code.preserves_assert _ _).bind fun _ => Code.preserves_pure _

theorem preserves_addrSub (a b : Addr S) : Code.Preserves I (a.addrSub b) :=
  Isize.preserves_sub _ _

end Preserves

theorem byteAdd_of_lt {a : Addr S} {x : ℕ} (hs : S.start ≤ a.value)
    (h : a.value + x < Usize.modulus) (s : σ) : (a.byteAdd x).run s = .ok ⟨a.value + x⟩ s := by
  have hle : S.start ≤ a.value + x := by omega
  rw [byteAdd, Code.bind_ok (Usize.add_of_lt h s),
    Code.bind_ok (Code.assert_of (decide_eq_true hle) _ s)]
  rfl

theorem byteAdd_eq_ok {a b : Addr S} {x : ℕ} {s s' : σ} (h : (a.byteAdd x).run s = .ok b s') :
    a.value + x < Usize.modulus ∧ b.value = a.value + x ∧ s = s' := by
  obtain ⟨value, _, hadd, h⟩ := Code.bind_eq_ok.mp h
  obtain ⟨hlt, rfl, rfl⟩ := Usize.add_eq_ok.mp hadd
  obtain ⟨_, _, ha, h⟩ := Code.bind_eq_ok.mp h
  obtain ⟨-, rfl⟩ := Code.assert_eq_ok.mp ha
  cases h
  exact ⟨hlt, rfl, rfl⟩

theorem checkedByteAdd_eq_some {a b : Addr S} {x : ℕ} :
    a.checkedByteAdd x = some b ↔
      (S.start ≤ a.value + x ∧ a.value + x < S.stop) ∧ b.value = a.value + x := by
  have hlt := S.stop_lt
  unfold checkedByteAdd
  split
  · rw [Option.some.injEq, Addr.ext_iff]
    exact ⟨fun h => ⟨by omega, h.symm⟩, fun h => h.2.symm⟩
  · exact iff_of_false (by simp) (by omega)

theorem checkedByteAdd_value {a b : Addr S} {x : ℕ} (h : a.checkedByteAdd x = some b) :
    b.value = a.value + x := (checkedByteAdd_eq_some.mp h).2

theorem checkedByteAdd_eq_none {a : Addr S} {x : ℕ} :
    a.checkedByteAdd x = none ↔ ¬ (S.start ≤ a.value + x ∧ a.value + x < S.stop) := by
  have hlt := S.stop_lt
  unfold checkedByteAdd
  split
  · exact iff_of_false (by simp) (by omega)
  · exact iff_of_true rfl (by omega)

theorem checkedByteSub_eq_some {a b : Addr S} {x : ℕ} :
    a.checkedByteSub x = some b ↔
      (x ≤ a.value ∧ S.start ≤ a.value - x ∧ a.value - x < S.stop) ∧ b.value = a.value - x := by
  unfold checkedByteSub
  split
  · rw [Option.some.injEq, Addr.ext_iff]
    exact ⟨fun h => ⟨by assumption, h.symm⟩, fun h => h.2.symm⟩
  · exact iff_of_false (by simp) (by omega)

theorem checkedByteSub_eq_none {a : Addr S} {x : ℕ} :
    a.checkedByteSub x = none ↔
      ¬ (x ≤ a.value ∧ S.start ≤ a.value - x ∧ a.value - x < S.stop) := by
  unfold checkedByteSub
  split
  · exact iff_of_false (by simp) (by omega)
  · exact iff_of_true rfl (by omega)

theorem addrSub_of_le {a b : Addr S} (h : b.value ≤ a.value) (ha : a.value < 2 ^ 63) (s : σ) :
    (a.addrSub b).run s = .ok ((a.value - b.value : ℕ) : ℤ) s := by
  rw [addrSub, Isize.ofUsize_of_lt ha, Isize.ofUsize_of_lt (by omega), Isize.sub_of_mem (by omega)]
  congr 1
  omega

theorem addrSub_eq_ok {a b : Addr S} {d : ℤ} {s s' : σ} (h : (a.addrSub b).run s = .ok d s')
    (hle : b.value ≤ a.value) (ha : a.value < Usize.modulus) :
    Isize.toUsize d = a.value - b.value ∧ s = s' := by
  obtain ⟨rfl, rfl⟩ := Isize.sub_eq_ok h
  exact ⟨Isize.toUsize_sub hle ha, rfl⟩

end Addr

/-! ## Ranges -/

/-- A range of addresses. -/
structure AddrRange (S : AddrSpace) where
  base : Addr S
  size : ℕ
  deriving DecidableEq, Repr

/-- A page, by its first address. -/
structure PageAddr (S : AddrSpace) where
  base : Addr S
  pageSize : PageSize
  aligned : pageSize.align ∣ base.value
  deriving DecidableEq

/-- `len` pages. -/
structure PageRange (S : AddrSpace) where
  base : PageAddr S
  len : ℕ
  deriving DecidableEq

namespace PageAddr

variable {S : AddrSpace} {σ : Type}

/-- The page of size `pageSize` at `base`; panics if `base` is not aligned. -/
def new (base : Addr S) (pageSize : PageSize) : Code σ (PageAddr S) :=
  if h : pageSize.align ∣ base.value then return ⟨base, pageSize, h⟩
  else throw (.assertion "")

/-- A whole number of pages further on is a page again. -/
theorem align_dvd_add (p : PageAddr S) {pageCnt : ℕ} {base : Addr S}
    (h : p.base.checkedByteAdd (pageCnt * p.pageSize.usize) = some base) :
    p.pageSize.align ∣ base.value := by
  rw [Addr.checkedByteAdd_value h]
  exact Nat.dvd_add p.aligned (Nat.dvd_mul_left _ _)

/-- `pageCnt` pages further on; `None` outside the space. -/
def checkedPageAdd (p : PageAddr S) (pageCnt : ℕ) : Code σ (Option (PageAddr S)) := do
  let _ ← Usize.mul pageCnt p.pageSize.usize
  match h : p.base.checkedByteAdd (pageCnt * p.pageSize.usize) with
  | none => return none
  | some base => return some ⟨base, p.pageSize, p.align_dvd_add h⟩

/-- A whole number of pages back is a page again. -/
theorem align_dvd_sub (p : PageAddr S) {pageCnt : ℕ} {base : Addr S}
    (h : p.base.checkedByteSub (pageCnt * p.pageSize.usize) = some base) :
    p.pageSize.align ∣ base.value := by
  rw [(Addr.checkedByteSub_eq_some.mp h).2]
  exact Nat.dvd_sub p.aligned (Nat.dvd_mul_left _ _)

/-- `pageCnt` pages back; `None` outside the space. -/
def checkedPageSub (p : PageAddr S) (pageCnt : ℕ) : Code σ (Option (PageAddr S)) := do
  let _ ← Usize.mul pageCnt p.pageSize.usize
  match h : p.base.checkedByteSub (pageCnt * p.pageSize.usize) with
  | none => return none
  | some base => return some ⟨base, p.pageSize, p.align_dvd_sub h⟩

theorem new_of_dvd {base : Addr S} {pageSize : PageSize} (h : pageSize.align ∣ base.value) (s : σ) :
    (new base pageSize).run s = .ok ⟨base, pageSize, h⟩ s := by
  rw [new, dif_pos h]; rfl

theorem new_eq_ok {base : Addr S} {pageSize : PageSize} {q : PageAddr S} {s s' : σ}
    (h : (new base pageSize).run s = .ok q s') :
    q.base = base ∧ q.pageSize = pageSize ∧ s = s' := by
  unfold new at h
  split at h
  · cases h; exact ⟨rfl, rfl, rfl⟩
  · exact nomatch h

theorem checkedPageAdd_eq_ok {p q : PageAddr S} {pageCnt : ℕ} {s s' : σ}
    (h : (p.checkedPageAdd pageCnt).run s = .ok (some q) s') :
    q.base.value = p.base.value + pageCnt * p.pageSize.usize ∧ s = s' := by
  unfold checkedPageAdd at h
  obtain ⟨_, _, hmul, h⟩ := Code.bind_eq_ok.mp h
  obtain ⟨-, -, rfl⟩ := Usize.mul_eq_ok.mp hmul
  split at h
  · exact nomatch h
  · rename_i base hb
    cases h
    exact ⟨Addr.checkedByteAdd_value hb, rfl⟩

theorem checkedPageAdd_run (p : PageAddr S) {pageCnt : ℕ} (hs : S.start ≤ p.base.value)
    (h : p.base.value + pageCnt * p.pageSize.usize < S.stop) (s : σ) :
    ∃ q, (p.checkedPageAdd pageCnt).run s = .ok (some q) s ∧ q.pageSize = p.pageSize ∧
      q.base.value = p.base.value + pageCnt * p.pageSize.usize := by
  have hlt := S.stop_lt
  have hadd : p.base.checkedByteAdd (pageCnt * p.pageSize.usize)
      = some ⟨p.base.value + pageCnt * p.pageSize.usize⟩ :=
    if_pos ⟨by omega, by omega, h⟩
  refine ⟨⟨_, p.pageSize, p.align_dvd_add hadd⟩, ?_, rfl, rfl⟩
  unfold checkedPageAdd
  rw [Code.bind_ok (Usize.mul_of_lt (by omega) s)]
  split
  · rename_i hn; exact nomatch hadd.symm.trans hn
  · rename_i b hb; cases hadd.symm.trans hb; rfl

end PageAddr

namespace PageRange

variable {S : AddrSpace} {σ : Type}

/-- No pages. -/
def empty (pageSize : PageSize) : Code σ (PageRange S) := do
  return ⟨← PageAddr.new (← Addr.new S.start) pageSize, 0⟩

/-- `PageRange` into `AddrRange`. -/
def toAddrRange (r : PageRange S) : Code σ (AddrRange S) := do
  return ⟨r.base.base, ← Usize.mul r.len r.base.pageSize.usize⟩

/-- The pages of a range; `None` if it is not page aligned. -/
def tryFromRange (range : AddrRange S) (pageSize : PageSize) : Code σ (Option (PageRange S)) := do
  if range.base.isAlignedTo pageSize.align then
    let base ← PageAddr.new range.base pageSize
    if range.size % pageSize.align ≠ 0 then return none
    return some ⟨base, range.size / pageSize.align⟩
  else return none

end PageRange

namespace AddrRange

variable {S : AddrSpace} {σ : Type}

/-- `size` bytes from `base` on, which must end inside the space. -/
def new (base : Addr S) (size : ℕ) : Code σ (AddrRange S) := do
  Code.assert ((← Usize.add base.value size) ≤ S.stop) ""
  return ⟨base, size⟩

/-- An empty range. -/
def empty : Code σ (AddrRange S) := do return ⟨← Addr.new S.start, 0⟩

/-- The set subtraction of `rhs` from the range: what is left below `rhs` and what is left
above.  The sizes of the two are differences of addresses, zero where negative. -/
def rangeSub (r rhs : AddrRange S) : Code σ (AddrRange S × AddrRange S) := do
  if r.size = 0 then return (← empty, rhs)
  if rhs.size = 0 then return (r, ← empty)
  let lowSize := Min.min ((Isize.tryToUsize (← rhs.base.addrSub r.base)).getD 0) r.size
  let hiDiff ← Isize.add (← r.base.addrSub rhs.base)
    (← Isize.sub (Isize.ofUsize r.size) (Isize.ofUsize rhs.size))
  let hiSize := Min.min ((Isize.tryToUsize hiDiff).getD 0) r.size
  let lo ← new r.base lowSize
  let hi ← new (← r.base.byteAdd (← Usize.sub r.size hiSize)) hiSize
  return (lo, hi)

/-- The pages that lie inside the range. -/
def containedPages (r : AddrRange S) (pageSize : PageSize) : Code σ (PageRange S) := do
  if r.size < pageSize.usize then return ← PageRange.empty pageSize
  let base ← Code.expect (r.base.alignCeil pageSize.usize) "AddrSpace should be page-aligned."
  let residual ← Usize.sub r.size (Isize.toUsize (← base.addrSub r.base))
  return ⟨← PageAddr.new base pageSize, residual / pageSize.usize⟩

/-- The pages that share a byte with the range. -/
def overlappedPages (r : AddrRange S) (pageSize : PageSize) : Code σ (PageRange S) := do
  let base ← Code.expect (r.base.alignFloor pageSize.usize) "AddrSpace should be page-aligned."
  let residual ← Usize.add r.size (Isize.toUsize (← r.base.addrSub base))
  return ⟨← PageAddr.new base pageSize, Usize.divCeil residual pageSize.usize⟩

end AddrRange

/-! ## The spaces -/

/-- `UMASpace`, physical memory: 64 TiB from 0 on. -/
def uma : AddrSpace where
  start := 0
  stop := 64 * 2 ^ 40
  stop_lt := by decide

theorem Addr.alignFloor_uma (a : Addr uma) (align : ℕ) :
    a.alignFloor align = some ⟨a.value - a.value % align⟩ := by
  have hmem : uma.start ≤ a.value - a.value % align := Nat.zero_le _
  simp only [Addr.alignFloor, hmem, if_true]

/-- `PhysicalRemapSpace`, where all of physical memory is mapped. -/
def physicalRemap : AddrSpace where
  start := 0xFFFF888000000000
  stop := 0xFFFFC88000000000
  stop_lt := by decide

/-- `DataStackSpace`, where the kernel maps its stacks. -/
def dataStack : AddrSpace where
  start := 0xFFFFC90000000000
  stop := 0xFFFFE90000000000
  stop_lt := by decide

/-- `KernelImageSpace`, where the kernel is linked. -/
def kernelImage : AddrSpace where
  start := 0xFFFFFFFF80000000
  stop := 0xFFFFFFFFFF600000
  stop_lt := by decide

/-- `KernelImageSpace::v2p`. -/
def imageV2p {σ : Type} (vaddr : Addr kernelImage) : Code σ (Addr uma) := do
  Code.assert (kernelImage.start ≤ vaddr.value ∧ vaddr.value < kernelImage.stop) ""
  Addr.new (← Usize.sub vaddr.value kernelImage.start)

/-- `PhysicalRemapSpace::p2v`. -/
def p2v {σ : Type} (paddr : Addr uma) : Code σ (Addr physicalRemap) := do
  Addr.new (← Usize.add paddr.value physicalRemap.start)

/-- `PhysicalRemapSpace::v2p`. -/
def v2p {σ : Type} (vaddr : Addr physicalRemap) : Code σ (Addr uma) := do
  Addr.new (← Usize.sub vaddr.value physicalRemap.start)

end Koe
