/-
# `KoeOs.Rust.Layout` — `core::alloc::Layout`

A layout carries its own well-formedness, as `core` documents it: the alignment
is a power of two, and the size rounded up to it does not exceed `isize::MAX`.
-/
import KoeOs.Rust.Usize

namespace Koe

/-- The size and alignment of a block of memory. -/
@[ext] structure Layout where
  size : ℕ
  align : ℕ
  align_pow : 2 ^ align.log2 = align
  size_le : Usize.roundUp size align ≤ Usize.isizeMax
  deriving DecidableEq

namespace Layout

theorem align_pos (l : Layout) : 0 < l.align := by
  rw [← l.align_pow]; exact Nat.two_pow_pos _

/-- An alignment is a power of two, so it divides every larger one. -/
theorem align_dvd_two_pow (l : Layout) {k : ℕ} (h : l.align ≤ 2 ^ k) : l.align ∣ 2 ^ k := by
  rw [← l.align_pow] at h ⊢
  exact Nat.pow_dvd_pow 2 ((Nat.pow_le_pow_iff_right (by decide)).mp h)

theorem align_dvd_page (l : Layout) (h : l.align ≤ 4096) : l.align ∣ 4096 :=
  l.align_dvd_two_pow (k := 12) h

theorem size_le_isizeMax (l : Layout) : l.size ≤ Usize.isizeMax :=
  Nat.le_trans (Usize.le_roundUp _ _) l.size_le

theorem align_byte : 2 ^ Nat.log2 1 = 1 := by decide

theorem align_word : 2 ^ Nat.log2 8 = 8 := by decide

/-- `layout.pad_to_align()`. -/
def padToAlign (l : Layout) : Layout where
  size := Usize.roundUp l.size l.align
  align := l.align
  align_pow := l.align_pow
  size_le := by
    rw [Usize.roundUp_of_dvd (Usize.dvd_roundUp l.align_pos)]; exact l.size_le

/-- `Layout::array::<T>(n)`, for `T` of layout `elem`; `None` is `Err(LayoutError)`. -/
def array (elem : Layout) (n : ℕ) : Option Layout :=
  if h : elem.size * n + elem.align ≤ Usize.isizeMax + 1 then
    some
      { size := elem.size * n
        align := elem.align
        align_pow := elem.align_pow
        size_le := by
          have := Usize.roundUp_lt (a := elem.size * n) elem.align_pos
          omega }
  else none

theorem array_size {elem l : Layout} {n : ℕ} (h : array elem n = some l) :
    l.size = elem.size * n := by
  unfold array at h
  split at h
  · cases h; rfl
  · exact nomatch h

end Layout

end Koe
