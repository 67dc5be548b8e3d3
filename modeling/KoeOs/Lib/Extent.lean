/-
# `KoeOs.Lib.Extent` — ranges of bytes

An extent is `size` bytes from `base` on.  Who hands extents out has to keep them
apart, so the two relations here are "lies inside" and "has no byte in common",
and the rule that connects them: parts of disjoint extents are disjoint.
-/
import Mathlib.Order.Nat

namespace Koe

/-- `size` bytes from `base` on. -/
@[ext] structure Extent where
  base : ℕ
  size : ℕ
  deriving DecidableEq, Repr

namespace Extent

variable {a b c d : Extent} {off : ℕ}

/-- The byte `x` lies in the extent. -/
def Contains (e : Extent) (x : ℕ) : Prop := e.base ≤ x ∧ x < e.base + e.size

/-- Every byte of `a` lies in `b`. -/
def Inside (a b : Extent) : Prop := ∀ x, a.Contains x → b.Contains x

/-- No byte lies in both. -/
def Disjoint (a b : Extent) : Prop := ∀ x, a.Contains x → ¬ b.Contains x

theorem Inside.of_le (hbase : b.base ≤ a.base) (hend : a.base + a.size ≤ b.base + b.size) :
    a.Inside b := fun _ hx => ⟨hbase.trans hx.1, hx.2.trans_le hend⟩

theorem Inside.refl (a : Extent) : a.Inside a := fun _ hx => hx

theorem Disjoint.symm (h : a.Disjoint b) : b.Disjoint a := fun x hb ha => h x ha hb

instance : Std.Symm Disjoint := ⟨fun _ _ => Disjoint.symm⟩

theorem Disjoint.mono (h : b.Disjoint d) (ha : a.Inside b) (hc : c.Inside d) : a.Disjoint c :=
  fun x hx hy => h x (ha x hx) (hc x hy)

theorem Disjoint.of_le (h : a.base + a.size ≤ b.base) : a.Disjoint b := fun _ hx hy =>
  absurd (h.trans hy.1) (not_le.mpr hx.2)

/-- Extents that start at the same byte and are not empty meet there. -/
theorem Disjoint.base_ne (h : a.Disjoint b) (ha : 0 < a.size) (hb : 0 < b.size) :
    a.base ≠ b.base := fun he =>
  h a.base ⟨Nat.le_refl _, Nat.lt_add_of_pos_right ha⟩
    ⟨he.symm.le, by rw [he]; exact Nat.lt_add_of_pos_right hb⟩

/-- The extent `off` bytes further on. -/
def shift (off : ℕ) (e : Extent) : Extent := ⟨e.base + off, e.size⟩

theorem shift_injective (off : ℕ) : Function.Injective (shift off) := fun _ _ h =>
  Extent.ext (Nat.add_right_cancel (congrArg Extent.base h)) (congrArg Extent.size h :)

theorem Disjoint.shift (h : a.Disjoint b) : (a.shift off).Disjoint (b.shift off) :=
  fun x hx hy => by
    simp only [Contains, Extent.shift] at hx hy
    exact h (x - off) ⟨by omega, by omega⟩ ⟨by omega, by omega⟩

end Extent

end Koe
