/-
# `KoeOs.Lib.Spans` — a set as a list of intervals

A finite union of half-open intervals `[lo i, hi i)` of a linear order can be
listed in many ways.  `Spaced` is the one way that is sorted, has no empty
interval, and leaves a gap after each interval.  The gap makes it unique: the
upper end of an interval is itself a point the list does not cover.

    lo of the first    the least point covered
    hi of the first    the least point above it that is not
    the rest           what is covered from there on

`Tiles` is the opposite: the intervals go from one point to another and each
begins where the one before it ended.

The intervals are elements of an arbitrary type, with their ends as functions.
-/
import Mathlib.Order.Lattice
import Mathlib.Data.List.Basic

namespace Koe.Spans

variable {ι α : Type*} [LinearOrder α] (lo hi : ι → α)

/-- The point `x` lies in one of the intervals. -/
def Covers (l : List ι) (x : α) : Prop := ∃ i ∈ l, lo i ≤ x ∧ x < hi i

/-- Sorted, and no interval is empty or touches another. -/
structure Spaced (l : List ι) : Prop where
  lt : ∀ i ∈ l, lo i < hi i
  gap : l.Pairwise fun i j => hi i < lo j

variable {lo hi} {i j : ι} {l m : List ι} {x : α}

@[simp] theorem covers_nil : ¬ Covers lo hi [] x := by simp [Covers]

@[simp] theorem covers_cons :
    Covers lo hi (i :: l) x ↔ (lo i ≤ x ∧ x < hi i) ∨ Covers lo hi l x := by
  simp [Covers]

@[simp] theorem covers_append :
    Covers lo hi (l ++ m) x ↔ Covers lo hi l x ∨ Covers lo hi m x := by
  simp [Covers, or_and_right, exists_or]

theorem spaced_nil : Spaced lo hi [] := ⟨by simp, .nil⟩

theorem spaced_cons : Spaced lo hi (i :: l) ↔
    lo i < hi i ∧ (∀ j ∈ l, hi i < lo j) ∧ Spaced lo hi l := by
  constructor
  · intro h
    obtain ⟨hgap, hrest⟩ := List.pairwise_cons.mp h.gap
    exact ⟨h.lt i List.mem_cons_self, hgap, fun j hj => h.lt j (List.mem_cons_of_mem i hj), hrest⟩
  · rintro ⟨hlt, hgap, hrest⟩
    exact ⟨List.forall_mem_cons.mpr ⟨hlt, hrest.lt⟩, List.pairwise_cons.mpr ⟨hgap, hrest.gap⟩⟩

theorem spaced_append : Spaced lo hi (l ++ m) ↔
    Spaced lo hi l ∧ Spaced lo hi m ∧ ∀ i ∈ l, ∀ j ∈ m, hi i < lo j := by
  constructor
  · intro h
    obtain ⟨hl, hm, hgap⟩ := List.pairwise_append.mp h.gap
    exact ⟨⟨fun i hi => h.lt i (List.mem_append_left m hi), hl⟩,
      ⟨fun j hj => h.lt j (List.mem_append_right l hj), hm⟩, hgap⟩
  · rintro ⟨hl, hm, hgap⟩
    exact ⟨List.forall_mem_append.mpr ⟨hl.lt, hm.lt⟩,
      List.pairwise_append.mpr ⟨hl.gap, hm.gap, hgap⟩⟩

/-- An interval with a gap on either side. -/
theorem Spaced.splice (hl : Spaced lo hi l) (hm : Spaced lo hi m) (hi' : lo i < hi i)
    (hbefore : ∀ a ∈ l, hi a < lo i) (hafter : ∀ b ∈ m, hi i < lo b) :
    Spaced lo hi (l ++ i :: m) := by
  refine spaced_append.mpr ⟨hl, spaced_cons.mpr ⟨hi', hafter, hm⟩, fun a ha b hb => ?_⟩
  rcases List.mem_cons.mp hb with rfl | hb
  · exact hbefore a ha
  · exact (hbefore a ha).trans (hi'.trans (hafter b hb))

/-- Two parts of a spaced list have no point in common. -/
theorem Spaced.disjoint (h : Spaced lo hi (l ++ m)) (hx : Covers lo hi l x) :
    ¬ Covers lo hi m x := by
  obtain ⟨i, hi', hx⟩ := hx
  rintro ⟨j, hj, hx'⟩
  exact absurd ((spaced_append.mp h).2.2 i hi' j hj) (not_lt.mpr (hx'.1.trans hx.2.le))

/-! ## The set determines the list -/

theorem Spaced.lo_le (h : Spaced lo hi (i :: l)) (hx : Covers lo hi (i :: l) x) : lo i ≤ x := by
  obtain ⟨hlt, hgap, -⟩ := spaced_cons.mp h
  rcases covers_cons.mp hx with hx | ⟨j, hj, hx⟩
  · exact hx.1
  · exact (hlt.trans (hgap j hj)).le.trans hx.1

theorem covers_lo (h : Spaced lo hi (i :: l)) : Covers lo hi (i :: l) (lo i) :=
  covers_cons.mpr (.inl ⟨le_rfl, (spaced_cons.mp h).1⟩)

theorem not_covers_hi (h : Spaced lo hi (i :: l)) : ¬ Covers lo hi (i :: l) (hi i) := by
  intro hx
  rcases covers_cons.mp hx with hx | ⟨j, hj, hx⟩
  · exact lt_irrefl _ hx.2
  · exact absurd hx.1 (not_le.mpr ((spaced_cons.mp h).2.1 j hj))

/-- What the rest covers lies past the first interval. -/
theorem covers_tail (h : Spaced lo hi (i :: l)) :
    Covers lo hi l x ↔ Covers lo hi (i :: l) x ∧ hi i ≤ x := by
  obtain ⟨-, hgap, -⟩ := spaced_cons.mp h
  constructor
  · rintro ⟨j, hj, hx⟩
    exact ⟨covers_cons.mpr (.inr ⟨j, hj, hx⟩), (hgap j hj).le.trans hx.1⟩
  · rintro ⟨hx, hle⟩
    exact (covers_cons.mp hx).resolve_left fun hx => absurd hx.2 (not_lt.mpr hle)

/-- The first interval ends no later than that of a list which covers the same. -/
theorem Spaced.le_hi (h : Spaced lo hi (j :: m))
    (heq : ∀ x, Covers lo hi (i :: l) x ↔ Covers lo hi (j :: m) x) (hlo : lo i = lo j) :
    hi i ≤ hi j := by
  by_contra hlt
  refine not_covers_hi h ((heq _).mp (covers_cons.mpr (.inl ⟨?_, not_le.mp hlt⟩)))
  rw [hlo]
  exact (spaced_cons.mp h).1.le

/-- Two spaced lists that cover the same points have the same intervals. -/
theorem Spaced.ends_eq (h : Spaced lo hi l) (h' : Spaced lo hi m)
    (heq : ∀ x, Covers lo hi l x ↔ Covers lo hi m x) :
    l.map (fun i => (lo i, hi i)) = m.map fun i => (lo i, hi i) := by
  induction l generalizing m with
  | nil =>
      cases m with
      | nil => rfl
      | cons j m => exact absurd ((heq _).mpr (covers_lo h')) covers_nil
  | cons i l ih =>
      cases m with
      | nil => exact absurd ((heq _).mp (covers_lo h)) covers_nil
      | cons j m =>
          have hlo : lo i = lo j :=
            le_antisymm (h.lo_le ((heq _).mpr (covers_lo h'))) (h'.lo_le ((heq _).mp (covers_lo h)))
          have hhi : hi i = hi j :=
            le_antisymm (h'.le_hi heq hlo) (h.le_hi (fun x => (heq x).symm) hlo.symm)
          have hrest : ∀ x, Covers lo hi l x ↔ Covers lo hi m x := fun x => by
            rw [covers_tail h, covers_tail h', heq, hhi]
          rw [List.map_cons, List.map_cons, hlo, hhi,
            ih (spaced_cons.mp h).2.2 (spaced_cons.mp h').2.2 hrest]

/-! ## Intervals without a gap -/

variable (lo hi) in
/-- The intervals go from one point to another, one after the other, and none is empty. -/
inductive Tiles : α → α → List ι → Prop
  | nil {a : α} : Tiles a a []
  | cons {i : ι} {l : List ι} {b : α} (hlt : lo i < hi i) (rest : Tiles (hi i) b l) :
      Tiles (lo i) b (i :: l)

namespace Tiles

variable {a b : α}

theorem le (h : Tiles lo hi a b l) : a ≤ b := by
  induction h with
  | nil => exact le_rfl
  | cons hlt _ ih => exact hlt.le.trans ih

/-- Each interval lies between the two points. -/
theorem mem (h : Tiles lo hi a b l) (hi' : i ∈ l) : a ≤ lo i ∧ hi i ≤ b := by
  induction h with
  | nil => exact absurd hi' List.not_mem_nil
  | cons hlt rest ih =>
      rcases List.mem_cons.mp hi' with rfl | hi'
      · exact ⟨le_rfl, rest.le⟩
      · exact ⟨hlt.le.trans (ih hi').1, (ih hi').2⟩

/-- The last interval ends at the second point. -/
theorem exists_hi_eq (h : Tiles lo hi a b l) (hlt : a < b) : ∃ i ∈ l, hi i = b := by
  induction h with
  | nil => exact absurd hlt (lt_irrefl _)
  | @cons i l b _ rest ih =>
      rcases rest.le.lt_or_eq with hlt' | he
      · obtain ⟨j, hj, hend⟩ := ih hlt'
        exact ⟨j, List.mem_cons_of_mem i hj, hend⟩
      · exact ⟨i, List.mem_cons_self, he⟩

end Tiles

end Koe.Spans
