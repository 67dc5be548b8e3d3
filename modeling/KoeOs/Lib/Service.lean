/-
# `KoeOs.Lib.Service` — nested service by priority

A controller serves requests of levels, the lower number first.  The set `S` is what it
holds in service.  It grants a level below all of `S`, so that service nests, and at the
end of a service it is only told that one has ended: it drops the least level of `S`.

The list `l` is what is really being served, the last one begun first.  If every service
that begins also ends with the controller being told, the two agree.  `Covered` is what
is left of that when the controller is not always told: `S` has at each level at least as
many below it as `l` has.

    take       a service begins, `S` and `l` grow
    takeOnly   `S` grows, and no end will be told for it
    finish     the service begun last ends, and the controller is told
-/
import Mathlib.Data.Finset.Max
import Mathlib.Order.Interval.Finset.Nat

namespace Koe.Service

variable {S : Finset ℕ} {l : List ℕ} {p q k : ℕ}

/-- The controller may grant `p`. -/
def Free (S : Finset ℕ) (p : ℕ) : Prop := ∀ q ∈ S, p < q

/-- The least level is dropped. -/
def finish (S : Finset ℕ) : Finset ℕ := if h : S.Nonempty then S.erase (S.min' h) else S

/-- What is served, in order, is covered by what the controller holds in service. -/
structure Covered (S : Finset ℕ) (l : List ℕ) : Prop where
  sorted : l.Pairwise (· < ·)
  le : ∀ p, (l.filter (· ≤ p)).length ≤ (S.filter (· ≤ p)).card

theorem finish_of_isLeast (hq : q ∈ S) (hle : ∀ p ∈ S, q ≤ p) : finish S = S.erase q := by
  have hmin : S.min' ⟨q, hq⟩ = q := le_antisymm (S.min'_le q hq) (S.le_min' _ _ hle)
  rw [finish, dif_pos ⟨q, hq⟩, hmin]

theorem exists_isLeast (h : S.Nonempty) : ∃ q ∈ S, (∀ p ∈ S, q ≤ p) ∧ finish S = S.erase q :=
  ⟨S.min' h, S.min'_mem h, fun p hp => S.min'_le p hp, dif_pos h⟩

theorem Free.notMem (h : Free S p) : p ∉ S := fun hp => (h p hp).false

theorem covered_nil : Covered ∅ [] := ⟨.nil, by simp⟩

namespace Covered

/-- Some level at or below each served one is in service. -/
theorem exists_le (h : Covered S l) (hq : q ∈ l) : ∃ r ∈ S, r ≤ q := by
  have hpos : 0 < (l.filter (· ≤ q)).length :=
    List.length_pos_of_mem (List.mem_filter.mpr ⟨hq, by simp⟩)
  obtain ⟨r, hr⟩ := Finset.card_pos.mp (hpos.trans_le (h.le q))
  exact ⟨r, (Finset.mem_filter.mp hr).1, (Finset.mem_filter.mp hr).2⟩

theorem free_lt (h : Covered S l) (hfree : Free S p) (hq : q ∈ l) : p < q := by
  obtain ⟨r, hr, hle⟩ := h.exists_le hq
  exact (hfree r hr).trans_le hle

theorem take (h : Covered S l) (hfree : Free S p) : Covered (insert p S) (p :: l) where
  sorted := List.pairwise_cons.mpr ⟨fun _ hq => h.free_lt hfree hq, h.sorted⟩
  le r := by
    by_cases hpr : p ≤ r
    · rw [List.filter_cons_of_pos (by simpa using hpr), Finset.filter_insert, if_pos hpr,
        Finset.card_insert_of_notMem (by simp [hfree.notMem]), List.length_cons]
      exact Nat.succ_le_succ (h.le r)
    · rw [List.filter_cons_of_neg (by simpa using hpr), Finset.filter_insert, if_neg hpr]
      exact h.le r

theorem takeOnly (h : Covered S l) (p : ℕ) : Covered (insert p S) l where
  sorted := h.sorted
  le r := (h.le r).trans (Finset.card_le_card (Finset.filter_subset_filter _ (S.subset_insert p)))

/-- The service begun last is the least one served, and the controller drops a level that
is not above it. -/
theorem finish (h : Covered S (q :: l)) : Covered (finish S) l where
  sorted := (List.pairwise_cons.mp h.sorted).2
  le r := by
    obtain ⟨hlt, -⟩ := List.pairwise_cons.mp h.sorted
    obtain ⟨t, ht, htq⟩ := h.exists_le List.mem_cons_self
    obtain ⟨m, hm, hmin, hfin⟩ := exists_isLeast ⟨t, ht⟩
    rw [hfin, Finset.filter_erase]
    by_cases hqr : q ≤ r
    · have hle := h.le r
      rw [List.filter_cons_of_pos (by simpa using hqr), List.length_cons] at hle
      have hmem : m ∈ S.filter (· ≤ r) :=
        Finset.mem_filter.mpr ⟨hm, ((hmin t ht).trans htq).trans hqr⟩
      rw [Finset.card_erase_of_mem hmem]
      omega
    · -- nothing that is still served is at or below `r`
      have hnone : l.filter (· ≤ r) = [] :=
        List.filter_eq_nil_iff.mpr fun s hs => by
          have := hlt s hs
          simp only [decide_eq_true_eq]
          omega
      rw [hnone]
      exact Nat.zero_le _

end Covered

/-- Below `k` the controller holds in service what is served. -/
def ExactBelow (k : ℕ) (S : Finset ℕ) (l : List ℕ) : Prop := ∀ p < k, p ∈ S ↔ p ∈ l

theorem exactBelow_nil (k : ℕ) : ExactBelow k ∅ [] := fun p _ => by simp

namespace ExactBelow

theorem take (h : ExactBelow k S l) (p : ℕ) : ExactBelow k (insert p S) (p :: l) := fun q hq => by
  rw [Finset.mem_insert, List.mem_cons, h q hq]

theorem takeOnly (h : ExactBelow k S l) (hkp : k ≤ p) : ExactBelow k (insert p S) l := by
  intro q hq
  rw [Finset.mem_insert, ← h q hq]
  exact or_iff_right (by omega)

theorem finish (h : ExactBelow k S (q :: l)) (hc : Covered S (q :: l)) :
    ExactBelow k (Service.finish S) l := by
  obtain ⟨hlt, -⟩ := List.pairwise_cons.mp hc.sorted
  obtain ⟨t, ht, htq⟩ := hc.exists_le List.mem_cons_self
  obtain ⟨m, hm, hmin, hfin⟩ := exists_isLeast ⟨t, ht⟩
  have hmq : m ≤ q := (hmin t ht).trans htq
  intro p hp
  rw [hfin, Finset.mem_erase, h p hp, List.mem_cons]
  -- if the level that is dropped lies below `k`, it is served, and so it is `q`
  have hdrop (hmk : m < k) : m = q := by
    rcases List.mem_cons.mp ((h m hmk).mp hm) with rfl | hml
    · rfl
    · exact absurd (hlt m hml) (by omega)
  constructor
  · rintro ⟨hne, rfl | hpl⟩
    · exact absurd (hdrop (by omega)) (Ne.symm hne)
    · exact hpl
  · intro hpl
    have := hlt p hpl
    exact ⟨by omega, .inr hpl⟩

end ExactBelow

/-- A service that is granted and one that ends change the number in service by one. -/
theorem card_insert_of_free (h : Free S p) : (insert p S).card = S.card + 1 :=
  Finset.card_insert_of_notMem h.notMem

theorem card_finish (h : S.Nonempty) : (finish S).card + 1 = S.card := by
  obtain ⟨q, hq, -, hfin⟩ := exists_isLeast h
  rw [hfin, Finset.card_erase_add_one hq]

end Koe.Service
