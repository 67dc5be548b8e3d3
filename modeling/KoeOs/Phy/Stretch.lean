/-
# `KoeOs.Phy.Stretch` — what the pieces of a block mark

`PhysicalMemoryRecord::new` frees a block of boot memory piece by piece, and each piece at
whatever frame it begins.  `aligned_split` always takes the largest piece it can, so the
pieces get smaller towards the end, and at each level the marks of all pieces together are
one row of nodes.  For `S` frames from frame `k` on, whose first piece has order `o`:

    level l ≤ o      nodes k >> l, …, (k >> l) + (S >> l) - 1
    level l > o      nothing

That is a `Stretch`.  Its rows need not be aligned with each other, so a node may be marked
while the first of the nodes below it are not.  But a row ends where those below it end or
before, and so marks have no gap from one level to another (`Stretch.marks_between`).

With several blocks the marks stay free of gaps if no row of a block reaches back, by
rounding down, into the frames of a block before it (`Stretch.Behind`).
-/
import KoeOs.Phy.Forced
import KoeOs.Phy.Split

namespace Koe

open Node

/-! ## The pieces get smaller -/

namespace AlignedSplit

variable {S p q maxOrder : ℕ}

/-- On each level up to `o`, the pieces before unit `p` have come to a whole unit, or to the
last whole unit of the block. -/
def Packed (S o p : ℕ) : Prop := ∀ l ≤ o, 2 ^ l ∣ p ∨ p / 2 ^ l = S / 2 ^ l

theorem Packed.zero (S o : ℕ) : Packed S o 0 := fun _ _ => .inl (Nat.dvd_zero _)

/-- After a piece of order `q` nothing changes on the levels above `q`. -/
theorem Packed.div_eq {o l : ℕ} (h : Packed S o p) (hq : Piece S maxOrder p q)
    (hl : q < l) (hle : l ≤ o) : (p + 2 ^ q) / 2 ^ l = p / 2 ^ l := by
  have hlow := Nat.div_le_div_right (c := 2 ^ l) (Nat.le_add_right p (2 ^ q))
  have hhigh := Nat.div_le_div_right (c := 2 ^ l) hq.fits
  rcases h l hle with hdvd | heq
  · obtain ⟨c, rfl⟩ := hdvd
    have hpow : 2 ^ q < 2 ^ l := Nat.pow_lt_pow_right (by decide) hl
    rw [Nat.mul_add_div (Nat.two_pow_pos l), Nat.div_eq_of_lt hpow,
      Nat.mul_div_cancel_left _ (Nat.two_pow_pos l)]
    rfl
  · omega

theorem Packed.step {o : ℕ} (h : Packed S o p) (hq : Piece S maxOrder p q) (ho : o ≤ maxOrder) :
    Packed S o (p + 2 ^ q) := by
  intro l hl
  by_cases hlq : l ≤ q
  · have hpow : 2 ^ l ∣ 2 ^ q := Nat.pow_dvd_pow 2 hlq
    exact .inl (Nat.dvd_add (hpow.trans hq.dvd) hpow)
  · right
    rw [h.div_eq hq (not_le.mp hlq) hl]
    rcases h l hl with hdvd | heq
    · -- the piece is smaller than it could be here, so the rest is small
      have hsucc : 2 ^ (q + 1) ∣ 2 ^ l := Nat.pow_dvd_pow 2 (by omega)
      have hle : 2 ^ (q + 1) ≤ 2 ^ l := Nat.le_of_dvd (Nat.two_pow_pos l) hsucc
      have hrest : S < p + 2 ^ (q + 1) :=
        (hq.most.resolve_left (by omega)).resolve_left (not_not.mpr (hsucc.trans hdvd))
      have hfits := hq.fits
      obtain ⟨c, rfl⟩ := hdvd
      rw [Nat.mul_div_cancel_left _ (Nat.two_pow_pos l)]
      refine (Nat.div_eq_of_lt_le ?_ ?_).symm
      · rw [Nat.mul_comm]; omega
      · rw [Nat.succ_mul, Nat.mul_comm]; omega
    · exact heq

end AlignedSplit

/-! ## Stretches -/

/-- `cnt` pages from page `first` on, freed in pieces of at most `2 ^ order` pages. -/
structure Stretch where
  first : ℕ
  cnt : ℕ
  order : ℕ

namespace Stretch

variable {x y : Stretch} {n a b c : Node} {i : ℕ}

/-- The node `n` is marked by the pieces of the stretch. -/
def Marks (x : Stretch) (n : Node) : Prop :=
  n.order ≤ x.order ∧ x.first / 2 ^ n.order ≤ n.idx ∧
    n.idx < x.first / 2 ^ n.order + x.cnt / 2 ^ n.order

/-- The first page that is marked at some level. -/
def floor (x : Stretch) : ℕ := x.first / 2 ^ x.order * 2 ^ x.order

/-- The stretch `y` begins behind `x`, even where it is rounded down. -/
def Behind (x y : Stretch) : Prop := 0 < x.cnt → 0 < y.cnt → x.first + x.cnt ≤ y.floor

instance : DecidableRel Behind := fun x y =>
  inferInstanceAs (Decidable (0 < x.cnt → 0 < y.cnt → x.first + x.cnt ≤ y.floor))

theorem floor_le (x : Stretch) : x.floor ≤ x.first := Nat.div_mul_le_self _ _

theorem Marks.cnt_pos (h : x.Marks n) : 0 < x.cnt := by
  obtain ⟨-, h1, h2⟩ := h
  by_contra h0
  rw [Nat.eq_zero_of_not_pos h0, Nat.zero_div] at h2
  omega

/-- One more piece at the end of a stretch. -/
theorem marks_add {first p q o : ℕ} (hq : q ≤ o) (hdvd : 2 ^ q ∣ p)
    (hcarry : ∀ l, q < l → l ≤ o → (p + 2 ^ q) / 2 ^ l = p / 2 ^ l) :
    (Marks ⟨first, p, o⟩ n ∨ Block.Marks ⟨first + p, q⟩ n) ↔ Marks ⟨first, p + 2 ^ q, o⟩ n := by
  simp only [Marks, Block.Marks, Nat.shiftRight_eq_div_pow]
  by_cases hl : n.order ≤ q
  · -- the rows of the pieces before end where that of the new one begins
    obtain ⟨d, hd⟩ := (Nat.pow_dvd_pow 2 hl).trans hdvd
    have hpos := Nat.two_pow_pos n.order
    have hpow : 2 ^ q = 2 ^ n.order * 2 ^ (q - n.order) := by
      rw [← Nat.pow_add]; congr 1; omega
    have hsum : p + 2 ^ q = 2 ^ n.order * (d + 2 ^ (q - n.order)) := by
      rw [hd, hpow, ← Nat.mul_add]
    rw [hsum, hd, Nat.add_mul_div_left _ _ hpos, Nat.mul_div_cancel_left _ hpos,
      Nat.mul_div_cancel_left _ hpos]
    have hrow := Nat.two_pow_pos (q - n.order)
    omega
  · have hne : ¬ n.order ≤ q := hl
    simp only [hne, false_and, or_false]
    refine and_congr_right fun hle => ?_
    rw [hcarry n.order (not_le.mp hl) hle]

/-- The row below a marked node reaches at least as far. -/
theorem Marks.right (h : x.Marks n) (hpos : 0 < n.order) : x.Marks n.right := by
  obtain ⟨hle, hfirst, hlast⟩ := h
  obtain ⟨k, j⟩ := n
  obtain ⟨l, rfl⟩ : ∃ l, k = l + 1 := ⟨k - 1, by simp only at hpos; omega⟩
  simp only [Nat.pow_succ, ← Nat.div_div_eq_div_mul] at hle hfirst hlast
  simp only [Marks, Node.right, Nat.add_sub_cancel]
  omega

/-- Rounding down to one level, and then to a higher one. -/
theorem div_two_pow_div (i : ℕ) {k l : ℕ} (h : k ≤ l) : i / 2 ^ k / 2 ^ (l - k) = i / 2 ^ l :=
  div_pow_sub (Nat.zero_le k) h

/-- Marks have no gap from one level to another. -/
theorem marks_between (ha : x.Marks a) (hc : x.Marks c) (hab : a ≤ b) (hbc : b ≤ c) :
    x.Marks b := by
  refine ⟨hbc.1.trans hc.1, ?_, ?_⟩
  · rw [← hab.2, ← div_two_pow_div x.first hab.1]
    exact Nat.div_le_div_right ha.2.1
  · have hpos := Nat.two_pow_pos (c.order - b.order)
    have hlast := hc.2.2
    rw [← hbc.2, ← div_two_pow_div x.first hbc.1, ← div_two_pow_div x.cnt hbc.1,
      Nat.div_lt_iff_lt_mul hpos, Nat.add_mul] at hlast
    refine hlast.trans_le (Nat.add_le_add ?_ ?_)
    · exact Nat.div_mul_le_self _ _
    · exact Nat.div_mul_le_self _ _

/-- The pages below a marked node. -/
theorem Marks.span (h : x.Marks n) (hi : leaf i ≤ n) : x.floor ≤ i ∧ i < x.first + x.cnt := by
  obtain ⟨hle, hfirst, hlast⟩ := h
  obtain ⟨h1, h2⟩ := leaf_le_iff_mem.mp hi
  constructor
  · refine (Block.floor_le_of_le (b := ⟨x.first, x.order⟩) hle).trans ?_
    exact (Nat.mul_le_mul_right _ hfirst).trans h1
  · calc i < n.idx * 2 ^ n.order + 2 ^ n.order := h2
      _ = (n.idx + 1) * 2 ^ n.order := by rw [Nat.add_mul, Nat.one_mul]
      _ ≤ (x.first / 2 ^ n.order + x.cnt / 2 ^ n.order) * 2 ^ n.order :=
          Nat.mul_le_mul_right _ hlast
      _ ≤ x.first + x.cnt := by
          rw [Nat.add_mul]
          exact Nat.add_le_add (Nat.div_mul_le_self _ _) (Nat.div_mul_le_self _ _)

/-- The pages below the marked nodes: those from `first` on are marked themselves, and those
before it lie below the first node of the highest row. -/
theorem exists_marks_iff (hx : 0 < x.cnt → 2 ^ x.order ≤ x.cnt) :
    (∃ n, leaf i ≤ n ∧ x.Marks n) ↔ 0 < x.cnt ∧ x.floor ≤ i ∧ i < x.first + x.cnt := by
  constructor
  · rintro ⟨n, hi, hmark⟩
    exact ⟨hmark.cnt_pos, hmark.span hi⟩
  · rintro ⟨hpos, hfloor, hlt⟩
    by_cases hi : x.first ≤ i
    · refine ⟨leaf i, le_rfl, Nat.zero_le _, ?_, ?_⟩
      · simpa only [leaf, Nat.pow_zero, Nat.div_one] using hi
      · simpa only [leaf, Nat.pow_zero, Nat.div_one] using hlt
    · have hrow := Nat.two_pow_pos x.order
      refine ⟨⟨x.order, x.first / 2 ^ x.order⟩, leaf_le_iff_mem.mpr ⟨hfloor, ?_⟩, Nat.le_refl _,
        Nat.le_refl _, Nat.lt_add_of_pos_right (Nat.div_pos (hx hpos) hrow)⟩
      exact (not_le.mp hi).trans (Nat.lt_div_mul_add hrow)

/-- Rounding down goes back less than a node. -/
theorem Marks.exists_leaf (h : x.Marks n) : ∃ i, leaf i ≤ n ∧ x.first ≤ i := by
  have hpos := Nat.two_pow_pos n.order
  refine ⟨n.idx * 2 ^ n.order + (2 ^ n.order - 1), leaf_le_iff_mem.mpr ⟨by omega, by omega⟩, ?_⟩
  have hlt := Nat.lt_div_mul_add hpos (a := x.first)
  have hle := Nat.mul_le_mul_right (2 ^ n.order) h.2.1
  omega

/-- No mark of one stretch lies above a mark of another. -/
theorem Behind.not_le (h : x.Behind y) (ha : x.Marks a) (hb : y.Marks b) : ¬ a ≤ b ∧ ¬ b ≤ a := by
  have hle := h ha.cnt_pos hb.cnt_pos
  constructor
  · intro hab
    have hi := leaf_le_self a
    have h1 := (ha.span hi).2
    have h2 := (hb.span (hi.trans hab)).1
    omega
  · intro hba
    obtain ⟨i, hi, hfirst⟩ := hb.exists_leaf
    have h1 := (ha.span (hi.trans hba)).2
    have h2 := y.floor_le
    omega

/-- Nor is there a gap if each of several stretches is behind those before it. -/
theorem marks_between_of_behind {l : List Stretch} (hl : l.Pairwise Behind)
    (ha : ∃ x ∈ l, x.Marks a) (hc : ∃ x ∈ l, x.Marks c) (hab : a ≤ b) (hbc : b ≤ c) :
    ∃ x ∈ l, x.Marks b := by
  obtain ⟨x, hx, ha⟩ := ha
  obtain ⟨y, hy, hc⟩ := hc
  by_cases hxy : x = y
  · subst hxy
    exact ⟨x, hx, marks_between ha hc hab hbc⟩
  · have hsymm : Std.Symm fun x y : Stretch => x.Behind y ∨ y.Behind x := ⟨fun _ _ => Or.symm⟩
    have hor : l.Pairwise fun x y => x.Behind y ∨ y.Behind x := hl.imp Or.inl
    rcases hor.forall hx hy hxy with h | h
    · exact absurd (hab.trans hbc) (h.not_le ha hc).1
    · exact absurd (hab.trans hbc) (h.not_le hc ha).2

end Stretch

end Koe
