/-
# `KoeOs.Phy.Split` — what `aligned_split` gives

With `w` the smallest order, the split works on units of `2 ^ w` bytes.  The block
becomes `S = size / 2 ^ w` units from its base rounded up, and the iterator at
unit `p` gives a piece of `2 ^ q` units, where

    2 ^ q divides p             the piece is aligned relative to the first one
    p + 2 ^ q ≤ S               it stays inside the units
    q = min (log2 S) _          if p = 0

and a piece of twice the size would break one of them, or the bound on the order.

`forEach_run` is the rule for a loop over the pieces: an invariant that each
piece takes from `p` to `p + 2 ^ q` holds at `S` in the end.  `pieces` collects
them: they tile the units from `p` on.

Both roundings count from the wrong place.  The end of the units is computed from
the base that was rounded up, so they may run past the end of the block; and a
piece is aligned relative to the first one, so it is aligned only if that one is.
-/
import KoeOs.Phy.Memblocks

namespace Koe

variable {σ : Type}

namespace AlignedSplit

/-- The iterator stands at unit `p` of the `S` units of `2 ^ w` bytes. -/
structure At (it : AlignedSplit) (w S p : ℕ) : Prop where
  size : it.memblock.size = 2 ^ w * S
  offset : it.offset = 2 ^ w * p
  order : w ≤ it.maxOrder
  fits : it.memblock.base.value + 2 ^ w * S < Usize.modulus

/-- A piece of `2 ^ q` units at unit `p`, as large as it can be. -/
structure Piece (S maxOrder p q : ℕ) : Prop where
  le : q ≤ maxOrder
  dvd : 2 ^ q ∣ p
  fits : p + 2 ^ q ≤ S
  first : p = 0 → q = min S.log2 maxOrder
  most : q = maxOrder ∨ ¬ 2 ^ (q + 1) ∣ p ∨ S < p + 2 ^ (q + 1)

variable {it : AlignedSplit} {w S p : ℕ}

theorem next_none (h : it.At w S S) (s : σ) : it.next.run s = .ok none s := by
  rw [next, if_pos (by rw [h.size, h.offset])]; rfl

theorem log2_two_pow_mul {n : ℕ} (w : ℕ) (hn : n ≠ 0) : (2 ^ w * n).log2 = w + n.log2 := by
  have hpos := Nat.two_pow_pos w
  obtain ⟨hle, hlt⟩ := (Nat.log2_eq_iff hn).mp rfl
  refine (Nat.log2_eq_iff (Nat.mul_ne_zero (by omega) hn)).mpr ⟨?_, ?_⟩
  · rw [Nat.pow_add]; exact Nat.mul_le_mul_left _ hle
  · rw [Nat.add_assoc, Nat.pow_add]; exact Nat.mul_lt_mul_of_pos_left hlt hpos

/-- The order `next` computes, in units. -/
theorem exists_piece {maxOrder : ℕ} (hp : p < S) (hw : w ≤ maxOrder)
    (hlt : 2 ^ w * S < Usize.modulus) :
    ∃ q, min (min (Usize.trailingZeros (2 ^ w * p)) (2 ^ w * (S - p)).log2) maxOrder = w + q ∧
      Piece S (maxOrder - w) p q := by
  have hpos := Nat.two_pow_pos w
  have hbits : w ≤ Usize.bits := by
    refine ((Nat.pow_lt_pow_iff_right (by decide : 1 < 2)).mp (Nat.lt_of_le_of_lt ?_ hlt)).le
    exact Nat.le_mul_of_pos_right _ (by omega)
  have htz : w ≤ Usize.trailingZeros (2 ^ w * p) :=
    Usize.le_trailingZeros hbits (Nat.dvd_mul_right _ _)
  have hlog := log2_two_pow_mul w (n := S - p) (by omega)
  generalize hk : min (min (Usize.trailingZeros (2 ^ w * p)) (2 ^ w * (S - p)).log2) maxOrder = k
  have hkw : k = w + (k - w) := by omega
  refine ⟨k - w, hkw, by omega, ?_, ?_, fun h0 => ?_, ?_⟩
  · have hdvd : 2 ^ (w + (k - w)) ∣ 2 ^ w * p :=
      (Nat.pow_dvd_pow 2 (by omega)).trans (Usize.trailingZeros_dvd _)
    rw [Nat.pow_add] at hdvd
    exact Nat.dvd_of_mul_dvd_mul_left hpos hdvd
  · have hle : 2 ^ (k - w) ≤ S - p := (Nat.le_log2 (by omega)).mp (by omega)
    omega
  · subst h0
    rw [Nat.mul_zero, Usize.trailingZeros_zero] at hk
    have hS : (2 ^ w * (S - 0)).log2 < Usize.bits :=
      (Nat.log2_lt (Nat.mul_ne_zero (by omega) (by omega))).mpr hlt
    rw [Nat.sub_zero] at hlog hk hS
    omega
  · by_contra hmore
    simp only [not_or, not_not, not_lt] at hmore
    obtain ⟨hmax, hdvd, hrest⟩ := hmore
    -- a piece of twice the size would have been possible
    have htwice : k - w + 1 ≤ (S - p).log2 := (Nat.le_log2 (by omega)).mpr (by omega)
    have hbits' : w + (k - w + 1) ≤ Usize.bits := by
      refine ((Nat.pow_lt_pow_iff_right (by decide : 1 < 2)).mp (Nat.lt_of_le_of_lt ?_ hlt)).le
      rw [Nat.pow_add]
      exact Nat.mul_le_mul_left _ (by omega)
    have hzeros : w + (k - w + 1) ≤ Usize.trailingZeros (2 ^ w * p) :=
      Usize.le_trailingZeros hbits' (by rw [Nat.pow_add]; exact Nat.mul_dvd_mul_left _ hdvd)
    omega

theorem next_some (h : it.At w S p) (hp : p < S) :
    ∃ q, Piece S (it.maxOrder - w) p q ∧
      At { it with offset := 2 ^ w * (p + 2 ^ q) } w S (p + 2 ^ q) ∧
      ∀ s : σ, it.next.run s = .ok (some (⟨⟨it.memblock.base.value + 2 ^ w * p⟩, 2 ^ (w + q),
        it.memblock.typ⟩, { it with offset := 2 ^ w * (p + 2 ^ q) })) s := by
  have hwpos := Nat.two_pow_pos w
  have hlt : 2 ^ w * p < 2 ^ w * S := Nat.mul_lt_mul_of_pos_left hp hwpos
  have hfits := h.fits
  have hdiff : it.memblock.size - it.offset = 2 ^ w * (S - p) := by
    rw [h.size, h.offset, Nat.mul_sub]
  have hdiff_ne : 2 ^ w * (S - p) ≠ 0 := Nat.mul_ne_zero (by omega) (by omega)
  have hdiff_lt : 2 ^ w * (S - p) < Usize.modulus := by
    rw [← hdiff, h.size]; omega
  obtain ⟨q, hq, hpiece⟩ := exists_piece (w := w) hp h.order (by omega)
  have hoff : 2 ^ w * p + 2 ^ (w + q) = 2 ^ w * (p + 2 ^ q) := by rw [Nat.pow_add, Nat.mul_add]
  have hoff_le : 2 ^ w * (p + 2 ^ q) ≤ 2 ^ w * S := Nat.mul_le_mul_left _ hpiece.fits
  refine ⟨q, hpiece, ⟨h.size, rfl, h.order, h.fits⟩, fun s => ?_⟩
  unfold next
  rw [if_neg (by rw [h.size, h.offset]; omega), hdiff, h.offset]
  simp only [Usize.bits_sub_leadingZeros hdiff_ne hdiff_lt, hq, Nat.one_shiftLeft]
  rw [Code.bind_ok (Addr.byteAdd_of_lt (Nat.zero_le _) (by omega) s),
    Code.bind_ok (Usize.add_of_lt (by omega) s), hoff]
  rfl

/-- The rule for a loop over the pieces. -/
theorem forEach_run {body : Memblock → Code σ Unit} {I : ℕ → σ → Prop} {block : Memblock}
    {maxOrder : ℕ}
    (hbody : ∀ p q s, p < S → Piece S (maxOrder - w) p q → I p s →
      ∃ t, (body ⟨⟨block.base.value + 2 ^ w * p⟩, 2 ^ (w + q), block.typ⟩).run s = .ok () t ∧
        I (p + 2 ^ q) t)
    (fuel : ℕ) : ∀ (p : ℕ) (s : σ) (it : AlignedSplit), it.At w S p → it.memblock = block →
      it.maxOrder = maxOrder → p ≤ S → S - p < fuel → I p s →
      ∃ t, (it.forEach body fuel).run s = .ok () t ∧ I S t := by
  induction fuel with
  | zero => intro p s it _ _ _ _ hfuel; omega
  | succ fuel ih =>
      intro p s it h hblock hmax hp hfuel hI
      rcases Nat.eq_or_lt_of_le hp with rfl | hlt
      · refine ⟨s, ?_, hI⟩
        rw [forEach, Code.bind_ok (next_none h s)]
        rfl
      · obtain ⟨q, hpiece, hat, hnext⟩ := next_some (σ := σ) h hlt
        rw [hblock, hmax] at *
        obtain ⟨t, hrun, hI'⟩ := hbody p q s hlt hpiece hI
        have hpos := Nat.two_pow_pos q
        obtain ⟨u, hu, hIS⟩ := ih _ t _ hat hblock hmax hpiece.fits (by omega) hI'
        refine ⟨u, ?_, hIS⟩
        rw [forEach, Code.bind_ok (hnext s), Code.bind_ok hrun]
        exact hu

end AlignedSplit

namespace Memblock

variable {m : Memblock} {w maxOrder : ℕ}

/-- The first address of the block, rounded up. -/
def ceil (m : Memblock) (w : ℕ) : ℕ := Usize.roundUp m.base.value (2 ^ w)

/-- The block can be trimmed to whole units: its base is not rounded up out of the space, and its
end does not become negative as an `isize`. -/
def Trims (m : Memblock) (w : ℕ) : Prop :=
  m.ceil w < uma.stop ∧ m.ceil w + 2 ^ w * (m.size / 2 ^ w) < 2 ^ 63

instance (m : Memblock) (w : ℕ) : Decidable (m.Trims w) := inferInstanceAs (Decidable (_ ∧ _))

/-- The whole units of the block, counted from the rounded base. -/
def trimmed (m : Memblock) (w : ℕ) : Memblock := ⟨⟨m.ceil w⟩, 2 ^ w * (m.size / 2 ^ w), m.typ⟩

theorem alignCeil_eq (m : Memblock) (w : ℕ) :
    m.base.alignCeil (2 ^ w) = if m.ceil w < uma.stop then some ⟨m.ceil w⟩ else none := by
  have hiff : (Usize.roundUp m.base.value (2 ^ w) < Usize.modulus ∧
      Usize.roundUp m.base.value (2 ^ w) < uma.stop) ↔ m.ceil w < uma.stop :=
    ⟨And.right, fun h => ⟨Nat.lt_trans h uma.stop_lt, h⟩⟩
  simp only [Addr.alignCeil, hiff]
  rfl

/-- The end that is rounded down. -/
theorem alignFloor_stop (m : Memblock) (w : ℕ) :
    (⟨m.ceil w + m.size⟩ : Addr uma).alignFloor (2 ^ w)
      = some ⟨m.ceil w + 2 ^ w * (m.size / 2 ^ w)⟩ := by
  obtain ⟨k, hk⟩ := Usize.dvd_roundUp (a := m.base.value) (Nat.two_pow_pos w)
  have hdiv := Nat.div_add_mod m.size (2 ^ w)
  have hfloor : m.ceil w + m.size - (m.ceil w + m.size) % 2 ^ w
      = m.ceil w + 2 ^ w * (m.size / 2 ^ w) := by
    rw [ceil, hk, Nat.mul_add_mod]
    omega
  rw [← hfloor]
  exact Addr.alignFloor_uma _ _

theorem alignedSplit_run (hw : w < 64) (h : m.Trims w) (s : σ) :
    (m.alignedSplit w maxOrder).run s = .ok ⟨m.trimmed w, 0, maxOrder⟩ s := by
  have hpow : 2 ^ w ≤ 2 ^ 63 := Nat.pow_le_pow_right (by decide) (by omega)
  have hmod : Usize.modulus = 2 ^ 64 := rfl
  have hlt := Nat.mod_lt m.size (Nat.two_pow_pos w)
  have hdiv := Nat.div_add_mod m.size (2 ^ w)
  obtain ⟨hceil, hend⟩ := h
  have hadd := Addr.byteAdd_of_lt (S := uma) (a := ⟨m.ceil w⟩) (x := m.size) (Nat.zero_le _)
    (by simp only; omega) s
  have hsub := Addr.addrSub_of_le (S := uma) (a := ⟨m.ceil w + 2 ^ w * (m.size / 2 ^ w)⟩)
    (b := ⟨m.ceil w⟩) (Nat.le_add_right _ _) hend s
  simp only [Nat.add_sub_cancel_left] at hsub
  rw [alignedSplit, Nat.one_shiftLeft, alignCeil_eq, if_pos hceil]
  simp only
  rw [Code.bind_ok hadd, alignFloor_stop]
  simp only
  rw [Code.bind_ok hsub, Isize.tryToUsize_natCast]
  rfl

/-- A block whose base is rounded up out of the space has no piece. -/
theorem alignedSplit_empty (hceil : ¬ m.ceil w < uma.stop) (s : σ) :
    (m.alignedSplit w maxOrder).run s = .ok ⟨m, m.size, maxOrder⟩ s := by
  rw [alignedSplit, Nat.one_shiftLeft, alignCeil_eq, if_neg hceil]
  rfl

/-- What `aligned_split` returns, if it returns: the whole units, or nothing. -/
theorem alignedSplit_eq_ok (hw : w < 64) {it : AlignedSplit} {s t : σ}
    (h : (m.alignedSplit w maxOrder).run s = .ok it t) :
    s = t ∧ ((m.Trims w ∧ it = ⟨m.trimmed w, 0, maxOrder⟩) ∨
      (¬ m.Trims w ∧ it.offset = it.memblock.size)) := by
  by_cases htrim : m.Trims w
  · cases (alignedSplit_run hw htrim s).symm.trans h
    exact ⟨rfl, .inl ⟨htrim, rfl⟩⟩
  by_cases hceil : m.ceil w < uma.stop
  · have hend : ¬ m.ceil w + 2 ^ w * (m.size / 2 ^ w) < 2 ^ 63 := fun hend => htrim ⟨hceil, hend⟩
    rw [alignedSplit, Nat.one_shiftLeft, alignCeil_eq, if_pos hceil] at h
    simp only at h
    obtain ⟨stop, _, hadd, h⟩ := Code.bind_eq_ok.mp h
    obtain ⟨hlt, hval, rfl⟩ := Addr.byteAdd_eq_ok hadd
    obtain rfl : stop = ⟨m.ceil w + m.size⟩ := Addr.ext hval
    rw [alignFloor_stop] at h
    simp only at h
    obtain ⟨d, _, hsub, h⟩ := Code.bind_eq_ok.mp h
    obtain ⟨rfl, rfl⟩ := Isize.sub_eq_ok hsub
    -- the end is negative as an `isize`, and the base is not
    have hstop : uma.stop = 2 ^ 46 := rfl
    have hmod : Usize.modulus = 2 ^ 64 := rfl
    have hle : 2 ^ w * (m.size / 2 ^ w) ≤ m.size := Nat.mul_div_le _ _
    have hneg : ¬ 0 ≤ Isize.ofUsize (m.ceil w + 2 ^ w * (m.size / 2 ^ w))
        - Isize.ofUsize (m.ceil w) := by
      rw [Isize.ofUsize_of_lt (a := m.ceil w) (by omega), Isize.ofUsize, if_neg hend]
      simp only at hlt
      omega
    rw [Isize.tryToUsize, if_neg hneg] at h
    cases h
    exact ⟨rfl, .inr ⟨htrim, rfl⟩⟩
  · cases (alignedSplit_empty hceil s).symm.trans h
    exact ⟨rfl, .inr ⟨htrim, rfl⟩⟩

theorem Trims.at_zero (h : m.Trims w) (hmax : w ≤ maxOrder) :
    AlignedSplit.At ⟨m.trimmed w, 0, maxOrder⟩ w (m.size / 2 ^ w) 0 :=
  ⟨rfl, (Nat.mul_zero _).symm, hmax, Nat.lt_trans h.2 (by decide)⟩

/-- A block of the space can be trimmed, unless its base is rounded up out of it. -/
theorem trims_of_fits (hfit : m.base.value + m.size ≤ uma.stop) (hceil : m.ceil w < uma.stop) :
    m.Trims w := by
  have hstop : uma.stop = 2 ^ 46 := rfl
  have hle : 2 ^ w * (m.size / 2 ^ w) ≤ m.size := Nat.mul_div_le _ _
  exact ⟨hceil, by omega⟩

/-- The rule for a loop over the pieces of a block. -/
theorem forEach_alignedSplit {body : Memblock → Code σ Unit} {I : ℕ → σ → Prop} {s : σ}
    (hfit : m.base.value + m.size ≤ uma.stop) (hw : 2 ^ w ∣ uma.stop) (hmax : w ≤ maxOrder)
    (h0 : I 0 s)
    (hbody : ∀ p q s, p < m.size / 2 ^ w →
      AlignedSplit.Piece (m.size / 2 ^ w) (maxOrder - w) p q → I p s →
      ∃ t, (body ⟨⟨Usize.roundUp m.base.value (2 ^ w) + 2 ^ w * p⟩, 2 ^ (w + q), m.typ⟩).run s
        = .ok () t ∧ I (p + 2 ^ q) t) :
    ∃ t, (do
      let it ← m.alignedSplit w maxOrder
      it.forEach body (it.memblock.size + 1)).run s = .ok () t ∧ I (m.size / 2 ^ w) t := by
  have hpos := Nat.two_pow_pos w
  have hlt := Usize.roundUp_lt (a := m.base.value) hpos
  by_cases hceil : m.ceil w < uma.stop
  · have hle : 2 ^ w ≤ 2 ^ 46 := Nat.le_of_dvd (by decide) hw
    have hw64 : w < 64 := by
      have := (Nat.pow_le_pow_iff_right (by decide : 1 < 2)).mp hle
      omega
    have htrim := trims_of_fits hfit hceil
    have hge := Nat.le_mul_of_pos_left (m.size / 2 ^ w) hpos
    rw [Code.bind_ok (alignedSplit_run hw64 htrim s)]
    exact AlignedSplit.forEach_run hbody _ 0 s _ (htrim.at_zero hmax) rfl rfl (Nat.zero_le _)
      (by simp only [trimmed]; omega) h0
  · -- only the last bytes of the space round up out of it
    have hzero : m.size / 2 ^ w = 0 := by
      obtain ⟨k, hk⟩ := hw
      obtain ⟨c, hc⟩ := Usize.dvd_roundUp (a := m.base.value) hpos
      rw [ceil] at hceil
      have hck : 2 ^ w * k ≤ 2 ^ w * c := by omega
      refine Nat.div_eq_of_lt ?_
      omega
    rw [hzero, Code.bind_ok (alignedSplit_empty hceil s)]
    refine ⟨s, ?_, h0⟩
    rw [AlignedSplit.forEach, AlignedSplit.next, if_pos (Nat.le_refl _)]
    rfl

end Memblock

/-! ## The pieces of a block -/

namespace AlignedSplit

variable {it : AlignedSplit} {w S p : ℕ}

/-- What the iterator gives until it ends. -/
def pieces : ℕ → AlignedSplit → Code σ (List Memblock)
  | 0, _ => throw .outOfFuel
  | fuel + 1, it => do
      match ← it.next with
      | none => return []
      | some (piece, it) => return piece :: (← pieces fuel it)

/-- The piece of `2 ^ q` units at unit `p`. -/
def pieceAt (it : AlignedSplit) (w p q : ℕ) : Memblock :=
  ⟨⟨it.memblock.base.value + 2 ^ w * p⟩, 2 ^ (w + q), it.memblock.typ⟩

theorem pieceAt_stop (it : AlignedSplit) (w p q : ℕ) :
    (it.pieceAt w p q).stop = it.memblock.base.value + 2 ^ w * (p + 2 ^ q) := by
  simp only [Memblock.stop, pieceAt, Nat.pow_add, Nat.mul_add, Nat.add_assoc]

/-- The pieces from unit `p` on: they go to the end, and each is the piece of a unit. -/
structure Yields (it : AlignedSplit) (w S p : ℕ) (ps : List Memblock) : Prop where
  tiles : Spans.Tiles (fun b => b.base.value) Memblock.stop (it.memblock.base.value + 2 ^ w * p)
    (it.memblock.base.value + 2 ^ w * S) ps
  each : ∀ b ∈ ps, ∃ p' q, Piece S (it.maxOrder - w) p' q ∧ b = it.pieceAt w p' q
  first : p < S → ∃ q, Piece S (it.maxOrder - w) p q ∧ it.pieceAt w p q ∈ ps

/-- An iterator that has nothing to give. -/
theorem pieces_of_le (h : it.memblock.size ≤ it.offset) (fuel : ℕ) (s : σ) :
    (it.pieces (fuel + 1)).run s = .ok [] s := by
  rw [pieces, next, if_pos h]
  rfl

/-- The iterator ends after at most as many pieces as there are units left. -/
theorem pieces_run (n : ℕ) : ∀ (p : ℕ) (it : AlignedSplit), it.At w S p → p ≤ S → S - p ≤ n →
    ∃ ps, it.Yields w S p ps ∧ ∀ fuel, n < fuel → ∀ s : σ, (it.pieces fuel).run s = .ok ps s := by
  have hend : ∀ it : AlignedSplit, it.At w S S → ∃ ps, it.Yields w S S ps ∧
      ∀ fuel, 0 < fuel → ∀ s : σ, (it.pieces fuel).run s = .ok ps s := by
    intro it h
    refine ⟨[], ⟨.nil, by simp, fun hlt => absurd hlt (Nat.lt_irrefl _)⟩, fun fuel hfuel s => ?_⟩
    obtain ⟨fuel, rfl⟩ := Nat.exists_eq_add_one.mpr hfuel
    exact pieces_of_le (by rw [h.size, h.offset]) fuel s
  induction n with
  | zero =>
      intro p it h hp hn
      obtain rfl : p = S := by omega
      exact hend it h
  | succ n ih =>
      intro p it h hp hn
      rcases Nat.eq_or_lt_of_le hp with rfl | hlt
      · obtain ⟨ps, hyields, hrun⟩ := hend it h
        exact ⟨ps, hyields, fun fuel hfuel => hrun fuel (by omega)⟩
      obtain ⟨q, hpiece, hat, hnext⟩ := next_some (σ := σ) h hlt
      have hpos := Nat.two_pow_pos q
      obtain ⟨ps, hyields, hrun⟩ := ih _ _ hat hpiece.fits (by omega)
      refine ⟨it.pieceAt w p q :: ps, ⟨?_, ?_, ?_⟩, fun fuel hfuel s => ?_⟩
      · refine .cons (i := it.pieceAt w p q) (Nat.lt_add_of_pos_right (Nat.two_pow_pos _)) ?_
        rw [pieceAt_stop]
        exact hyields.tiles
      · exact List.forall_mem_cons.mpr ⟨⟨p, q, hpiece, rfl⟩, hyields.each⟩
      · exact fun _ => ⟨q, hpiece, List.mem_cons_self⟩
      · obtain ⟨fuel, rfl⟩ := Nat.exists_eq_add_one.mpr (Nat.lt_of_le_of_lt (Nat.zero_le _) hfuel)
        rw [pieces, Code.bind_ok (hnext s)]
        simp only
        rw [Code.bind_ok (hrun fuel (by omega) s)]
        rfl

end AlignedSplit

namespace Memblock

variable {m : Memblock} {w maxOrder : ℕ}

/-- The pieces `aligned_split` makes of a block. -/
def pieces (m : Memblock) (minOrder maxOrder : ℕ) : Code σ (List Memblock) := do
  let it ← m.alignedSplit minOrder maxOrder
  it.pieces (it.memblock.size + 1)

/-- There is at least one piece. -/
def HasPieces (m : Memblock) (w : ℕ) : Prop := m.Trims w ∧ 2 ^ w ≤ m.size

theorem HasPieces.units_pos (h : m.HasPieces w) : 0 < m.size / 2 ^ w :=
  Nat.div_pos h.2 (Nat.two_pow_pos w)

/-- The order of the units, and the order of their number. -/
theorem log2_div_two_pow (h : 2 ^ w ≤ m.size) : w + (m.size / 2 ^ w).log2 = m.size.log2 := by
  have hpos := Nat.two_pow_pos w
  have hunits : m.size / 2 ^ w ≠ 0 := (Nat.div_pos h hpos).ne'
  obtain ⟨hle, hlt⟩ := (Nat.log2_eq_iff hunits).mp rfl
  refine ((Nat.log2_eq_iff (by omega)).mpr ⟨?_, ?_⟩).symm
  · rw [Nat.pow_add, Nat.mul_comm]
    exact (Nat.le_div_iff_mul_le hpos).mp hle
  · rw [Nat.add_assoc, Nat.pow_add, Nat.mul_comm]
    exact (Nat.div_lt_iff_lt_mul hpos).mp hlt

/-- The iterator over the trimmed block ends, and its pieces go through the block. -/
theorem Trims.pieces_run (h : m.Trims w) (hmax : w ≤ maxOrder) :
    ∃ ps, AlignedSplit.Yields ⟨m.trimmed w, 0, maxOrder⟩ w (m.size / 2 ^ w) 0 ps ∧
      ∀ fuel, (m.trimmed w).size < fuel → ∀ s : σ,
        ((⟨m.trimmed w, 0, maxOrder⟩ : AlignedSplit).pieces fuel).run s = .ok ps s := by
  obtain ⟨ps, hyields, hrun⟩ := AlignedSplit.pieces_run (σ := σ) _ 0 _ (h.at_zero hmax)
    (Nat.zero_le _) (Nat.le_refl _)
  refine ⟨ps, hyields, fun fuel hfuel => hrun fuel (Nat.lt_of_le_of_lt ?_ hfuel)⟩
  exact Nat.le_mul_of_pos_left _ (Nat.two_pow_pos w)

theorem pieces_run (hw : w ≤ maxOrder) (hmax : maxOrder < 64)
    (hfit : m.base.value + m.size ≤ uma.stop) (s : σ) :
    ∃ ps, (m.pieces w maxOrder).run s = .ok ps s := by
  by_cases hceil : m.ceil w < uma.stop
  · have htrim := trims_of_fits hfit hceil
    obtain ⟨ps, _, hrun⟩ := htrim.pieces_run (σ := σ) hw
    refine ⟨ps, ?_⟩
    rw [pieces, Code.bind_ok (alignedSplit_run (by omega) htrim s)]
    exact hrun _ (Nat.lt_succ_self _) s
  · refine ⟨[], ?_⟩
    rw [pieces, Code.bind_ok (alignedSplit_empty hceil s)]
    exact AlignedSplit.pieces_of_le (Nat.le_refl _) _ s

theorem Trims.hasPieces_of_mem (h : m.Trims w) {ps : List Memblock} {b : Memblock}
    (hyields : AlignedSplit.Yields ⟨m.trimmed w, 0, maxOrder⟩ w (m.size / 2 ^ w) 0 ps)
    (hb : b ∈ ps) : m.HasPieces w := by
  obtain ⟨p, q, hpiece, -⟩ := hyields.each b hb
  have hpos := Nat.two_pow_pos q
  have hfits := hpiece.fits
  exact ⟨h, (Nat.div_pos_iff.mp (by omega : 0 < m.size / 2 ^ w)).2⟩

/-- What the pieces are, if the split returns. -/
theorem pieces_eq_ok (hw : w ≤ maxOrder) (hmax : maxOrder < 64) {ps : List Memblock} {s t : σ}
    (h : (m.pieces w maxOrder).run s = .ok ps t) :
    (m.Trims w ∧ AlignedSplit.Yields ⟨m.trimmed w, 0, maxOrder⟩ w (m.size / 2 ^ w) 0 ps) ∨
      (¬ m.Trims w ∧ ps = []) := by
  obtain ⟨it, _, hsplit, h⟩ := Code.bind_eq_ok.mp h
  obtain ⟨rfl, ⟨htrim, rfl⟩ | ⟨htrim, hoff⟩⟩ := alignedSplit_eq_ok (by omega) hsplit
  · obtain ⟨ps', hyields, hrun⟩ := htrim.pieces_run (σ := σ) hw
    cases (hrun _ (Nat.lt_succ_self _) s).symm.trans h
    exact .inl ⟨htrim, hyields⟩
  · cases (AlignedSplit.pieces_of_le hoff.ge _ s).symm.trans h
    exact .inr ⟨htrim, rfl⟩

/-- The iterator `aligned_split` returns ends, and its pieces go through what is left of the block
after the trimming, one after the other. -/
theorem pieces_tile (m : Memblock) (hw : w ≤ maxOrder) (hmax : maxOrder < 64) (s : σ) :
    (m.base.value + m.size ≤ uma.stop → ∃ it, (m.alignedSplit w maxOrder).run s = .ok it s) ∧
    ∀ it t, (m.alignedSplit w maxOrder).run s = .ok it t →
      ∃ ps, (∀ fuel, it.memblock.size < fuel → (it.pieces fuel).run t = .ok ps t) ∧
        Spans.Tiles (fun b => b.base.value) Memblock.stop (it.memblock.base.value + it.offset)
          (it.memblock.base.value + it.memblock.size) ps ∧
        ∀ b ∈ ps, ∃ k, w ≤ k ∧ k ≤ maxOrder ∧ b.size = 2 ^ k := by
  refine ⟨fun hfit => ?_, fun it t hsplit => ?_⟩
  · by_cases hceil : m.ceil w < uma.stop
    · exact ⟨_, alignedSplit_run (by omega) (trims_of_fits hfit hceil) s⟩
    · exact ⟨_, alignedSplit_empty hceil s⟩
  obtain ⟨rfl, ⟨htrim, rfl⟩ | ⟨_, hoff⟩⟩ := alignedSplit_eq_ok (by omega) hsplit
  · obtain ⟨ps, hyields, hrun⟩ := htrim.pieces_run (σ := σ) hw
    refine ⟨ps, fun fuel hfuel => hrun fuel hfuel s, hyields.tiles, fun b hb => ?_⟩
    obtain ⟨_, q, hpiece, rfl⟩ := hyields.each b hb
    have hle : q ≤ maxOrder - w := hpiece.le
    exact ⟨w + q, by omega, by omega, rfl⟩
  · refine ⟨[], fun fuel hfuel => ?_, ?_, by simp⟩
    · obtain ⟨fuel, rfl⟩ : ∃ n, fuel = n + 1 := ⟨fuel - 1, by omega⟩
      exact AlignedSplit.pieces_of_le hoff.ge _ s
    · rw [hoff]
      exact .nil

theorem pieces_tile_eightPages :
    ∃ ps, ((⟨⟨0x800⟩, 0x8000, .free⟩ : Memblock).pieces 12 30).run () = .ok ps () ∧
      Spans.Tiles (fun b => b.base.value) Memblock.stop 0x1000 0x9000 ps := by
  obtain ⟨ps, hrun, htiles, -⟩ := (pieces_tile (σ := Unit) ⟨⟨0x800⟩, 0x8000, .free⟩
    (by decide : 12 ≤ 30) (by decide) ()).2 _ _
    (alignedSplit_run (by decide) (by decide) ())
  exact ⟨ps, hrun _ (by decide), htiles⟩

/-- The pieces stay inside the block exactly if what the base is rounded up by is at most what the
size is rounded down by. -/
theorem pieces_inside_iff (m : Memblock) (hw : w ≤ maxOrder) (hmax : maxOrder < 64) (s : σ) :
    (m.base.value + m.size ≤ uma.stop → ∃ ps, (m.pieces w maxOrder).run s = .ok ps s) ∧
    ∀ ps t, (m.pieces w maxOrder).run s = .ok ps t →
      ((∀ b ∈ ps, m.base.value ≤ b.base.value ∧ b.stop ≤ m.stop) ↔
        (m.HasPieces w → m.ceil w - m.base.value ≤ m.size % 2 ^ w)) := by
  refine ⟨fun hfit => pieces_run hw hmax hfit s, fun ps t h => ?_⟩
  rcases pieces_eq_ok hw hmax h with ⟨htrim, hyields⟩ | ⟨htrim, rfl⟩
  · have htiles := hyields.tiles
    have hdiv := Nat.div_add_mod m.size (2 ^ w)
    have hge : m.base.value ≤ m.ceil w := Usize.le_roundUp _ _
    simp only [trimmed, Nat.mul_zero, Nat.add_zero] at htiles
    have hstop : m.stop = m.base.value + m.size := rfl
    constructor
    · intro hinside hpieces
      obtain ⟨b, hb, hend⟩ := htiles.exists_hi_eq
        (Nat.lt_add_of_pos_right (Nat.mul_pos (Nat.two_pow_pos w) hpieces.units_pos))
      have := (hinside b hb).2
      omega
    · intro hround b hb
      obtain ⟨hlo, hhi⟩ := htiles.mem hb
      have := hround (htrim.hasPieces_of_mem hyields hb)
      omega
  · exact ⟨fun _ hpieces => absurd hpieces.1 htrim, fun _ b hb => absurd hb List.not_mem_nil⟩

/-- A block that starts at a page stays inside, whatever its size. -/
theorem pieces_inside_aligned :
    ∃ ps, ((⟨⟨0x1000⟩, 0x4800, .free⟩ : Memblock).pieces 12 30).run () = .ok ps () ∧
      ∀ b ∈ ps, 0x1000 ≤ b.base.value ∧ b.stop ≤ 0x5800 := by
  obtain ⟨hret, hiff⟩ := pieces_inside_iff ⟨⟨0x1000⟩, 0x4800, .free⟩ (by decide : 12 ≤ 30)
    (by decide) ()
  obtain ⟨ps, hrun⟩ := hret (by decide)
  exact ⟨ps, hrun, (hiff ps () hrun).mpr fun _ => by decide⟩

/-- A page that starts at byte 1: the one piece is the next page. -/
theorem pieces_outside_unaligned :
    ((⟨⟨1⟩, 0x1000, .free⟩ : Memblock).pieces 12 30).run ()
        = .ok [⟨⟨0x1000⟩, 0x1000, .free⟩] () ∧
      ¬ (⟨⟨0x1000⟩, 0x1000, .free⟩ : Memblock).stop ≤ (⟨⟨1⟩, 0x1000, .free⟩ : Memblock).stop := by
  decide

/-- Every piece is aligned to its size exactly if the first one is. -/
theorem pieces_aligned_iff (m : Memblock) (hw : w ≤ maxOrder) (hmax : maxOrder < 64) (s : σ) :
    (m.base.value + m.size ≤ uma.stop → ∃ ps, (m.pieces w maxOrder).run s = .ok ps s) ∧
    ∀ ps t, (m.pieces w maxOrder).run s = .ok ps t →
      ((∀ b ∈ ps, b.size ∣ b.base.value) ↔
        (m.HasPieces w → 2 ^ min m.size.log2 maxOrder ∣ m.ceil w)) := by
  refine ⟨fun hfit => pieces_run hw hmax hfit s, fun ps t h => ?_⟩
  rcases pieces_eq_ok hw hmax h with ⟨htrim, hyields⟩ | ⟨htrim, rfl⟩
  · constructor
    · intro haligned hpieces
      obtain ⟨q, hpiece, hb⟩ := hyields.first hpieces.units_pos
      have hq : q = min (m.size / 2 ^ w).log2 (maxOrder - w) := hpiece.first rfl
      have hlog := log2_div_two_pow hpieces.2
      have hdvd := haligned _ hb
      rw [AlignedSplit.pieceAt, Nat.mul_zero, Nat.add_zero] at hdvd
      rwa [show min m.size.log2 maxOrder = w + q by omega]
    · intro hfirst b hb
      have hpieces := htrim.hasPieces_of_mem hyields hb
      obtain ⟨p, q, hpiece, rfl⟩ := hyields.each b hb
      have hlog := log2_div_two_pow hpieces.2
      have hle : q ≤ maxOrder - w := hpiece.le
      have hq : q ≤ (m.size / 2 ^ w).log2 :=
        (Nat.le_log2 hpieces.units_pos.ne').mpr (Nat.le_trans (Nat.le_add_left _ _) hpiece.fits)
      refine Nat.dvd_add ((Nat.pow_dvd_pow 2 ?_).trans (hfirst hpieces)) ?_
      · omega
      · rw [AlignedSplit.pieceAt, Nat.pow_add]
        exact Nat.mul_dvd_mul_left _ hpiece.dvd
  · exact ⟨fun _ hpieces => absurd hpieces.1 htrim, fun _ b hb => absurd hb List.not_mem_nil⟩

theorem pieces_aligned_fourPages :
    ∃ ps, ((⟨⟨0x4000⟩, 0x4000, .free⟩ : Memblock).pieces 12 30).run () = .ok ps () ∧
      ∀ b ∈ ps, b.size ∣ b.base.value := by
  obtain ⟨hret, hiff⟩ := pieces_aligned_iff ⟨⟨0x4000⟩, 0x4000, .free⟩ (by decide : 12 ≤ 30)
    (by decide) ()
  obtain ⟨ps, hrun⟩ := hret (by decide)
  exact ⟨ps, hrun, (hiff ps () hrun).mpr fun _ => by decide⟩

/-- Two pages from page 1 on: one piece of two pages, not aligned to its size. -/
theorem pieces_misaligned_twoPages :
    ((⟨⟨0x1000⟩, 0x2000, .free⟩ : Memblock).pieces 12 30).run ()
        = .ok [⟨⟨0x1000⟩, 0x2000, .free⟩] () ∧
      ¬ (⟨⟨0x1000⟩, 0x2000, .free⟩ : Memblock).size
        ∣ (⟨⟨0x1000⟩, 0x2000, .free⟩ : Memblock).base.value := by
  decide

end Memblock

end Koe
