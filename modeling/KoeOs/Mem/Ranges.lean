/-
# `KoeOs.Mem.Ranges` — what the arithmetic of `src/mem/addr.rs` computes

A range is read as a set of addresses and a range of pages as the set of the first
addresses of its pages.  The functions are then compared with what each is for:

    fit                 the smallest page that holds the layout
    range_sub           the difference of two sets
    contained_pages     the aligned pages inside a range
    overlapped_pages    the aligned pages that meet a range
    checked_page_add    the sum over the integers, where it lies in the space
    checked_page_sub    the difference

They all go through machine arithmetic.  Each theorem says on exactly which
arguments that is harmless.
-/
import KoeOs.Mem.Addr
import Mathlib.Order.Interval.Set.LinearOrder

namespace Koe

/-! ## The page that fits a layout -/

namespace PageSize

theorem forall_iff {P : PageSize → Prop} : (∀ p, P p) ↔ P small ∧ P large ∧ P huge := by
  constructor
  · intro h
    exact ⟨h small, h large, h huge⟩
  · rintro ⟨hs, hl, hh⟩ p
    cases p with
    | small => exact hs
    | large => exact hl
    | huge => exact hh

/-- `p` is the smallest page of at least `size` bytes. -/
def Smallest (size : ℕ) (p : PageSize) : Prop :=
  size ≤ p.usize ∧ ∀ q : PageSize, size ≤ q.usize → p.usize ≤ q.usize

/-- What `fit` is for: the smallest page that holds the padded layout, if there is one. -/
def FitExact (layout : Layout) : Prop :=
  (∀ p, fit layout = some p ↔ Smallest layout.padToAlign.size p) ∧
    (fit layout = none ↔ huge.usize < layout.padToAlign.size)

/-- `fit` compares numbers of bits, so it asks for a page that is strictly larger. -/
theorem fit_eq (layout : Layout) :
    fit layout = variants.find? fun p => layout.padToAlign.size < p.usize := by
  have hlt : layout.padToAlign.size < Usize.modulus :=
    Nat.lt_of_le_of_lt layout.size_le (by decide)
  rw [fit]
  congr 1
  funext p
  rw [usize_eq, decide_eq_decide]
  exact Usize.bits_sub_leadingZeros_le hlt

/-- Being one off at the boundary is the only thing wrong with `fit`. -/
theorem fit_exact_iff (layout : Layout) :
    FitExact layout ↔ ∀ p : PageSize, layout.padToAlign.size ≠ p.usize := by
  have hs : small.usize = 4096 := rfl
  have hl : large.usize = 2097152 := rfl
  have hh : huge.usize = 1073741824 := rfl
  rw [FitExact, fit_eq]
  generalize layout.padToAlign.size = size
  simp only [forall_iff, Smallest, variants, List.find?_cons, List.find?_nil, hs, hl, hh]
  by_cases h₁ : size < 4096
  · simp [h₁]; omega
  by_cases h₂ : size < 2097152
  · simp [h₁, h₂]; omega
  by_cases h₃ : size < 1073741824
  · simp [h₁, h₂, h₃]; omega
  · simp [h₁, h₂, h₃]; omega

/-- A page does not fit into a page of its own size. -/
theorem fit_own_layout : fit small.layout = some large ∧ ¬ FitExact small.layout :=
  ⟨by decide, fun h => absurd ((h.1 large).mp (by decide)).2 fun hall =>
    absurd (hall small (by decide)) (by decide)⟩

end PageSize

/-! ## Subtraction of ranges -/

namespace AddrRange

variable {S : AddrSpace} {σ : Type}

/-- The addresses of the range. -/
def addrs (r : AddrRange S) : Set ℕ := Set.Ico r.base.value (r.base.value + r.size)

/-- The range lies inside the space. -/
def Within (r : AddrRange S) : Prop := S.start ≤ r.base.value ∧ r.base.value + r.size ≤ S.stop

instance (r : AddrRange S) : Decidable r.Within := inferInstanceAs (Decidable (_ ∧ _))

@[simp] theorem mem_addrs {r : AddrRange S} {x : ℕ} :
    x ∈ r.addrs ↔ r.base.value ≤ x ∧ x < r.base.value + r.size := Iff.rfl

/-- `lo` and `hi` are two parts of `r` that make up what `rhs` leaves of it. -/
structure IsDiff (r rhs lo hi : AddrRange S) : Prop where
  disjoint : ∀ x ∈ lo.addrs, x ∉ hi.addrs
  lo_subset : lo.addrs ⊆ r.addrs
  hi_subset : hi.addrs ⊆ r.addrs
  union : lo.addrs ∪ hi.addrs = r.addrs \ rhs.addrs

/-- What `range_sub` is for. -/
def SubExact (r rhs : AddrRange S) (s : σ) : Prop :=
  ∃ lo hi, (r.rangeSub rhs).run s = .ok (lo, hi) s ∧ IsDiff r rhs lo hi

/-- The differences that `range_sub` takes, of two bases and of two sizes, are what they are
over the integers: no size is cast to a negative number that the other is not cast to as well, and
no difference overflows. -/
def SignedSafe (r rhs : AddrRange S) : Prop :=
  (r.size < 2 ^ 63 ↔ rhs.size < 2 ^ 63) ∧
  Isize.Fits (Isize.ofUsize rhs.base.value - Isize.ofUsize r.base.value) ∧
  Isize.Fits (Isize.ofUsize r.base.value - Isize.ofUsize rhs.base.value) ∧
  Isize.Fits (Isize.ofUsize r.base.value - Isize.ofUsize rhs.base.value +
    ((r.size : ℤ) - rhs.size))

theorem isDiff_iff {r rhs lo hi : AddrRange S} :
    IsDiff r rhs lo hi ↔ ∀ x, ¬ (x ∈ lo.addrs ∧ x ∈ hi.addrs) ∧
      (x ∈ lo.addrs ∨ x ∈ hi.addrs ↔ x ∈ r.addrs ∧ x ∉ rhs.addrs) := by
  constructor
  · intro h x
    refine ⟨fun hx => h.disjoint x hx.1 hx.2, ?_⟩
    exact Set.ext_iff.mp h.union x
  · intro h
    refine ⟨fun x hlo hhi => (h x).1 ⟨hlo, hhi⟩, ?_, ?_, ?_⟩
    · intro x hx
      exact ((h x).2.mp (.inl hx)).1
    · intro x hx
      exact ((h x).2.mp (.inr hx)).1
    · ext x
      exact (h x).2

theorem empty_run (h : S.start < S.stop) (s : σ) :
    (empty : Code σ (AddrRange S)).run s = .ok ⟨⟨S.start⟩, 0⟩ s := by
  rw [empty, Code.bind_ok (Addr.new_of_mem ⟨Nat.le_refl _, h⟩ s)]; rfl

theorem empty_eq_ok {r : AddrRange S} {s s' : σ}
    (h : (empty : Code σ (AddrRange S)).run s = .ok r s') : S.start < S.stop := by
  obtain ⟨a, _, hnew, -⟩ := Code.bind_eq_ok.mp h
  exact (Addr.new_eq_ok hnew).2.2.1

theorem new_run {base : Addr S} {size : ℕ} (h : base.value + size ≤ S.stop) (s : σ) :
    (new base size).run s = .ok ⟨base, size⟩ s := by
  have hlt := S.stop_lt
  rw [new, Code.bind_ok (Usize.add_of_lt (by omega) s),
    Code.bind_ok (Code.assert_of (decide_eq_true h) _ s)]
  rfl

/-- The sizes that `range_sub` computes for what is left below and above `rhs`. -/
def lowSize (r rhs : AddrRange S) : ℕ :=
  Min.min (Isize.ofUsize rhs.base.value - Isize.ofUsize r.base.value).toNat r.size

@[inherit_doc lowSize] def hiSize (r rhs : AddrRange S) : ℕ :=
  Min.min (Isize.ofUsize r.base.value - Isize.ofUsize rhs.base.value +
    (Isize.ofUsize r.size - Isize.ofUsize rhs.size)).toNat r.size

/-- None of the four signed operations of `range_sub` overflows. -/
def NoOverflow (r rhs : AddrRange S) : Prop :=
  Isize.Fits (Isize.ofUsize rhs.base.value - Isize.ofUsize r.base.value) ∧
  Isize.Fits (Isize.ofUsize r.base.value - Isize.ofUsize rhs.base.value) ∧
  Isize.Fits (Isize.ofUsize r.size - Isize.ofUsize rhs.size) ∧
  Isize.Fits (Isize.ofUsize r.base.value - Isize.ofUsize rhs.base.value +
    (Isize.ofUsize r.size - Isize.ofUsize rhs.size))

theorem rangeSub_run {r rhs : AddrRange S} (hr : r.Within) (h₁ : r.size ≠ 0) (h₂ : rhs.size ≠ 0)
    (h : NoOverflow r rhs) (s : σ) :
    (r.rangeSub rhs).run s = .ok (⟨r.base, lowSize r rhs⟩,
      ⟨⟨r.base.value + (r.size - hiSize r rhs)⟩, hiSize r rhs⟩) s := by
  obtain ⟨hd, hd', hsize, hsum⟩ := h
  have hlt := S.stop_lt
  have hlow : lowSize r rhs ≤ r.size := Nat.min_le_right _ _
  have hhi : hiSize r rhs ≤ r.size := Nat.min_le_right _ _
  have hle := hr.2
  rw [rangeSub, if_neg h₁, if_neg h₂, Addr.addrSub, Code.bind_ok (Isize.sub_of_mem hd s),
    Addr.addrSub, Code.bind_ok (Isize.sub_of_mem hd' s), Code.bind_ok (Isize.sub_of_mem hsize s),
    Code.bind_ok (Isize.add_of_fits hsum s), Isize.tryToUsize_getD, Isize.tryToUsize_getD]
  change (do
      let lo ← new r.base (lowSize r rhs)
      let hi ← new (← r.base.byteAdd (← Usize.sub r.size (hiSize r rhs))) (hiSize r rhs)
      return (lo, hi) : Code σ (AddrRange S × AddrRange S)).run s = _
  rw [Code.bind_ok (new_run (by omega) s), Code.bind_ok (Usize.sub_of_le hhi s),
    Code.bind_ok (Addr.byteAdd_of_lt hr.1 (by omega) s),
    Code.bind_ok (new_run (by simp only; omega) s)]
  rfl

theorem rangeSub_eq_ok {r rhs lo hi : AddrRange S} {s s' : σ} (h₁ : r.size ≠ 0)
    (h₂ : rhs.size ≠ 0) (h : (r.rangeSub rhs).run s = .ok (lo, hi) s') : NoOverflow r rhs := by
  rw [rangeSub, if_neg h₁, if_neg h₂] at h
  obtain ⟨d, _, hd, h⟩ := Code.bind_eq_ok.mp h
  obtain ⟨d', _, hd', h⟩ := Code.bind_eq_ok.mp h
  obtain ⟨e, _, he, h⟩ := Code.bind_eq_ok.mp h
  obtain ⟨f, _, hf, -⟩ := Code.bind_eq_ok.mp h
  have hsum := (Isize.add_eq_ok hf).1
  rw [(Isize.sub_eq_ok hd').1, (Isize.sub_eq_ok he).1] at hsum
  exact ⟨Isize.fits_of_sub_eq_ok hd, Isize.fits_of_sub_eq_ok hd', Isize.fits_of_sub_eq_ok he, hsum⟩

/-- Two sizes of which one only is cast to a negative number have a difference that is `2 ^ 64`
off, and then the first or the last address of the range is misplaced. -/
theorem isDiff_sizes_iff {r rhs : AddrRange S} (hr : r.Within) (hrhs : rhs.Within)
    (h₁ : r.size ≠ 0) (h₂ : rhs.size ≠ 0) (h : NoOverflow r rhs) :
    IsDiff r rhs ⟨r.base, lowSize r rhs⟩
        ⟨⟨r.base.value + (r.size - hiSize r rhs)⟩, hiSize r rhs⟩ ↔
      (r.size < 2 ^ 63 ↔ rhs.size < 2 ^ 63) := by
  have hend : r.base.value + r.size < 2 ^ 64 := Nat.lt_of_le_of_lt hr.2 S.stop_lt
  have hend' : rhs.base.value + rhs.size < 2 ^ 64 := Nat.lt_of_le_of_lt hrhs.2 S.stop_lt
  obtain ⟨hd, hd', hsize, hsum⟩ := h
  rw [isDiff_iff]
  simp only [mem_addrs, lowSize, hiSize]
  have hbase := Isize.ofUsize_sub_cases r.base.value rhs.base.value
  have hdiff := Isize.ofUsize_sub_cases r.size rhs.size
  rw [← Int.neg_sub] at hd ⊢
  generalize Isize.ofUsize r.base.value - Isize.ofUsize rhs.base.value = d at *
  generalize Isize.ofUsize r.size - Isize.ofUsize rhs.size = e at *
  generalize r.base.value = a at *
  generalize rhs.base.value = b at *
  generalize r.size = n at *
  generalize rhs.size = m at *
  unfold Isize.Fits at *
  rcases hdiff with ⟨hsame, rfl⟩ | ⟨hn, hm, rfl⟩ | ⟨hn, hm, rfl⟩
  · refine iff_of_true (fun x => ?_) hsame
    rcases hbase with ⟨-, rfl⟩ | ⟨ha, hb, rfl⟩ | ⟨ha, hb, rfl⟩ <;> omega
  · refine iff_of_false (fun hall => ?_) (by omega)
    rcases hbase with ⟨hab, rfl⟩ | ⟨ha, hb, rfl⟩ | ⟨ha, hb, rfl⟩
    · -- the upper part is not empty, and has the last address, which `rhs` or the lower part has
      have hlast := (hall (a + n - 1)).1
      have hlast' := (hall (a + n - 1)).2
      have hpos : 0 < (↑a - ↑b + (↑n - ↑m + 2 ^ 64) : ℤ).toNat := by omega
      omega
    · omega
    · -- the lower part is the whole range
      have hfirst := hall a
      omega
  · refine iff_of_false (fun hall => ?_) (by omega)
    rcases hbase with ⟨hab, rfl⟩ | ⟨ha, hb, rfl⟩ | ⟨ha, hb, rfl⟩
    · -- the upper part is empty, and `rhs` ends before the last address
      have hlast := (hall (a + n - 1)).2
      omega
    · -- the lower part is empty, and the upper part not the whole range
      have hfirst := (hall a).2
      omega
    · omega

theorem signedSafe_iff {r rhs : AddrRange S} (hr : r.Within) (hrhs : rhs.Within) :
    SignedSafe r rhs ↔ NoOverflow r rhs ∧ (r.size < 2 ^ 63 ↔ rhs.size < 2 ^ 63) := by
  have hlt : S.stop < 2 ^ 64 := S.stop_lt
  have hr' := hr.2
  have hrhs' := hrhs.2
  unfold SignedSafe NoOverflow Isize.Fits
  by_cases hsame : r.size < 2 ^ 63 ↔ rhs.size < 2 ^ 63
  · have hcast : Isize.ofUsize r.size - Isize.ofUsize rhs.size = (r.size : ℤ) - rhs.size := by
      have hcases := Isize.ofUsize_sub_cases r.size rhs.size
      omega
    rw [hcast]
    omega
  · exact iff_of_false (fun h => hsame h.1) fun h => hsame h.2

theorem rangeSub_of_empty {r rhs : AddrRange S} (h : r.size = 0) (hs : S.start < S.stop) (s : σ) :
    (r.rangeSub rhs).run s = .ok (⟨⟨S.start⟩, 0⟩, rhs) s := by
  rw [rangeSub, if_pos h, Code.bind_ok (empty_run hs s)]; rfl

theorem rangeSub_empty {r rhs : AddrRange S} (h : r.size ≠ 0) (hrhs : rhs.size = 0)
    (hs : S.start < S.stop) (s : σ) :
    (r.rangeSub rhs).run s = .ok (r, ⟨⟨S.start⟩, 0⟩) s := by
  rw [rangeSub, if_neg h, if_pos hrhs, Code.bind_ok (empty_run hs s)]; rfl

/-- The subtrahend of an empty range is returned whole. -/
theorem not_subExact_of_empty {r rhs : AddrRange S} (h : r.size = 0) (hrhs : rhs.size ≠ 0)
    (hs : S.start < S.stop) (s : σ) : ¬ SubExact r rhs s := by
  rintro ⟨lo, hi, hrun, hdiff⟩
  cases (rangeSub_of_empty h hs s).symm.trans hrun
  have hfirst := hdiff.hi_subset (mem_addrs.mpr ⟨Nat.le_refl _, by omega⟩)
  rw [mem_addrs, h] at hfirst
  omega

/-- `range_sub` is the difference of sets unless the first range alone is empty, or the two are
so far apart or so large that a signed difference is not what it should be. -/
theorem rangeSub_exact_iff {r rhs : AddrRange S} (hr : r.Within) (hrhs : rhs.Within) (s : σ) :
    SubExact r rhs s ↔
      S.start < S.stop ∧ (rhs.size = 0 ∨ (r.size ≠ 0 ∧ SignedSafe r rhs)) := by
  have hr' := hr
  have hrhs' := hrhs
  unfold Within at hr' hrhs'
  by_cases hs : S.start < S.stop
  case neg =>
    -- nothing but the empty range at its end lies in an empty space
    refine iff_of_false ?_ fun h => hs h.1
    rintro ⟨lo, hi, hrun, -⟩
    rw [rangeSub, if_pos (by omega)] at hrun
    obtain ⟨e, _, he, -⟩ := Code.bind_eq_ok.mp hrun
    exact hs (empty_eq_ok he)
  simp only [hs, true_and]
  by_cases h₂ : rhs.size = 0
  · refine iff_of_true ?_ (.inl h₂)
    by_cases h₁ : r.size = 0
    · refine ⟨_, _, rangeSub_of_empty h₁ hs s, isDiff_iff.mpr fun x => ?_⟩
      simp only [mem_addrs, h₁, h₂]
      omega
    · refine ⟨_, _, rangeSub_empty h₁ h₂ hs s, isDiff_iff.mpr fun x => ?_⟩
      simp only [mem_addrs, h₂]
      omega
  by_cases h₁ : r.size = 0
  · exact iff_of_false (not_subExact_of_empty h₁ h₂ hs s) fun h => h.elim h₂ fun h => h.1 h₁
  simp only [h₁, h₂, false_or, not_false_eq_true, true_and, ne_eq]
  rw [signedSafe_iff hr hrhs]
  constructor
  · rintro ⟨lo, hi, hrun, hdiff⟩
    have hno := rangeSub_eq_ok h₁ h₂ hrun
    cases (rangeSub_run hr h₁ h₂ hno s).symm.trans hrun
    exact ⟨hno, (isDiff_sizes_iff hr hrhs h₁ h₂ hno).mp hdiff⟩
  · rintro ⟨hno, hsame⟩
    exact ⟨_, _, rangeSub_run hr h₁ h₂ hno s, (isDiff_sizes_iff hr hrhs h₁ h₂ hno).mpr hsame⟩

theorem rangeSub_hole :
    SubExact (⟨⟨0x1000⟩, 0x3000⟩ : AddrRange uma) ⟨⟨0x2000⟩, 0x1000⟩ () :=
  (rangeSub_exact_iff (by decide) (by decide) ()).mpr
    ⟨by decide, .inr ⟨by decide, by unfold SignedSafe; decide⟩⟩

theorem rangeSub_nothing :
    ((⟨⟨0x1000⟩, 0⟩ : AddrRange uma).rangeSub ⟨⟨0x2000⟩, 0x1000⟩).run ()
        = .ok (⟨⟨0⟩, 0⟩, ⟨⟨0x2000⟩, 0x1000⟩) () ∧
      ¬ SubExact (⟨⟨0x1000⟩, 0⟩ : AddrRange uma) ⟨⟨0x2000⟩, 0x1000⟩ () :=
  ⟨rangeSub_of_empty rfl (by decide) (), not_subExact_of_empty rfl (by decide) (by decide) ()⟩

/-- No space of the kernel crosses `2 ^ 63`, and inside one half no difference overflows. -/
theorem signedSafe_of_half {r rhs : AddrRange S} (hr : r.Within) (hrhs : rhs.Within)
    (h : S.stop < 2 ^ 63 ∨ 2 ^ 63 ≤ S.start) (h₁ : r.size ≠ 0) (h₂ : rhs.size ≠ 0) :
    SignedSafe r rhs := by
  have hlt : S.stop < 2 ^ 64 := S.stop_lt
  unfold Within at hr hrhs
  have hcases := Isize.ofUsize_sub_cases r.base.value rhs.base.value
  have hcases' := Isize.ofUsize_sub_cases rhs.base.value r.base.value
  unfold SignedSafe Isize.Fits
  omega

end AddrRange

/-! ## Pages of a range -/

theorem PageSize.usize_pos (p : PageSize) : 0 < p.usize := by cases p <;> decide

theorem PageSize.usize_dvd_half (p : PageSize) : p.usize ∣ 2 ^ 63 := by cases p <;> decide

/-- The first addresses of the pages. -/
def PageRange.pages {S : AddrSpace} (r : PageRange S) : Set ℕ :=
  {p | ∃ i < r.len, p = r.base.base.value + i * r.base.pageSize.usize}

theorem PageRange.mem_pages {S : AddrSpace} {r : PageRange S} {p : ℕ} :
    p ∈ r.pages ↔ r.base.pageSize.usize ∣ p ∧ r.base.base.value ≤ p ∧
      p < r.base.base.value + r.len * r.base.pageSize.usize := by
  have hpos := r.base.pageSize.usize_pos
  have haligned := r.base.aligned
  constructor
  · rintro ⟨i, hi, rfl⟩
    refine ⟨Nat.dvd_add haligned (Nat.dvd_mul_left _ _), Nat.le_add_right _ _, ?_⟩
    exact Nat.add_lt_add_left (Nat.mul_lt_mul_of_pos_right hi hpos) _
  · rintro ⟨hdvd, hle, hlt⟩
    obtain ⟨i, hi⟩ := Nat.dvd_sub hdvd haligned
    rw [Nat.mul_comm] at hi
    change p - r.base.base.value = i * r.base.pageSize.usize at hi
    have hi' : i * r.base.pageSize.usize < r.len * r.base.pageSize.usize := by omega
    exact ⟨i, Nat.lt_of_mul_lt_mul_right hi', by omega⟩

namespace AddrRange

variable {S : AddrSpace} {σ : Type}

/-- What `contained_pages` and `overlapped_pages` are for: the aligned pages all of whose
addresses belong to the range, and those of which one address does. -/
def PagesExact (r : AddrRange S) (pageSize : PageSize) (s : σ) : Prop :=
  ∃ inner outer, (r.containedPages pageSize).run s = .ok inner s ∧
    (r.overlappedPages pageSize).run s = .ok outer s ∧
    inner.base.pageSize = pageSize ∧ outer.base.pageSize = pageSize ∧
    inner.pages = {p | pageSize.align ∣ p ∧ Set.Ico p (p + pageSize.usize) ⊆ r.addrs} ∧
    outer.pages =
      {p | pageSize.align ∣ p ∧ (Set.Ico p (p + pageSize.usize) ∩ r.addrs).Nonempty}

theorem page_subset_iff {r : AddrRange S} {p d : ℕ} (hd : 0 < d) :
    Set.Ico p (p + d) ⊆ r.addrs ↔ r.base.value ≤ p ∧ p + d ≤ r.base.value + r.size :=
  Set.Ico_subset_Ico_iff (by omega)

theorem page_inter_iff {r : AddrRange S} {p d : ℕ} (hd : 0 < d) (hne : r.size ≠ 0) :
    (Set.Ico p (p + d) ∩ r.addrs).Nonempty ↔
      r.base.value < p + d ∧ p < r.base.value + r.size := by
  rw [addrs, Set.Ico_inter_Ico, Set.nonempty_Ico]
  omega

theorem lt_iff_add_le_of_dvd {d p q : ℕ} (hd : 0 < d) (hp : d ∣ p) (hq : d ∣ q) :
    p < q ↔ p + d ≤ q := by
  constructor
  · intro h
    exact Nat.le_of_lt_add_of_dvd (by omega) (Nat.dvd_add_self_right.mpr hp) hq
  · omega

/-- The last page that `contained_pages` counts is the last one that ends inside the range. -/
theorem le_add_div_mul_iff {d base q n : ℕ} (hd : 0 < d) (hbase : d ∣ base) (hq : d ∣ q) :
    q ≤ base + n / d * d ↔ q ≤ base + n := by
  have hfloor : base + n / d * d = (base + n) - (base + n) % d := by
    obtain ⟨k, rfl⟩ := hbase
    have hdiv := Nat.div_add_mod' n d
    rw [Nat.mul_add_mod]
    omega
  rw [hfloor, Usize.le_sub_mod_iff hd hq]

theorem lt_add_divCeil_mul_iff {d base p n : ℕ} (hd : 0 < d) (hbase : d ∣ base) (hp : d ∣ p) :
    p < base + Usize.divCeil n d * d ↔ p < base + n := by
  rcases Nat.lt_or_ge p base with hlt | hge
  · exact iff_of_true (by omega) (by omega)
  · obtain ⟨k, hk⟩ := Nat.dvd_sub hp hbase
    rw [Nat.mul_comm] at hk
    have hceil := Usize.lt_divCeil_iff (a := n) (k := k) hd
    rw [← Nat.mul_lt_mul_right hd] at hceil
    omega

/-- Two addresses of the same half differ by an `isize`. -/
theorem fits_of_half {a b : ℕ} (ha : a < 2 ^ 64) (hb : b < 2 ^ 64) (h : a < 2 ^ 63 ↔ b < 2 ^ 63) :
    Isize.Fits (Isize.ofUsize a - Isize.ofUsize b) := by
  have hcases := Isize.ofUsize_sub_cases a b
  unfold Isize.Fits
  omega

/-- The pages from the boundary below the range on. -/
def outerPages (r : AddrRange S) (pageSize : PageSize) : PageRange S where
  base :=
    { base := ⟨r.base.value - r.base.value % pageSize.usize⟩
      pageSize := pageSize
      aligned := Nat.dvd_sub_mod _ }
  len := Usize.divCeil (r.size + r.base.value % pageSize.usize) pageSize.usize

/-- The pages from the boundary above the start of the range on. -/
def innerPages (r : AddrRange S) (pageSize : PageSize) : PageRange S where
  base :=
    { base := ⟨Usize.roundUp r.base.value pageSize.usize⟩
      pageSize := pageSize
      aligned := Usize.dvd_roundUp pageSize.usize_pos }
  len := (r.size - (Usize.roundUp r.base.value pageSize.usize - r.base.value)) / pageSize.usize

theorem outerPages_pages {r : AddrRange S} (pageSize : PageSize) (hne : r.size ≠ 0) :
    (r.outerPages pageSize).pages =
      {p | pageSize.align ∣ p ∧ (Set.Ico p (p + pageSize.usize) ∩ r.addrs).Nonempty} := by
  have hd := pageSize.usize_pos
  have hmod := Nat.mod_le r.base.value pageSize.usize
  ext p
  rw [PageRange.mem_pages, Set.mem_ofPred_eq, page_inter_iff hd hne]
  refine and_congr_right fun hp => ?_
  change pageSize.usize ∣ p at hp
  show r.base.value - r.base.value % pageSize.usize ≤ p ∧
    p < r.base.value - r.base.value % pageSize.usize + Usize.divCeil _ _ * pageSize.usize ↔ _
  rw [lt_add_divCeil_mul_iff hd (Nat.dvd_sub_mod _) hp]
  -- the boundary is at most `p` if it is below the next page, and so if the range starts there
  have hstep : r.base.value - r.base.value % pageSize.usize < p + pageSize.usize →
      r.base.value - r.base.value % pageSize.usize ≤ p :=
    fun hlt => Nat.le_of_lt_add_of_dvd hlt (Nat.dvd_sub_mod _) hp
  have hfloor := Usize.le_sub_mod_iff (a := r.base.value) hd (Nat.dvd_add_self_right.mpr hp)
  omega

theorem innerPages_pages {r : AddrRange S} {pageSize : PageSize} (h : pageSize.usize ≤ r.size) :
    (r.innerPages pageSize).pages =
      {p | pageSize.align ∣ p ∧ Set.Ico p (p + pageSize.usize) ⊆ r.addrs} := by
  have hd := pageSize.usize_pos
  have hge := Usize.le_roundUp r.base.value pageSize.usize
  have hround := Usize.roundUp_lt (a := r.base.value) hd
  ext p
  rw [PageRange.mem_pages, Set.mem_ofPred_eq, page_subset_iff hd]
  refine and_congr_right fun hp => ?_
  change pageSize.usize ∣ p at hp
  show Usize.roundUp r.base.value pageSize.usize ≤ p ∧
    p < Usize.roundUp r.base.value pageSize.usize + _ / _ * pageSize.usize ↔ _
  have hdvd := Usize.dvd_roundUp (a := r.base.value) hd
  rw [Usize.roundUp_le_iff hd hp, lt_iff_add_le_of_dvd hd hp
    (Nat.dvd_add hdvd (Nat.dvd_mul_left _ _)), le_add_div_mul_iff hd hdvd
    (Nat.dvd_add_self_right.mpr hp)]
  omega

theorem overlappedPages_run {r : AddrRange S} {pageSize : PageSize}
    (hstart : pageSize.usize ∣ S.start) (hr : r.Within) (s : σ) :
    (r.overlappedPages pageSize).run s = .ok (r.outerPages pageSize) s := by
  have hd := pageSize.usize_pos
  have hlt : S.stop < 2 ^ 64 := S.stop_lt
  obtain ⟨hlo, hhi⟩ := hr
  have hmod := Nat.mod_le r.base.value pageSize.usize
  have hhalf := Usize.le_sub_mod_iff (a := r.base.value) hd pageSize.usize_dvd_half
  have hfloor : r.base.alignFloor pageSize.usize = some (r.outerPages pageSize).base.base :=
    if_pos ((Usize.le_sub_mod_iff hd hstart).mpr hlo)
  have hfits : Isize.Fits (Isize.ofUsize r.base.value -
      Isize.ofUsize (r.base.value - r.base.value % pageSize.usize)) :=
    fits_of_half (by omega) (by omega) (by omega)
  have hsub : (r.base.addrSub (r.outerPages pageSize).base.base).run s
      = .ok (Isize.ofUsize r.base.value -
          Isize.ofUsize (r.base.value - r.base.value % pageSize.usize)) s :=
    Isize.sub_of_mem hfits s
  have hdiff : Isize.toUsize (Isize.ofUsize r.base.value -
      Isize.ofUsize (r.base.value - r.base.value % pageSize.usize))
        = r.base.value % pageSize.usize := by
    rw [Isize.toUsize_sub (Nat.sub_le _ _) (by omega)]
    omega
  have hnew : (PageAddr.new (r.outerPages pageSize).base.base pageSize).run s
      = .ok (r.outerPages pageSize).base s :=
    PageAddr.new_of_dvd (r.outerPages pageSize).base.aligned s
  rw [overlappedPages, hfloor, Code.bind_ok (Code.expect_some _ _ s), Code.bind_ok hsub, hdiff,
    Code.bind_ok (Usize.add_of_lt (by unfold Usize.modulus Usize.bits; omega) s),
    Code.bind_ok hnew]
  rfl

theorem containedPages_of_short {r : AddrRange S} {pageSize : PageSize}
    (hstart : pageSize.usize ∣ S.start) (hs : S.start < S.stop) (h : r.size < pageSize.usize)
    (s : σ) :
    (r.containedPages pageSize).run s = .ok ⟨⟨⟨S.start⟩, pageSize, hstart⟩, 0⟩ s := by
  have hempty : (PageRange.empty pageSize).run s
      = .ok (⟨⟨⟨S.start⟩, pageSize, hstart⟩, 0⟩ : PageRange S) s := by
    rw [PageRange.empty, Code.bind_ok (Addr.new_of_mem ⟨Nat.le_refl _, hs⟩ s),
      Code.bind_ok (PageAddr.new_of_dvd hstart s)]
    rfl
  rw [containedPages, if_pos h]
  exact hempty

/-- A range that starts less than a page below `2 ^ 63`: the boundary it is rounded up to is
in the other half. -/
def BelowHalf (r : AddrRange S) (pageSize : PageSize) : Prop :=
  2 ^ 63 - pageSize.usize < r.base.value ∧ r.base.value < 2 ^ 63

theorem not_belowHalf_iff {r : AddrRange S} {pageSize : PageSize} (hr : r.Within)
    (h : pageSize.usize ≤ r.size) :
    ¬ BelowHalf r pageSize ↔ Isize.Fits (Isize.ofUsize (Usize.roundUp r.base.value pageSize.usize) -
      Isize.ofUsize r.base.value) := by
  have hd := pageSize.usize_pos
  have hlt : S.stop < 2 ^ 64 := S.stop_lt
  have hle := hr.2
  have hge := Usize.le_roundUp r.base.value pageSize.usize
  have hround := Usize.roundUp_lt (a := r.base.value) hd
  have hhalf := Usize.roundUp_le_iff (a := r.base.value) hd pageSize.usize_dvd_half
  have hreach : 2 ^ 63 < Usize.roundUp r.base.value pageSize.usize + pageSize.usize →
      2 ^ 63 ≤ Usize.roundUp r.base.value pageSize.usize :=
    fun h => Nat.le_of_lt_add_of_dvd h pageSize.usize_dvd_half (Usize.dvd_roundUp hd)
  have hcases := Isize.ofUsize_sub_cases (Usize.roundUp r.base.value pageSize.usize) r.base.value
  unfold BelowHalf Isize.Fits
  omega

theorem containedPages_eq {r : AddrRange S} {pageSize : PageSize} (hr : r.Within)
    (h : pageSize.usize ≤ r.size) :
    (r.containedPages pageSize : Code σ _) = (do
      let d ← (r.innerPages pageSize).base.base.addrSub r.base
      let residual ← Usize.sub r.size (Isize.toUsize d)
      return ⟨← PageAddr.new (r.innerPages pageSize).base.base pageSize,
        residual / pageSize.usize⟩) := by
  have hlt := S.stop_lt
  have hle := hr.2
  have hround := Usize.roundUp_lt (a := r.base.value) pageSize.usize_pos
  have hceil : r.base.alignCeil pageSize.usize = some (r.innerPages pageSize).base.base :=
    if_pos ⟨by omega, by omega⟩
  rw [containedPages, if_neg (Nat.not_lt.mpr h), hceil]
  rfl

theorem containedPages_run {r : AddrRange S} {pageSize : PageSize} (hr : r.Within)
    (h : pageSize.usize ≤ r.size) (hhalf : ¬ BelowHalf r pageSize) (s : σ) :
    (r.containedPages pageSize).run s = .ok (r.innerPages pageSize) s := by
  have hlt : S.stop < 2 ^ 64 := S.stop_lt
  have hle := hr.2
  have hge := Usize.le_roundUp r.base.value pageSize.usize
  have hround := Usize.roundUp_lt (a := r.base.value) pageSize.usize_pos
  have hsub : ((r.innerPages pageSize).base.base.addrSub r.base).run s
      = .ok (Isize.ofUsize (Usize.roundUp r.base.value pageSize.usize) -
          Isize.ofUsize r.base.value) s :=
    Isize.sub_of_mem ((not_belowHalf_iff hr h).mp hhalf) s
  have hnew : (PageAddr.new (r.innerPages pageSize).base.base pageSize).run s
      = .ok (r.innerPages pageSize).base s :=
    PageAddr.new_of_dvd (r.innerPages pageSize).base.aligned s
  rw [containedPages_eq hr h, Code.bind_ok hsub, Isize.toUsize_sub hge (by omega),
    Code.bind_ok (Usize.sub_of_le (by omega) s), Code.bind_ok hnew]
  rfl

theorem not_belowHalf_of_ok {r : AddrRange S} {pageSize : PageSize} {inner : PageRange S}
    {s s' : σ} (hr : r.Within) (h : pageSize.usize ≤ r.size)
    (hrun : (r.containedPages pageSize).run s = .ok inner s') : ¬ BelowHalf r pageSize := by
  rw [containedPages_eq hr h] at hrun
  obtain ⟨d, _, hd, -⟩ := Code.bind_eq_ok.mp hrun
  exact (not_belowHalf_iff hr h).mpr (Isize.fits_of_sub_eq_ok hd)

/-- Both are exact, and never panic, but for a range of at least a page that starts less than a
page below `2 ^ 63`: there `contained_pages` subtracts two addresses of different halves. -/
theorem pages_exact_iff {r : AddrRange S} {pageSize : PageSize}
    (hstart : pageSize.usize ∣ S.start) (hr : r.Within) (hne : r.size ≠ 0) (s : σ) :
    PagesExact r pageSize s ↔ ¬ (pageSize.usize ≤ r.size ∧ BelowHalf r pageSize) := by
  have hs : S.start < S.stop := by
    obtain ⟨hlo, hhi⟩ := hr
    omega
  constructor
  · rintro ⟨inner, outer, hinner, -⟩ ⟨hsize, hhalf⟩
    exact not_belowHalf_of_ok hr hsize hinner hhalf
  · intro h
    have houter := overlappedPages_run hstart hr s
    rcases Nat.lt_or_ge r.size pageSize.usize with hshort | hlong
    · refine ⟨_, _, containedPages_of_short hstart hs hshort s, houter, rfl, rfl, ?_,
        outerPages_pages pageSize hne⟩
      ext p
      rw [PageRange.mem_pages, Set.mem_ofPred_eq, page_subset_iff pageSize.usize_pos]
      refine iff_of_false ?_ (by omega)
      rintro ⟨-, hle, hlt⟩
      rw [Nat.zero_mul] at hlt
      exact absurd hle (Nat.not_le.mpr hlt)
    · exact ⟨_, _, containedPages_run hr hlong (fun hb => h ⟨hlong, hb⟩) s, houter, rfl, rfl,
        innerPages_pages hlong, outerPages_pages pageSize hne⟩

theorem pages_of_misaligned :
    PagesExact (⟨⟨0x1800⟩, 0x3000⟩ : AddrRange uma) .small () :=
  (pages_exact_iff (by decide) (by decide) (by decide) ()).mpr fun h =>
    absurd h.2.1 (by decide)

/-- A space that crosses `2 ^ 63`, aligned as the trait wants it. -/
def straddling : AddrSpace where
  start := 0
  stop := 2 ^ 63 + 2 ^ 30
  stop_lt := by decide

theorem pages_of_straddling :
    PageSize.huge.usize ∣ straddling.start ∧ PageSize.huge.usize ∣ straddling.stop ∧
      Within (⟨⟨2 ^ 63 - 1⟩, 0x2000⟩ : AddrRange straddling) ∧
      ¬ PagesExact (⟨⟨2 ^ 63 - 1⟩, 0x2000⟩ : AddrRange straddling) .small () := by
  have hwithin : Within (⟨⟨2 ^ 63 - 1⟩, 0x2000⟩ : AddrRange straddling) := by decide
  refine ⟨by decide, by decide, hwithin, ?_⟩
  rintro ⟨inner, outer, hinner, -⟩
  exact not_belowHalf_of_ok hwithin (by decide) hinner ⟨by decide, by decide⟩

end AddrRange

/-! ## Pages further on and further back -/

namespace PageAddr

variable {S : AddrSpace} {σ : Type}

/-- `q` is the page of `p`'s size at `z`, or `None` if `z` is not an address of the space. -/
def Lands (p : PageAddr S) (q : Option (PageAddr S)) (z : ℤ) : Prop :=
  (q.isSome ↔ (S.start : ℤ) ≤ z ∧ z < S.stop) ∧
    ∀ y ∈ q, (y.base.value : ℤ) = z ∧ y.pageSize = p.pageSize

/-- What `checked_page_add` and `checked_page_sub` are for: neither panics, and both land where the
integers say. -/
def CheckedExact (p : PageAddr S) (pageCnt : ℕ) (s : σ) : Prop :=
  ∃ up down, (p.checkedPageAdd pageCnt).run s = .ok up s ∧
    (p.checkedPageSub pageCnt).run s = .ok down s ∧
    Lands p up (p.base.value + pageCnt * p.pageSize.usize) ∧
    Lands p down (p.base.value - pageCnt * p.pageSize.usize)

theorem lands_none {p : PageAddr S} {z : ℤ} (h : ¬ ((S.start : ℤ) ≤ z ∧ z < S.stop)) :
    Lands p none z :=
  ⟨iff_of_false Bool.false_ne_true h, fun _ hy => by cases hy⟩

theorem lands_some {p y : PageAddr S} {z : ℤ} (h : (S.start : ℤ) ≤ z ∧ z < S.stop)
    (hbase : (y.base.value : ℤ) = z) (hsize : y.pageSize = p.pageSize) : Lands p (some y) z :=
  ⟨iff_of_true rfl h, fun _ hy => by cases hy; exact ⟨hbase, hsize⟩⟩

theorem lands_checkedPageAdd (p : PageAddr S) {pageCnt : ℕ}
    (h : pageCnt * p.pageSize.usize < Usize.modulus) (s : σ) :
    ∃ q, (p.checkedPageAdd pageCnt).run s = .ok q s ∧
      Lands p q (p.base.value + pageCnt * p.pageSize.usize) := by
  rw [checkedPageAdd, Code.bind_ok (Usize.mul_of_lt h s), ← Nat.cast_mul, ← Nat.cast_add]
  split
  · rename_i hnone
    have hout := Addr.checkedByteAdd_eq_none.mp hnone
    exact ⟨none, rfl, lands_none (by omega)⟩
  · rename_i base hsome
    obtain ⟨hin, hvalue⟩ := Addr.checkedByteAdd_eq_some.mp hsome
    exact ⟨_, rfl, lands_some (by omega) (congrArg Nat.cast hvalue) rfl⟩

theorem lands_checkedPageSub (p : PageAddr S) {pageCnt : ℕ}
    (h : pageCnt * p.pageSize.usize < Usize.modulus) (s : σ) :
    ∃ q, (p.checkedPageSub pageCnt).run s = .ok q s ∧
      Lands p q (p.base.value - pageCnt * p.pageSize.usize) := by
  rw [checkedPageSub, Code.bind_ok (Usize.mul_of_lt h s), ← Nat.cast_mul]
  split
  · rename_i hnone
    have hout := Addr.checkedByteSub_eq_none.mp hnone
    exact ⟨none, rfl, lands_none (by omega)⟩
  · rename_i base hsome
    obtain ⟨hin, hvalue⟩ := Addr.checkedByteSub_eq_some.mp hsome
    exact ⟨_, rfl, lands_some (by omega) (by simp only; omega) rfl⟩

/-- The number of bytes is a product that is not checked. -/
theorem mul_lt_of_checkedPageAdd {p : PageAddr S} {pageCnt : ℕ} {q : Option (PageAddr S)}
    {s s' : σ} (h : (p.checkedPageAdd pageCnt).run s = .ok q s') :
    pageCnt * p.pageSize.usize < Usize.modulus := by
  obtain ⟨_, _, hmul, -⟩ := Code.bind_eq_ok.mp h
  exact (Usize.mul_eq_ok.mp hmul).1

theorem checked_exact_iff (p : PageAddr S) (pageCnt : ℕ) (s : σ) :
    CheckedExact p pageCnt s ↔ pageCnt * p.pageSize.usize < Usize.modulus := by
  constructor
  · rintro ⟨up, down, hup, -⟩
    exact mul_lt_of_checkedPageAdd hup
  · intro h
    obtain ⟨up, hup, hlands⟩ := lands_checkedPageAdd p h s
    obtain ⟨down, hdown, hlands'⟩ := lands_checkedPageSub p h s
    exact ⟨up, down, hup, hdown, hlands, hlands'⟩

theorem checkedPageAdd_far :
    ((⟨⟨0⟩, .small, Nat.dvd_zero _⟩ : PageAddr uma).checkedPageAdd (2 ^ 52)).run ()
        = .error .overflow () ∧
      ¬ CheckedExact (⟨⟨0⟩, .small, Nat.dvd_zero _⟩ : PageAddr uma) (2 ^ 52) () := by
  refine ⟨rfl, ?_⟩
  rintro ⟨up, down, hup, -⟩
  exact absurd (mul_lt_of_checkedPageAdd hup) (by decide)

end PageAddr

end Koe
