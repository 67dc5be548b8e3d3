/-
# `KoeOs.Phy.BootRun` — no boot memory is lost

`reserve` takes from the partial block.  When a request does not fit, the block
goes to the front of the reserved ones and the last free block takes its place, so

    free_blocks ++ [partial_block] ++ reserved_blocks

is the same list in every state of every run: the one `init` found (`Keeps`).  It
is spaced, so whatever `insert` is given has a gap on either side, and `insert`
neither merges nor refuses it.

`freeze` cuts the partial block at the offset.  With offset 0 the whole block has
already been put back when the free part, which is the same block, is inserted:
this is the one call of `insert` that is refused, and nothing is lost by it.
-/
import KoeOs.Phy.BootMemory

namespace Koe

namespace MemblockSystem

variable {found : Memblocks} {s t : MemblockSystem} {l : Layout} {r : Option (Addr uma)}

/-- The blocks of `found` are spread over the system, and the offset lies in the partial
block. -/
structure Keeps (found : Memblocks) (s : MemblockSystem) : Prop where
  blocks : s.freeBlocks ++ s.partialBlock.toList ++ s.reservedBlocks = found
  offset : ∀ p, s.partialBlock = some p → s.offset ≤ p.size
  live : s.isFrozen = false

/-- What `init` finds: a spaced list, all of it below `usize::MAX`. -/
structure Found (found : Memblocks) : Prop where
  spaced : found.Spaced
  stop : ∀ b ∈ found, b.stop < Usize.modulus

theorem Found.base (hf : Found found) : ∀ b ∈ found, b.base.value < Usize.modulus := fun b hb =>
  lt_of_le_of_lt (Nat.le_add_right _ _) (hf.stop b hb)

section Parts

variable {lo hi : Memblocks} {p : Memblock}

/-- The blocks around the partial one. -/
theorem Found.parts (hf : Found (lo ++ [p] ++ hi)) :
    (∀ a ∈ lo, a.stop < p.base.value) ∧ ∀ b ∈ hi, p.stop < b.base.value := by
  obtain ⟨hleft, -, hgap⟩ := Spans.spaced_append.mp hf.spaced
  refine ⟨fun a ha => (Spans.spaced_append.mp hleft).2.2 a ha p (List.mem_singleton_self p),
    fun b hb => hgap p ?_ b hb⟩
  exact List.mem_append_right lo (List.mem_singleton_self p)

end Parts

/-- One round of `reserve` that does not fit. -/
theorem Keeps.advance (h : Keeps found s) (hf : Found found) {p : Memblock}
    (hp : s.partialBlock = some p) {r : Bool} {reservedBlocks : Memblocks}
    (hins : (Memblocks.insert p).run s.reservedBlocks = .ok r reservedBlocks) :
    Keeps found (s.advance reservedBlocks) := by
  have hblocks := h.blocks
  rw [hp, Option.toList_some] at hblocks
  subst hblocks
  have hreserved : reservedBlocks = p :: s.reservedBlocks := by
    refine Memblocks.insert_first (hf.base p ?_) (fun b hb => hf.base b ?_) hf.parts.2 hins
    · simp
    · exact List.mem_append_right _ hb
  refine ⟨?_, fun q _ => Nat.zero_le _, h.live⟩
  change s.freeBlocks.dropLast ++ s.freeBlocks.getLast?.toList ++ reservedBlocks = _
  rw [dropLast_append_toList, hreserved, List.append_assoc, List.singleton_append]

theorem Keeps.reserveLoop (hf : Found found) (fuel : ℕ) : ∀ {s t : MemblockSystem},
    Keeps found s → (reserveLoop l fuel).run s = .ok r t → Keeps found t := by
  induction fuel with
  | zero => intro s t _ h; exact nomatch h
  | succ fuel ih =>
      intro s t hs h
      cases hp : s.partialBlock with
      | none => cases (reserveLoop_drained hs.live hp fuel).symm.trans h; exact hs
      | some p =>
          rcases reserveLoop_eq_ok hp h with ⟨-, done, reservedBlocks, hins, h⟩ | ⟨hle, -, rfl⟩
          · exact ih (hs.advance hf hp hins) h
          · refine ⟨hs.blocks, fun q hq => ?_, hs.live⟩
            cases hp.symm.trans hq
            exact hle

theorem Keeps.reserveAll (hf : Found found) (layouts : List Layout) :
    ∀ {s t : MemblockSystem} {granted : List Granted}, Keeps found s →
      (reserveAll layouts).run s = .ok granted t → Keeps found t := by
  induction layouts with
  | nil => intro s t granted hs h; cases h; exact hs
  | cons l layouts ih =>
      intro s t granted hs h
      obtain ⟨r, u, hres, h⟩ := Code.bind_eq_ok.mp h
      obtain ⟨rest, t', hrest, h⟩ := Code.bind_eq_ok.mp h
      rw [reserve_eq] at hres
      have ht := ih (hs.reserveLoop hf _ hres) hrest
      cases r with
      | none => cases h; exact ht
      | some addr => cases h; exact ht

/-! ## The recursion ends -/

section Ends

variable {σ : Type}

theorem ends_add (a b : ℕ) (s : σ) : (Usize.add a b : Code σ ℕ).Ends s :=
  Code.ends_ite (Code.ends_of_ok rfl) (Code.ends_throw (by simp) s)

theorem ends_nextMultipleOf (a b : ℕ) (s : σ) : (Usize.nextMultipleOf a b : Code σ ℕ).Ends s :=
  Code.ends_ite (Code.ends_of_ok rfl) (Code.ends_throw (by simp) s)

theorem ends_new (value : ℕ) (s : σ) : (Addr.new value : Code σ (Addr uma)).Ends s :=
  (Code.ends_assert _ _ s).bind fun _ _ _ => Code.ends_of_ok rfl

theorem ends_meets (a b : Memblock) (s : σ) : (Memblocks.meets a b : Code σ Bool).Ends s := by
  refine (Code.ends_assert _ _ s).bind fun _ t _ => ?_
  refine Code.Ends.bind ?_ fun _ _ _ => Code.ends_of_ok rfl
  exact Code.ends_ite (Code.ends_of_ok rfl) (Code.ends_throw (by simp) t)

theorem ends_mergePrev (data : Memblocks) (block : Memblock) (s : σ) :
    (data.mergePrev block : Code σ (Option Memblock)).Ends s := by
  unfold Memblocks.mergePrev
  split
  · exact Code.ends_of_ok rfl
  · refine (ends_meets _ _ s).bind fun _ _ _ => ?_
    exact Code.ends_ite (Code.ends_of_ok rfl) (Code.ends_of_ok rfl)

theorem ends_mergeNext (data : Memblocks) (block : Memblock) (s : σ) :
    (data.mergeNext block : Code σ (Option Memblock)).Ends s := by
  unfold Memblocks.mergeNext
  split
  · exact Code.ends_of_ok rfl
  · refine (ends_meets _ _ s).bind fun _ _ _ => ?_
    exact Code.ends_ite (Code.ends_of_ok rfl) (Code.ends_of_ok rfl)

end Ends

theorem ends_insert (block : Memblock) (data : Memblocks) : (Memblocks.insert block).Ends data := by
  refine Code.Ends.bind (Code.ends_of_ok rfl) fun data _ _ => ?_
  refine Code.ends_ite (Code.ends_of_ok rfl) ?_
  refine (ends_mergePrev _ _ _).bind fun o _ _ => ?_
  refine (ends_mergeNext _ _ _).bind fun o' t _ => ?_
  cases o with
  | none =>
      cases o' with
      | none => exact Code.ends_ite (Code.ends_of_ok rfl) (Code.ends_throw (by simp) t)
      | some next => exact (ends_add _ _ t).bind fun _ _ _ => Code.ends_of_ok rfl
  | some prev =>
      cases o' with
      | none => exact (ends_add _ _ t).bind fun _ _ _ => Code.ends_of_ok rfl
      | some next =>
          exact (ends_add _ _ t).bind fun _ t _ =>
            (ends_add _ _ t).bind fun _ _ _ => Code.ends_of_ok rfl

/-- Each round takes a free block, and the last one finds none. -/
theorem ends_reserveLoop (l : Layout) (fuel : ℕ) : ∀ s : MemblockSystem, 1 ≤ fuel →
    (s.partialBlock ≠ none → s.freeBlocks.length + 2 ≤ fuel) → (reserveLoop l fuel).Ends s := by
  induction fuel with
  | zero => intro s h; exact absurd h (by decide)
  | succ fuel ih =>
      intro s _ hfuel
      refine Code.Ends.bind (Code.ends_of_ok rfl) fun s' _ hget => ?_
      cases hget
      refine (Code.ends_assert _ _ s).bind fun _ _ hassert => ?_
      obtain ⟨-, rfl⟩ := Code.assert_eq_ok.mp hassert
      cases hp : s.partialBlock with
      | none => exact Code.ends_of_ok rfl
      | some p =>
          have hlen := hfuel (by rw [hp]; simp)
          refine (ends_nextMultipleOf _ _ s).bind fun base _ hbase => ?_
          obtain ⟨-, rfl⟩ := Usize.nextMultipleOf_eq_ok hbase
          refine Code.Ends.bind (Code.ends_of_ok rfl) fun _ _ hmod => ?_
          cases hmod
          refine (ends_add _ _ _).bind fun offset _ hadd => ?_
          obtain ⟨-, -, rfl⟩ := Usize.add_eq_ok.mp hadd
          refine Code.Ends.bind (Code.ends_of_ok rfl) fun _ _ hmod => ?_
          cases hmod
          refine Code.ends_ite ?_ ((ends_new _ _).bind fun _ _ _ => Code.ends_of_ok rfl)
          refine Code.Ends.bind (Code.Ends.zoom (ends_insert _ _)) fun _ _ hins => ?_
          obtain ⟨reservedBlocks, -, rfl⟩ := Code.zoom_eq_ok.mp hins
          refine Code.Ends.bind (Code.ends_of_ok rfl) fun next _ hpop => ?_
          cases hpop
          refine Code.Ends.bind (Code.ends_of_ok rfl) fun _ _ hmod => ?_
          cases hmod
          refine ih _ (by omega) fun hsome => ?_
          have hne : s.freeBlocks ≠ [] := fun h => hsome (by simp [h])
          have := List.length_pos_of_ne_nil hne
          simp only [List.length_dropLast]
          omega

theorem ends_reserve (l : Layout) (s : MemblockSystem) : (reserve l).Ends s := fun t h =>
  ends_reserveLoop l _ s (by omega) (fun _ => le_rfl) t ((reserve_eq l s).symm.trans h)

/-! ## `freeze` -/

/-- What `freeze` leaves of a system whose partial block is `p`: `q` is the part of `p` from the
offset on. -/
structure Cut (s t : MemblockSystem) (p q : Memblock) : Prop where
  base : q.base.value = p.base.value + s.offset
  stop : q.stop = p.stop
  freeBlocks : t.freeBlocks = s.freeBlocks ++ [q]
  reservedBlocks : t.reservedBlocks = ⟨p.base, s.offset, .reserved⟩ :: s.reservedBlocks
  partialBlock : t.partialBlock = none
  live : t.isFrozen = false

section Freeze

variable {p : Memblock} {u : Unit}

theorem Keeps.found_eq (h : Keeps found s) (hp : s.partialBlock = some p) :
    found = s.freeBlocks ++ [p] ++ s.reservedBlocks := by
  rw [← h.blocks, hp]; rfl

/-- `freeze`, by the calls of `insert` it makes. -/
theorem freeze_eq_ok (hp : s.partialBlock = some p) (hrun : freeze.run s = .ok u t) :
    ∃ base freeBlocks freeBlocks' reservedBlocks r r', base.value = p.base.value + s.offset ∧
      base.value < Usize.modulus ∧
      (s.offset = 0 ∧ (∃ r, (Memblocks.insert p).run s.freeBlocks = .ok r freeBlocks) ∨
        s.offset ≠ 0 ∧ freeBlocks = s.freeBlocks) ∧
      (Memblocks.insert ⟨base, p.size - s.offset, .free⟩).run freeBlocks = .ok r freeBlocks' ∧
      (Memblocks.insert ⟨p.base, s.offset, .reserved⟩).run s.reservedBlocks
        = .ok r' reservedBlocks ∧
      t = ⟨freeBlocks', reservedBlocks, none, s.offset, s.managedRange, s.isFrozen⟩ := by
  unfold freeze at hrun
  rw [Code.get_bind] at hrun
  obtain ⟨_, _, ha, hrun⟩ := Code.bind_eq_ok.mp hrun
  obtain ⟨-, rfl⟩ := Code.assert_eq_ok.mp ha
  rw [Code.bind_ok (EStateM.run_set ..), hp] at hrun
  -- the part the two branches share
  have htail : ∀ {w t : MemblockSystem}, (do
      let freeBase ← p.base.byteAdd s.offset
      let freeSize ← Usize.sub p.size s.offset
      let _ ← onFree (Memblocks.insert ⟨freeBase, freeSize, .free⟩)
      let _ ← onReserved (Memblocks.insert ⟨p.base, s.offset, .reserved⟩)
      : Code MemblockSystem Unit).run w = .ok u t →
      ∃ base freeBlocks' reservedBlocks r r', base.value = p.base.value + s.offset ∧
        base.value < Usize.modulus ∧
        (Memblocks.insert ⟨base, p.size - s.offset, .free⟩).run w.freeBlocks = .ok r freeBlocks' ∧
        (Memblocks.insert ⟨p.base, s.offset, .reserved⟩).run w.reservedBlocks
          = .ok r' reservedBlocks ∧
        t = { w with freeBlocks := freeBlocks', reservedBlocks } := by
    intro w t h
    obtain ⟨base, _, hadd, h⟩ := Code.bind_eq_ok.mp h
    obtain ⟨hlt, hbase, rfl⟩ := Addr.byteAdd_eq_ok hadd
    obtain ⟨size, _, hsize, h⟩ := Code.bind_eq_ok.mp h
    obtain ⟨-, rfl, rfl⟩ := Usize.sub_eq_ok.mp hsize
    obtain ⟨r, _, hfree, h⟩ := Code.bind_eq_ok.mp h
    obtain ⟨freeBlocks', hins, rfl⟩ := Code.zoom_eq_ok.mp hfree
    obtain ⟨r', _, hres, h⟩ := Code.bind_eq_ok.mp h
    obtain ⟨reservedBlocks, hins', rfl⟩ := Code.zoom_eq_ok.mp hres
    cases h
    exact ⟨base, freeBlocks', reservedBlocks, r, r', hbase, hbase ▸ hlt, hins, hins', rfl⟩
  simp only at hrun
  split at hrun
  · rename_i hzero
    obtain ⟨r₀, _, hfree, hrun⟩ := Code.bind_eq_ok.mp hrun
    obtain ⟨freeBlocks, hins, rfl⟩ := Code.zoom_eq_ok.mp hfree
    obtain ⟨base, freeBlocks', reservedBlocks, r, r', hbase, hlt, hins', hres, rfl⟩ := htail hrun
    exact ⟨base, freeBlocks, freeBlocks', reservedBlocks, r, r', hbase, hlt,
      .inl ⟨hzero, r₀, hins⟩, hins', hres, rfl⟩
  · rename_i hpos
    obtain ⟨base, freeBlocks', reservedBlocks, r, r', hbase, hlt, hins', hres, rfl⟩ := htail hrun
    exact ⟨base, _, freeBlocks', reservedBlocks, r, r', hbase, hlt, .inr ⟨hpos, rfl⟩, hins', hres,
      rfl⟩

theorem Keeps.cut (h : Keeps found s) (hf : Found found) (hp : s.partialBlock = some p)
    (hrun : freeze.run s = .ok u t) : ∃ q, Cut s t p q := by
  have hfound := h.found_eq hp
  have hoff := h.offset p hp
  have hpmem : p ∈ found := by rw [hfound]; simp
  have hfree : ∀ b ∈ s.freeBlocks, b.base.value < Usize.modulus := fun b hb =>
    hf.base b (by rw [hfound]; simp [hb])
  obtain ⟨hbelow, habove⟩ := (hfound ▸ hf).parts
  obtain ⟨base, freeBlocks, freeBlocks', reservedBlocks, r, r', hbase, hlt, hfirst, hins, hres,
    rfl⟩ := freeze_eq_ok hp hrun
  have hreserved : reservedBlocks = ⟨p.base, s.offset, .reserved⟩ :: s.reservedBlocks := by
    refine Memblocks.insert_first (hf.base p hpmem) (fun b hb => hf.base b ?_) (fun b hb => ?_) hres
    · rw [hfound]; simp [hb]
    · have := habove b hb
      simp only [Memblock.stop] at this ⊢
      omega
  rcases hfirst with ⟨hzero, r₀, hfirst⟩ | ⟨-, rfl⟩
  · -- the whole block is back already; its free part is the same block
    obtain rfl := Memblocks.insert_last (hf.base p hpmem) hfree hbelow hfirst
    have hsame : p.base = base := Addr.ext (by omega)
    have hasc : Memblocks.Ascending (s.freeBlocks ++ [p]) := by
      have hs := hf.spaced.ascending
      rw [hfound] at hs
      exact (List.pairwise_append.mp hs).1
    have hbases : ∀ c ∈ s.freeBlocks ++ [p], c.base.value < Usize.modulus :=
      List.forall_mem_append.mpr ⟨hfree, by simpa using hf.base p hpmem⟩
    obtain rfl := Memblocks.insert_again hlt hbases hasc hsame hins
    exact ⟨p, by omega, rfl, rfl, hreserved, rfl, h.live⟩
  · have hlast : ∀ a ∈ s.freeBlocks, a.stop < base.value := fun a ha =>
      lt_of_lt_of_le (hbelow a ha) (by omega)
    obtain rfl := Memblocks.insert_last hlt hfree hlast hins
    refine ⟨_, hbase, ?_, rfl, hreserved, rfl, h.live⟩
    simp only [Memblock.stop]
    omega

end Freeze

/-! ## Conservation -/

/-- The free, partial and reserved bytes are disjoint and make up `A`; the offset lies in the
partial block, and both lists are sorted. -/
structure Conserved (A : ℕ → Prop) (s : MemblockSystem) : Prop where
  covers_iff : ∀ x, A x ↔ s.freeBlocks.Covers x ∨ Memblocks.Covers s.partialBlock.toList x ∨
    s.reservedBlocks.Covers x
  free_partial : ∀ x, s.freeBlocks.Covers x → ¬ Memblocks.Covers s.partialBlock.toList x
  free_reserved : ∀ x, s.freeBlocks.Covers x → ¬ s.reservedBlocks.Covers x
  partial_reserved : ∀ x, Memblocks.Covers s.partialBlock.toList x → ¬ s.reservedBlocks.Covers x
  offset_le : ∀ p, s.partialBlock = some p → s.offset ≤ p.size
  free_sorted : s.freeBlocks.Ascending
  reserved_sorted : s.reservedBlocks.Ascending

variable {A : ℕ → Prop}

theorem Keeps.conserved (h : Keeps found s) (hf : Found found) (hA : ∀ x, found.Covers x ↔ A x) :
    Conserved A s := by
  have hs := hf.spaced
  rw [← h.blocks] at hs
  obtain ⟨hleft, -, -⟩ := Spans.spaced_append.mp hs
  have hasc := Memblocks.Spaced.ascending hs
  obtain ⟨hasc', hres, -⟩ := List.pairwise_append.mp hasc
  refine ⟨fun x => ?_, fun x hx => hleft.disjoint hx, fun x hx => ?_, fun x hx => ?_, h.offset,
    (List.pairwise_append.mp hasc').1, hres⟩
  · rw [← hA, ← h.blocks, Memblocks.covers_append, Memblocks.covers_append, or_assoc]
  · exact hs.disjoint (Memblocks.covers_append.mpr (.inl hx))
  · exact hs.disjoint (Memblocks.covers_append.mpr (.inr hx))

/-- The two parts of the partial block are apart, and apart from everything else. -/
theorem Cut.conserved {p q : Memblock} (hc : Cut s t p q) (hs : Conserved A s)
    (hp : s.partialBlock = some p)
    (hasc : Memblocks.Ascending (s.freeBlocks ++ [p] ++ s.reservedBlocks)) : Conserved A t := by
  have hparts : ∀ x, p.Contains x ↔
      Memblock.Contains ⟨p.base, s.offset, .reserved⟩ x ∨ q.Contains x :=
    Memblock.contains_glue hc.base.symm hc.stop.symm rfl
  have hapart : ∀ x, q.Contains x → ¬ Memblock.Contains ⟨p.base, s.offset, .reserved⟩ x := by
    intro x hx hx'
    exact absurd (hc.base ▸ hx.1) (not_le.mpr hx'.2)
  have hpart : ∀ x, Memblocks.Covers s.partialBlock.toList x ↔ p.Contains x := fun x => by
    rw [hp]; exact Memblocks.covers_singleton
  obtain ⟨hleft, hright, hgap⟩ := List.pairwise_append.mp hasc
  obtain ⟨hfree, -, hlast⟩ := List.pairwise_append.mp hleft
  have hnone : ∀ x, ¬ Memblocks.Covers t.partialBlock.toList x := fun x => by
    rw [hc.partialBlock]; exact Spans.covers_nil
  refine ⟨fun x => ?_, fun x _ => hnone x, fun x hx hx' => ?_, fun x hx => absurd hx (hnone x),
    fun p' hp' => ?_, ?_, ?_⟩
  · rw [hs.covers_iff, hpart, hparts, hc.freeBlocks, hc.reservedBlocks, Memblocks.covers_append,
      Memblocks.covers_singleton, Memblocks.covers_cons, or_iff_right (hnone x)]
    simp only [or_assoc, or_comm, or_left_comm]
  · rw [hc.freeBlocks, Memblocks.covers_append, Memblocks.covers_singleton] at hx
    rw [hc.reservedBlocks, Memblocks.covers_cons] at hx'
    rcases hx with hx | hx
    · rcases hx' with hx' | hx'
      · exact hs.free_partial x hx ((hpart x).mpr ((hparts x).mpr (.inl hx')))
      · exact hs.free_reserved x hx hx'
    · rcases hx' with hx' | hx'
      · exact hapart x hx hx'
      · exact hs.partial_reserved x ((hpart x).mpr ((hparts x).mpr (.inr hx))) hx'
  · rw [hc.partialBlock] at hp'
    exact nomatch hp'
  · rw [hc.freeBlocks]
    refine List.pairwise_append.mpr ⟨hfree, List.pairwise_singleton _ _, fun a ha b hb => ?_⟩
    have hlt := hlast a ha p (List.mem_singleton_self p)
    rw [List.mem_singleton.mp hb, hc.base]
    exact Nat.lt_add_right _ hlt
  · rw [hc.reservedBlocks]
    refine List.pairwise_cons.mpr ⟨fun b hb => ?_, hright⟩
    exact hgap p (List.mem_append_right _ (List.mem_singleton_self p)) b hb

theorem freeze_of_drained {u : Unit} (hp : s.partialBlock = none) (h : freeze.run s = .ok u t) :
    t = s := by
  unfold freeze at h
  rw [Code.get_bind] at h
  obtain ⟨_, _, ha, h⟩ := Code.bind_eq_ok.mp h
  obtain ⟨-, rfl⟩ := Code.assert_eq_ok.mp ha
  rw [hp] at h
  cases h
  cases s
  simp_all

/-- What `init` found, and where it is. -/
theorem init_keeps {kernelEnd : Addr uma} {areas : List MemoryArea}
    (hdisj : areas.Pairwise MemoryArea.Disjoint) {w w' : Building}
    (hinit : (init kernelEnd areas).run w = .ok s w') :
    ∃ found, Found found ∧ Keeps found s ∧ ∀ x, found.Covers x ↔ Available kernelEnd areas x := by
  obtain ⟨v, range, hloop, rfl⟩ := init_eq_ok hinit
  have hv := (forM_addArea_eq_ok hdisj hloop).1
  refine ⟨v.freeBlocks, ⟨hv.spaced, hv.stop_lt⟩, ⟨?_, fun p _ => Nat.zero_le _, rfl⟩, hv.covers_iff⟩
  exact (List.append_nil _).trans (dropLast_append_toList v.freeBlocks)

/-- In every state of every run of `reserve` calls from `init` the available memory is free,
partial or reserved, and nothing else; `reserve` does not recurse for ever, and `freeze` puts the
partial block away without loss. -/
theorem boot_memory_conserved {kernelEnd : Addr uma} {areas : List MemoryArea}
    (hdisj : areas.Pairwise MemoryArea.Disjoint) {m m₁ : MemblockSystem} {w w' : Building}
    (hinit : (init kernelEnd areas).run w = .ok m w') {layouts : List Layout}
    {granted : List Granted} (hres : (reserveAll layouts).run m = .ok granted m₁) :
    Conserved (Available kernelEnd areas) m₁ ∧ (∀ l, (reserve l).Ends m₁) ∧
      ∀ m₂, freeze.run m₁ = .ok () m₂ →
        Conserved (Available kernelEnd areas) m₂ ∧ ∀ l, (reserve l).run m₂ = .ok none m₂ := by
  obtain ⟨found, hf, hm, hA⟩ := init_keeps hdisj hinit
  have hm₁ := hm.reserveAll hf layouts hres
  have hcons := hm₁.conserved hf hA
  refine ⟨hcons, fun l => ends_reserve l m₁, fun m₂ hfreeze => ?_⟩
  cases hp : m₁.partialBlock with
  | none =>
      obtain rfl := freeze_of_drained hp hfreeze
      exact ⟨hcons, fun l => reserve_none_of_drained hm₁.live hp⟩
  | some p =>
      obtain ⟨q, hcut⟩ := hm₁.cut hf hp hfreeze
      have hasc := hf.spaced.ascending
      rw [hm₁.found_eq hp] at hasc
      exact ⟨hcut.conserved hcons hp hasc, fun l =>
        reserve_none_of_drained hcut.live hcut.partialBlock⟩

/-- Sixteen bytes of two pages, and `freeze`. -/
theorem boot_memory_conserved_twoPages : ∃ m m₁ m₂ w w' granted,
    (init ⟨0x200000⟩ [⟨0x200000, 0x2000, .available⟩]).run w = .ok m w' ∧
    (reserveAll [⟨16, 16, by decide, by decide⟩]).run m = .ok granted m₁ ∧
    freeze.run m₁ = .ok () m₂ ∧ m₂.reservedBlocks = [⟨⟨0x200000⟩, 16, .reserved⟩] ∧
    Conserved (Available ⟨0x200000⟩ [⟨0x200000, 0x2000, .available⟩]) m₂ := by
  obtain ⟨w, w', hinit⟩ := init_twoPages
  have hres : (reserveAll [⟨16, 16, by decide, by decide⟩]).run twoPages
      = .ok [⟨⟨16, 16, by decide, by decide⟩, ⟨0⟩⟩] { twoPages with offset := 16 } := by
    decide +kernel
  have hfreeze : freeze.run { twoPages with offset := 16 } = .ok ()
      { twoPages with
        freeBlocks := [⟨⟨0x200010⟩, 0x1ff0, .free⟩]
        reservedBlocks := [⟨⟨0x200000⟩, 16, .reserved⟩]
        partialBlock := none
        offset := 16 } := by
    decide +kernel
  exact ⟨_, _, _, w, w', _, hinit, hres, hfreeze, rfl,
    ((boot_memory_conserved (List.pairwise_singleton _ _) hinit hres).2.2 _ hfreeze).1⟩

end MemblockSystem

end Koe
