/-
# `KoeOs.Phy.BootMemory` — where the boot memory is

`init` sorts the available memory above the kernel into a spaced list of blocks,
and takes the last one as partial block.  `reserve` only moves the border between
what is free, partial and reserved:

    free_blocks ++ [partial_block] ++ reserved_blocks

is the list `init` found, as long as the system runs (`Keeps`).  `freeze` cuts the
partial block at the offset.
-/
import KoeOs.Phy.Memblocks
import Mathlib.Data.List.Induction
import Mathlib.Order.Bounds.Basic

namespace Koe

/-- No byte lies in both. -/
def MemoryArea.Disjoint (a b : MemoryArea) : Prop := ∀ x, a.Contains x → ¬ b.Contains x

theorem MemoryArea.Disjoint.symm {a b : MemoryArea} (h : a.Disjoint b) : b.Disjoint a :=
  fun x hb ha => h x ha hb

/-- The area lies inside the physical address space. -/
def MemoryArea.Inside (a : MemoryArea) : Prop :=
  a.startAddress < uma.stop ∧ a.startAddress + a.size ≤ uma.stop

namespace MemblockSystem

/-- The byte `x` is available, and not the kernel's. -/
def Available (kernelEnd : Addr uma) (areas : List MemoryArea) (x : ℕ) : Prop :=
  kernelEnd.value ≤ x ∧ ∃ area ∈ areas, area.typ = .available ∧ area.Contains x

variable {σ : Type} {kernelEnd : Addr uma} {areas : List MemoryArea} {area : MemoryArea}
  {b c : Memblock} {s t : σ}

theorem available_perm {areas' : List MemoryArea} (h : areas.Perm areas') (x : ℕ) :
    Available kernelEnd areas x ↔ Available kernelEnd areas' x := by
  simp only [Available, h.mem_iff]

theorem available_nil (x : ℕ) : ¬ Available kernelEnd [] x := by simp [Available]

theorem available_concat (x : ℕ) : Available kernelEnd (areas ++ [area]) x ↔
    Available kernelEnd areas x ∨
      kernelEnd.value ≤ x ∧ area.typ = .available ∧ area.Contains x := by
  simp [Available, or_and_right, exists_or, and_or_left]

/-! ## One area -/

/-- `b` stands for `area`. -/
structure Stands (area : MemoryArea) (b : Memblock) : Prop where
  contains : ∀ x, b.Contains x ↔ area.Contains x
  base : b.base.value < uma.stop
  typ : b.typ = .free ↔ area.typ = .available

theorem ofArea_eq_ok (h : (Memblock.ofArea area).run s = .ok b t) : Stands area b ∧ s = t := by
  obtain ⟨base, _, hnew, h⟩ := Code.bind_eq_ok.mp h
  obtain ⟨hval, -, hlt, rfl⟩ := Addr.new_eq_ok hnew
  cases h
  refine ⟨⟨fun x => ?_, hval ▸ hlt, ?_⟩, rfl⟩
  · rw [Memblock.Contains, MemoryArea.Contains, hval]
  · cases area.typ <;> simp

theorem ofArea_run (h : area.Inside) (s : σ) :
    ∃ b, (Memblock.ofArea area).run s = .ok b s ∧ b.stop ≤ uma.stop := by
  rw [Memblock.ofArea, Code.bind_ok (Addr.new_of_mem ⟨Nat.zero_le _, h.1⟩ s)]
  exact ⟨_, rfl, h.2⟩

/-- What the clipped block is. -/
structure Clips (kernelEnd : Addr uma) (b c : Memblock) : Prop where
  contains : ∀ x, c.Contains x ↔ kernelEnd.value ≤ x ∧ b.Contains x
  pos : 0 < c.size
  typ : b.typ = .free ∧ c.typ = .free
  stop : c.stop = b.stop

/-- What `aboveKernel` returns for `b`. -/
def Clipped (kernelEnd : Addr uma) (b : Memblock) (o : Option Memblock) : Prop :=
  (o = none ∧ ∀ x, kernelEnd.value ≤ x → b.typ = .free → ¬ b.Contains x) ∨
    ∃ c, o = some c ∧ Clips kernelEnd b c ∧ c.stop < Usize.modulus

/-- The last step: a block that ends where `b` does and begins where `b` and the kernel allow,
unless it is empty. -/
theorem clipped_of_stop {o : Option Memblock} (hb : b.typ = .free) (hc : c.typ = .free)
    (hbase : c.base.value = max b.base.value kernelEnd.value) (hstop : c.stop = b.stop)
    (hlt : b.stop < Usize.modulus)
    (h : (if c.size = 0 then pure none else pure (some c) : Code σ (Option Memblock)).run s
      = .ok o t) : s = t ∧ Clipped kernelEnd b o := by
  have hcont : ∀ x, c.Contains x ↔ kernelEnd.value ≤ x ∧ b.Contains x := fun x => by
    have hdef : b.stop = b.base.value + b.size := rfl
    rw [Memblock.Contains, Memblock.Contains, ← Memblock.stop, hstop, hbase]
    omega
  split at h
  · rename_i hzero
    cases h
    refine ⟨rfl, .inl ⟨rfl, fun x hx _ hx' => ?_⟩⟩
    have hempty := (hcont x).mpr ⟨hx, hx'⟩
    rw [Memblock.Contains, hzero] at hempty
    omega
  · rename_i hpos
    cases h
    exact ⟨rfl, .inr ⟨c, rfl, ⟨hcont, Nat.pos_of_ne_zero hpos, ⟨hb, hc⟩, hstop⟩, hstop ▸ hlt⟩⟩

theorem aboveKernel_eq_ok {o : Option Memblock} (h : (aboveKernel kernelEnd b).run s = .ok o t) :
    s = t ∧ Clipped kernelEnd b o := by
  unfold aboveKernel at h
  cases htyp : b.typ with
  | reserved =>
      rw [if_pos htyp] at h
      cases h
      refine ⟨rfl, .inl ⟨rfl, fun x _ hfree => ?_⟩⟩
      rw [htyp] at hfree
      exact nomatch hfree
  | free =>
      rw [if_neg (by rw [htyp]; decide)] at h
      obtain ⟨stop, _, hstop, h⟩ := Code.bind_eq_ok.mp h
      obtain ⟨hlt, hval, rfl⟩ := Addr.byteAdd_eq_ok hstop
      split at h
      · rename_i hbelow
        cases h
        refine ⟨rfl, .inl ⟨rfl, fun x hx _ hc => ?_⟩⟩
        have hlast := hc.2
        have hbelow : stop.value < kernelEnd.value := hbelow
        omega
      · rename_i habove
        have hke : kernelEnd.value ≤ b.base.value + b.size := hval ▸ not_lt.mp habove
        simp only at h
        split at h
        · rename_i hbase
          have hbase : b.base.value < kernelEnd.value := hbase
          obtain ⟨d, _, hd, h⟩ := Code.bind_eq_ok.mp h
          obtain ⟨hcut, rfl⟩ := Addr.addrSub_eq_ok hd hbase.le (hke.trans_lt hlt)
          obtain ⟨size, _, hsub, h⟩ := Code.bind_eq_ok.mp h
          obtain ⟨hle, rfl, rfl⟩ := Usize.sub_eq_ok.mp hsub
          rw [hcut] at h
          have hstop : Memblock.stop ⟨kernelEnd, b.size - (kernelEnd.value - b.base.value), b.typ⟩
              = b.stop := by
            simp only [Memblock.stop]
            omega
          exact clipped_of_stop htyp (c := ⟨kernelEnd, _, b.typ⟩) htyp
            (Nat.max_eq_right hbase.le).symm hstop hlt h
        · rename_i hbase
          exact clipped_of_stop htyp htyp (Nat.max_eq_left (not_lt.mp hbase)).symm rfl hlt h

theorem skipEmpty_run (c : Memblock) (s : σ) : ∃ o,
    (if c.size = 0 then pure none else pure (some c) : Code σ (Option Memblock)).run s
      = .ok o s := by
  split
  · exact ⟨_, rfl⟩
  · exact ⟨_, rfl⟩

theorem aboveKernel_run (kernelEnd : Addr uma) (hb : b.stop ≤ uma.stop) (s : σ) :
    ∃ o, (aboveKernel kernelEnd b).run s = .ok o s := by
  have hdef : b.stop = b.base.value + b.size := rfl
  have huma : uma.stop = 2 ^ 46 := rfl
  have hfit : b.base.value + b.size < Usize.modulus := by
    simp only [Usize.modulus, Usize.bits]; omega
  unfold aboveKernel
  split
  · exact ⟨_, rfl⟩
  · rw [Code.bind_ok (Addr.byteAdd_of_lt (Nat.zero_le _) hfit s)]
    split
    · exact ⟨_, rfl⟩
    · rename_i habove
      have hke : kernelEnd.value ≤ b.base.value + b.size := not_lt.mp habove
      simp only
      split
      · rename_i hbase
        have hbase : b.base.value < kernelEnd.value := hbase
        have hcut : Isize.toUsize ((kernelEnd.value - b.base.value : ℕ) : ℤ)
            = kernelEnd.value - b.base.value := Isize.toUsize_natCast (by omega)
        rw [Code.bind_ok (Addr.addrSub_of_le hbase.le (by omega) s), hcut,
          Code.bind_ok (Usize.sub_of_le (by omega) s)]
        exact skipEmpty_run _ s
      · exact skipEmpty_run _ s

/-! ## The areas one after another -/

/-- The blocks found so far are those of the bytes in `A`, and the two bounds enclose them. -/
structure Building.Holds (A : ℕ → Prop) (s : Building) : Prop where
  spaced : s.freeBlocks.Spaced
  covers_iff : ∀ x, s.freeBlocks.Covers x ↔ A x
  typ : ∀ b ∈ s.freeBlocks, b.typ = .free
  fits : ∀ x, A x → x + 1 < Usize.modulus
  bounds : (∀ x, A x → x < uma.stop) →
    ((∀ x, ¬ A x) ∧ s.minAddr.value = uma.stop - 1 ∧ s.maxAddr.value = 0) ∨
    (IsLeast {x | A x} s.minAddr.value ∧ 0 < s.maxAddr.value ∧
      IsGreatest {x | A x} (s.maxAddr.value - 1))

variable {A : ℕ → Prop} {u v : Building}

/-- Nothing is found yet. -/
def Building.start : Building := ⟨[], ⟨uma.stop - 1⟩, ⟨uma.start⟩⟩

theorem Building.holds_start : Building.start.Holds fun _ => False :=
  ⟨Spans.spaced_nil, fun x => iff_of_false Spans.covers_nil id, by simp [start], fun _ h => h.elim,
    fun _ => .inl ⟨fun _ => id, rfl, rfl⟩⟩

theorem Building.Holds.stop_lt (h : u.Holds A) : ∀ b ∈ u.freeBlocks, b.stop < Usize.modulus := by
  intro b hb
  have hlt : b.base.value < b.stop := h.spaced.lt b hb
  have hlast := h.fits (b.stop - 1) ((h.covers_iff _).mp
    ⟨b, hb, Nat.le_sub_one_of_lt hlt, Nat.sub_one_lt_of_lt hlt⟩)
  omega

theorem Building.Holds.congr {B : ℕ → Prop} (h : u.Holds A) (hiff : ∀ x, A x ↔ B x) :
    u.Holds B := by
  obtain rfl : A = B := funext fun x => propext (hiff x)
  exact h

/-- The bytes of a block, and its ends. -/
theorem isLeast_contains (hpos : 0 < b.size) : IsLeast {x | b.Contains x} b.base.value :=
  ⟨⟨le_rfl, Nat.lt_add_of_pos_right hpos⟩, fun _ hx => hx.1⟩

theorem isGreatest_contains (hpos : 0 < b.size) : IsGreatest {x | b.Contains x} (b.stop - 1) := by
  have hdef : b.stop = b.base.value + b.size := rfl
  exact ⟨⟨by omega, by omega⟩, fun x hx => Nat.le_sub_one_of_lt hx.2⟩

/-- A block that is not empty, free, and overlaps nothing found so far. -/
theorem Building.Holds.join (h : u.Holds A) (hpos : 0 < b.size) (htyp : b.typ = .free)
    (hlt : b.stop < Usize.modulus) (hnew : ∀ x, A x → ¬ b.Contains x) {r : Bool}
    {data : Memblocks} (hins : (Memblocks.insert b).run u.freeBlocks = .ok r data) :
    Building.Holds (fun x => A x ∨ b.Contains x)
      ⟨data, ⟨min u.minAddr.value b.base.value⟩, ⟨max u.maxAddr.value b.stop⟩⟩ := by
  obtain ⟨rfl, hjoin⟩ := Memblocks.insert_apart h.spaced hpos h.stop_lt hlt
    (fun x hx => hnew x ((h.covers_iff x).mp hx)) hins
  have hdef : b.stop = b.base.value + b.size := rfl
  refine ⟨hjoin.spaced, fun x => ?_, Memblocks.joined_typ h.typ htyp, fun x hx => ?_, fun hin => ?_⟩
  · rw [hjoin.covers_iff, h.covers_iff]
  · rcases hx with hx | hx
    · exact h.fits x hx
    · exact lt_of_le_of_lt (Nat.succ_le_of_lt hx.2) hlt
  · have hleast := isLeast_contains hpos
    have hgreatest := isGreatest_contains hpos
    right
    rcases h.bounds fun x hx => hin x (.inl hx) with ⟨hnone, hmin, hmax⟩ | ⟨hmin, hpos', hmax⟩
    · have hset : {x | A x ∨ b.Contains x} = {x | b.Contains x} :=
        Set.ext fun x => or_iff_right (hnone x)
      have hbase : b.base.value < uma.stop := hin _ (.inr hleast.1)
      simp only [hset, hmin, hmax]
      rw [Nat.min_eq_right (Nat.le_sub_one_of_lt hbase), Nat.max_eq_right (Nat.zero_le _)]
      exact ⟨hleast, by omega, hgreatest⟩
    · refine ⟨hmin.union hleast, lt_max_of_lt_left hpos', ?_⟩
      have hmono : max u.maxAddr.value b.stop - 1 = max (u.maxAddr.value - 1) (b.stop - 1) := by
        omega
      simp only [hmono]
      exact hmax.union hgreatest

/-- One area: what it adds to the bytes found, and at most one block. -/
theorem addArea_eq_ok (h : u.Holds A) (hnew : ∀ x, A x → ¬ area.Contains x) {r : Unit}
    (hrun : (addArea kernelEnd area).run u = .ok r v) :
    v.Holds (fun x => A x ∨ kernelEnd.value ≤ x ∧ area.typ = .available ∧ area.Contains x) ∧
      v.freeBlocks.length ≤ u.freeBlocks.length + 1 := by
  unfold addArea at hrun
  obtain ⟨b, _, hof, hrun⟩ := Code.bind_eq_ok.mp hrun
  obtain ⟨hb, rfl⟩ := ofArea_eq_ok hof
  obtain ⟨o, _, hab, hrun⟩ := Code.bind_eq_ok.mp hrun
  obtain ⟨rfl, hclip⟩ := aboveKernel_eq_ok hab
  rcases hclip with ⟨rfl, hnone⟩ | ⟨c, rfl, hc, hlt⟩
  · -- the area is skipped: it is not available, or nothing of it lies above the kernel
    cases hrun
    refine ⟨h.congr fun x => (or_iff_left ?_).symm, Nat.le_succ _⟩
    rintro ⟨hx, htyp, hcont⟩
    exact hnone x hx (hb.typ.mpr htyp) ((hb.contains x).mpr hcont)
  · have hcont : ∀ x, c.Contains x ↔
        kernelEnd.value ≤ x ∧ area.typ = .available ∧ area.Contains x := fun x => by
      rw [hc.contains, hb.contains, iff_true_intro (hb.typ.mp hc.typ.1), true_and]
    simp only at hrun
    obtain ⟨stop, _, hstop, hrun⟩ := Code.bind_eq_ok.mp hrun
    obtain ⟨-, hval, rfl⟩ := Addr.byteAdd_eq_ok hstop
    rw [Code.bind_ok (EStateM.run_modify ..)] at hrun
    obtain ⟨r, w, hzoom, hrun⟩ := Code.bind_eq_ok.mp hrun
    obtain ⟨data, hins, rfl⟩ := Code.zoom_eq_ok.mp hzoom
    cases hrun
    have hnewc : ∀ x, A x → ¬ c.Contains x := fun x hx hxc => hnew x hx ((hcont x).mp hxc).2.2
    have hjoin := h.join hc.pos hc.typ.2 hlt hnewc hins
    rw [hval]
    refine ⟨hjoin.congr fun x => or_congr_right (hcont x), ?_⟩
    obtain ⟨rfl, -⟩ := Memblocks.insert_apart h.spaced hc.pos h.stop_lt hlt
      (fun x hx => hnewc x ((h.covers_iff x).mp hx)) hins
    exact Memblocks.joined_length

/-- All areas. -/
theorem forM_addArea_eq_ok (hdisj : areas.Pairwise MemoryArea.Disjoint) :
    ∀ {v : Building} {r : Unit},
    (areas.forM (addArea kernelEnd)).run .start = .ok r v →
      v.Holds (Available kernelEnd areas) ∧ v.freeBlocks.length ≤ areas.length := by
  induction areas using List.reverseRecOn with
  | nil =>
      intro v r h
      cases h
      exact ⟨Building.holds_start.congr fun x => iff_of_false id (available_nil x), le_rfl⟩
  | append_singleton areas area ih =>
      intro v r h
      obtain ⟨hbefore, -, hnew⟩ := List.pairwise_append.mp hdisj
      rw [Code.forM_concat] at h
      obtain ⟨_, u, hloop, harea⟩ := Code.bind_eq_ok.mp h
      obtain ⟨hu, hlen⟩ := ih hbefore hloop
      have hapart : ∀ x, Available kernelEnd areas x → ¬ area.Contains x := by
        rintro x ⟨-, a, ha, -, hx⟩ hx'
        exact hnew a ha area (List.mem_singleton_self area) x hx hx'
      obtain ⟨hv, hlen'⟩ := addArea_eq_ok hu hapart harea
      refine ⟨hv.congr fun x => (available_concat x).symm, ?_⟩
      rw [List.length_append]
      exact hlen'.trans (Nat.succ_le_succ hlen)

/-! ### The areas lie inside the physical address space -/

theorem Building.Holds.stop_le (h : u.Holds A) (hA : ∀ x, A x → x < uma.stop) :
    ∀ b ∈ u.freeBlocks, b.stop ≤ uma.stop := by
  intro b hb
  have hlt : b.base.value < b.stop := h.spaced.lt b hb
  have hlast := hA (b.stop - 1) ((h.covers_iff _).mp
    ⟨b, hb, Nat.le_sub_one_of_lt hlt, Nat.sub_one_lt_of_lt hlt⟩)
  omega

theorem available_lt (hin : ∀ area ∈ areas, area.Inside) (x : ℕ)
    (h : Available kernelEnd areas x) : x < uma.stop := by
  obtain ⟨-, area, harea, -, hx⟩ := h
  exact hx.2.trans_le (hin area harea).2

theorem addArea_run (kernelEnd : Addr uma) (h : u.Holds A) (hA : ∀ x, A x → x < uma.stop)
    (hin : area.Inside) (hroom : u.freeBlocks.length < memblocksLen) :
    ∃ v, (addArea kernelEnd area).run u = .ok () v := by
  have huma : uma.stop = 2 ^ 46 := rfl
  have hmod : Usize.modulus = 2 ^ 64 := rfl
  obtain ⟨b, hof, hb⟩ := ofArea_run hin u
  obtain ⟨o, hab⟩ := aboveKernel_run kernelEnd hb u
  unfold addArea
  rw [Code.bind_ok hof, Code.bind_ok hab]
  rcases (aboveKernel_eq_ok hab).2 with ⟨rfl, -⟩ | ⟨c, rfl, hc, -⟩
  · exact ⟨u, rfl⟩
  · have hcstop : c.base.value + c.size ≤ 2 ^ 46 := by
      have := hc.stop
      simp only [Memblock.stop] at this hb
      omega
    have hdata : ∀ b ∈ u.freeBlocks, b.base.value < 2 ^ 63 ∧ b.stop < Usize.modulus := by
      intro b hb
      have := h.stop_le hA b hb
      have : b.stop = b.base.value + b.size := rfl
      omega
    obtain ⟨r, data, hins⟩ := Memblocks.insert_run c hroom (by omega)
      (by rw [Memblock.stop]; omega) hdata
    simp only
    rw [Code.bind_ok (Addr.byteAdd_of_lt (Nat.zero_le _) (by omega) u),
      Code.bind_ok (EStateM.run_modify ..)]
    exact ⟨_, Code.bind_eq_ok.mpr ⟨r, _, Code.zoom_eq_ok.mpr ⟨data, hins, rfl⟩, rfl⟩⟩

theorem forM_addArea_run (kernelEnd : Addr uma) (hdisj : areas.Pairwise MemoryArea.Disjoint)
    (hin : ∀ area ∈ areas, area.Inside) (hlen : areas.length ≤ memblocksLen) :
    ∃ v, (areas.forM (addArea kernelEnd)).run .start = .ok () v := by
  induction areas using List.reverseRecOn with
  | nil => exact ⟨_, rfl⟩
  | append_singleton areas area ih =>
      obtain ⟨hbefore, hlast⟩ := List.forall_mem_append.mp hin
      rw [List.length_append] at hlen
      have hdisj' := (List.pairwise_append.mp hdisj).1
      obtain ⟨u, hloop⟩ := ih hdisj' hbefore (Nat.le_of_succ_le hlen)
      obtain ⟨hu, hulen⟩ := forM_addArea_eq_ok hdisj' hloop
      obtain ⟨v, hv⟩ := addArea_run kernelEnd hu (available_lt hbefore)
        (hlast area (List.mem_singleton_self area)) (hulen.trans_lt hlen)
      exact ⟨v, by rw [Code.forM_concat, Code.bind_ok hloop, hv]⟩

/-! ## `init` -/

/-- The system made of the blocks that were found. -/
def Building.system (v : Building) (managedRange : AddrRange uma) : MemblockSystem where
  freeBlocks := v.freeBlocks.dropLast
  reservedBlocks := []
  partialBlock := v.freeBlocks.getLast?
  offset := 0
  managedRange := managedRange
  isFrozen := false

/-- The range between the bounds. -/
def Building.range (v : Building) : AddrRange uma := ⟨v.minAddr, v.maxAddr.value - v.minAddr.value⟩

variable {w w' : Building} {m : MemblockSystem}

theorem init_eq_ok (h : (init kernelEnd areas).run w = .ok m w') :
    ∃ v range, (areas.forM (addArea kernelEnd)).run .start = .ok () v ∧ m = v.system range := by
  unfold init at h
  obtain ⟨lo, _, hlo, h⟩ := Code.bind_eq_ok.mp h
  obtain ⟨hi, _, hhi, h⟩ := Code.bind_eq_ok.mp h
  obtain ⟨_, u, hset, h⟩ := Code.bind_eq_ok.mp h
  obtain ⟨_, v, hloop, h⟩ := Code.bind_eq_ok.mp h
  rw [Code.get_bind] at h
  obtain ⟨_, _, -, h⟩ := Code.bind_eq_ok.mp h
  obtain ⟨d, _, -, h⟩ := Code.bind_eq_ok.mp h
  cases h
  cases hset
  obtain rfl : lo = ⟨uma.stop - 1⟩ := Addr.ext (Addr.new_eq_ok hlo).1
  obtain rfl : hi = ⟨uma.start⟩ := Addr.ext (Addr.new_eq_ok hhi).1
  exact ⟨v, _, hloop, rfl⟩

theorem init_run {v : Building} (hloop : (areas.forM (addArea kernelEnd)).run .start = .ok () v)
    (hlt : v.minAddr.value < v.maxAddr.value) (hmax : v.maxAddr.value < 2 ^ 63) (w : Building) :
    (init kernelEnd areas).run w = .ok (v.system v.range) v := by
  have hsize : Isize.toUsize ((v.maxAddr.value - v.minAddr.value : ℕ) : ℤ)
      = v.maxAddr.value - v.minAddr.value := Isize.toUsize_natCast (by omega)
  have hlt' : v.minAddr < v.maxAddr := hlt
  unfold init
  rw [Code.bind_ok (Addr.new_of_mem (by decide) w), Code.bind_ok (Addr.new_of_mem (by decide) w),
    Code.bind_ok (EStateM.run_set ..)]
  refine (Code.bind_ok hloop).trans ?_
  rw [Code.get_bind, Code.bind_ok (Code.assert_of (decide_eq_true hlt') _ v),
    Code.bind_ok (Addr.addrSub_of_le hlt.le hmax v), hsize]
  rfl

/-- Free blocks are known by their ends. -/
theorem eq_of_ends {l l' : Memblocks} (hl : ∀ b ∈ l, b.typ = .free) (hl' : ∀ b ∈ l', b.typ = .free)
    (h : l.map (fun b => (b.base.value, b.stop)) = l'.map fun b => (b.base.value, b.stop)) :
    l = l' := by
  have hinj : Function.Injective fun b : Memblock => ((b.base.value, b.stop), b.typ) := by
    intro b c he
    simp only [Prod.mk.injEq, Memblock.stop] at he
    exact Memblock.ext (Addr.ext he.1.1) (by omega) he.2
  have hfree : ∀ k : Memblocks, (∀ b ∈ k, b.typ = .free) →
      k.map (fun b => ((b.base.value, b.stop), b.typ))
        = (k.map fun b => (b.base.value, b.stop)).map (·, MemTyp.free) := by
    intro k hk
    rw [List.map_map]
    exact List.map_congr_left fun b hb => by rw [hk b hb]; rfl
  refine List.map_injective_iff.mpr hinj ?_
  rw [hfree l hl, hfree l' hl', h]

/-- What was found depends on the bytes only. -/
theorem Building.Holds.unique (h : u.Holds A) (h' : v.Holds A) (hA : ∀ x, A x → x < uma.stop)
    (hsome : ∃ x, A x) : u = v := by
  have hblocks : u.freeBlocks = v.freeBlocks := eq_of_ends h.typ h'.typ
    (h.spaced.ends_eq h'.spaced fun x => (h.covers_iff x).trans (h'.covers_iff x).symm)
  obtain ⟨x, hx⟩ := hsome
  rcases h.bounds hA with ⟨hnone, -⟩ | ⟨hmin, hpos, hmax⟩
  · exact absurd hx (hnone x)
  · rcases h'.bounds hA with ⟨hnone, -⟩ | ⟨hmin', hpos', hmax'⟩
    · exact absurd hx (hnone x)
    · have hlo := hmin.unique hmin'
      have hhi := hmax.unique hmax'
      cases u
      cases v
      simp only [Building.mk.injEq]
      exact ⟨hblocks, Addr.ext hlo, Addr.ext (by simp only at hpos hpos' hhi; omega)⟩

/-- `init` found the available memory. -/
structure Exact (kernelEnd : Addr uma) (areas : List MemoryArea) (m : MemblockSystem) : Prop where
  spaced : Memblocks.Spaced (m.freeBlocks ++ m.partialBlock.toList)
  covers_iff : ∀ x, Memblocks.Covers (m.freeBlocks ++ m.partialBlock.toList) x ↔
    Available kernelEnd areas x
  highest : ∃ p, m.partialBlock = some p ∧ ∀ b ∈ m.freeBlocks, b.stop < p.base.value
  least : IsLeast {x | Available kernelEnd areas x} m.managedRange.base.value
  greatest : ∃ last, m.managedRange.base.value + m.managedRange.size = last + 1 ∧
    IsGreatest {x | Available kernelEnd areas x} last

theorem dropLast_append_toList {α : Type} (l : List α) : l.dropLast ++ l.getLast?.toList = l := by
  cases h : l.getLast? with
  | none => rw [List.getLast?_eq_none_iff.mp h]; rfl
  | some a => exact List.dropLast_append_getLast? a h

theorem Building.Holds.exact (h : v.Holds (Available kernelEnd areas))
    (hin : ∀ area ∈ areas, area.Inside) (hsome : ∃ x, Available kernelEnd areas x) :
    v.minAddr.value < v.maxAddr.value ∧ v.maxAddr.value < 2 ^ 63 ∧
      Exact kernelEnd areas (v.system v.range) := by
  have huma : uma.stop = 2 ^ 46 := rfl
  obtain ⟨x, hx⟩ := hsome
  rcases h.bounds (available_lt hin) with ⟨hnone, -⟩ | ⟨hmin, hpos, hmax⟩
  · exact absurd hx (hnone x)
  · have hlt : v.minAddr.value ≤ v.maxAddr.value - 1 := hmin.2 hmax.1
    have hmaxlt := available_lt hin _ hmax.1
    have hall : (v.system v.range).freeBlocks ++ (v.system v.range).partialBlock.toList
        = v.freeBlocks := dropLast_append_toList v.freeBlocks
    refine ⟨by omega, by omega, ⟨hall.symm ▸ h.spaced, fun x => ?_, ?_, hmin, _, ?_, hmax⟩⟩
    · rw [hall]; exact h.covers_iff x
    · cases hlast : v.freeBlocks.getLast? with
      | none =>
          obtain ⟨b, hb, -⟩ := (h.covers_iff x).mpr hx
          rw [List.getLast?_eq_none_iff.mp hlast] at hb
          exact absurd hb List.not_mem_nil
      | some p =>
          have hs := h.spaced
          rw [← List.dropLast_append_getLast? p hlast] at hs
          exact ⟨p, hlast, fun b hb =>
            (Spans.spaced_append.mp hs).2.2 b hb p (List.mem_singleton_self p)⟩
    · simp only [Building.system, Building.range]; omega

/-- For every list of at most 128 disjoint areas with something available above the kernel,
`init` returns the available memory, and every order of the areas gives the same system. -/
theorem boot_memory_exact (hlen : areas.length ≤ memblocksLen)
    (hdisj : areas.Pairwise MemoryArea.Disjoint) (hin : ∀ area ∈ areas, area.Inside)
    (hsome : ∃ x, Available kernelEnd areas x) (w : Building) :
    ∃ m w', (init kernelEnd areas).run w = .ok m w' ∧ Exact kernelEnd areas m ∧
      ∀ areas' : List MemoryArea, areas'.Perm areas →
        ∃ w'', (init kernelEnd areas').run w = .ok m w'' := by
  obtain ⟨v, hloop⟩ := forM_addArea_run kernelEnd hdisj hin hlen
  have hv := (forM_addArea_eq_ok hdisj hloop).1
  obtain ⟨hlt, hmax, hexact⟩ := hv.exact hin hsome
  refine ⟨_, v, init_run hloop hlt hmax w, hexact, fun areas' hperm => ?_⟩
  have hdisj' := (hperm.pairwise_iff MemoryArea.Disjoint.symm).mpr hdisj
  have hin' : ∀ area ∈ areas', area.Inside := fun area harea => hin area (hperm.mem_iff.mp harea)
  obtain ⟨v', hloop'⟩ := forM_addArea_run kernelEnd hdisj' hin'
    (hperm.length_eq ▸ hlen)
  have hv' : v'.Holds (Available kernelEnd areas) :=
    (forM_addArea_eq_ok hdisj' hloop').1.congr (available_perm hperm)
  obtain rfl := hv'.unique hv (available_lt hin) hsome
  exact ⟨v', init_run hloop' hlt hmax w⟩

/-- Two areas that touch once the lower one is cut at the kernel, and one that is not available. -/
def threeAreas : List MemoryArea :=
  [⟨0x202000, 0x1000, .available⟩, ⟨0x100000, 0x102000, .available⟩, ⟨0x300000, 0x1000, .reserved⟩]

theorem threeAreas_disjoint : threeAreas.Pairwise MemoryArea.Disjoint := by
  simp only [threeAreas, List.pairwise_cons, List.mem_cons, List.not_mem_nil, or_false,
    forall_eq_or_imp, forall_eq, MemoryArea.Disjoint, MemoryArea.Contains]
  refine ⟨⟨?_, ?_⟩, ?_, ?_⟩ <;> simp <;> omega

theorem threeAreas_inside : ∀ area ∈ threeAreas, area.Inside := by
  simp [threeAreas, MemoryArea.Inside, uma]

theorem boot_memory_exact_threeAreas : ∃ m w', (init ⟨0x200000⟩ threeAreas).run .start = .ok m w' ∧
    Exact ⟨0x200000⟩ threeAreas m := by
  have hbyte : Available ⟨0x200000⟩ threeAreas 0x202000 :=
    ⟨by decide, _, List.mem_cons_self, rfl, by decide, by decide⟩
  obtain ⟨m, w', hrun, hexact, -⟩ := boot_memory_exact (by decide) threeAreas_disjoint
    threeAreas_inside ⟨_, hbyte⟩ .start
  exact ⟨m, w', hrun, hexact⟩

end MemblockSystem

end Koe
