/-
# `KoeOs.Alloc.SlabRun` — one slab, filled and emptied

A slab counts its free slots and keeps a bit for each.  `Inv` says that the two agree with
what was handed out:

    bit `j` clear    slot `j` is out
    `free_cnt`       the bits that are set; with what is out, all slots

`reserve` takes the first slot whose bit is set, and `free` finds its index again from the
pointer, so every call that returns keeps the invariant (`Run.inv`).  Two do not return:

    `reserve`    the slice of the slots is made with `SLOT_SIZE` elements.  For items of 8 bytes
                 there are 500 slots, and the one after the eighth is out of bounds
    `free`       asserts that a slot is free before it gives one back, so a slab whose slots
                 are all out keeps them

A cache takes only the first slot of a slab, so neither is ever met there (`CacheRun`).
-/
import KoeOs.Alloc.CacheRun

namespace Koe

/-! ## The slots -/

/-- The first bit that is set. -/
theorem findIdx_eq_some {l : List Bool} {i : ℕ} (h : l.findIdx? id = some i) :
    l[i]? = some true ∧ ∀ j < i, l[j]? = some false := by
  obtain ⟨hlt, hi, hbefore⟩ := List.findIdx?_eq_some_iff_getElem.mp h
  refine ⟨by rw [List.getElem?_eq_getElem hlt, show l[i] = true from hi], fun j hj => ?_⟩
  have hfalse := hbefore j hj
  rw [List.getElem?_eq_getElem (hj.trans hlt)]
  exact congrArg some (Bool.eq_false_iff.mpr hfalse)

/-- One bit of a list, cleared. -/
theorem count_set_false {l : List Bool} {i : ℕ} (h : l[i]? = some true) :
    (l.set i false).count true + 1 = l.count true := by
  obtain ⟨hlt, hi⟩ := List.getElem?_eq_some_iff.mp h
  have hpos : 0 < l.count true := List.count_pos_iff.mpr (hi ▸ List.getElem_mem hlt)
  rw [List.count_set hlt, hi]
  simp only [beq_self_eq_true, if_true, Bool.false_beq, Bool.not_true, Bool.false_eq_true, if_false]
  omega

/-- One bit of a list, set. -/
theorem count_set_true {l : List Bool} {i : ℕ} (h : l[i]? = some false) :
    (l.set i true).count true = l.count true + 1 := by
  obtain ⟨hlt, hi⟩ := List.getElem?_eq_some_iff.mp h
  rw [List.count_set hlt, hi]
  simp

namespace Slab

variable (T : Item) (addr : ℕ)

/-- Where slot `j` of the slab at `addr` is. -/
def slotAt (j : ℕ) : ℕ := firstSlot T addr + j * T.layout.slotSize

theorem slotAt_injective {j j' : ℕ} (h : slotAt T addr j = slotAt T addr j') : j = j' :=
  Nat.eq_of_mul_eq_mul_right T.slotSize_pos (Nat.add_left_cancel h)

/-- The slots lie in the buffer. -/
theorem slotAt_inside {j : ℕ} (hj : j < T.layout.slotsLen) :
    addr + slabBufStart ≤ slotAt T addr j ∧
      slotAt T addr j + T.layout.slotSize ≤ addr + slabBufStart + slabBufSize := by
  have hlen : T.layout.slotsLen * T.layout.slotSize ≤ slabBufSize - T.layout.slotsStart :=
    Nat.div_mul_le_self _ _
  have hmul := Nat.mul_le_mul_right T.layout.slotSize (Nat.succ_le_of_lt hj)
  have hpos := T.slotSize_pos
  rw [Nat.succ_mul] at hmul
  simp only [slotAt, firstSlot]
  omega

/-- They are aligned as the items are, if the slab is. -/
theorem align_dvd_slotAt (haddr : T.layout.align ∣ addr) (j : ℕ) :
    T.layout.align ∣ slotAt T addr j := by
  have hstart : slabBufStart + T.layout.slotsStart = Usize.roundUp slabBufStart T.layout.align :=
    Nat.add_sub_of_le (Usize.le_roundUp _ _)
  have hslots : T.layout.align ∣ slabBufStart + T.layout.slotsStart :=
    hstart ▸ Usize.dvd_roundUp T.layout.align_pos
  have hsize : T.layout.align ∣ T.layout.slotSize := Usize.dvd_roundUp T.layout.align_pos
  rw [slotAt, firstSlot, Nat.add_assoc addr]
  exact Nat.dvd_add (Nat.dvd_add haddr hslots) (Nat.dvd_mul_left_of_dvd hsize j)

/-! ## What is out -/

/-- A slot that is out: the index `reserve` chose, and the pointer it returned. -/
structure Reserved where
  idx : ℕ
  ptr : ℕ
  deriving DecidableEq, Repr

/-- The bits and the count agree with the slots that are out. -/
structure Inv (slab : UntypedSlab) (live : List Reserved) : Prop where
  addr_eq : slab.addr = addr
  length : slab.bitmap.length = slabMapBits
  slot : ∀ l ∈ live, l.idx < T.layout.slotsLen ∧ l.ptr = slotAt T addr l.idx
  clear : ∀ j < T.layout.slotsLen, slab.bitmap[j]? = some false ↔ ∃ l ∈ live, l.idx = j
  distinct : live.Pairwise fun l m => l.idx ≠ m.idx
  count : slab.freeCnt = (map T slab).count true
  total : live.length + slab.freeCnt = T.layout.slotsLen

/-- The slab after slot `j` was taken. -/
def take (slab : UntypedSlab) (j : ℕ) : UntypedSlab :=
  { slab with bitmap := slab.bitmap.set j false, freeCnt := slab.freeCnt - 1 }

/-- The slab after slot `j` was given back. -/
def give (slab : UntypedSlab) (j : ℕ) : UntypedSlab :=
  { slab with bitmap := slab.bitmap.set j true, freeCnt := slab.freeCnt + 1 }

variable {T addr}

theorem Inv.new : Inv T addr (new T addr) [] where
  addr_eq := rfl
  length := List.length_replicate
  slot := by simp
  clear j _ := by simp [Slab.new, List.getElem?_replicate]
  distinct := .nil
  count := by
    rw [map, Slab.new, List.take_replicate, Nat.min_eq_left T.le_map, List.count_replicate_self]
  total := Nat.zero_add _

theorem map_getElem {slab : UntypedSlab} {j : ℕ} (hj : j < T.layout.slotsLen) :
    (map T slab)[j]? = slab.bitmap[j]? := List.getElem?_take_of_lt hj

theorem map_take {slab : UntypedSlab} {j : ℕ} :
    map T (take slab j) = (map T slab).set j false := List.take_set

theorem map_give {slab : UntypedSlab} {j : ℕ} :
    map T (give slab j) = (map T slab).set j true := List.take_set

namespace Inv

variable {slab : UntypedSlab} {live : List Reserved} {l : Reserved} (h : Inv T addr slab live)
include h

theorem map_length : (map T slab).length = T.layout.slotsLen := by
  rw [map, List.length_take, h.length, Nat.min_eq_left T.le_map]

/-- A slot whose bit is set is not out. -/
theorem idx_ne_of_bit {j : ℕ} (hj : j < T.layout.slotsLen) (hbit : (map T slab)[j]? = some true)
    (hl : l ∈ live) : l.idx ≠ j := fun hlj => by
  have hclear := (h.clear j hj).mpr ⟨l, hl, hlj⟩
  rw [← map_getElem hj, hbit] at hclear
  cases hclear

theorem taken {j : ℕ} (hj : j < T.layout.slotsLen) (hbit : (map T slab)[j]? = some true) :
    Inv T addr (take slab j) (⟨j, slotAt T addr j⟩ :: live) where
  addr_eq := h.addr_eq
  length := by rw [take, List.length_set, h.length]
  slot := List.forall_mem_cons.mpr ⟨⟨hj, rfl⟩, h.slot⟩
  clear i hi := by
    have hlen : j < slab.bitmap.length := by
      rw [h.length]
      exact Nat.lt_of_lt_of_le hj T.le_map
    by_cases hij : i = j
    · subst hij
      simp [take, List.getElem?_set_self hlen]
    · simp only [take, List.getElem?_set_ne (Ne.symm hij), h.clear i hi, List.mem_cons,
        exists_eq_or_imp, Ne.symm hij, false_or]
  distinct := List.pairwise_cons.mpr
    ⟨fun _ hm => (h.idx_ne_of_bit hj hbit hm).symm, h.distinct⟩
  count := by
    have hset := count_set_false hbit
    have hcount := h.count
    rw [map_take]
    show slab.freeCnt - 1 = _
    omega
  total := by
    have hset := count_set_false hbit
    have htotal := h.total
    have hcount := h.count
    simp only [take, List.length_cons]
    omega

/-- No other slot that is out has its index. -/
theorem idx_ne_of_mem_erase (hl : l ∈ live) {m : Reserved} (hm : m ∈ live.erase l) :
    m.idx ≠ l.idx := by
  have hsymm : ∀ {x y : Reserved}, x.idx ≠ y.idx → y.idx ≠ x.idx := fun hne => hne.symm
  have hpair := ((List.perm_cons_erase hl).pairwise_iff hsymm).mp h.distinct
  exact (List.rel_of_pairwise_cons hpair hm).symm

theorem given (hl : l ∈ live) : Inv T addr (give slab l.idx) (live.erase l) := by
  obtain ⟨hidx, -⟩ := h.slot l hl
  have hbit : (map T slab)[l.idx]? = some false := by
    rw [map_getElem hidx]
    exact (h.clear l.idx hidx).mpr ⟨l, hl, rfl⟩
  have hset := count_set_true hbit
  have hlen := List.length_erase_of_mem hl
  have hpos := List.length_pos_of_mem hl
  have htotal := h.total
  refine ⟨h.addr_eq, ?_, fun m hm => h.slot m (List.mem_of_mem_erase hm), fun i hi => ?_,
    h.distinct.sublist List.erase_sublist, ?_, ?_⟩
  · rw [give, List.length_set, h.length]
  · have hlt : l.idx < slab.bitmap.length := by
      rw [h.length]
      exact Nat.lt_of_lt_of_le hidx T.le_map
    by_cases hil : i = l.idx
    · subst hil
      simp only [give, List.getElem?_set_self hlt]
      refine iff_of_false (by simp) ?_
      rintro ⟨m, hm, hml⟩
      exact h.idx_ne_of_mem_erase hl hm hml
    · simp only [give, List.getElem?_set_ne (Ne.symm hil), h.clear i hi]
      refine exists_congr fun m => and_congr_left fun hmi => ?_
      have hml : m ≠ l := fun heq => hil (by rw [← hmi, heq])
      exact (List.mem_erase_of_ne hml).symm
  · rw [map_give, hset, give, h.count]
  · simp only [give]
    omega

/-- What `reserve` does: with all slots out, nothing; else it takes the first free slot, and panics
after that if the slice does not reach it. -/
theorem reserve_cases :
    (live.length = T.layout.slotsLen ∧ (reserve T).run slab = .ok none slab) ∨
    live.length < T.layout.slotsLen ∧ ∃ j, j < T.layout.slotsLen ∧
      (map T slab).findIdx? id = some j ∧ (map T slab)[j]? = some true ∧
      (∀ i < j, ∃ l ∈ live, l.idx = i) ∧
      (reserve T).run slab = if j < T.layout.slotSize
        then .ok (some (slotAt T addr j)) (take slab j) else .error .bounds (take slab j) := by
  have htotal := h.total
  have hcount := h.count
  by_cases hfree : slab.freeCnt = 0
  · refine .inl ⟨by omega, ?_⟩
    unfold reserve
    rw [Code.get_bind, if_pos hfree]
    rfl
  · refine .inr ⟨by omega, ?_⟩
    cases hfind : (map T slab).findIdx? id with
    | none =>
        have hnone := List.findIdx?_eq_none_iff.mp hfind
        have hzero : (map T slab).count true = 0 :=
          List.count_eq_zero.mpr fun hmem => Bool.false_ne_true (hnone true hmem).symm
        omega
    | some j =>
        obtain ⟨hbit, hbefore⟩ := findIdx_eq_some hfind
        have hj : j < T.layout.slotsLen := by
          rw [← h.map_length]
          exact (List.getElem?_eq_some_iff.mp hbit).1
        refine ⟨j, hj, rfl, hbit, fun i hi => ?_, ?_⟩
        · refine (h.clear i (hi.trans hj)).mp ?_
          rw [← map_getElem (hi.trans hj)]
          exact hbefore i hi
        · have hne : slotAt T addr j ≠ 0 := by
            have hstart : slabBufStart = 82 := rfl
            simp only [slotAt, firstSlot]
            omega
          have hslots : slots T slab + j * T.layout.slotSize = slotAt T addr j := by
            rw [slots, h.addr_eq]
            rfl
          unfold reserve
          rw [Code.get_bind, if_neg hfree, hfind]
          simp only
          rw [Code.bind_ok (Code.assert_of (decide_eq_true hj) _ _)]
          refine (Code.bind_ok (EStateM.run_set ..)).trans ?_
          rw [Slab.slot, hslots]
          by_cases hsize : j < T.layout.slotSize
          · rw [if_pos hsize, if_pos hsize, pure_bind, if_neg hne]
            rfl
          · rw [if_neg hsize, if_neg hsize]
            rfl

/-- What `free` does with a slot that is out: it gives the slot back, if another one is free. -/
theorem free_cases (hl : l ∈ live) :
    (free T l.ptr).run slab = if live.length < T.layout.slotsLen
      then .ok () (give slab l.idx) else .error (.assertion "") slab := by
  obtain ⟨hidx, hptr⟩ := h.slot l hl
  have htotal := h.total
  unfold free
  rw [Code.get_bind]
  by_cases hroom : live.length < T.layout.slotsLen
  · have hpos := T.slotSize_pos
    have hmax := T.le_map
    have hbits : slabMapBits = 512 := rfl
    obtain ⟨hlo, hhi⟩ := slotAt_inside T addr hidx
    have hin : slab.addr + slabBufStart ≤ l.ptr ∧
        l.ptr < slab.addr + slabBufStart + slabBufSize := by
      rw [h.addr_eq, hptr]
      omega
    have hoffset : (l.ptr : ℤ) - slots T slab = l.idx * T.layout.slotSize := by
      rw [hptr, slots, h.addr_eq, slotAt, firstSlot]
      push_cast
      omega
    have hmod : (l.idx * T.layout.slotSize : ℤ) % T.layout.slotSize = 0 := Int.mul_emod_left _ _
    have hdiv : (l.idx * T.layout.slotSize : ℤ) / T.layout.slotSize = l.idx :=
      Int.mul_ediv_cancel _ (Int.natCast_ne_zero.mpr hpos.ne')
    have hcast : Isize.toUsize l.idx = l.idx := Isize.toUsize_natCast (by omega)
    have hbit : (map T slab)[l.idx]? = some false := by
      rw [map_getElem hidx]
      exact (h.clear l.idx hidx).mpr ⟨l, hl, rfl⟩
    simp only [hoffset, hmod, hdiv, hcast, hbit]
    rw [if_pos hroom, Code.bind_ok (Code.assert_of (decide_eq_true (by omega)) _ _),
      Code.bind_ok (Code.assert_of (decide_eq_true hin) _ _), if_neg (not_not.mpr rfl)]
    refine (Code.bind_ok (Code.assert_of rfl _ _)).trans ?_
    rw [Code.bind_ok (EStateM.run_modify ..), if_pos (by omega)]
    rfl
  · have hzero : decide (0 < slab.freeCnt) = false := decide_eq_false (by omega)
    rw [if_neg hroom, hzero]
    rfl

end Inv

/-! ## Runs -/

/-- The slab at `addr` after any calls that returned, each `free` with a pointer that was out, and
the slots that are out. -/
inductive Run (T : Item) (addr : ℕ) : UntypedSlab → List Reserved → Prop
  | new : Run T addr (new T addr) []
  | reserve {slab slab' : UntypedSlab} {live : List Reserved} {idx ptr : ℕ}
      (before : Run T addr slab live) (chosen : (map T slab).findIdx? id = some idx)
      (run : (reserve T).run slab = .ok (some ptr) slab') : Run T addr slab' (⟨idx, ptr⟩ :: live)
  | refuse {slab slab' : UntypedSlab} {live : List Reserved} (before : Run T addr slab live)
      (run : (reserve T).run slab = .ok none slab') : Run T addr slab' live
  | free {slab slab' : UntypedSlab} {live : List Reserved} {l : Reserved}
      (before : Run T addr slab live) (mem : l ∈ live)
      (run : (free T l.ptr).run slab = .ok () slab') : Run T addr slab' (live.erase l)

variable {slab : UntypedSlab} {live : List Reserved}

theorem Run.inv (h : Run T addr slab live) : Inv T addr slab live := by
  induction h with
  | new => exact .new
  | reserve _ chosen run ih =>
      rcases ih.reserve_cases with ⟨-, hrun⟩ | ⟨-, j, hj, hfind, hbit, -, hrun⟩
      · cases hrun.symm.trans run
      · obtain rfl := Option.some.inj (hfind.symm.trans chosen)
        split at hrun <;> cases hrun.symm.trans run
        exact ih.taken hj hbit
  | refuse _ run ih =>
      rcases ih.reserve_cases with ⟨-, hrun⟩ | ⟨-, j, -, -, -, -, hrun⟩
      · cases hrun.symm.trans run
        exact ih
      · split at hrun <;> cases hrun.symm.trans run
  | free _ mem run ih =>
      have hrun := ih.free_cases mem
      split at hrun <;> cases hrun.symm.trans run
      exact ih.given mem

/-- The first slots of a slab, taken one after the other. -/
theorem exists_run (T : Item) (addr : ℕ) {n : ℕ} (hlen : n ≤ T.layout.slotsLen)
    (hsize : n ≤ T.layout.slotSize) : ∃ slab live, Run T addr slab live ∧ live.length = n ∧
      ∀ j, (∃ l ∈ live, l.idx = j) ↔ j < n := by
  induction n with
  | zero => exact ⟨_, [], .new, rfl, by simp⟩
  | succ n ih =>
      obtain ⟨slab, live, hrun, hn, hlive⟩ := ih (by omega) (by omega)
      have hinv := hrun.inv
      rcases hinv.reserve_cases with ⟨hfull, -⟩ | ⟨-, j, hj, hfind, hbit, hbefore, hres⟩
      · omega
      · -- the first slots are out and the next one is not
        have hle : j ≤ n := Nat.le_of_not_lt fun hnj =>
          Nat.lt_irrefl n ((hlive n).mp (hbefore n hnj))
        have hge : n ≤ j := Nat.le_of_not_lt fun hjn => by
          obtain ⟨l, hl, hlj⟩ := (hlive j).mpr hjn
          exact hinv.idx_ne_of_bit hj hbit hl hlj
        obtain rfl : j = n := Nat.le_antisymm hle hge
        rw [if_pos (by omega)] at hres
        refine ⟨_, _, hrun.reserve hfind hres, by rw [List.length_cons, hn], fun i => ?_⟩
        simp only [List.mem_cons, exists_eq_or_imp, hlive i]
        omega

/-! ## The bits and the count -/

/-- In every state a slab comes to, the count is that of the bits, a bit is clear just if its slot
is out, and `free` sets the bit that `reserve` cleared. -/
theorem bitmap_in_step (i : Fin 8) (h : Run (Item.bytes i) addr slab live) :
    slab.freeCnt = (slab.bitmap.take (Item.bytes i).layout.slotsLen).count true ∧
    (∀ j < (Item.bytes i).layout.slotsLen,
      slab.bitmap[j]? = some false ↔ ∃ l ∈ live, l.ptr = slotAt (Item.bytes i) addr j) ∧
    (∀ l ∈ live, ∀ slab', (free (Item.bytes i) l.ptr).run slab = .ok () slab' →
      slab' = give slab l.idx) ∧
    slab.freeCnt ≤ (Item.bytes i).layout.slotsLen := by
  have hinv := h.inv
  refine ⟨hinv.count, fun j hj => ?_, fun l hl slab' hrun => ?_, ?_⟩
  · rw [hinv.clear j hj]
    refine exists_congr fun l => and_congr_right fun hl => ?_
    rw [(hinv.slot l hl).2]
    exact ⟨fun hlj => by rw [hlj], slotAt_injective _ _⟩
  · have hfree := hinv.free_cases hl
    split at hfree <;> cases hfree.symm.trans hrun
    rfl
  · have htotal := hinv.total
    omega

theorem bitmap_in_step_two : ∃ slab live, Run (Item.bytes 7) 4096 slab live ∧ live.length = 2 ∧
    slab.freeCnt = (slab.bitmap.take (Item.bytes 7).layout.slotsLen).count true := by
  obtain ⟨slab, live, hrun, hlen, -⟩ := exists_run (Item.bytes 7) 4096
    (by decide +kernel : 2 ≤ _) (by decide +kernel)
  exact ⟨slab, live, hrun, hlen, (bitmap_in_step 7 hrun).1⟩

/-! ## Calls that do not return -/

/-- What `reserve` is to do: `None` if all slots are out, and else a pointer to a slot that is not
out, in the buffer and aligned. -/
def Reserves (T : Item) (addr : ℕ) (slab : UntypedSlab) (live : List Reserved) : Prop :=
  (live.length = T.layout.slotsLen ∧ ∃ slab', (reserve T).run slab = .ok none slab') ∨
  (live.length < T.layout.slotsLen ∧ ∃ j < T.layout.slotsLen, ∃ slab',
    (reserve T).run slab = .ok (some (slotAt T addr j)) slab' ∧
    (∀ l ∈ live, l.ptr ≠ slotAt T addr j) ∧
    addr + slabBufStart ≤ slotAt T addr j ∧
    slotAt T addr j + T.layout.slotSize ≤ addr + slabBufStart + slabBufSize ∧
    T.layout.align ∣ slotAt T addr j)

theorem Inv.reserves_iff (h : Inv T addr slab live) (haddr : T.layout.align ∣ addr) :
    Reserves T addr slab live ↔ (live.length < T.layout.slotsLen →
      ∃ j < T.layout.slotSize, ∀ l ∈ live, l.idx ≠ j) := by
  rcases h.reserve_cases with ⟨hfull, hrun⟩ | ⟨hroom, j, hj, -, hbit, hbefore, hrun⟩
  · exact iff_of_true (.inl ⟨hfull, slab, hrun⟩) fun hroom => absurd hroom (by omega)
  by_cases hsize : j < T.layout.slotSize
  · rw [if_pos hsize] at hrun
    obtain ⟨hlo, hhi⟩ := slotAt_inside T addr hj
    refine iff_of_true (.inr ⟨hroom, j, hj, _, hrun, fun l hl hptr => ?_, hlo, hhi,
      align_dvd_slotAt T addr haddr j⟩) fun _ => ⟨j, hsize, fun l hl => h.idx_ne_of_bit hj hbit hl⟩
    rw [(h.slot l hl).2] at hptr
    exact h.idx_ne_of_bit hj hbit hl (slotAt_injective _ _ hptr)
  · rw [if_neg hsize] at hrun
    refine iff_of_false ?_ fun hfirst => ?_
    · rintro (⟨-, _, hnone⟩ | ⟨-, _, -, _, hsome, -⟩)
      · cases hrun.symm.trans hnone
      · cases hrun.symm.trans hsome
    · obtain ⟨k, hk, hfree⟩ := hfirst hroom
      obtain ⟨l, hl, hlk⟩ := hbefore k (by omega)
      exact hfree l hl hlk

/-- From 64 bytes on, the slice reaches all slots. -/
theorem slotsLen_le_slotSize {i : Fin 8} (hi : 3 ≤ i.val) :
    (Item.bytes i).layout.slotsLen ≤ (Item.bytes i).layout.slotSize := by
  revert i
  decide +kernel

theorem align_bytes_dvd (i : Fin 8) : (Item.bytes i).layout.align ∣ 4096 := by
  revert i
  decide +kernel

/-- In every state a slab comes to, `reserve` does what it is to do unless slots are free but not
one of the first `SLOT_SIZE`, which from 64 bytes on is never so; and `free` returns unless all
slots are out. -/
theorem slab_serves_iff (i : Fin 8) (haddr : 4096 ∣ addr)
    (h : Run (Item.bytes i) addr slab live) :
    (Reserves (Item.bytes i) addr slab live ↔
      (live.length < (Item.bytes i).layout.slotsLen →
        ∃ j < (Item.bytes i).layout.slotSize, ∀ l ∈ live, l.idx ≠ j)) ∧
    (3 ≤ i.val → Reserves (Item.bytes i) addr slab live) ∧
    ∀ l ∈ live, (∃ slab', (free (Item.bytes i) l.ptr).run slab = .ok () slab') ↔
      live.length < (Item.bytes i).layout.slotsLen := by
  have hinv := h.inv
  have hiff := hinv.reserves_iff (Nat.dvd_trans (align_bytes_dvd i) haddr)
  refine ⟨hiff, fun hi => hiff.mpr fun hroom => ?_, fun l hl => ?_⟩
  · have hle := slotsLen_le_slotSize hi
    rcases hinv.reserve_cases with ⟨hfull, -⟩ | ⟨-, j, hj, -, hbit, -⟩
    · omega
    · exact ⟨j, by omega, fun l hl => hinv.idx_ne_of_bit hj hbit hl⟩
  · rw [hinv.free_cases hl]
    by_cases hroom : live.length < (Item.bytes i).layout.slotsLen
    · rw [if_pos hroom]
      exact iff_of_true ⟨_, rfl⟩ hroom
    · rw [if_neg hroom]
      exact iff_of_false (fun ⟨_, herr⟩ => nomatch herr) hroom

/-- With one slot of 64 bytes out, both return. -/
theorem slab_serves_one : ∃ slab live, Run (Item.bytes 3) 4096 slab live ∧ live.length = 1 ∧
    Reserves (Item.bytes 3) 4096 slab live ∧
    ∃ l ∈ live, ∃ slab', (free (Item.bytes 3) l.ptr).run slab = .ok () slab' := by
  obtain ⟨slab, live, hrun, hlen, hlive⟩ := exists_run (Item.bytes 3) 4096
    (by decide +kernel : 1 ≤ _) (by decide +kernel)
  obtain ⟨-, hreserves, hfree⟩ := slab_serves_iff 3 (by decide) hrun
  obtain ⟨l, hl, -⟩ := (hlive 0).mpr (by decide)
  have hroom : live.length < (Item.bytes 3).layout.slotsLen := by
    rw [hlen]
    decide +kernel
  exact ⟨slab, live, hrun, hlen, hreserves (by decide), l, hl, (hfree l hl).mpr hroom⟩

/-- With 8 of 500 slots of 8 bytes out, `reserve` panics; with both slots of 1024 bytes out, `free`
does. -/
theorem slab_panics :
    (∃ slab live slab', Run (Item.bytes 0) 4096 slab live ∧ live.length = 8 ∧
      (Item.bytes 0).layout.slotsLen = 500 ∧
      (reserve (Item.bytes 0)).run slab = .error .bounds slab') ∧
    ∃ slab live, Run (Item.bytes 7) 4096 slab live ∧ live.length = 2 ∧
      (Item.bytes 7).layout.slotsLen = 2 ∧
      ∃ l ∈ live, (free (Item.bytes 7) l.ptr).run slab = .error (.assertion "") slab := by
  have hlen₀ : (Item.bytes 0).layout.slotsLen = 500 := by decide +kernel
  have hlen₇ : (Item.bytes 7).layout.slotsLen = 2 := by decide +kernel
  have hsize₀ : (Item.bytes 0).layout.slotSize = 8 := by decide +kernel
  constructor
  · obtain ⟨slab, live, hrun, hlen, hlive⟩ := exists_run (Item.bytes 0) 4096
      (by decide +kernel : 8 ≤ _) (by decide +kernel)
    have hinv := hrun.inv
    rcases hinv.reserve_cases with ⟨hfull, -⟩ | ⟨-, j, hj, -, hbit, -, hres⟩
    · omega
    · have hge : 8 ≤ j := Nat.le_of_not_lt fun hj8 => by
        obtain ⟨l, hl, hlj⟩ := (hlive j).mpr hj8
        exact hinv.idx_ne_of_bit hj hbit hl hlj
      rw [if_neg (by omega)] at hres
      exact ⟨slab, live, _, hrun, hlen, hlen₀, hres⟩
  · obtain ⟨slab, live, hrun, hlen, hlive⟩ := exists_run (Item.bytes 7) 4096
      (by decide +kernel : 2 ≤ _) (by decide +kernel)
    obtain ⟨l, hl, -⟩ := (hlive 0).mpr (by decide)
    have hfree := hrun.inv.free_cases hl
    rw [if_neg (by omega)] at hfree
    exact ⟨slab, live, hrun, hlen, hlen₇, l, hl, hfree⟩

end Slab

end Koe
