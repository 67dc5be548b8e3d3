/-
# `KoeOs.Alloc.CacheRun` — what a cache does with its slabs

`fill_level` calls a slab empty when no slot is *free*, and full otherwise.  With at least
two slots to a slab, a cache then treats every slab alike:

    new slab          all slots free
    after `reserve`   one slot taken, one or more free: "full", so it goes to the full list
    after `free`      all slots free, and it was "full": it goes to the partial list

So a slab never has more than its first slot taken, and the cache is two lists of pages
(`shape`): idle ones, on the partial list, and busy ones, on the full list.

    reserve    idle page → busy, or else a new page → busy
    free       busy page → idle
-/
import KoeOs.Alloc.Slab
import Mathlib.Data.List.Nodup

namespace Koe

/-! ## A slab and its first slot -/

namespace Item

variable (T : Item)

theorem slotSize_pos : 0 < T.layout.slotSize := by
  refine Nat.pos_of_ne_zero fun h0 => ?_
  have h := T.two_le
  rw [Layout.slotsLen, h0, Nat.div_zero] at h
  exact absurd h (by decide)

/-- There are two slots, and they end before the buffer does. -/
theorem slots_fit : T.layout.slotsStart + 2 * T.layout.slotSize ≤ slabBufSize := by
  have hmul : T.layout.slotsLen * T.layout.slotSize ≤ slabBufSize - T.layout.slotsStart :=
    Nat.div_mul_le_self _ _
  have htwo := Nat.mul_le_mul_right T.layout.slotSize T.two_le
  have hpos := T.slotSize_pos
  omega

end Item

namespace Slab

variable (T : Item) (addr : ℕ)

/-- The first slot of the slab at `addr`. -/
def firstSlot : ℕ := addr + slabBufStart + T.layout.slotsStart

/-- The slab at `addr` with its first slot taken. -/
def taken : UntypedSlab :=
  ⟨addr, (List.replicate slabMapBits true).set 0 false, T.layout.slotsLen - 1⟩

theorem isFull_of_pos {slab : UntypedSlab} (h : 0 < slab.freeCnt) : slab.isFull = true := by
  rw [UntypedSlab.isFull, UntypedSlab.fillLevel]
  split
  · omega
  · rfl

theorem isEmpty_of_pos {slab : UntypedSlab} (h : 0 < slab.freeCnt) : slab.isEmpty = false := by
  rw [UntypedSlab.isEmpty, UntypedSlab.fillLevel]
  split
  · omega
  · rfl

theorem new_freeCnt : 0 < (new T addr).freeCnt := (by decide : 0 < 2).trans_le T.two_le

theorem taken_freeCnt : 0 < (taken T addr).freeCnt := Nat.sub_pos_of_lt T.two_le

/-- A slab whose slots are all free gives its first one. -/
theorem reserve_new :
    (reserve T).run (new T addr) = .ok (some (firstSlot T addr)) (taken T addr) := by
  have hlen := T.two_le
  have hmap : (map T (new T addr)).findIdx? id = some 0 := by
    rw [map, new, List.take_replicate, Nat.min_eq_left T.le_map]
    obtain ⟨n, hn⟩ := Nat.exists_eq_add_of_lt (Nat.lt_of_lt_of_le (by decide : 0 < 2) hlen)
    rw [hn, Nat.zero_add, List.replicate_succ]
    rfl
  have hslot : (slot T (new T addr) 0 : Code UntypedSlab ℕ).run (taken T addr)
      = .ok (firstSlot T addr) (taken T addr) := by
    rw [slot, if_pos T.slotSize_pos, Nat.zero_mul]
    rfl
  have hstart : slabBufStart = 82 := rfl
  have hne : firstSlot T addr ≠ 0 := by rw [firstSlot]; omega
  unfold reserve
  rw [Code.get_bind, if_neg (new_freeCnt T addr).ne', hmap]
  simp only
  rw [Code.bind_ok (Code.assert_of (decide_eq_true (by omega)) _ _)]
  refine (Code.bind_ok (EStateM.run_set ..)).trans ?_
  refine (Code.bind_ok hslot).trans ?_
  rw [if_neg hne]
  rfl

/-- The first slot can be given back. -/
theorem free_taken : (free T (firstSlot T addr)).run (taken T addr) = .ok () (new T addr) := by
  have hfit := T.slots_fit
  have hpos := T.slotSize_pos
  have hlen := T.two_le
  have hmax := T.le_map
  have hbits : slabMapBits = 512 := rfl
  have hslots : slots T (taken T addr) = firstSlot T addr := rfl
  have hzero : Isize.toUsize 0 = 0 := rfl
  have hmap : (map T (taken T addr))[0]? = some false := by
    rw [map, List.getElem?_take_of_lt (by omega)]
    rfl
  have hin : (taken T addr).addr + slabBufStart ≤ firstSlot T addr ∧
      firstSlot T addr < (taken T addr).addr + slabBufStart + slabBufSize := by
    rw [firstSlot, taken]
    simp only
    omega
  have hcnt : (taken T addr).freeCnt + 1 = T.layout.slotsLen :=
    Nat.sub_add_cancel (by omega : 1 ≤ T.layout.slotsLen)
  unfold free
  rw [Code.get_bind]
  simp only [hslots, Int.sub_self, Int.zero_emod, Int.zero_ediv, hzero, hmap]
  rw [Code.bind_ok (Code.assert_of (decide_eq_true (taken_freeCnt T addr)) _ _),
    Code.bind_ok (Code.assert_of (decide_eq_true hin) _ _), if_neg (not_not.mpr rfl)]
  refine (Code.bind_ok (Code.assert_of rfl _ _)).trans ?_
  rw [Code.bind_ok (EStateM.run_modify ..), if_pos (by omega)]
  refine (EStateM.run_modify ..).trans ?_
  rw [new, ← hcnt]
  rfl

end Slab

/-! ## The two kinds of slabs -/

namespace Cache

variable {π : Type} {pm : PhysMem π} {T : Item} {idle busy : List ℕ} {addr : ℕ} {p p' : π}

/-- A cache with the slabs at `idle` on its partial list, all their slots free, and those at
`busy` on its full list, one slot of each taken. -/
def shape (T : Item) (idle busy : List ℕ) : UntypedCache :=
  ⟨[], idle.map (Slab.new T), busy.map (Slab.taken T)⟩

/-- The slab at the cursor becomes busy, whichever list it is on. -/
theorem reserveFront_run {c : UntypedCache} {level : SlabFillLevel} {rest : List UntypedSlab}
    (hlist : c.list level = Slab.new T addr :: rest) :
    (reserveFront T level).run c = .ok (some (Slab.firstSlot T addr))
      ((c.setList level rest).pushFront .full (Slab.taken T addr)) := by
  have hempty := Slab.isEmpty_of_pos (Slab.new_freeCnt T addr)
  have hfull := Slab.isFull_of_pos (Slab.taken_freeCnt T addr)
  unfold reserveFront
  rw [Code.get_bind, hlist]
  simp only [hempty]
  rw [Code.bind_ok (Code.locally_ok (Slab.reserve_new T addr))]
  simp only [hfull]
  rfl

theorem findSlab_idle : (findSlab pm T).run ⟨p, shape T (addr :: idle) busy⟩
    = .ok (some .partially) ⟨p, shape T (addr :: idle) busy⟩ := rfl

theorem findSlab_newBox (hbox : (newBox pm).run p = .ok (some addr) p') :
    (findSlab pm T).run ⟨p, shape T [] busy⟩
      = .ok (some .empty) ⟨p', ⟨[Slab.new T addr], [], busy.map (Slab.taken T)⟩⟩ := by
  have hphys : (onPhys (newBox pm)).run ⟨p, shape T [] busy⟩
      = .ok (some addr) ⟨p', shape T [] busy⟩ := Code.zoom_ok hbox
  unfold findSlab
  rw [Code.get_bind]
  refine (Code.bind_ok hphys).trans ?_
  rfl

theorem findSlab_none (hbox : (newBox pm).run p = .ok none p') :
    (findSlab pm T).run ⟨p, shape T [] busy⟩ = .ok none ⟨p', shape T [] busy⟩ := by
  have hphys : (onPhys (newBox pm)).run ⟨p, shape T [] busy⟩ = .ok none ⟨p', shape T [] busy⟩ :=
    Code.zoom_ok hbox
  unfold findSlab
  rw [Code.get_bind]
  refine (Code.bind_ok hphys).trans ?_
  rfl

/-- An idle slab becomes busy. -/
theorem reserve_idle :
    (reserve pm T).run ⟨p, shape T (addr :: idle) busy⟩
      = .ok (some (Slab.firstSlot T addr)) ⟨p, shape T idle (addr :: busy)⟩ := by
  have hfront : (reserveFront T .partially).run (shape T (addr :: idle) busy)
      = .ok (some (Slab.firstSlot T addr)) (shape T idle (addr :: busy)) :=
    reserveFront_run rfl
  rw [reserve, Code.bind_ok findSlab_idle]
  exact Code.zoom_ok hfront

/-- Without an idle slab, a new page becomes busy. -/
theorem reserve_newBox (hbox : (newBox pm).run p = .ok (some addr) p') :
    (reserve pm T).run ⟨p, shape T [] busy⟩
      = .ok (some (Slab.firstSlot T addr)) ⟨p', shape T [] (addr :: busy)⟩ := by
  have hfront : (reserveFront T .empty).run ⟨[Slab.new T addr], [], busy.map (Slab.taken T)⟩
      = .ok (some (Slab.firstSlot T addr)) (shape T [] (addr :: busy)) :=
    reserveFront_run rfl
  rw [reserve, Code.bind_ok (findSlab_newBox hbox)]
  exact Code.zoom_ok hfront

theorem reserve_none (hbox : (newBox pm).run p = .ok none p') :
    (reserve pm T).run ⟨p, shape T [] busy⟩ = .ok none ⟨p', shape T [] busy⟩ := by
  rw [reserve, Code.bind_ok (findSlab_none hbox)]
  rfl

/-! ### Giving a slot back -/

/-- The page of the first slot. -/
theorem fromElemPtr_firstSlot (haddr : 4096 ∣ addr) :
    Slab.fromElemPtr (Slab.firstSlot T addr) = addr := by
  have hfit := T.slots_fit
  have hpos := T.slotSize_pos
  have hbuf : slabBufSize = 4013 := rfl
  have hstart : slabBufStart = 82 := rfl
  have halign : PageSize.small.align = 4096 := rfl
  obtain ⟨k, rfl⟩ := haddr
  rw [Slab.fromElemPtr, Slab.firstSlot, halign]
  omega

theorem find_busy (hidle : addr ∉ idle) (hbusy : addr ∈ busy) :
    (shape T idle busy).slabs.find? (fun s => s.addr == addr) = some (Slab.taken T addr) := by
  have hnone : (idle.map (Slab.new T)).find? (fun s => s.addr == addr) = none := by
    rw [List.find?_eq_none]
    intro s hs
    obtain ⟨a, ha, rfl⟩ := List.mem_map.mp hs
    simp only [Slab.new, beq_iff_eq]
    exact fun he => hidle (he ▸ ha)
  rw [UntypedCache.slabs, shape, List.nil_append, List.find?_append, hnone, Option.none_or]
  induction busy with
  | nil => exact absurd hbusy List.not_mem_nil
  | cons b busy ih =>
      by_cases he : b = addr
      · subst he
        simp [Slab.taken]
      · rw [List.map_cons, List.find?_cons_of_neg (by simp [Slab.taken, he])]
        exact ih ((List.mem_cons.mp hbusy).resolve_left (Ne.symm he))

/-- The slab that was written is taken off the list. -/
theorem eraseP_write (hnodup : busy.Nodup) :
    ((busy.map (Slab.taken T)).map fun s => if s.addr = addr then Slab.new T addr else s).eraseP
        (fun s => s.addr == addr) = (busy.erase addr).map (Slab.taken T) := by
  induction busy with
  | nil => rfl
  | cons b busy ih =>
      obtain ⟨hb, hnodup⟩ := List.nodup_cons.mp hnodup
      by_cases he : b = addr
      · subst he
        have hkeep : ∀ a ∈ busy, (if (Slab.taken T a).addr = b then Slab.new T b
            else Slab.taken T a) = Slab.taken T a := fun a ha =>
          if_neg fun he : a = b => hb (he ▸ ha)
        simp only [List.map_cons, List.erase_cons_head, List.map_map]
        rw [List.eraseP_cons_of_pos (by simp [Slab.taken, Slab.new])]
        exact List.map_congr_left hkeep
      · rw [List.erase_cons_tail (by simpa using he), List.map_cons, List.map_cons, List.map_cons,
          ← ih hnodup]
        have hne : ¬ (Slab.taken T b).addr = addr := he
        rw [if_neg hne, List.eraseP_cons_of_neg (by simpa using hne)]

theorem write_idle : (idle.map (Slab.new T)).map
    (fun s => if s.addr = addr then Slab.new T addr else s) = idle.map (Slab.new T) := by
  rw [List.map_map]
  refine List.map_congr_left fun a _ => ?_
  simp only [Function.comp_apply]
  split
  · rename_i he
    rw [show a = addr from he]
  · rfl

/-- A busy slab becomes idle. -/
theorem free_busy (haddr : 4096 ∣ addr) (hidle : addr ∉ idle) (hbusy : addr ∈ busy)
    (hnodup : busy.Nodup) :
    (free T (Slab.firstSlot T addr)).run (shape T idle busy)
      = .ok () (shape T (addr :: idle) (busy.erase addr)) := by
  have hfull := Slab.isFull_of_pos (Slab.taken_freeCnt T addr)
  have hempty := Slab.isEmpty_of_pos (Slab.new_freeCnt T addr)
  have hwrite : (shape T idle busy).write (Slab.new T addr) = ⟨[], idle.map (Slab.new T),
      (busy.map (Slab.taken T)).map fun s => if s.addr = addr then Slab.new T addr else s⟩ :=
    congrArg (UntypedCache.mk [] · _) write_idle
  have hany : (((shape T idle busy).write (Slab.new T addr)).list .full).any
      (fun s => s.addr == addr) = true := by
    rw [hwrite, List.any_eq_true]
    refine ⟨Slab.new T addr, List.mem_map.mpr ⟨Slab.taken T addr, ?_, if_pos rfl⟩,
      beq_self_eq_true _⟩
    exact List.mem_map_of_mem hbusy
  unfold free
  simp only [fromElemPtr_firstSlot haddr]
  rw [Code.get_bind, find_busy hidle hbusy]
  simp only [hfull]
  rw [Code.bind_ok (Code.locally_ok (Slab.free_taken T addr)), Code.bind_ok (EStateM.run_modify ..)]
  simp only [hempty]
  rw [if_neg (by decide)]
  refine (Code.get_bind _ _).trans ?_
  simp only [if_true]
  rw [if_pos hany, Code.bind_ok (EStateM.run_modify ..)]
  refine (EStateM.run_modify ..).trans ?_
  simp only [hwrite, UntypedCache.list, UntypedCache.setList, eraseP_write hnodup]
  rfl

/-- A request that is refused: there was no idle slab, and no page for a new one. -/
theorem reserve_eq_none {s : Backed π}
    (h : (reserve pm T).run ⟨p, shape T idle busy⟩ = .ok none s) :
    idle = [] ∧ s.cache = shape T [] busy := by
  cases idle with
  | cons a idle => exact nomatch reserve_idle.symm.trans h
  | nil =>
      refine ⟨rfl, ?_⟩
      obtain ⟨o, s', hfind, -⟩ := Code.bind_eq_ok.mp h
      unfold findSlab at hfind
      rw [Code.get_bind] at hfind
      obtain ⟨o, s'', hphys, -⟩ := Code.bind_eq_ok.mp hfind
      obtain ⟨p', hbox, -⟩ := Code.zoom_eq_ok.mp hphys
      cases o with
      | none => cases (reserve_none hbox).symm.trans h; rfl
      | some a => exact nomatch (reserve_newBox hbox).symm.trans h

/-! ## Runs of a cache -/

/-- `reserve` goes to the page allocator. -/
def AsksForPage (c : UntypedCache) : Prop := c.partialSlabs = [] ∧ c.emptySlabs = []

/-- A run of a cache from `new`: the pages it was granted, the pointers that are out, and the
cache.  Other code may use the page allocator in between, so each call finds some physical
memory; what the cache is granted is a page it does not have. -/
inductive Run (T : Item) : List ℕ → List ℕ → UntypedCache → Prop
  | new : Run T [] [] .new
  | reserve {pages live : List ℕ} {c c' : UntypedCache} {π : Type} {pm : PhysMem π} {p p' : π}
      {ptr : ℕ} (before : Run T pages live c) (slab : ¬ AsksForPage c)
      (run : (Cache.reserve pm T).run ⟨p, c⟩ = .ok (some ptr) ⟨p', c'⟩) :
      Run T pages (ptr :: live) c'
  | grow {pages live : List ℕ} {c c' : UntypedCache} {π : Type} {pm : PhysMem π} {p p₁ p' : π}
      {ptr addr : ℕ} (before : Run T pages live c) (asks : AsksForPage c)
      (grant : (newBox pm).run p = .ok (some addr) p₁) (aligned : 4096 ∣ addr)
      (fresh : addr ∉ pages) (run : (Cache.reserve pm T).run ⟨p, c⟩ = .ok (some ptr) ⟨p', c'⟩) :
      Run T (addr :: pages) (ptr :: live) c'
  | refuse {pages live : List ℕ} {c c' : UntypedCache} {π : Type} {pm : PhysMem π} {p p' : π}
      (before : Run T pages live c)
      (run : (Cache.reserve pm T).run ⟨p, c⟩ = .ok none ⟨p', c'⟩) : Run T pages live c'
  | free {pages live : List ℕ} {c c' : UntypedCache} {ptr : ℕ} (before : Run T pages live c)
      (mem : ptr ∈ live) (run : (Cache.free T ptr).run c = .ok () c') :
      Run T pages (live.erase ptr) c'

/-- The pages of a cache are idle or busy, and a pointer is out for each busy one. -/
structure Holds (T : Item) (pages live idle busy : List ℕ) (c : UntypedCache) : Prop where
  cache_eq : c = shape T idle busy
  live_eq : live = busy.map (Slab.firstSlot T)
  mem_pages : ∀ a, a ∈ pages ↔ a ∈ idle ∨ a ∈ busy
  aligned : ∀ a ∈ pages, 4096 ∣ a
  nodup : (idle ++ busy).Nodup

theorem firstSlot_injective : Function.Injective (Slab.firstSlot T) := fun a b h => by
  simp only [Slab.firstSlot] at h
  omega

theorem Run.holds {pages live : List ℕ} {c : UntypedCache} (h : Run T pages live c) :
    ∃ idle busy, Holds T pages live idle busy c := by
  induction h with
  | new => exact ⟨[], [], rfl, rfl, by simp, by simp, by simp⟩
  | reserve before slab run ih =>
      obtain ⟨idle, busy, rfl, rfl, hpages, haligned, hnodup⟩ := ih
      cases idle with
      | nil => exact absurd ⟨rfl, rfl⟩ slab
      | cons a idle =>
          cases reserve_idle.symm.trans run
          refine ⟨idle, a :: busy, rfl, rfl, fun b => ?_, haligned, ?_⟩
          · rw [hpages, List.mem_cons, List.mem_cons, or_assoc, or_left_comm]
          · exact List.nodup_middle.mpr hnodup
  | grow before asks grant aligned fresh run ih =>
      obtain ⟨idle, busy, rfl, rfl, hpages, haligned, hnodup⟩ := ih
      obtain rfl : idle = [] := List.map_eq_nil_iff.mp asks.1
      cases (reserve_newBox grant).symm.trans run
      refine ⟨[], _ :: busy, rfl, rfl, fun b => ?_, ?_, ?_⟩
      · simp only [List.mem_cons, hpages, List.not_mem_nil, false_or]
      · exact List.forall_mem_cons.mpr ⟨aligned, haligned⟩
      · exact List.nodup_cons.mpr ⟨fun hmem => fresh ((hpages _).mpr (.inr hmem)), hnodup⟩
  | refuse before run ih =>
      obtain ⟨idle, busy, rfl, rfl, hpages, haligned, hnodup⟩ := ih
      obtain ⟨rfl, hcache⟩ := reserve_eq_none run
      exact ⟨[], busy, hcache, rfl, hpages, haligned, hnodup⟩
  | free before mem run ih =>
      obtain ⟨idle, busy, rfl, rfl, hpages, haligned, hnodup⟩ := ih
      obtain ⟨a, ha, rfl⟩ := List.mem_map.mp mem
      obtain ⟨hidle, hbusy, hdisj⟩ := List.nodup_append.mp hnodup
      have hnot : a ∉ idle := fun hmem => hdisj a hmem a ha rfl
      cases (free_busy (haligned a ((hpages a).mpr (.inr ha))) hnot ha hbusy).symm.trans run
      refine ⟨a :: idle, busy.erase a, rfl, ?_, fun b => ?_, haligned, ?_⟩
      · rw [List.map_erase firstSlot_injective]
      · rw [hpages, hbusy.mem_erase_iff, List.mem_cons]
        by_cases he : b = a
        · subst he; simp [ha]
        · simp [he]
      · have hperm := (List.perm_cons_erase ha).append_left idle
        exact List.nodup_middle.mp (hperm.nodup_iff.mp hnodup)

/-! ## Classification -/

/-- The slabs are on the lists they are named for. -/
structure Classified (T : Item) (c : UntypedCache) : Prop where
  full : ∀ slab ∈ c.fullSlabs, true ∉ Slab.map T slab
  partially : ∀ slab ∈ c.partialSlabs, true ∈ Slab.map T slab ∧ false ∈ Slab.map T slab
  empty : ∀ slab ∈ c.emptySlabs, false ∉ Slab.map T slab

/-- A page is asked for only when every slot of every slab is taken. -/
def AsksLast (T : Item) (c : UntypedCache) : Prop :=
  AsksForPage c → ∀ slab ∈ c.slabs, true ∉ Slab.map T slab

theorem map_new (addr : ℕ) :
    Slab.map T (Slab.new T addr) = List.replicate T.layout.slotsLen true := by
  rw [Slab.map, Slab.new, List.take_replicate, Nat.min_eq_left T.le_map]

/-- The second slot of a busy slab is free. -/
theorem true_mem_taken (addr : ℕ) : true ∈ Slab.map T (Slab.taken T addr) := by
  refine List.mem_iff_getElem?.mpr ⟨1, ?_⟩
  rw [Slab.map, List.getElem?_take_of_lt T.two_le]
  rfl

/-- In every state of every run, the slabs are classified, and a page is asked for only when
it must be, exactly if the cache was never granted a page. -/
theorem slab_lists_classified_iff {pages live : List ℕ} {c : UntypedCache}
    (h : Run T pages live c) : (Classified T c ∧ AsksLast T c) ↔ pages = [] := by
  obtain ⟨idle, busy, rfl, -, hpages, -⟩ := h.holds
  constructor
  · rintro ⟨hc, -⟩
    refine List.eq_nil_iff_forall_not_mem.mpr fun a ha => ?_
    rcases (hpages a).mp ha with hidle | hbusy
    · have hmem := (hc.partially _ (List.mem_map_of_mem hidle)).2
      rw [map_new] at hmem
      exact nomatch List.eq_of_mem_replicate hmem
    · exact hc.full _ (List.mem_map_of_mem hbusy) (true_mem_taken a)
  · rintro rfl
    obtain rfl : idle = [] := List.eq_nil_iff_forall_not_mem.mpr fun a ha =>
      List.not_mem_nil ((hpages a).mpr (.inl ha))
    obtain rfl : busy = [] := List.eq_nil_iff_forall_not_mem.mpr fun a ha =>
      List.not_mem_nil ((hpages a).mpr (.inr ha))
    exact ⟨⟨by simp [shape], by simp [shape], by simp [shape]⟩, by simp [AsksLast, shape,
      UntypedCache.slabs]⟩

/-- The first call, when no memory is left. -/
theorem slab_lists_classified_refused : ∃ c, Run (Item.bytes 0) [] [] c ∧
    Classified (Item.bytes 0) c ∧ AsksLast (Item.bytes 0) c := by
  have hrefused : (newBox ⟨fun _ _ => pure none, fun _ => pure ()⟩).run () = .ok none () := by
    decide +kernel
  have hnew : Run (Item.bytes 0) [] [] (shape (Item.bytes 0) [] []) := .new
  have hrun : Run (Item.bytes 0) [] [] (shape (Item.bytes 0) [] []) :=
    .refuse hnew (reserve_none hrefused)
  exact ⟨_, hrun, (slab_lists_classified_iff hrun).mpr rfl⟩

/-- One slot of eight bytes is out. -/
theorem run_oneSlot : Run (Item.bytes 0) [0xFFFF888000200000]
    [Slab.firstSlot (Item.bytes 0) 0xFFFF888000200000]
    (shape (Item.bytes 0) [] [0xFFFF888000200000]) := by
  have hgrant : (newBox ⟨fun _ _ => pure (some ⟨⟨⟨0x200000⟩, .small, by decide⟩, 1⟩),
      fun _ => pure ()⟩).run () = .ok (some 0xFFFF888000200000) () := by
    decide +kernel
  have hnew : Run (Item.bytes 0) [] [] (shape (Item.bytes 0) [] []) := .new
  exact .grow hnew ⟨rfl, rfl⟩ hgrant (by decide) List.not_mem_nil (reserve_newBox hgrant)

/-- Its slab is on the full list with free slots, and the next request asks for another page. -/
theorem slab_full_with_free_slots : ∃ pages live c, Run (Item.bytes 0) pages live c ∧
    AsksForPage c ∧ ∃ slab ∈ c.fullSlabs, true ∈ Slab.map (Item.bytes 0) slab :=
  ⟨_, _, _, run_oneSlot, ⟨rfl, rfl⟩, Slab.taken (Item.bytes 0) 0xFFFF888000200000,
    List.mem_singleton_self _, true_mem_taken _⟩

/-! ## Membership -/

/-- The pages of the slabs on a list. -/
def pagesOn (c : UntypedCache) (level : SlabFillLevel) : List ℕ :=
  (c.list level).map UntypedSlab.addr

@[simp] theorem pagesOn_shape_partially : pagesOn (shape T idle busy) .partially = idle := by
  rw [pagesOn, UntypedCache.list, shape, List.map_map]
  exact List.map_id idle

@[simp] theorem pagesOn_shape_full : pagesOn (shape T idle busy) .full = busy := by
  rw [pagesOn, UntypedCache.list, shape, List.map_map]
  exact List.map_id busy

/-- A page that is idle or busy, and not both, is on one list. -/
theorem existsUnique_level (hnodup : (idle ++ busy).Nodup) (h : addr ∈ idle ∨ addr ∈ busy) :
    ∃! level, addr ∈ pagesOn (shape T idle busy) level := by
  have hdisj := (List.nodup_append.mp hnodup).2.2
  rcases h with hidle | hbusy
  · refine ⟨.partially, by simpa using hidle, fun level hlevel => ?_⟩
    cases level with
    | empty => exact absurd hlevel List.not_mem_nil
    | partially => rfl
    | full => exact absurd rfl (hdisj addr hidle addr (by simpa using hlevel))
  · refine ⟨.full, by simpa using hbusy, fun level hlevel => ?_⟩
    cases level with
    | empty => exact absurd hlevel List.not_mem_nil
    | partially => exact absurd rfl (hdisj addr (by simpa using hlevel) addr hbusy)
    | full => rfl

/-- In every state of every run each slab that was created is on one list, once, and freeing a
pointer that is out opens the list its slab is on. -/
theorem slab_on_one_list {pages live : List ℕ} {c : UntypedCache} (h : Run T pages live c) :
    (∀ addr ∈ pages, ∃! level, addr ∈ pagesOn c level) ∧ (∀ level, (pagesOn c level).Nodup) ∧
      ∀ ptr ∈ live, (∃ c', (free T ptr).run c = .ok () c') ∧
        ∃ slab slab', (Slab.free T ptr).run slab = .ok () slab' ∧
          c.slabs.find? (fun s => s.addr == Slab.fromElemPtr ptr) = some slab ∧
            (slab'.isEmpty ∨ slab.isFull →
              slab ∈ c.list (if slab.isFull then .full else .partially)) := by
  obtain ⟨idle, busy, rfl, rfl, hpages, haligned, hnodup⟩ := h.holds
  obtain ⟨hidle, hbusy, hdisj⟩ := List.nodup_append.mp hnodup
  refine ⟨fun a ha => existsUnique_level hnodup ((hpages a).mp ha), fun level => ?_, ?_⟩
  · cases level with
    | empty => exact List.nodup_nil
    | partially => simpa using hidle
    | full => simpa using hbusy
  · intro ptr hptr
    obtain ⟨a, ha, rfl⟩ := List.mem_map.mp hptr
    have hpage := haligned a ((hpages a).mpr (.inr ha))
    have hnot : a ∉ idle := fun hmem => hdisj a hmem a ha rfl
    refine ⟨⟨_, free_busy hpage hnot ha hbusy⟩, Slab.taken T a, Slab.new T a,
      Slab.free_taken T a, ?_, fun _ => ?_⟩
    · rw [fromElemPtr_firstSlot hpage]
      exact find_busy hnot ha
    · rw [if_pos (Slab.isFull_of_pos (Slab.taken_freeCnt T a))]
      exact List.mem_map_of_mem ha

theorem slab_on_one_list_oneSlot : ∃ c, Run (Item.bytes 0) [0xFFFF888000200000]
    [Slab.firstSlot (Item.bytes 0) 0xFFFF888000200000] c ∧
    (∃! level, 0xFFFF888000200000 ∈ pagesOn c level) ∧
    (∃ c', (free (Item.bytes 0) (Slab.firstSlot (Item.bytes 0) 0xFFFF888000200000)).run c
      = .ok () c') ∧
    ∃ slab, c.slabs.find? (fun s => s.addr ==
      Slab.fromElemPtr (Slab.firstSlot (Item.bytes 0) 0xFFFF888000200000)) = some slab ∧
      slab ∈ c.list .full := by
  obtain ⟨hone, -, hfree⟩ := slab_on_one_list run_oneSlot
  obtain ⟨hreturns, slab, slab', -, hfind, hlist⟩ := hfree _ (List.mem_singleton_self _)
  have hfull : slab.isFull := by
    have hbusy := find_busy (T := Item.bytes 0) (List.not_mem_nil (a := 0xFFFF888000200000))
      (List.mem_singleton_self _)
    rw [fromElemPtr_firstSlot (by decide), hbusy] at hfind
    cases hfind
    exact Slab.isFull_of_pos (Slab.taken_freeCnt _ _)
  refine ⟨_, run_oneSlot, hone _ (List.mem_singleton_self _), hreturns, slab, hfind, ?_⟩
  have hmem := hlist (.inr hfull)
  rwa [if_pos hfull] at hmem

end Cache

end Koe
