/-
# `KoeOs.Paging.Spaces` — many maps, one memory

The memory manager has a current map; others are created with `new`, changed with `map`,
exchanged with the current one by `swap`, and dropped.  They all live in one memory, and
share the tables of the kernel's half:

    new     copies the upper 256 entries of the current map's table
    map     for a page of the kernel: writes below these entries, in the shared tables
    swap    exchanges the current map
    drop    frees the tables below the lower 256 entries

`init` fills all 256 upper entries, so `map` finds a table at each of them and never writes
them: whatever is done for the kernel's half through one map is seen through all
(`kernel_half_shared`).  This needs the frames of new tables to be empty.  `map` takes them
as they are, and an old entry in one that leads to the table of a map is enough to have `map`
overwrite an upper entry of that map alone (`stale_frame_splits`).
-/
import KoeOs.Paging.Supply
import Mathlib.Logic.Relation

namespace Koe

open TableTree

/-- The table of the map. -/
def MemoryMap.root (m : MemoryMap) : ℕ := Entry.field m.cr3

/-- The word of a map is the address of its table, without flags. -/
theorem MemoryMap.root_mk {a : ℕ} (h : IsFrame a) (frames : List ℕ) :
    (⟨a, frames⟩ : MemoryMap).root = a := Entry.field_frame h.1 h.2

/-! ## The maps, and what is done with them -/

/-- The maps, and the memory they share.  The first map is the one the memory manager has. -/
structure World (π : Type) where
  maps : List MemoryMap
  tables : Tables
  phys : π
  /-- The frames passed to `PageAllocator.deallocate`. -/
  freed : List ℕ

namespace World

variable {π : Type}

/-- The machine, as the code of the map `m` sees it. -/
def machine (w : World π) (m : MemoryMap) : Machine π :=
  ⟨m.cr3, m.frames, w.tables, w.phys, w.freed⟩

/-- The maps, with the memory as some code has left it. -/
def after (maps : List MemoryMap) (s : Machine π) : World π := ⟨maps, s.tables, s.phys, s.freed⟩

/-- One operation.  Only those calls of `map` and `drop` are made that `mayMap` and `mayDrop`
admit. -/
inductive Step (pm : PhysMem π) (mayMap : World π → MemoryMap → MapCall → FrameAlloc π → Prop)
    (mayDrop : World π → MemoryMap → Prop) : World π → World π → Prop
  | new {w : World π} {cur m : MemoryMap} {l : List MemoryMap} {s : Machine π}
      (hmaps : w.maps = cur :: l) (hrun : (MemoryMap.new pm).run (w.machine cur) = .ok m s) :
      Step pm mayMap mayDrop w (after (w.maps ++ [m]) s)
  | map {w : World π} {m : MemoryMap} {l l' : List MemoryMap} {c : MapCall} {alloc : FrameAlloc π}
      {s : Machine π} (hmaps : w.maps = l ++ m :: l') (hmay : mayMap w m c alloc)
      (hrun : (MemoryMap.map alloc c.vpage c.ppage c.flags).run (w.machine m)
        = .ok (some ()) s) :
      Step pm mayMap mayDrop w (after (l ++ ⟨s.cr3, s.frames⟩ :: l') s)
  | swap {w : World π} {cur m : MemoryMap} {l l' : List MemoryMap}
      (hmaps : w.maps = cur :: (l ++ m :: l')) :
      Step pm mayMap mayDrop w { w with maps := m :: (l ++ cur :: l') }
  | drop {w : World π} {cur m : MemoryMap} {l l' : List MemoryMap} {s : Machine π}
      (hmaps : w.maps = cur :: (l ++ m :: l')) (hmay : mayDrop w m)
      (hrun : (MemoryMap.drop pm).run (w.machine m) = .ok () s) :
      Step pm mayMap mayDrop w (after (cur :: (l ++ l')) s)

/-- `init` has built the first map. -/
def Starts (st : Statics) (bmm : MemblockSystem) (w : World π) : Prop :=
  bmm.managedRange.size ≤ uma.stop ∧ ∃ s s' map, MemoryManager.Zeroed st s.tables ∧
    (MemoryManager.init st bmm).run s = .ok map s' ∧ w = after [map] s'

theorem Starts.rounds {st : Statics} {bmm : MemblockSystem} {w : World π} (h : Starts st bmm w) :
    w.maps = [⟨st.pml4, []⟩] ∧ ∃ last ≤ 127, ∃ tables₀,
      MemoryManager.Rounds st last 256 tables₀ w.tables ∧ MemoryManager.Zeroed st tables₀ := by
  obtain ⟨hle, s, s', map, hzero, hrun, rfl⟩ := h
  rcases Nat.eq_zero_or_pos bmm.managedRange.size with hnone | hpos
  · obtain ⟨q, s₁, herror⟩ := MemoryManager.init_error st hnone s
    exact nomatch herror.symm.trans hrun
  · obtain ⟨tables, hok, hrounds⟩ := MemoryManager.init_run st bmm hpos hle s hzero
    cases hok.symm.trans hrun
    exact ⟨rfl, _, MemoryManager.lastSlot_le hle, s.tables, hrounds, hzero⟩

end World

/-! ## The kernel's half -/

/-- The maps with the tables `R` share the kernel's half that `init` built: their upper entries are
those `init` wrote, the tables below them form a tree, and no map's table is in it. -/
structure Shared (st : Statics) (out : List Extent) (tables : Tables) (R : List ℕ) : Prop where
  frame : ∀ r ∈ R, IsFrame r
  upper : ∀ r ∈ R, ∀ i : Fin tableLen, 256 ≤ i.val →
    tables r i = Entry.link (st.pdpt (i.val - 256))
  half : ∀ r ∈ R, Half st out tables r upperKeys
  off : ∀ r ∈ R, ∀ r' ∈ R, ∀ k ∈ upperKeys, ∀ d, tableAt next tables r k (d + 1) ≠ some r'

namespace Shared

variable {π : Type} {Out : π → List Extent → Prop} {pm : PhysMem π} {p : π} {st : Statics}
  {out : List Extent} {tables : Tables} {R : List ℕ} {r r' : ℕ}

theorem of_subset {R' : List ℕ} (h : Shared st out tables R) (hsub : ∀ r ∈ R', r ∈ R) :
    Shared st out tables R' :=
  ⟨fun r hr => h.frame r (hsub r hr), fun r hr => h.upper r (hsub r hr),
    fun r hr => h.half r (hsub r hr), fun r hr r' hr' => h.off r (hsub r hr) r' (hsub r' hr')⟩

theorem taken (h : Shared st out tables R) (hr : r ∈ R) : Taken st out r :=
  (h.half r hr).taken (fun _ => 256) (Nat.le_refl 256) 0 r rfl

/-- Two maps have the same entries at the top. -/
theorem same (h : Shared st out tables R) (hr : r ∈ R) (hr' : r' ∈ R) {k : ℕ → Fin tableLen}
    (hk : k ∈ upperKeys) : tables r (k 0) = tables r' (k 0) :=
  (h.upper r hr (k 0) hk).trans (h.upper r' hr' (k 0) hk).symm

/-- What `init` builds. -/
theorem init {last : ℕ} (hlast : last ≤ 127) {tables₀ : Tables}
    (h : MemoryManager.Rounds st last 256 tables₀ tables) (out : List Extent) :
    Shared st out tables [st.pml4] := by
  have hstatic : ∀ k ∈ upperKeys, ∀ d t, tableAt next tables st.pml4 k d = some t →
      t < Statics.frame st.kernelEnd := by
    intro k hk d t ht
    obtain ⟨i, hi⟩ := Nat.exists_eq_add_of_le' hk
    rcases h.upper_tableAt hlast hi ht with ⟨-, rfl⟩ | ⟨-, rfl⟩ | ⟨-, rfl, -⟩
    · exact st.pml4_lt
    · exact st.pdpt_lt (h.upper_link hi).1
    · exact st.pd_lt
  have hhalf : Half st out tables st.pml4 upperKeys := by
    refine ⟨h.upper_apart hlast, fun k hk d e he => ?_,
      fun k hk d t ht => .inl (hstatic k hk d t ht)⟩
    obtain ⟨i, hi⟩ := Nat.exists_eq_add_of_le' hk
    exact h.upper_inSpace hlast hi he
  constructor
  · intro r hr
    rw [List.mem_singleton.mp hr]
    exact st.pml4_isFrame
  · intro r hr i hi
    rw [List.mem_singleton.mp hr]
    exact h.upper _ (by have : i.val < 512 := i.isLt; omega) i (by omega)
  · intro r hr
    rw [List.mem_singleton.mp hr]
    exact hhalf
  · intro r hr r' hr' k hk d ht
    rw [List.mem_singleton.mp hr, List.mem_singleton.mp hr'] at ht
    exact absurd (hhalf.apart hk hk ht rfl).1 (Nat.succ_ne_zero d)

open MemoryMap in
/-- `new` adds a map. -/
theorem new (h : Shared st out tables R) (hpm : pm.Lawful Out) (habove : AboveKernel st Out)
    {a size cur : ℕ} (hcur : cur ∈ R) (hframe : IsFrame a) (hsize : tableAlignment ≤ size)
    (hout : Out p (⟨a, size⟩ :: out)) :
    Shared st (⟨a, size⟩ :: out) (newTables tables a size cur) (a :: R) := by
  have hkeep : ∀ t, Taken st out t → newTables tables a size cur t = tables t := fun t ht =>
    newTables_of_not_mem hsize (ht.not_mem_new hpm habove hout)
  have hmono : ∀ t, Taken st out t → Taken st ([⟨a, size⟩] ++ out) t := fun _ => Taken.mono
  have htaken : Taken st (⟨a, size⟩ :: out) a := .inr ⟨_, List.mem_cons_self, rfl, hsize⟩
  have hout' : Out p ([⟨a, size⟩] ++ out) := hout
  have hfree : ¬ Taken st out a := not_taken_of_new hpm habove hout' List.mem_cons_self
  have hsame : ∀ r ∈ R, ∀ k ∈ upperKeys, ∀ d t, tableAt next tables r k d = some t →
      newTables tables a size cur t = tables t := fun r hr k hk d t ht =>
    hkeep t ((h.half r hr).taken k hk d t ht)
  have hhalf : ∀ r ∈ R, Half st (⟨a, size⟩ :: out) (newTables tables a size cur) r upperKeys :=
    fun r hr => ((h.half r hr).frame (hsame r hr)).mono fun _ _ _ t _ => hmono t
  have hupper : ∀ i : Fin tableLen, 256 ≤ i.val →
      newTables tables a size cur a i = tables cur i := fun i hi =>
    newTables_upper ((h.taken hcur).not_mem_new hpm habove hout) hi
  have htop : ∀ k ∈ upperKeys, newTables tables a size cur cur (k 0)
      = newTables tables a size cur a (k 0) := fun k hk => by
    rw [hupper (k 0) hk, hkeep cur (h.taken hcur)]
  have hoff : ∀ r ∈ R, ∀ r' ∈ a :: R, ∀ k ∈ upperKeys, ∀ d,
      tableAt next (newTables tables a size cur) r k (d + 1) ≠ some r' := by
    intro r hr r' hr' k hk d ht
    rw [tableAt_frame (hsame r hr k hk)] at ht
    rcases List.mem_cons.mp hr' with rfl | hr'
    · exact hfree ((h.half r hr).taken k hk _ _ ht)
    · exact h.off r hr r' hr' k hk d ht
  constructor
  · exact List.forall_mem_cons.mpr ⟨hframe, h.frame⟩
  · refine List.forall_mem_cons.mpr ⟨fun i hi => ?_, fun r hr i hi => ?_⟩
    · rw [hupper i hi, h.upper cur hcur i hi]
    · rw [hkeep r (h.taken hr), h.upper r hr i hi]
  · refine List.forall_mem_cons.mpr ⟨(hhalf cur hcur).of_root htaken htop ?_, hhalf⟩
    exact hoff cur hcur a List.mem_cons_self
  · refine List.forall_mem_cons.mpr ⟨fun r' hr' k hk d ht => ?_, hoff⟩
    exact hoff cur hcur r' hr' k hk d ((tableAt_root (htop k hk)).trans ht)

section Map

variable {S : AddrSpace} {s s' : Machine π} {vpage : PageAddr S} {ppage : PageAddr uma}
  {flags : List Flag} {alloc : FrameAlloc π} {fs : List ℕ} {grown : Tables} {t raw : ℕ}
  {bs : List Extent} (h : Shared st out s.tables R) (hroot : Entry.field s.cr3 ∈ R)
  (hk : key vpage.base.value ∈ upperKeys)
  (hmaps : MemoryMap.Maps alloc s upperKeys vpage ppage flags fs grown t raw s')
  (hfs : ∀ f ∈ fs, IsFrame f ∧ ¬ Taken st out f ∧ Held (bs ++ out) f)
include h hroot hk hmaps hfs

/-- `map` for a page of the kernel writes to no map's own table: the way of the page goes through
the table of one map, where it finds the next table, and through no other. -/
theorem map_untouched (hr : r ∈ R) : s'.tables r = s.tables r := by
  refine hmaps.untouched hk (fun hf => (hfs r hf).2.1 (h.taken hr)) (fun j _ hj => ?_) ?_
  · cases j with
    | zero =>
        cases hj
        have hlt : (key vpage.base.value 0).val - 256 < 256 := by
          have : (key vpage.base.value 0).val < 512 := (key vpage.base.value 0).isLt
          omega
        rw [h.upper _ hr _ hk, next_link (by decide) (st.pdpt_isFrame hlt)]
        exact Option.some_ne_none _
    | succ j => exact absurd hj (h.off _ hroot r hr _ hk j)
  · cases hsize : vpage.pageSize <;> exact h.off _ hroot r hr _ hk _

/-- So all maps stay as they are at the top, and see what `map` has done. -/
theorem map (hal : vpage.pageSize.align ∣ ppage.base.value) (hp : ppage.base.value < uma.stop) :
    Shared st (bs ++ out) s'.tables R := by
  have hkeep : ∀ r ∈ R, s'.tables r = s.tables r := fun r hr =>
    h.map_untouched hroot hk hmaps hfs hr
  have hsame : ∀ r ∈ R, ∀ k ∈ upperKeys,
      s'.tables (Entry.field s.cr3) (k 0) = s'.tables r (k 0) := fun r hr k hk' => by
    rw [hkeep _ hroot, hkeep r hr, h.same hroot hr hk']
  have hoff : ∀ r ∈ R, ∀ k ∈ upperKeys, ∀ d,
      tableAt next s'.tables (Entry.field s.cr3) k (d + 1) ≠ some r := by
    intro r hr k hk' d ht
    rcases hmaps.tableAt_cases hal hp hk hk' ht with hold | hnew
    · exact h.off _ hroot r hr k hk' d hold
    · exact (hfs r hnew).2.1 (h.taken hr)
  have hhalf := hmaps.half hal hp hk (h.half _ hroot)
    (fun f hf => ⟨(hfs f hf).1, .inr (hfs f hf).2.2⟩) fun _ => Taken.mono
  constructor
  · exact h.frame
  · intro r hr i hi
    rw [hkeep r hr, h.upper r hr i hi]
  · intro r hr
    exact hhalf.of_root (h.taken hr).mono (hsame r hr) (hoff r hr)
  · intro r hr r' hr' k hk' d ht
    exact hoff r' hr' k hk' d ((tableAt_root (hsame r hr k hk')).trans ht)

end Map

/-- One result of `translate`, whatever the map. -/
theorem translate (h : Shared st out tables R) {S : AddrSpace} (vaddr : Addr S)
    (hk : key vaddr.value ∈ upperKeys) : ∃ res, ∀ s : Machine π, s.tables = tables →
      Entry.field s.cr3 ∈ R → (MemoryMap.translate vaddr).run s = .ok res s := by
  rcases R with _ | ⟨r, R⟩
  · exact ⟨none, fun _ _ hr => nomatch hr⟩
  obtain ⟨d, e, -, hstop⟩ := way_stops tables r (key vaddr.value)
  refine ⟨_, fun s hs hr => MemoryMap.translate_run (d := d) (e := e) (h.frame _ hr).2 ?_ ?_⟩
  · intro k hk'
    cases hk'
    rw [hs]
    exact (h.half _ hr).inside _ hk
  · rw [hs]
    exact ⟨(entryAt_root (h.same hr List.mem_cons_self hk)).trans hstop.1, hstop.2⟩

end Shared

/-! ## Runs -/

namespace World

variable {π : Type} {Out : π → List Extent → Prop} {pm : PhysMem π} {st : Statics}
  {bmm : MemblockSystem} {w w₀ w' : World π}

/-- A call of `map` for a page of the kernel's half. -/
structure KernelCall (Out : π → List Extent → Prop) (c : MapCall) (alloc : FrameAlloc π) :
    Prop where
  kernel : 2 ^ 64 - 2 ^ 47 ≤ c.vpage.base.value ∧ c.vpage.base.value < 2 ^ 64
  inside : c.ppage.base.value < uma.stop
  supplies : Supplies alloc Out

/-- The call puts no table into the tree but empty ones: a large page is flagged as one, and the
frames for new tables are filled with zeros. -/
structure Clean (w : World π) (m : MemoryMap) (c : MapCall) (alloc : FrameAlloc π) : Prop where
  flags : .present ∈ c.flags → c.vpage.pageSize ≠ .small → .pageSize ∈ c.flags
  empty : HandsZero alloc w.phys (missing next w.tables m.root (key c.vpage.base.value)
    c.vpage.pageSize.depth) w.tables

/-- `new`, `swap`, and clean calls of `map` for pages of the kernel's half. -/
abbrev KernelStep (pm : PhysMem π) (Out : π → List Extent → Prop) : World π → World π → Prop :=
  Step pm (fun w m c alloc => KernelCall Out c alloc ∧ w.Clean m c alloc) fun _ _ => False

/-- All maps share the kernel's half. -/
def Sharing (st : Statics) (Out : π → List Extent → Prop) (w : World π) : Prop :=
  ∃ out, Out w.phys out ∧ Shared st out w.tables (w.maps.map MemoryMap.root)

theorem Starts.sharing (h : Starts st bmm w) {out : List Extent} (hout : Out w.phys out) :
    w.Sharing st Out := by
  obtain ⟨hmaps, last, hlast, tables₀, hrounds, -⟩ := h.rounds
  have hroot : w.maps.map MemoryMap.root = [st.pml4] := by
    rw [hmaps, List.map_singleton, MemoryMap.root_mk st.pml4_isFrame]
  exact ⟨out, hout, hroot ▸ Shared.init hlast hrounds out⟩

theorem Sharing.step (hpm : pm.Lawful Out) (habove : AboveKernel st Out) (h : w.Sharing st Out)
    (hstep : KernelStep pm Out w w') : w'.Sharing st Out := by
  obtain ⟨out, hout, hshared⟩ := h
  cases hstep with
  | @new cur m l s hmaps hrun =>
      have hcur : cur.root ∈ w.maps.map MemoryMap.root :=
        List.mem_map_of_mem (hmaps ▸ List.mem_cons_self)
      obtain ⟨a, size, p, rfl, hframe, hsize, hout', rfl⟩ :=
        MemoryMap.new_eq_ok (s := w.machine cur) hpm (hshared.frame _ hcur).2 hout hrun
      refine ⟨_, hout', (hshared.new hpm habove hcur hframe hsize hout').of_subset ?_⟩
      intro r hr
      rw [after, List.map_append, List.mem_append, List.map_singleton, List.mem_singleton,
        MemoryMap.root_mk hframe] at hr
      exact List.mem_cons.mpr hr.symm
  | @map m l l' c alloc s hmaps hmay hrun =>
      obtain ⟨hcall, hclean⟩ := hmay
      have hroot : m.root ∈ w.maps.map MemoryMap.root :=
        List.mem_map_of_mem (hmaps ▸ List.mem_append_right _ List.mem_cons_self)
      have hk := key_upper hcall.kernel.1 hcall.kernel.2
      obtain ⟨fs, grown, t, raw, bs, hdone, hal, -, hfs, hout'⟩ := MemoryMap.map_half
        (s := w.machine m) hpm habove hcall.supplies hout (hshared.half _ hroot) hk
        (hshared.frame _ hroot).2 hclean.flags hclean.empty hrun
      have hshared' := Shared.map (s := w.machine m) hshared hroot hk hdone hfs hal hcall.inside
      refine ⟨_, hout', ?_⟩
      have hcr3 : s.cr3 = m.cr3 := hdone.cr3_eq
      rw [hmaps, List.map_append, List.map_cons] at hshared'
      rw [after, hcr3, List.map_append, List.map_cons]
      exact hshared'
  | @swap cur m l l' hmaps =>
      refine ⟨out, hout, hshared.of_subset fun r hr => ?_⟩
      rw [hmaps]
      simp only [List.map_cons, List.map_append, List.mem_cons, List.mem_append] at hr ⊢
      rcases hr with rfl | hl | rfl | hl'
      · exact .inr (.inr (.inl rfl))
      · exact .inr (.inl hl)
      · exact .inl rfl
      · exact .inr (.inr (.inr hl'))
  | drop _ hmay => exact hmay.elim

theorem Sharing.run (hpm : pm.Lawful Out) (habove : AboveKernel st Out) (h : w₀.Sharing st Out)
    (hrun : Relation.ReflTransGen (KernelStep pm Out) w₀ w) : w.Sharing st Out := by
  induction hrun with
  | refl => exact h
  | tail _ hstep ih => exact ih.step hpm habove hstep

/-- At every point of a run, the upper entries of all maps are those `init` wrote, and `translate`
gives the same result in all maps for every address of the kernel's half. -/
theorem kernel_half_shared (hpm : pm.Lawful Out) (habove : AboveKernel st Out)
    (hstart : Starts st bmm w₀) {out : List Extent} (hout : Out w₀.phys out)
    (hrun : Relation.ReflTransGen (KernelStep pm Out) w₀ w) :
    (∀ m ∈ w.maps, ∀ i : Fin tableLen, 256 ≤ i.val → w.tables m.root i = w₀.tables st.pml4 i) ∧
    ∀ (S : AddrSpace) (vaddr : Addr S), 2 ^ 64 - 2 ^ 47 ≤ vaddr.value → vaddr.value < 2 ^ 64 →
      ∃ res, ∀ m ∈ w.maps,
        (MemoryMap.translate vaddr).run (w.machine m) = .ok res (w.machine m) := by
  obtain ⟨out', -, hshared⟩ := (hstart.sharing hout).run hpm habove hrun
  constructor
  · intro m hm i hi
    obtain ⟨-, last, hlast, tables₀, hrounds, -⟩ := hstart.rounds
    have hinit := Shared.init hlast hrounds out
    rw [hinit.upper _ List.mem_cons_self i hi]
    exact hshared.upper _ (List.mem_map_of_mem hm) i hi
  · intro S vaddr hle hlt
    obtain ⟨res, hres⟩ := hshared.translate (π := π) vaddr (key_upper hle hlt)
    exact ⟨res, fun m hm => hres _ rfl (List.mem_map_of_mem hm)⟩

/-! ## A kernel of 4 MiB -/

open MemoryManager (fourMiB managing)

theorem fourMiB_end : Statics.frame fourMiB.kernelEnd = 0x400000 := by
  rw [Statics.frame_eq]
  rfl

theorem fourMiB_pml4_lt : fourMiB.pml4 < 0x400000 := fourMiB_end ▸ fourMiB.pml4_lt

theorem fourMiB_pdpt_lt {i : ℕ} (hi : i < 256) : fourMiB.pdpt i < 0x400000 :=
  fourMiB_end ▸ fourMiB.pdpt_lt hi

theorem fourMiB_root : (⟨fourMiB.pml4, []⟩ : MemoryMap).root = fourMiB.pml4 :=
  MemoryMap.root_mk fourMiB.pml4_isFrame []

/-- `init` has returned, with `tables` the memory before, and the allocator has four pages. -/
structure Booted (tables : Tables) (w : World (List ℕ)) : Prop where
  starts : Starts fourMiB (managing 0x400000 (2 ^ 30)) w
  maps : w.maps = [⟨fourMiB.pml4, []⟩]
  phys : w.phys = [0x400, 0x401, 0x402, 0x403]
  freed : w.freed = []
  rounds : MemoryManager.Rounds fourMiB 0 256 tables w.tables

theorem exists_booted (tables : Tables) (hzero : MemoryManager.Zeroed fourMiB tables) :
    ∃ w, Booted tables w := by
  obtain ⟨tables', hrun, hrounds⟩ := MemoryManager.init_run fourMiB (managing 0x400000 (2 ^ 30))
    (by decide) (by decide) (⟨0, [], tables, [0x400, 0x401, 0x402, 0x403], []⟩ : Machine _) hzero
  exact ⟨_, ⟨by decide, _, _, _, hzero, hrun, rfl⟩, rfl, rfl, rfl, hrounds⟩

/-- The map that `new` creates then. -/
def secondMap : MemoryMap := ⟨0x400000, [0x400000]⟩

/-- The state after `new`. -/
def twoMaps (w : World (List ℕ)) : World (List ℕ) where
  maps := [⟨fourMiB.pml4, []⟩, secondMap]
  tables := MemoryMap.newTables w.tables 0x400000 4096 fourMiB.pml4
  phys := [0x401, 0x402, 0x403]
  freed := w.freed

/-- `new` writes to its own table only. -/
theorem twoMaps_tables {w : World (List ℕ)} {t : ℕ} (ht : t < 0x400000 ∨ 0x401000 ≤ t) :
    w.twoMaps.tables t = w.tables t :=
  MemoryMap.newTables_of_not_mem (by decide) (by omega)

namespace Booted

variable {tables : Tables} {w : World (List ℕ)} (h : Booted tables w)
include h

theorem out : StackOut w.phys [] := h.phys ▸ .start (by decide) (by decide)

theorem new {mayMap : World (List ℕ) → MemoryMap → MapCall → FrameAlloc (List ℕ) → Prop}
    {mayDrop : World (List ℕ) → MemoryMap → Prop} : Step stackMem mayMap mayDrop w w.twoMaps := by
  have hroot : Entry.field (w.machine ⟨fourMiB.pml4, []⟩).cr3 = fourMiB.pml4 := fourMiB_root
  have halloc : (PageAllocator.allocatePhys stackMem PageSize.small.layout).run
      (w.machine ⟨fourMiB.pml4, []⟩).phys
      = .ok (some ⟨⟨0x400 * 4096⟩, 4096⟩) [0x401, 0x402, 0x403] := by
    rw [machine, h.phys]
    exact stackMem_run 0x400 _
  have hcr3 : Entry.field (w.machine ⟨fourMiB.pml4, []⟩).cr3 < uma.stop := by
    rw [hroot]
    exact fourMiB.pml4_isFrame.2
  have hnew := MemoryMap.new_run hcr3 ⟨by decide, by decide⟩ halloc
  rw [hroot] at hnew
  have hstep : Step stackMem mayMap mayDrop w _ := .new h.maps hnew
  rw [h.maps] at hstep
  exact hstep

omit h in
/-- If all memory was zero, so are the frames that are left. -/
theorem handsZero (h : Booted (fun _ _ => 0) w) (n : ℕ) :
    HandsZero (PageAllocator.allocatePhys stackMem) w.twoMaps.phys n w.twoMaps.tables := by
  intro fs p' hhands _ f hf i
  obtain ⟨ns, hphys, rfl⟩ := stackMem_hands hhands
  obtain ⟨n, hn, rfl⟩ := List.mem_map.mp hf
  have hns : [0x401, 0x402, 0x403] = ns ++ p' := hphys
  have hle : 0x401 ≤ n := (by decide : ∀ n ∈ [0x401, 0x402, 0x403], 0x401 ≤ n) n
    (hns ▸ List.mem_append_left _ hn)
  rw [twoMaps_tables (by omega), h.rounds.above (by rw [fourMiB_end]; omega)]

end Booted

/-- A call for a page of a kernel stack. -/
def stackPageCall : MapCall :=
  ⟨dataStack, ⟨⟨0xFFFFC9000012C000⟩, .small, by decide⟩, ⟨⟨0x500000⟩, .small, by decide⟩,
    [.present, .readWrite]⟩

theorem stackPageCall_kernel :
    KernelCall StackOut stackPageCall (PageAllocator.allocatePhys stackMem) :=
  ⟨by decide, by decide, PageAllocator.supplies stackMem_lawful⟩

/-- With all memory zero: `init`, `new`, and a page of a stack mapped through the second map. -/
theorem kernel_half_shared_dataStack : ∃ w₀ w : World (List ℕ),
    Starts fourMiB (managing 0x400000 (2 ^ 30)) w₀ ∧
    Relation.ReflTransGen (KernelStep stackMem StackOut) w₀ w ∧ w.maps.length = 2 ∧
    ∀ m ∈ w.maps, ∀ i : Fin tableLen, 256 ≤ i.val →
      w.tables m.root i = w₀.tables fourMiB.pml4 i := by
  obtain ⟨w₀, hboot⟩ := exists_booted (fun _ _ => 0) fun _ _ _ => rfl
  obtain ⟨out, hout, hshared⟩ := (hboot.starts.sharing hboot.out).step stackMem_lawful
    aboveKernel_stackOut hboot.new
  have hroot : secondMap.root ∈ w₀.twoMaps.maps.map MemoryMap.root :=
    List.mem_map_of_mem (List.mem_cons_of_mem _ List.mem_cons_self)
  obtain ⟨s, hrun⟩ : ∃ s, (MemoryMap.map (PageAllocator.allocatePhys stackMem) stackPageCall.vpage
      stackPageCall.ppage stackPageCall.flags).run (w₀.twoMaps.machine secondMap)
        = .ok (some ()) s :=
    MemoryMap.exists_map stackMem_lawful aboveKernel_stackOut
      (PageAllocator.supplies stackMem_lawful) hout (hshared.half _ hroot)
      (key_upper (by decide) (by decide)) (hshared.frame _ hroot).2 rfl
      (fun _ h => absurd rfl h) (hboot.handsZero _) (stackMem_not_fails missing_le)
  have hmap : KernelStep stackMem StackOut w₀.twoMaps
      (after ([⟨fourMiB.pml4, []⟩] ++ [⟨s.cr3, s.frames⟩]) s) :=
    .map rfl ⟨stackPageCall_kernel, fun _ h => absurd rfl h, hboot.handsZero _⟩ hrun
  have hpath := (Relation.ReflTransGen.single hboot.new).tail hmap
  exact ⟨w₀, _, hboot.starts, hpath, rfl,
    (kernel_half_shared stackMem_lawful aboveKernel_stackOut hboot.starts hboot.out hpath).1⟩

/-- Memory with something left in one frame: an entry that leads to the PML4 table of `init`. -/
def stale : Tables := TableTree.set (fun _ _ => 0) 0x401000 0 (Entry.link fourMiB.pml4)

theorem stale_zeroed : MemoryManager.Zeroed fourMiB stale := by
  refine .of_lt fun t ht => set_table_of_ne ?_
  rw [fourMiB_end] at ht
  omega

/-- The frame is handed out for a table, as it is, and the way of the page goes through it to
the PML4 table. -/
theorem stale_map {w : World (List ℕ)} (h : Booted stale w) : ∃ s,
    (MemoryMap.map (PageAllocator.allocatePhys stackMem) stackPageCall.vpage stackPageCall.ppage
      stackPageCall.flags).run (w.twoMaps.machine ⟨fourMiB.pml4, []⟩) = .ok (some ()) s ∧
    s.cr3 = fourMiB.pml4 ∧ s.tables = TableTree.set
      (TableTree.set w.twoMaps.tables (fourMiB.pdpt 146) 0 (Entry.link 0x401000)) fourMiB.pml4 300
      (Entry.pageWord .small ⟨0x500000⟩ [.present, .readWrite]) := by
  have hroot : Entry.field (w.twoMaps.machine ⟨fourMiB.pml4, []⟩).cr3 = fourMiB.pml4 := fourMiB_root
  have hpml4 := fourMiB_pml4_lt
  have hpdpt := fourMiB_pdpt_lt (i := 146) (by decide)
  -- what the walk finds: a PDPT, nothing, and what was left in the new table
  have hlink : w.twoMaps.tables fourMiB.pml4 402 = Entry.link (fourMiB.pdpt 146) := by
    rw [twoMaps_tables (.inl hpml4), h.rounds.upper 146 (by decide) 402 rfl]
  have hnone : next 1 (w.twoMaps.tables (fourMiB.pdpt 146) 0) = none ∧
      Entry.InSpace (.ofDepth 1) (w.twoMaps.tables (fourMiB.pdpt 146) 0) := by
    rw [twoMaps_tables (.inl hpdpt)]
    exact (MemoryManager.PdptFilled.entry (h.rounds.filled 146 (by decide)) (by decide)
      0).resolve_left fun hlast => absurd hlast.1 (by decide)
  have hleft : TableTree.set w.twoMaps.tables (fourMiB.pdpt 146) 0 (Entry.link 0x401000) 0x401000 0
      = Entry.link fourMiB.pml4 := by
    rw [set_table_of_ne (by omega), twoMaps_tables (.inr (Nat.le_refl _)),
      h.rounds.above (by rw [fourMiB_end]; decide), stale, set_self]
  have hframe : IsFrame (0x401 * 4096) := ⟨by decide, by decide⟩
  have hloop : (LinearWalker.downLoop (PageAllocator.allocatePhys stackMem)
      stackPageCall.vpage.base (.fromPageSize .small) 5 .ofMap).run
        (w.twoMaps.machine ⟨fourMiB.pml4, []⟩)
      = .ok ⟨.ofDepth 3, some (fourMiB.pml4, 300)⟩ ⟨fourMiB.pml4, [0x401000],
        TableTree.set w.twoMaps.tables (fourMiB.pdpt 146) 0 (Entry.link 0x401000),
        [0x402, 0x403], w.freed⟩ := by
    rw [LinearWalker.downLoop_step (by decide) (LinearWalker.down_ofMap
        (by rw [hroot]; exact fourMiB.pml4_isFrame.2)), hroot,
      LinearWalker.downLoop_step (by decide) (LinearWalker.down_link (d := 0) (by decide)
        (fourMiB.pdpt_isFrame (by decide)) hlink),
      LinearWalker.downLoop_step (by decide) ((LinearWalker.down_eq_downNew (d := 1) (by decide)
        hnone.2 hnone.1).trans (LinearWalker.downNew_run (d := 1) (by decide)
          (stackMem_run 0x401 _) hframe)),
      LinearWalker.downLoop_step (by decide) (LinearWalker.down_link (d := 2) (by decide)
        fourMiB.pml4_isFrame hleft)]
    exact LinearWalker.downLoop_end 0 rfl
  have hflags : PageFlags .small [.present, .readWrite] := ⟨by decide, by decide⟩
  exact ⟨_, MemoryMap.map_of_downLoop rfl hloop (hflags.reinit_page (by decide) _), rfl, rfl⟩

/-- Then the two maps differ in an entry of the kernel's half. -/
theorem stale_frame_splits : ∃ w₀ w : World (List ℕ),
    Starts fourMiB (managing 0x400000 (2 ^ 30)) w₀ ∧ StackOut w₀.phys [] ∧
    Relation.ReflTransGen (Step stackMem (fun _ _ c alloc => KernelCall StackOut c alloc)
      fun _ _ => False) w₀ w ∧
    ∃ m ∈ w.maps, ∃ m' ∈ w.maps, ∃ i : Fin tableLen, 256 ≤ i.val ∧
      w.tables m.root i ≠ w.tables m'.root i := by
  obtain ⟨w₀, hboot⟩ := exists_booted stale stale_zeroed
  obtain ⟨s, hrun, hcr3, htables⟩ := stale_map hboot
  have hmap : Step stackMem (fun _ _ c alloc => KernelCall StackOut c alloc) (fun _ _ => False)
      w₀.twoMaps (after ([] ++ ⟨s.cr3, s.frames⟩ :: [secondMap]) s) :=
    .map rfl stackPageCall_kernel hrun
  refine ⟨w₀, _, hboot.starts, hboot.out, (Relation.ReflTransGen.single hboot.new).tail hmap,
    _, List.mem_cons_self, secondMap, List.mem_cons_of_mem _ List.mem_cons_self, 300, by decide, ?_⟩
  have hpml4 := fourMiB_pml4_lt
  have hpdpt := fourMiB_pdpt_lt (i := 146) (by decide)
  have hcopy : MemoryMap.newTables w₀.tables 0x400000 4096 fourMiB.pml4 0x400000 300
      = w₀.tables fourMiB.pml4 300 := MemoryMap.newTables_upper (by omega) (by decide)
  have hsecond : s.tables secondMap.root 300 = Entry.link (fourMiB.pdpt 44) := by
    rw [htables, show secondMap.root = 0x400000 from rfl, set_table_of_ne (by omega),
      set_table_of_ne (by omega), ← hboot.rounds.upper 44 (by decide) 300 rfl]
    exact hcopy
  have hfirst : s.tables (⟨s.cr3, s.frames⟩ : MemoryMap).root 300
      = Entry.pageWord .small ⟨0x500000⟩ [.present, .readWrite] := by
    rw [hcr3, MemoryMap.root_mk fourMiB.pml4_isFrame, htables, set_self]
  have hword : fourMiB.pdpt 44 = 0x22E000 := by
    rw [Statics.pdpt, Statics.frame_eq]
    rfl
  show s.tables (⟨s.cr3, s.frames⟩ : MemoryMap).root 300 ≠ s.tables secondMap.root 300
  rw [hfirst, hsecond, hword]
  decide

end World

end Koe
