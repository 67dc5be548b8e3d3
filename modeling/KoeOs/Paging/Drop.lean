/-
# `KoeOs.Paging.Drop` — what `drop` gives back

A map owns the tables of its lower half.  `new` takes a frame for the first of them, `map` one
for each table that is missing on the way of a page, and `drop` goes through the tree and
gives back each table after those below it:

    frames   what was allocated for the map
    Lower    what is a table on a way of the lower half
    freed    what was passed to `PageAllocator.deallocate`

`drop` frees the tables of the lower half and no other frame, each once and none before those
below it (`drop_frees_lower_once`).  As long as the first two are the same, these are the frames
of the map (`drop_frees_frames`).  They come apart in four ways:

    the first map is dropped       its table is a static of the kernel, and is freed with the rest
    a page is mapped over a table  the table, and all below it, are on no way any more
    a large page, not flagged so   is taken for a table
    a frame is not empty           what is left in it is taken for links

The first happens whenever a map is swapped in and the one that comes out is dropped
(`drop_frees_static`).
-/
import KoeOs.Paging.Rights
import KoeOs.Paging.Spaces

namespace Koe

open TableTree

variable {π : Type} {Out : π → List Extent → Prop} {pm : PhysMem π} {tables : Tables} {root : ℕ}

/-! ## The tables of the lower half -/

/-- `f` is a table on a way of the lower half. -/
def Lower (tables : Tables) (root f : ℕ) : Prop :=
  ∃ k ∈ lowerKeys, ∃ d, tableAt next tables root k d = some f

/-- `g` is a table below `f`, on a way of the lower half. -/
def LowerBelow (tables : Tables) (root f g : ℕ) : Prop :=
  ∃ k ∈ lowerKeys, ∃ d d', d < d' ∧ tableAt next tables root k d = some f ∧
    tableAt next tables root k d' = some g

theorem Lower.self : Lower tables root root :=
  ⟨fun _ => 0, (by decide : (0 : Fin tableLen).val < 256), 0, rfl⟩

theorem Lower.frame_iff {tables' : Tables} {f : ℕ}
    (hsame : ∀ f, Lower tables root f → tables' f = tables f) :
    Lower tables' root f ↔ Lower tables root f := by
  refine exists_congr fun k => and_congr_right fun hk => exists_congr fun d => ?_
  rw [tableAt_frame fun d t ht => hsame t ⟨k, hk, d, ht⟩]

namespace EmptyLower

variable {st : Statics} {out : List Extent} {f : ℕ} (h : EmptyLower tables root)
include h

theorem lower_iff : Lower tables root f ↔ f = root := by
  constructor
  · rintro ⟨k, hk, d, ht⟩
    obtain rfl := h.tableAt_eq hk ht
    exact (Option.some.inj ht).symm
  · rintro rfl
    exact .self

theorem missing_eq {k : ℕ → Fin tableLen} (hk : k ∈ lowerKeys) (d : ℕ) :
    missing next tables root k d = d := by
  induction d with
  | zero => rfl
  | succ d ih => rw [missing_succ ((h.stops hk).tableAt_none (Nat.succ_pos d)), ih]

theorem half (htaken : Taken st out root) : Half st out tables root lowerKeys where
  apart := h.apart
  inside := h.inside
  taken k hk d t ht := by
    rw [h.lower_iff.mp ⟨k, hk, d, ht⟩]
    exact htaken

end EmptyLower

/-- With no table where the page goes, `map` adds the frames it takes to the tables of the lower
half, and takes away none. -/
theorem MemoryMap.Maps.lower_iff {S : AddrSpace} {alloc : FrameAlloc π} {s s' : Machine π}
    {vpage : PageAddr S} {ppage : PageAddr uma} {flags : List Flag} {fs : List ℕ} {t raw f : ℕ}
    (h : Maps alloc s lowerKeys vpage ppage flags fs tables t raw s')
    (hal : vpage.pageSize.align ∣ ppage.base.value) (hp : ppage.base.value < uma.stop)
    (hk : key vpage.base.value ∈ lowerKeys)
    (hnone : tableAt next s.tables (Entry.field s.cr3) (key vpage.base.value)
      (vpage.pageSize.depth + 1) = none) :
    Lower s'.tables (Entry.field s.cr3) f ↔ Lower s.tables (Entry.field s.cr3) f ∨ f ∈ fs := by
  have hleaf : next vpage.pageSize.depth
      (tables t (key vpage.base.value vpage.pageSize.depth)) = none := by
    rw [← tableAt_succ h.table, ← Option.not_isSome_iff_eq_none, Option.isSome_iff_exists]
    rintro ⟨u, hu⟩
    exact nomatch hnone.symm.trans (h.growth.tableAt_deep hk (Nat.lt_succ_self _) hu)
  have hkeeps : ∀ k ∈ lowerKeys, ∀ d, tableAt next tables (Entry.field s.cr3) k d = some f →
      Lower s'.tables (Entry.field s.cr3) f := by
    intro k hk' d hf
    rw [h.tables_eq]
    exact ⟨k, hk', d, tableAt_set_leaf h.growth.apart hk h.table hleaf hk' hf⟩
  constructor
  · rintro ⟨k, hk', d, hf⟩
    exact (h.tableAt_cases hal hp hk hk' hf).imp_left fun hold => ⟨k, hk', d, hold⟩
  · rintro (⟨k, hk', d, hf⟩ | hf)
    · exact hkeeps k hk' d (h.growth.keeps k hk' d f hf)
    · obtain ⟨j, -, hj⟩ := h.growth.placed f hf
      exact hkeeps _ hk j hj

/-! ## Code that frees frames -/

/-- If the frames `l` are held, `x` passes them to `PageAllocator.deallocate`, in this order, and
does nothing else. -/
def Frees (Out : π → List Extent → Prop) (tables : Tables) (x : Code (Machine π) Unit)
    (l : List ℕ) : Prop :=
  ∀ s out, s.tables = tables → Out s.phys out → l.Nodup → (∀ f ∈ l, Held out f) →
    ∃ p out', x.run s = .ok () { s with phys := p, freed := s.freed ++ l } ∧ Out p out' ∧
      ∀ f ∉ l, Held out f → Held out' f

namespace Frees

variable {x y : Code (Machine π) Unit} {l l' : List ℕ}

theorem nil : Frees Out tables (pure ()) [] := fun s out _ hout _ _ =>
  ⟨s.phys, out, by rw [List.append_nil]; rfl, hout, fun _ _ hf => hf⟩

theorem bind (hx : Frees Out tables x l) (hy : Frees Out tables y l') :
    Frees Out tables (x >>= fun _ => y) (l ++ l') := by
  intro s out hs hout hnodup hheld
  obtain ⟨hl, hl', hne⟩ := List.nodup_append.mp hnodup
  obtain ⟨p, out₁, hrun, hout₁, hkeep⟩ := hx s out hs hout hl fun f hf =>
    hheld f (List.mem_append_left _ hf)
  obtain ⟨p', out₂, hrun', hout₂, hkeep'⟩ := hy { s with phys := p, freed := s.freed ++ l } out₁ hs
    hout₁ hl' fun f hf =>
      hkeep f (fun hmem => hne f hmem f hf rfl) (hheld f (List.mem_append_right _ hf))
  refine ⟨p', out₂, ?_, hout₂, fun f hf hold => ?_⟩
  · rw [Code.bind_ok hrun, hrun', List.append_assoc]
  · rw [List.mem_append, not_or] at hf
    exact hkeep' f hf.2 (hkeep f hf.1 hold)

end Frees

namespace MemoryMap

/-- Pass the frames to `PageAllocator.deallocate`, in this order. -/
def deallocateTables (pm : PhysMem π) (l : List ℕ) : Code (Machine π) Unit :=
  l.forM fun f => deallocateTable pm ⟨f + physicalRemap.start⟩

theorem deallocateTables_cons (f : ℕ) (l : List ℕ) :
    deallocateTables pm (f :: l)
      = deallocateTable pm ⟨f + physicalRemap.start⟩ >>= fun _ => deallocateTables pm l :=
  List.forM_cons ..

theorem deallocateTables_append (l l' : List ℕ) :
    deallocateTables pm (l ++ l') = deallocateTables pm l >>= fun _ => deallocateTables pm l' :=
  List.forM_append ..

/-- The frames are logged, and nothing else changes but the physical memory. -/
theorem deallocateTables_eq_ok {l : List ℕ} {s s' : Machine π}
    (h : (deallocateTables pm l).run s = .ok () s') :
    ∃ p, s' = { s with phys := p, freed := s.freed ++ l } := by
  induction l generalizing s with
  | nil =>
      cases h
      exact ⟨s'.phys, by rw [List.append_nil]⟩
  | cons f l ih =>
      rw [deallocateTables_cons] at h
      obtain ⟨_, s₁, hfirst, h⟩ := Code.bind_eq_ok.mp h
      obtain ⟨_, _, hlog, hfree⟩ := Code.bind_eq_ok.mp hfirst
      cases hlog
      obtain ⟨p₁, -, rfl⟩ := Code.zoom_eq_ok.mp hfree
      obtain ⟨p, rfl⟩ := ih h
      refine ⟨p, ?_⟩
      simp only [Nat.add_sub_cancel, List.append_assoc, List.cons_append, List.nil_append]

/-- With these tables, `x` does nothing but free the frames `l`, in this order. -/
def OnlyFrees (pm : PhysMem π) (tables : Tables) (x : Code (Machine π) Unit) (l : List ℕ) : Prop :=
  ∀ s, s.tables = tables → x.run s = (deallocateTables pm l).run s

namespace OnlyFrees

variable {x y : Code (Machine π) Unit} {l l' : List ℕ}

theorem nil : OnlyFrees pm tables (pure ()) [] := fun _ _ => rfl

theorem one (f : ℕ) : OnlyFrees pm tables (deallocateTable pm ⟨f + physicalRemap.start⟩) [f] := by
  intro s _
  rw [deallocateTables_cons]
  generalize deallocateTable pm ⟨f + physicalRemap.start⟩ = x
  cases hrun : x.run s with
  | ok _ s₁ =>
      rw [Code.bind_ok hrun]
      rfl
  | error q s₁ => rw [Code.bind_error hrun]

theorem bind (hx : OnlyFrees pm tables x l) (hy : OnlyFrees pm tables y l') :
    OnlyFrees pm tables (x >>= fun _ => y) (l ++ l') := by
  intro s hs
  rw [deallocateTables_append]
  cases hrun : (deallocateTables pm l).run s with
  | ok _ s₁ =>
      obtain ⟨p, rfl⟩ := deallocateTables_eq_ok hrun
      rw [Code.bind_ok ((hx s hs).trans hrun), Code.bind_ok hrun]
      exact hy _ hs
  | error q s₁ => rw [Code.bind_error ((hx s hs).trans hrun), Code.bind_error hrun]

theorem forM {α : Type} {body : α → Code (Machine π) Unit} {L : α → List ℕ} (is : List α)
    (h : ∀ i ∈ is, OnlyFrees pm tables (body i) (L i)) :
    OnlyFrees pm tables (is.forM body) (is.flatMap L) := by
  induction is with
  | nil => exact nil
  | cons i is ih =>
      rw [List.flatMap_cons]
      exact (h i List.mem_cons_self).bind (ih fun j hj => h j (List.mem_cons_of_mem _ hj))

end OnlyFrees

theorem deallocateTable_frees (hpm : pm.Lawful Out) (f : ℕ) :
    Frees Out tables (deallocateTable pm ⟨f + physicalRemap.start⟩) [f] := by
  intro s out _ hout _ hheld
  obtain ⟨e, he, rfl, hsize⟩ := hheld f List.mem_cons_self
  have hmem := List.mem_map_of_mem (f := Extent.shift physicalRemap.start) he
  have hfit : Usize.roundUp PageSize.small.layout.size 4096 ≤ e.size := hsize
  obtain ⟨p, hrun, out', hout', herase⟩ :=
    PageAllocator.deallocate_run hpm ⟨out, hout, rfl⟩ hmem (by decide) hfit
  refine ⟨p, out', ?_, hout', ?_⟩
  · rw [deallocateTable, Code.bind_ok (EStateM.run_modify ..), Nat.add_sub_cancel]
    exact Machine.onPhys_ok hrun
  · rintro g hg ⟨e', he', rfl, hsize'⟩
    rw [List.mem_singleton] at hg
    have hne : e'.shift physicalRemap.start ≠ e.shift physicalRemap.start := fun h =>
      hg (congrArg Extent.base (Extent.shift_injective _ h))
    have hkept := (List.mem_erase_of_ne hne).mpr (List.mem_map_of_mem he')
    rw [herase] at hkept
    obtain ⟨e₁, he₁, hsame⟩ := List.mem_map.mp hkept
    rw [Extent.shift_injective _ hsame] at he₁
    exact ⟨e', he₁, rfl, hsize'⟩

theorem deallocateTables_frees (hpm : pm.Lawful Out) (l : List ℕ) :
    Frees Out tables (deallocateTables pm l) l := by
  induction l with
  | nil => exact Frees.nil
  | cons f l ih =>
      rw [deallocateTables_cons]
      exact (deallocateTable_frees hpm f).bind ih

/-- `drop_entry_target` frees the tables below the entry. -/
theorem dropEntryTarget_frees (hin : Inside tables root lowerKeys) {n d t : ℕ}
    {k : ℕ → Fin tableLen} (hn : d + n = 4) (hk : k ∈ lowerKeys)
    (ht : tableAt next tables root k d = some t) :
    OnlyFrees pm tables (dropEntryTarget pm n ⟨.ofDepth d, some (t, k d)⟩)
      (below next tables (List.finRange tableLen) n d (tables t (k d))) := by
  induction n generalizing d t k with
  | zero => exact absurd (depth_le ht) (by omega)
  | succ n ih =>
      rintro s rfl
      have hspace := hin k hk d _ (entryAt_of_table ht)
      rw [dropEntryTarget, Code.bind_ok (LinearWalker.target_run hspace)]
      cases hnext : next d (s.tables t (k d)) with
      | none =>
          rw [below_of_none hnext]
          cases hdec : Entry.decode (.ofDepth d) (s.tables t (k d)) with
          | none => rfl
          | page level addr => rfl
          | table level addr => exact absurd hdec (next_eq_none.mp hnext _ _)
      | some u =>
          obtain ⟨hd, hdec, hu⟩ := next_eq_some hnext
          have hlt : u < uma.stop := hu ▸ hspace (by rw [hdec]; simp)
          have htable := (tableAt_succ ht).trans hnext
          rw [below_of_some hnext, hdec]
          -- the entries of the table, each with a key of its own
          have hentry : ∀ i, OnlyFrees pm s.tables
              (dropEntryTarget pm n ⟨.ofDepth (d + 1), some (u, i)⟩)
              (below next s.tables (List.finRange tableLen) n (d + 1) (s.tables u i)) := by
            intro i
            have hagree := agree_update k (d + 1) i
            have hlower : Function.update k (d + 1) i ∈ lowerKeys := by
              show (Function.update k (d + 1) i 0).val < 256
              rw [← hagree 0 (Nat.succ_pos d)]
              exact hk
            have h := ih (by omega) hlower ((tableAt_key hagree).symm.trans htable)
            rw [Function.update_self] at h
            exact h
          exact (Code.bind_ok (PageAllocator.p2v_run (a := ⟨u⟩) hlt s)).trans
            (((OnlyFrees.forM _ fun i _ => hentry i).bind (.one u)) s rfl)

/-- The tables that `drop` meets. -/
def dropped (tables : Tables) (root : ℕ) : List ℕ :=
  under next tables (List.finRange tableLen) ((List.finRange tableLen).take 256) 4 root

theorem mem_take_finRange {n m : ℕ} {i : Fin n} : i ∈ (List.finRange n).take m ↔ i.val < m := by
  rw [List.mem_take_iff_getElem]
  constructor
  · rintro ⟨j, hj, rfl⟩
    rw [List.getElem_finRange]
    exact Nat.lt_of_lt_of_le hj (Nat.min_le_left _ _)
  · intro hi
    have hlt : i.val < min m (List.finRange n).length := by
      rw [List.length_finRange]
      exact Nat.lt_min.mpr ⟨hi, i.isLt⟩
    exact ⟨i.val, hlt, List.getElem_finRange _⟩

theorem zero_mem_take : (0 : Fin tableLen) ∈ (List.finRange tableLen).take 256 :=
  mem_take_finRange.mpr (by decide)

theorem mem_dropped {f : ℕ} : f ∈ dropped tables root ↔ Lower tables root f := by
  rw [dropped, mem_under List.mem_finRange zero_mem_take
    fun _ _ _ ht => Nat.le_succ_of_le (depth_le ht)]
  exact exists_congr fun k => and_congr_left' mem_take_finRange

theorem nodup_take : ((List.finRange tableLen).take 256).Nodup :=
  (List.nodup_finRange _).sublist (List.take_sublist _ _)

theorem apart_take (h : Apart next tables root lowerKeys) :
    Apart next tables root {k | k 0 ∈ (List.finRange tableLen).take 256} :=
  h.mono fun _ hk => mem_take_finRange.mp hk

theorem nodup_dropped (h : Apart next tables root lowerKeys) : (dropped tables root).Nodup :=
  nodup_under (List.nodup_finRange _) nodup_take (apart_take h) zero_mem_take

/-- A table is freed when all below it have been. -/
theorem mem_before_dropped (h : Apart next tables root lowerKeys) {l₁ l₂ : List ℕ} {f g : ℕ}
    (hl : dropped tables root = l₁ ++ f :: l₂) (hbelow : LowerBelow tables root f g) : g ∈ l₁ := by
  obtain ⟨k, hk, d, d', hlt, hf, hg⟩ := hbelow
  refine mem_before (List.nodup_finRange _) nodup_take (apart_take h) hl
    (mem_dropped.mpr ⟨k, hk, d', hg⟩) ?_
    ⟨k, mem_take_finRange.mpr hk, d, d', Nat.le_of_lt hlt, hf, hg⟩
  rintro rfl
  exact absurd (h hk hk hf hg).1 (Nat.ne_of_lt hlt)

/-- `drop` frees the tables of the lower half, and does nothing else. -/
theorem drop_eq (pm : PhysMem π) {s : Machine π} (hcr3 : Entry.field s.cr3 < uma.stop)
    (hin : Inside s.tables (Entry.field s.cr3) lowerKeys) :
    (drop pm).run s = (deallocateTables pm (dropped s.tables (Entry.field s.cr3))).run s := by
  have hentry : ∀ i ∈ (List.finRange tableLen).take 256, OnlyFrees pm s.tables
      (dropEntryTarget pm 4 ⟨.ofDepth 0, some (Entry.field s.cr3, i)⟩)
      (below next s.tables (List.finRange tableLen) 4 0 (s.tables (Entry.field s.cr3) i)) :=
    fun i hi => dropEntryTarget_frees (k := fun _ => i) hin rfl (mem_take_finRange.mp hi) rfl
  have hp2v : OnlyFrees pm s.tables (do deallocateTable pm (← p2v ⟨Entry.field s.cr3⟩))
      [Entry.field s.cr3] := fun s₁ hs₁ =>
    (Code.bind_ok (PageAllocator.p2v_run (a := ⟨Entry.field s.cr3⟩) hcr3 s₁)).trans
      (OnlyFrees.one _ s₁ hs₁)
  rw [drop, Code.bind_ok (table_run hcr3)]
  exact (OnlyFrees.forM _ hentry).bind hp2v s rfl

/-- `drop` frees the tables of the lower half. -/
theorem drop_run (hpm : pm.Lawful Out) {s : Machine π} {out : List Extent}
    (hcr3 : Entry.field s.cr3 < uma.stop)
    (hapart : Apart next s.tables (Entry.field s.cr3) lowerKeys)
    (hin : Inside s.tables (Entry.field s.cr3) lowerKeys) (hout : Out s.phys out)
    (hheld : ∀ f, Lower s.tables (Entry.field s.cr3) f → Held out f) :
    ∃ p out', (drop pm).run s = .ok () { s with
        phys := p
        freed := s.freed ++ dropped s.tables (Entry.field s.cr3) } ∧
      Out p out' ∧ ∀ f, ¬ Lower s.tables (Entry.field s.cr3) f → Held out f → Held out' f := by
  obtain ⟨p, out', hrun, hout', hkeep⟩ := deallocateTables_frees hpm _ s out rfl hout
    (nodup_dropped hapart) fun f hf => hheld f (mem_dropped.mp hf)
  exact ⟨p, out', (drop_eq pm hcr3 hin).trans hrun, hout',
    fun f hf => hkeep f fun hmem => hf (mem_dropped.mp hmem)⟩

/-- If the tables of the lower half form a tree, `drop` passes each of them to the allocator once,
and after all that are below it.  It frees nothing else: no page, and no table that only the
upper half leads to.  Whether it returns is up to the allocator, which takes back what it has
handed out. -/
theorem drop_frees_lower_once (pm : PhysMem π) {s : Machine π}
    (hcr3 : Entry.field s.cr3 < uma.stop)
    (hapart : Apart next s.tables (Entry.field s.cr3) lowerKeys)
    (hin : Inside s.tables (Entry.field s.cr3) lowerKeys) :
    ∃ l : List ℕ, l.Nodup ∧ (∀ f, f ∈ l ↔ Lower s.tables (Entry.field s.cr3) f) ∧
      (∀ l₁ f l₂, l = l₁ ++ f :: l₂ →
        ∀ g, LowerBelow s.tables (Entry.field s.cr3) f g → g ∈ l₁) ∧
      (drop pm).run s = (deallocateTables pm l).run s ∧
      (∀ s', (drop pm).run s = .ok () s' → s'.freed = s.freed ++ l) ∧
      ∀ Out out, pm.Lawful Out → Out s.phys out →
        (∀ f, Lower s.tables (Entry.field s.cr3) f → Held out f) →
        ∃ s', (drop pm).run s = .ok () s' := by
  have hrun := drop_eq pm hcr3 hin
  refine ⟨dropped s.tables (Entry.field s.cr3), nodup_dropped hapart, fun f => mem_dropped,
    fun l₁ f l₂ hl g hg => mem_before_dropped hapart hl hg, hrun, fun s' hdrop => ?_,
    fun Out out hpm hout hheld => ?_⟩
  · obtain ⟨p, rfl⟩ := deallocateTables_eq_ok (hrun.symm.trans hdrop)
    rfl
  · obtain ⟨p, out', hdrop, -⟩ := drop_run hpm hcr3 hapart hin hout hheld
    exact ⟨_, hdrop⟩

end MemoryMap

/-! ## Maps that own their tables -/

/-- The frames of the map are the tables of its lower half, without the static one. -/
structure MemoryMap.Owns (st : Statics) (out : List Extent) (tables : Tables) (m : MemoryMap) :
    Prop where
  isFrame : IsFrame m.root
  half : Half st out tables m.root lowerKeys
  nodup : m.frames.Nodup
  frames_iff : ∀ f, f ∈ m.frames ↔ Lower tables m.root f ∧ (f = m.root → m.root ≠ st.pml4)
  held : ∀ f ∈ m.frames, Held out f

/-- All maps own their tables, and no two the same. -/
structure Owned (st : Statics) (out : List Extent) (tables : Tables) (maps : List MemoryMap) :
    Prop where
  each : ∀ m ∈ maps, m.Owns st out tables
  apart : maps.Pairwise fun m m' => ∀ f, Lower tables m.root f → ¬ Lower tables m'.root f

namespace Owned

variable {st : Statics} {out out' : List Extent} {tables' : Tables} {maps rest : List MemoryMap}
  {m : MemoryMap} {f : ℕ} {p : π}

theorem taken (h : Owned st out tables maps) (hm : m ∈ maps) (hf : Lower tables m.root f) :
    Taken st out f := by
  obtain ⟨k, hk, d, ht⟩ := hf
  exact (h.each m hm).half.taken k hk d f ht

theorem cons (h : Owned st out tables rest) (hm : m.Owns st out tables)
    (hapart : ∀ m' ∈ rest, ∀ f, Lower tables m.root f → ¬ Lower tables m'.root f) :
    Owned st out tables (m :: rest) :=
  ⟨List.forall_mem_cons.mpr ⟨hm, h.each⟩, List.pairwise_cons.mpr ⟨hapart, h.apart⟩⟩

theorem tail (h : Owned st out tables (m :: rest)) : Owned st out tables rest :=
  ⟨fun m' hm' => h.each m' (List.mem_cons_of_mem _ hm'), (List.pairwise_cons.mp h.apart).2⟩

theorem perm (h : Owned st out tables maps) {maps' : List MemoryMap} (hperm : maps.Perm maps') :
    Owned st out tables maps' := by
  refine ⟨fun m hm => h.each m (hperm.mem_iff.mpr hm), hperm.pairwise h.apart ?_⟩
  exact fun {m m'} hmm' f hf hf' => hmm' f hf' hf

/-- The frame rule: writes to other tables, and frees of other frames, do not matter. -/
theorem frame (h : Owned st out tables maps)
    (hsame : ∀ m ∈ maps, ∀ f, Lower tables m.root f → tables' f = tables f)
    (hheld : ∀ m ∈ maps, ∀ f, Lower tables m.root f → Held out f → Held out' f) :
    Owned st out' tables' maps := by
  have hlower : ∀ m ∈ maps, ∀ f, Lower tables' m.root f ↔ Lower tables m.root f := fun m hm f =>
    Lower.frame_iff (hsame m hm)
  constructor
  · intro m hm
    have hown := h.each m hm
    have hhalf := hown.half.frame fun k hk d t ht => hsame m hm t ⟨k, hk, d, ht⟩
    constructor
    · exact hown.isFrame
    · refine hhalf.mono fun k hk d t ht htaken => htaken.imp_right (hheld m hm t ?_)
      exact (hlower m hm t).mp ⟨k, hk, d, ht⟩
    · exact hown.nodup
    · intro f
      rw [hlower m hm, hown.frames_iff]
    · intro f hf
      exact hheld m hm f ((hown.frames_iff f).mp hf).1 (hown.held f hf)
  · refine h.apart.imp_of_mem fun {m m'} hm hm' hmm' f hf hf' => ?_
    exact hmm' f ((hlower m hm f).mp hf) ((hlower m' hm' f).mp hf')

open MemoryMap in
/-- `new` adds a map, with an empty table. -/
theorem new (h : Owned st out tables maps) (hpm : pm.Lawful Out) (habove : AboveKernel st Out)
    {a size : ℕ} (cur : ℕ) (hframe : IsFrame a) (hsize : tableAlignment ≤ size)
    (hout : Out p (⟨a, size⟩ :: out)) :
    Owned st (⟨a, size⟩ :: out) (newTables tables a size cur) (⟨a, [a]⟩ :: maps) := by
  have hnew : Held (⟨a, size⟩ :: out) a := ⟨_, List.mem_cons_self, rfl, hsize⟩
  have hmono : ∀ f, Held out f → Held ([⟨a, size⟩] ++ out) f := fun _ => Held.mono
  have hout' : Out p ([⟨a, size⟩] ++ out) := hout
  have hfree : ¬ Taken st out a := not_taken_of_new hpm habove hout' List.mem_cons_self
  have hsame : ∀ m ∈ maps, ∀ f, Lower tables m.root f → newTables tables a size cur f = tables f :=
    fun m hm f hf =>
      newTables_of_not_mem hsize ((h.taken hm hf).not_mem_new hpm habove hout)
  have hempty : EmptyLower (newTables tables a size cur) a := fun i hi => by
    rw [newTables_lower hsize hi]
    exact Nat.zero_testBit 0
  have hroot := MemoryMap.root_mk hframe [a]
  have hne : a ≠ st.pml4 := fun heq => hfree (.inl (heq ▸ st.pml4_lt))
  refine (h.frame hsame fun _ _ f _ => hmono f).cons ?_ ?_
  · constructor
    · rw [hroot]
      exact hframe
    · rw [hroot]
      exact hempty.half (.inr hnew)
    · exact List.nodup_singleton a
    · intro f
      rw [hroot, hempty.lower_iff, List.mem_singleton]
      exact ⟨fun hf => ⟨hf, fun _ => hne⟩, fun hf => hf.1⟩
    · intro f hf
      rw [List.mem_singleton.mp hf]
      exact hnew
  · intro m hm f hf hf'
    rw [hroot, hempty.lower_iff] at hf
    rw [hf, Lower.frame_iff (hsame m hm)] at hf'
    exact hfree (h.taken hm hf')

section Map

variable {S : AddrSpace} {w : World π} {s : Machine π} {vpage : PageAddr S} {ppage : PageAddr uma}
  {flags : List Flag} {alloc : FrameAlloc π} {fs : List ℕ} {grown : Tables} {t raw : ℕ}
  {bs : List Extent} (h : Owned st out w.tables (m :: rest))
  (hmaps : MemoryMap.Maps alloc (w.machine m) lowerKeys vpage ppage flags fs grown t raw s)
  (hfs : ∀ f ∈ fs, IsFrame f ∧ ¬ Taken st out f ∧ Held (bs ++ out) f)
  (hk : key vpage.base.value ∈ lowerKeys)
include h hmaps hfs hk

/-- `map` writes to no table of another map. -/
theorem map_untouched {m' : MemoryMap} (hm' : m' ∈ rest) (hf : Lower w.tables m'.root f) :
    s.tables f = w.tables f := by
  have hoff : ∀ j, tableAt next w.tables m.root (key vpage.base.value) j ≠ some f := fun j hj =>
    (List.pairwise_cons.mp h.apart).1 m' hm' f ⟨_, hk, j, hj⟩ hf
  refine hmaps.untouched hk (fun hnew => ?_) (fun j _ hj => absurd hj (hoff j)) (hoff _)
  exact (hfs f hnew).2.1 (h.taken (List.mem_cons_of_mem _ hm') hf)

/-- `map` adds the frames it takes to those of the map. -/
theorem map (hal : vpage.pageSize.align ∣ ppage.base.value) (hp : ppage.base.value < uma.stop)
    (hnodup : fs.Nodup)
    (hnone : tableAt next w.tables m.root (key vpage.base.value) (vpage.pageSize.depth + 1)
      = none) :
    Owned st (bs ++ out) s.tables (⟨s.cr3, s.frames⟩ :: rest) := by
  have hown := h.each m List.mem_cons_self
  have hroot : (⟨s.cr3, s.frames⟩ : MemoryMap).root = m.root := congrArg Entry.field hmaps.cr3_eq
  have hframes : s.frames = m.frames ++ fs := hmaps.frames_eq
  have hlower : ∀ f, Lower s.tables m.root f ↔ Lower w.tables m.root f ∨ f ∈ fs := fun f =>
    hmaps.lower_iff hal hp hk hnone
  have hfree : ∀ f ∈ fs, ∀ m' ∈ m :: rest, ¬ Lower w.tables m'.root f := fun f hf m' hm' hold =>
    (hfs f hf).2.1 (h.taken hm' hold)
  have hsame : ∀ m' ∈ rest, ∀ f, Lower w.tables m'.root f → s.tables f = w.tables f :=
    fun m' hm' f hf => h.map_untouched hmaps hfs hk hm' hf
  refine (h.tail.frame hsame fun _ _ _ _ => Held.mono).cons ?_ ?_
  · constructor
    · rw [hroot]
      exact hown.isFrame
    · rw [hroot]
      exact hmaps.half hal hp hk hown.half (fun f hf => ⟨(hfs f hf).1, .inr (hfs f hf).2.2⟩)
        fun _ => Taken.mono
    · show s.frames.Nodup
      rw [hframes, List.nodup_append]
      refine ⟨hown.nodup, hnodup, ?_⟩
      rintro f hf _ hf' rfl
      exact hfree f hf' m List.mem_cons_self ((hown.frames_iff f).mp hf).1
    · intro f
      show f ∈ s.frames ↔ _
      rw [hroot, hframes, List.mem_append, hown.frames_iff, hlower, or_and_right]
      refine or_congr_right ⟨fun hf => ⟨hf, ?_⟩, fun hf => hf.1⟩
      rintro rfl
      exact absurd .self (hfree _ hf m List.mem_cons_self)
    · intro f hf
      rcases List.mem_append.mp (hframes ▸ hf) with hold | hnew
      · exact (hown.held f hold).mono
      · exact (hfs f hnew).2.2
  · intro m' hm' f hf hf'
    rw [hroot, hlower] at hf
    rw [Lower.frame_iff (hsame m' hm')] at hf'
    rcases hf with hold | hnew
    · exact (List.pairwise_cons.mp h.apart).1 m' hm' f hold hf'
    · exact hfree f hnew m' (List.mem_cons_of_mem _ hm') hf'

end Map

/-- `drop` frees the frames of the map, and leaves the other maps their tables. -/
theorem drop (h : Owned st out tables (m :: rest)) (hpm : pm.Lawful Out) {s : Machine π}
    (hs : s.tables = tables) (hcr3 : Entry.field s.cr3 = m.root) (hout : Out s.phys out)
    (hne : m.root ≠ st.pml4) :
    ∃ p out', (MemoryMap.drop pm).run s = .ok () { s with
        phys := p
        freed := s.freed ++ MemoryMap.dropped tables m.root } ∧
      (MemoryMap.dropped tables m.root).Perm m.frames ∧
      Out p out' ∧ Owned st out' tables rest := by
  subst hs
  have hown := h.each m List.mem_cons_self
  have hframes : ∀ f, f ∈ m.frames ↔ Lower s.tables m.root f := fun f => by
    rw [hown.frames_iff]
    exact and_iff_left fun _ => hne
  obtain ⟨p, out', hrun, hout', hkeep⟩ := MemoryMap.drop_run hpm (s := s) (hcr3 ▸ hown.isFrame.2)
    (hcr3 ▸ hown.half.apart) (hcr3 ▸ hown.half.inside) hout
    fun f hf => hown.held f ((hframes f).mpr (hcr3 ▸ hf))
  rw [hcr3] at hrun hkeep
  refine ⟨p, out', hrun, ?_, hout', h.tail.frame (fun _ _ _ _ => rfl) fun m' hm' f hf => ?_⟩
  · refine (List.perm_ext_iff_of_nodup (MemoryMap.nodup_dropped hown.half.apart) hown.nodup).mpr ?_
    intro f
    rw [MemoryMap.mem_dropped, hframes]
  · exact hkeep f fun hf' => (List.pairwise_cons.mp h.apart).1 m' hm' f hf' hf

end Owned

/-! ## Runs -/

namespace World

variable {st : Statics} {bmm : MemblockSystem} {w w₀ w' : World π}

/-- A call of `map` for a page of the lower half. -/
structure LowerCall (Out : π → List Extent → Prop) (c : MapCall) (alloc : FrameAlloc π) :
    Prop where
  lower : c.vpage.base.value < 2 ^ 47
  inside : c.ppage.base.value < uma.stop
  supplies : Supplies alloc Out

/-- There is no table where the page goes. -/
def Vacant (w : World π) (m : MemoryMap) (c : MapCall) : Prop :=
  tableAt next w.tables m.root (key c.vpage.base.value) (c.vpage.pageSize.depth + 1) = none

/-- `new`, `swap`, clean calls of `map` for pages of the lower half where there is no table, and
`drop` of all maps but the first one. -/
abbrev LowerStep (pm : PhysMem π) (st : Statics) (Out : π → List Extent → Prop) :
    World π → World π → Prop :=
  Step pm (fun w m c alloc => LowerCall Out c alloc ∧ w.Clean m c alloc ∧ w.Vacant m c)
    fun _ m => m.root ≠ st.pml4

/-- All maps own their tables. -/
def Owning (st : Statics) (Out : π → List Extent → Prop) (w : World π) : Prop :=
  ∃ out, Out w.phys out ∧ Owned st out w.tables w.maps

theorem Starts.owning (h : Starts st bmm w) {out : List Extent} (hout : Out w.phys out) :
    w.Owning st Out := by
  obtain ⟨hmaps, last, -, tables₀, hrounds, hzero⟩ := h.rounds
  have hroot := MemoryMap.root_mk st.pml4_isFrame []
  have hempty : EmptyLower w.tables st.pml4 := fun i hi => by
    rw [hrounds.pml4 i (by omega), hzero _ (.inl rfl)]
    exact Nat.zero_testBit 0
  refine ⟨out, hout, ?_⟩
  rw [hmaps]
  refine Owned.cons ⟨fun _ hm => (nomatch hm), .nil⟩ ?_ fun _ hm => nomatch hm
  constructor
  · rw [hroot]
    exact st.pml4_isFrame
  · rw [hroot]
    exact hempty.half (.inl st.pml4_lt)
  · exact List.nodup_nil
  · intro f
    rw [hroot, hempty.lower_iff]
    exact ⟨fun hf => (nomatch hf), fun hf => absurd rfl (hf.2 hf.1)⟩
  · exact fun f hf => nomatch hf

theorem Owning.step (hpm : pm.Lawful Out) (habove : AboveKernel st Out) (h : w.Owning st Out)
    (hstep : LowerStep pm st Out w w') : w'.Owning st Out := by
  obtain ⟨out, hout, howned⟩ := h
  cases hstep with
  | @new cur m l s hmaps hrun =>
      have hcur := (howned.each cur (hmaps ▸ List.mem_cons_self)).isFrame.2
      obtain ⟨a, size, p, rfl, hframe, hsize, hout', rfl⟩ :=
        MemoryMap.new_eq_ok (s := w.machine cur) hpm hcur hout hrun
      refine ⟨_, hout', (howned.new hpm habove cur.root hframe hsize hout').perm ?_⟩
      exact (List.perm_append_singleton _ _).symm
  | @map m l l' c alloc s hmaps hmay hrun =>
      obtain ⟨hcall, hclean, hvacant⟩ := hmay
      have hfirst : Owned st out w.tables (m :: (l ++ l')) :=
        howned.perm (hmaps ▸ List.perm_middle)
      have hown := hfirst.each m List.mem_cons_self
      have hk := key_lower hcall.lower
      obtain ⟨fs, grown, t, raw, bs, hdone, hal, hnodup, hfs, hout'⟩ := MemoryMap.map_half
        (s := w.machine m) hpm habove hcall.supplies hout hown.half hk hown.isFrame.2 hclean.flags
        hclean.empty hrun
      refine ⟨_, hout', (hfirst.map hdone hfs hk hal hcall.inside hnodup hvacant).perm ?_⟩
      exact List.perm_middle.symm
  | @swap cur m l l' hmaps =>
      refine ⟨out, hout, howned.perm ?_⟩
      rw [hmaps]
      calc (cur :: (l ++ m :: l')).Perm (cur :: m :: (l ++ l')) := List.perm_middle.cons cur
        _ |>.Perm (m :: cur :: (l ++ l')) := .swap ..
        _ |>.Perm (m :: (l ++ cur :: l')) := List.perm_middle.symm.cons m
  | @drop cur m l l' s hmaps hmay hrun =>
      have hmiddle : (cur :: l ++ m :: l').Perm (m :: (cur :: l ++ l')) := List.perm_middle
      have hfirst : Owned st out w.tables (m :: cur :: (l ++ l')) := howned.perm (hmaps ▸ hmiddle)
      obtain ⟨p, out', hrun', -, hout', hrest⟩ :=
        hfirst.drop hpm (s := w.machine m) rfl rfl hout hmay
      cases hrun.symm.trans hrun'
      exact ⟨out', hout', hrest⟩

theorem Owning.run (hpm : pm.Lawful Out) (habove : AboveKernel st Out) (h : w₀.Owning st Out)
    (hrun : Relation.ReflTransGen (LowerStep pm st Out) w₀ w) : w.Owning st Out := by
  induction hrun with
  | refl => exact h
  | tail _ hstep ih => exact ih.step hpm habove hstep

/-- At every point of a run, `drop` of any map but the first one returns, and has passed exactly
the frames of the map to the allocator, each once; all of them were blocks that are out. -/
theorem drop_frees_frames (hpm : pm.Lawful Out) (habove : AboveKernel st Out)
    (hstart : Starts st bmm w₀) {out₀ : List Extent} (hout₀ : Out w₀.phys out₀)
    (hrun : Relation.ReflTransGen (LowerStep pm st Out) w₀ w) {m : MemoryMap} (hm : m ∈ w.maps)
    (hne : m.root ≠ st.pml4) :
    ∃ s l, (MemoryMap.drop pm).run (w.machine m) = .ok () s ∧ s.freed = w.freed ++ l ∧
      l.Perm m.frames ∧ m.frames.Nodup ∧ ∃ out, Out w.phys out ∧ ∀ f ∈ l, Held out f := by
  obtain ⟨out, hout, howned⟩ := (hstart.owning hout₀).run hpm habove hrun
  have hown := howned.each m hm
  obtain ⟨l, l', hmaps⟩ := List.append_of_mem hm
  have hfirst : Owned st out w.tables (m :: (l ++ l')) := howned.perm (hmaps ▸ List.perm_middle)
  obtain ⟨p, out', hdrop, hperm, -, -⟩ := hfirst.drop hpm (s := w.machine m) rfl rfl hout hne
  exact ⟨_, _, hdrop, rfl, hperm, hown.nodup, out, hout,
    fun f hf => hown.held f (hperm.mem_iff.mp hf)⟩

/-! ## A kernel of 4 MiB -/

open MemoryManager (fourMiB managing)

theorem secondMap_root : secondMap.root = 0x400000 := rfl

theorem twoMaps_empty {w : World (List ℕ)} : EmptyLower w.twoMaps.tables secondMap.root := by
  intro i hi
  have htables : w.twoMaps.tables = MemoryMap.newTables w.tables 0x400000 4096 fourMiB.pml4 := rfl
  rw [secondMap_root, htables, MemoryMap.newTables_lower (by decide) hi]
  rfl

/-- With all memory zero: `init`, `new`, and a page mapped through the second map, which takes
three frames. -/
theorem exists_mapped_second : ∃ (w₀ w : World (List ℕ)) (m : MemoryMap),
    Starts fourMiB (managing 0x400000 (2 ^ 30)) w₀ ∧ StackOut w₀.phys [] ∧
    Relation.ReflTransGen (LowerStep stackMem fourMiB StackOut) w₀ w ∧ m ∈ w.maps ∧
    m.root ≠ fourMiB.pml4 ∧ m.frames.length = 4 := by
  obtain ⟨w₀, hboot⟩ := exists_booted (fun _ _ => 0) fun _ _ _ => rfl
  obtain ⟨out, hout, howned⟩ := (hboot.starts.owning hboot.out).step stackMem_lawful
    aboveKernel_stackOut hboot.new
  have hsupplies := PageAllocator.supplies stackMem_lawful
  have hown := howned.each secondMap (List.mem_cons_of_mem _ List.mem_cons_self)
  have hk : key 0x400000 ∈ lowerKeys := key_lower (by decide)
  obtain ⟨s, hrun⟩ : ∃ s, (MemoryMap.map (PageAllocator.allocatePhys stackMem)
      (lowerPage [.present, .readWrite]).vpage (lowerPage [.present, .readWrite]).ppage
      (lowerPage [.present, .readWrite]).flags).run (w₀.twoMaps.machine secondMap)
        = .ok (some ()) s :=
    MemoryMap.exists_map stackMem_lawful aboveKernel_stackOut hsupplies hout hown.half hk
      hown.isFrame.2 rfl (fun _ h => absurd rfl h) (hboot.handsZero _)
      (stackMem_not_fails missing_le)
  have hvacant : w₀.twoMaps.Vacant secondMap (lowerPage [.present, .readWrite]) := by
    cases h : tableAt next w₀.twoMaps.tables secondMap.root (key 0x400000) 4 with
    | none => exact h
    | some t => exact absurd (depth_le h) (by decide)
  have hmap : LowerStep stackMem fourMiB StackOut w₀.twoMaps
      (after ([⟨fourMiB.pml4, []⟩] ++ [⟨s.cr3, s.frames⟩]) s) :=
    .map rfl ⟨⟨by decide, by decide, hsupplies⟩, ⟨fun _ h => absurd rfl h, hboot.handsZero _⟩,
      hvacant⟩ hrun
  obtain ⟨fs, grown, t, raw, bs, hdone, -⟩ := MemoryMap.map_half (s := w₀.twoMaps.machine secondMap)
    stackMem_lawful aboveKernel_stackOut hsupplies hout hown.half hk hown.isFrame.2
    (fun _ h => absurd rfl h) (hboot.handsZero _) hrun
  have hpath := (Relation.ReflTransGen.single hboot.new).tail hmap
  have hmem : (⟨s.cr3, s.frames⟩ : MemoryMap) ∈
      (after ([⟨fourMiB.pml4, []⟩] ++ [⟨s.cr3, s.frames⟩]) s).maps :=
    List.mem_append_right _ List.mem_cons_self
  have hne : (⟨s.cr3, s.frames⟩ : MemoryMap).root ≠ fourMiB.pml4 := by
    have hroot : (⟨s.cr3, s.frames⟩ : MemoryMap).root = 0x400000 :=
      (congrArg Entry.field hdone.cr3_eq).trans secondMap_root
    rw [hroot]
    exact Nat.ne_of_gt fourMiB_pml4_lt
  have hlen : s.frames.length = 4 := by
    have hmissing : missing next w₀.twoMaps.tables secondMap.root (key 0x400000) 3 = 3 :=
      twoMaps_empty.missing_eq hk 3
    have hfs : fs.length = 3 := hdone.growth.length.trans hmissing
    rw [hdone.frames_eq, List.length_append, hfs]
    rfl
  exact ⟨w₀, _, _, hboot.starts, hboot.out, hpath, hmem, hne, hlen⟩

/-- Then the second map can be dropped. -/
theorem drop_frees_frames_second : ∃ (w₀ w : World (List ℕ)) (m : MemoryMap),
    Starts fourMiB (managing 0x400000 (2 ^ 30)) w₀ ∧
    Relation.ReflTransGen (LowerStep stackMem fourMiB StackOut) w₀ w ∧ m ∈ w.maps ∧
    m.frames.length = 4 ∧ ∃ s l, (MemoryMap.drop stackMem).run (w.machine m) = .ok () s ∧
      s.freed = w.freed ++ l ∧ l.Perm m.frames := by
  obtain ⟨w₀, w, m, hstart, hout, hpath, hm, hne, hlen⟩ := exists_mapped_second
  obtain ⟨s, l, hdrop, hfreed, hperm, -⟩ :=
    drop_frees_frames stackMem_lawful aboveKernel_stackOut hstart hout hpath hm hne
  exact ⟨w₀, w, m, hstart, hpath, hm, hlen, s, l, hdrop, hfreed, hperm⟩

/-- And its four tables are freed as a tree. -/
theorem drop_frees_lower_once_second : ∃ (s s' : Machine (List ℕ)) (l : List ℕ),
    Apart next s.tables (Entry.field s.cr3) lowerKeys ∧
    Inside s.tables (Entry.field s.cr3) lowerKeys ∧ s.frames.length = 4 ∧ l.Perm s.frames ∧
    (MemoryMap.drop stackMem).run s = .ok () s' ∧ s'.freed = s.freed ++ l := by
  obtain ⟨w₀, w, m, hstart, hout₀, hpath, hm, hne, hlen⟩ := exists_mapped_second
  obtain ⟨out, hout, howned⟩ :=
    (hstart.owning hout₀).run stackMem_lawful aboveKernel_stackOut hpath
  have hown := howned.each m hm
  have hframes : ∀ f, f ∈ m.frames ↔ Lower w.tables m.root f := fun f => by
    rw [hown.frames_iff]
    exact and_iff_left fun _ => hne
  obtain ⟨l, hnodup, hmem, -, -, hfreed, hreturns⟩ :=
    MemoryMap.drop_frees_lower_once stackMem (s := w.machine m) hown.isFrame.2 hown.half.apart
      hown.half.inside
  obtain ⟨s', hdrop⟩ := hreturns StackOut out stackMem_lawful hout fun f hf =>
    hown.held f ((hframes f).mpr hf)
  refine ⟨w.machine m, s', l, hown.half.apart, hown.half.inside, hlen, ?_, hdrop, hfreed s' hdrop⟩
  exact (List.perm_ext_iff_of_nodup hnodup hown.nodup).mpr fun f => (hmem f).trans (hframes f).symm

/-- With nothing in the lower half, `drop` frees the table of the map, whatever it is. -/
theorem drop_of_empty {s : Machine (List ℕ)} (hframe : IsFrame (Entry.field s.cr3))
    (hempty : EmptyLower s.tables (Entry.field s.cr3)) :
    (MemoryMap.drop stackMem).run s = .ok () { s with
      phys := Entry.field s.cr3 / 4096 :: s.phys
      freed := s.freed ++ [Entry.field s.cr3] } := by
  have hentry : ∀ i : Fin tableLen, i.val < 256 →
      (MemoryMap.dropEntryTarget stackMem 4 ⟨.ofDepth 0, some (Entry.field s.cr3, i)⟩).run s
        = .ok () s := by
    intro i hi
    have hdec := hempty.decode (k := fun _ => i) hi
    rw [MemoryMap.dropEntryTarget, Code.bind_ok (LinearWalker.target_run fun h => absurd hdec h),
      hdec]
    rfl
  obtain ⟨_, hloop, rfl⟩ := Code.forM_run (l := (List.finRange tableLen).take 256)
    (f := fun i => MemoryMap.dropEntryTarget stackMem 4 ⟨.ofDepth 0, some (Entry.field s.cr3, i)⟩)
    (I := fun _ s' => s = s') (fun i h _ hs => ⟨s, by
      rw [← hs, hentry _ (MemoryMap.mem_take_finRange.mp (List.getElem_mem h))], rfl⟩) rfl
  have hp2v := PageAllocator.p2v_run (a := ⟨Entry.field s.cr3⟩) hframe.2 s
  rw [MemoryMap.drop, Code.bind_ok (MemoryMap.table_run hframe.2)]
  refine (Code.bind_ok hloop).trans ((Code.bind_ok hp2v).trans ?_)
  rw [MemoryMap.deallocateTable, Code.bind_ok (EStateM.run_modify ..), Nat.add_sub_cancel]
  exact Machine.onPhys_ok (stackMem_free hframe s.phys)

/-- After a `swap`, the map of `init` can be dropped; the table that is freed then is a static of
the kernel, and no block of the allocator. -/
theorem drop_frees_static : ∃ w₀ w : World (List ℕ),
    Starts fourMiB (managing 0x400000 (2 ^ 30)) w₀ ∧ StackOut w₀.phys [] ∧
    Relation.ReflTransGen (Step stackMem (fun _ _ c alloc => LowerCall StackOut c alloc)
      fun _ _ => True) w₀ w ∧
    ∃ m ∈ w.maps.tail, m.frames = [] ∧ ∃ s, (MemoryMap.drop stackMem).run (w.machine m) = .ok () s ∧
      s.freed = w.freed ++ [fourMiB.pml4] ∧
        ∀ out, StackOut w.phys out → ¬ Held out fourMiB.pml4 := by
  obtain ⟨w₀, hboot⟩ := exists_booted (fun _ _ => 0) fun _ _ _ => rfl
  have hswap : Step stackMem (fun _ _ c alloc => LowerCall StackOut c alloc) (fun _ _ => True)
      w₀.twoMaps { w₀.twoMaps with maps := secondMap :: ([] ++ [⟨fourMiB.pml4, []⟩]) } := .swap rfl
  refine ⟨w₀, _, hboot.starts, hboot.out, (Relation.ReflTransGen.single hboot.new).tail hswap,
    ⟨fourMiB.pml4, []⟩, List.mem_cons_self, rfl, ?_⟩
  have hempty : EmptyLower w₀.twoMaps.tables fourMiB.pml4 := fun i hi => by
    rw [twoMaps_tables (.inl fourMiB_pml4_lt), hboot.rounds.pml4 i (by omega)]
    rfl
  have hroot : Entry.field (w₀.twoMaps.machine ⟨fourMiB.pml4, []⟩).cr3 = fourMiB.pml4 :=
    fourMiB_root
  have hdrop := drop_of_empty (s := w₀.twoMaps.machine ⟨fourMiB.pml4, []⟩)
    (by rw [hroot]; exact fourMiB.pml4_isFrame) (by rw [hroot]; exact hempty)
  rw [hroot] at hdrop
  refine ⟨_, hdrop, rfl, ?_⟩
  rintro out hout ⟨e, he, hbase, -⟩
  have hle := aboveKernel_stackOut _ _ hout e he
  rw [hbase] at hle
  exact absurd fourMiB.pml4_lt (Nat.not_lt.mpr hle)

end World

end Koe
