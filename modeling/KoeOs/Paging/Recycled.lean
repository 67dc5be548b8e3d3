/-
# `KoeOs.Paging.Recycled` — tables in frames that were used before

For each table that is missing `down` takes a frame from the allocator and links it in.  It
does not clear it, so what the frame held before is what the table holds now:

    a word that is not present    is as good as zero; nobody can tell the two apart
    a page                        maps addresses that `map` was not asked to map, but the
                                  walk of the page does not follow it
    a table                       adds what hangs below it, or takes the walk to it, and
                                  then `map` writes there

So `map` leaves the rest of the address space alone, in every structure and for every call,
exactly if no word of the frames it is given is present (`new_tables_empty_iff`).
-/
import KoeOs.Paging.Mapping

namespace Koe

open TableTree

/-- The first `n` frames the allocator hands out hold one of the contents of `G`. -/
def HandsFrom {π : Type} (G : Set (Fin tableLen → ℕ)) (alloc : FrameAlloc π) (p : π) (n : ℕ)
    (tables : Tables) : Prop :=
  ∀ fs p', Hands alloc p fs p' → fs.length ≤ n → ∀ f ∈ fs, tables f ∈ G

theorem stackAlloc_from {p : List ℕ} {tables : Tables} {G : Set (Fin tableLen → ℕ)}
    (h : ∀ f ∈ p, tables f ∈ G) (n : ℕ) : HandsFrom G stackAlloc p n tables := by
  intro fs p' hhands _ f hf
  obtain rfl := stackAlloc_hands hhands
  exact h f (List.mem_append_left p' hf)

/-- What a call of `map` is to leave alone.  An address outside the page that was unmapped stays
unmapped, and only the tables on the way of the page and the new frames are written. -/
structure LeavesRest {π : Type} {S : AddrSpace} (alloc : FrameAlloc π) (vpage : PageAddr S)
    (s s' : Machine π) : Prop where
  unmapped : ∀ (T : AddrSpace) (vaddr : Addr T), Canonical vaddr.value →
    ¬ vpage.Contains vaddr.value → (MemoryMap.translate vaddr).run s = .ok none s →
    (MemoryMap.translate vaddr).run s' = .ok none s'
  untouched : ∃ fs, Hands alloc s.phys fs s'.phys ∧ s'.frames = s.frames ++ fs ∧
    ∀ t ∉ fs, (∀ d, tableAt next s.tables (Entry.field s.cr3) (key vpage.base.value) d ≠ some t) →
      s'.tables t = s.tables t

/-! ## The tables with the new frames emptied -/

/-- The first `n` frames the allocator hands out. -/
def handed {π : Type} (alloc : FrameAlloc π) (p : π) (n : ℕ) : Set ℕ :=
  {f | ∃ fs p', Hands alloc p fs p' ∧ fs.length ≤ n ∧ f ∈ fs}

open Classical in
/-- The tables with those of `F` emptied. -/
noncomputable def emptied (F : Set ℕ) (tables : Tables) : Tables :=
  fun t => if t ∈ F then fun _ => 0 else tables t

theorem emptied_of_mem {F : Set ℕ} {t : ℕ} (h : t ∈ F) (tables : Tables) :
    emptied F tables t = fun _ => 0 := if_pos h

theorem emptied_of_notMem {F : Set ℕ} {t : ℕ} (h : t ∉ F) (tables : Tables) :
    emptied F tables t = tables t := if_neg h

/-- Words that lead nowhere are not missed on a walk. -/
theorem stale_emptied {π : Type} {P : ℕ → Prop} {F : Set ℕ} {s : Machine π}
    (hroot : Entry.field s.cr3 ∉ F) (h : ∀ f ∈ F, ∀ i, P (s.tables f i)) (hzero : P 0)
    (hidle : ∀ raw, P raw → Idle raw) : Stale P F s { s with tables := emptied F s.tables } := by
  refine ⟨rfl, rfl, rfl, rfl, hroot, fun t ht => (emptied_of_notMem ht _).symm, fun t i => ?_,
    hidle⟩
  by_cases ht : t ∈ F
  · refine .inr ⟨h t ht i, ?_⟩
    show P (emptied F s.tables t i)
    rw [emptied_of_mem ht]
    exact hzero
  · exact .inl (congrFun (emptied_of_notMem ht s.tables).symm i)

namespace HandsFresh

variable {π : Type} {alloc : FrameAlloc π} {p : π} {n : ℕ} {tables : Tables} {root : ℕ}
  {K : Set (ℕ → Fin tableLen)} {k : ℕ → Fin tableLen}

/-- The new frames are on no way. -/
theorem notMem_handed (h : HandsFresh alloc p n tables root K) (hk : k ∈ K) {d t : ℕ}
    (ht : tableAt next tables root k d = some t) : t ∉ handed alloc p n := by
  rintro ⟨fs, p', hhands, hlen, hf⟩
  exact ((h fs p' hhands hlen).2 t hf).2 k hk d ht

theorem emptied_eq (h : HandsFresh alloc p n tables root K) (hk : k ∈ K) (d t : ℕ)
    (ht : tableAt next tables root k d = some t) :
    emptied (handed alloc p n) tables t = tables t :=
  emptied_of_notMem (h.notMem_handed hk ht) tables

theorem tableAt_emptied (h : HandsFresh alloc p n tables root K) (hk : k ∈ K) (d : ℕ) :
    tableAt next (emptied (handed alloc p n) tables) root k d = tableAt next tables root k d :=
  tableAt_frame (h.emptied_eq hk)

theorem entryAt_emptied (h : HandsFresh alloc p n tables root K) (hk : k ∈ K) (d : ℕ) :
    entryAt next (emptied (handed alloc p n) tables) root k d = entryAt next tables root k d :=
  entryAt_frame (h.emptied_eq hk)

theorem missing_emptied (h : HandsFresh alloc p n tables root K) (hk : k ∈ K) (d : ℕ) :
    missing next (emptied (handed alloc p n) tables) root k d = missing next tables root k d :=
  missing_congr (h.tableAt_emptied hk)

theorem apart_emptied (h : HandsFresh alloc p n tables root K) (hapart : Apart next tables root K) :
    Apart next (emptied (handed alloc p n) tables) root K :=
  hapart.of_le fun _ hk d _ ht => (h.tableAt_emptied hk d).symm.trans ht

theorem inside_emptied (h : HandsFresh alloc p n tables root K) (hin : Inside tables root K) :
    Inside (emptied (handed alloc p n) tables) root K :=
  fun k hk d e he => hin k hk d e ((h.entryAt_emptied hk d).symm.trans he)

theorem blank_emptied (h : HandsFresh alloc p n tables root K) :
    HandsBlank alloc p n (emptied (handed alloc p n) tables) root K := by
  intro fs p' hhands hlen
  obtain ⟨hnodup, hfs⟩ := h fs p' hhands hlen
  refine ⟨hnodup, fun f hf => ⟨(hfs f hf).1, fun k hk d => ?_, fun i => ?_⟩⟩
  · rw [h.tableAt_emptied hk]
    exact (hfs f hf).2 k hk d
  · have hmem : f ∈ handed alloc p n := ⟨fs, p', hhands, hlen, hf⟩
    rw [emptied_of_mem hmem]

end HandsFresh

/-- The loop of `map` with frames in which no word leads anywhere.  It grows the way of the page as
it would with empty frames, but for the words that are in them. -/
theorem LinearWalker.downLoop_recycled {π : Type} {S : AddrSpace} {alloc : FrameAlloc π}
    {s : Machine π} {vaddr : Addr S} {K : Set (ℕ → Fin tableLen)} {P : ℕ → Prop} {D n : ℕ}
    (hD : D ≤ 3) (hk : key vaddr.value ∈ K) (hcr3 : Entry.field s.cr3 < uma.stop)
    (hin : Inside s.tables (Entry.field s.cr3) K)
    (hapart : Apart next s.tables (Entry.field s.cr3) K)
    (hn : missing next s.tables (Entry.field s.cr3) (key vaddr.value) D = n)
    (hfresh : HandsFresh alloc s.phys n s.tables (Entry.field s.cr3) K)
    (hP : ∀ f ∈ handed alloc s.phys n, ∀ i, P (s.tables f i)) (hzero : P 0)
    (hidle : ∀ raw, P raw → Idle raw) :
    (∃ fs tables p t a, fs.length = n ∧
      At alloc { s with tables := emptied (handed alloc s.phys n) s.tables } K (key vaddr.value) D
        fs tables p t ∧
      Stale P (handed alloc s.phys n) a (grown s fs tables p) ∧
      (downLoop alloc vaddr (.ofDepth D) 5 .ofMap).run s
        = .ok ⟨.ofDepth D, some (t, key vaddr.value D)⟩ a) ∨
    (FailsBefore alloc s.phys n ∧
      ∃ q s', (downLoop alloc vaddr (.ofDepth D) 5 .ofMap).run s = .error q s') := by
  have hmissing : missing next (emptied (handed alloc s.phys n) s.tables) (Entry.field s.cr3)
      (key vaddr.value) D = n := (hfresh.missing_emptied hk _).trans hn
  have hblank : HandsBlank alloc s.phys (missing next (emptied (handed alloc s.phys n) s.tables)
      (Entry.field s.cr3) (key vaddr.value) D) (emptied (handed alloc s.phys n) s.tables)
      (Entry.field s.cr3) K := by
    rw [hmissing]
    exact hfresh.blank_emptied
  have hroot : Entry.field s.cr3 ∉ handed alloc s.phys n := hfresh.notMem_handed hk (d := 0) rfl
  rcases downLoop_stale (stale_emptied hroot hP hzero hidle) hD hk hcr3
      (hfresh.apart_emptied hapart) (hfresh.inside_emptied hin) hblank with
    ⟨fs, tables, p, t, a, hat, hstale, hrun⟩ | ⟨hfails, herr⟩
  · exact .inl ⟨fs, tables, p, t, a, hat.growth.length.trans hmissing, hat, hstale, hrun⟩
  · rw [hmissing] at hfails
    exact .inr ⟨hfails, herr⟩

/-! ## With no word present -/

/-- The word refers to nothing. -/
def Absent (raw : ℕ) : Prop := raw.testBit 0 = false

theorem Absent.idle {raw : ℕ} (h : Absent raw) : Idle raw := .inl h

namespace Stale

variable {π : Type} {F : Set ℕ} {a s : Machine π}

theorem decode_eq (h : Stale Absent F a s) (d t : ℕ) (i : Fin tableLen) :
    Entry.decode (.ofDepth d) (a.tables t i) = Entry.decode (.ofDepth d) (s.tables t i) := by
  rcases h.words t i with heq | ⟨ha, hs⟩
  · rw [heq]
  · rw [decode_eq_none.mpr ha, decode_eq_none.mpr hs]

/-- Ways end at the same places, at words that refer to the same. -/
theorem stops (h : Stale Absent F a s) {k : ℕ → Fin tableLen} {d e : ℕ}
    (hstop : Stops next s.tables (Entry.field s.cr3) k d e) :
    ∃ e', Stops next a.tables (Entry.field s.cr3) k d e' ∧
      Entry.decode (.ofDepth d) e' = Entry.decode (.ofDepth d) e := by
  obtain ⟨t, ht, rfl⟩ := entryAt_eq_some.mp hstop.1
  refine ⟨a.tables t (k d), ⟨entryAt_of_table ((h.tableAt_eq k d).trans ht), ?_⟩, h.decode_eq d t _⟩
  rw [h.next_eq (h.root_of_table ht)]
  exact hstop.2

end Stale

namespace MemoryMap

variable {π : Type} {S : AddrSpace} {alloc : FrameAlloc π} {s s' : Machine π} {vpage : PageAddr S}
  {ppage : PageAddr uma} {flags : List Flag} {res : Option Unit}

/-- If `map` returned, the loop had, and one entry was written after it. -/
theorem exists_downLoop (h : (map alloc vpage ppage flags).run s = .ok res s') : ∃ cur s₁ res',
    (LinearWalker.downLoop alloc vpage.base (.fromPageSize vpage.pageSize) 5 .ofMap).run s
      = .ok cur s₁ ∧ (EntryRef.reinit cur ppage.base flags).run s₁ = .ok res' s' := by
  rw [map] at h
  obtain ⟨_, _, hassert, h⟩ := Code.bind_eq_ok.mp h
  obtain ⟨-, rfl⟩ := Code.assert_eq_ok.mp hassert
  obtain ⟨cur, s₁, hloop, h⟩ := Code.bind_eq_ok.mp h
  obtain ⟨res', s₂, hre, h⟩ := Code.bind_eq_ok.mp h
  cases h
  exact ⟨cur, s₁, res', hloop, hre⟩

/-- What `map` did with frames in which no word is present.  It grew the way of the page to
`tables`, as it would have with empty frames; the machine `a` has that, but for the words that
were in the frames.  Then it wrote an entry of the table `t`. -/
structure Regrown (alloc : FrameAlloc π) (s : Machine π) (vpage : PageAddr S) (n : ℕ)
    (fs : List ℕ) (tables : Tables) (t : ℕ) (a : Machine π) (raw : ℕ) (s' : Machine π) : Prop where
  reached : LinearWalker.At alloc { s with tables := emptied (handed alloc s.phys n) s.tables }
    Set.univ (key vpage.base.value) vpage.pageSize.depth fs tables a.phys t
  stale : Stale Absent (handed alloc s.phys n) a (LinearWalker.grown s fs tables a.phys)
  length : fs.length = n
  eq : s' = { a with
    tables := TableTree.set a.tables t (key vpage.base.value vpage.pageSize.depth) raw }

theorem exists_regrown (hcr3 : Entry.field s.cr3 < uma.stop)
    (hin : Inside s.tables (Entry.field s.cr3) Set.univ)
    (hapart : Apart next s.tables (Entry.field s.cr3) Set.univ) {n : ℕ}
    (hn : missing next s.tables (Entry.field s.cr3) (key vpage.base.value) vpage.pageSize.depth = n)
    (hfresh : HandsFresh alloc s.phys n s.tables (Entry.field s.cr3) Set.univ)
    (hclean : ∀ f ∈ handed alloc s.phys n, ∀ i, Absent (s.tables f i))
    (hrun : (map alloc vpage ppage flags).run s = .ok res s') :
    ∃ fs tables t a raw, Regrown alloc s vpage n fs tables t a raw s' := by
  obtain ⟨cur, s₁, res', hloop, hre⟩ := exists_downLoop hrun
  rw [PageSize.fromPageSize_eq] at hloop
  rcases LinearWalker.downLoop_recycled vpage.pageSize.depth_le (Set.mem_univ _) hcr3 hin hapart hn
      hfresh hclean (Nat.zero_testBit 0) fun _ => Absent.idle with
    ⟨fs, tables, p, t, a, hlen, hat, hstale, hgrown⟩ | ⟨-, q, s'', herr⟩
  · cases hloop.symm.trans hgrown
    obtain rfl : s₁.phys = p := hstale.phys
    obtain ⟨raw, -, hset⟩ := Code.zoom_eq_ok.mp hre
    exact ⟨fs, tables, t, s₁, raw, hat, hstale, hlen, hset⟩
  · cases hloop.symm.trans herr

namespace Regrown

variable {n : ℕ} {fs : List ℕ} {tables : Tables} {t raw : ℕ} {a : Machine π}

section Rest

variable (h : Regrown alloc s vpage n fs tables t a raw s')
  (hfresh : HandsFresh alloc s.phys n s.tables (Entry.field s.cr3) Set.univ)
include h hfresh

/-- Every address outside the page that ended at an entry that refers to nothing still does. -/
theorem stops {v d e : ℕ}
    (hne : ¬ Agree (vpage.pageSize.depth + 1) (key vpage.base.value) (key v))
    (hstop : Stops next s.tables (Entry.field s.cr3) (key v) d e)
    (hdec : Entry.decode (.ofDepth d) e = .none) :
    ∃ d' e', Stops next s'.tables (Entry.field s.cr3) (key v) d' e' ∧
      Entry.decode (.ofDepth d') e' = .none := by
  have hgrowth := h.reached.growth
  -- it may end in a new table, at a word that would be zero there
  obtain ⟨d', e', hstop', hdec'⟩ : ∃ d' e', Stops next tables (Entry.field s.cr3) (key v) d' e' ∧
      Entry.decode (.ofDepth d') e' = .none := by
    rcases hgrowth.stops _ trivial d e
      ⟨(hfresh.entryAt_emptied trivial d).trans hstop.1, hstop.2⟩ with hold | ⟨-, -, d', hnew⟩
    · exact ⟨d, e, hold, hdec⟩
    · exact ⟨d', 0, hnew, decode_zero d'⟩
  obtain ⟨e₁, hstop₁, hdec₁⟩ := h.stale.stops hstop'
  have htable := (h.stale.tableAt_eq _ _).trans h.reached.table
  rw [h.eq]
  exact ⟨d', e₁, hstop₁.set_of_not_agree (h.stale.apart hgrowth.apart) trivial htable trivial hne,
    hdec₁.trans hdec'⟩

/-- What is on its way is inside physical memory. -/
theorem inside {v : ℕ} (hin : Inside s.tables (Entry.field s.cr3) Set.univ)
    (hne : ¬ Agree (vpage.pageSize.depth + 1) (key vpage.base.value) (key v)) :
    Inside s'.tables (Entry.field s.cr3) {key v} := by
  have hgrowth := h.reached.growth
  have hframes : ∀ f ∈ fs, IsFrame f := fun f hf =>
    ((hfresh fs _ h.reached.hands (Nat.le_of_eq h.length)).2 f hf).1
  have hgrown := h.stale.inside ((hfresh.inside_emptied hin).growth hgrowth hframes)
  have htable := (h.stale.tableAt_eq _ _).trans h.reached.table
  rintro k rfl d e he
  rw [h.eq] at he
  exact hgrown _ trivial d e ((entryAt_set_of_not_agree (h.stale.apart hgrowth.apart) trivial
    htable trivial hne).symm.trans he)

/-- Only the tables on the way of the page and the new frames are written. -/
theorem untouched {u : ℕ} (hu : u ∉ fs)
    (hoff : ∀ d, tableAt next s.tables (Entry.field s.cr3) (key vpage.base.value) d ≠ some u) :
    s'.tables u = s.tables u := by
  have hgrowth := h.reached.growth
  have hut : u ≠ t := by
    rintro rfl
    rcases hgrowth.tables _ trivial _ _ h.reached.table with hold | hnew
    · exact hoff _ ((hfresh.tableAt_emptied trivial _).symm.trans hold)
    · exact hu hnew
  have hF : u ∉ handed alloc s.phys n := by
    rintro ⟨gs, q, hgs, hle, hmem⟩
    exact hu (hgs.subset h.reached.hands (by rw [h.length]; exact hle) hmem)
  calc s'.tables u
      = TableTree.set a.tables t (key vpage.base.value vpage.pageSize.depth) raw u := by rw [h.eq]
    _ = a.tables u := set_table_of_ne hut
    _ = tables u := h.stale.off u hF
    _ = emptied (handed alloc s.phys n) s.tables u := hgrowth.untouched u hu fun j _ hj =>
        absurd ((hfresh.tableAt_emptied trivial j).symm.trans hj) (hoff j)
    _ = s.tables u := emptied_of_notMem hF s.tables

end Rest

/-- So the rest is left alone. -/
theorem leavesRest (h : Regrown alloc s vpage n fs tables t a raw s')
    (hfresh : HandsFresh alloc s.phys n s.tables (Entry.field s.cr3) Set.univ)
    (hv : Canonical vpage.base.value) (hcr3 : Entry.field s.cr3 < uma.stop)
    (hin : Inside s.tables (Entry.field s.cr3) Set.univ) : LeavesRest alloc vpage s s' := by
  have hroot : s'.cr3 = s.cr3 := by rw [h.eq]; exact h.stale.cr3
  constructor
  · intro T vaddr hvaddr hmem hnone
    have hne : ¬ Agree (vpage.pageSize.depth + 1) (key vpage.base.value) (key vaddr.value) :=
      fun hagree => hmem ((vpage.contains_iff_agree hv hvaddr).mpr hagree)
    obtain ⟨d, e, -, hstop⟩ := way_stops s.tables (Entry.field s.cr3) (key vaddr.value)
    have hdec := (translate_none_iff hcr3 (fun k _ => hin k trivial) hstop).mp hnone
    obtain ⟨d', e', hstop', hdec'⟩ := h.stops hfresh hne hstop hdec
    have hin' := h.inside hfresh hin hne
    rw [← hroot] at hcr3 hstop' hin'
    exact (translate_none_iff hcr3 hin' hstop').mpr hdec'
  · refine ⟨fs, ?_, ?_, fun u hu hoff => h.untouched hfresh hu hoff⟩
    · rw [h.eq]
      exact h.reached.hands
    · rw [h.eq]
      exact h.stale.frames

end Regrown

end MemoryMap

/-! ## With a word present -/

/-- Below a linked PDPT table with a present word there is a page, or a table, which has one here;
or the walk panics. -/
theorem MemoryMap.translate_ne_none {π : Type} {S : AddrSpace} {vaddr : Addr S} {s : Machine π}
    {f w : ℕ} (hcr3 : Entry.field s.cr3 < uma.stop) (hf : IsFrame f)
    (hlink : s.tables (Entry.field s.cr3) (key vaddr.value 0) = Entry.link f)
    (hword : s.tables f (key vaddr.value 1) = w) (hpresent : w.testBit 0 = true)
    (hbelow : s.tables (Entry.field w) (key vaddr.value 2) = 0x83) :
    (translate vaddr).run s ≠ .ok none s := by
  intro h
  have hin := inside_of_translate hcr3 h
  have htable : tableAt next s.tables (Entry.field s.cr3) (key vaddr.value) 1 = some f := by
    rw [tableAt_succ rfl, hlink, next_link (by decide) hf]
  have hentry := entryAt_of_table htable
  rw [hword] at hentry
  cases hnext : next 1 w with
  | none =>
      have hnone := (translate_none_iff hcr3 hin ⟨hentry, hnext⟩).mp h
      rw [decode_eq_none, hpresent] at hnone
      cases hnone
  | some u =>
      obtain ⟨-, -, rfl⟩ := next_eq_some hnext
      rw [← hword] at hnext
      have hentry₂ := entryAt_of_table ((tableAt_succ htable).trans hnext)
      rw [hword, hbelow] at hentry₂
      exact absurd ((translate_none_iff hcr3 hin ⟨hentry₂, rfl⟩).mp h) (by decide)

/-- In an empty map, the first frame becomes the PDPT table, as it is. -/
theorem LinearWalker.downLoop_first {S : AddrSpace} {vaddr : Addr S} {s : Machine (List ℕ)}
    {r f : ℕ} {p : List ℕ} {target : Level} (hr : IsFrame r) (hf : IsFrame f) (hcr3 : s.cr3 = r)
    (hempty : ∀ i, s.tables r i = 0) (hphys : s.phys = f :: p) (htop : Level.cr3 ≠ target)
    (hne : Level.ofDepth 0 ≠ target) (fuel : ℕ) :
    (downLoop stackAlloc vaddr target (fuel + 2) .ofMap).run s
      = (downLoop stackAlloc vaddr target fuel ⟨.ofDepth 1, some (f, key vaddr.value 1)⟩).run
        { s with tables := TableTree.set s.tables r (key vaddr.value 0) (Entry.link f), phys := p
                 frames := s.frames ++ [f] } := by
  have hroot : Entry.field s.cr3 = r := by rw [hcr3, Entry.field_frame hr.1 hr.2]
  have halloc : (stackAlloc PageSize.small.layout).run s.phys = .ok (some ⟨⟨f⟩, 4096⟩) p := by
    rw [hphys]
    rfl
  have hdown : (down stackAlloc vaddr ⟨.ofDepth 0, some (r, key vaddr.value 0)⟩).run s
      = .ok ⟨.ofDepth 1, some (f, key vaddr.value 1)⟩ { s with
        tables := TableTree.set s.tables r (key vaddr.value 0) (Entry.link f), phys := p
        frames := s.frames ++ [f] } := by
    rw [down_eq_downNew (by decide) (by rw [hempty]; exact inSpace_zero 0)
      (by rw [hempty]; exact next_zero 0)]
    exact downNew_run (by decide) halloc hf
  rw [downLoop_step htop (down_ofMap (by rw [hroot]; exact hr.2)), hroot, downLoop_step hne hdown]

/-- An empty map whose allocator has one frame left, with the contents `g`. -/
def reused (root f : ℕ) (g : Fin tableLen → ℕ) (rest : Tables) : Machine (List ℕ) :=
  ⟨root, [], Function.update (Function.update rest f g) root fun _ => 0, [f], []⟩

theorem hugeAt_aligned (i : ℕ) : PageSize.huge.align ∣ physicalRemap.start + i * 2 ^ 30 :=
  Nat.dvd_add (by decide) (Nat.dvd_mul_left _ _)

/-- The pages of 1 GiB at the start of `PhysicalRemapSpace`. -/
def hugeAt (i : Fin tableLen) : PageAddr physicalRemap :=
  ⟨⟨physicalRemap.start + i.val * 2 ^ 30⟩, .huge, hugeAt_aligned i⟩

theorem hugeAt_canonical (i : Fin tableLen) : Canonical (hugeAt i).base.value := by
  have hi : i.val < 512 := i.isLt
  right
  simp only [hugeAt, physicalRemap]
  omega

theorem key_hugeAt (i : Fin tableLen) :
    key (hugeAt i).base.value 0 = 273 ∧ key (hugeAt i).base.value 1 = i := by
  have hi : i.val < 512 := i.isLt
  refine ⟨Fin.ext ?_, Fin.ext ?_⟩
  · show (0xFFFF888000000000 + i.val * 2 ^ 30) / 2 ^ 39 % 512 = 273
    omega
  · show (0xFFFF888000000000 + i.val * 2 ^ 30) / 2 ^ 30 % 512 = i.val
    omega

theorem hugeAt_not_contains {i j : Fin tableLen} (h : i ≠ j) :
    ¬ (hugeAt i).Contains (hugeAt j).base.value := by
  rw [PageAddr.contains_iff_agree _ (hugeAt_canonical i) (hugeAt_canonical j)]
  intro hagree
  have hkey := hagree 1 (Nat.lt_succ_self 1)
  rw [(key_hugeAt i).2, (key_hugeAt j).2] at hkey
  exact h hkey

theorem exists_two_frames (u : ℕ) : ∃ r f, IsFrame r ∧ IsFrame f ∧ r ≠ f ∧ u ≠ r ∧ u ≠ f := by
  have hframe : IsFrame 0x1000 ∧ IsFrame 0x2000 ∧ IsFrame 0x3000 := by
    simp only [IsFrame, tableAlignment]
    decide
  by_cases h₁ : u = 0x1000
  · exact ⟨0x2000, 0x3000, hframe.2.1, hframe.2.2, by decide, by omega, by omega⟩
  · by_cases h₂ : u = 0x2000
    · exact ⟨0x1000, 0x3000, hframe.1, hframe.2.2, by decide, h₁, by omega⟩
    · exact ⟨0x1000, 0x2000, hframe.1, hframe.2.1, by decide, h₁, h₂⟩

section Reused

variable {r f : ℕ} {g : Fin tableLen → ℕ} {rest : Tables}

theorem reused_root (i : Fin tableLen) : (reused r f g rest).tables r i = 0 := by
  show Function.update (Function.update rest f g) r (fun _ => 0) r i = 0
  rw [Function.update_self]

theorem reused_frame (hne : r ≠ f) : (reused r f g rest).tables f = g :=
  (Function.update_of_ne hne.symm ..).trans (Function.update_self ..)

theorem reused_rest {u : ℕ} (hr : u ≠ r) (hf : u ≠ f) : (reused r f g rest).tables u = rest u :=
  (Function.update_of_ne hr ..).trans (Function.update_of_ne hf ..)

theorem reused_fresh (hf : IsFrame f) (hne : r ≠ f) (n : ℕ) {K : Set (ℕ → Fin tableLen)} :
    HandsFresh stackAlloc [f] n (reused r f g rest).tables r K :=
  stackAlloc_fresh reused_root (List.nodup_singleton f)
    (List.forall_mem_singleton.mpr ⟨hf, hne.symm⟩) n

theorem reused_from (hne : r ≠ f) {G : Set (Fin tableLen → ℕ)} (hg : g ∈ G) (n : ℕ) :
    HandsFrom G stackAlloc [f] n (reused r f g rest).tables :=
  stackAlloc_from (List.forall_mem_singleton.mpr ((reused_frame hne).symm ▸ hg)) n

/-- The first page of physical memory, of 1 GiB. -/
def firstHuge : PageAddr uma := ⟨⟨0⟩, .huge, Nat.dvd_zero _⟩

variable (g rest) in
/-- The frame becomes the PDPT table, as it is, and one of its entries is written. -/
theorem reused_map {S : AddrSpace} (hr : IsFrame r) (hf : IsFrame f) (vpage : PageAddr S)
    (hsize : vpage.pageSize = .huge) : ∃ raw,
    (MemoryMap.map stackAlloc vpage firstHuge [.present, .pageSize]).run (reused r f g rest)
      = .ok (some ()) ⟨r, [f], TableTree.set (TableTree.set (reused r f g rest).tables r
        (key vpage.base.value 0) (Entry.link f)) f (key vpage.base.value 1) raw, [], []⟩ := by
  have hloop : (LinearWalker.downLoop stackAlloc vpage.base (.fromPageSize vpage.pageSize) 5
      .ofMap).run (reused r f g rest)
      = .ok ⟨.fromPageSize vpage.pageSize, some (f, key vpage.base.value 1)⟩ ⟨r, [f], TableTree.set
        (reused r f g rest).tables r (key vpage.base.value 0) (Entry.link f), [], []⟩ := by
    rw [hsize, LinearWalker.downLoop_first hr hf rfl reused_root rfl (by decide) (by decide)]
    exact LinearWalker.downLoop_end 2 rfl
  have hflags : PageFlags vpage.pageSize [.present, .pageSize] := by
    rw [hsize]
    exact ⟨by decide, by decide⟩
  have hal : vpage.pageSize.align ∣ firstHuge.base.value := Nat.dvd_zero _
  exact ⟨_, MemoryMap.map_of_downLoop hsize hloop (hflags.reinit_page hal _)⟩

theorem reused_unmapped {S : AddrSpace} (hr : IsFrame r) (vaddr : Addr S) :
    (MemoryMap.translate vaddr).run (reused r f g rest) = .ok none (reused r f g rest) := by
  have hroot : Entry.field (reused r f g rest).cr3 = r := Entry.field_frame hr.1 hr.2
  have hstop : Stops next (reused r f g rest).tables (Entry.field (reused r f g rest).cr3)
      (key vaddr.value) 0 0 := by
    rw [hroot]
    exact ⟨congrArg some (reused_root _), next_zero 0⟩
  refine (MemoryMap.translate_none_iff ?_ ?_ hstop).mpr (decode_zero 0)
  · rw [hroot]
    exact hr.2
  · rw [hroot]
    exact inside_of_empty reused_root

/-- The other entries of the PDPT table are still there. -/
theorem reused_not_unmapped {S : AddrSpace} {vaddr : Addr S} {i j : Fin tableLen} {w raw : ℕ}
    {s : Machine (List ℕ)} (hr : IsFrame r) (hf : IsFrame f) (hne : r ≠ f) (hcr3 : s.cr3 = r)
    (hs : s.tables = TableTree.set (TableTree.set (reused r f g rest).tables r i (Entry.link f))
      f j raw)
    (hi : key vaddr.value 0 = i) (hj : key vaddr.value 1 ≠ j) (hw : g (key vaddr.value 1) = w)
    (hpresent : w.testBit 0 = true) (hur : Entry.field w ≠ r) (huf : Entry.field w ≠ f)
    (hbelow : rest (Entry.field w) (key vaddr.value 2) = 0x83) :
    (MemoryMap.translate vaddr).run s ≠ .ok none s := by
  have hroot : Entry.field s.cr3 = r := by rw [hcr3, Entry.field_frame hr.1 hr.2]
  refine MemoryMap.translate_ne_none (by rw [hroot]; exact hr.2) hf ?_ ?_ hpresent ?_
  · rw [hroot, hs, set_table_of_ne hne, hi, set_self]
  · rw [hs, set_of_ne fun h => hj h.2, set_table_of_ne hne.symm, reused_frame hne, hw]
  · rw [hs, set_table_of_ne huf, set_table_of_ne hur, reused_rest hur huf, hbelow]

end Reused

namespace MemoryMap

/-- `map` leaves the rest of the address space alone, whatever the structure and the call, exactly
if the frames it takes for its tables have no present word. -/
theorem new_tables_empty_iff (G : Set (Fin tableLen → ℕ)) :
    (∀ (π : Type) (S : AddrSpace) (s : Machine π) (alloc : FrameAlloc π) (vpage : PageAddr S)
      (ppage : PageAddr uma) (flags : List Flag) (res : Option Unit) (s' : Machine π),
      Canonical vpage.base.value → Entry.field s.cr3 < uma.stop →
      Inside s.tables (Entry.field s.cr3) Set.univ →
      Apart next s.tables (Entry.field s.cr3) Set.univ →
      HandsFresh alloc s.phys (missing next s.tables (Entry.field s.cr3) (key vpage.base.value)
        vpage.pageSize.depth) s.tables (Entry.field s.cr3) Set.univ →
      HandsFrom G alloc s.phys (missing next s.tables (Entry.field s.cr3) (key vpage.base.value)
        vpage.pageSize.depth) s.tables →
      (map alloc vpage ppage flags).run s = .ok res s' → LeavesRest alloc vpage s s') ↔
    ∀ g ∈ G, ∀ i, (g i).testBit 0 = false := by
  constructor
  · intro h g hg i
    rw [← Bool.not_eq_true]
    intro hpresent
    obtain ⟨r, f, hr, hf, hne, hur, huf⟩ := exists_two_frames (Entry.field (g i))
    obtain ⟨j, hj⟩ : ∃ j : Fin tableLen, j ≠ i := by
      by_cases hi : i = 0
      · exact ⟨1, by rw [hi]; decide⟩
      · exact ⟨0, Ne.symm hi⟩
    have hroot : Entry.field (reused r f g fun _ _ => 0x83).cr3 = r := Entry.field_frame hr.1 hr.2
    obtain ⟨raw, hrun⟩ := reused_map g (fun _ _ => 0x83) hr hf (hugeAt j) rfl
    have hrest := h _ _ _ stackAlloc (hugeAt j) firstHuge _ _ _ (hugeAt_canonical j)
      (by rw [hroot]; exact hr.2) (by rw [hroot]; exact inside_of_empty reused_root)
      (by rw [hroot]; exact apart_of_empty reused_root)
      (by rw [hroot]; exact reused_fresh hf hne _) (reused_from hne hg _) hrun
    obtain ⟨hi₀, hi₁⟩ := key_hugeAt i
    obtain ⟨hj₀, hj₁⟩ := key_hugeAt j
    have hafter := hrest.unmapped _ (hugeAt i).base (hugeAt_canonical i) (hugeAt_not_contains hj)
      (reused_unmapped hr _)
    refine reused_not_unmapped hr hf hne rfl rfl (hi₀.trans hj₀.symm) ?_ (congrArg g hi₁) hpresent
      hur huf rfl hafter
    rw [hi₁, hj₁]
    exact hj.symm
  · intro hclean π S s alloc vpage ppage flags res s' hv hcr3 hin hapart hfresh hfrom hrun
    obtain ⟨fs, tables, t, a, raw, h⟩ := exists_regrown hcr3 hin hapart rfl hfresh (by
      rintro f ⟨fs, p, hhands, hlen, hf⟩
      exact hclean _ (hfrom fs p hhands hlen f hf)) hrun
    exact h.leavesRest hfresh hv hcr3 hin

/-- The frame has a page left in it, at entry 5. -/
def leftPage : Machine (List ℕ) :=
  reused 0x1000 0x2000 (Function.update (fun _ => 0) 5 0x83) fun _ _ => 0

/-- The frame has a table left in it, at entry 0. -/
def leftTable : Machine (List ℕ) :=
  reused 0x1000 0x2000 (Function.update (fun _ => 0) 0 0x5003) fun _ _ => 0

/-- The page that was left is mapped, and the table that was left is written. -/
theorem left_words_matter :
    (∃ s', (map stackAlloc (⟨⟨0xFFFF888000000000⟩, .huge, by decide⟩ : PageAddr physicalRemap)
        ⟨⟨0x40000000⟩, .huge, by decide⟩ [.present, .pageSize]).run leftPage = .ok (some ()) s' ∧
      (translate (⟨0xFFFF888140000000⟩ : Addr physicalRemap)).run leftPage = .ok none leftPage ∧
      (translate (⟨0xFFFF888140000000⟩ : Addr physicalRemap)).run s' = .ok (some ⟨0⟩) s') ∧
    ∃ s', (map stackAlloc (⟨⟨0xFFFF888000000000⟩, .large, by decide⟩ : PageAddr physicalRemap)
        ⟨⟨0x200000⟩, .large, by decide⟩ [.present, .pageSize]).run leftTable = .ok (some ()) s' ∧
      s'.frames = [0x2000] ∧
      (∀ d, tableAt next leftTable.tables 0x1000 (key 0xFFFF888000000000) d ≠ some 0x5000) ∧
      leftTable.tables 0x5000 0 = 0 ∧ s'.tables 0x5000 0 = 0x200081 := by
  refine ⟨⟨_, rfl, rfl, rfl⟩, _, rfl, rfl, fun d h => ?_, rfl, rfl⟩
  cases (tableAt_of_empty reused_root h).2

end MemoryMap

end Koe
