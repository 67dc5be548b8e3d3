/-
# `KoeOs.Paging.Mapping` — what `map` does to the address space

`map` grows the way of the page to the level of the page, and writes one entry there.  By
the locality of both writes:

    an address in the page        ends at the entry that was written
    an address outside            ends where it did,
      if it ended at no page        or in one of the new, empty tables
      if a larger page held both    or there too: the page was replaced by a table

The last line is the only way to lose a mapping.  All this needs the frames from the
allocator to be empty; `down` does not clear them.
-/
import KoeOs.Paging.Walk

namespace Koe

open TableTree

/-! ## Addresses and pages -/

/-- Bits 48 to 63 are copies of bit 47. -/
def Canonical (v : ℕ) : Prop := v < 2 ^ 47 ∨ (2 ^ 64 - 2 ^ 47 ≤ v ∧ v < 2 ^ 64)

/-- Two addresses agree down to the level of a page size if they lie in one page of that size. -/
theorem agree_iff_div (size : PageSize) {v w : ℕ} (hv : Canonical v) (hw : Canonical w) :
    Agree (size.depth + 1) (key w) (key v) ↔ v / size.usize = w / size.usize := by
  have hkey : ∀ j, key w j = key v j ↔ w / 2 ^ (39 - 9 * j) % 512 = v / 2 ^ (39 - 9 * j) % 512 :=
    fun j => Fin.ext_iff
  rw [size.usize_eq]
  simp only [Canonical] at hv hw
  constructor
  · intro h
    have h0 := (hkey 0).mp (h 0 (by omega))
    cases size with
    | huge =>
        have h1 := (hkey 1).mp (h 1 (by decide))
        simp only [PageSize.order] at h0 h1 ⊢
        omega
    | large =>
        have h1 := (hkey 1).mp (h 1 (by decide))
        have h2 := (hkey 2).mp (h 2 (by decide))
        simp only [PageSize.order] at h0 h1 h2 ⊢
        omega
    | small =>
        have h1 := (hkey 1).mp (h 1 (by decide))
        have h2 := (hkey 2).mp (h 2 (by decide))
        have h3 := (hkey 3).mp (h 3 (by decide))
        simp only [PageSize.order] at h0 h1 h2 h3 ⊢
        omega
  · intro h j hj
    have horder : 39 - 9 * j = size.order + 9 * (size.depth - j) := by
      cases size <;> simp only [PageSize.order, PageSize.depth] at hj ⊢ <;> omega
    rw [hkey, horder, Nat.pow_add, ← Nat.div_div_eq_div_mul, ← Nat.div_div_eq_div_mul, h]

namespace PageAddr

variable {S : AddrSpace}

/-- The address lies in the page. -/
def Contains (page : PageAddr S) (v : ℕ) : Prop :=
  page.base.value ≤ v ∧ v < page.base.value + page.pageSize.usize

instance decidableContains (page : PageAddr S) (v : ℕ) : Decidable (page.Contains v) :=
  inferInstanceAs (Decidable (_ ∧ _))

theorem contains_iff_agree (page : PageAddr S) {v : ℕ} (hpage : Canonical page.base.value)
    (hv : Canonical v) :
    page.Contains v ↔ Agree (page.pageSize.depth + 1) (key page.base.value) (key v) := by
  have hal := page.aligned
  rw [agree_iff_div _ hv hpage, Contains]
  rw [PageSize.align] at hal
  obtain ⟨q, hq⟩ := hal
  have hpos : 0 < page.pageSize.usize := by rw [PageSize.usize_eq]; exact Nat.two_pow_pos _
  rw [hq, Nat.mul_div_cancel_left _ hpos, Nat.div_eq_iff hpos]
  constructor
  · rintro ⟨hle, hlt⟩
    rw [Nat.mul_comm] at hle hlt
    exact ⟨hle, by omega⟩
  · rintro ⟨hle, hlt⟩
    rw [Nat.mul_comm] at hle hlt
    exact ⟨hle, by omega⟩

end PageAddr

/-! ## What `map` writes -/

namespace MemoryMap

variable {π : Type} {S : AddrSpace} {alloc : FrameAlloc π} {s s₁ : Machine π} {vpage : PageAddr S}
  {ppage : PageAddr uma} {flags : List Flag} {K : Set (ℕ → Fin tableLen)}

/-- The word that `map` leaves in the entry of the page. -/
def Written (size : PageSize) (addr : Addr uma) (flags : List Flag) (old raw : ℕ) : Prop :=
  (¬ PageFlags size flags ∧ (raw = old ∨ raw = 0)) ∨
    (PageFlags size flags ∧ raw = Entry.pageWord size addr flags)

theorem map_of_downLoop {t raw : ℕ} {i : Fin tableLen} {res : Option Unit}
    (hsize : vpage.pageSize = ppage.pageSize)
    (hloop : (LinearWalker.downLoop alloc vpage.base (.fromPageSize vpage.pageSize) 5 .ofMap).run s
      = .ok ⟨.fromPageSize vpage.pageSize, some (t, i)⟩ s₁)
    (hre : (Entry.reinit (.fromPageSize vpage.pageSize) ppage.base flags).run (s₁.tables t i)
      = .ok res raw) :
    (map alloc vpage ppage flags).run s
      = .ok (some ()) { s₁ with tables := set s₁.tables t i raw } := by
  rw [map, Code.bind_ok (Code.assert_of (beq_iff_eq.mpr hsize) _ s)]
  refine (Code.bind_ok hloop).trans ?_
  refine (Code.bind_ok (EntryRef.reinit_run hre)).trans ?_
  rfl

/-- What `map` did: it grew the way of the page to `tables`, with the frames `fs`, and then wrote
`raw` to the entry of the page in the table `t`. -/
structure Maps (alloc : FrameAlloc π) (s : Machine π) (K : Set (ℕ → Fin tableLen))
    (vpage : PageAddr S) (ppage : PageAddr uma) (flags : List Flag) (fs : List ℕ) (tables : Tables)
    (t raw : ℕ) (s' : Machine π) : Prop where
  hands : Hands alloc s.phys fs s'.phys
  growth : Growth next Entry.link 0 s.tables (Entry.field s.cr3) K (key vpage.base.value)
    vpage.pageSize.depth fs tables
  table : tableAt next tables (Entry.field s.cr3) (key vpage.base.value) vpage.pageSize.depth
    = some t
  written : Written vpage.pageSize ppage.base flags
    (tables t (key vpage.base.value vpage.pageSize.depth)) raw
  cr3_eq : s'.cr3 = s.cr3
  tables_eq : s'.tables = set tables t (key vpage.base.value vpage.pageSize.depth) raw
  frames_eq : s'.frames = s.frames ++ fs
  freed_eq : s'.freed = s.freed

/-- `map` grows the way of the page and writes its entry, or the allocator fails.  The flags only
have to be such that a large page is not taken for a table. -/
theorem map_cases (hsize : vpage.pageSize = ppage.pageSize)
    (hflags : .present ∈ flags → vpage.pageSize ≠ .small → .pageSize ∈ flags)
    (hk : key vpage.base.value ∈ K) (hcr3 : Entry.field s.cr3 < uma.stop)
    (hapart : Apart next s.tables (Entry.field s.cr3) K)
    (hin : Inside s.tables (Entry.field s.cr3) K)
    (hblank : HandsBlank alloc s.phys (missing next s.tables (Entry.field s.cr3)
      (key vpage.base.value) vpage.pageSize.depth) s.tables (Entry.field s.cr3) K) :
    (∃ fs tables t raw s', Maps alloc s K vpage ppage flags fs tables t raw s' ∧
      (map alloc vpage ppage flags).run s = .ok (some ()) s') ∨
    (FailsBefore alloc s.phys (missing next s.tables (Entry.field s.cr3)
      (key vpage.base.value) vpage.pageSize.depth) ∧
      ∃ q s', (map alloc vpage ppage flags).run s = .error q s') := by
  have hal : vpage.pageSize.align ∣ ppage.base.value := hsize ▸ ppage.aligned
  rcases LinearWalker.downLoop_cases vpage.pageSize.depth_le hk hcr3 hapart hin hblank with
    ⟨fs, tables, p, t, hat, hrun⟩ | ⟨hfails, q, s', hrun⟩
  · rw [← PageSize.fromPageSize_eq] at hrun
    obtain ⟨res, raw, hre, hwritten⟩ := Entry.reinit_cases hflags hal
      (tables t (key vpage.base.value vpage.pageSize.depth))
    refine .inl ⟨fs, tables, t, raw, _, ?_, map_of_downLoop hsize hrun hre⟩
    exact ⟨hat.hands, hat.growth, hat.table, hwritten, rfl, rfl, rfl, rfl⟩
  · rw [← PageSize.fromPageSize_eq] at hrun
    refine .inr ⟨hfails, q, s', ?_⟩
    rw [map, Code.bind_ok (Code.assert_of (beq_iff_eq.mpr hsize) _ s)]
    exact Code.bind_error hrun

namespace Maps

variable {fs : List ℕ} {tables : Tables} {t raw : ℕ} {s' : Machine π}

/-- With flags for a page, `map` writes the page. -/
theorem raw_eq (h : Maps alloc s K vpage ppage flags fs tables t raw s')
    (hflags : PageFlags vpage.pageSize flags) :
    raw = Entry.pageWord vpage.pageSize ppage.base flags := by
  obtain ⟨hbad, -⟩ | ⟨-, hraw⟩ := h.written
  · exact absurd hflags hbad
  · exact hraw

section Ends

variable (h : Maps alloc s K vpage ppage flags fs tables t raw s') (hk : key vpage.base.value ∈ K)
  (hvpage : Canonical vpage.base.value) {v : ℕ} (hv : Canonical v) (hkv : key v ∈ K)
include h hk hvpage hv hkv

/-- The addresses of the page end at the entry that was written. -/
theorem stops_of_contains (hleaf : next vpage.pageSize.depth raw = none) (hmem : vpage.Contains v) :
    Stops next s'.tables (Entry.field s.cr3) (key v) vpage.pageSize.depth raw := by
  rw [h.tables_eq]
  exact stops_set_of_agree h.growth.apart hk h.table hleaf hkv
    ((vpage.contains_iff_agree hvpage hv).mp hmem)

/-- Other addresses end where they did, or in a table that was hung in for the page. -/
theorem stops_of_not_contains (hmem : ¬ vpage.Contains v) {d e : ℕ}
    (hs : Stops next s.tables (Entry.field s.cr3) (key v) d e) :
    Stops next s'.tables (Entry.field s.cr3) (key v) d e ∨
      (d < vpage.pageSize.depth ∧ Agree (d + 1) (key vpage.base.value) (key v) ∧
        ∃ d', Stops next s'.tables (Entry.field s.cr3) (key v) d' 0) := by
  rw [h.tables_eq]
  exact h.growth.stops_put hk h.table hkv
    (fun hagree => hmem ((vpage.contains_iff_agree hvpage hv).mpr hagree)) hs

end Ends

/-- The tables stay inside physical memory. -/
theorem inside (h : Maps alloc s K vpage ppage flags fs tables t raw s')
    (hk : key vpage.base.value ∈ K) (hleaf : next vpage.pageSize.depth raw = none)
    (hin : Inside s.tables (Entry.field s.cr3) K)
    (hfs : ∀ f ∈ fs, IsFrame f)
    (hraw : Entry.InSpace (.ofDepth vpage.pageSize.depth) raw) :
    Inside s'.tables (Entry.field s'.cr3) K := by
  rw [h.tables_eq, h.cr3_eq]
  intro k' hk' d' e he
  rcases h.growth.entries_put hk h.table hleaf hk' he with he | rfl | ⟨f, hf, rfl⟩ | ⟨rfl, rfl⟩
  · exact hin k' hk' d' e he
  · exact inSpace_zero d'
  · exact Entry.inSpace_link (hfs f hf).1 (hfs f hf).2
  · exact hraw

theorem isFrame (h : Maps alloc s K vpage ppage flags fs tables t raw s')
    (hblank : HandsBlank alloc s.phys (missing next s.tables (Entry.field s.cr3)
      (key vpage.base.value) vpage.pageSize.depth) s.tables (Entry.field s.cr3) K) :
    ∀ f ∈ fs, IsFrame f := fun f hf =>
  ((hblank fs _ h.hands (Nat.le_of_eq h.growth.length)).2 f hf).1

/-- With flags for a page and frames from the allocator. -/
theorem inside_page (h : Maps alloc s K vpage ppage flags fs tables t raw s')
    (hk : key vpage.base.value ∈ K) (hsize : vpage.pageSize = ppage.pageSize)
    (hp : ppage.base.value < uma.stop) (hflags : PageFlags vpage.pageSize flags)
    (hin : Inside s.tables (Entry.field s.cr3) K)
    (hblank : HandsBlank alloc s.phys (missing next s.tables (Entry.field s.cr3)
      (key vpage.base.value) vpage.pageSize.depth) s.tables (Entry.field s.cr3) K) :
    Inside s'.tables (Entry.field s'.cr3) K := by
  have hal : vpage.pageSize.align ∣ ppage.base.value := hsize ▸ ppage.aligned
  obtain rfl := h.raw_eq hflags
  exact h.inside hk (hflags.next_pageWord hal hp) hin (h.isFrame hblank)
    (hflags.inSpace_pageWord hal hp)

end Maps

/-- The entry at which the walk of `translate` ends, and what it refers to. -/
def EndsAt (s : Machine π) (vaddr : Addr S) (ent : EntryRef) (target : EntryTarget) : Prop :=
  (walk vaddr).run s = .ok ent s ∧ ent.target.run s = .ok target s

theorem EndsAt.unique {vaddr : Addr S} {ent ent' : EntryRef} {target target' : EntryTarget}
    (h : EndsAt s vaddr ent target) (h' : EndsAt s vaddr ent' target') :
    ent = ent' ∧ target = target' := by
  obtain ⟨rfl, -⟩ := EStateM.Result.ok.inj (h.1.symm.trans h'.1)
  exact ⟨rfl, (EStateM.Result.ok.inj (h.2.symm.trans h'.2)).1⟩

/-- The address was mapped by a page larger than `vpage` that contained `vpage`. -/
def UnderLarger {T : AddrSpace} (s : Machine π) (vpage : PageAddr S) (vaddr : Addr T) : Prop :=
  ∃ ent size addr, EndsAt s vaddr ent (.page (.fromPageSize size) addr) ∧
    vpage.pageSize.usize < size.usize ∧
    vaddr.value / size.usize = vpage.base.value / size.usize

theorem endsAt_of_stops {vaddr : Addr S} {d e : ℕ} (hcr3 : Entry.field s.cr3 < uma.stop)
    (hin : Inside s.tables (Entry.field s.cr3) {key vaddr.value})
    (hstop : Stops next s.tables (Entry.field s.cr3) (key vaddr.value) d e) :
    ∃ t, s.tables t (key vaddr.value d) = e ∧
      EndsAt s vaddr ⟨.ofDepth d, some (t, key vaddr.value d)⟩ (Entry.decode (.ofDepth d) e) := by
  obtain ⟨t, rfl, hwalk⟩ := walk_run hcr3 hin hstop
  exact ⟨t, rfl, hwalk, LinearWalker.target_run (hin _ rfl d _ hstop.1)⟩

/-- The walk ends at a page of this size at `addr`, with these flags and no others. -/
def ShowsPage (s : Machine π) (vaddr : Addr S) (size : PageSize) (addr : Addr uma)
    (flags : List Flag) : Prop :=
  ∃ ent, EndsAt s vaddr ent (.page (.fromPageSize size) addr) ∧ ent.level = .fromPageSize size ∧
    ∀ f, Entry.flag ⟨ent.level, s.read ent.place⟩ f = some true ↔ f ∈ flags

/-- What an address shows whose way ends at the word of a page. -/
theorem showsPage_of_stops {vaddr : Addr S} {size : PageSize} {addr : Addr uma}
    (hflags : PageFlags size flags) (hal : size.align ∣ addr.value) (hp : addr.value < uma.stop)
    (hcr3 : Entry.field s.cr3 < uma.stop)
    (hin : Inside s.tables (Entry.field s.cr3) {key vaddr.value})
    (hstop : Stops next s.tables (Entry.field s.cr3) (key vaddr.value) size.depth
      (Entry.pageWord size addr flags)) : ShowsPage s vaddr size addr flags := by
  obtain ⟨u, hread, hends⟩ := endsAt_of_stops hcr3 hin hstop
  rw [← PageSize.fromPageSize_eq, hflags.decode_pageWord hal hp] at hends
  refine ⟨_, hends, rfl, fun f => ?_⟩
  simp only [Machine.read, hread]
  exact hflags.flag_pageWord hal f

/-- With flags for a page, the addresses of the page show it. -/
theorem Maps.showsPage {fs : List ℕ} {tables : Tables} {t raw : ℕ} {s' : Machine π}
    {T : AddrSpace} {vaddr : Addr T}
    (h : Maps alloc s K vpage ppage flags fs tables t raw s') (hk : key vpage.base.value ∈ K)
    (hsize : vpage.pageSize = ppage.pageSize) (hp : ppage.base.value < uma.stop)
    (hflags : PageFlags vpage.pageSize flags) (hcr3 : Entry.field s.cr3 < uma.stop)
    (hin : Inside s'.tables (Entry.field s'.cr3) K) (hkv : key vaddr.value ∈ K)
    (hagree : Agree (vpage.pageSize.depth + 1) (key vpage.base.value) (key vaddr.value)) :
    ShowsPage s' vaddr vpage.pageSize ppage.base flags := by
  have hal : vpage.pageSize.align ∣ ppage.base.value := hsize ▸ ppage.aligned
  obtain rfl := h.raw_eq hflags
  have hleaf := hflags.next_pageWord hal hp
  have hstop := stops_set_of_agree h.growth.apart hk h.table hleaf hkv hagree
  rw [← h.tables_eq, ← h.cr3_eq] at hstop
  exact showsPage_of_stops hflags hal hp (by rw [h.cr3_eq]; exact hcr3)
    (fun k hk => hin k (hk ▸ hkv)) hstop

/-- An entry that refers to a page refers to one of its level. -/
theorem decode_page {d e : ℕ} {level : Level} {addr : Addr uma} (hd : d ≤ 3)
    (h : Entry.decode (.ofDepth d) e = .page level addr) :
    ∃ size : PageSize, size.depth = d ∧ level = .fromPageSize size := by
  match d with
  | 0 =>
      simp only [Level.ofDepth, Entry.decode] at h
      split at h <;> cases h
  | 1 =>
      simp only [Level.ofDepth, Entry.decode] at h
      repeat' split at h
      all_goals cases h
      exact ⟨.huge, rfl, rfl⟩
  | 2 =>
      simp only [Level.ofDepth, Entry.decode] at h
      repeat' split at h
      all_goals cases h
      exact ⟨.large, rfl, rfl⟩
  | 3 =>
      simp only [Level.ofDepth, Entry.decode] at h
      split at h
      all_goals cases h
      exact ⟨.small, rfl, rfl⟩

theorem usize_lt_of_depth_lt {p q : PageSize} (h : p.depth < q.depth) : q.usize < p.usize := by
  cases p <;> cases q <;> simp only [PageSize.depth] at h <;> first | omega | decide

/-- After `map`, every address in the page ends at the entry of the page, with the flags that were
given; every other address ends at what it ended at before, except if a larger page held it
together with `vpage`.  One that ended at nothing may do so in another entry: if it shares a new
table with the page, its walk goes deeper. -/
theorem map_correct (s : Machine π) (alloc : FrameAlloc π) (vpage : PageAddr S)
    (ppage : PageAddr uma) (flags : List Flag) (hsize : vpage.pageSize = ppage.pageSize)
    (hv : Canonical vpage.base.value) (hp : ppage.base.value < uma.stop)
    (hflags : PageFlags vpage.pageSize flags)
    (hcr3 : Entry.field s.cr3 < uma.stop)
    (hin : Inside s.tables (Entry.field s.cr3) Set.univ)
    (hapart : Apart next s.tables (Entry.field s.cr3) Set.univ)
    (hblank : HandsBlank alloc s.phys (missing next s.tables (Entry.field s.cr3)
      (key vpage.base.value) vpage.pageSize.depth) s.tables (Entry.field s.cr3) Set.univ)
    (halloc : ¬ FailsBefore alloc s.phys (missing next s.tables (Entry.field s.cr3)
      (key vpage.base.value) vpage.pageSize.depth)) :
    ∃ s', (map alloc vpage ppage flags).run s = .ok (some ()) s' ∧
      (∀ (T : AddrSpace) (vaddr : Addr T), Canonical vaddr.value → vpage.Contains vaddr.value →
        ∃ ent, EndsAt s' vaddr ent (.page (.fromPageSize vpage.pageSize) ppage.base) ∧
          ent.level = .fromPageSize vpage.pageSize ∧
          ∀ f, Entry.flag ⟨ent.level, s'.read ent.place⟩ f = some true ↔ f ∈ flags) ∧
      (∀ (T : AddrSpace) (vaddr : Addr T), Canonical vaddr.value → ¬ vpage.Contains vaddr.value →
        ¬ UnderLarger s vpage vaddr →
        ∃ ent ent' target, EndsAt s vaddr ent target ∧ EndsAt s' vaddr ent' target) := by
  have hk : key vpage.base.value ∈ (Set.univ : Set (ℕ → Fin tableLen)) := trivial
  rcases map_cases hsize (fun _ => hflags.pageSize.mpr) hk hcr3 hapart hin hblank with
    ⟨fs, tables, t, raw, s', hmaps, hrun⟩ | ⟨hfails, -⟩
  swap
  · exact absurd hfails halloc
  have hin' := hmaps.inside_page hk hsize hp hflags hin hblank
  have hcr3' : Entry.field s'.cr3 < uma.stop := by rw [hmaps.cr3_eq]; exact hcr3
  refine ⟨s', hrun, ?_, ?_⟩
  · intro T vaddr hvaddr hmem
    exact hmaps.showsPage hk hsize hp hflags hcr3 hin' trivial
      ((vpage.contains_iff_agree hv hvaddr).mp hmem)
  · intro T vaddr hvaddr hmem hlarger
    obtain ⟨d, e, hd, hstop⟩ := way_stops s.tables (Entry.field s.cr3) (key vaddr.value)
    obtain ⟨u, -, hends⟩ := endsAt_of_stops hcr3 (fun k _ => hin k trivial) hstop
    have hput := hmaps.stops_of_not_contains hk hv hvaddr trivial hmem hstop
    rw [← hmaps.cr3_eq] at hput
    rcases hput with hstop' | ⟨hlt, hagree, d', hstop'⟩ <;>
      obtain ⟨u', -, hends'⟩ := endsAt_of_stops hcr3' (fun k _ => hin' k trivial) hstop'
    · exact ⟨_, _, _, hends, hends'⟩
    · -- the entry was replaced: it was empty, or it was a larger page
      rw [decode_zero] at hends'
      cases hdec : Entry.decode (.ofDepth d) e with
      | none => exact ⟨_, _, _, hdec ▸ hends, hends'⟩
      | table level addr => exact absurd hdec (next_eq_none.mp hstop.2 level addr)
      | page level addr =>
          obtain ⟨size, rfl, rfl⟩ := decode_page hd hdec
          exact absurd ⟨_, size, addr, hdec ▸ hends, usize_lt_of_depth_lt hlt,
            (agree_iff_div size hvaddr hv).mp hagree⟩ hlarger

end MemoryMap

/-! ## Tables with nothing in them -/

section Empty

variable {tables : Tables} {root : ℕ} {K : Set (ℕ → Fin tableLen)}

theorem tableAt_of_empty (h : ∀ i, tables root i = 0) {k : ℕ → Fin tableLen} {d t : ℕ}
    (ht : tableAt next tables root k d = some t) : d = 0 ∧ t = root := by
  have hone : tableAt next tables root k 1 = none := by rw [tableAt_succ rfl, h, next_zero]
  cases d with
  | zero => cases ht; exact ⟨rfl, rfl⟩
  | succ d => exact nomatch (tableAt_none_of_le hone (by omega)).symm.trans ht

theorem missing_of_empty (h : ∀ i, tables root i = 0) (k : ℕ → Fin tableLen) (d : ℕ) :
    missing next tables root k d = d := by
  induction d with
  | zero => rfl
  | succ d ih =>
      rw [missing_succ, ih]
      cases ht : tableAt next tables root k (d + 1) with
      | none => rfl
      | some t => exact absurd (tableAt_of_empty h ht).1 (Nat.succ_ne_zero d)

theorem apart_of_empty (h : ∀ i, tables root i = 0) : Apart next tables root K := by
  intro k _ k' _ d d' t ht ht'
  obtain ⟨rfl, -⟩ := tableAt_of_empty h ht
  obtain ⟨rfl, -⟩ := tableAt_of_empty h ht'
  exact ⟨rfl, fun j hj => absurd hj (Nat.not_lt_zero j)⟩

theorem inside_of_empty (h : ∀ i, tables root i = 0) : Inside tables root K := by
  intro k _ d e he
  obtain ⟨t, ht, rfl⟩ := entryAt_eq_some.mp he
  obtain ⟨rfl, rfl⟩ := tableAt_of_empty h ht
  rw [h]
  exact inSpace_zero 0

end Empty

/-! ## A stack of frames -/

/-- An allocator that hands out the frames of a list. -/
def stackAlloc : FrameAlloc (List ℕ) := fun _ => do
  match ← get with
  | [] => return none
  | f :: fs =>
      set fs
      return some ⟨⟨f⟩, 4096⟩

theorem stackAlloc_some {p p' : List ℕ} {layout : Layout} {range : AddrRange uma}
    (h : (stackAlloc layout).run p = .ok (some range) p') : p = range.base.value :: p' := by
  cases p with
  | nil => exact nomatch h
  | cons f fs => cases h; rfl

theorem stackAlloc_hands {p p' fs : List ℕ} (h : Hands stackAlloc p fs p') : p = fs ++ p' := by
  induction h with
  | nil => rfl
  | snoc _ hrun ih => rw [ih, stackAlloc_some hrun, List.append_assoc]; rfl

/-- In an empty map, every stack of other frames is new. -/
theorem stackAlloc_fresh {p : List ℕ} {tables : Tables} {root : ℕ} {K : Set (ℕ → Fin tableLen)}
    (hempty : ∀ i, tables root i = 0) (hnodup : p.Nodup) (hp : ∀ f ∈ p, IsFrame f ∧ f ≠ root)
    (n : ℕ) : HandsFresh stackAlloc p n tables root K := by
  intro fs p' hhands _
  obtain rfl := stackAlloc_hands hhands
  refine ⟨(List.nodup_append.mp hnodup).1, fun f hf => ?_⟩
  obtain ⟨hframe, hne⟩ := hp f (List.mem_append_left p' hf)
  exact ⟨hframe, fun k _ d ht => hne (tableAt_of_empty hempty ht).2⟩

theorem stackAlloc_not_fails {p : List ℕ} : ¬ FailsBefore stackAlloc p p.length := by
  rintro ⟨fs, p', h, hlt, hfail⟩
  obtain rfl := stackAlloc_hands h
  cases p' with
  | nil => rw [List.append_nil] at hlt; exact Nat.lt_irrefl _ hlt
  | cons f p' => exact hfail _ _ rfl

/-- A map with nothing in it, and three frames to build tables of. -/
def emptyMap : Machine (List ℕ) := ⟨0x1000, [], fun _ _ => 0, [0x2000, 0x3000, 0x4000], []⟩

/-- The three frames are enough for a way to any small page. -/
theorem emptyMap_not_fails (k : ℕ → Fin tableLen) :
    ¬ FailsBefore stackAlloc emptyMap.phys (missing next emptyMap.tables 0x1000 k 3) := by
  rw [missing_of_empty fun _ => rfl]
  exact stackAlloc_not_fails

theorem emptyMap_apart {K : Set (ℕ → Fin tableLen)} : Apart next emptyMap.tables 0x1000 K :=
  apart_of_empty fun _ => rfl

theorem emptyMap_inside {K : Set (ℕ → Fin tableLen)} : Inside emptyMap.tables 0x1000 K :=
  inside_of_empty fun _ => rfl

theorem emptyMap_hands (n : ℕ) {K : Set (ℕ → Fin tableLen)} :
    HandsBlank stackAlloc emptyMap.phys n emptyMap.tables 0x1000 K := by
  have hframes : ∀ f ∈ emptyMap.phys, IsFrame f ∧ f ≠ 0x1000 := by
    simp only [IsFrame, tableAlignment]
    decide
  exact (stackAlloc_fresh (fun _ => rfl) (by decide) hframes n).blank fun _ _ _ _ _ _ _ => rfl

namespace MemoryMap

/-- The small page at physical 0x5000, mapped into the empty map.  The walk of the next page goes
down to the new PT table now, and ends at nothing, as it did in the PML4 table. -/
theorem map_correct_emptyMap : ∃ s' ent ent',
    (map stackAlloc (⟨⟨0xFFFF888000001000⟩, .small, by decide⟩ : PageAddr physicalRemap)
      ⟨⟨0x5000⟩, .small, by decide⟩ [.present, .readWrite]).run emptyMap = .ok (some ()) s' ∧
    EndsAt s' (⟨0xFFFF888000001008⟩ : Addr physicalRemap) ent (.page .pt ⟨0x5000⟩) ∧
    EndsAt s' (⟨0xFFFF888000002000⟩ : Addr physicalRemap) ent' .none := by
  obtain ⟨s', hrun, hin, hout⟩ := map_correct emptyMap stackAlloc
    (⟨⟨0xFFFF888000001000⟩, .small, by decide⟩ : PageAddr physicalRemap)
    ⟨⟨0x5000⟩, .small, by decide⟩ [.present, .readWrite] rfl (.inr (by decide)) (by decide)
    ⟨by decide, by decide⟩ (by decide) emptyMap_inside emptyMap_apart (emptyMap_hands _)
    (emptyMap_not_fails _)
  obtain ⟨ent, hends, -⟩ := hin physicalRemap ⟨0xFFFF888000001008⟩ (.inr (by decide))
    (by decide)
  have hbefore : EndsAt emptyMap (⟨0xFFFF888000002000⟩ : Addr physicalRemap)
      ⟨.pml4, some (0x1000, 273)⟩ .none := ⟨rfl, rfl⟩
  have hlarger : ¬ UnderLarger emptyMap
      (⟨⟨0xFFFF888000001000⟩, .small, by decide⟩ : PageAddr physicalRemap)
      (⟨0xFFFF888000002000⟩ : Addr physicalRemap) := by
    rintro ⟨_, _, _, hpage, -⟩
    cases (hbefore.unique hpage).2
  obtain ⟨_, ent', _, hold, hnew⟩ := hout physicalRemap ⟨0xFFFF888000002000⟩ (.inr (by decide))
    (by decide) hlarger
  obtain ⟨-, rfl⟩ := hbefore.unique hold
  exact ⟨s', ent, ent', hrun, hends, hnew⟩

end MemoryMap

end Koe
