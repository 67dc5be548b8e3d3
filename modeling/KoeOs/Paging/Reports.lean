/-
# `KoeOs.Paging.Reports` — what `map` reports

`map` drops the result of the last `reinit`, so it returns `Some(())` whenever it returns, and
it returns `None` on no path.  What it returns is right, therefore, only if there was nothing
to report:

    the sizes of the two pages      agree; `map` panics if not
    the flags                       are those of a page of this size; `reinit` fails if not
    the allocator                   has the frames that are missing; `down` panics if not
    the words of these frames       lead to no table (`Idle`)

The frames are not cleared, and the way of the page goes through them.  A word that was left
where it goes is taken for an entry: the walk follows it, and the page is written elsewhere,
perhaps to a table that is on the way already.
-/
import KoeOs.Paging.Recycled

namespace Koe

open TableTree

namespace MemoryMap

variable {π : Type} {S : AddrSpace} {alloc : FrameAlloc π} {s : Machine π} {vpage : PageAddr S}
  {ppage : PageAddr uma} {flags : List Flag} {G : Set (Fin tableLen → ℕ)}

theorem map_eq_ok {s' : Machine π} {res : Option Unit}
    (h : (map alloc vpage ppage flags).run s = .ok res s') :
    res = some () ∧ vpage.pageSize = ppage.pageSize := by
  rw [map] at h
  obtain ⟨_, _, hassert, h⟩ := Code.bind_eq_ok.mp h
  obtain ⟨_, _, -, h⟩ := Code.bind_eq_ok.mp h
  obtain ⟨_, _, -, h⟩ := Code.bind_eq_ok.mp h
  cases h
  exact ⟨rfl, beq_iff_eq.mp (Code.assert_eq_ok.mp hassert).1⟩

/-- What `map` is to return: `Some(())` if the page is there, and otherwise `None`, with every
address translated as before. -/
def Reports (s : Machine π) (alloc : FrameAlloc π) (vpage : PageAddr S) (ppage : PageAddr uma)
    (flags : List Flag) : Prop :=
  (∃ s', (map alloc vpage ppage flags).run s = .ok (some ()) s' ∧
    ShowsPage s' vpage.base vpage.pageSize ppage.base flags) ∨
  ∃ s', (map alloc vpage ppage flags).run s = .ok none s' ∧
    ∀ (T : AddrSpace) (vaddr : Addr T) (res : Option (Addr uma)),
      (translate vaddr).run s = .ok res s ↔ (translate vaddr).run s' = .ok res s'

/-- A call of `map` with a page of physical memory, in tables that are no table twice on the way
and inside physical memory.  The frames from the allocator are new to the way, and they hold
contents of `G`. -/
structure Asked (G : Set (Fin tableLen → ℕ)) (s : Machine π) (alloc : FrameAlloc π)
    (vpage : PageAddr S) (ppage : PageAddr uma) : Prop where
  page : ppage.base.value < uma.stop
  root : Entry.field s.cr3 < uma.stop
  inside : Inside s.tables (Entry.field s.cr3) {key vpage.base.value}
  apart : Apart next s.tables (Entry.field s.cr3) {key vpage.base.value}
  fresh : HandsFresh alloc s.phys (missing next s.tables (Entry.field s.cr3)
    (key vpage.base.value) vpage.pageSize.depth) s.tables (Entry.field s.cr3)
    {key vpage.base.value}
  contents : HandsFrom G alloc s.phys (missing next s.tables (Entry.field s.cr3)
    (key vpage.base.value) vpage.pageSize.depth) s.tables

/-- Nothing goes wrong in a call: the sizes agree, the flags are those of a page, and the allocator
has the frames that are missing. -/
structure Granted (s : Machine π) (alloc : FrameAlloc π) (vpage : PageAddr S)
    (ppage : PageAddr uma) (flags : List Flag) : Prop where
  size : vpage.pageSize = ppage.pageSize
  flags : PageFlags vpage.pageSize flags
  frames : ¬ FailsBefore alloc s.phys (missing next s.tables (Entry.field s.cr3)
    (key vpage.base.value) vpage.pageSize.depth)

/-- On a page that is shown the sizes agree and the flags are those of a page, in any tables. -/
theorem Reports.pageFlags (h : Reports s alloc vpage ppage flags) :
    (∃ s', (map alloc vpage ppage flags).run s = .ok (some ()) s' ∧
      ShowsPage s' vpage.base vpage.pageSize ppage.base flags) ∧
    vpage.pageSize = ppage.pageSize ∧ PageFlags vpage.pageSize flags := by
  rcases h with ⟨s', hrun, hshows⟩ | ⟨s', hrun, -⟩
  · refine ⟨⟨s', hrun, hshows⟩, (map_eq_ok hrun).2, ?_⟩
    obtain ⟨ent, ⟨-, htarget⟩, hlevel, hflags⟩ := hshows
    rw [EntryRef.target, Code.get_bind, hlevel] at htarget
    rw [hlevel] at hflags
    exact .of_target htarget hflags
  · cases (map_eq_ok hrun).1

/-! ## If no word leads to a table -/

namespace Asked

variable (h : Asked G s alloc vpage ppage)
include h

/-- The page is written, and the words that were left are off its way. -/
theorem showsPage {F : Set ℕ} {fs : List ℕ} {tables : Tables} {p : π} {t : ℕ} {a : Machine π}
    (hflags : PageFlags vpage.pageSize flags) (hsize : vpage.pageSize = ppage.pageSize)
    (hlen : fs.length ≤ missing next s.tables (Entry.field s.cr3) (key vpage.base.value)
      vpage.pageSize.depth)
    (hat : LinearWalker.At alloc { s with tables := emptied (handed alloc s.phys (missing next
      s.tables (Entry.field s.cr3) (key vpage.base.value) vpage.pageSize.depth)) s.tables }
      {key vpage.base.value} (key vpage.base.value) vpage.pageSize.depth fs tables p t)
    (hstale : Stale Idle F a (LinearWalker.grown s fs tables p)) :
    ShowsPage { a with tables := TableTree.set a.tables t (key vpage.base.value
      vpage.pageSize.depth) (Entry.pageWord vpage.pageSize ppage.base flags) }
      vpage.base vpage.pageSize ppage.base flags := by
  have hal : vpage.pageSize.align ∣ ppage.base.value := hsize ▸ ppage.aligned
  have hleaf := hflags.next_pageWord hal h.page
  have hroot : a.cr3 = s.cr3 := hstale.cr3
  have hstop := stops_set_of_agree (hstale.apart hat.growth.apart) rfl
    ((hstale.tableAt_eq _ _).trans hat.table) hleaf rfl fun _ _ => rfl
  have hframes : ∀ f ∈ fs, IsFrame f := fun f hf => ((h.fresh fs _ hat.hands hlen).2 f hf).1
  have hmaps : Maps alloc _ {key vpage.base.value} vpage ppage flags fs tables t _
      (LinearWalker.grown s fs (TableTree.set tables t (key vpage.base.value
        vpage.pageSize.depth) (Entry.pageWord vpage.pageSize ppage.base flags)) p) :=
    ⟨hat.hands, hat.growth, hat.table, .inr ⟨hflags, rfl⟩, rfl, rfl, rfl, rfl⟩
  have hin := (hstale.put t (key vpage.base.value vpage.pageSize.depth)
    (Entry.pageWord vpage.pageSize ppage.base flags)).inside
    (hmaps.inside rfl hleaf (h.fresh.inside_emptied h.inside) hframes
      (hflags.inSpace_pageWord hal h.page))
  refine showsPage_of_stops hflags hal h.page ?_ ?_ ?_
  · rw [hroot]
    exact h.root
  · rw [hroot]
    exact hin
  · rw [hroot]
    exact hstop

/-- So what is reported is what happened, exactly if nothing went wrong. -/
theorem reports_iff (hidle : ∀ g ∈ G, ∀ i, Idle (g i)) :
    Reports s alloc vpage ppage flags ↔ Granted s alloc vpage ppage flags := by
  have hwords : ∀ f ∈ handed alloc s.phys (missing next s.tables (Entry.field s.cr3)
      (key vpage.base.value) vpage.pageSize.depth), ∀ i, Idle (s.tables f i) := by
    rintro f ⟨fs, p, hhands, hlen, hf⟩
    exact hidle _ (h.contents fs p hhands hlen f hf)
  have hk : key vpage.base.value ∈ ({key vpage.base.value} : Set (ℕ → Fin tableLen)) := rfl
  rcases LinearWalker.downLoop_recycled vpage.pageSize.depth_le hk h.root h.inside h.apart rfl
      h.fresh hwords (.inl (Nat.zero_testBit 0)) fun _ => id with
    ⟨fs, tables, p, t, a, hlen, hat, hstale, hloop⟩ | ⟨hfails, q, s', herr⟩
  · rw [← PageSize.fromPageSize_eq] at hloop
    constructor
    · intro hreports
      obtain ⟨-, hsize, hflags⟩ := hreports.pageFlags
      refine ⟨hsize, hflags, ?_⟩
      rw [← hlen]
      exact hat.hands.not_failsBefore
    · rintro ⟨hsize, hflags, -⟩
      have hal : vpage.pageSize.align ∣ ppage.base.value := hsize ▸ ppage.aligned
      exact .inl ⟨_, map_of_downLoop hsize hloop (hflags.reinit_page hal _),
        h.showsPage hflags hsize (Nat.le_of_eq hlen) hat hstale⟩
  · constructor
    · intro hreports
      obtain ⟨⟨s', hrun, -⟩, -⟩ := hreports.pageFlags
      obtain ⟨cur, s₁, res', hloop, -⟩ := exists_downLoop hrun
      rw [PageSize.fromPageSize_eq] at hloop
      cases hloop.symm.trans herr
    · intro hgranted
      exact absurd hfails hgranted.frames

end Asked

end MemoryMap

/-! ## If a word leads to a table

The word is where the way of a page of 2 MiB goes through the new PDPT table, and it leads back to
this table.  So the page is written over the word, one level too high. -/

theorem largeAt_aligned (i : ℕ) :
    PageSize.large.align ∣ physicalRemap.start + i * 2 ^ 30 + i * 2 ^ 21 :=
  Nat.dvd_add (Nat.dvd_add (by decide) (Nat.dvd_mul_left_of_dvd (by decide) _))
    (Nat.dvd_mul_left _ _)

/-- A page of 2 MiB with the index `i` in both tables below the top. -/
def largeAt (i : Fin tableLen) : PageAddr physicalRemap :=
  ⟨⟨physicalRemap.start + i.val * 2 ^ 30 + i.val * 2 ^ 21⟩, .large, largeAt_aligned i⟩

theorem key_largeAt (i : Fin tableLen) :
    key (largeAt i).base.value 1 = i ∧ key (largeAt i).base.value 2 = i := by
  have hi : i.val < 512 := i.isLt
  refine ⟨Fin.ext ?_, Fin.ext ?_⟩
  · show (0xFFFF888000000000 + i.val * 2 ^ 30 + i.val * 2 ^ 21) / 2 ^ 30 % 512 = i.val
    have hdiv : (0xFFFF888000000000 + i.val * 2 ^ 30 + i.val * 2 ^ 21) / 2 ^ 30
        = 0x3FFFE2200 + i.val := by omega
    omega
  · show (0xFFFF888000000000 + i.val * 2 ^ 30 + i.val * 2 ^ 21) / 2 ^ 21 % 512 = i.val
    omega

/-- The first page of physical memory, of 2 MiB. -/
def firstLarge : PageAddr uma := ⟨⟨0⟩, .large, Nat.dvd_zero _⟩

/-- An empty map whose allocator has two frames left, with the contents `g`. -/
def looped (r f f' : ℕ) (g : Fin tableLen → ℕ) : Machine (List ℕ) :=
  ⟨r, [], Function.update (fun _ => g) r fun _ => 0, [f, f'], []⟩

section Looped

variable {r f f' : ℕ} {g : Fin tableLen → ℕ} {i : Fin tableLen}

theorem looped_root (i : Fin tableLen) : (looped r f f' g).tables r i = 0 := by
  show Function.update (fun _ => g) r (fun _ => 0) r i = 0
  rw [Function.update_self]

theorem looped_frame {u : ℕ} (hne : u ≠ r) : (looped r f f' g).tables u = g :=
  Function.update_of_ne hne _ fun _ => g

theorem looped_asked {G : Set (Fin tableLen → ℕ)} (hg : g ∈ G) (hr : IsFrame r) (hf : IsFrame f)
    (hf' : IsFrame f') (hne : f ≠ r) (hne' : f' ≠ r) (hff : f ≠ f') :
    MemoryMap.Asked G (looped r f f' g) stackAlloc (largeAt i) firstLarge := by
  have hroot : Entry.field (looped r f f' g).cr3 = r := Entry.field_frame hr.1 hr.2
  have hframes : ∀ u ∈ [f, f'], IsFrame u ∧ u ≠ r :=
    List.forall_mem_cons.mpr ⟨⟨hf, hne⟩, List.forall_mem_singleton.mpr ⟨hf', hne'⟩⟩
  constructor
  · decide
  · rw [hroot]
    exact hr.2
  · rw [hroot]
    exact inside_of_empty looped_root
  · rw [hroot]
    exact apart_of_empty looped_root
  · rw [hroot]
    exact stackAlloc_fresh looped_root (List.nodup_cons.mpr
      ⟨List.mem_singleton.not.mpr hff, List.nodup_singleton f'⟩) hframes _
  · refine stackAlloc_from (fun u hu => ?_) _
    rw [looped_frame (hframes u hu).2]
    exact hg

theorem largeAt_flags : PageFlags (largeAt i).pageSize [.present, .pageSize] := by
  show PageFlags .large _
  exact ⟨by decide, by decide⟩

theorem looped_granted (hr : IsFrame r) : MemoryMap.Granted (looped r f f' g) stackAlloc
    (largeAt i) firstLarge [.present, .pageSize] := by
  have hroot : Entry.field (looped r f f' g).cr3 = r := Entry.field_frame hr.1 hr.2
  refine ⟨rfl, largeAt_flags, ?_⟩
  rw [hroot, missing_of_empty looped_root]
  exact stackAlloc_not_fails

/-- A present word in the PDPT table that is no page is followed, if it is inside physical memory.
If it leads to the table itself, the loop ends at the same word. -/
theorem LinearWalker.downLoop_self {S : AddrSpace} {vaddr : Addr S} {s s₁ : Machine (List ℕ)}
    {cur : EntryRef} {w : ℕ} (hi : key vaddr.value 2 = i) (hword : s.tables f i = w)
    (hpresent : w.testBit 0 = true)
    (hloop : Entry.field w < uma.stop → w.testBit 7 = false ∧ Entry.field w = f)
    (hrun : (downLoop stackAlloc vaddr (.fromPageSize .large) 3 ⟨.ofDepth 1, some (f, i)⟩).run s
      = .ok cur s₁) : cur = ⟨.fromPageSize .large, some (f, i)⟩ ∧ s₁ = s := by
  have hspace := inSpace_of_downLoop (by decide) (by decide) hrun
  have hdec : Entry.decode (.ofDepth 1) (s.tables f i) ≠ .none := by
    rw [hword, Ne, decode_eq_none, hpresent]
    decide
  obtain ⟨hbit, rfl⟩ := hloop (hword ▸ hspace hdec)
  have hnext : next 1 (s.tables (Entry.field w) i) = some (Entry.field w) := by
    rw [hword]
    simp [next, Level.ofDepth, Entry.decode, hpresent, hbit]
  have hne : Level.ofDepth 1 ≠ .fromPageSize .large := by decide
  rw [downLoop_step hne (down_table hspace hnext), hi] at hrun
  cases hrun
  exact ⟨rfl, rfl⟩

/-- The walk of an address ends at a page in the PDPT table. -/
theorem MemoryMap.endsAt_huge {S : AddrSpace} {vaddr : Addr S} {s : Machine (List ℕ)}
    (hr : IsFrame r) (hf : IsFrame f) (hcr3 : s.cr3 = r)
    (hlink : s.tables r (key vaddr.value 0) = Entry.link f)
    (hword : s.tables f (key vaddr.value 1) = 0x81) :
    ∃ t, EndsAt s vaddr ⟨.ofDepth 1, some (t, key vaddr.value 1)⟩ (.page .pdpt ⟨0⟩) := by
  have hroot : Entry.field s.cr3 = r := by rw [hcr3, Entry.field_frame hr.1 hr.2]
  have htable : tableAt next s.tables r (key vaddr.value) 1 = some f := by
    rw [tableAt_succ rfl, hlink, next_link (by decide) hf]
  have hstop : Stops next s.tables r (key vaddr.value) 1 0x81 :=
    ⟨(entryAt_of_table htable).trans (congrArg some hword), rfl⟩
  have hin : Inside s.tables r {key vaddr.value} := by
    rintro k rfl d e he
    obtain ⟨t, ht, rfl⟩ := entryAt_eq_some.mp he
    rcases Nat.lt_trichotomy d 1 with hd | rfl | hd
    · obtain rfl : d = 0 := Nat.lt_one_iff.mp hd
      cases ht
      rw [hlink]
      exact Entry.inSpace_link hf.1 hf.2
    · cases htable.symm.trans ht
      rw [hword]
      exact fun _ => by decide
    · cases (hstop.tableAt_none hd).symm.trans ht
  obtain ⟨t, -, hends⟩ := endsAt_of_stops (by rw [hroot]; exact hr.2) (by rw [hroot]; exact hin)
    (by rw [hroot]; exact hstop)
  exact ⟨t, hends⟩

/-- So the page is written to the PDPT table, where it is no page of 2 MiB. -/
theorem looped_not_reports (hr : IsFrame r) (hf : IsFrame f) (hne : f ≠ r)
    (hpresent : (g i).testBit 0 = true)
    (hloop : Entry.field (g i) < uma.stop → (g i).testBit 7 = false ∧ Entry.field (g i) = f) :
    ¬ MemoryMap.Reports (looped r f f' g) stackAlloc (largeAt i) firstLarge
      [.present, .pageSize] := by
  obtain ⟨hi₁, hi₂⟩ := key_largeAt i
  intro h
  obtain ⟨⟨s', hrun, ent, hends, hlevel, -⟩, -⟩ := h.pageFlags
  obtain ⟨cur, s₁, res', hwalk, hre⟩ := MemoryMap.exists_downLoop hrun
  rw [show (largeAt i).pageSize = .large from rfl, LinearWalker.downLoop_first hr hf rfl looped_root
    rfl (by decide) (by decide), hi₁] at hwalk
  obtain ⟨rfl, rfl⟩ := LinearWalker.downLoop_self hi₂
    ((congrFun (set_table_of_ne hne) i).trans (congrFun (looped_frame hne) i)) hpresent hloop hwalk
  have hbits : PageFlags .large [.present, .pageSize] := largeAt_flags (i := i)
  obtain ⟨-, hs'⟩ := EStateM.Result.ok.inj
    (hre.symm.trans (EntryRef.reinit_run (hbits.reinit_page firstLarge.aligned _)))
  have hlink : s'.tables r (key (largeAt i).base.value 0) = Entry.link f := by
    rw [hs']
    exact (congrFun (set_table_of_ne hne.symm) _).trans set_self
  have hword : s'.tables f (key (largeAt i).base.value 1) = 0x81 := by
    rw [hs', hi₁]
    exact set_self
  obtain ⟨t, hhuge⟩ := MemoryMap.endsAt_huge hr hf (by rw [hs']; rfl) hlink hword
  obtain ⟨rfl, -⟩ := hends.unique hhuge
  cases hlevel

end Looped

/-- A word that leads to a table or out of physical memory, with frames to meet it in. -/
theorem exists_looped {w : ℕ} (h : ¬ Idle w) : ∃ f r f', IsFrame f ∧ IsFrame r ∧ IsFrame f' ∧
    f ≠ r ∧ f' ≠ r ∧ f ≠ f' ∧ w.testBit 0 = true ∧
    (Entry.field w < uma.stop → w.testBit 7 = false ∧ Entry.field w = f) := by
  obtain ⟨hpresent, hpage⟩ := not_or.mp h
  have hbit : w.testBit 0 = true := by simpa using hpresent
  by_cases hlt : Entry.field w < uma.stop
  · have hsize : w.testBit 7 = false := by
      rw [← Bool.not_eq_true]
      exact fun hs => hpage ⟨hs, hlt⟩
    obtain ⟨r, f', hr, hf', hne, hur, huf⟩ := exists_two_frames (Entry.field w)
    exact ⟨_, r, f', ⟨Nat.dvd_mul_left _ _, hlt⟩, hr, hf', hur, hne.symm, huf, hbit,
      fun _ => ⟨hsize, rfl⟩⟩
  · have hframe : IsFrame 0 := ⟨Nat.dvd_zero _, by decide⟩
    obtain ⟨r, f', hr, hf', hne, hur, huf⟩ := exists_two_frames 0
    exact ⟨0, r, f', hframe, hr, hf', hur, hne.symm, huf, hbit, fun h => absurd h hlt⟩

namespace MemoryMap

/-- Where nothing goes wrong and the page is there in every call, no word leads anywhere. -/
theorem idle_of_reports {G : Set (Fin tableLen → ℕ)}
    (h : ∀ (s : Machine (List ℕ)) (vpage : PageAddr physicalRemap) (ppage : PageAddr uma)
      (flags : List Flag), Asked G s stackAlloc vpage ppage →
      Granted s stackAlloc vpage ppage flags → Reports s stackAlloc vpage ppage flags) :
    ∀ g ∈ G, ∀ i, Idle (g i) := by
  intro g hg i
  by_contra hword
  obtain ⟨f, r, f', hf, hr, hf', hne, hne', hff, hpresent, hloop⟩ := exists_looped hword
  exact looped_not_reports hr hf hne hpresent hloop
    (h _ _ _ _ (looped_asked hg hr hf hf' hne hne' hff) (looped_granted hr))

/-- `map` reports what it did, exactly if there is nothing to report, in every structure and for
every call, exactly if no word of the frames it takes leads to a table or out of physical memory.
Where one does, `map` may report a page that is not there. -/
theorem map_reports_iff (G : Set (Fin tableLen → ℕ)) :
    ((∀ (π : Type) (S : AddrSpace) (s : Machine π) (alloc : FrameAlloc π) (vpage : PageAddr S)
      (ppage : PageAddr uma) (flags : List Flag), Asked G s alloc vpage ppage →
      (Reports s alloc vpage ppage flags ↔ Granted s alloc vpage ppage flags)) ↔
      ∀ g ∈ G, ∀ i, Idle (g i)) ∧
    ((∀ (π : Type) (S : AddrSpace) (s : Machine π) (alloc : FrameAlloc π) (vpage : PageAddr S)
      (ppage : PageAddr uma) (flags : List Flag), Asked G s alloc vpage ppage →
      Granted s alloc vpage ppage flags → Reports s alloc vpage ppage flags) ↔
      ∀ g ∈ G, ∀ i, Idle (g i)) := by
  refine ⟨⟨fun h => idle_of_reports fun s vpage ppage flags hasked => ?_, ?_⟩,
    fun h => idle_of_reports fun s vpage ppage flags => ?_, ?_⟩
  · exact (h _ _ s stackAlloc vpage ppage flags hasked).mpr
  · exact fun h π S s alloc vpage ppage flags hasked => hasked.reports_iff h
  · exact h _ _ s stackAlloc vpage ppage flags
  · exact fun h π S s alloc vpage ppage flags hasked => (hasked.reports_iff h).mpr

/-- The frames are full of old pages of 1 GiB.  One of them is on the way, and a table takes its
place. -/
theorem map_reports_oldPages : Reports (looped 0x1000 0x2000 0x3000 fun _ => 0x83) stackAlloc
    (largeAt 5) firstLarge [.present, .pageSize] := by
  have hframe : IsFrame 0x1000 ∧ IsFrame 0x2000 ∧ IsFrame 0x3000 := by
    simp only [IsFrame, tableAlignment]
    decide
  have hpages : ∀ g ∈ ({fun _ => 0x83} : Set (Fin tableLen → ℕ)), ∀ i, Idle (g i) := by
    rintro g rfl i
    show Idle 0x83
    exact .inr ⟨by decide, by decide⟩
  exact ((map_reports_iff {fun _ => 0x83}).1.mpr hpages _ _ _ _ _ _ _ (looped_asked rfl hframe.1
    hframe.2.1 hframe.2.2 (by decide) (by decide) (by decide))).mpr (looped_granted hframe.1)

/-- A page that is not present: `map` returns `Some(())`, and there is no page. -/
theorem map_hides_failure : ∃ s',
    (map stackAlloc (⟨⟨0xFFFF888000001000⟩, .small, by decide⟩ : PageAddr physicalRemap)
      ⟨⟨0x5000⟩, .small, by decide⟩ [.readWrite]).run emptyMap = .ok (some ()) s' ∧
    (translate (⟨0xFFFF888000001000⟩ : Addr physicalRemap)).run s' = .ok none s' :=
  ⟨_, rfl, rfl⟩

end MemoryMap

end Koe
