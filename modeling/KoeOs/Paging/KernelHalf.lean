/-
# `KoeOs.Paging.KernelHalf` — the kernel's half, whatever is done below it

A user's pages go into the lower half of a map, while the kernel runs on the upper half of
whatever map is current.  `new`, `map`, `swap` and `drop` write to tables all the time, and
none of these writes may reach what the kernel runs on:

    upper    the upper entries of each map, which are those of the first one
    image    the tables they lead to, all of them statics of the kernel

`new` and `map` write to frames of the allocator, which lie above the kernel, and `map` writes
to the lower entries of a map's own table.  So a walk for an address of the kernel ends under
every map where it ended after `init` (`Seen.walk_eq`), as far as the processor is concerned and
not only `translate`.

The linker script does not align the end of the kernel, so the allocator may have the page
in which the kernel ends.  The tables lie before it (`Statics.whole`).
-/
import KoeOs.Paging.Drop

namespace Koe

open TableTree

/-! ## The kernel without its last page -/

namespace Statics

variable {st : Statics}

theorem le_wholePages {t e : ℕ} (hal : tableAlignment ∣ t) (hle : t ≤ e) : t ≤ e / 4096 * 4096 := by
  obtain ⟨q, rfl⟩ := hal
  simp only [tableAlignment] at hle ⊢
  omega

theorem tables_whole {t n : ℕ} (hal : tableAlignment ∣ t)
    (hmem : kernelImage.start ≤ t ∧ t + n * tableAlignment ≤ st.kernelEnd) :
    kernelImage.start ≤ t ∧ t + n * tableAlignment ≤ st.kernelEnd / 4096 * 4096 :=
  ⟨hmem.1, le_wholePages (Nat.dvd_add hal (Nat.dvd_mul_left _ _)) hmem.2⟩

theorem table_whole {t : ℕ} (hal : tableAlignment ∣ t)
    (hmem : kernelImage.start ≤ t ∧ t + tableAlignment ≤ st.kernelEnd) :
    kernelImage.start ≤ t ∧ t + tableAlignment ≤ st.kernelEnd / 4096 * 4096 :=
  ⟨hmem.1, le_wholePages (Nat.dvd_add hal (Nat.dvd_refl _)) hmem.2⟩

/-- The kernel up to the end of its last whole page. -/
def whole (st : Statics) : Statics where
  pml4Table := st.pml4Table
  pdptTables := st.pdptTables
  kernelPdTable := st.kernelPdTable
  kernelEnd := st.kernelEnd / 4096 * 4096
  pml4_aligned := st.pml4_aligned
  pdpts_aligned := st.pdpts_aligned
  pd_aligned := st.pd_aligned
  pml4_mem := table_whole st.pml4_aligned st.pml4_mem
  pdpts_mem := tables_whole st.pdpts_aligned st.pdpts_mem
  pd_mem := table_whole st.pd_aligned st.pd_mem
  pml4_pdpts := st.pml4_pdpts
  pml4_pd := st.pml4_pd
  pd_pdpts := st.pd_pdpts
  kernelEnd_lt := Nat.lt_of_le_of_lt (Nat.div_mul_le_self _ _) st.kernelEnd_lt

theorem frame_whole (st : Statics) :
    frame st.whole.kernelEnd = frame st.kernelEnd / 4096 * 4096 := by
  have hstart : kernelImage.start = 0xFFFFFFFF80000000 := rfl
  have hmem := st.pml4_mem
  rw [frame_eq, frame_eq]
  simp only [whole]
  omega

theorem dvd_frame_whole (st : Statics) : tableAlignment ∣ frame st.whole.kernelEnd := by
  rw [frame_whole]
  exact Nat.dvd_mul_left _ _

end Statics

namespace MemoryManager

/-- The rounds of `init` do not depend on where the kernel ends. -/
theorem Rounds.whole {st : Statics} {last : ℕ} {tables₀ tables : Tables}
    (h : Rounds st last 256 tables₀ tables) : Rounds st.whole last 256 tables₀ tables :=
  ⟨h.filled, h.upper, h.pml4, h.other⟩

end MemoryManager

/-! ## The walk of the processor in the static tables -/

namespace Hardware

/-- The frame rule: a walk only depends on the tables it meets. -/
theorem walkFrom_congr {tables tables' : Tables} {T : ℕ → ℕ → Prop} {v : ℕ}
    (hsame : ∀ d t, T d t → tables' t = tables t)
    (hnext : ∀ d t i u, T d t → decode d (tables t i) = .table u → T (d + 1) u)
    {n d t : ℕ} (ht : T d t) (writable user : Bool) :
    walkFrom tables' v n d t writable user = walkFrom tables v n d t writable user := by
  induction n generalizing d t writable user with
  | zero => rfl
  | succ n ih =>
      simp only [walkFrom, hsame d t ht]
      cases hdec : decode d (tables t (key v d)) with
      | notPresent => rfl
      | reserved => rfl
      | page base => rfl
      | table base => exact ih (hnext d t _ base ht hdec) _ _

end Hardware

namespace MemoryManager

variable {st : Statics} {last : ℕ} {tables₀ tables : Tables}

/-- The static tables, by their depth. -/
def StaticAt (st : Statics) (d t : ℕ) : Prop :=
  (d = 1 ∧ ∃ i < 256, t = st.pdpt i) ∨ (d = 2 ∧ t = st.pd)

namespace StaticAt

variable {d t : ℕ} (h : StaticAt st d t)
include h

theorem isFrame : IsFrame t := by
  rcases h with ⟨-, i, hi, rfl⟩ | ⟨-, rfl⟩
  · exact st.pdpt_isFrame hi
  · exact st.pd_isFrame

theorem lt : t < Statics.frame st.kernelEnd := by
  rcases h with ⟨-, i, hi, rfl⟩ | ⟨-, rfl⟩
  · exact st.pdpt_lt hi
  · exact st.pd_lt

theorem ne_pml4 : t ≠ st.pml4 := by
  rcases h with ⟨-, i, hi, rfl⟩ | ⟨-, rfl⟩
  · exact (st.pml4_ne_pdpt hi).symm
  · exact st.pml4_ne_pd.symm

end StaticAt

theorem IsKernelPage.decode_ne_table {e u : ℕ} (h : e = 0 ∨ IsKernelPage e) :
    Hardware.decode 2 e ≠ .table u := by
  rcases h with rfl | ⟨addr, hal, hlt, rfl⟩
  · rw [Hardware.decode_not_present (Nat.zero_testBit 0)]
    exact Hardware.Decoded.noConfusion
  · have hdec : Hardware.decode 2 _ = _ := Hardware.decode_pageWord kernelPageFlags_ok hal hlt
    rw [hdec]
    exact Hardware.Decoded.noConfusion

theorem remapWord_decode_ne_table {r u : ℕ} (hr : r < 128) (k : Fin tableLen) :
    Hardware.decode 1 (remapWord r k) ≠ .table u := by
  have huma : uma.stop = 2 ^ 46 := rfl
  have hk : k.val < 512 := k.isLt
  have hal : remapPageSize.align ∣ r * 2 ^ 39 + k.val * 2 ^ 30 :=
    Nat.dvd_add (Nat.dvd_trans (by decide) (Nat.dvd_mul_left _ _)) (Nat.dvd_mul_left _ _)
  have hdec : Hardware.decode 1 _ = _ := Hardware.decode_pageWord remapPageFlags_ok hal
    (show r * 2 ^ 39 + k.val * 2 ^ 30 < uma.stop by omega)
  rw [remapWord, hdec]
  exact Hardware.Decoded.noConfusion

/-- The one entry of the PDPTs that the processor takes for a table is that of the PD. -/
theorem PdptFilled.eq_pd {i u : ℕ} {k : Fin tableLen} (h : PdptFilled st last i tables)
    (hlast : last ≤ 127) (hdec : Hardware.decode 1 (tables (st.pdpt i) k) = .table u) :
    u = st.pd := by
  have hzero : Hardware.decode 1 0 ≠ .table u := Hardware.Decoded.noConfusion
  rw [PdptFilled] at h
  split at h
  · by_cases hk : k = 510
    · rw [hk, h.1, Hardware.decode_link (by decide) st.pd_isFrame] at hdec
      exact (Hardware.Decoded.table.inj hdec).symm
    · rw [h.2.1 k hk] at hdec
      exact absurd hdec hzero
  · split at h
    · rw [h] at hdec
      exact absurd hdec (remapWord_decode_ne_table (by omega) k)
    · rw [h k] at hdec
      exact absurd hdec hzero

namespace Rounds

variable (h : Rounds st last 256 tables₀ tables) (hlast : last ≤ 127)
include h hlast

/-- From a static table the processor gets to static tables only. -/
theorem decode_static {d t u : ℕ} {i : Fin tableLen} (ht : StaticAt st d t)
    (hdec : Hardware.decode d (tables t i) = .table u) : StaticAt st (d + 1) u := by
  rcases ht with ⟨rfl, j, hj, rfl⟩ | ⟨rfl, rfl⟩
  · exact .inr ⟨rfl, (h.filled j hj).eq_pd hlast hdec⟩
  · have hfilled := h.filled 255 (by decide)
    rw [PdptFilled, if_pos rfl] at hfilled
    exact absurd hdec (IsKernelPage.decode_ne_table (hfilled.2.2 i))

/-- The kernel finds the same ones. -/
theorem static_of_upper {k : ℕ → Fin tableLen} (hk : k ∈ upperKeys) {d t : ℕ}
    (ht : tableAt next tables st.pml4 k (d + 1) = some t) : StaticAt st (d + 1) t := by
  obtain ⟨i, hi⟩ := Nat.exists_eq_add_of_le' hk
  rcases h.upper_tableAt hlast hi ht with ⟨hd, -⟩ | ⟨hd, rfl⟩ | ⟨hd, rfl, -, -⟩
  · exact absurd hd (Nat.succ_ne_zero d)
  · exact .inl ⟨hd, i, (h.upper_link hi).1, rfl⟩
  · exact .inr ⟨hd, rfl⟩

end Rounds

end MemoryManager

/-! ## The kernel's half of each map -/

open MemoryManager (Rounds StaticAt)

/-- The maps have the kernel's half of `tables₀`. -/
structure Seen (st : Statics) (tables₀ tables : Tables) (maps : List MemoryMap) : Prop where
  cr3 : ∀ m ∈ maps, m.cr3 = m.root
  upper : ∀ m ∈ maps, ∀ i : Fin tableLen, 256 ≤ i.val → tables m.root i = tables₀ st.pml4 i
  image : ∀ t, IsFrame t → t < Statics.frame st.kernelEnd → t ≠ st.pml4 → tables t = tables₀ t

/-- A table of the lower half is the static one, or held. -/
theorem MemoryMap.Owns.lower_cases {st : Statics} {out : List Extent} {tables : Tables}
    {m : MemoryMap} {f : ℕ} (h : m.Owns st out tables) (hf : Lower tables m.root f) :
    (f = m.root ∧ f = st.pml4) ∨ Held out f := by
  by_cases hroot : f = m.root → m.root ≠ st.pml4
  · exact .inr (h.held f ((h.frames_iff f).mpr ⟨hf, hroot⟩))
  · obtain ⟨rfl, hpml4⟩ := Classical.not_imp.mp hroot
    exact .inl ⟨rfl, not_not.mp hpml4⟩

theorem MemoryMap.Owns.not_lower {π : Type} {Out : π → List Extent → Prop} {p : π} {st : Statics}
    {out : List Extent} {tables : Tables} {m : MemoryMap} (h : m.Owns st out tables)
    (habove : AboveKernel st Out) (hout : Out p out) {t : ℕ}
    (hlt : t < Statics.frame st.kernelEnd) (hne : t ≠ st.pml4) : ¬ Lower tables m.root t := by
  intro hlower
  rcases h.lower_cases hlower with ⟨-, hpml4⟩ | ⟨e, he, rfl, -⟩
  · exact hne hpml4
  · exact absurd (habove _ _ hout e he) (Nat.not_le.mpr hlt)

theorem Half.union {st : Statics} {out : List Extent} {tables : Tables} {root : ℕ}
    {K K' : Set (ℕ → Fin tableLen)} (h : Half st out tables root K)
    (h' : Half st out tables root K')
    (hoff : ∀ k ∈ K, ∀ k' ∈ K', ∀ d d' t, tableAt next tables root k (d + 1) = some t →
      tableAt next tables root k' (d' + 1) ≠ some t) : Half st out tables root (K ∪ K') where
  apart := h.apart.union h'.apart hoff
  inside k hk := hk.elim (h.inside k) (h'.inside k)
  taken k hk := hk.elim (h.taken k) (h'.taken k)

/-- `map` for a page of one half leaves an entry of the map's own table as it is, if it leads to a
table and belongs to the other half. -/
theorem MemoryMap.Maps.root_entry {π : Type} {S : AddrSpace} {alloc : FrameAlloc π}
    {s s' : Machine π} {vpage : PageAddr S} {ppage : PageAddr uma} {flags : List Flag}
    {fs : List ℕ} {grown : Tables} {t raw : ℕ} {K : Set (ℕ → Fin tableLen)}
    (h : Maps alloc s K vpage ppage flags fs grown t raw s') (hk : key vpage.base.value ∈ K)
    (hfs : ∀ f ∈ fs, IsFrame f) {i : Fin tableLen} (hi : (fun _ => i) ∈ K) {u : ℕ}
    (hlink : next 0 (s.tables (Entry.field s.cr3) i) = some u) (hu : u ∉ fs) :
    s'.tables (Entry.field s.cr3) i = s.tables (Entry.field s.cr3) i := by
  have hdepth : vpage.pageSize.depth ≠ 0 := by cases vpage.pageSize <;> decide
  -- the entry of the page is in another table
  have hne : Entry.field s.cr3 ≠ t := by
    rintro rfl
    exact hdepth (h.growth.apart hk hk h.table rfl).1
  rw [h.tables_eq, set_table_of_ne hne]
  -- and the table below this one is still there
  have hentry : entryAt next grown (Entry.field s.cr3) (fun _ => i) 0
      = some (grown (Entry.field s.cr3) i) := rfl
  have hkeeps := h.growth.keeps _ hi 1 u hlink
  rw [tableAt_succ rfl] at hkeeps
  rcases h.growth.entries _ hi 0 _ hentry with hold | hzero | ⟨f, hf, hnew⟩
  · exact (Option.some.inj hold).symm
  · rw [hzero, next_zero] at hkeeps
    exact absurd hkeeps.symm (Option.some_ne_none u)
  · rw [hnew, next_link (by decide) (hfs f hf)] at hkeeps
    exact absurd hf (Option.some.inj hkeeps ▸ hu)

namespace Seen

variable {π : Type} {Out : π → List Extent → Prop} {pm : PhysMem π} {p : π} {st : Statics}
  {out : List Extent} {last : ℕ} {zeros tables₀ tables tables' : Tables}
  {maps maps' : List MemoryMap} {m : MemoryMap}

theorem of_cr3 (h : Seen st tables₀ tables maps) (hsub : ∀ m ∈ maps', ∃ m' ∈ maps, m'.cr3 = m.cr3) :
    Seen st tables₀ tables maps' := by
  refine ⟨fun m hm => ?_, fun m hm => ?_, h.image⟩
  · obtain ⟨m', hm', heq⟩ := hsub m hm
    rw [MemoryMap.root, ← heq]
    exact h.cr3 m' hm'
  · obtain ⟨m', hm', heq⟩ := hsub m hm
    rw [MemoryMap.root, ← heq]
    exact h.upper m' hm'

/-- The frame rule: it only matters what the maps' own tables and the kernel hold. -/
theorem frame (h : Seen st tables₀ tables maps)
    (hroot : ∀ m ∈ maps, ∀ i : Fin tableLen, 256 ≤ i.val → tables' m.root i = tables m.root i)
    (himage : ∀ t, IsFrame t → t < Statics.frame st.kernelEnd → t ≠ st.pml4 →
      tables' t = tables t) : Seen st tables₀ tables' maps where
  cr3 := h.cr3
  upper m hm i hi := (hroot m hm i hi).trans (h.upper m hm i hi)
  image t hframe hlt hne := (himage t hframe hlt hne).trans (h.image t hframe hlt hne)

/-- What `init` leaves. -/
theorem init (st : Statics) (tables₀ : Tables) : Seen st tables₀ tables₀ [⟨st.pml4, []⟩] := by
  have hroot := MemoryMap.root_mk st.pml4_isFrame []
  refine ⟨fun m hm => ?_, fun m hm i hi => ?_, fun _ _ _ _ => rfl⟩
  · rw [List.mem_singleton.mp hm, hroot]
  · rw [List.mem_singleton.mp hm, hroot]

section Tree

variable (h : Seen st tables₀ tables maps) (hm : m ∈ maps)
  (hrounds : Rounds st last 256 zeros tables₀) (hlast : last ≤ 127)
include h hm hrounds hlast

theorem tableAt_eq {k : ℕ → Fin tableLen} (hk : k ∈ upperKeys) (d : ℕ) :
    tableAt next tables m.root k (d + 1) = tableAt next tables₀ st.pml4 k (d + 1) :=
  tableAt_transfer (h.upper m hm _ hk) fun _ _ ht => by
    have hstatic := hrounds.static_of_upper hlast hk ht
    exact h.image _ hstatic.isFrame hstatic.lt hstatic.ne_pml4

theorem static {k : ℕ → Fin tableLen} (hk : k ∈ upperKeys) {d t : ℕ}
    (ht : tableAt next tables m.root k (d + 1) = some t) : StaticAt st (d + 1) t :=
  hrounds.static_of_upper hlast hk ((h.tableAt_eq hm hrounds hlast hk d).symm.trans ht)

/-- A walk of the processor for an address of the kernel ends where it ended after `init`. -/
theorem walk_eq (hframe : IsFrame m.root) {v : ℕ} (hk : key v ∈ upperKeys) :
    Hardware.walk tables m.cr3 v = Hardware.walk tables₀ st.pml4 v := by
  have hbase : ∀ {a : ℕ}, IsFrame a → Hardware.base 12 a = a := fun ha => by
    have hor := Hardware.base_or (.inl rfl) (show 0 < 2 ^ 9 by decide) ha.1 ha.2
    rwa [Nat.zero_or] at hor
  obtain ⟨i, hi⟩ := Nat.exists_eq_add_of_le' hk
  obtain ⟨hi', hlink⟩ := hrounds.upper_link hi
  have hdec := Hardware.decode_link (d := 0) (by decide) (st.pdpt_isFrame hi')
  rw [Hardware.walk, Hardware.walk, h.cr3 m hm, hbase hframe, hbase st.pml4_isFrame]
  unfold Hardware.walkFrom
  simp only [h.upper m hm _ hk, hlink, hdec]
  refine Hardware.walkFrom_congr (T := StaticAt st) (fun d t ht => ?_)
    (fun d t j u => hrounds.decode_static hlast) (.inl ⟨rfl, i, hi', rfl⟩) _ _
  exact h.image t ht.isFrame ht.lt ht.ne_pml4

/-- Both halves of a map form one tree. -/
theorem half (habove : AboveKernel st Out) (hout : Out p out) (hown : m.Owns st out tables) :
    Half st out tables m.root (lowerKeys ∪ upperKeys) := by
  have hinit := (Shared.init hlast hrounds out).half _ List.mem_cons_self
  have heq := fun k (hk : k ∈ upperKeys) d => h.tableAt_eq hm hrounds hlast hk d
  have hnot : ∀ {d t}, StaticAt st d t → ¬ Lower tables m.root t := fun hstatic =>
    hown.not_lower habove hout hstatic.lt hstatic.ne_pml4
  have hupper : Half st out tables m.root upperKeys := by
    refine ⟨hinit.apart.transfer heq fun k hk d ht => ?_, fun k hk d e he => ?_,
      fun k hk d t ht => ?_⟩
    · exact hnot (hrounds.static_of_upper hlast hk ht) .self
    · refine hinit.inside k hk d e ((entryAt_transfer (h.upper m hm _ hk) ?_).symm.trans he)
      intro d t ht
      have hstatic := hrounds.static_of_upper hlast hk ht
      exact h.image t hstatic.isFrame hstatic.lt hstatic.ne_pml4
    · cases d with
      | zero =>
          cases ht
          exact hown.half.taken (fun _ => 0) (by decide : (0 : Fin tableLen).val < 256) 0 _ rfl
      | succ d => exact .inl (h.static hm hrounds hlast hk ht).lt
  refine hown.half.union hupper fun k hk k' hk' d d' t ht ht' => ?_
  exact hnot (h.static hm hrounds hlast hk' ht') ⟨k, hk, d + 1, ht⟩

end Tree

/-! ### One operation -/

variable {w w' : World π}

/-- `new` writes to its own table only, and copies the upper entries. -/
theorem new (h : Seen st tables₀ tables maps) (howned : Owned st out tables maps)
    (hpm : pm.Lawful Out) (habove : AboveKernel st Out) {a size : ℕ} {cur : MemoryMap}
    (hcur : cur ∈ maps) (hframe : IsFrame a) (hsize : tableAlignment ≤ size)
    (hout : Out p (⟨a, size⟩ :: out)) :
    Seen st tables₀ (MemoryMap.newTables tables a size cur.root) (maps ++ [⟨a, [a]⟩]) := by
  have hkeep : ∀ t, Taken st out t → MemoryMap.newTables tables a size cur.root t = tables t :=
    fun t ht => MemoryMap.newTables_of_not_mem hsize (ht.not_mem_new hpm habove hout)
  have hroot := MemoryMap.root_mk hframe [a]
  have hold : Seen st tables₀ (MemoryMap.newTables tables a size cur.root) maps :=
    h.frame (fun m hm i _ => by rw [hkeep _ (howned.taken hm .self)])
      fun t _ hlt _ => hkeep t (.inl hlt)
  refine ⟨?_, ?_, hold.image⟩
  · refine List.forall_mem_append.mpr ⟨hold.cr3, fun m hm => ?_⟩
    rw [List.mem_singleton.mp hm, hroot]
  · refine List.forall_mem_append.mpr ⟨hold.upper, fun m hm i hi => ?_⟩
    rw [List.mem_singleton.mp hm, hroot, ← h.upper cur hcur i hi]
    exact MemoryMap.newTables_upper ((howned.taken hcur .self).not_mem_new hpm habove hout) hi

/-- `map` for a page of the lower half writes to tables of the lower half. -/
theorem map {rest : List MemoryMap} {c : MapCall} {alloc : FrameAlloc π} {s : Machine π}
    (h : Seen st tables₀ w.tables (m :: rest)) (howned : Owned st out w.tables (m :: rest))
    (hpm : pm.Lawful Out) (habove : AboveKernel st Out)
    (hrounds : Rounds st last 256 zeros tables₀) (hlast : last ≤ 127) (hout : Out w.phys out)
    (hcall : World.LowerCall Out c alloc) (hclean : w.Clean m c alloc)
    (hrun : (MemoryMap.map alloc c.vpage c.ppage c.flags).run (w.machine m) = .ok (some ()) s) :
    Seen st tables₀ s.tables (⟨s.cr3, s.frames⟩ :: rest) := by
  have hmem : m ∈ m :: rest := List.mem_cons_self
  have hown := howned.each m hmem
  have hk := key_lower hcall.lower
  obtain ⟨fs, grown, t, raw, bs, hdone, -, -, hfs, -⟩ := MemoryMap.map_half (s := w.machine m)
    hpm habove hcall.supplies hout hown.half hk hown.isFrame.2 hclean.flags hclean.empty hrun
  have hcr3 : s.cr3 = m.cr3 := hdone.cr3_eq
  have himage : ∀ u, u < Statics.frame st.kernelEnd → u ≠ st.pml4 → s.tables u = w.tables u := by
    intro u hlt hne
    have hnot := hown.not_lower habove hout hlt hne
    refine hdone.untouched hk (fun hf => (hfs u hf).2.1 (.inl hlt)) (fun j _ hj => ?_) fun hj => ?_
    · exact absurd ⟨_, hk, j, hj⟩ hnot
    · exact hnot ⟨_, hk, _, hj⟩
  -- its own table belongs to both halves
  have hself : ∀ i : Fin tableLen, 256 ≤ i.val → s.tables m.root i = w.tables m.root i := by
    intro i hi
    obtain ⟨fs', grown', t', raw', bs', hdone', -, -, hfs', -⟩ :=
      MemoryMap.map_half (s := w.machine m) hpm habove hcall.supplies hout
        (h.half hmem hrounds hlast habove hout hown) (.inl hk) hown.isFrame.2 hclean.flags
        hclean.empty hrun
    have hlt : i.val - 256 < 256 := by
      have : i.val < 512 := i.isLt
      omega
    have hlink : next 0 (w.tables m.root i) = some (st.pdpt (i.val - 256)) := by
      rw [h.upper m hmem i hi, hrounds.upper _ hlt i (by omega)]
      exact next_link (by decide) (st.pdpt_isFrame hlt)
    exact hdone'.root_entry (.inl hk) (fun f hf => (hfs' f hf).1) (.inr hi) hlink
      fun hf => (hfs' _ hf).2.1 (.inl (st.pdpt_lt hlt))
  have hsame : Seen st tables₀ s.tables (m :: rest) := by
    refine h.frame (List.forall_mem_cons.mpr ⟨hself, fun m' hm' i _ => ?_⟩)
      fun u _ hlt hne => himage u hlt hne
    rw [howned.map_untouched hdone hfs hk hm' .self]
  refine hsame.of_cr3 (List.forall_mem_cons.mpr ⟨⟨m, hmem, hcr3.symm⟩, fun m' hm' => ?_⟩)
  exact ⟨m', List.mem_cons_of_mem _ hm', rfl⟩

/-- No operation on the lower halves changes the kernel's half. -/
theorem step (h : Seen st tables₀ w.tables w.maps) (howned : Owned st out w.tables w.maps)
    (hpm : pm.Lawful Out) (habove : AboveKernel st Out)
    (hrounds : Rounds st last 256 zeros tables₀) (hlast : last ≤ 127) (hout : Out w.phys out)
    (hstep : World.LowerStep pm st Out w w') : Seen st tables₀ w'.tables w'.maps := by
  cases hstep with
  | @new cur m l s hmaps hrun =>
      have hcur : cur ∈ w.maps := hmaps ▸ List.mem_cons_self
      obtain ⟨a, size, p, rfl, hframe, hsize, hout', rfl⟩ :=
        MemoryMap.new_eq_ok (s := w.machine cur) hpm (howned.each cur hcur).isFrame.2 hout hrun
      exact h.new howned hpm habove hcur hframe hsize hout'
  | @map m l l' c alloc s hmaps hmay hrun =>
      obtain ⟨hcall, hclean, -⟩ := hmay
      have hperm : w.maps.Perm (m :: (l ++ l')) := hmaps ▸ List.perm_middle
      have hfirst : Seen st tables₀ w.tables (m :: (l ++ l')) :=
        h.of_cr3 fun m' hm' => ⟨m', hperm.mem_iff.mpr hm', rfl⟩
      refine (hfirst.map (howned.perm hperm) hpm habove hrounds hlast hout hcall hclean
        hrun).of_cr3 fun m' hm' => ⟨m', List.perm_middle.mem_iff.mp hm', rfl⟩
  | @swap cur m l l' hmaps =>
      refine h.of_cr3 fun m' hm' => ⟨m', ?_, rfl⟩
      rw [hmaps]
      simp only [List.mem_cons, List.mem_append] at hm' ⊢
      tauto
  | @drop cur m l l' s hmaps hmay hrun =>
      have hmiddle : (cur :: l ++ m :: l').Perm (m :: (cur :: l ++ l')) := List.perm_middle
      have hperm : w.maps.Perm (m :: cur :: (l ++ l')) := hmaps ▸ hmiddle
      obtain ⟨p, out', hrun', -⟩ :=
        (howned.perm hperm).drop hpm (s := w.machine m) rfl rfl hout hmay
      cases hrun.symm.trans hrun'
      exact h.of_cr3 fun m' hm' => ⟨m', hperm.mem_iff.mpr (List.mem_cons_of_mem _ hm'), rfl⟩

end Seen

end Koe
