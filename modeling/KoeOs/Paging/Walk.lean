/-
# `KoeOs.Paging.Walk` — what the walker finds and what it builds

The page tables are a tree of tables (`TableTree`) in which an entry leads on if it
decodes to a table (`next`), and an address is a key of four indices (`key`).  The two
loops of the walker are then the two operations of the library:

    tryDownLoop    ends where the way of the address stops         (`walk_run`)
    downLoop       makes the way of the address reach a depth      (`downLoop_cases`)

The second one asks an allocator, and comes back unless the allocator fails.  Neither can
tell tables apart that differ in words that are not present (`Stale`).
-/
import KoeOs.Paging.Map

namespace Koe

open TableTree

/-! ## The tree of tables -/

/-- The table an entry at depth `d` leads to. -/
def next (d raw : ℕ) : Option ℕ :=
  match Entry.decode (.ofDepth d) raw with
  | .table _ addr => some addr.value
  | _ => none

/-- The indices of an address, from the top level down. -/
def key (v d : ℕ) : Fin tableLen := ⟨v / 2 ^ (39 - 9 * d) % tableLen, Nat.mod_lt _ (by decide)⟩

/-- The keys of the lower half. -/
def lowerKeys : Set (ℕ → Fin tableLen) := {k | (k 0).val < 256}

/-- The keys of the upper half, the kernel's. -/
def upperKeys : Set (ℕ → Fin tableLen) := {k | 256 ≤ (k 0).val}

theorem key_lower {v : ℕ} (hv : v < 2 ^ 47) : key v ∈ lowerKeys := by
  show v / 2 ^ 39 % 512 < 256
  omega

theorem key_upper {v : ℕ} (hle : 2 ^ 64 - 2 ^ 47 ≤ v) (hlt : v < 2 ^ 64) : key v ∈ upperKeys := by
  show 256 ≤ v / 2 ^ 39 % 512
  omega

/-- A frame of physical memory. -/
def IsFrame (f : ℕ) : Prop := tableAlignment ∣ f ∧ f < uma.stop

/-- Everything the entries on the ways of `K` refer to lies inside physical memory. -/
def Inside (tables : Tables) (root : ℕ) (K : Set (ℕ → Fin tableLen)) : Prop :=
  ∀ k ∈ K, ∀ d e, entryAt next tables root k d = some e → Entry.InSpace (.ofDepth d) e

theorem decode_table {d raw : ℕ} {level : Level} {addr : Addr uma}
    (h : Entry.decode (.ofDepth d) raw = .table level addr) :
    d < 3 ∧ level = .ofDepth (d + 1) ∧ addr.value = Entry.field raw := by
  match d with
  | 0 | 1 | 2 =>
      simp only [Level.ofDepth, Entry.decode] at h
      repeat' split at h
      all_goals cases h
      exact ⟨by decide, rfl, rfl⟩
  | d + 3 =>
      simp only [Level.ofDepth, Entry.decode] at h
      split at h <;> cases h

theorem next_eq_some {d raw a : ℕ} (h : next d raw = some a) :
    d < 3 ∧ Entry.decode (.ofDepth d) raw = .table (.ofDepth (d + 1)) ⟨a⟩ ∧
      a = Entry.field raw := by
  rw [next] at h
  split at h
  · rename_i level addr hdec
    cases h
    obtain ⟨hd, rfl, ha⟩ := decode_table hdec
    exact ⟨hd, hdec, ha⟩
  · exact nomatch h

theorem next_of_decode {d raw : ℕ} {level : Level} {addr : Addr uma}
    (h : Entry.decode (.ofDepth d) raw = .table level addr) : next d raw = some addr.value := by
  rw [next, h]

theorem next_eq_none {d raw : ℕ} :
    next d raw = none ↔ ∀ level addr, Entry.decode (.ofDepth d) raw ≠ .table level addr := by
  rw [next]
  split
  · rename_i level addr hdec
    exact ⟨fun h => (nomatch h), fun h => absurd hdec (h level addr)⟩
  · rename_i hne
    exact ⟨fun _ level addr hdec => hne level addr hdec, fun _ => rfl⟩

theorem next_three (e : ℕ) : next 3 e = none := by
  refine next_eq_none.mpr fun level addr h => ?_
  exact absurd (decode_table h).1 (by decide)

/-- Every way ends. -/
theorem way_stops (tables : Tables) (root : ℕ) (k : ℕ → Fin tableLen) :
    ∃ d e, d ≤ 3 ∧ Stops next tables root k d e := exists_stops 3 next_three

theorem next_zero (d : ℕ) : next d 0 = none := by
  match d with
  | 0 | 1 | 2 | _ + 3 => rfl

theorem next_link {d f : ℕ} (hd : d < 3) (hf : IsFrame f) : next d (Entry.link f) = some f :=
  next_of_decode (Entry.decode_link hd hf.1 hf.2)

/-- The entry of a page leads to no table. -/
theorem PageFlags.next_pageWord {size : PageSize} {flags : List Flag} {addr : Addr uma}
    (h : PageFlags size flags) (hal : size.align ∣ addr.value) (hlt : addr.value < uma.stop) :
    next size.depth (Entry.pageWord size addr flags) = none := by
  rw [next, ← PageSize.fromPageSize_eq, h.decode_pageWord hal hlt]

/-- Ways have at most four tables. -/
theorem depth_le {tables : Tables} {root d t : ℕ} {k : ℕ → Fin tableLen}
    (h : tableAt next tables root k d = some t) : d ≤ 3 := by
  cases d with
  | zero => exact Nat.zero_le 3
  | succ d =>
      obtain ⟨u, -, hnext⟩ := tableAt_of_succ h
      exact (next_eq_some hnext).1

/-- Only words that are not present refer to nothing. -/
theorem decode_eq_none {d raw : ℕ} :
    Entry.decode (.ofDepth d) raw = .none ↔ raw.testBit 0 = false := by
  refine Entry.decode_eq_none ?_
  match d with
  | 0 | 1 | 2 | _ + 3 => exact fun h => nomatch h

theorem decode_zero (d : ℕ) : Entry.decode (.ofDepth d) 0 = .none := by
  match d with
  | 0 | 1 | 2 | _ + 3 => rfl

theorem inSpace_zero (d : ℕ) : Entry.InSpace (.ofDepth d) 0 := fun h => absurd (decode_zero d) h

/-! ## One step of the walker -/

/-- Nine bits of an address. -/
theorem Addr.indexRange_run {S : AddrSpace} {σ : Type} (a : Addr S) {n : ℕ}
    (hn : n + 9 < Usize.bits) (s : σ) :
    (a.indexRange (n, n + 9)).run s = .ok (a.value / 2 ^ n % 512) s := by
  rw [Addr.indexRange, if_neg (by simp), if_pos hn, Nat.one_shiftLeft,
    Nat.and_two_pow_sub_one_eq_mod, Nat.shiftRight_eq_div_pow, Nat.pow_add,
    Nat.mod_mul_right_div_self]
  rfl

/-- Writing an entry of a table. -/
theorem EntryRef.reinit_run {π : Type} {s : Machine π} {level : Level} {t raw : ℕ}
    {i : Fin tableLen} {addr : Addr uma} {flags : List Flag} {res : Option Unit}
    (h : (Entry.reinit level addr flags).run (s.tables t i) = .ok res raw) :
    (EntryRef.reinit ⟨level, some (t, i)⟩ addr flags).run s
      = .ok res { s with tables := set s.tables t i raw } := Code.zoom_eq_ok.mpr ⟨raw, h, rfl⟩

namespace LinearWalker

variable {π : Type} {S : AddrSpace} {vaddr : Addr S} {s : Machine π} {d t : ℕ}

theorem indexWithVaddr_run {σ : Type} (hd : d ≤ 3) (s : σ) :
    (TableRef.indexWithVaddr (.ofDepth d) t vaddr).run s
      = .ok ⟨.ofDepth d, some (t, key vaddr.value d)⟩ s := by
  have hrun : ∀ (level : Level) (n : ℕ), n + 9 < Usize.bits →
      (level.pageTableIdxRange : Code σ (ℕ × ℕ)) = pure (n, n + 9) →
      (TableRef.indexWithVaddr level t vaddr).run s
        = .ok ⟨level, some (t, ⟨vaddr.value / 2 ^ n % 512, Nat.mod_lt _ (by decide)⟩)⟩ s := by
    intro level n hn hrange
    rw [TableRef.indexWithVaddr, hrange, pure_bind, Code.bind_ok (Addr.indexRange_run _ hn s),
      TableRef.index, dif_pos (Nat.mod_lt _ (by decide))]
    rfl
  match d with
  | 0 => exact hrun .pml4 39 (by decide) rfl
  | 1 => exact hrun .pdpt 30 (by decide) rfl
  | 2 => exact hrun .pd 21 (by decide) rfl
  | 3 => exact hrun .pt 12 (by decide) rfl

theorem downWithTable_run (hd : d ≤ 3) (ht : t < uma.stop) (s : Machine π) :
    (downWithTable vaddr ⟨t⟩ (.ofDepth d)).run s
      = .ok ⟨.ofDepth d, some (t, key vaddr.value d)⟩ s := by
  rw [downWithTable, Code.bind_ok (PageAllocator.p2v_run ht s)]
  exact indexWithVaddr_run hd s

theorem nextLevel_ofDepth (hd : d < 3) :
    (Level.ofDepth d).nextLevel = some (.ofDepth (d + 1)) := by
  match d with
  | 0 | 1 | 2 => rfl

/-- The target of an entry in a table. -/
theorem target_run {i : Fin tableLen} (h : Entry.InSpace (.ofDepth d) (s.tables t i)) :
    (EntryRef.target ⟨.ofDepth d, some (t, i)⟩).run s
      = .ok (Entry.decode (.ofDepth d) (s.tables t i)) s := by
  rw [EntryRef.target, Code.get_bind]
  exact Entry.target_run h s

/-- The target of the map. -/
theorem target_ofMap (h : Entry.field s.cr3 < uma.stop) :
    (EntryRef.ofMap.target).run s = .ok (.table (.ofDepth 0) ⟨Entry.field s.cr3⟩) s := by
  rw [EntryRef.target, Code.get_bind]
  exact Entry.target_run (fun _ => h) s

theorem tryDown_ofMap (h : Entry.field s.cr3 < uma.stop) :
    (tryDown vaddr .ofMap).run s
      = .ok (some ⟨.ofDepth 0, some (Entry.field s.cr3, key vaddr.value 0)⟩) s := by
  rw [tryDown]
  refine (Code.bind_ok (target_ofMap h)).trans ?_
  exact Code.bind_ok (downWithTable_run (Nat.zero_le 3) h s)

variable {i : Fin tableLen}

theorem tryDown_table {u : ℕ} (h : Entry.InSpace (.ofDepth d) (s.tables t i))
    (hnext : next d (s.tables t i) = some u) :
    (tryDown vaddr ⟨.ofDepth d, some (t, i)⟩).run s
      = .ok (some ⟨.ofDepth (d + 1), some (u, key vaddr.value (d + 1))⟩) s := by
  obtain ⟨hd, hdec, hu⟩ := next_eq_some hnext
  have hlt : u < uma.stop := hu ▸ h (by rw [hdec]; simp)
  rw [tryDown]
  simp only [nextLevel_ofDepth hd]
  rw [Code.bind_ok (target_run h), hdec]
  exact Code.bind_ok (downWithTable_run hd hlt s)

theorem tryDown_stop (h : Entry.InSpace (.ofDepth d) (s.tables t i))
    (hnext : next d (s.tables t i) = none) :
    (tryDown vaddr ⟨.ofDepth d, some (t, i)⟩).run s = .ok none s := by
  rw [tryDown]
  split
  · rfl
  · rw [Code.bind_ok (target_run h)]
    split
    · rename_i hdec
      exact absurd hdec (next_eq_none.mp hnext _ _)
    · rfl

/-- A step that returned read an entry inside physical memory. -/
theorem inSpace_of_tryDown {s' : Machine π} {res : Option EntryRef} (hd : d < 3)
    (h : (tryDown vaddr ⟨.ofDepth d, some (t, i)⟩).run s = .ok res s') :
    Entry.InSpace (.ofDepth d) (s.tables t i) := by
  rw [tryDown] at h
  simp only [nextLevel_ofDepth hd] at h
  obtain ⟨_, _, htarget, -⟩ := Code.bind_eq_ok.mp h
  rw [EntryRef.target, Code.get_bind] at htarget
  exact Entry.inSpace_of_target htarget

variable {alloc : FrameAlloc π}

theorem down_ofMap (h : Entry.field s.cr3 < uma.stop) :
    (down alloc vaddr .ofMap).run s
      = .ok ⟨.ofDepth 0, some (Entry.field s.cr3, key vaddr.value 0)⟩ s := by
  rw [down]
  refine (Code.bind_ok (target_ofMap h)).trans ?_
  exact downWithTable_run (Nat.zero_le 3) h s

theorem down_table {u : ℕ} (h : Entry.InSpace (.ofDepth d) (s.tables t i))
    (hnext : next d (s.tables t i) = some u) :
    (down alloc vaddr ⟨.ofDepth d, some (t, i)⟩).run s
      = .ok ⟨.ofDepth (d + 1), some (u, key vaddr.value (d + 1))⟩ s := by
  obtain ⟨hd, hdec, hu⟩ := next_eq_some hnext
  have hlt : u < uma.stop := hu ▸ h (by rw [hdec]; simp)
  rw [down]
  simp only [nextLevel_ofDepth hd]
  rw [Code.bind_ok (target_run h), hdec]
  exact downWithTable_run hd hlt s

theorem down_link {f : ℕ} (hd : d < 3) (hf : IsFrame f) (h : s.tables t i = Entry.link f) :
    (down alloc vaddr ⟨.ofDepth d, some (t, i)⟩).run s
      = .ok ⟨.ofDepth (d + 1), some (f, key vaddr.value (d + 1))⟩ s := by
  refine down_table ?_ ?_
  · rw [h]
    exact Entry.inSpace_link hf.1 hf.2
  · rw [h, next_link hd hf]

/-- Where the way ends, `down` takes a frame. -/
theorem down_eq_downNew (hd : d < 3) (h : Entry.InSpace (.ofDepth d) (s.tables t i))
    (hnext : next d (s.tables t i) = none) :
    (down alloc vaddr ⟨.ofDepth d, some (t, i)⟩).run s
      = (downNew alloc vaddr ⟨.ofDepth d, some (t, i)⟩ (.ofDepth (d + 1))).run s := by
  rw [down]
  simp only [nextLevel_ofDepth hd]
  rw [Code.bind_ok (target_run h)]
  cases hdec : Entry.decode (.ofDepth d) (s.tables t i) with
  | none => rfl
  | page level addr => rfl
  | table level addr => exact absurd hdec (next_eq_none.mp hnext _ _)

theorem downNew_run (hd : d < 3) {range : AddrRange uma} {p : π}
    (halloc : (alloc PageSize.small.layout).run s.phys = .ok (some range) p)
    (hf : IsFrame range.base.value) :
    (downNew alloc vaddr ⟨.ofDepth d, some (t, i)⟩ (.ofDepth (d + 1))).run s
      = .ok ⟨.ofDepth (d + 1), some (range.base.value, key vaddr.value (d + 1))⟩
        { s with tables := set s.tables t i (Entry.link range.base.value)
                 phys := p
                 frames := s.frames ++ [range.base.value] } := by
  rw [downNew, Code.bind_ok (Machine.onPhys_ok halloc)]
  refine (Code.bind_ok (EStateM.run_modify ..)).trans ?_
  refine (Code.bind_ok (EntryRef.reinit_run (Entry.reinit_link hd hf.1 _))).trans ?_
  exact downWithTable_run hd hf.2 _

theorem downNew_error {tableLevel : Level} {cur : EntryRef}
    (halloc : ∀ range p, (alloc PageSize.small.layout).run s.phys ≠ .ok (some range) p) :
    ∃ q s', (downNew alloc vaddr cur tableLevel).run s = .error q s' := by
  rw [downNew]
  cases hrun : (alloc PageSize.small.layout).run s.phys with
  | ok res p =>
      cases res with
      | none => exact ⟨_, _, by rw [Code.bind_ok (Machine.onPhys_ok hrun)]; rfl⟩
      | some range => exact absurd hrun (halloc range p)
  | error q p => exact ⟨_, _, Code.bind_error (Machine.onPhys_error hrun)⟩

end LinearWalker

/-! ## The frames an allocator hands out -/

/-- From the state `p`, the allocator hands out the frames `fs`, one after the other. -/
inductive Hands {π : Type} (alloc : FrameAlloc π) (p : π) : List ℕ → π → Prop
  | nil : Hands alloc p [] p
  | snoc {fs : List ℕ} {q p' : π} {range : AddrRange uma} (h : Hands alloc p fs q)
      (hrun : (alloc PageSize.small.layout).run q = .ok (some range) p') :
      Hands alloc p (fs ++ [range.base.value]) p'

/-- The first `n` frames the allocator hands out are frames of physical memory, and none is a
table on the ways of `K`.  An allocator hands out no block that is in use, so this is what it
promises to whoever builds tables from its blocks. -/
def HandsFresh {π : Type} (alloc : FrameAlloc π) (p : π) (n : ℕ) (tables : Tables) (root : ℕ)
    (K : Set (ℕ → Fin tableLen)) : Prop :=
  ∀ fs p', Hands alloc p fs p' → fs.length ≤ n →
    fs.Nodup ∧ ∀ f ∈ fs, IsFrame f ∧ ∀ k ∈ K, ∀ d, tableAt next tables root k d ≠ some f

/-- The first `n` frames the allocator hands out are filled with zeros.  No allocator promises
that. -/
def HandsZero {π : Type} (alloc : FrameAlloc π) (p : π) (n : ℕ) (tables : Tables) : Prop :=
  ∀ fs p', Hands alloc p fs p' → fs.length ≤ n → ∀ f ∈ fs, ∀ i, tables f i = 0

/-- The first `n` frames the allocator hands out are frames of physical memory, empty, and in
no table on the ways of `K`. -/
def HandsBlank {π : Type} (alloc : FrameAlloc π) (p : π) (n : ℕ) (tables : Tables) (root : ℕ)
    (K : Set (ℕ → Fin tableLen)) : Prop :=
  ∀ fs p', Hands alloc p fs p' → fs.length ≤ n →
    fs.Nodup ∧ ∀ f ∈ fs, IsFrame f ∧ Blank next 0 tables root K f

theorem HandsFresh.blank {π : Type} {alloc : FrameAlloc π} {p : π} {n : ℕ} {tables : Tables}
    {root : ℕ} {K : Set (ℕ → Fin tableLen)} (h : HandsFresh alloc p n tables root K)
    (hzero : HandsZero alloc p n tables) : HandsBlank alloc p n tables root K := by
  intro fs p' hhands hlen
  obtain ⟨hnodup, hfs⟩ := h fs p' hhands hlen
  exact ⟨hnodup, fun f hf => ⟨(hfs f hf).1, (hfs f hf).2, hzero fs p' hhands hlen f hf⟩⟩

/-- The allocator fails before it has handed out `n` frames. -/
def FailsBefore {π : Type} (alloc : FrameAlloc π) (p : π) (n : ℕ) : Prop :=
  ∃ fs p', Hands alloc p fs p' ∧ fs.length < n ∧
    ∀ range p'', (alloc PageSize.small.layout).run p' ≠ .ok (some range) p''

/-- What is handed out is determined by how much. -/
theorem Hands.unique {π : Type} {alloc : FrameAlloc π} {p p' q' : π} {fs gs : List ℕ}
    (h : Hands alloc p fs p') (h' : Hands alloc p gs q') (hlen : fs.length = gs.length) :
    fs = gs ∧ p' = q' := by
  induction h generalizing gs q' with
  | nil =>
      cases h' with
      | nil => exact ⟨rfl, rfl⟩
      | snoc => simp at hlen
  | snoc _ hrun ih =>
      cases h' with
      | nil => simp at hlen
      | snoc h' hrun' =>
          simp only [List.length_append, List.length_singleton, Nat.add_right_cancel_iff] at hlen
          obtain ⟨rfl, rfl⟩ := ih h' hlen
          cases hrun.symm.trans hrun'
          exact ⟨rfl, rfl⟩

/-- What is handed out first is a part of what is handed out in all. -/
theorem Hands.subset {π : Type} {alloc : FrameAlloc π} {p p' q' : π} {fs gs : List ℕ}
    (h : Hands alloc p gs q') (h' : Hands alloc p fs p') (hlen : gs.length ≤ fs.length) :
    gs ⊆ fs := by
  induction h' with
  | nil => rw [List.eq_nil_of_length_eq_zero (Nat.le_zero.mp hlen)]; exact List.Subset.refl _
  | snoc h' hrun ih =>
      rcases Nat.lt_or_eq_of_le hlen with hlt | heq
      · rw [List.length_append, List.length_singleton, Nat.lt_succ_iff] at hlt
        exact List.subset_append_of_subset_left _ (ih hlt)
      · rw [(h.unique (h'.snoc hrun) heq).1]
        exact List.Subset.refl _

/-- An allocator that has handed out the frames did not fail before. -/
theorem Hands.not_failsBefore {π : Type} {alloc : FrameAlloc π} {p p' : π} {fs : List ℕ}
    (h : Hands alloc p fs p') : ¬ FailsBefore alloc p fs.length := by
  rintro ⟨gs, q, hgs, hlt, hfail⟩
  induction h with
  | nil => exact absurd hlt (Nat.not_lt_zero _)
  | snoc h hrun ih =>
      rw [List.length_append, List.length_singleton] at hlt
      rcases Nat.lt_succ_iff_lt_or_eq.mp hlt with hlt | heq
      · exact ih hlt
      · obtain ⟨-, rfl⟩ := hgs.unique h heq
        exact hfail _ _ hrun

/-- The entries of a grown tree refer to physical memory, if those of the old one did. -/
theorem Inside.growth {tables tables' : Tables} {root d : ℕ} {k : ℕ → Fin tableLen}
    {K : Set (ℕ → Fin tableLen)} {fs : List ℕ} (h : Inside tables root K)
    (hgrowth : Growth next Entry.link 0 tables root K k d fs tables')
    (hfs : ∀ f ∈ fs, IsFrame f) : Inside tables' root K := by
  intro k' hk' d' e he
  rcases hgrowth.entries k' hk' d' e he with he | rfl | ⟨f, hf, rfl⟩
  · exact h k' hk' d' e he
  · exact inSpace_zero d'
  · exact Entry.inSpace_link (hfs f hf).1 (hfs f hf).2

/-! ## Words that lead nowhere

Tables that differ in such words only have the same ways, and the walker cannot tell them
apart. -/

/-- Below the root, the word refers to nothing or to a page in physical memory. -/
def Idle (raw : ℕ) : Prop :=
  raw.testBit 0 = false ∨ (raw.testBit 7 = true ∧ Entry.field raw < uma.stop)

theorem Idle.next_eq {raw d : ℕ} (h : Idle raw) (hd : d ≠ 0) : next d raw = none := by
  refine next_eq_none.mpr fun level addr hdec => ?_
  rcases h with hp | ⟨hs, -⟩
  · rw [decode_eq_none.mpr hp] at hdec
    cases hdec
  · match d with
    | 0 => exact hd rfl
    | 1 | 2 =>
        simp only [Level.ofDepth, Entry.decode, hs] at hdec
        split at hdec <;> cases hdec
    | _ + 3 =>
        simp only [Level.ofDepth, Entry.decode] at hdec
        split at hdec <;> cases hdec

theorem Idle.inSpace {raw : ℕ} (h : Idle raw) (d : ℕ) : Entry.InSpace (.ofDepth d) raw := fun hne =>
  h.elim (fun hp => absurd (decode_eq_none.mpr hp) hne) And.right

/-- The machine `a` is `s`, but for words in the tables `F` that have the property `P` in both, and
so lead nowhere. -/
structure Stale {π : Type} (P : ℕ → Prop) (F : Set ℕ) (a s : Machine π) : Prop where
  cr3 : a.cr3 = s.cr3
  frames : a.frames = s.frames
  phys : a.phys = s.phys
  freed : a.freed = s.freed
  root : Entry.field s.cr3 ∉ F
  off : ∀ t ∉ F, a.tables t = s.tables t
  words : ∀ t i, a.tables t i = s.tables t i ∨ (P (a.tables t i) ∧ P (s.tables t i))
  idle : ∀ raw, P raw → Idle raw

namespace Stale

variable {π : Type} {P : ℕ → Prop} {F : Set ℕ} {a s : Machine π}

theorem refl (s : Machine π) : Stale Idle ∅ s s :=
  ⟨rfl, rfl, rfl, rfl, Set.notMem_empty _, fun _ _ => rfl, fun _ _ => .inl rfl, fun _ => id⟩

theorem eq (h : Stale P ∅ a s) : a = s := by
  obtain ⟨cr3, frames, tables, phys, freed⟩ := a
  obtain ⟨rfl, rfl, rfl, rfl, -, hoff, -⟩ := h
  obtain rfl : tables = s.tables := funext fun t => hoff t (Set.notMem_empty t)
  rfl

theorem next_eq (h : Stale P F a s) {d t : ℕ} (ht : d = 0 → t ∉ F) (i : Fin tableLen) :
    next d (a.tables t i) = next d (s.tables t i) := by
  by_cases hd : d = 0
  · rw [h.off t (ht hd)]
  · rcases h.words t i with heq | ⟨ha, hs⟩
    · rw [heq]
    · rw [(h.idle _ ha).next_eq hd, (h.idle _ hs).next_eq hd]

theorem inSpace (h : Stale P F a s) {d t : ℕ} {i : Fin tableLen}
    (hspace : Entry.InSpace (.ofDepth d) (s.tables t i)) :
    Entry.InSpace (.ofDepth d) (a.tables t i) := by
  rcases h.words t i with heq | ⟨ha, -⟩
  · rw [heq]
    exact hspace
  · exact (h.idle _ ha).inSpace d

/-- A table at depth 0 is the root. -/
theorem root_of_table (h : Stale P F a s) {d t : ℕ} {k : ℕ → Fin tableLen}
    (ht : tableAt next s.tables (Entry.field s.cr3) k d = some t) : d = 0 → t ∉ F := by
  rintro rfl
  cases ht
  exact h.root

/-- The ways are the same. -/
theorem tableAt_eq (h : Stale P F a s) (k : ℕ → Fin tableLen) (d : ℕ) :
    tableAt next a.tables (Entry.field s.cr3) k d
      = tableAt next s.tables (Entry.field s.cr3) k d :=
  tableAt_congr_next fun j _ _ ht => h.next_eq (h.root_of_table ht) (k j)

theorem apart (h : Stale P F a s) {K : Set (ℕ → Fin tableLen)}
    (hapart : Apart next s.tables (Entry.field s.cr3) K) :
    Apart next a.tables (Entry.field s.cr3) K :=
  hapart.of_le fun k _ d _ ht => (h.tableAt_eq k d).symm.trans ht

theorem inside (h : Stale P F a s) {K : Set (ℕ → Fin tableLen)}
    (hin : Inside s.tables (Entry.field s.cr3) K) :
    Inside a.tables (Entry.field s.cr3) K := by
  intro k hk d e he
  obtain ⟨t, ht, rfl⟩ := entryAt_eq_some.mp he
  rw [h.tableAt_eq] at ht
  exact h.inSpace (hin k hk d _ (entryAt_of_table ht))

/-- An entry is written, in both. -/
theorem put (h : Stale P F a s) (t : ℕ) (i : Fin tableLen) (raw : ℕ) :
    Stale P F { a with tables := set a.tables t i raw }
      { s with tables := set s.tables t i raw } := by
  refine ⟨h.cr3, h.frames, h.phys, h.freed, h.root, fun u hu => ?_, fun u j => ?_, h.idle⟩
  · show TableTree.set a.tables t i raw u = TableTree.set s.tables t i raw u
    by_cases hut : u = t
    · subst hut
      rw [TableTree.set, TableTree.set, Function.update_self, Function.update_self, h.off u hu]
    · rw [set_table_of_ne hut, set_table_of_ne hut, h.off u hu]
  · by_cases hplace : u = t ∧ j = i
    · obtain ⟨rfl, rfl⟩ := hplace
      exact .inl (set_self.trans set_self.symm)
    · simp only [set_of_ne hplace]
      exact h.words u j

/-- An entry is written, in both, to hang in the frame `f`. -/
theorem hang (h : Stale P F a s) (t : ℕ) (i : Fin tableLen) (raw : ℕ) (p : π) (f : ℕ) :
    Stale P F { a with tables := set a.tables t i raw, phys := p, frames := a.frames ++ [f] }
      { s with tables := set s.tables t i raw, phys := p, frames := s.frames ++ [f] } := by
  have hput := h.put t i raw
  exact ⟨h.cr3, by rw [h.frames], rfl, h.freed, h.root, hput.off, hput.words, h.idle⟩

end Stale

/-! ## The loop of `map` -/

namespace LinearWalker

variable {π : Type} {S : AddrSpace} {vaddr : Addr S} {s : Machine π} {alloc : FrameAlloc π}
  {K : Set (ℕ → Fin tableLen)} {D : ℕ}

/-- The machine after the way was grown. -/
def grown (s : Machine π) (fs : List ℕ) (tables : Tables) (p : π) : Machine π :=
  { s with tables := tables, phys := p, frames := s.frames ++ fs }

/-- The loop has come to depth `d`. -/
structure At (alloc : FrameAlloc π) (s : Machine π) (K : Set (ℕ → Fin tableLen))
    (k : ℕ → Fin tableLen) (d : ℕ) (fs : List ℕ) (tables : Tables) (p : π) (t : ℕ) : Prop where
  hands : Hands alloc s.phys fs p
  growth : Growth next Entry.link 0 s.tables (Entry.field s.cr3) K k d fs tables
  table : tableAt next tables (Entry.field s.cr3) k d = some t

theorem ofDepth_ne {d : ℕ} (hd : d < D) (hD : D ≤ 3) : Level.ofDepth d ≠ .ofDepth D :=
  (by decide : ∀ D ≤ 3, ∀ d < D, Level.ofDepth d ≠ .ofDepth D) D hD d hd

/-- One round of the loop: it comes one level further, or the allocator fails. -/
theorem At.down {P : ℕ → Prop} {F : Set ℕ} {a : Machine π} {d : ℕ} {fs : List ℕ} {tables : Tables}
    {p : π} {t : ℕ} (hat : At alloc s K (key vaddr.value) d fs tables p t)
    (hstale : Stale P F a (grown s fs tables p)) (hd : d < D) (hD : D ≤ 3)
    (hk : key vaddr.value ∈ K)
    (hin : Inside s.tables (Entry.field s.cr3) K)
    (hblank : HandsBlank alloc s.phys
      (missing next s.tables (Entry.field s.cr3) (key vaddr.value) D) s.tables
      (Entry.field s.cr3) K) :
    (∃ fs' tables' p' t' a', At alloc s K (key vaddr.value) (d + 1) fs' tables' p' t' ∧
      Stale P F a' (grown s fs' tables' p') ∧
      (LinearWalker.down alloc vaddr ⟨.ofDepth d, some (t, key vaddr.value d)⟩).run a
        = .ok ⟨.ofDepth (d + 1), some (t', key vaddr.value (d + 1))⟩ a') ∨
    (FailsBefore alloc s.phys
      (missing next s.tables (Entry.field s.cr3) (key vaddr.value) D) ∧
      ∃ q s', (LinearWalker.down alloc vaddr ⟨.ofDepth d, some (t, key vaddr.value d)⟩).run a
        = .error q s') := by
  have hlen : fs.length ≤ missing next s.tables (Entry.field s.cr3) (key vaddr.value) D := by
    rw [hat.growth.length]
    exact missing_mono (Nat.le_of_lt hd)
  have hframes := (hblank fs p hat.hands hlen).2
  have hspace : Entry.InSpace (.ofDepth d) (a.tables t (key vaddr.value d)) :=
    hstale.inSpace (hin.growth hat.growth (fun f hf => (hframes f hf).1) _ hk d _
      (entryAt_of_table hat.table))
  have hsame : next d (a.tables t (key vaddr.value d)) = next d (tables t (key vaddr.value d)) :=
    hstale.next_eq (hstale.root_of_table hat.table) _
  cases hnext : next d (a.tables t (key vaddr.value d)) with
  | some u =>
      have htable := (tableAt_succ hat.table).trans (hsame.symm.trans hnext)
      exact .inl ⟨fs, tables, p, u, a, ⟨hat.hands, hat.growth.down hk htable, htable⟩, hstale,
        down_table hspace hnext⟩
  | none =>
      have hend := hsame.symm.trans hnext
      have hnone := hat.growth.tableAt_succ_none hk hat.table hend
      have hlt : fs.length < missing next s.tables (Entry.field s.cr3) (key vaddr.value) D := by
        rw [hat.growth.length, Nat.lt_iff_add_one_le, ← missing_succ hnone]
        exact missing_mono hd
      have hphys : a.phys = p := hstale.phys
      rw [down_eq_downNew (by omega) hspace hnext]
      by_cases halloc : ∃ range p', (alloc PageSize.small.layout).run p = .ok (some range) p'
      · obtain ⟨range, p', halloc⟩ := halloc
        have hhands := hat.hands.snoc halloc
        obtain ⟨hnodup, hnew⟩ := hblank _ _ hhands (by rw [List.length_append]; exact hlt)
        obtain ⟨hframe, hempty⟩ := hnew range.base.value
          (List.mem_append_right _ List.mem_cons_self)
        have hf : range.base.value ∉ fs := fun hmem =>
          (List.nodup_append.mp hnodup).2.2 _ hmem _ List.mem_cons_self rfl
        have hlink : next d (Entry.link range.base.value) = some range.base.value :=
          next_link (by omega) hframe
        have hself := stops_link hat.growth.apart hk hat.table next_zero
          (hat.growth.blank hf hempty hk) hlink hk fun _ _ => rfl
        have hstale' := hstale.hang t (key vaddr.value d) (Entry.link range.base.value) p'
          range.base.value
        rw [grown, List.append_assoc] at hstale'
        exact .inl ⟨_, _, p', range.base.value, _, ⟨hhands,
          hat.growth.hang hk next_zero hat.table hend hlink hf hempty, hself.1⟩, hstale',
          downNew_run (by omega) (by rw [hphys, halloc]) hframe⟩
      · have hfail : ∀ range p', (alloc PageSize.small.layout).run p ≠ .ok (some range) p' :=
          fun range p' hrun => halloc ⟨range, p', hrun⟩
        exact .inr ⟨⟨fs, p, hat.hands, hlt, hfail⟩, downNew_error (by rw [hphys]; exact hfail)⟩

theorem downLoop_step {target : Level} {cur cur' : EntryRef} {s' : Machine π} {fuel : ℕ}
    (hne : cur.level ≠ target) (hrun : (LinearWalker.down alloc vaddr cur).run s = .ok cur' s') :
    (downLoop alloc vaddr target (fuel + 1) cur).run s
      = (downLoop alloc vaddr target fuel cur').run s' := by
  rw [downLoop, if_neg hne, Code.bind_ok hrun]

/-- A round that returned read an entry inside physical memory. -/
theorem inSpace_of_downLoop {target : Level} {cur : EntryRef} {d t fuel : ℕ} {i : Fin tableLen}
    {s' : Machine π} (hd : d < 3) (hne : Level.ofDepth d ≠ target)
    (h : (downLoop alloc vaddr target fuel ⟨.ofDepth d, some (t, i)⟩).run s = .ok cur s') :
    Entry.InSpace (.ofDepth d) (s.tables t i) := by
  cases fuel with
  | zero => exact nomatch h
  | succ fuel =>
      rw [downLoop, if_neg hne] at h
      obtain ⟨_, _, hdown, -⟩ := Code.bind_eq_ok.mp h
      rw [LinearWalker.down] at hdown
      simp only [nextLevel_ofDepth hd] at hdown
      obtain ⟨_, _, htarget, -⟩ := Code.bind_eq_ok.mp hdown
      rw [EntryRef.target, Code.get_bind] at htarget
      exact Entry.inSpace_of_target htarget

theorem downLoop_end {target : Level} {cur : EntryRef} (fuel : ℕ) (h : cur.level = target) :
    (downLoop alloc vaddr target (fuel + 1) cur).run s = .ok cur s := by
  rw [downLoop, if_pos h]
  rfl

/-- The loop comes to the level it is to come to, or the allocator fails before it has handed out
all the frames that are missing.  It does so on a machine with old words in its frames, too. -/
theorem downLoop_stale {P : ℕ → Prop} {F : Set ℕ} {a : Machine π} (hstale : Stale P F a s)
    (hD : D ≤ 3) (hk : key vaddr.value ∈ K) (hcr3 : Entry.field s.cr3 < uma.stop)
    (hapart : Apart next s.tables (Entry.field s.cr3) K)
    (hin : Inside s.tables (Entry.field s.cr3) K)
    (hblank : HandsBlank alloc s.phys
      (missing next s.tables (Entry.field s.cr3) (key vaddr.value) D) s.tables
      (Entry.field s.cr3) K) :
    (∃ fs tables p t a', At alloc s K (key vaddr.value) D fs tables p t ∧
      Stale P F a' (grown s fs tables p) ∧
      (downLoop alloc vaddr (.ofDepth D) 5 .ofMap).run a
        = .ok ⟨.ofDepth D, some (t, key vaddr.value D)⟩ a') ∨
    (FailsBefore alloc s.phys
      (missing next s.tables (Entry.field s.cr3) (key vaddr.value) D) ∧
      ∃ q s', (downLoop alloc vaddr (.ofDepth D) 5 .ofMap).run a = .error q s') := by
  -- from any depth the loop has come to, with fuel for the levels that are left
  have hloop : ∀ n d fuel fs tables p t a, d + n = D → n < fuel →
      At alloc s K (key vaddr.value) d fs tables p t → Stale P F a (grown s fs tables p) →
      (∃ fs' tables' p' t' a', At alloc s K (key vaddr.value) D fs' tables' p' t' ∧
        Stale P F a' (grown s fs' tables' p') ∧
        (downLoop alloc vaddr (.ofDepth D) fuel ⟨.ofDepth d, some (t, key vaddr.value d)⟩).run a
          = .ok ⟨.ofDepth D, some (t', key vaddr.value D)⟩ a') ∨
      (FailsBefore alloc s.phys
        (missing next s.tables (Entry.field s.cr3) (key vaddr.value) D) ∧ ∃ q s',
        (downLoop alloc vaddr (.ofDepth D) fuel ⟨.ofDepth d, some (t, key vaddr.value d)⟩).run a
          = .error q s') := by
    intro n
    induction n with
    | zero =>
        intro d fuel fs tables p t a hd hfuel hat hstale
        obtain ⟨fuel, rfl⟩ := Nat.exists_eq_succ_of_ne_zero (Nat.ne_of_gt hfuel)
        obtain rfl : d = D := hd
        exact .inl ⟨fs, tables, p, t, a, hat, hstale, downLoop_end fuel rfl⟩
    | succ n ih =>
        intro d fuel fs tables p t a hd hfuel hat hstale
        obtain ⟨fuel, rfl⟩ := Nat.exists_eq_succ_of_ne_zero (Nat.ne_of_gt (Nat.zero_lt_of_lt hfuel))
        have hne := ofDepth_ne (d := d) (by omega) hD
        rcases hat.down hstale (by omega) hD hk hin hblank with
          ⟨fs', tables', p', t', a', hat', hstale', hrun⟩ | ⟨hfails, q, s', hrun⟩
        · rw [downLoop_step hne hrun]
          exact ih (d + 1) fuel fs' tables' p' t' a' (by omega) (by omega) hat' hstale'
        · rw [downLoop, if_neg hne]
          exact .inr ⟨hfails, q, s', Code.bind_error hrun⟩
  have hstart : grown s [] s.tables s.phys = s := by rw [grown, List.append_nil]
  have hlevel : EntryRef.ofMap.level ≠ .ofDepth D :=
    (by decide : ∀ D ≤ 3, Level.cr3 ≠ .ofDepth D) D hD
  rw [← hstale.cr3] at hcr3
  rw [downLoop_step hlevel (down_ofMap hcr3), hstale.cr3]
  exact hloop D 0 4 [] s.tables s.phys _ a (Nat.zero_add D) (by omega)
    ⟨.nil, .nil hapart, rfl⟩ (by rw [hstart]; exact hstale)

theorem downLoop_cases (hD : D ≤ 3) (hk : key vaddr.value ∈ K)
    (hcr3 : Entry.field s.cr3 < uma.stop)
    (hapart : Apart next s.tables (Entry.field s.cr3) K)
    (hin : Inside s.tables (Entry.field s.cr3) K)
    (hblank : HandsBlank alloc s.phys
      (missing next s.tables (Entry.field s.cr3) (key vaddr.value) D) s.tables
      (Entry.field s.cr3) K) :
    (∃ fs tables p t, At alloc s K (key vaddr.value) D fs tables p t ∧
      (downLoop alloc vaddr (.ofDepth D) 5 .ofMap).run s
        = .ok ⟨.ofDepth D, some (t, key vaddr.value D)⟩ (grown s fs tables p)) ∨
    (FailsBefore alloc s.phys
      (missing next s.tables (Entry.field s.cr3) (key vaddr.value) D) ∧
      ∃ q s', (downLoop alloc vaddr (.ofDepth D) 5 .ofMap).run s = .error q s') := by
  rcases downLoop_stale (.refl s) hD hk hcr3 hapart hin hblank with
    ⟨fs, tables, p, t, a, hat, hstale, hrun⟩ | hfails
  · exact .inl ⟨fs, tables, p, t, hat, hstale.eq ▸ hrun⟩
  · exact .inr hfails

end LinearWalker

/-! ## The walk of `translate` -/

namespace MemoryMap

variable {π : Type} {S : AddrSpace} {vaddr : Addr S} {s : Machine π} {d e : ℕ}

/-- The walk ends where the way of the address stops. -/
theorem walk_run (hcr3 : Entry.field s.cr3 < uma.stop)
    (hin : Inside s.tables (Entry.field s.cr3) {key vaddr.value})
    (hstop : Stops next s.tables (Entry.field s.cr3) (key vaddr.value) d e) :
    ∃ t, s.tables t (key vaddr.value d) = e ∧
      (walk vaddr).run s = .ok ⟨.ofDepth d, some (t, key vaddr.value d)⟩ s := by
  obtain ⟨t, ht, he⟩ := entryAt_eq_some.mp hstop.1
  -- from any table on the way, with as much fuel as there are tables below it
  have hloop : ∀ fuel j u, tableAt next s.tables (Entry.field s.cr3) (key vaddr.value) j = some u →
      d < j + fuel → (LinearWalker.tryDownLoop vaddr fuel
        ⟨.ofDepth j, some (u, key vaddr.value j)⟩).run s
          = .ok ⟨.ofDepth d, some (t, key vaddr.value d)⟩ s := by
    intro fuel
    induction fuel with
    | zero =>
        intro j u hu hlt
        exact nomatch (hstop.tableAt_none hlt).symm.trans hu
    | succ fuel ih =>
        intro j u hu hlt
        have hspace := hin _ rfl j _ (entryAt_of_table hu)
        rw [LinearWalker.tryDownLoop]
        cases hnext : next j (s.tables u (key vaddr.value j)) with
        | none =>
            obtain ⟨rfl, -⟩ := hstop.unique ⟨entryAt_of_table hu, hnext⟩
            cases ht.symm.trans hu
            rw [Code.bind_ok (LinearWalker.tryDown_stop hspace hnext)]
            rfl
        | some w =>
            rw [Code.bind_ok (LinearWalker.tryDown_table hspace hnext)]
            exact ih (j + 1) w ((tableAt_succ hu).trans hnext) (by omega)
  refine ⟨t, he, ?_⟩
  rw [walk, LinearWalker.tryDownLoop, Code.bind_ok (LinearWalker.tryDown_ofMap hcr3)]
  exact hloop 4 0 _ rfl (by have := depth_le ht; omega)

/-- So `translate` returns what the entry there refers to. -/
theorem translate_run (hcr3 : Entry.field s.cr3 < uma.stop)
    (hin : Inside s.tables (Entry.field s.cr3) {key vaddr.value})
    (hstop : Stops next s.tables (Entry.field s.cr3) (key vaddr.value) d e) :
    (translate vaddr).run s = .ok (match Entry.decode (.ofDepth d) e with
      | .page _ addr => some addr
      | _ => none) s := by
  obtain ⟨t, rfl, hwalk⟩ := walk_run hcr3 hin hstop
  have hspace := hin _ rfl d _ hstop.1
  rw [translate, Code.bind_ok hwalk, Code.bind_ok (LinearWalker.target_run hspace)]
  cases hdec : Entry.decode (.ofDepth d) (s.tables t (key vaddr.value d)) with
  | none => rfl
  | page level addr => rfl
  | table level addr => exact absurd hdec (next_eq_none.mp hstop.2 _ _)

/-- And it only returns if everything on the way is inside physical memory. -/
theorem inside_of_translate {s' : Machine π} {res : Option (Addr uma)}
    (hcr3 : Entry.field s.cr3 < uma.stop) (h : (translate vaddr).run s = .ok res s') :
    Inside s.tables (Entry.field s.cr3) {key vaddr.value} := by
  -- from any table on the way
  have hloop : ∀ fuel j u ent s₁ target s₂,
      tableAt next s.tables (Entry.field s.cr3) (key vaddr.value) j = some u →
      (LinearWalker.tryDownLoop vaddr fuel ⟨.ofDepth j, some (u, key vaddr.value j)⟩).run s
        = .ok ent s₁ → ent.target.run s₁ = .ok target s₂ →
      ∀ d e, j ≤ d → entryAt next s.tables (Entry.field s.cr3) (key vaddr.value) d = some e →
        Entry.InSpace (.ofDepth d) e := by
    intro fuel
    induction fuel with
    | zero => exact fun j u ent s₁ target s₂ _ hrun => nomatch hrun
    | succ fuel ih =>
        intro j u ent s₁ target s₂ hu hrun htarget d e hle he
        rw [LinearWalker.tryDownLoop] at hrun
        obtain ⟨found, s₀, hdown, hrun⟩ := Code.bind_eq_ok.mp hrun
        have hspace : Entry.InSpace (.ofDepth j) (s.tables u (key vaddr.value j)) := by
          by_cases hj : j < 3
          · exact LinearWalker.inSpace_of_tryDown hj hdown
          · -- the last level is not read by the loop, but by `translate`
            obtain rfl : j = 3 := Nat.le_antisymm (depth_le hu) (Nat.not_lt.mp hj)
            cases hdown
            cases hrun
            rw [EntryRef.target, Code.get_bind] at htarget
            exact Entry.inSpace_of_target htarget
        rcases Nat.eq_or_lt_of_le hle with rfl | hlt
        · cases (entryAt_of_table hu).symm.trans he
          exact hspace
        · cases hnext : next j (s.tables u (key vaddr.value j)) with
          | none =>
              have hstop : Stops next s.tables (Entry.field s.cr3) (key vaddr.value) j _ :=
                ⟨entryAt_of_table hu, hnext⟩
              rw [entryAt, hstop.tableAt_none hlt] at he
              cases he
          | some w =>
              cases hdown.symm.trans (LinearWalker.tryDown_table hspace hnext)
              exact ih (j + 1) w ent s₁ target s₂ ((tableAt_succ hu).trans hnext) hrun htarget d e
                hlt he
  rw [translate] at h
  obtain ⟨ent, s₁, hwalk, h⟩ := Code.bind_eq_ok.mp h
  obtain ⟨target, s₂, htarget, -⟩ := Code.bind_eq_ok.mp h
  rw [walk, LinearWalker.tryDownLoop, Code.bind_ok (LinearWalker.tryDown_ofMap hcr3)] at hwalk
  rintro k rfl d e he
  exact hloop 4 0 _ ent s₁ target s₂ rfl hwalk htarget d e (Nat.zero_le d) he

/-- It returns `None` if the entry refers to nothing. -/
theorem translate_none_iff (hcr3 : Entry.field s.cr3 < uma.stop)
    (hin : Inside s.tables (Entry.field s.cr3) {key vaddr.value})
    (hstop : Stops next s.tables (Entry.field s.cr3) (key vaddr.value) d e) :
    (translate vaddr).run s = .ok none s ↔ Entry.decode (.ofDepth d) e = .none := by
  rw [translate_run hcr3 hin hstop]
  cases hdec : Entry.decode (.ofDepth d) e with
  | none => exact ⟨fun _ => rfl, fun _ => rfl⟩
  | page level addr => exact iff_of_false (fun h => nomatch h) fun h => nomatch h
  | table level addr => exact absurd hdec (next_eq_none.mp hstop.2 _ _)

end MemoryMap

end Koe
