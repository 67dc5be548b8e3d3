/-
# `KoeOs.Phy.MemblockRun` — what the boot allocator hands out

`reserve` returns the offset inside the partial block, without the block's base.
The first memory it hands out is therefore at address 0, below the kernel.  Until
then the offset is 0 and each call finds one of two things:

    every block is smaller than the layout    `None`, and nothing is left
    some block is not                         address 0

So a run hands out nothing wrong exactly when it hands out nothing at all but
empty ranges (`Harmless`).

A call that returns `None` has retired every block on the way, so it leaves
nothing for a smaller layout (`reserveLoop_eq_none`).
-/
import KoeOs.Phy.Memblock

namespace Koe

/-- The byte `x` lies in the area. -/
def MemoryArea.Contains (area : MemoryArea) (x : ℕ) : Prop :=
  area.startAddress ≤ x ∧ x < area.startAddress + area.size

/-- The byte `x` lies in the block. -/
def Memblock.Contains (b : Memblock) (x : ℕ) : Prop := b.base.value ≤ x ∧ x < b.base.value + b.size

namespace MemblockSystem

variable {s t m m₁ m₂ : MemblockSystem} {l : Layout} {r : Option (Addr uma)}

/-- Memory that was handed out. -/
structure Granted where
  layout : Layout
  addr : Addr uma
  deriving DecidableEq

/-- The byte `x` was handed out. -/
def Granted.Contains (g : Granted) (x : ℕ) : Prop :=
  g.addr.value ≤ x ∧ x < g.addr.value + g.layout.size

/-- Call `reserve` for each layout in turn; what was handed out. -/
def reserveAll : List Layout → Code MemblockSystem (List Granted)
  | [] => return []
  | layout :: layouts => do
      let addr ← reserve layout
      let rest ← reserveAll layouts
      match addr with
      | none => return rest
      | some addr => return ⟨layout, addr⟩ :: rest

/-- What callers of the boot allocator rely on: each range handed out is available
memory above the kernel, aligned, and nobody else's. -/
structure Safe (kernelEnd : Addr uma) (areas : List MemoryArea) (granted : List Granted)
    (frozen : MemblockSystem) : Prop where
  inside : ∀ g ∈ granted, ∀ x, g.Contains x →
    kernelEnd.value ≤ x ∧ ∃ area ∈ areas, area.typ = .available ∧ area.Contains x
  aligned : ∀ g ∈ granted, g.layout.align ∣ g.addr.value
  disjoint : granted.Pairwise fun g h => ∀ x, g.Contains x → ¬ h.Contains x
  apart : ∀ g ∈ granted, ∀ b ∈ frozen.freeBlocks, ∀ x, g.Contains x → ¬ b.Contains x

/-- The blocks `reserve` can still take memory from. -/
def blocks (s : MemblockSystem) : List Memblock := s.partialBlock.toList ++ s.freeBlocks

/-- Every layout before the first one that is larger than every block is empty. -/
def Harmless (blocks : List Memblock) : List Layout → Prop
  | [] => True
  | layout :: layouts =>
      (∀ b ∈ blocks, b.size < layout.size) ∨ (layout.size = 0 ∧ Harmless blocks layouts)

/-! ## Before anything is handed out -/

/-- Nothing has been taken from the partial block yet. -/
structure Fresh (s : MemblockSystem) : Prop where
  offset : s.offset = 0
  live : s.isFrozen = false
  drained : s.partialBlock = none → s.freeBlocks = []

theorem Fresh.blocks_eq_nil (hs : s.Fresh) (h : s.partialBlock = none) : s.blocks = [] := by
  rw [blocks, h, hs.drained h]; rfl

theorem mem_getLast?_dropLast {α : Type} (l : List α) (x : α) :
    x ∈ l.getLast?.toList ++ l.dropLast ↔ x ∈ l := by
  cases h : l.getLast? with
  | none => rw [List.getLast?_eq_none_iff.mp h]; simp
  | some a =>
      rw [← List.dropLast_append_getLast? a h]
      simp [or_comm]

/-- The system with the next free block as its partial block. -/
def advance (s : MemblockSystem) (reservedBlocks : Memblocks) : MemblockSystem where
  freeBlocks := s.freeBlocks.dropLast
  reservedBlocks := reservedBlocks
  partialBlock := s.freeBlocks.getLast?
  offset := 0
  managedRange := s.managedRange
  isFrozen := s.isFrozen

/-- One round: the layout fits behind the offset, or the next block is tried. -/
theorem reserveLoop_eq_ok {b : Memblock} (hb : s.partialBlock = some b) {fuel : ℕ}
    (hrun : (reserveLoop l (fuel + 1)).run s = .ok r t) :
    (b.size < Usize.roundUp s.offset l.align + l.size ∧ ∃ done reservedBlocks,
      (Memblocks.insert b).run s.reservedBlocks = .ok done reservedBlocks ∧
        (reserveLoop l fuel).run (s.advance reservedBlocks) = .ok r t) ∨
    (Usize.roundUp s.offset l.align + l.size ≤ b.size ∧
      r = some ⟨Usize.roundUp s.offset l.align⟩ ∧
        t = { s with offset := Usize.roundUp s.offset l.align + l.size }) := by
  rw [reserveLoop, Code.get_bind] at hrun
  obtain ⟨_, _, hlive, hrun⟩ := Code.bind_eq_ok.mp hrun
  obtain ⟨-, rfl⟩ := Code.assert_eq_ok.mp hlive
  rw [hb] at hrun
  obtain ⟨base, _, hbase, hrun⟩ := Code.bind_eq_ok.mp hrun
  obtain ⟨rfl, rfl⟩ := Usize.nextMultipleOf_eq_ok hbase
  rw [Code.bind_ok (EStateM.run_modify ..)] at hrun
  obtain ⟨offset, _, hadd, hrun⟩ := Code.bind_eq_ok.mp hrun
  obtain ⟨-, rfl, rfl⟩ := Usize.add_eq_ok.mp hadd
  rw [Code.bind_ok (EStateM.run_modify ..)] at hrun
  split at hrun
  · rename_i hlt
    obtain ⟨done, _, hres, hrun⟩ := Code.bind_eq_ok.mp hrun
    obtain ⟨reservedBlocks, hins, rfl⟩ := Code.zoom_eq_ok.mp hres
    obtain ⟨next, _, hpop, hrun⟩ := Code.bind_eq_ok.mp hrun
    obtain ⟨freeBlocks, hp, rfl⟩ := Code.zoom_eq_ok.mp hpop
    cases hp
    rw [Code.bind_ok (EStateM.run_modify ..)] at hrun
    exact .inl ⟨hlt, done, reservedBlocks, hins, hrun⟩
  · rename_i hle
    obtain ⟨addr, _, hnew, hrun⟩ := Code.bind_eq_ok.mp hrun
    obtain ⟨hval, -, -, rfl⟩ := Addr.new_eq_ok hnew
    cases hrun
    exact .inr ⟨not_lt.mp hle, congrArg some (Addr.ext hval), rfl⟩

/-- The first call on a block: it fits at offset 0, or the next block is tried. -/
theorem reserveLoop_fresh (hs : s.Fresh) {b : Memblock} (hb : s.partialBlock = some b)
    {fuel : ℕ} (hrun : (reserveLoop l (fuel + 1)).run s = .ok r t) :
    (b.size < l.size ∧ ∃ u, u.Fresh ∧ (∀ c, c ∈ u.blocks ↔ c ∈ s.freeBlocks) ∧
      (reserveLoop l fuel).run u = .ok r t) ∨
    (l.size ≤ b.size ∧ r = some ⟨0⟩ ∧ t = { s with offset := l.size }) := by
  have hzero : Usize.roundUp s.offset l.align = 0 := by rw [hs.offset, Usize.roundUp_zero]
  rcases reserveLoop_eq_ok hb hrun with ⟨hlt, done, reservedBlocks, -, hrest⟩ | ⟨hle, rfl, rfl⟩
  · rw [hzero, Nat.zero_add] at hlt
    refine .inl ⟨hlt, s.advance reservedBlocks, ⟨rfl, hs.live, fun h => ?_⟩,
      fun c => mem_getLast?_dropLast s.freeBlocks c, hrest⟩
    change s.freeBlocks.dropLast = []
    rw [List.getLast?_eq_none_iff.mp h]
    rfl
  · rw [hzero, Nat.zero_add] at *
    exact .inr ⟨hle, rfl, rfl⟩

theorem reserve_eq (l : Layout) (s : MemblockSystem) :
    (reserve l).run s = (reserveLoop l (s.freeBlocks.length + 2)).run s := by
  rw [reserve, Code.get_bind]

/-- With no block left, nothing is handed out. -/
theorem reserveLoop_drained (hlive : s.isFrozen = false) (h : s.partialBlock = none) (fuel : ℕ) :
    (reserveLoop l (fuel + 1)).run s = .ok none s := by
  have hlive' : (!s.isFrozen) = true := by rw [hlive]; rfl
  rw [reserveLoop, Code.get_bind, Code.bind_ok (Code.assert_of hlive' _ s), h]
  rfl

theorem reserve_none_of_drained (hlive : s.isFrozen = false) (h : s.partialBlock = none) :
    (reserve l).run s = .ok none s :=
  (reserve_eq l s).trans (reserveLoop_drained hlive h _)

theorem reserveAll_of_drained (hlive : s.isFrozen = false) (h : s.partialBlock = none)
    (layouts : List Layout) : (reserveAll layouts).run s = .ok [] s := by
  induction layouts with
  | nil => rfl
  | cons l layouts ih =>
      rw [reserveAll, Code.bind_ok (reserve_none_of_drained hlive h), Code.bind_ok ih]
      rfl

/-- What a call finds while the offset is 0. -/
theorem reserveLoop_cases (fuel : ℕ) : ∀ s : MemblockSystem, s.Fresh →
    (reserveLoop l fuel).run s = .ok r t →
    (r = none ∧ t.partialBlock = none ∧ t.isFrozen = false ∧ ∀ b ∈ s.blocks, b.size < l.size) ∨
    (r = some ⟨0⟩ ∧ ∃ b ∈ s.blocks, l.size ≤ b.size) := by
  induction fuel with
  | zero => intro s _ h; exact nomatch h
  | succ fuel ih =>
      intro s hs hrun
      cases hp : s.partialBlock with
      | none =>
          left
          cases (reserveLoop_drained hs.live hp fuel).symm.trans hrun
          refine ⟨rfl, hp, hs.live, ?_⟩
          rw [hs.blocks_eq_nil hp]
          simp
      | some b =>
          have hmem : ∀ c, c ∈ s.blocks ↔ c = b ∨ c ∈ s.freeBlocks := by simp [blocks, hp, eq_comm]
          rcases reserveLoop_fresh hs hp hrun with ⟨hlt, u, hu, hblocks, hrun'⟩ | ⟨hle, hr, -⟩
          · rcases ih u hu hrun' with ⟨hr, hpart, hlive, hall⟩ | ⟨hr, c, hc, hle⟩
            · refine .inl ⟨hr, hpart, hlive, fun c hc => ?_⟩
              rcases (hmem c).mp hc with rfl | hc
              · exact hlt
              · exact hall c ((hblocks c).mpr hc)
            · exact .inr ⟨hr, c, (hmem c).mpr (.inr ((hblocks c).mp hc)), hle⟩
          · exact .inr ⟨hr, b, (hmem b).mpr (.inl rfl), hle⟩

/-- An empty layout takes nothing. -/
theorem reserve_empty (hs : s.Fresh) (hl : l.size = 0) (hrun : (reserve l).run s = .ok r t) :
    t = s := by
  cases hp : s.partialBlock with
  | none =>
      cases (reserve_none_of_drained hs.live hp).symm.trans hrun
      rfl
  | some b =>
      rw [reserve_eq] at hrun
      rcases reserveLoop_fresh hs hp hrun with ⟨hlt, -⟩ | ⟨-, -, rfl⟩
      · omega
      · rw [hl, ← hs.offset]

/-- What a run finds from a fresh system. -/
theorem reserveAll_fresh (hs : s.Fresh) (layouts : List Layout) : ∀ {granted : List Granted}
    {t : MemblockSystem}, (reserveAll layouts).run s = .ok granted t →
    (Harmless s.blocks layouts ∧ ∀ g ∈ granted, g.layout.size = 0 ∧ g.addr = ⟨0⟩) ∨
    (¬ Harmless s.blocks layouts ∧ ∃ g ∈ granted, 0 < g.layout.size ∧ g.addr = ⟨0⟩) := by
  induction layouts with
  | nil =>
      intro granted t h
      cases h
      exact .inl ⟨trivial, by simp⟩
  | cons l layouts ih =>
      intro granted t h
      rw [reserveAll] at h
      obtain ⟨r, u, hres, h⟩ := Code.bind_eq_ok.mp h
      obtain ⟨rest, t', hrest, h⟩ := Code.bind_eq_ok.mp h
      rcases reserveLoop_cases _ s hs ((reserve_eq l s).symm.trans hres) with
        ⟨rfl, hpart, hlive, hall⟩ | ⟨rfl, b, hb, hle⟩
      · -- nothing is left for the layouts that follow
        cases (reserveAll_of_drained hlive hpart layouts).symm.trans hrest
        cases h
        exact .inl ⟨.inl hall, by simp⟩
      · have hsome : ¬ ∀ b ∈ s.blocks, b.size < l.size := fun hall => absurd (hall b hb) (by omega)
        cases h
        rcases Nat.eq_zero_or_pos l.size with h0 | hpos
        · rw [reserve_empty hs h0 hres] at hrest
          rcases ih hrest with ⟨hh, hg⟩ | ⟨hh, g, hg, hgood⟩
          · exact .inl ⟨.inr ⟨h0, hh⟩, by simpa [h0] using hg⟩
          · refine .inr ⟨?_, g, List.mem_cons_of_mem _ hg, hgood⟩
            rintro (hall | ⟨-, hh'⟩)
            · exact hsome hall
            · exact hh hh'
        · refine .inr ⟨?_, _, List.mem_cons_self, hpos, rfl⟩
          rintro (hall | ⟨h0, -⟩)
          · exact hsome hall
          · omega

theorem init_fresh {kernelEnd : Addr uma} {areas : List MemoryArea} {b b' : Building}
    (h : (init kernelEnd areas).run b = .ok m b') : m.Fresh := by
  unfold init at h
  obtain ⟨_, _, -, h⟩ := Code.bind_eq_ok.mp h
  obtain ⟨_, _, -, h⟩ := Code.bind_eq_ok.mp h
  obtain ⟨_, _, -, h⟩ := Code.bind_eq_ok.mp h
  obtain ⟨_, s, -, h⟩ := Code.bind_eq_ok.mp h
  rw [Code.get_bind] at h
  obtain ⟨_, _, -, h⟩ := Code.bind_eq_ok.mp h
  obtain ⟨_, _, -, h⟩ := Code.bind_eq_ok.mp h
  cases h
  refine ⟨rfl, rfl, fun hnone => ?_⟩
  change s.freeBlocks.dropLast = []
  rw [List.getLast?_eq_none_iff.mp hnone]
  rfl

/-! ## Whole runs -/

/-- A run of `reserve` calls from `init`, and `freeze`: what was handed out is safe
exactly when nothing but empty ranges was. -/
theorem boot_allocations_safe_iff {kernelEnd : Addr uma} (hk : 0 < kernelEnd.value)
    {areas : List MemoryArea} {layouts : List Layout} {granted : List Granted} {b b' : Building}
    (hinit : (init kernelEnd areas).run b = .ok m b')
    (hres : (reserveAll layouts).run m = .ok granted m₁)
    (_hfreeze : freeze.run m₁ = .ok () m₂) :
    Safe kernelEnd areas granted m₂ ↔ Harmless m.blocks layouts := by
  rcases reserveAll_fresh (init_fresh hinit) layouts hres with ⟨hh, hg⟩ | ⟨hh, g, hg, hpos, haddr⟩
  · have hempty : ∀ g ∈ granted, ∀ x, ¬ g.Contains x := fun g hmem x hx => by
      have h0 := (hg g hmem).1
      have h1 := hx.1
      have h2 := hx.2
      omega
    refine iff_of_true ⟨fun g hmem x hx => absurd hx (hempty g hmem x), fun g hmem => ?_, ?_,
      fun g hmem b _ x hx => absurd hx (hempty g hmem x)⟩ hh
    · rw [(hg g hmem).2]; exact Nat.dvd_zero _
    · exact List.pairwise_of_forall_mem_list fun g hmem h _ x hx => absurd hx (hempty g hmem x)
  · refine iff_of_false (fun hsafe => ?_) hh
    have hzero : g.Contains 0 := by
      rw [Granted.Contains, haddr]
      exact ⟨Nat.le_refl 0, by omega⟩
    have := (hsafe.inside g hg 0 hzero).1
    omega

/-- One area of two pages, above a kernel that ends at 2 MiB. -/
def twoPages : MemblockSystem where
  freeBlocks := []
  reservedBlocks := []
  partialBlock := some ⟨⟨0x200000⟩, 0x2000, .free⟩
  offset := 0
  managedRange := ⟨⟨0x200000⟩, 0x2000⟩
  isFrozen := false

theorem init_twoPages : ∃ b b', (init ⟨0x200000⟩ [⟨0x200000, 0x2000, .available⟩]).run b
    = .ok twoPages b' :=
  ⟨⟨[], ⟨0⟩, ⟨0⟩⟩, ⟨[⟨⟨0x200000⟩, 0x2000, .free⟩], ⟨0x200000⟩, ⟨0x202000⟩⟩, by decide +kernel⟩

theorem boot_allocations_safe_twoPages : ∃ m m₁ m₂ b b',
    (init ⟨0x200000⟩ [⟨0x200000, 0x2000, .available⟩]).run b = .ok m b' ∧
    (reserveAll [⟨0, 8, by decide, by decide⟩, ⟨0x4000, 8, by decide, by decide⟩]).run m
      = .ok [⟨⟨0, 8, by decide, by decide⟩, ⟨0⟩⟩] m₁ ∧
    freeze.run m₁ = .ok () m₂ ∧
    Safe ⟨0x200000⟩ [⟨0x200000, 0x2000, .available⟩] [⟨⟨0, 8, by decide, by decide⟩, ⟨0⟩⟩] m₂ := by
  obtain ⟨b, b', hinit⟩ := init_twoPages
  have hres : (reserveAll [⟨0, 8, by decide, by decide⟩, ⟨0x4000, 8, by decide, by decide⟩]).run
      twoPages = .ok [⟨⟨0, 8, by decide, by decide⟩, ⟨0⟩⟩]
        { twoPages with
          reservedBlocks := [⟨⟨0x200000⟩, 0x2000, .free⟩], partialBlock := none } := by
    decide +kernel
  exact ⟨_, _, _, b, b', hinit, hres, rfl,
    (boot_allocations_safe_iff (by decide) hinit hres rfl).mpr
      (.inr ⟨rfl, .inl (by simp [blocks, twoPages])⟩)⟩

/-- Sixteen bytes, handed out at address 0. -/
theorem boot_allocation_below_kernel : ∃ m m₁ m₂ b b' granted,
    (init ⟨0x200000⟩ [⟨0x200000, 0x2000, .available⟩]).run b = .ok m b' ∧
    (reserveAll [⟨16, 16, by decide, by decide⟩]).run m = .ok granted m₁ ∧
    freeze.run m₁ = .ok () m₂ ∧
    ¬ Safe ⟨0x200000⟩ [⟨0x200000, 0x2000, .available⟩] granted m₂ := by
  obtain ⟨b, b', hinit⟩ := init_twoPages
  have hres : (reserveAll [⟨16, 16, by decide, by decide⟩]).run twoPages
      = .ok [⟨⟨16, 16, by decide, by decide⟩, ⟨0⟩⟩] { twoPages with offset := 16 } := by
    decide +kernel
  have hfreeze : freeze.run { twoPages with offset := 16 } = .ok ()
      { twoPages with
        freeBlocks := [⟨⟨0x200010⟩, 0x1ff0, .free⟩]
        reservedBlocks := [⟨⟨0x200000⟩, 16, .reserved⟩]
        partialBlock := none
        offset := 16 } := by
    decide +kernel
  refine ⟨_, _, _, b, b', _, hinit, hres, hfreeze, fun hsafe => ?_⟩
  have h := (hsafe.inside _ (List.mem_singleton_self _) 0 ⟨Nat.le_refl 0, by decide⟩).1
  exact absurd h (by decide)

/-! ## A call that fails -/

section Failed

/-- A call would hand out memory for the layout. -/
def Serves (s : MemblockSystem) (l : Layout) : Prop :=
  ∃ addr t, (reserve l).run s = .ok (some addr) t

theorem reserveLoop_live {fuel : ℕ} (hrun : (reserveLoop l fuel).run s = .ok r t) :
    s.isFrozen = false := by
  cases fuel with
  | zero => cases hrun
  | succ fuel =>
      rw [reserveLoop, Code.get_bind] at hrun
      obtain ⟨_, _, hlive, -⟩ := Code.bind_eq_ok.mp hrun
      simpa using (Code.assert_eq_ok.mp hlive).1

/-- A call that fails has gone through all blocks. -/
theorem reserveLoop_eq_none (fuel : ℕ) : ∀ s : MemblockSystem,
    (reserveLoop l fuel).run s = .ok none t → t.partialBlock = none ∧ t.isFrozen = false := by
  induction fuel with
  | zero => intro s h; cases h
  | succ fuel ih =>
      intro s hrun
      have hlive := reserveLoop_live hrun
      cases hp : s.partialBlock with
      | none =>
          cases (reserveLoop_drained hlive hp fuel).symm.trans hrun
          exact ⟨hp, hlive⟩
      | some b =>
          rcases reserveLoop_eq_ok hp hrun with ⟨-, _, _, -, hrest⟩ | ⟨-, hr, -⟩
          · exact ih _ hrest
          · cases hr

theorem not_serves_of_drained (hlive : s.isFrozen = false) (h : s.partialBlock = none) :
    ¬ s.Serves l := by
  rintro ⟨addr, t, hrun⟩
  cases (reserve_none_of_drained hlive h).symm.trans hrun

/-- One round up to the comparison with the block's size. -/
theorem reserveLoop_run {b : Memblock} (hlive : s.isFrozen = false) (hb : s.partialBlock = some b)
    {base : ℕ} (hbase : Usize.roundUp s.offset l.align = base)
    (hword : base + l.size < Usize.modulus) (fuel : ℕ) :
    (reserveLoop l (fuel + 1)).run s = (if b.size < base + l.size then do
        let _ ← onReserved (Memblocks.insert b)
        let next ← onFree Memblocks.pop
        modify fun s : MemblockSystem => { s with partialBlock := next, offset := 0 }
        reserveLoop l fuel
      else return some (← Addr.new base)).run { s with offset := base + l.size } := by
  subst hbase
  have hlive' : (!s.isFrozen) = true := by rw [hlive]; rfl
  conv_lhs =>
    rw [reserveLoop, Code.get_bind, Code.bind_ok (Code.assert_of hlive' _ s), hb]
    simp only
    rw [Code.bind_ok (Usize.nextMultipleOf_of_lt (by omega) s),
      Code.bind_ok (EStateM.run_modify ..), Code.bind_ok (Usize.add_of_lt hword _),
      Code.bind_ok (EStateM.run_modify ..)]

/-- The layout that asks for nothing. -/
def emptyLayout : Layout := ⟨0, 1, by decide, by decide⟩

theorem add_emptyLayout_size (n : ℕ) : n + emptyLayout.size = n := rfl

/-- The empty layout fits at the offset, if the offset is in the block. -/
theorem reserveLoop_emptyLayout {b : Memblock} (hlive : s.isFrozen = false)
    (hb : s.partialBlock = some b) (hoff : s.offset < uma.stop) (hle : s.offset ≤ b.size)
    (fuel : ℕ) : (reserveLoop emptyLayout (fuel + 1)).run s = .ok (some ⟨s.offset⟩) s := by
  have hword : s.offset + emptyLayout.size < Usize.modulus := hoff.trans uma.stop_lt
  rw [reserveLoop_run hlive hb (Usize.roundUp_of_dvd (Nat.one_dvd _)) hword, add_emptyLayout_size,
    if_neg (not_lt.mpr hle), Code.bind_ok (Addr.new_of_mem ⟨Nat.zero_le _, hoff⟩ _)]
  rfl

/-- With the offset past the end of the block, the next block is tried. -/
theorem reserveLoop_emptyLayout_advance {b : Memblock} {done : Bool} {reservedBlocks : Memblocks}
    (hlive : s.isFrozen = false) (hb : s.partialBlock = some b) (hoff : s.offset < uma.stop)
    (hlt : b.size < s.offset)
    (hins : (Memblocks.insert b).run s.reservedBlocks = .ok done reservedBlocks) (fuel : ℕ) :
    (reserveLoop emptyLayout (fuel + 1)).run s
      = (reserveLoop emptyLayout fuel).run (s.advance reservedBlocks) := by
  have hword : s.offset + emptyLayout.size < Usize.modulus := hoff.trans uma.stop_lt
  rw [reserveLoop_run hlive hb (Usize.roundUp_of_dvd (Nat.one_dvd _)) hword, add_emptyLayout_size,
    if_pos hlt, onReserved, Code.bind_ok (Code.zoom_ok hins)]
  rfl

/-- What could be served before a call that fails: something, if the offset is in the partial
block or there is a free block. -/
theorem exists_serves_iff (hrun : (reserve l).run s = .ok none t) (hoff : s.offset < uma.stop) :
    (∃ l', s.Serves l') ↔
      ∃ b, s.partialBlock = some b ∧ (s.offset ≤ b.size ∨ s.freeBlocks ≠ []) := by
  rw [reserve_eq] at hrun
  have hlive := reserveLoop_live hrun
  constructor
  · rintro ⟨l', addr, u, hserves⟩
    rw [reserve_eq] at hserves
    cases hp : s.partialBlock with
    | none => cases (reserveLoop_drained hlive hp _).symm.trans hserves
    | some b =>
        refine ⟨b, rfl, ?_⟩
        by_contra hno
        obtain ⟨hlt, hfree⟩ := not_or.mp hno
        rw [ne_eq, not_not] at hfree
        rcases reserveLoop_eq_ok hp hserves with ⟨-, _, reservedBlocks, -, hrest⟩ | ⟨hle, -⟩
        · have hnone : (s.advance reservedBlocks).partialBlock = none := by
            rw [advance, hfree]; rfl
          cases (reserveLoop_drained (s := s.advance reservedBlocks) hlive hnone _).symm.trans hrest
        · have := Usize.le_roundUp s.offset l'.align
          omega
  · rintro ⟨b, hb, hor⟩
    refine ⟨emptyLayout, ?_⟩
    by_cases hle : s.offset ≤ b.size
    · exact ⟨_, _, (reserve_eq _ s).trans (reserveLoop_emptyLayout hlive hb hoff hle _)⟩
    · obtain ⟨c, hc⟩ : ∃ c, s.freeBlocks.getLast? = some c :=
        ⟨_, List.getLast?_eq_some_getLast (hor.resolve_left hle)⟩
      rcases reserveLoop_eq_ok hb hrun with ⟨-, done, reservedBlocks, hins, -⟩ | ⟨-, hr, -⟩
      · -- the next block starts with offset 0
        have hadvance := reserveLoop_emptyLayout_advance hlive hb hoff (not_le.mp hle) hins
          (s.freeBlocks.length + 1)
        exact ⟨_, _, (reserve_eq _ s).trans (hadvance.trans (reserveLoop_emptyLayout
          (s := s.advance reservedBlocks) hlive hc (by decide : 0 < uma.stop) (Nat.zero_le _) _))⟩
      · cases hr

/-- A call that fails keeps what could be served before exactly if nothing could: it leaves no
partial block. -/
theorem reserve_none_keeps_iff (hrun : (reserve l).run s = .ok none t) :
    ((∀ l', s.Serves l' → t.Serves l') ↔ ∀ l', ¬ s.Serves l') ∧
    (s.offset < uma.stop → ((∀ l', s.Serves l' → t.Serves l') ↔
      ∀ b, s.partialBlock = some b → b.size < s.offset ∧ s.freeBlocks = [])) := by
  have hdrained : ∀ l', ¬ t.Serves l' := by
    obtain ⟨hpart, hlive⟩ := reserveLoop_eq_none _ s ((reserve_eq l s).symm.trans hrun)
    exact fun l' => not_serves_of_drained hlive hpart
  have hkeeps : (∀ l', s.Serves l' → t.Serves l') ↔ ∀ l', ¬ s.Serves l' :=
    forall_congr' fun l' => ⟨fun h hs => hdrained l' (h hs), fun h hs => absurd hs h⟩
  refine ⟨hkeeps, fun hoff => ?_⟩
  rw [hkeeps, ← not_exists, exists_serves_iff hrun hoff, not_exists]
  refine forall_congr' fun b => ?_
  rw [not_and, not_or, not_le, ne_eq, not_not]

/-- After a call for four pages has failed on two, there is nothing to lose. -/
theorem reserve_none_keeps_drained : ∃ s t,
    (reserve ⟨0x4000, 8, by decide, by decide⟩).run twoPages = .ok none s ∧
      (reserve ⟨16, 8, by decide, by decide⟩).run s = .ok none t ∧
      ∀ l', s.Serves l' → t.Serves l' := by
  have hfirst : (reserve ⟨0x4000, 8, by decide, by decide⟩).run twoPages = .ok none { twoPages with
      reservedBlocks := [⟨⟨0x200000⟩, 0x2000, .free⟩], partialBlock := none } := by
    decide +kernel
  have hrun : (reserve ⟨16, 8, by decide, by decide⟩).run { twoPages with
      reservedBlocks := [⟨⟨0x200000⟩, 0x2000, .free⟩], partialBlock := none }
      = .ok none { twoPages with
        reservedBlocks := [⟨⟨0x200000⟩, 0x2000, .free⟩], partialBlock := none } := by
    decide +kernel
  refine ⟨_, _, hfirst, hrun, ((reserve_none_keeps_iff hrun).2 (by decide)).mpr fun b hb => ?_⟩
  cases hb

/-- Four pages are too much for two; after that, one page is too much as well. -/
theorem reserve_none_loses_twoPages : ∃ t,
    (reserve ⟨0x4000, 8, by decide, by decide⟩).run twoPages = .ok none t ∧
      twoPages.Serves ⟨0x1000, 8, by decide, by decide⟩ ∧
      ¬ t.Serves ⟨0x1000, 8, by decide, by decide⟩ := by
  refine ⟨{ twoPages with
    reservedBlocks := [⟨⟨0x200000⟩, 0x2000, .free⟩], partialBlock := none }, by decide +kernel,
    ⟨⟨0⟩, { twoPages with offset := 0x1000 }, by decide +kernel⟩, ?_⟩
  exact not_serves_of_drained rfl rfl

end Failed

end MemblockSystem

end Koe
