/-
# `KoeOs.Paging.Hardware` — the walk of the processor, and what `translate` makes of it

The processor reads the same tables as the kernel, by its own rules:

    entry           present, and                 then
    pml4            bit 7 clear                  a table
    pdpt, pd        bit 7 clear                  a table
    pdpt, pd        bit 7 set, bits 13.. clear   a page of 1 GiB, 2 MiB
    pt              —                            a page of 4 KiB

In the lines with a condition, the bits it names are reserved otherwise, and the access
faults.  Addresses are bits 12 to 51.  An access may write, or come from user mode, if
every entry on the way allows it.

**`translate` against the walk.**  The two go the same way and stop at the same entry.
`translate` then returns the address of the *page*; the processor adds the offset of the
virtual address in it.  So they agree exactly on the addresses that are not mapped, and on
the first address of each page (`translate_agrees_iff`).  Where the processor faults on a
reserved bit, `translate` goes on, and agrees with nothing.
-/
import KoeOs.Paging.Walk

namespace Koe

open TableTree

namespace Hardware

/-- What the processor makes of one entry. -/
inductive Decoded where
  | notPresent
  | reserved
  | table (base : ℕ)
  | page (base : ℕ)
  deriving DecidableEq, Repr

/-- Base-2 log of the bytes an entry at depth `d` stands for. -/
def order (d : ℕ) : ℕ := 39 - 9 * d

/-- The bits of the word from `low` to 51. -/
def base (low raw : ℕ) : ℕ := raw / 2 ^ low % 2 ^ (52 - low) * 2 ^ low

/-- A large page, if the reserved bits are clear. -/
def decodeLarge (d raw : ℕ) : Decoded :=
  if raw / 2 ^ 13 % 2 ^ (order d - 13) = 0 then .page (base (order d) raw) else .reserved

def decode (d raw : ℕ) : Decoded :=
  if raw.testBit 0 then
    match d with
    | 0 => if raw.testBit 7 then .reserved else .table (base 12 raw)
    | 1 | 2 => if raw.testBit 7 then decodeLarge d raw else .table (base 12 raw)
    | _ => .page (base 12 raw)
  else .notPresent

/-- How an access ends: at the page at `base`, of the size of depth `d`, with these rights. -/
inductive Outcome where
  | notPresent
  | reserved
  | page (d base : ℕ) (writable user : Bool)
  deriving DecidableEq, Repr

/-- The walk, from a table at depth `d` on. -/
def walkFrom (tables : Tables) (v : ℕ) : ℕ → ℕ → ℕ → Bool → Bool → Outcome
  | 0, _, _, _, _ => .reserved
  | n + 1, d, t, writable, user =>
      let raw := tables t (key v d)
      match decode d raw with
      | .notPresent => .notPresent
      | .reserved => .reserved
      | .page base => .page d base (writable && raw.testBit 1) (user && raw.testBit 2)
      | .table base =>
          walkFrom tables v n (d + 1) base (writable && raw.testBit 1) (user && raw.testBit 2)

/-- The 4-level walk from the word in `cr3`. -/
def walk (tables : Tables) (cr3 v : ℕ) : Outcome := walkFrom tables v 4 0 (base 12 cr3) true true

/-- The walk takes `v` to the physical address `p`. -/
def MapsTo (tables : Tables) (cr3 v p : ℕ) : Prop :=
  ∃ d base writable user, walk tables cr3 v = .page d base writable user ∧
    p = base + v % 2 ^ order d

/-- The tables and pages that can be reached lie inside physical memory. -/
structure InMemory (tables : Tables) (cr3 : ℕ) : Prop where
  root : base 12 cr3 < uma.stop
  targets : ∀ k d e, entryAt next tables (base 12 cr3) k d = some e → e.testBit 0 = true →
    base 12 e < uma.stop

/-! ## One entry, read by both -/

variable {tables : Tables} {cr3 v d raw : ℕ}

theorem field_eq_base (h : base 12 raw < uma.stop) : Entry.field raw = base 12 raw := by
  have huma : uma.stop = 2 ^ 46 := rfl
  simp only [base, Entry.field] at h ⊢
  omega

theorem largeField_eq_base {low : ℕ} (h : base 12 raw < uma.stop) (hlow : low = 21 ∨ low = 30)
    (hres : raw / 2 ^ 13 % 2 ^ (low - 13) = 0) : Entry.largeField raw = base low raw := by
  have huma : uma.stop = 2 ^ 46 := rfl
  rcases hlow with rfl | rfl <;> simp only [base, Entry.largeField] at h hres ⊢ <;> omega

/-- What the kernel makes of an entry, where the processor makes this of it. -/
def Decoded.Matches (d raw : ℕ) : Decoded → Prop
  | .notPresent => Entry.decode (.ofDepth d) raw = .none
  | .reserved => True
  | .table t => next d raw = some t
  | .page b => Entry.decode (.ofDepth d) raw = .page (.ofDepth d) ⟨b⟩

theorem decodeLarge_matches (hd : d = 1 ∨ d = 2) (hp : raw.testBit 0 = true)
    (hs : raw.testBit 7 = true) (h : base 12 raw < uma.stop) :
    (decodeLarge d raw).Matches d raw := by
  rw [decodeLarge]
  split
  · rename_i hres
    have hfield := largeField_eq_base h (by rcases hd with rfl | rfl <;> decide) hres
    rcases hd with rfl | rfl <;>
      simp [Decoded.Matches, Level.ofDepth, Entry.decode, hp, hs, hfield]
  · trivial

theorem decode_not_present (hp : raw.testBit 0 = false) : decode d raw = .notPresent := by
  unfold decode
  simp [hp]

theorem decode_matches (hd : d ≤ 3) (h : raw.testBit 0 = true → base 12 raw < uma.stop) :
    (decode d raw).Matches d raw := by
  cases hp : raw.testBit 0 with
  | false =>
      rw [decode_not_present hp]
      exact decode_eq_none.mpr hp
  | true =>
      have hfield := field_eq_base (h hp)
      match d with
      | 0 =>
          cases hs : raw.testBit 7 with
          | false =>
              simp [decode, Decoded.Matches, next, Level.ofDepth, Entry.decode, hp, hs, hfield]
          | true => simp [decode, Decoded.Matches, hp, hs]
      | 1 | 2 =>
          cases hs : raw.testBit 7 with
          | false =>
              simp [decode, Decoded.Matches, next, Level.ofDepth, Entry.decode, hp, hs, hfield]
          | true =>
              simp only [decode, hp, hs, if_true]
              exact decodeLarge_matches (by decide) hp hs (h hp)
      | 3 => simp [decode, Decoded.Matches, Level.ofDepth, Entry.decode, hp, hfield]

/-! ## Entries the kernel writes -/

section Written

variable {f : ℕ} {size : PageSize} {flags : List Flag} {addr : Addr uma}

theorem base_or {data a low : ℕ} (hlow : low = 12 ∨ low = 21 ∨ low = 30) (hdata : data < 2 ^ 9)
    (ha : 2 ^ low ∣ a) (hlt : a < uma.stop) : base low (data ||| a) = a := by
  have huma : uma.stop = 2 ^ 46 := rfl
  obtain ⟨q, rfl⟩ := ha
  rw [Nat.lor_comm, ← Nat.two_pow_add_eq_or_of_lt (by rcases hlow with rfl | rfl | rfl <;> omega),
    base]
  rcases hlow with rfl | rfl | rfl <;> omega

theorem decode_link (hd : d < 3) (hf : IsFrame f) : decode d (Entry.link f) = .table f := by
  have hbase : base 12 (Entry.link f) = f := base_or (.inl rfl) (by decide) hf.1 hf.2
  have hp : (Entry.link f).testBit 0 = true := (Entry.testBit_or_addr hf.1 (by decide)).trans rfl
  have hs : (Entry.link f).testBit 7 = false := (Entry.testBit_or_addr hf.1 (by decide)).trans rfl
  match d with
  | 0 | 1 | 2 => simp [decode, hp, hs, hbase]

theorem link_writable (hf : IsFrame f) : (Entry.link f).testBit 1 = true :=
  (Entry.testBit_or_addr hf.1 (by decide)).trans rfl

theorem link_user (hf : IsFrame f) : (Entry.link f).testBit 2 = false :=
  (Entry.testBit_or_addr hf.1 (by decide)).trans rfl

theorem reserved_or {data a low : ℕ} (hlow : low = 21 ∨ low = 30) (hdata : data < 2 ^ 9)
    (ha : 2 ^ low ∣ a) : (data ||| a) / 2 ^ 13 % 2 ^ (low - 13) = 0 := by
  obtain ⟨q, rfl⟩ := ha
  rw [Nat.lor_comm, ← Nat.two_pow_add_eq_or_of_lt (by rcases hlow with rfl | rfl <;> omega)]
  rcases hlow with rfl | rfl <;> omega

/-- A page is one for the processor, too. -/
theorem decode_pageWord (h : PageFlags size flags) (hal : size.align ∣ addr.value)
    (hlt : addr.value < uma.stop) :
    decode size.depth (Entry.pageWord size addr flags) = .page addr.value := by
  have hp := h.testBit_present hal
  obtain ⟨data, hdata, hword⟩ := h.pageWord_eq addr
  have hbits := Entry.flagBits_lt hdata
  cases size with
  | small =>
      have hbase := base_or (.inl rfl) hbits hal hlt
      rw [← hword] at hbase
      simp [decode, PageSize.depth, hp, hbase]
  | large =>
      have hs := h.testBit_pageSize hal (by decide)
      have hbase : base (order 2) _ = _ := base_or (.inr (.inl rfl)) hbits hal hlt
      have hres : _ / 2 ^ 13 % 2 ^ (order 2 - 13) = 0 := reserved_or (.inl rfl) hbits hal
      rw [← hword] at hbase hres
      simp only [decode, decodeLarge, PageSize.depth, hp, hs, hbase, hres, if_true]
  | huge =>
      have hs := h.testBit_pageSize hal (by decide)
      have hbase : base (order 1) _ = _ := base_or (.inr (.inr rfl)) hbits hal hlt
      have hres : _ / 2 ^ 13 % 2 ^ (order 1 - 13) = 0 := reserved_or (.inr rfl) hbits hal
      rw [← hword] at hbase hres
      simp only [decode, decodeLarge, PageSize.depth, hp, hs, hbase, hres, if_true]

theorem pageWord_writable (h : PageFlags size flags) (hal : size.align ∣ addr.value) :
    (Entry.pageWord size addr flags).testBit 1 = true ↔ .readWrite ∈ flags := by
  refine h.testBit_pageWord hal ?_
  cases size <;> cases flags.contains .pageSize <;> rfl

end Written

/-! ## The walk, taken by both -/

/-- Where the kernel's way of `v` ends, if the processor's walk ends like this. -/
def Outcome.Matches (tables : Tables) (root v : ℕ) : Outcome → Prop
  | .notPresent => ∃ d e, Stops next tables root (key v) d e ∧
      Entry.decode (.ofDepth d) e = .none
  | .reserved => True
  | .page d b _ _ => ∃ e, Stops next tables root (key v) d e ∧
      Entry.decode (.ofDepth d) e = .page (.ofDepth d) ⟨b⟩

theorem walkFrom_matches (h : InMemory tables cr3) {n t : ℕ} (hn : d + n = 4)
    (ht : tableAt next tables (base 12 cr3) (key v) d = some t) (writable user : Bool) :
    (walkFrom tables v n d t writable user).Matches tables (base 12 cr3) v := by
  induction n generalizing d t writable user with
  | zero => trivial
  | succ n ih =>
      have hentry := entryAt_of_table ht
      have hmatch := decode_matches (show d ≤ 3 by omega) (h.targets _ d _ hentry)
      simp only [walkFrom]
      split
      · rename_i hdec
        rw [hdec] at hmatch
        refine ⟨d, _, ⟨hentry, next_eq_none.mpr fun level addr htable => ?_⟩, hmatch⟩
        exact nomatch hmatch.symm.trans htable
      · trivial
      · rename_i b hdec
        rw [hdec] at hmatch
        refine ⟨_, ⟨hentry, next_eq_none.mpr fun level addr htable => ?_⟩, hmatch⟩
        exact nomatch hmatch.symm.trans htable
      · rename_i u hdec
        rw [hdec] at hmatch
        exact ih (by omega) ((tableAt_succ ht).trans hmatch) _ _

theorem walk_matches (h : InMemory tables cr3) (v : ℕ) :
    (walk tables cr3 v).Matches tables (base 12 cr3) v := walkFrom_matches h rfl rfl true true

/-- A walk that ends at a page takes the address to one physical address. -/
theorem mapsTo_iff_of_page {b : ℕ} {writable user : Bool}
    (h : walk tables cr3 v = .page d b writable user) (p : ℕ) :
    MapsTo tables cr3 v p ↔ p = b + v % 2 ^ order d := by
  rw [MapsTo, h]
  constructor
  · rintro ⟨_, _, _, _, hpage, rfl⟩
    cases hpage
    rfl
  · rintro rfl
    exact ⟨d, b, writable, user, rfl, rfl⟩

/-- `InMemory` says of the kernel's walk what it needs. -/
theorem InMemory.inside (h : InMemory tables cr3) (K : Set (ℕ → Fin tableLen)) :
    Inside tables (Entry.field cr3) K := by
  rw [field_eq_base h.root]
  intro k _ d e he hne
  have hp : e.testBit 0 = true := Bool.ne_false_iff.mp fun hp => hne (decode_eq_none.mpr hp)
  have hlt := h.targets k d e he hp
  rw [field_eq_base hlt]
  exact hlt

end Hardware

/-! ## `translate` -/

namespace MemoryMap

variable {π : Type} {S : AddrSpace}

/-- `translate` agrees with the processor on `vaddr`: it returns an address if and only if the walk
leads there, and nothing if and only if the walk finds an entry that is not present. -/
def Agrees (s : Machine π) (vaddr : Addr S) : Prop :=
  ∃ res, (translate vaddr).run s = .ok res s ∧
    (∀ p : Addr uma, res = some p ↔ Hardware.MapsTo s.tables s.cr3 vaddr.value p.value) ∧
    (res = none ↔ Hardware.walk s.tables s.cr3 vaddr.value = .notPresent)

/-- `translate` agrees with the processor exactly where an address is not mapped, or is the first
one of its page. -/
theorem translate_agrees_iff (s : Machine π) (vaddr : Addr S)
    (h : Hardware.InMemory s.tables s.cr3) :
    Agrees s vaddr ↔
      Hardware.walk s.tables s.cr3 vaddr.value = .notPresent ∨
      ∃ d base writable user,
        Hardware.walk s.tables s.cr3 vaddr.value = .page d base writable user ∧
          vaddr.value % 2 ^ Hardware.order d = 0 := by
  have hroot := Hardware.field_eq_base h.root
  have hcr3 : Entry.field s.cr3 < uma.stop := by rw [hroot]; exact h.root
  have hin := h.inside {key vaddr.value}
  have hmatch := Hardware.walk_matches h vaddr.value
  rw [← hroot] at hmatch
  obtain ⟨d, e, -, hstop⟩ := way_stops s.tables (Entry.field s.cr3) (key vaddr.value)
  have hrun := translate_run hcr3 hin hstop
  cases hwalk : Hardware.walk s.tables s.cr3 vaddr.value with
  | notPresent =>
      rw [hwalk] at hmatch
      obtain ⟨d', e', hstop', hnone⟩ := hmatch
      obtain ⟨rfl, rfl⟩ := hstop.unique hstop'
      rw [hnone] at hrun
      refine iff_of_true ⟨none, hrun, fun p => ?_, by simp [hwalk]⟩ (.inl rfl)
      simp [Hardware.MapsTo, hwalk]
  | reserved =>
      refine iff_of_false ?_ (by simp)
      rintro ⟨res, -, hsome, hnone⟩
      cases res with
      | none => exact nomatch hwalk.symm.trans (hnone.mp rfl)
      | some p =>
          obtain ⟨d, base, writable, user, hpage, -⟩ := (hsome p).mp rfl
          exact nomatch hwalk.symm.trans hpage
  | page d' base writable user =>
      rw [hwalk] at hmatch
      obtain ⟨e', hstop', hpage⟩ := hmatch
      obtain ⟨rfl, rfl⟩ := hstop.unique hstop'
      rw [hpage] at hrun
      have hmaps := Hardware.mapsTo_iff_of_page hwalk
      constructor
      · rintro ⟨res, hres, hsome, -⟩
        cases hrun.symm.trans hres
        have hbase := (hmaps base).mp ((hsome ⟨base⟩).mp rfl)
        exact .inr ⟨d, base, writable, user, rfl, by omega⟩
      · rintro (hbad | ⟨_, _, _, _, hw, hoff⟩)
        · exact nomatch hbad
        cases hw
        refine ⟨_, hrun, fun p => ?_, by simp [hwalk]⟩
        rw [hmaps, hoff, Nat.add_zero, Option.some.injEq, Addr.ext_iff, eq_comm]

/-- The first GiB of the window where physical memory is mapped, as at boot. -/
def firstGiB : Machine Unit where
  cr3 := 0x1000
  frames := []
  tables t i := if t = 0x1000 ∧ i = 273 then 0x2003 else if t = 0x2000 ∧ i = 0 then 0x183 else 0
  phys := ()
  freed := []

theorem firstGiB_inMemory : Hardware.InMemory firstGiB.tables firstGiB.cr3 where
  root := by decide
  targets k d e he _ := by
    obtain ⟨t, -, rfl⟩ := entryAt_eq_some.mp he
    simp only [firstGiB]
    split
    · decide
    · split <;> decide

theorem translate_agrees_firstGiB : Agrees firstGiB (⟨0xFFFF888000000000⟩ : Addr physicalRemap) :=
  (translate_agrees_iff _ _ firstGiB_inMemory).mpr
    (.inr ⟨1, 0, true, false, by decide, by decide⟩)

/-- The processor takes the address of physical 0x1234 in the window there, and `translate` takes
it to zero. -/
theorem translate_drops_offset :
    Hardware.MapsTo firstGiB.tables firstGiB.cr3 0xFFFF888000001234 0x1234 ∧
      (translate (⟨0xFFFF888000001234⟩ : Addr physicalRemap)).value firstGiB
        = some (some ⟨0⟩) :=
  ⟨⟨1, 0, true, false, by decide, by decide⟩, by decide⟩

end MemoryMap

end Koe
