/-
# `KoeOs.Paging.Rights` — the rights of a page, and of the way to it

What the processor allows is what every entry on the way allows.  `map` writes the flags
it is given to the last entry only; the entries above it, as far as it has to write them,
get `DEFAULT_PAGE_TABLE_FLAGS`, present and writable:

    right          last entry     entries above    together
    read/write     as asked       yes              as asked
    user           as asked       no               no

So a page that is mapped for user mode is not accessible from user mode
(`user_page_denied`).  All other pages have exactly the rights that were asked for, in every
lower half that `map` alone has built (`rights_exact_iff`).  A frame with something left in
it would be a table with ways that `map` has not built, so the frames have to be empty.

The calls may be for pages of both halves, or of the lower half alone: `K` is the set of keys
they may use.  The ways of `K` have to form a tree in memory at the start; those of an empty
half do (`EmptyLower.apart`, `EmptyLower.inside`).
-/
import KoeOs.Paging.Hardware
import KoeOs.Paging.Mapping

namespace Koe

open TableTree

/-! ## The walk along links -/

namespace Hardware

variable {tables : Tables} {v d : ℕ}

/-- The way of `k` goes through links only. -/
def Linked (tables : Tables) (root : ℕ) (k : ℕ → Fin tableLen) : Prop :=
  ∀ d e t, entryAt next tables root k d = some e → next d e = some t → IsFrame t ∧ e = Entry.link t

/-- How a walk ends at the entry `e`, if the entries above it allow this much. -/
def outcome (d e : ℕ) (writable user : Bool) : Outcome :=
  match decode d e with
  | .page base => .page d base (writable && e.testBit 1) (user && e.testBit 2)
  | .notPresent => .notPresent
  | _ => .reserved

/-- Links allow everything but user mode: the walk ends with the rights of the last entry, and
without user mode if there was a link. -/
theorem walkFrom_of_linked {root n t D e : ℕ} (hlinked : Linked tables root (key v))
    (hstop : Stops next tables root (key v) D e) (hleaf : ∀ base, decode D e ≠ .table base)
    (hn : d + n = 4) (ht : tableAt next tables root (key v) d = some t) (writable user : Bool) :
    walkFrom tables v n d t writable user = outcome D e writable (user && decide (d = D)) := by
  induction n generalizing d t writable user with
  | zero => exact absurd (depth_le ht) (by omega)
  | succ n ih =>
      have hentry := entryAt_of_table ht
      cases hnext : next d (tables t (key v d)) with
      | none =>
          obtain ⟨rfl, rfl⟩ := hstop.unique ⟨hentry, hnext⟩
          simp only [walkFrom, outcome, decide_true, Bool.and_true]
          cases hdec : decode D (tables t (key v D)) with
          | table base => exact absurd hdec (hleaf base)
          | notPresent | reserved | page => rfl
      | some u =>
          obtain ⟨hframe, hlink⟩ := hlinked d _ u hentry hnext
          have hu := (tableAt_succ ht).trans hnext
          have hlt : d < D := Nat.lt_of_not_le fun hle => by
            rcases Nat.lt_or_eq_of_le hle with hlt | rfl
            · cases (hstop.tableAt_none hlt).symm.trans ht
            · cases (hstop.tableAt_none (Nat.lt_succ_self D)).symm.trans hu
          simp only [walkFrom, hlink, decode_link (next_eq_some hnext).1 hframe,
            link_writable hframe, link_user hframe, Bool.and_true, Bool.and_false]
          rw [ih (by omega) hu, Bool.false_and, decide_eq_false (Nat.ne_of_lt hlt), Bool.and_false]

end Hardware

/-! ## Runs of `map` -/

namespace MapCall

/-- The call maps a page of the memory to a page of the address space, with flags for a page. -/
structure Valid (c : MapCall) : Prop where
  canonical : Canonical c.vpage.base.value
  size : c.vpage.pageSize = c.ppage.pageSize
  inside : c.ppage.base.value < uma.stop
  flags : PageFlags c.vpage.pageSize c.flags

/-- The last call for a page with the address in it; the calls stand with the last one first. -/
def installer (calls : List MapCall) (v : ℕ) : Option MapCall :=
  calls.find? fun c => decide (c.vpage.Contains v)

theorem installer_of_contains {c : MapCall} {calls : List MapCall} {v : ℕ}
    (h : c.vpage.Contains v) : installer (c :: calls) v = some c :=
  List.find?_cons_of_pos (decide_eq_true h)

theorem installer_of_not_contains {c : MapCall} {calls : List MapCall} {v : ℕ}
    (h : ¬ c.vpage.Contains v) : installer (c :: calls) v = installer calls v :=
  List.find?_cons_of_neg (by simpa using h)

end MapCall

/-- From `s₀`, a run of valid calls, the last one first, has led to `s`.  The allocators hand out
frames that are in no table, and the frames are empty. -/
inductive Built {π : Type} (K : Set (ℕ → Fin tableLen)) (s₀ : Machine π) :
    List MapCall → Machine π → Prop
  | start : Built K s₀ [] s₀
  | map {calls : List MapCall} {s s' : Machine π} (c : MapCall) (alloc : FrameAlloc π)
      (h : Built K s₀ calls s) (hc : c.Valid) (hk : key c.vpage.base.value ∈ K)
      (hfresh : HandsFresh alloc s.phys (missing next s.tables (Entry.field s.cr3)
        (key c.vpage.base.value) c.vpage.pageSize.depth) s.tables (Entry.field s.cr3) K)
      (hzero : HandsZero alloc s.phys (missing next s.tables (Entry.field s.cr3)
        (key c.vpage.base.value) c.vpage.pageSize.depth) s.tables)
      (hrun : (MemoryMap.map alloc c.vpage c.ppage c.flags).run s = .ok (some ()) s') :
      Built K s₀ (c :: calls) s'

/-- The lower half is empty: none of its entries is present. -/
def EmptyLower (tables : Tables) (root : ℕ) : Prop :=
  ∀ i : Fin tableLen, i.val < 256 → (tables root i).testBit 0 = false

/-- The way of `v` ends at nothing, or at the page that the last call for `v` has mapped. -/
def EndsAtInstaller (tables : Tables) (root : ℕ) (calls : List MapCall) (v : ℕ) : Prop :=
  ∀ d e, Stops next tables root (key v) d e → Entry.decode (.ofDepth d) e = .none ∨
    ∃ c, MapCall.installer calls v = some c ∧ c.Valid ∧ d = c.vpage.pageSize.depth ∧
      e = Entry.pageWord c.vpage.pageSize c.ppage.base c.flags

/-- What a run of calls keeps. -/
structure BuiltInv {π : Type} (K : Set (ℕ → Fin tableLen)) (cr3 : ℕ) (calls : List MapCall)
    (s : Machine π) : Prop where
  cr3_eq : s.cr3 = cr3
  apart : Apart next s.tables (Entry.field cr3) K
  inside : Inside s.tables (Entry.field cr3) K
  linked : ∀ v < 2 ^ 47, Hardware.Linked s.tables (Entry.field cr3) (key v)
  ends : ∀ v < 2 ^ 47, EndsAtInstaller s.tables (Entry.field cr3) calls v

namespace EmptyLower

variable {tables : Tables} {root : ℕ} (h : EmptyLower tables root) {k : ℕ → Fin tableLen}
  (hk : (k 0).val < 256)
include h hk

theorem decode : Entry.decode (.ofDepth 0) (tables root (k 0)) = .none :=
  decode_eq_none.mpr (h (k 0) hk)

theorem stops : Stops next tables root k 0 (tables root (k 0)) :=
  ⟨rfl, next_eq_none.mpr fun _ _ hdec => nomatch (h.decode hk).symm.trans hdec⟩

end EmptyLower

namespace BuiltInv

variable {π : Type} {K : Set (ℕ → Fin tableLen)} {cr3 : ℕ} {calls : List MapCall}
  {s s' : Machine π}

theorem start {s₀ : Machine π} (hempty : EmptyLower s₀.tables (Entry.field s₀.cr3))
    (hapart : Apart next s₀.tables (Entry.field s₀.cr3) K)
    (hin : Inside s₀.tables (Entry.field s₀.cr3) K) : BuiltInv K s₀.cr3 [] s₀ where
  cr3_eq := rfl
  apart := hapart
  inside := hin
  linked v hv d e t he hnext := by
    have hstop := hempty.stops (key_lower hv)
    have ht : tableAt next s₀.tables (Entry.field s₀.cr3) (key v) (d + 1) = some t := by
      obtain ⟨u, hu, rfl⟩ := entryAt_eq_some.mp he
      exact (tableAt_succ hu).trans hnext
    exact nomatch (hstop.tableAt_none (Nat.succ_pos d)).symm.trans ht
  ends v hv d e hs := by
    obtain ⟨rfl, rfl⟩ := hs.unique (hempty.stops (key_lower hv))
    exact .inl (hempty.decode (key_lower hv))

/-- One call. -/
theorem map (h : BuiltInv K cr3 calls s) (hcr3 : Entry.field cr3 < uma.stop)
    (hK : ∀ v < 2 ^ 47, key v ∈ K) {c : MapCall} {alloc : FrameAlloc π} (hc : c.Valid)
    (hk : key c.vpage.base.value ∈ K)
    (hblank : HandsBlank alloc s.phys (missing next s.tables (Entry.field s.cr3)
      (key c.vpage.base.value) c.vpage.pageSize.depth) s.tables (Entry.field s.cr3) K)
    (hrun : (MemoryMap.map alloc c.vpage c.ppage c.flags).run s = .ok (some ()) s') :
    BuiltInv K cr3 (c :: calls) s' := by
  obtain rfl := h.cr3_eq
  have hal : c.vpage.pageSize.align ∣ c.ppage.base.value := hc.size ▸ c.ppage.aligned
  rcases MemoryMap.map_cases hc.size (fun _ => hc.flags.pageSize.mpr) hk hcr3 h.apart h.inside
    hblank with ⟨fs, tables, t, raw, s₁, hmaps, hrun₁⟩ | ⟨-, q, s₁, hrun₁⟩
  swap
  · exact nomatch hrun.symm.trans hrun₁
  cases hrun.symm.trans hrun₁
  obtain rfl := hmaps.raw_eq hc.flags
  have hleaf := hc.flags.next_pageWord hal hc.inside
  have hframes := hmaps.isFrame hblank
  refine ⟨hmaps.cr3_eq, ?_, ?_, ?_, ?_⟩
  · rw [hmaps.tables_eq]
    exact hmaps.growth.apart.set_leaf hk hmaps.table hleaf
  · rw [← hmaps.cr3_eq]
    exact hmaps.inside_page hk hc.size hc.inside hc.flags h.inside hblank
  · intro v hv d e u he hnext
    rw [hmaps.tables_eq] at he
    rcases hmaps.growth.entries_put hk hmaps.table hleaf (hK v hv) he with
      he | rfl | ⟨f, hf, rfl⟩ | ⟨rfl, rfl⟩
    · exact h.linked v hv d e u he hnext
    · exact nomatch (next_zero d).symm.trans hnext
    · cases (next_link (next_eq_some hnext).1 (hframes f hf)).symm.trans hnext
      exact ⟨hframes _ hf, rfl⟩
    · exact nomatch hleaf.symm.trans hnext
  · intro v hv d e hs
    by_cases hmem : c.vpage.Contains v
    · obtain ⟨rfl, rfl⟩ := hs.unique
        (hmaps.stops_of_contains hk hc.canonical (.inl hv) (hK v hv) hleaf hmem)
      exact .inr ⟨c, MapCall.installer_of_contains hmem, hc, rfl, rfl⟩
    · obtain ⟨d₀, e₀, -, hold⟩ := way_stops s.tables (Entry.field s.cr3) (key v)
      rw [MapCall.installer_of_not_contains hmem]
      rcases hmaps.stops_of_not_contains hk hc.canonical (.inl hv) (hK v hv) hmem hold with
        hsame | ⟨-, -, d', hzero⟩
      · obtain ⟨rfl, rfl⟩ := hs.unique hsame
        exact h.ends v hv _ _ hold
      · obtain ⟨rfl, rfl⟩ := hs.unique hzero
        exact .inl (decode_zero _)

end BuiltInv

namespace Built

variable {π : Type} {K : Set (ℕ → Fin tableLen)} {s₀ s : Machine π} {calls : List MapCall}

theorem inv (hcr3 : Entry.field s₀.cr3 < uma.stop) (hK : ∀ v < 2 ^ 47, key v ∈ K)
    (hempty : EmptyLower s₀.tables (Entry.field s₀.cr3))
    (hapart : Apart next s₀.tables (Entry.field s₀.cr3) K)
    (hin : Inside s₀.tables (Entry.field s₀.cr3) K) (h : Built K s₀ calls s) :
    BuiltInv K s₀.cr3 calls s := by
  induction h with
  | start => exact .start hempty hapart hin
  | map c alloc _ hc hk hfresh hzero hrun ih =>
      exact ih.map hcr3 hK hc hk (hfresh.blank hzero) hrun

/-- In a lower half that `map` has built, a page is as the last call for it asked, and writable
if it asked for that; user mode has no access.  So the rights are the ones asked for exactly if
user mode was not among them. -/
theorem rights_exact_iff (hroot : Hardware.base 12 s₀.cr3 < uma.stop)
    (hK : ∀ v < 2 ^ 47, key v ∈ K)
    (hempty : EmptyLower s₀.tables (Hardware.base 12 s₀.cr3))
    (hapart : Apart next s₀.tables (Hardware.base 12 s₀.cr3) K)
    (hin : Inside s₀.tables (Hardware.base 12 s₀.cr3) K) (h : Built K s₀ calls s)
    {v d base : ℕ} {writable user : Bool} (hv : v < 2 ^ 47)
    (hwalk : Hardware.walk s.tables s.cr3 v = .page d base writable user) :
    ∃ c, MapCall.installer calls v = some c ∧ d = c.vpage.pageSize.depth ∧
      base = c.ppage.base.value ∧
      (((writable = true ↔ .readWrite ∈ c.flags) ∧ (user = true ↔ .userSuper ∈ c.flags)) ↔
        .userSuper ∉ c.flags) := by
  have hfield := Hardware.field_eq_base hroot
  rw [← hfield] at hempty hapart hin
  have hinv := h.inv (by rw [hfield]; exact hroot) hK hempty hapart hin
  obtain ⟨D, e, -, hstop⟩ := way_stops s.tables (Entry.field s₀.cr3) (key v)
  have hend : ∀ n, (∀ b, Hardware.decode D e ≠ .table b) → 0 + n = 4 →
      Hardware.walkFrom s.tables v n 0 (Entry.field s₀.cr3) true true
        = Hardware.outcome D e true (decide (0 = D)) := fun n hleaf hn =>
    Hardware.walkFrom_of_linked (hinv.linked v hv) hstop hleaf hn rfl true true
  rw [Hardware.walk, hinv.cr3_eq, ← hfield] at hwalk
  rcases hinv.ends v hv D e hstop with hnone | ⟨c, hc, hvalid, rfl, rfl⟩
  · have hdec := Hardware.decode_not_present (d := D) (decode_eq_none.mp hnone)
    rw [hend 4 (by simp [hdec]) rfl, Hardware.outcome, hdec] at hwalk
    exact nomatch hwalk
  · have hal : c.vpage.pageSize.align ∣ c.ppage.base.value := hvalid.size ▸ c.ppage.aligned
    have hdec := Hardware.decode_pageWord hvalid.flags hal hvalid.inside
    have hdeep : decide (0 = c.vpage.pageSize.depth) = false := by
      cases c.vpage.pageSize <;> rfl
    rw [hend 4 (by simp [hdec]) rfl, Hardware.outcome, hdec, hdeep] at hwalk
    cases hwalk
    refine ⟨c, hc, rfl, rfl, ?_⟩
    rw [Bool.true_and, Hardware.pageWord_writable hvalid.flags hal]
    simp

end Built

/-! ## The lower half alone -/

namespace EmptyLower

variable {tables : Tables} {root : ℕ}

theorem tableAt_eq (h : EmptyLower tables root) {k : ℕ → Fin tableLen} (hk : k ∈ lowerKeys)
    {d t : ℕ} (ht : tableAt next tables root k d = some t) : d = 0 := by
  cases d with
  | zero => rfl
  | succ d => exact nomatch ((h.stops hk).tableAt_none (Nat.succ_pos d)).symm.trans ht

/-- An empty half is a tree: it has no tables. -/
theorem apart (h : EmptyLower tables root) : Apart next tables root lowerKeys := by
  intro k hk k' hk' d d' t ht ht'
  obtain rfl := h.tableAt_eq hk ht
  obtain rfl := h.tableAt_eq hk' ht'
  exact ⟨rfl, fun j hj => absurd hj (Nat.not_lt_zero j)⟩

/-- It has no entries that refer to anything, either. -/
theorem inside (h : EmptyLower tables root) : Inside tables root lowerKeys := by
  intro k hk d e he
  obtain ⟨t, ht, rfl⟩ := entryAt_eq_some.mp he
  obtain rfl := h.tableAt_eq hk ht
  cases ht
  exact fun hne => absurd (h.decode hk) hne

end EmptyLower

/-- The address space of the lower half. -/
def lowerHalf : AddrSpace := ⟨0, 2 ^ 47, by decide⟩

/-- A call for the small page at 0x400000. -/
def lowerPage (flags : List Flag) : MapCall :=
  ⟨lowerHalf, ⟨⟨0x400000⟩, .small, by decide⟩, ⟨⟨0x5000⟩, .small, by decide⟩, flags⟩

/-- The empty map after the call. -/
def lowerPageMap (flags : List Flag) : Machine (List ℕ) :=
  (MemoryMap.map stackAlloc (lowerPage flags).vpage (lowerPage flags).ppage flags).final emptyMap

theorem emptyMap_built {flags : List Flag} (hc : (lowerPage flags).Valid)
    (hrun : (MemoryMap.map stackAlloc (lowerPage flags).vpage (lowerPage flags).ppage flags).value
      emptyMap = some (some ())) :
    Built lowerKeys emptyMap [lowerPage flags] (lowerPageMap flags) := by
  refine .map (lowerPage flags) stackAlloc .start hc (key_lower (v := 0x400000) (by decide)) ?_ ?_
    (Code.run_of_value hrun)
  · intro fs p' hhands hlen
    obtain ⟨hnodup, hfs⟩ := emptyMap_hands _ fs p' hhands hlen
    exact ⟨hnodup, fun f hf => ⟨(hfs f hf).1, fun k _ => (hfs f hf).2.off k trivial⟩⟩
  · exact fun _ _ _ _ _ _ _ => rfl

namespace Built

theorem rights_exact_lowerPage : ∃ c,
    MapCall.installer [lowerPage [.present, .readWrite]] 0x400123 = some c ∧
      3 = c.vpage.pageSize.depth ∧ 0x5000 = c.ppage.base.value ∧
      (((true = true ↔ .readWrite ∈ c.flags) ∧ (false = true ↔ .userSuper ∈ c.flags)) ↔
        .userSuper ∉ c.flags) := by
  have hempty : EmptyLower emptyMap.tables (Hardware.base 12 emptyMap.cr3) :=
    fun _ _ => Nat.zero_testBit 0
  have hbuilt : Built lowerKeys emptyMap [lowerPage [.present, .readWrite]]
      (lowerPageMap [.present, .readWrite]) :=
    emptyMap_built ⟨.inl (by decide), rfl, by decide, by decide, by decide⟩ (by decide +kernel)
  exact rights_exact_iff (by decide) (fun v hv => key_lower hv) hempty hempty.apart hempty.inside
    hbuilt (v := 0x400123) (by decide) (by decide +kernel)

/-- A page that is mapped for user mode, and the processor denies user mode. -/
theorem user_page_denied :
    (Built lowerKeys emptyMap [lowerPage [.present, .readWrite, .userSuper]]
      (lowerPageMap [.present, .readWrite, .userSuper])) ∧
    Hardware.walk (lowerPageMap [.present, .readWrite, .userSuper]).tables
      (lowerPageMap [.present, .readWrite, .userSuper]).cr3 0x400123
      = .page 3 0x5000 true false :=
  ⟨emptyMap_built ⟨.inl (by decide), rfl, by decide, by decide, by decide⟩ (by decide +kernel),
    by decide +kernel⟩

end Built

end Koe
