/-
# `KoeOs.Lib.TableTree` — trees of tables in a store

A radix tree kept in memory.  A table is a frame of entries, an entry may lead to a
table of the next level, and a key has an index for each level:

    tableAt k d    the table at depth `d` on the way of the key `k`, if the way gets there
    entryAt k d    the entry of `k` in that table
    Stops k d e    the way of `k` ends at depth `d`, at the entry `e`

The store is flat, so nothing but the entries says that the tables form a tree.
`Apart K` does: two ways of keys of `K` that meet in a table have been the same way so
far.  Under it a write is local.  An entry is on the way of just the keys that agree
with its own (`Agree`), so a write to it changes their ways and no other.

There are two writes.  One puts an entry that leads nowhere; the other hangs an empty
table below an entry that led nowhere.  `Growth k d fs m` is the store after as many
writes of the second kind as make the way of `k` reach depth `d`, with `fs` the tables
that were hung in.

`below` and `under` list the tables of a part of the tree, each after those below it, as a
program meets them that takes the tree down.
-/
import Mathlib.Data.Set.Defs
import Mathlib.Data.List.Nodup
import Mathlib.Logic.Function.Basic

namespace Koe.TableTree

variable {F I E : Type}

/-- Two keys have the same index at the first `d` levels. -/
def Agree (d : ℕ) (k k' : ℕ → I) : Prop := ∀ j < d, k j = k' j

namespace Agree

variable {d d' : ℕ} {k k' k'' : ℕ → I}

theorem symm (h : Agree d k k') : Agree d k' k := fun j hj => (h j hj).symm

theorem trans (h : Agree d k k') (h' : Agree d k' k'') : Agree d k k'' :=
  fun j hj => (h j hj).trans (h' j hj)

theorem mono (h : Agree d k k') (hle : d' ≤ d) : Agree d' k k' :=
  fun j hj => h j (Nat.lt_of_lt_of_le hj hle)

theorem succ (h : Agree d k k') (hd : k d = k' d) : Agree (d + 1) k k' := fun j hj => by
  rcases Nat.lt_succ_iff_lt_or_eq.mp hj with hlt | rfl
  · exact h j hlt
  · exact hd

end Agree

/-! ## The way of a key -/

section Way

variable (next : ℕ → E → Option F) (m : F → I → E) (root : F) (k : ℕ → I)

/-- The table at depth `d` on the way of `k`. -/
def tableAt : ℕ → Option F
  | 0 => some root
  | d + 1 => (tableAt d).bind fun t => next d (m t (k d))

/-- The entry of `k` in the table at depth `d`. -/
def entryAt (d : ℕ) : Option E := (tableAt next m root k d).map fun t => m t (k d)

/-- The way of `k` ends at depth `d`, at the entry `e`. -/
def Stops (d : ℕ) (e : E) : Prop := entryAt next m root k d = some e ∧ next d e = none

/-- How many tables the way of `k` lacks to reach depth `d`. -/
def missing : ℕ → ℕ
  | 0 => 0
  | d + 1 => missing d + if (tableAt next m root k (d + 1)).isNone then 1 else 0

/-- Ways of keys of `K` that meet in a table have been the same so far. -/
def Apart (K : Set (ℕ → I)) : Prop :=
  ∀ ⦃k⦄, k ∈ K → ∀ ⦃k'⦄, k' ∈ K → ∀ ⦃d d' t⦄, tableAt next m root k d = some t →
    tableAt next m root k' d' = some t → d = d' ∧ Agree d k k'

end Way

section WayLemmas

variable {next : ℕ → E → Option F} {m m' : F → I → E} {root : F} {k k' : ℕ → I} {d d' : ℕ}
  {t : F} {e e' : E} {K : Set (ℕ → I)}

theorem tableAt_succ (ht : tableAt next m root k d = some t) :
    tableAt next m root k (d + 1) = next d (m t (k d)) := by
  rw [tableAt, ht]; rfl

theorem tableAt_of_succ (h : tableAt next m root k (d + 1) = some t) :
    ∃ u, tableAt next m root k d = some u ∧ next d (m u (k d)) = some t :=
  Option.bind_eq_some_iff.mp h

theorem entryAt_of_table (ht : tableAt next m root k d = some t) :
    entryAt next m root k d = some (m t (k d)) := by
  rw [entryAt, ht]; rfl

theorem entryAt_eq_some :
    entryAt next m root k d = some e ↔ ∃ t, tableAt next m root k d = some t ∧ m t (k d) = e :=
  Option.map_eq_some_iff

theorem tableAt_key (h : Agree d k k') :
    tableAt next m root k d = tableAt next m root k' d := by
  induction d with
  | zero => rfl
  | succ d ih =>
      rw [tableAt, tableAt, ih (h.mono (Nat.le_succ d)), h d (Nat.lt_succ_self d)]

theorem entryAt_key (h : Agree (d + 1) k k') :
    entryAt next m root k d = entryAt next m root k' d := by
  rw [entryAt, entryAt, tableAt_key (h.mono (Nat.le_succ d)), h d (Nat.lt_succ_self d)]

/-- A way that has ended does not go on. -/
theorem tableAt_none_of_le (h : tableAt next m root k d = none) (hle : d ≤ d') :
    tableAt next m root k d' = none := by
  induction hle with
  | refl => exact h
  | step _ ih => rw [tableAt, ih]; rfl

theorem Stops.tableAt_none (h : Stops next m root k d e) (hlt : d < d') :
    tableAt next m root k d' = none := by
  obtain ⟨t, ht, rfl⟩ := entryAt_eq_some.mp h.1
  refine tableAt_none_of_le ?_ hlt
  rw [tableAt_succ ht, h.2]

theorem Stops.unique (h : Stops next m root k d e) (h' : Stops next m root k d' e') :
    d = d' ∧ e = e' := by
  obtain ⟨t, ht, -⟩ := entryAt_eq_some.mp h.1
  obtain ⟨t', ht', -⟩ := entryAt_eq_some.mp h'.1
  rcases Nat.lt_trichotomy d d' with hlt | rfl | hgt
  · exact nomatch (h.tableAt_none hlt).symm.trans ht'
  · exact ⟨rfl, Option.some.inj (h.1.symm.trans h'.1)⟩
  · exact nomatch (h'.tableAt_none hgt).symm.trans ht

theorem Stops.key (h : Stops next m root k d e) (hk : Agree (d + 1) k k') :
    Stops next m root k' d e := ⟨(entryAt_key hk).symm.trans h.1, h.2⟩

theorem missing_mono (hle : d ≤ d') : missing next m root k d ≤ missing next m root k d' := by
  induction hle with
  | refl => exact Nat.le_refl _
  | step _ ih => exact Nat.le_trans ih (Nat.le_add_right _ _)

theorem missing_le : missing next m root k d ≤ d := by
  induction d with
  | zero => exact Nat.le_refl 0
  | succ d ih =>
      rw [missing]
      split <;> omega

theorem missing_succ (h : tableAt next m root k (d + 1) = none) :
    missing next m root k (d + 1) = missing next m root k d + 1 := by
  rw [missing, h]; rfl

/-- Where no entry leads on, the way ends at the latest. -/
theorem exists_stops (n : ℕ) (hn : ∀ e, next n e = none) :
    ∃ d e, d ≤ n ∧ Stops next m root k d e := by
  suffices h : ∀ j d, d + j = n → ∀ t, tableAt next m root k d = some t →
      ∃ d e, d ≤ n ∧ Stops next m root k d e from h n 0 (Nat.zero_add n) root rfl
  intro j
  induction j with
  | zero =>
      intro d hd t ht
      subst hd
      exact ⟨d, _, Nat.le_refl _, entryAt_of_table ht, hn _⟩
  | succ j ih =>
      intro d hd t ht
      cases hnext : next d (m t (k d)) with
      | none => exact ⟨d, _, by omega, entryAt_of_table ht, hnext⟩
      | some u => exact ih (d + 1) (by omega) u ((tableAt_succ ht).trans hnext)

/-- A way only depends on where the entries it reads lead. -/
theorem tableAt_congr_next (h : ∀ j < d, ∀ t, tableAt next m root k j = some t →
    next j (m' t (k j)) = next j (m t (k j))) :
    tableAt next m' root k d = tableAt next m root k d := by
  induction d with
  | zero => rfl
  | succ d ih =>
      have hd := ih fun j hj => h j (Nat.lt_succ_of_lt hj)
      cases ht : tableAt next m root k d with
      | none => rw [tableAt, tableAt, hd, ht]; rfl
      | some t =>
          rw [tableAt_succ (hd.trans ht), tableAt_succ ht, h d (Nat.lt_succ_self d) t ht]

/-- The frame rule: a way only depends on the entries it reads. -/
theorem tableAt_congr (h : ∀ j < d, ∀ t, tableAt next m root k j = some t →
    m' t (k j) = m t (k j)) : tableAt next m' root k d = tableAt next m root k d :=
  tableAt_congr_next fun j hj t ht => by rw [h j hj t ht]

theorem missing_congr (h : ∀ d, tableAt next m' root k d = tableAt next m root k d) :
    missing next m' root k d = missing next m root k d := by
  induction d with
  | zero => rfl
  | succ d ih => rw [missing, missing, ih, h]

/-- Below its first entry, the way does not depend on the root. -/
theorem tableAt_root {root' : F} (h : m root (k 0) = m root' (k 0)) :
    tableAt next m root k (d + 1) = tableAt next m root' k (d + 1) := by
  induction d with
  | zero => rw [tableAt_succ rfl, tableAt_succ rfl, h]
  | succ d ih => rw [tableAt, ih]; rfl

theorem entryAt_root {root' : F} (h : m root (k 0) = m root' (k 0)) :
    entryAt next m root k d = entryAt next m root' k d := by
  cases d with
  | zero => exact congrArg some h
  | succ d => rw [entryAt, entryAt, tableAt_root h]

/-- The frame rule, by tables. -/
theorem tableAt_frame (h : ∀ d t, tableAt next m root k d = some t → m' t = m t) :
    tableAt next m' root k d = tableAt next m root k d :=
  tableAt_congr fun j _ t ht => by rw [h j t ht]

theorem entryAt_frame (h : ∀ d t, tableAt next m root k d = some t → m' t = m t) :
    entryAt next m' root k d = entryAt next m root k d := by
  rw [entryAt, entryAt, tableAt_frame h]
  cases ht : tableAt next m root k d with
  | none => rfl
  | some t => rw [Option.map_some, Option.map_some, h d t ht]

/-- The way below the same first entry, from another root in another store. -/
theorem tableAt_transfer {root' : F} (h : m' root' (k 0) = m root (k 0))
    (hsame : ∀ d t, tableAt next m root k (d + 1) = some t → m' t = m t) :
    tableAt next m' root' k (d + 1) = tableAt next m root k (d + 1) := by
  induction d with
  | zero => rw [tableAt_succ rfl, tableAt_succ rfl, h]
  | succ d ih =>
      cases ht : tableAt next m root k (d + 1) with
      | none =>
          rw [tableAt_none_of_le (ih.trans ht) (Nat.le_succ _),
            tableAt_none_of_le ht (Nat.le_succ _)]
      | some t => rw [tableAt_succ (ih.trans ht), tableAt_succ ht, hsame d t ht]

theorem entryAt_transfer {root' : F} (h : m' root' (k 0) = m root (k 0))
    (hsame : ∀ d t, tableAt next m root k (d + 1) = some t → m' t = m t) :
    entryAt next m' root' k d = entryAt next m root k d := by
  cases d with
  | zero => exact congrArg some h
  | succ d =>
      rw [entryAt, entryAt, tableAt_transfer h hsame]
      cases ht : tableAt next m root k (d + 1) with
      | none => rfl
      | some t => rw [Option.map_some, Option.map_some, hsame d t ht]

/-- Fewer ways, and still a tree. -/
theorem Apart.of_le (h : Apart next m root K) (hle : ∀ k ∈ K, ∀ d t,
    tableAt next m' root k d = some t → tableAt next m root k d = some t) :
    Apart next m' root K := fun k hk k' hk' _ _ _ ht ht' =>
  h hk hk' (hle k hk _ _ ht) (hle k' hk' _ _ ht')

theorem Apart.mono {K' : Set (ℕ → I)} (h : Apart next m root K) (hK : ∀ k ∈ K', k ∈ K) :
    Apart next m root K' := fun k hk k' hk' _ _ _ ht ht' => h (hK k hk) (hK k' hk') ht ht'

/-- A tree below the same entries, under another root that is not in it. -/
theorem Apart.of_root {root' : F} (h : Apart next m root K)
    (hsame : ∀ k ∈ K, m root (k 0) = m root' (k 0))
    (hoff : ∀ k ∈ K, ∀ d, tableAt next m root k (d + 1) ≠ some root') :
    Apart next m root' K := by
  intro k hk k' hk' d d' t ht ht'
  cases d with
  | zero =>
      cases ht
      cases d' with
      | zero => exact ⟨rfl, fun j hj => absurd hj (Nat.not_lt_zero j)⟩
      | succ d' => exact absurd ((tableAt_root (hsame k' hk')).trans ht') (hoff k' hk' d')
  | succ d =>
      rw [← tableAt_root (hsame k hk)] at ht
      cases d' with
      | zero =>
          cases ht'
          exact absurd ht (hoff k hk d)
      | succ d' =>
          rw [← tableAt_root (hsame k' hk')] at ht'
          exact h hk hk' ht ht'

/-- A tree with the same ways, under another root that is not in it. -/
theorem Apart.transfer {root' : F} (h : Apart next m root K)
    (heq : ∀ k ∈ K, ∀ d, tableAt next m' root' k (d + 1) = tableAt next m root k (d + 1))
    (hoff : ∀ k ∈ K, ∀ d, tableAt next m root k (d + 1) ≠ some root') :
    Apart next m' root' K := by
  intro k hk k' hk' d d' t ht ht'
  cases d with
  | zero =>
      cases ht
      cases d' with
      | zero => exact ⟨rfl, fun j hj => absurd hj (Nat.not_lt_zero j)⟩
      | succ d' => exact absurd ((heq k' hk' d').symm.trans ht') (hoff k' hk' d')
  | succ d =>
      rw [heq k hk] at ht
      cases d' with
      | zero =>
          cases ht'
          exact absurd ht (hoff k hk d)
      | succ d' =>
          rw [heq k' hk'] at ht'
          exact h hk hk' ht ht'

/-- The root is at depth 0 only. -/
theorem Apart.root_ne (h : Apart next m root K) (hk : k ∈ K) :
    tableAt next m root k (d + 1) ≠ some root := fun ht =>
  absurd (h hk hk ht rfl).1 (Nat.succ_ne_zero d)

/-- Two trees that only share their root. -/
theorem Apart.union {K' : Set (ℕ → I)} (h : Apart next m root K) (h' : Apart next m root K')
    (hoff : ∀ k ∈ K, ∀ k' ∈ K', ∀ d d' t, tableAt next m root k (d + 1) = some t →
      tableAt next m root k' (d' + 1) ≠ some t) : Apart next m root (K ∪ K') := by
  have hcross : ∀ {k k'}, k ∈ K → k' ∈ K' → ∀ {d d' t}, tableAt next m root k d = some t →
      tableAt next m root k' d' = some t → d = 0 ∧ d' = 0 := by
    intro k k' hk hk' d d' t ht ht'
    cases d with
    | zero =>
        cases ht
        cases d' with
        | zero => exact ⟨rfl, rfl⟩
        | succ d' => exact absurd ht' (h'.root_ne hk')
    | succ d =>
        cases d' with
        | zero =>
            cases ht'
            exact absurd ht (h.root_ne hk)
        | succ d' => exact absurd ht' (hoff k hk k' hk' d d' t ht)
  rintro k (hk | hk) k' (hk' | hk') d d' t ht ht'
  · exact h hk hk' ht ht'
  · obtain ⟨rfl, rfl⟩ := hcross hk hk' ht ht'
    exact ⟨rfl, fun j hj => absurd hj (Nat.not_lt_zero j)⟩
  · obtain ⟨rfl, rfl⟩ := hcross hk' hk ht' ht
    exact ⟨rfl, fun j hj => absurd hj (Nat.not_lt_zero j)⟩
  · exact h' hk hk' ht ht'

end WayLemmas

/-! ## Writing one entry -/

section Write

variable [DecidableEq F] [DecidableEq I]

/-- The store with one entry replaced. -/
def set (m : F → I → E) (t : F) (i : I) (e : E) : F → I → E :=
  Function.update m t (Function.update (m t) i e)

variable {next : ℕ → E → Option F} {m : F → I → E} {root : F} {k k' : ℕ → I} {d d' : ℕ}
  {t u f : F} {i j : I} {e e' zero : E} {K : Set (ℕ → I)}

@[simp] theorem set_self : set m t i e t i = e := by
  rw [set, Function.update_self, Function.update_self]

theorem set_of_ne (h : ¬ (u = t ∧ j = i)) : set m t i e u j = m u j := by
  rw [set]
  by_cases hu : u = t
  · subst hu
    rw [Function.update_self, Function.update_of_ne fun hj => h ⟨rfl, hj⟩]
  · rw [Function.update_of_ne hu]

/-- An entry of a table that was replaced as a whole. -/
theorem set_update (g : I → E) :
    set (Function.update m t g) t i e = Function.update m t (Function.update g i e) := by
  rw [set, Function.update_self, Function.update_idem]

theorem update_set (g : I → E) : Function.update (set m t i e) t g = Function.update m t g := by
  rw [set, Function.update_idem]

theorem set_eq_self : set m t i (m t i) = m := by
  rw [set, Function.update_eq_self, Function.update_eq_self]

theorem set_table_of_ne (h : u ≠ t) : set m t i e u = m u := Function.update_of_ne h _ _

section Tree

variable (hapart : Apart next m root K) (hk : k ∈ K) (ht : tableAt next m root k d = some t)
include hapart hk ht

/-- The written entry is on the way of a key only at depth `d`, and only if it agrees. -/
theorem set_way (hk' : k' ∈ K) (hu : tableAt next m root k' d' = some u)
    (hne : ¬ (d' = d ∧ Agree (d + 1) k k')) :
    set m t (k d) e u (k' d') = m u (k' d') := by
  refine set_of_ne fun ⟨hut, hidx⟩ => hne ?_
  subst hut
  obtain ⟨rfl, hagree⟩ := hapart hk hk' ht hu
  exact ⟨rfl, hagree.succ hidx.symm⟩

theorem tableAt_set (hk' : k' ∈ K) (hne : ¬ (d < d' ∧ Agree (d + 1) k k')) :
    tableAt next (set m t (k d) e) root k' d' = tableAt next m root k' d' := by
  refine tableAt_congr fun j hj u hu => set_way hapart hk ht hk' hu ?_
  rintro ⟨rfl, hagree⟩
  exact hne ⟨hj, hagree⟩

theorem entryAt_set_of_not_agree (hk' : k' ∈ K) (hne : ¬ Agree (d + 1) k k') :
    entryAt next (set m t (k d) e) root k' d' = entryAt next m root k' d' := by
  have htable : tableAt next (set m t (k d) e) root k' d' = tableAt next m root k' d' :=
    tableAt_set hapart hk ht hk' fun h => hne h.2
  cases hu : tableAt next m root k' d' with
  | none => rw [entryAt, entryAt, htable, hu]; rfl
  | some u =>
      rw [entryAt_of_table (htable.trans hu), entryAt_of_table hu,
        set_way hapart hk ht hk' hu fun h => hne h.2]

theorem entryAt_set_of_agree (hk' : k' ∈ K) (hagree : Agree (d + 1) k k') :
    entryAt next (set m t (k d) e) root k' d = some e := by
  have htable : tableAt next (set m t (k d) e) root k' d = tableAt next m root k' d :=
    tableAt_set hapart hk ht hk' fun h => Nat.lt_irrefl d h.1
  have hkey : tableAt next m root k d = tableAt next m root k' d :=
    tableAt_key (hagree.mono (Nat.le_succ d))
  rw [entryAt_of_table (htable.trans (hkey.symm.trans ht)), ← hagree d (Nat.lt_succ_self d),
    set_self]

/-- Other keys end where they did. -/
theorem Stops.set_of_not_agree (hk' : k' ∈ K) (hne : ¬ Agree (d + 1) k k')
    (h : Stops next m root k' d' e') : Stops next (set m t (k d) e) root k' d' e' :=
  ⟨(entryAt_set_of_not_agree hapart hk ht hk' hne).trans h.1, h.2⟩

/-- The keys of the entry end at it, if it leads nowhere. -/
theorem stops_set_of_agree (he : next d e = none) (hk' : k' ∈ K) (hagree : Agree (d + 1) k k') :
    Stops next (set m t (k d) e) root k' d e :=
  ⟨entryAt_set_of_agree hapart hk ht hk' hagree, he⟩

/-- An entry that leads nowhere makes no new ways. -/
theorem tableAt_of_set_leaf (he : next d e = none) (hk' : k' ∈ K)
    (hu : tableAt next (set m t (k d) e) root k' d' = some u) :
    tableAt next m root k' d' = some u := by
  by_cases h : d < d' ∧ Agree (d + 1) k k'
  · exact nomatch ((stops_set_of_agree hapart hk ht he hk' h.2).tableAt_none h.1).symm.trans hu
  · rw [← hu, tableAt_set hapart hk ht hk' h]

theorem Apart.set_leaf (he : next d e = none) : Apart next (set m t (k d) e) root K :=
  hapart.of_le fun _ hk' _ _ hu => tableAt_of_set_leaf hapart hk ht he hk' hu

/-- If the old entry led nowhere either, no way is lost. -/
theorem tableAt_set_leaf (hold : next d (m t (k d)) = none) (hk' : k' ∈ K)
    (hu : tableAt next m root k' d' = some u) :
    tableAt next (set m t (k d) e) root k' d' = some u := by
  rw [tableAt_set hapart hk ht hk' ?_, hu]
  rintro ⟨hlt, hagree⟩
  have hstop : Stops next m root k' d (m t (k d)) :=
    Stops.key ⟨entryAt_of_table ht, hold⟩ hagree
  exact nomatch (hstop.tableAt_none hlt).symm.trans hu

/-- The entries of the new store are the old ones and the new one. -/
theorem entryAt_of_set_leaf (he : next d e = none) (hk' : k' ∈ K)
    (h : entryAt next (set m t (k d) e) root k' d' = some e') :
    entryAt next m root k' d' = some e' ∨ (d' = d ∧ e' = e) := by
  by_cases hagree : Agree (d + 1) k k'
  · obtain ⟨u, hu, rfl⟩ := entryAt_eq_some.mp h
    have hu' := tableAt_of_set_leaf hapart hk ht he hk' hu
    by_cases hd : d' = d
    · subst hd
      exact .inr ⟨rfl, Option.some.inj
        (h.symm.trans (entryAt_set_of_agree hapart hk ht hk' hagree))⟩
    · left
      rw [entryAt_of_table hu', set_way hapart hk ht hk' hu' fun h => hd h.1]
  · exact .inl (by rw [← h, entryAt_set_of_not_agree hapart hk ht hk' hagree])

end Tree

/-! ## Hanging in an empty table -/

/-- The table `f` is empty, and on no way. -/
structure Blank (next : ℕ → E → Option F) (zero : E) (m : F → I → E) (root : F)
    (K : Set (ℕ → I)) (f : F) : Prop where
  off : ∀ k ∈ K, ∀ d, tableAt next m root k d ≠ some f
  empty : ∀ i, m f i = zero

section Link

variable (hapart : Apart next m root K) (hk : k ∈ K) (ht : tableAt next m root k d = some t)
  (hzero : ∀ d, next d zero = none) (hf : Blank next zero m root K f) (he : next d e = some f)
include hapart hk ht hzero hf he

/-- The keys of the entry end in the new table. -/
theorem stops_link (hk' : k' ∈ K) (hagree : Agree (d + 1) k k') :
    tableAt next (set m t (k d) e) root k' (d + 1) = some f ∧
      Stops next (set m t (k d) e) root k' (d + 1) zero := by
  obtain ⟨u, hu, hue⟩ := entryAt_eq_some.mp (entryAt_set_of_agree (e := e) hapart hk ht hk' hagree)
  have htable : tableAt next (set m t (k d) e) root k' (d + 1) = some f := by
    rw [tableAt_succ hu, hue, he]
  have hft : f ≠ t := by
    rintro rfl
    exact hf.off k hk d ht
  refine ⟨htable, ?_, hzero _⟩
  rw [entryAt_of_table htable, set_table_of_ne hft, hf.empty]

/-- The new store has the ways of the old one, and the one to the new table. -/
theorem tableAt_link_cases (hk' : k' ∈ K)
    (hu : tableAt next (set m t (k d) e) root k' d' = some u) :
    tableAt next m root k' d' = some u ∨ (u = f ∧ d' = d + 1 ∧ Agree (d + 1) k k') := by
  by_cases h : d < d' ∧ Agree (d + 1) k k'
  · obtain ⟨htable, hstops⟩ := stops_link hapart hk ht hzero hf he hk' h.2
    rcases Nat.lt_or_eq_of_le h.1 with hlt | rfl
    · exact nomatch (hstops.tableAt_none hlt).symm.trans hu
    · exact .inr ⟨Option.some.inj (hu.symm.trans htable), rfl, h.2⟩
  · exact .inl (by rw [← hu, tableAt_set hapart hk ht hk' h])

theorem Apart.link : Apart next (set m t (k d) e) root K := by
  intro k₁ hk₁ k₂ hk₂ d₁ d₂ u h₁ h₂
  rcases tableAt_link_cases hapart hk ht hzero hf he hk₁ h₁ with h₁ | ⟨rfl, rfl, ha₁⟩ <;>
    rcases tableAt_link_cases hapart hk ht hzero hf he hk₂ h₂ with h₂ | ⟨hu, rfl, ha₂⟩
  · exact hapart hk₁ hk₂ h₁ h₂
  · exact absurd (hu ▸ h₁) (hf.off k₁ hk₁ d₁)
  · exact absurd h₂ (hf.off k₂ hk₂ d₂)
  · exact ⟨rfl, ha₁.symm.trans ha₂⟩

/-- The entries of the new store: the old ones, the one that was written, and empty ones. -/
theorem entryAt_of_link (hk' : k' ∈ K)
    (h : entryAt next (set m t (k d) e) root k' d' = some e') :
    entryAt next m root k' d' = some e' ∨ e' = zero ∨ e' = e := by
  obtain ⟨u, hu, hue⟩ := entryAt_eq_some.mp h
  rcases tableAt_link_cases hapart hk ht hzero hf he hk' hu with hu' | ⟨-, rfl, hagree⟩
  · by_cases hd : d' = d ∧ Agree (d + 1) k k'
    · obtain ⟨rfl, hagree⟩ := hd
      exact .inr (.inr (Option.some.inj
        (h.symm.trans (entryAt_set_of_agree hapart hk ht hk' hagree))))
    · left
      rw [entryAt_of_table hu', ← hue, set_way hapart hk ht hk' hu' hd]
  · have hstops := (stops_link hapart hk ht hzero hf he hk' hagree).2
    exact .inr (.inl (Option.some.inj (h.symm.trans hstops.1)))

/-- If the way of `k` ended at the entry, the keys that ended there end in the new table, and the
others where they did. -/
theorem Stops.link_cases (hend : next d (m t (k d)) = none) (hk' : k' ∈ K)
    (hs : Stops next m root k' d' e') :
    Stops next (set m t (k d) e) root k' d' e' ∨ (d' = d ∧ Agree (d + 1) k k' ∧
      ∃ d'', Stops next (set m t (k d) e) root k' d'' zero) := by
  by_cases hagree : Agree (d + 1) k k'
  · have hd := (hs.unique (Stops.key ⟨entryAt_of_table ht, hend⟩ hagree)).1
    exact .inr ⟨hd, hagree, _, (stops_link hapart hk ht hzero hf he hk' hagree).2⟩
  · exact .inl (hs.set_of_not_agree hapart hk ht hk' hagree)

end Link

end Write

/-! ## The tables below an entry -/

section Below

variable (next : ℕ → E → Option F) (m : F → I → E) (is : List I)

/-- The tables below the entry `e` of a table at depth `d`, each after those below it; `is` are
the indices of a table, and `n` bounds the depth. -/
def below : ℕ → ℕ → E → List F
  | 0, _, _ => []
  | n + 1, d, e =>
      match next d e with
      | none => []
      | some t => (is.flatMap fun i => below n (d + 1) (m t i)) ++ [t]

variable {next m is} {root : F} {k : ℕ → I} {d n : ℕ} {e : E} {t f : F}

theorem below_of_none (h : next d e = none) : below next m is n d e = [] := by
  cases n with
  | zero => rfl
  | succ n => rw [below, h]

theorem below_of_some (h : next d e = some t) :
    below next m is (n + 1) d e
      = (is.flatMap fun i => below next m is n (d + 1) (m t i)) ++ [t] := by
  rw [below, h]

/-- The key with another index at depth `d`. -/
theorem agree_update (k : ℕ → I) (d : ℕ) (i : I) : Agree d k (Function.update k d i) :=
  fun _ hj => (Function.update_of_ne (Nat.ne_of_lt hj) _ _).symm

/-- What is below the entry of a key is on the way of a key that agrees with it. -/
theorem exists_of_mem_below (he : entryAt next m root k d = some e)
    (hf : f ∈ below next m is n d e) :
    ∃ k' j, Agree (d + 1) k k' ∧ d < j ∧ tableAt next m root k' j = some f := by
  induction n generalizing k d e with
  | zero => exact nomatch hf
  | succ n ih =>
      cases hnext : next d e with
      | none => rw [below_of_none hnext] at hf; exact nomatch hf
      | some t =>
          obtain ⟨u, hu, rfl⟩ := entryAt_eq_some.mp he
          have ht := (tableAt_succ hu).trans hnext
          rw [below_of_some hnext, List.mem_append, List.mem_flatMap, List.mem_singleton] at hf
          rcases hf with ⟨i, -, hf⟩ | rfl
          · have hagree := agree_update k (d + 1) i
            have he' :
                entryAt next m root (Function.update k (d + 1) i) (d + 1) = some (m t i) := by
              rw [entryAt_of_table ((tableAt_key hagree).symm.trans ht), Function.update_self]
            obtain ⟨k', j, hk', hj, hfj⟩ := ih he' hf
            exact ⟨k', j, hagree.trans (hk'.mono (Nat.le_succ _)), by omega, hfj⟩
          · exact ⟨k, d + 1, fun _ _ => rfl, Nat.lt_succ_self d, ht⟩

/-- And what is on the way of such a key is below it. -/
theorem mem_below (his : ∀ i, i ∈ is) {j : ℕ} (he : entryAt next m root k d = some e) (hd : d < j)
    (hj : j ≤ d + n) (hf : tableAt next m root k j = some f) : f ∈ below next m is n d e := by
  induction n generalizing d e with
  | zero => omega
  | succ n ih =>
      obtain ⟨u, hu, rfl⟩ := entryAt_eq_some.mp he
      cases hnext : next d (m u (k d)) with
      | none =>
          have hstop : Stops next m root k d (m u (k d)) := ⟨he, hnext⟩
          exact nomatch (hstop.tableAt_none hd).symm.trans hf
      | some t =>
          have ht := (tableAt_succ hu).trans hnext
          rw [below_of_some hnext, List.mem_append, List.mem_flatMap, List.mem_singleton]
          rcases Nat.lt_or_eq_of_le (Nat.succ_le_of_lt hd) with hlt | rfl
          · exact .inl ⟨k (d + 1), his _, ih (entryAt_of_table ht) hlt (by omega)⟩
          · exact .inr (Option.some.inj (hf.symm.trans ht))

variable (next m root) in
/-- `g` is `f`, or a table below it. -/
def Reaches (K : Set (ℕ → I)) (f g : F) : Prop :=
  ∃ k ∈ K, ∃ d d', d ≤ d' ∧ tableAt next m root k d = some f ∧ tableAt next m root k d' = some g

/-- In a tree, two tables are where their keys say. -/
theorem Reaches.agree {K : Set (ℕ → I)} (hapart : Apart next m root K) {g : F} {k' : ℕ → I}
    {j j' : ℕ} (h : Reaches next m root K f g) (hk : k ∈ K)
    (hf : tableAt next m root k j = some f) (hk' : k' ∈ K)
    (hg : tableAt next m root k' j' = some g) : j ≤ j' ∧ Agree j k k' := by
  obtain ⟨k₀, hk₀, d, d', hle, hf₀, hg₀⟩ := h
  obtain ⟨rfl, hagree⟩ := hapart hk hk₀ hf hf₀
  obtain ⟨rfl, hagree'⟩ := hapart hk₀ hk' hg₀ hg
  exact ⟨hle, hagree.trans (hagree'.mono hle)⟩

/-- In a tree, none comes before one that is below it, or the same. -/
theorem pairwise_below {K : Set (ℕ → I)} (hapart : Apart next m root K) (his : is.Nodup)
    (hK : ∀ k ∈ K, ∀ k', Agree 1 k k' → k' ∈ K) (hk : k ∈ K)
    (he : entryAt next m root k d = some e) :
    (below next m is n d e).Pairwise fun f g => ¬ Reaches next m root K f g := by
  induction n generalizing k d e with
  | zero => exact .nil
  | succ n ih =>
      cases hnext : next d e with
      | none => rw [below_of_none hnext]; exact .nil
      | some t =>
          obtain ⟨u, hu, rfl⟩ := entryAt_eq_some.mp he
          have ht := (tableAt_succ hu).trans hnext
          -- the keys of the entries of `t`
          have hkey : ∀ i, Function.update k (d + 1) i ∈ K := fun i =>
            hK k hk _ ((agree_update k (d + 1) i).mono (Nat.succ_le_succ (Nat.zero_le d)))
          have hentry : ∀ i,
              entryAt next m root (Function.update k (d + 1) i) (d + 1) = some (m t i) := by
            intro i
            rw [entryAt_of_table ((tableAt_key (agree_update k (d + 1) i)).symm.trans ht),
              Function.update_self]
          have hdeep : ∀ i, ∀ f ∈ below next m is n (d + 1) (m t i), ∃ k' ∈ K, ∃ j > d + 1,
              k' (d + 1) = i ∧ tableAt next m root k' j = some f := fun i f hf => by
            obtain ⟨k', j, hagree, hj, hfj⟩ := exists_of_mem_below (hentry i) hf
            refine ⟨k', hK _ (hkey i) _ (hagree.mono (by omega)), j, hj, ?_, hfj⟩
            rw [← hagree (d + 1) (Nat.lt_succ_self _), Function.update_self]
          rw [below_of_some hnext, List.pairwise_append]
          refine ⟨List.pairwise_flatMap.mpr ⟨fun i _ => ih (hkey i) (hentry i), ?_⟩,
            List.pairwise_singleton _ t, ?_⟩
          · refine his.imp fun {i i'} hne f hf g hg hreach => hne ?_
            obtain ⟨k₁, hk₁, j₁, hj₁, rfl, hf₁⟩ := hdeep i f hf
            obtain ⟨k₂, hk₂, j₂, hj₂, rfl, hg₂⟩ := hdeep i' g hg
            exact (hreach.agree hapart hk₁ hf₁ hk₂ hg₂).2 (d + 1) hj₁
          · intro f hf g hg hreach
            rw [List.mem_singleton.mp hg] at hreach
            obtain ⟨i, -, hf⟩ := List.mem_flatMap.mp hf
            obtain ⟨k', hk', j, hj, -, hfj⟩ := hdeep i f hf
            exact absurd (hreach.agree hapart hk' hfj hk ht).1 (by omega)

variable (next m is) in
/-- The tables on the ways that begin with an index of `js`, each after those below it. -/
def under (js : List I) (n : ℕ) (root : F) : List F :=
  (js.flatMap fun i => below next m is n 0 (m root i)) ++ [root]

variable {js : List I}

theorem exists_of_mem_below_root {i : I} (hf : f ∈ below next m is n 0 (m root i)) :
    ∃ k j, k 0 = i ∧ 0 < j ∧ tableAt next m root k j = some f := by
  obtain ⟨k, j, hagree, hj, hfj⟩ := exists_of_mem_below (k := fun _ => i) rfl hf
  exact ⟨k, j, (hagree 0 Nat.zero_lt_one).symm, hj, hfj⟩

theorem exists_of_mem_under {i : I} (hi : i ∈ js) (hf : f ∈ under next m is js n root) :
    ∃ k, k 0 ∈ js ∧ ∃ d, tableAt next m root k d = some f := by
  rw [under, List.mem_append, List.mem_flatMap, List.mem_singleton] at hf
  rcases hf with ⟨i, hi, hf⟩ | rfl
  · obtain ⟨k, j, rfl, -, hfj⟩ := exists_of_mem_below_root hf
    exact ⟨k, hi, j, hfj⟩
  · exact ⟨fun _ => i, hi, 0, rfl⟩

theorem mem_under (his : ∀ i, i ∈ is) {i : I} (hi : i ∈ js)
    (hn : ∀ k d t, tableAt next m root k d = some t → d ≤ n) :
    f ∈ under next m is js n root ↔ ∃ k, k 0 ∈ js ∧ ∃ d, tableAt next m root k d = some f := by
  refine ⟨exists_of_mem_under hi, ?_⟩
  rintro ⟨k, hk, d, hd⟩
  rw [under, List.mem_append, List.mem_flatMap, List.mem_singleton]
  cases d with
  | zero => exact .inr (Option.some.inj hd).symm
  | succ d =>
      refine .inl ⟨k 0, hk, mem_below his rfl (Nat.succ_pos d) ?_ hd⟩
      rw [Nat.zero_add]
      exact hn k _ f hd

variable (his : is.Nodup) (hjs : js.Nodup) (hapart : Apart next m root {k | k 0 ∈ js})
include his hjs hapart

/-- In a tree, none comes before one that is below it, or the same. -/
theorem pairwise_under : (under next m is js n root).Pairwise fun f g =>
    ¬ Reaches next m root {k | k 0 ∈ js} f g := by
  rw [under, List.pairwise_append]
  refine ⟨List.pairwise_flatMap.mpr ⟨fun i hi => ?_, ?_⟩, List.pairwise_singleton _ root, ?_⟩
  · refine pairwise_below (k := fun _ => i) hapart his (fun k hk k' hkk' => ?_) hi rfl
    show k' 0 ∈ js
    rw [← hkk' 0 Nat.zero_lt_one]
    exact hk
  · refine hjs.imp_of_mem fun {i i'} hi hi' hne f hf g hg hreach => hne ?_
    obtain ⟨k, j, rfl, hj, hfj⟩ := exists_of_mem_below_root hf
    obtain ⟨k', j', rfl, -, hgj⟩ := exists_of_mem_below_root hg
    exact (hreach.agree hapart hi hfj hi' hgj).2 0 hj
  · intro f hf g hg hreach
    rw [List.mem_singleton.mp hg] at hreach
    obtain ⟨i, hi, hf⟩ := List.mem_flatMap.mp hf
    obtain ⟨k, j, rfl, hj, hfj⟩ := exists_of_mem_below_root hf
    have hroot : tableAt next m root k 0 = some root := rfl
    exact absurd (hreach.agree hapart hi hfj hi hroot).1 (Nat.not_le.mpr hj)

/-- In a tree, each of them once. -/
theorem nodup_under {i : I} (hi : i ∈ js) : (under next m is js n root).Nodup := by
  refine (pairwise_under his hjs hapart).imp_of_mem fun {f g} hf _ hreach heq => hreach ?_
  obtain ⟨k, hk, d, hd⟩ := exists_of_mem_under hi hf
  exact ⟨k, hk, d, d, Nat.le_refl d, hd, heq ▸ hd⟩

/-- What is below a table comes before it. -/
theorem mem_before {l₁ l₂ : List F} {g : F} (hl : under next m is js n root = l₁ ++ f :: l₂)
    (hg : g ∈ under next m is js n root) (hne : g ≠ f)
    (hreach : Reaches next m root {k | k 0 ∈ js} f g) : g ∈ l₁ := by
  have hpairs := pairwise_under his hjs hapart (n := n)
  rw [hl] at hpairs hg
  obtain ⟨-, hafter, -⟩ := List.pairwise_append.mp hpairs
  rcases List.mem_append.mp hg with hg | hg
  · exact hg
  · rcases List.mem_cons.mp hg with hg | hg
    · exact absurd hg hne
    · exact absurd hreach ((List.pairwise_cons.mp hafter).1 g hg)

end Below

/-! ## Growing a way -/

/-- The store `m'` is `m` after the way of `k` was made to reach depth `d`, with the tables
`fs` hung in for those that were missing. -/
structure Growth (next : ℕ → E → Option F) (link : F → E) (zero : E) (m : F → I → E) (root : F)
    (K : Set (ℕ → I)) (k : ℕ → I) (d : ℕ) (fs : List F) (m' : F → I → E) : Prop where
  apart : Apart next m' root K
  reaches : ∃ t, tableAt next m' root k d = some t
  tables : ∀ k' ∈ K, ∀ d' u, tableAt next m' root k' d' = some u →
    tableAt next m root k' d' = some u ∨ u ∈ fs
  keeps : ∀ k' ∈ K, ∀ d' u, tableAt next m root k' d' = some u →
    tableAt next m' root k' d' = some u
  placed : ∀ f ∈ fs, ∃ j ≤ d, tableAt next m' root k j = some f
  /-- A table is only written where it is on the way and the way ends there. -/
  untouched : ∀ u ∉ fs, (∀ j < d, tableAt next m root k j = some u → next j (m u (k j)) ≠ none) →
    m' u = m u
  entries : ∀ k' ∈ K, ∀ d' e, entryAt next m' root k' d' = some e →
    entryAt next m root k' d' = some e ∨ e = zero ∨ ∃ f ∈ fs, e = link f
  stops : ∀ k' ∈ K, ∀ d' e, Stops next m root k' d' e → Stops next m' root k' d' e ∨
    (d' < d ∧ Agree (d' + 1) k k' ∧ ∃ d'', Stops next m' root k' d'' zero)
  length : fs.length = missing next m root k d

namespace Growth

variable {next : ℕ → E → Option F} {link : F → E} {zero : E} {m m' : F → I → E} {root : F}
  {K : Set (ℕ → I)} {k : ℕ → I} {d : ℕ} {fs : List F} {t f : F}

theorem nil (hapart : Apart next m root K) : Growth next link zero m root K k 0 [] m where
  apart := hapart
  reaches := ⟨root, rfl⟩
  tables _ _ _ _ hu := .inl hu
  keeps _ _ _ _ hu := hu
  placed _ hf := nomatch hf
  untouched _ _ _ := rfl
  entries _ _ _ _ he := .inl he
  stops _ _ _ _ h := .inl h
  length := rfl

/-- Below depth `d`, the way of `k` is the old one: no table was hung in there. -/
theorem tableAt_deep (h : Growth next link zero m root K k d fs m') (hk : k ∈ K) {d' : ℕ}
    (hd : d < d') (ht : tableAt next m' root k d' = some t) :
    tableAt next m root k d' = some t := by
  rcases h.tables k hk d' t ht with hold | hnew
  · exact hold
  · obtain ⟨j, hj, hjt⟩ := h.placed t hnew
    exact absurd (h.apart hk hk hjt ht).1 (by omega)

/-- The way goes on by itself. -/
theorem down (h : Growth next link zero m root K k d fs m') (hk : k ∈ K)
    (ht : tableAt next m' root k (d + 1) = some t) :
    Growth next link zero m root K k (d + 1) fs m' where
  apart := h.apart
  reaches := ⟨t, ht⟩
  tables := h.tables
  keeps := h.keeps
  placed f hf := by
    obtain ⟨j, hj, hfj⟩ := h.placed f hf
    exact ⟨j, Nat.le_succ_of_le hj, hfj⟩
  untouched u hu hon := h.untouched u hu fun j hj => hon j (Nat.lt_succ_of_lt hj)
  entries := h.entries
  stops k' hk' d' e hs := by
    rcases h.stops k' hk' d' e hs with hs' | ⟨hlt, hagree, hend⟩
    · exact .inl hs'
    · exact .inr ⟨Nat.lt_succ_of_lt hlt, hagree, hend⟩
  length := by
    rw [missing, h.length, h.tableAt_deep hk (Nat.lt_succ_self d) ht]
    rfl

/-- A way that ends here ended here, or before, in the old store. -/
theorem tableAt_succ_none (h : Growth next link zero m root K k d fs m') (hk : k ∈ K)
    (ht : tableAt next m' root k d = some t) (hend : next d (m' t (k d)) = none) :
    tableAt next m root k (d + 1) = none := by
  cases hu : tableAt next m root k (d + 1) with
  | none => rfl
  | some u =>
      have hu' := h.keeps k hk (d + 1) u hu
      rw [tableAt_succ ht, hend] at hu'
      exact nomatch hu'

/-- What is still blank before the next table is hung in. -/
theorem blank (h : Growth next link zero m root K k d fs m') (hf : f ∉ fs)
    (hblank : Blank next zero m root K f) (hk : k ∈ K) : Blank next zero m' root K f where
  off k' hk' d' hfd := (h.tables k' hk' d' f hfd).elim (hblank.off k' hk' d') hf
  empty i := by
    rw [h.untouched f hf fun j _ hj => absurd hj (hblank.off k hk j), hblank.empty]

/-- The way ends, and an empty table is hung in. -/
theorem hang [DecidableEq F] [DecidableEq I] (h : Growth next link zero m root K k d fs m')
    (hk : k ∈ K) (hzero : ∀ d, next d zero = none) (ht : tableAt next m' root k d = some t)
    (hend : next d (m' t (k d)) = none) (hlink : next d (link f) = some f) (hf : f ∉ fs)
    (hblank : Blank next zero m root K f) :
    Growth next link zero m root K k (d + 1) (fs ++ [f]) (set m' t (k d) (link f)) := by
  have hblank' := h.blank hf hblank hk
  have hself := stops_link h.apart hk ht hzero hblank' hlink hk fun _ _ => rfl
  refine
    { apart := h.apart.link hk ht hzero hblank' hlink
      reaches := ⟨f, hself.1⟩
      tables := ?_, keeps := ?_, placed := ?_, untouched := ?_, entries := ?_, stops := ?_
      length := ?_ }
  · intro k' hk' d' u hu
    rcases tableAt_link_cases h.apart hk ht hzero hblank' hlink hk' hu with hu | ⟨rfl, -⟩
    · exact (h.tables k' hk' d' u hu).imp_right (List.mem_append_left _)
    · exact .inr (List.mem_append_right _ List.mem_cons_self)
  · intro k' hk' d' u hu
    exact tableAt_set_leaf h.apart hk ht hend hk' (h.keeps k' hk' d' u hu)
  · intro g hg
    rcases List.mem_append.mp hg with hg | hg
    · obtain ⟨j, hj, hgj⟩ := h.placed g hg
      exact ⟨j, Nat.le_succ_of_le hj, tableAt_set_leaf h.apart hk ht hend hk hgj⟩
    · rw [List.mem_singleton.mp hg]
      exact ⟨d + 1, Nat.le_refl _, hself.1⟩
  · intro u hu hon
    have hufs : u ∉ fs := fun hmem => hu (List.mem_append_left _ hmem)
    have hsame := h.untouched u hufs fun j hj => hon j (Nat.lt_succ_of_lt hj)
    rw [← hsame]
    refine set_table_of_ne ?_
    rintro rfl
    refine hon d (Nat.lt_succ_self d) ((h.tables k hk d u ht).resolve_right hufs) ?_
    rw [← hsame, hend]
  · intro k' hk' d' e he
    rcases entryAt_of_link h.apart hk ht hzero hblank' hlink hk' he with he | rfl | rfl
    · rcases h.entries k' hk' d' e he with he | rfl | ⟨g, hg, rfl⟩
      · exact .inl he
      · exact .inr (.inl rfl)
      · exact .inr (.inr ⟨g, List.mem_append_left _ hg, rfl⟩)
    · exact .inr (.inl rfl)
    · exact .inr (.inr ⟨f, List.mem_append_right _ List.mem_cons_self, rfl⟩)
  · intro k' hk' d' e hs
    rcases h.stops k' hk' d' e hs with hs' | ⟨hlt, hagree, d'', hs'⟩
    · refine (hs'.link_cases h.apart hk ht hzero hblank' hlink hend hk').imp_right ?_
      rintro ⟨rfl, hrest⟩
      exact ⟨Nat.lt_succ_self _, hrest⟩
    · -- the way already ended in a table that was hung in, perhaps at the entry written now
      refine .inr ⟨Nat.lt_succ_of_lt hlt, hagree, ?_⟩
      rcases hs'.link_cases h.apart hk ht hzero hblank' hlink hend hk' with hs' | ⟨-, -, hs'⟩
      · exact ⟨d'', hs'⟩
      · exact hs'
  · rw [missing_succ (h.tableAt_succ_none hk ht hend), List.length_append, h.length]
    rfl

section Put

variable [DecidableEq F] [DecidableEq I] {k' : ℕ → I} {d' : ℕ} {e e' : E}
  (h : Growth next link zero m root K k d fs m') (hk : k ∈ K)
  (ht : tableAt next m' root k d = some t)
include h hk ht

/-- A key that does not agree with the entry written at the end of the way ends where it did, or
in a table that was hung in. -/
theorem stops_put (hk' : k' ∈ K) (hne : ¬ Agree (d + 1) k k') (hs : Stops next m root k' d' e') :
    Stops next (set m' t (k d) e) root k' d' e' ∨ (d' < d ∧ Agree (d' + 1) k k' ∧
      ∃ d'', Stops next (set m' t (k d) e) root k' d'' zero) := by
  rcases h.stops k' hk' d' e' hs with hs' | ⟨hlt, hagree, d'', hs'⟩
  · exact .inl (hs'.set_of_not_agree h.apart hk ht hk' hne)
  · exact .inr ⟨hlt, hagree, d'', hs'.set_of_not_agree h.apart hk ht hk' hne⟩

theorem entries_put (he : next d e = none) (hk' : k' ∈ K)
    (hs : entryAt next (set m' t (k d) e) root k' d' = some e') :
    entryAt next m root k' d' = some e' ∨ e' = zero ∨ (∃ f ∈ fs, e' = link f) ∨
      (d' = d ∧ e' = e) := by
  rcases entryAt_of_set_leaf h.apart hk ht he hk' hs with hs | hnew
  · rcases h.entries k' hk' d' e' hs with hs | rfl | hlink
    · exact .inl hs
    · exact .inr (.inl rfl)
    · exact .inr (.inr (.inl hlink))
  · exact .inr (.inr (.inr hnew))

end Put

end Growth

end Koe.TableTree
