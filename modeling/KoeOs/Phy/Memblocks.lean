/-
# `KoeOs.Phy.Memblocks` — the sorted lists of the boot allocator

`insert` puts a block where its first address belongs and merges it with the
neighbours it touches.  Three facts about it:

    the list stays sorted                   whatever the block (`preserves_insert`)
    it stays spaced, and covers the block   if the block overlaps nothing (`Apart.joined`)
    it has no overlap                       exactly if the block starts where a stored one
                                            does, or overlaps nothing (`Admits`)

A spaced list is determined by the bytes it covers, so the order in which blocks
arrive leaves no trace.  In the last line a block that starts elsewhere and overlaps
a stored one is stored all the same: `insert` looks at first addresses only.
-/
import KoeOs.Lib.Spans
import KoeOs.Phy.MemblockRun

namespace Koe

/-- The end of a block. -/
def Memblock.stop (b : Memblock) : ℕ := b.base.value + b.size

/-- A block made of two that touch. -/
theorem Memblock.contains_glue {a b c : Memblock} (hmeet : a.stop = b.base.value)
    (hstop : c.stop = b.stop) (hbase : c.base.value = a.base.value) (x : ℕ) :
    c.Contains x ↔ a.Contains x ∨ b.Contains x := by
  simp only [Memblock.Contains, Memblock.stop] at *
  omega

namespace Memblocks

/-- Sorted by first address, and no two blocks start at the same one. -/
def Ascending (data : Memblocks) : Prop := data.Pairwise fun a b => a.base.value < b.base.value

instance (data : Memblocks) : Decidable data.Ascending :=
  inferInstanceAs (Decidable (List.Pairwise _ _))

variable {data : Memblocks} {block : Memblock}

/-- A block between those that start lower and those that start higher. -/
theorem Ascending.splice {lo hi : Memblocks} (hlo : lo.Ascending) (hhi : hi.Ascending)
    (hbefore : ∀ a ∈ lo, a.base.value < block.base.value)
    (hafter : ∀ b ∈ hi, block.base.value < b.base.value) : Ascending (lo ++ block :: hi) := by
  refine List.pairwise_append.mpr ⟨hlo, List.pairwise_cons.mpr ⟨hafter, hhi⟩, fun a ha b hb => ?_⟩
  rcases List.mem_cons.mp hb with rfl | hb
  · exact hbefore a ha
  · exact (hbefore a ha).trans (hafter b hb)

theorem lower_lt : ∀ a ∈ data.lower block, a.base.value < block.base.value := fun a ha => by
  have hall :=
    List.all_takeWhile (p := fun b : Memblock => decide (b.base < block.base)) (l := data)
  exact of_decide_eq_true (List.all_eq_true.mp hall a ha)

theorem le_upper_of_head {c : Memblock} (h : (data.upper block).head? = some c) :
    block.base.value ≤ c.base.value := by
  have hhead := List.head?_dropWhile_not (fun b : Memblock => decide (b.base < block.base)) data
  rw [← upper, h] at hhead
  exact not_lt.mp (of_decide_eq_false hhead)

/-- Without a block that starts at the same address, the rest starts higher. -/
theorem lt_upper (h : data.Ascending)
    (hne : (data.upper block).head?.map Memblock.base ≠ some block.base) :
    ∀ b ∈ data.upper block, block.base.value < b.base.value := by
  have hasc : (data.upper block).Ascending := h.sublist (List.dropWhile_sublist _)
  cases hup : data.upper block with
  | nil => simp
  | cons c rest =>
      have hle := le_upper_of_head (congrArg List.head? hup)
      rw [hup] at hne hasc
      have hc : block.base.value < c.base.value :=
        lt_of_le_of_ne hle fun he => hne (congrArg some (Addr.ext he.symm))
      intro b hb
      rcases List.mem_cons.mp hb with rfl | hb
      · exact hc
      · exact hc.trans (List.rel_of_pairwise_cons hasc hb)

section Unchanged

variable {σ : Type} {I : σ → Prop}

theorem preserves_meets (a b : Memblock) : Code.Preserves I (meets a b) :=
  (Code.preserves_assert _ _).bind fun _ =>
    (Addr.preserves_addrSub _ _).bind fun _ => Code.preserves_pure _

theorem preserves_mergePrev (data : Memblocks) (block : Memblock) :
    Code.Preserves I (data.mergePrev block) := by
  unfold mergePrev
  split
  · exact Code.preserves_pure _
  · exact (preserves_meets _ _).bind fun _ =>
      Code.preserves_ite (Code.preserves_pure _) (Code.preserves_pure _)

theorem preserves_mergeNext (data : Memblocks) (block : Memblock) :
    Code.Preserves I (data.mergeNext block) := by
  unfold mergeNext
  split
  · exact Code.preserves_pure _
  · exact (preserves_meets _ _).bind fun _ =>
      Code.preserves_ite (Code.preserves_pure _) (Code.preserves_pure _)

end Unchanged

/-- The block that takes another one in is its neighbour. -/
theorem mergePrev_eq_some {σ : Type} {prev : Memblock} {s t : σ}
    (h : (data.mergePrev block).run s = .ok (some prev) t) :
    (data.lower block).getLast? = some prev := by
  unfold mergePrev at h
  cases hl : (data.lower block).getLast? with
  | none => rw [hl] at h; cases h
  | some p =>
      rw [hl] at h
      obtain ⟨b, _, -, h⟩ := Code.bind_eq_ok.mp h
      cases b with
      | false => cases h
      | true => cases h; rfl

/-- Growing the last of the lower blocks. -/
theorem Ascending.splice_prev (h : data.Ascending) {prev : Memblock} {hi : Memblocks}
    (hprev : (data.lower block).getLast? = some prev) (hhi : hi.Ascending)
    (hafter : ∀ b ∈ hi, block.base.value < b.base.value) (size : ℕ) :
    Ascending ((data.lower block).dropLast ++ { prev with size } :: hi) := by
  have hlo : (data.lower block).Ascending := h.sublist (List.takeWhile_sublist _)
  have hlt : prev.base.value < block.base.value := lower_lt prev (List.mem_of_getLast? hprev)
  have hbefore : ∀ a ∈ (data.lower block).dropLast, a.base.value < prev.base.value := by
    rw [← List.dropLast_append_getLast? prev hprev] at hlo
    exact fun a ha => (List.pairwise_append.mp hlo).2.2 a ha prev (List.mem_singleton_self _)
  have hdrop : Ascending (data.lower block).dropLast := hlo.sublist (List.dropLast_sublist _)
  exact hdrop.splice hhi hbefore fun b hb => hlt.trans (hafter b hb)

theorem preserves_insert (block : Memblock) : Code.Preserves Ascending (insert block) := by
  refine Code.preserves_get_bind fun data _ t hasc h => ?_
  simp only at h
  have hlo : (data.lower block).Ascending := hasc.sublist (List.takeWhile_sublist _)
  have hhi : (data.upper block).Ascending := hasc.sublist (List.dropWhile_sublist _)
  split at h
  · cases h; exact hasc
  · rename_i hne
    have hafter := lt_upper hasc hne
    have htail : ∀ b ∈ (data.upper block).tail, block.base.value < b.base.value :=
      fun b hb => hafter b (List.mem_of_mem_tail hb)
    obtain ⟨o, s₁, hprev, h⟩ := Code.bind_eq_ok.mp h
    obtain rfl : data = s₁ := preserves_mergePrev (I := (data = ·)) _ _ _ _ _ rfl hprev
    obtain ⟨o', s₂, hnext, h⟩ := Code.bind_eq_ok.mp h
    obtain rfl : data = s₂ := preserves_mergeNext (I := (data = ·)) _ _ _ _ _ rfl hnext
    cases o with
    | none =>
        cases o' with
        | none =>
            simp only at h
            split at h
            · cases h; exact hlo.splice hhi lower_lt hafter
            · cases h
        | some next =>
            obtain ⟨size, _, hadd, h⟩ := Code.bind_eq_ok.mp h
            cases h
            exact hlo.splice hhi.tail lower_lt htail
    | some prev =>
        cases o' with
        | none =>
            obtain ⟨size, _, -, h⟩ := Code.bind_eq_ok.mp h
            cases h
            exact hasc.splice_prev (mergePrev_eq_some hprev) hhi hafter size
        | some next =>
            obtain ⟨_, _, -, h⟩ := Code.bind_eq_ok.mp h
            obtain ⟨size, _, -, h⟩ := Code.bind_eq_ok.mp h
            cases h
            exact hasc.splice_prev (mergePrev_eq_some hprev) hhi.tail htail size

theorem preserves_pop : Code.Preserves Ascending pop := fun _ _ _ hs h => by
  cases h
  exact hs.sublist (List.dropLast_sublist _)

/-! ## What `insert` builds -/

/-- Sorted, and no block is empty, overlaps another or touches it. -/
abbrev Spaced (data : Memblocks) : Prop := Spans.Spaced (fun b => b.base.value) Memblock.stop data

/-- The byte `x` lies in one of the blocks. -/
abbrev Covers (data : Memblocks) (x : ℕ) : Prop :=
  Spans.Covers (fun b => b.base.value) Memblock.stop data x

@[simp] theorem covers_cons {b : Memblock} {x : ℕ} :
    Covers (b :: data) x ↔ b.Contains x ∨ data.Covers x := Spans.covers_cons

theorem covers_singleton {b : Memblock} {x : ℕ} : Covers [b] x ↔ b.Contains x :=
  covers_cons.trans (or_iff_left Spans.covers_nil)

@[simp] theorem covers_append {lo hi : Memblocks} {x : ℕ} :
    Covers (lo ++ hi) x ↔ lo.Covers x ∨ hi.Covers x := Spans.covers_append

theorem Spaced.ascending (h : data.Spaced) : data.Ascending := by
  refine h.gap.imp_of_mem fun {a b} ha _ hlt => ?_
  exact (h.lt a ha).trans hlt

/-- The block that `block` is appended to. -/
def prevOf (data : Memblocks) (block : Memblock) : Option Memblock :=
  (data.lower block).getLast?.filter fun prev => prev.stop == block.base.value

/-- The block that `block` is put in front of. -/
def nextOf (data : Memblocks) (block : Memblock) : Option Memblock :=
  (data.upper block).head?.filter fun next => block.stop == next.base.value

/-- The list with `block` merged in. -/
def joined (data : Memblocks) (block : Memblock) : Memblocks :=
  let lo := data.lower block
  let hi := data.upper block
  match data.prevOf block, data.nextOf block with
  | none, none => lo ++ block :: hi
  | none, some next =>
      lo ++ { next with base := block.base, size := next.size + block.size } :: hi.tail
  | some prev, none => lo.dropLast ++ { prev with size := prev.size + block.size } :: hi
  | some prev, some next =>
      lo.dropLast ++ { prev with size := prev.size + (next.size + block.size) } :: hi.tail

theorem lower_append_upper (data : Memblocks) (block : Memblock) :
    data.lower block ++ data.upper block = data :=
  List.takeWhile_append_dropWhile

section Neighbours

variable {p n : Memblock}

theorem prevOf_eq_some (h : data.prevOf block = some p) :
    (data.lower block).dropLast ++ [p] = data.lower block ∧ p.stop = block.base.value := by
  obtain ⟨hlast, hstop⟩ := Option.filter_eq_some_iff.mp h
  exact ⟨List.dropLast_append_getLast? p hlast, beq_iff_eq.mp hstop⟩

theorem nextOf_eq_some (h : data.nextOf block = some n) :
    n :: (data.upper block).tail = data.upper block ∧ block.stop = n.base.value := by
  obtain ⟨hhead, hstop⟩ := Option.filter_eq_some_iff.mp h
  exact ⟨List.cons_head?_tail hhead, beq_iff_eq.mp hstop⟩

theorem prevOf_mem (h : data.prevOf block = some p) : p ∈ data := by
  have hmem : p ∈ data.lower block := by
    rw [← (prevOf_eq_some h).1]
    exact List.mem_append_right _ (List.mem_singleton_self p)
  exact (List.takeWhile_sublist _).subset hmem

theorem nextOf_mem (h : data.nextOf block = some n) : n ∈ data := by
  have hmem : n ∈ data.upper block := by
    rw [← (nextOf_eq_some h).1]
    exact List.mem_cons_self
  exact (List.dropWhile_sublist _).subset hmem

/-- The neighbours that are merged with the block. -/
def neighbours (data : Memblocks) (block : Memblock) : Memblocks :=
  (data.prevOf block).toList ++ (data.nextOf block).toList

/-- What `joined` does to the list: the block and the neighbours it touches become `c`, and the
rest stays. -/
structure Merges (data : Memblocks) (block : Memblock) (lo : Memblocks) (c : Memblock)
    (hi : Memblocks) : Prop where
  joined_eq : data.joined block = lo ++ c :: hi
  lower_eq : lo ++ (data.prevOf block).toList = data.lower block
  upper_eq : (data.nextOf block).toList ++ hi = data.upper block
  base_eq : c.base = ((data.prevOf block).getD block).base
  stop_eq : c.stop = ((data.nextOf block).getD block).stop
  typ_eq : c.typ = ((data.prevOf block).getD ((data.nextOf block).getD block)).typ

theorem exists_merges (data : Memblocks) (block : Memblock) :
    ∃ lo c hi, data.Merges block lo c hi := by
  cases hp : data.prevOf block with
  | none =>
      cases hn : data.nextOf block with
      | none =>
          refine ⟨data.lower block, block, data.upper block, ?_, ?_, ?_, ?_, ?_, ?_⟩ <;>
            simp [joined, hp, hn]
      | some n =>
          obtain ⟨hup, hmeet⟩ := nextOf_eq_some hn
          refine ⟨data.lower block, ⟨block.base, n.size + block.size, n.typ⟩,
            (data.upper block).tail, ?_, ?_, ?_, ?_, ?_, ?_⟩ <;> simp [joined, hp, hn, hup]
          simp only [Memblock.stop] at hmeet ⊢
          omega
  | some p =>
      obtain ⟨hlow, hmeet⟩ := prevOf_eq_some hp
      cases hn : data.nextOf block with
      | none =>
          refine ⟨(data.lower block).dropLast, ⟨p.base, p.size + block.size, p.typ⟩,
            data.upper block, ?_, ?_, ?_, ?_, ?_, ?_⟩ <;> simp [joined, hp, hn, hlow]
          simp only [Memblock.stop] at hmeet ⊢
          omega
      | some n =>
          obtain ⟨hup, hmeet'⟩ := nextOf_eq_some hn
          refine ⟨(data.lower block).dropLast, ⟨p.base, p.size + (n.size + block.size), p.typ⟩,
            (data.upper block).tail, ?_, ?_, ?_, ?_, ?_, ?_⟩ <;> simp [joined, hp, hn, hlow, hup]
          simp only [Memblock.stop] at hmeet hmeet' ⊢
          omega

section Merged

variable {lo hi : Memblocks} {c : Memblock} (hm : data.Merges block lo c hi)
include hm

theorem Merges.data_eq : lo ++ (data.neighbours block ++ hi) = data := by
  rw [neighbours, List.append_assoc, ← List.append_assoc, hm.lower_eq, hm.upper_eq,
    lower_append_upper]

theorem Merges.mem {b : Memblock} (hb : b ∈ data.joined block) : b = c ∨ b ∈ data := by
  rw [hm.joined_eq] at hb
  rcases List.mem_append.mp hb with hb | hb
  · refine .inr ?_
    rw [← hm.data_eq]
    exact List.mem_append_left _ hb
  · refine (List.mem_cons.mp hb).imp_right fun hb => ?_
    rw [← hm.data_eq]
    exact List.mem_append_right _ (List.mem_append_right _ hb)

end Merged

end Neighbours

section Run

variable {σ : Type} {s t : σ} {a b : Memblock}

theorem meets_eq_ok {r : Bool} (hb : b.base.value < Usize.modulus)
    (h : (meets a b).run s = .ok r t) : r = (a.stop == b.base.value) ∧ s = t := by
  obtain ⟨_, _, ha, h⟩ := Code.bind_eq_ok.mp h
  obtain ⟨hle, rfl⟩ := Code.assert_eq_ok.mp ha
  obtain ⟨d, _, hd, h⟩ := Code.bind_eq_ok.mp h
  have hle : a.base.value ≤ b.base.value := of_decide_eq_true hle
  obtain ⟨hval, rfl⟩ := Addr.addrSub_eq_ok hd hle hb
  cases h
  refine ⟨?_, rfl⟩
  rw [hval, Bool.eq_iff_iff, beq_iff_eq, beq_iff_eq, Memblock.stop]
  omega

theorem meets_run (hle : a.base ≤ b.base) (hb : b.base.value < 2 ^ 63) (s : σ) :
    (meets a b).run s = .ok (a.stop == b.base.value) s := by
  have hsub : ∃ r, (meets a b).run s = .ok r s := by
    rw [meets, Code.bind_ok (Code.assert_of (decide_eq_true hle) _ s),
      Code.bind_ok (Addr.addrSub_of_le hle hb s)]
    exact ⟨_, rfl⟩
  obtain ⟨r, hr⟩ := hsub
  rw [hr, (meets_eq_ok (hb.trans (by decide)) hr).1]

theorem mergePrev_eq_ok {o : Option Memblock} (hb : block.base.value < Usize.modulus)
    (h : (data.mergePrev block).run s = .ok o t) : o = data.prevOf block ∧ s = t := by
  unfold mergePrev at h
  rw [prevOf]
  cases hl : (data.lower block).getLast? with
  | none => rw [hl] at h; cases h; exact ⟨rfl, rfl⟩
  | some p =>
      rw [hl] at h
      obtain ⟨r, _, hm, h⟩ := Code.bind_eq_ok.mp h
      obtain ⟨rfl, rfl⟩ := meets_eq_ok hb hm
      rw [Option.filter_some]
      split at h <;> cases h <;> simp_all

theorem mergePrev_run (hb : block.base.value < 2 ^ 63) (s : σ) :
    (data.mergePrev block).run s = .ok (data.prevOf block) s := by
  unfold mergePrev
  rw [prevOf]
  cases hl : (data.lower block).getLast? with
  | none => rfl
  | some p =>
      have hle : p.base ≤ block.base := (lower_lt p (List.mem_of_getLast? hl)).le
      simp only
      rw [Code.bind_ok (meets_run hle hb s), Option.filter_some]
      split <;> rfl

theorem mergeNext_run (hdata : ∀ b ∈ data, b.base.value < 2 ^ 63) (s : σ) :
    (data.mergeNext block).run s = .ok (data.nextOf block) s := by
  unfold mergeNext
  rw [nextOf]
  cases hl : (data.upper block).head? with
  | none => rfl
  | some n =>
      have hn : n ∈ data := (List.dropWhile_sublist _).subset (List.mem_of_head? hl)
      have hle : block.base ≤ n.base := le_upper_of_head hl
      simp only
      rw [Code.bind_ok (meets_run hle (hdata n hn) s), Option.filter_some]
      split <;> rfl

theorem mergeNext_eq_ok {o : Option Memblock} (hdata : ∀ b ∈ data, b.base.value < Usize.modulus)
    (h : (data.mergeNext block).run s = .ok o t) : o = data.nextOf block ∧ s = t := by
  unfold mergeNext at h
  rw [nextOf]
  cases hl : (data.upper block).head? with
  | none => rw [hl] at h; cases h; exact ⟨rfl, rfl⟩
  | some n =>
      have hn : n ∈ data := (List.dropWhile_sublist _).subset (List.mem_of_head? hl)
      rw [hl] at h
      obtain ⟨r, _, hm, h⟩ := Code.bind_eq_ok.mp h
      obtain ⟨rfl, rfl⟩ := meets_eq_ok (hdata n hn) hm
      rw [Option.filter_some]
      split at h <;> cases h <;> simp_all

end Run

/-- A call of `insert` that returns: a block starts at the same address, or the block is merged
in. -/
theorem insert_eq_ok {r : Bool} {t : Memblocks} (hb : block.base.value < Usize.modulus)
    (hdata : ∀ b ∈ data, b.base.value < Usize.modulus) (h : (insert block).run data = .ok r t) :
    (data.upper block).head?.map Memblock.base = some block.base ∧ r = false ∧ t = data ∨
      (data.upper block).head?.map Memblock.base ≠ some block.base ∧ r = true ∧
        t = data.joined block := by
  rw [insert, Code.get_bind] at h
  simp only at h
  split at h
  · rename_i he
    cases h
    exact .inl ⟨he, rfl, rfl⟩
  · rename_i hne
    refine .inr ⟨hne, ?_⟩
    obtain ⟨o, _, hprev, h⟩ := Code.bind_eq_ok.mp h
    obtain ⟨rfl, rfl⟩ := mergePrev_eq_ok hb hprev
    obtain ⟨o', _, hnext, h⟩ := Code.bind_eq_ok.mp h
    obtain ⟨rfl, rfl⟩ := mergeNext_eq_ok hdata hnext
    unfold joined
    cases hp : data.prevOf block with
    | none =>
        cases hn : data.nextOf block with
        | none =>
            rw [hp, hn] at h
            simp only at h
            split at h
            · cases h; exact ⟨rfl, rfl⟩
            · cases h
        | some next =>
            rw [hp, hn] at h
            obtain ⟨size, _, hadd, h⟩ := Code.bind_eq_ok.mp h
            obtain ⟨-, rfl, rfl⟩ := Usize.add_eq_ok.mp hadd
            cases h; exact ⟨rfl, rfl⟩
    | some prev =>
        cases hn : data.nextOf block with
        | none =>
            rw [hp, hn] at h
            obtain ⟨size, _, hadd, h⟩ := Code.bind_eq_ok.mp h
            obtain ⟨-, rfl, rfl⟩ := Usize.add_eq_ok.mp hadd
            cases h; exact ⟨rfl, rfl⟩
        | some next =>
            rw [hp, hn] at h
            obtain ⟨_, _, hadd, h⟩ := Code.bind_eq_ok.mp h
            obtain ⟨-, rfl, rfl⟩ := Usize.add_eq_ok.mp hadd
            obtain ⟨_, _, hadd, h⟩ := Code.bind_eq_ok.mp h
            obtain ⟨-, rfl, rfl⟩ := Usize.add_eq_ok.mp hadd
            cases h; exact ⟨rfl, rfl⟩

/-- `insert` returns while there is room for one block more. -/
theorem insert_run (block : Memblock) (hroom : data.length < memblocksLen)
    (hb : block.base.value < 2 ^ 63)
    (hstop : block.stop < Usize.modulus)
    (hdata : ∀ b ∈ data, b.base.value < 2 ^ 63 ∧ b.stop < Usize.modulus) :
    ∃ r t, (insert block).run data = .ok r t := by
  rw [insert, Code.get_bind]
  simp only
  split
  · exact ⟨_, _, rfl⟩
  · rw [Code.bind_ok (mergePrev_run hb data),
      Code.bind_ok (mergeNext_run (fun b hb => (hdata b hb).1) data)]
    cases hp : data.prevOf block with
    | none =>
        cases hn : data.nextOf block with
        | none => exact ⟨_, _, by simp only; rfl⟩
        | some next =>
            have hfit : next.size + block.size < Usize.modulus := by
              have := (hdata next (nextOf_mem hn)).2
              have := (nextOf_eq_some hn).2
              simp only [Memblock.stop] at *; omega
            exact ⟨_, _, by simp only; rw [Code.bind_ok (Usize.add_of_lt hfit _)]; rfl⟩
    | some prev =>
        cases hn : data.nextOf block with
        | none =>
            have hfit : prev.size + block.size < Usize.modulus := by
              have := (prevOf_eq_some hp).2
              simp only [Memblock.stop] at *; omega
            exact ⟨_, _, by simp only; rw [Code.bind_ok (Usize.add_of_lt hfit _)]; rfl⟩
        | some next =>
            have hfit : prev.size + (next.size + block.size) < Usize.modulus := by
              have := (hdata next (nextOf_mem hn)).2
              have := (nextOf_eq_some hn).2
              have := (prevOf_eq_some hp).2
              simp only [Memblock.stop] at *; omega
            have hfit' : next.size + block.size < Usize.modulus := by omega
            exact ⟨_, _, by
              simp only
              rw [Code.bind_ok (Usize.add_of_lt hfit' _), Code.bind_ok (Usize.add_of_lt hfit _)]
              rfl⟩

/-! ### A block that overlaps nothing -/

section Apart

variable {p n : Memblock}

/-- The block overlaps none of the list: it lies between the two parts. -/
structure Apart (data : Memblocks) (block : Memblock) : Prop where
  before : ∀ a ∈ data.lower block, a.stop ≤ block.base.value
  after : ∀ b ∈ data.upper block, block.stop ≤ b.base.value

theorem Apart.lower_lt (hap : data.Apart block) (hs : data.Spaced)
    (h : data.prevOf block = none) : ∀ a ∈ data.lower block, a.stop < block.base.value := by
  intro a ha
  cases hl : (data.lower block).getLast? with
  | none => rw [List.getLast?_eq_none_iff.mp hl] at ha; exact absurd ha List.not_mem_nil
  | some q =>
      rw [prevOf, hl, Option.filter_some] at h
      have hq : q.stop < block.base.value :=
        lt_of_le_of_ne (hap.before q (List.mem_of_getLast? hl)) fun he => by simp [he] at h
      -- every other block ends before the last one begins
      have hlo := hs.gap.sublist (List.takeWhile_sublist fun b => decide (b.base < block.base))
      rw [← lower, ← List.dropLast_append_getLast? q hl] at hlo
      rw [← List.dropLast_append_getLast? q hl] at ha
      rcases List.mem_append.mp ha with ha | ha
      · have hgap := (List.pairwise_append.mp hlo).2.2 a ha q (List.mem_singleton_self q)
        have hlt := Memblocks.lower_lt q (List.mem_of_getLast? hl)
        exact hgap.trans hlt
      · rw [List.mem_singleton.mp ha]
        exact hq

theorem Apart.lt_upper (hap : data.Apart block) (hs : data.Spaced)
    (h : data.nextOf block = none) : ∀ b ∈ data.upper block, block.stop < b.base.value := by
  intro b hb
  cases hu : data.upper block with
  | nil => rw [hu] at hb; exact absurd hb List.not_mem_nil
  | cons c rest =>
      have hmem : c ∈ data.upper block := by rw [hu]; exact List.mem_cons_self
      rw [nextOf, hu, List.head?_cons, Option.filter_some] at h
      have hc : block.stop < c.base.value :=
        lt_of_le_of_ne (hap.after c hmem) fun he => by simp [he] at h
      have hhi :=
        hs.ascending.sublist (List.dropWhile_sublist fun b => decide (b.base < block.base))
      rw [← upper, hu] at hhi
      rw [hu] at hb
      rcases List.mem_cons.mp hb with rfl | hb
      · exact hc
      · exact hc.trans (List.rel_of_pairwise_cons hhi hb)

/-- `block` has been merged into `data`. -/
structure Joins (data : Memblocks) (block : Memblock) (data' : Memblocks) : Prop where
  spaced : data'.Spaced
  covers_iff : ∀ x, data'.Covers x ↔ data.Covers x ∨ block.Contains x

theorem Joins.splice {lo hi : Memblocks} {b : Memblock} (hlo : lo.Spaced) (hhi : hi.Spaced)
    (hb : b.base.value < b.stop) (hbefore : ∀ a ∈ lo, a.stop < b.base.value)
    (hafter : ∀ c ∈ hi, b.stop < c.base.value)
    (hcov : ∀ x, lo.Covers x ∨ b.Contains x ∨ hi.Covers x ↔ data.Covers x ∨ block.Contains x) :
    data.Joins block (lo ++ b :: hi) := by
  refine ⟨Spans.Spaced.splice hlo hhi hb hbefore hafter, fun x => ?_⟩
  rw [← hcov, covers_append, covers_cons]

/-- Of the blocks below, those of `lo` stay; the rest reaches from `start` up to the block. -/
structure MergesBelow (data : Memblocks) (block : Memblock) (lo : Memblocks) (start : ℕ) :
    Prop where
  spaced : lo.Spaced
  before : ∀ a ∈ lo, a.stop < start
  start_le : start ≤ block.base.value
  covers_iff : ∀ x, (data.lower block).Covers x ↔
    lo.Covers x ∨ (start ≤ x ∧ x < block.base.value)

/-- Of the blocks above, those of `hi` stay; the rest reaches from the block up to `stop`. -/
structure MergesAbove (data : Memblocks) (block : Memblock) (hi : Memblocks) (stop : ℕ) :
    Prop where
  spaced : hi.Spaced
  after : ∀ b ∈ hi, stop < b.base.value
  le_stop : block.stop ≤ stop
  covers_iff : ∀ x, (data.upper block).Covers x ↔ (block.stop ≤ x ∧ x < stop) ∨ hi.Covers x

theorem MergesBelow.of_none (hap : data.Apart block) (hs : data.Spaced)
    (hlo : (data.lower block).Spaced) (h : data.prevOf block = none) :
    data.MergesBelow block (data.lower block) block.base.value where
  spaced := hlo
  before := hap.lower_lt hs h
  start_le := Nat.le_refl _
  covers_iff x := by
    refine (or_iff_left ?_).symm
    omega

theorem MergesBelow.of_some {lo : Memblocks} (hlow : lo ++ [p] = data.lower block)
    (hlo : (data.lower block).Spaced) (hmeet : p.stop = block.base.value) :
    data.MergesBelow block lo p.base.value := by
  rw [← hlow] at hlo
  obtain ⟨hinit, hlast, hgap⟩ := Spans.spaced_append.mp hlo
  have hlt : p.base.value < p.stop := hlast.lt p (List.mem_singleton_self p)
  refine ⟨hinit, fun a ha => hgap a ha p (List.mem_singleton_self p), by omega, fun x => ?_⟩
  rw [← hlow, covers_append, covers_singleton, ← hmeet]
  rfl

theorem MergesAbove.of_none (hap : data.Apart block) (hs : data.Spaced)
    (hhi : (data.upper block).Spaced) (h : data.nextOf block = none) :
    data.MergesAbove block (data.upper block) block.stop where
  spaced := hhi
  after := hap.lt_upper hs h
  le_stop := Nat.le_refl _
  covers_iff x := by
    refine (or_iff_right ?_).symm
    omega

theorem MergesAbove.of_some {hi : Memblocks} (hup : n :: hi = data.upper block)
    (hhi : (data.upper block).Spaced) (hmeet : block.stop = n.base.value) :
    data.MergesAbove block hi n.stop := by
  rw [← hup] at hhi
  obtain ⟨hlt, hgap, hrest⟩ := Spans.spaced_cons.mp hhi
  refine ⟨hrest, hgap, by omega, fun x => ?_⟩
  rw [← hup, covers_cons, hmeet]
  rfl

/-- What stays below, one block for the rest, and what stays above. -/
theorem Joins.of_parts {lo hi : Memblocks} {start stop : ℕ} {b : Memblock}
    (hbelow : data.MergesBelow block lo start) (habove : data.MergesAbove block hi stop)
    (hpos : 0 < block.size) (hbase : b.base.value = start) (hstop : b.stop = stop) :
    data.Joins block (lo ++ b :: hi) := by
  subst hbase hstop
  have hwide : block.base.value < block.stop := Nat.lt_add_of_pos_right hpos
  have hle := hbelow.start_le
  have hle' := habove.le_stop
  refine .splice hbelow.spaced habove.spaced (by omega) hbelow.before habove.after fun x => ?_
  have hmid : b.Contains x ↔ (b.base.value ≤ x ∧ x < block.base.value) ∨ block.Contains x ∨
      (block.stop ≤ x ∧ x < b.stop) := by
    simp only [Memblock.Contains, Memblock.stop] at hwide hle' ⊢
    omega
  rw [← lower_append_upper data block, covers_append, hbelow.covers_iff, habove.covers_iff, hmid]
  simp only [or_assoc, or_comm, or_left_comm]

/-- A block that is not empty and overlaps nothing is merged in, with the neighbours it
touches. -/
theorem Apart.joined (hap : data.Apart block) (hs : data.Spaced) (hpos : 0 < block.size) :
    data.Joins block (data.joined block) := by
  have hsplit := hs
  rw [← lower_append_upper data block] at hsplit
  obtain ⟨hlo, hhi, -⟩ := Spans.spaced_append.mp hsplit
  obtain ⟨lo, c, hi, hm⟩ := exists_merges data block
  have hbelow : data.MergesBelow block lo c.base.value := by
    have hlow := hm.lower_eq
    rw [hm.base_eq]
    cases hp : data.prevOf block with
    | none =>
        rw [hp, Option.toList_none, List.append_nil] at hlow
        exact hlow ▸ .of_none hap hs hlo hp
    | some p =>
        rw [hp, Option.toList_some] at hlow
        exact .of_some hlow hlo (prevOf_eq_some hp).2
  have habove : data.MergesAbove block hi c.stop := by
    have hup := hm.upper_eq
    rw [hm.stop_eq]
    cases hn : data.nextOf block with
    | none =>
        rw [hn, Option.toList_none, List.nil_append] at hup
        exact hup ▸ .of_none hap hs hhi hn
    | some n =>
        rw [hn, Option.toList_some] at hup
        exact .of_some hup hhi (nextOf_eq_some hn).2
  rw [hm.joined_eq]
  exact .of_parts hbelow habove hpos rfl rfl

theorem le_upper (h : data.Ascending) :
    ∀ b ∈ data.upper block, block.base.value ≤ b.base.value := by
  intro b hb
  have hasc : (data.upper block).Ascending := h.sublist (List.dropWhile_sublist _)
  cases hup : data.upper block with
  | nil => rw [hup] at hb; exact absurd hb List.not_mem_nil
  | cons c rest =>
      have hle := le_upper_of_head (congrArg List.head? hup)
      rw [hup] at hb hasc
      rcases List.mem_cons.mp hb with rfl | hb
      · exact hle
      · exact hle.trans (List.rel_of_pairwise_cons hasc hb).le

/-- Blocks that share no byte with the list lie between two of its blocks. -/
theorem Apart.of_disjoint (hs : data.Spaced) (hpos : 0 < block.size)
    (hd : ∀ x, data.Covers x → ¬ block.Contains x) : data.Apart block := by
  have hfirst : block.Contains block.base.value := ⟨le_rfl, Nat.lt_add_of_pos_right hpos⟩
  refine ⟨fun a ha => ?_, fun b hb => ?_⟩
  · by_contra hlt
    have hmem : a ∈ data := (List.takeWhile_sublist _).subset ha
    exact hd _ ⟨a, hmem, (Memblocks.lower_lt a ha).le, not_le.mp hlt⟩ hfirst
  · by_contra hlt
    have hmem : b ∈ data := (List.dropWhile_sublist _).subset hb
    exact hd _ ⟨b, hmem, le_rfl, hs.lt b hmem⟩ ⟨le_upper hs.ascending b hb, not_le.mp hlt⟩

theorem Apart.base_ne (hap : data.Apart block) (hpos : 0 < block.size) :
    (data.upper block).head?.map Memblock.base ≠ some block.base := by
  intro he
  obtain ⟨b, hb, hbase⟩ := Option.map_eq_some_iff.mp he
  have hle := hap.after b (List.mem_of_head? hb)
  rw [hbase, Memblock.stop] at hle
  omega

theorem joined_typ {typ : MemTyp} (hdata : ∀ b ∈ data, b.typ = typ) (hb : block.typ = typ) :
    ∀ b ∈ data.joined block, b.typ = typ := by
  obtain ⟨lo, c, hi, hm⟩ := exists_merges data block
  intro b hmem
  rcases hm.mem hmem with rfl | hmem
  · rw [hm.typ_eq]
    cases hp : data.prevOf block with
    | some p => exact hdata p (prevOf_mem hp)
    | none =>
        cases hn : data.nextOf block with
        | some n => exact hdata n (nextOf_mem hn)
        | none => exact hb
  · exact hdata b hmem

theorem joined_length : (data.joined block).length ≤ data.length + 1 := by
  obtain ⟨lo, c, hi, hm⟩ := exists_merges data block
  have hlen := congrArg List.length hm.data_eq
  rw [hm.joined_eq]
  simp only [List.length_append, List.length_cons] at hlen ⊢
  omega

/-- Inserting a block that is not empty and shares no byte with the list. -/
theorem insert_apart {r : Bool} {t : Memblocks} (hs : data.Spaced) (hpos : 0 < block.size)
    (hdata : ∀ b ∈ data, b.stop < Usize.modulus) (hstop : block.stop < Usize.modulus)
    (hd : ∀ x, data.Covers x → ¬ block.Contains x) (h : (insert block).run data = .ok r t) :
    t = data.joined block ∧ data.Joins block t := by
  have hap := Apart.of_disjoint hs hpos hd
  have hb : block.base.value < Usize.modulus := lt_of_le_of_lt (Nat.le_add_right _ _) hstop
  have hbases : ∀ b ∈ data, b.base.value < Usize.modulus := fun b hb =>
    lt_of_le_of_lt (Nat.le_add_right _ _) (hdata b hb)
  rcases insert_eq_ok hb hbases h with ⟨he, -⟩ | ⟨-, -, rfl⟩
  · exact absurd he (hap.base_ne hpos)
  · exact ⟨rfl, hap.joined hs hpos⟩

/-- Inserting a block that is not empty and shares no byte with a spaced list: the list stays
spaced and gets the bytes of the block. -/
theorem insert_spaced (hs : data.Spaced) (hroom : data.length < memblocksLen)
    (hpos : 0 < block.size) (hd : ∀ x, data.Covers x → ¬ block.Contains x)
    (hwords : ∀ b ∈ block :: data, b.base.value < 2 ^ 63 ∧ b.stop < Usize.modulus) :
    ∃ data', (insert block).run data = .ok true data' ∧ data'.Spaced ∧
      ∀ x, data'.Covers x ↔ data.Covers x ∨ block.Contains x := by
  obtain ⟨⟨hbase, hstop⟩, hdata⟩ := List.forall_mem_cons.mp hwords
  have hap := Apart.of_disjoint hs hpos hd
  obtain ⟨r, t, hrun⟩ := insert_run block hroom hbase hstop hdata
  rcases insert_eq_ok (hbase.trans (by decide)) (fun b hb => (hdata b hb).1.trans (by decide)) hrun
    with ⟨he, -⟩ | ⟨-, rfl, rfl⟩
  · exact absurd he (hap.base_ne hpos)
  · have hjoin := hap.joined hs hpos
    exact ⟨_, hrun, hjoin.spaced, hjoin.covers_iff⟩

/-- A page between two others: all three become one block. -/
theorem insert_spaced_between : ∃ data',
    (insert ⟨⟨0x2000⟩, 0x1000, .free⟩).run
        [⟨⟨0x1000⟩, 0x1000, .free⟩, ⟨⟨0x3000⟩, 0x1000, .free⟩] = .ok true data' ∧
      data'.Spaced ∧ data'.Covers 0x2000 := by
  have hs : Spaced [⟨⟨0x1000⟩, 0x1000, .free⟩, ⟨⟨0x3000⟩, 0x1000, .free⟩] :=
    ⟨by decide, by decide⟩
  have hd : ∀ x, Covers [⟨⟨0x1000⟩, 0x1000, .free⟩, ⟨⟨0x3000⟩, 0x1000, .free⟩] x →
      ¬ (⟨⟨0x2000⟩, 0x1000, .free⟩ : Memblock).Contains x := by
    intro x hx hb
    rw [covers_cons, covers_singleton] at hx
    simp only [Memblock.Contains] at hx hb
    omega
  obtain ⟨data', hrun, hspaced, hcovers⟩ :=
    insert_spaced hs (by decide) (by decide) hd (by decide)
  exact ⟨data', hrun, hspaced, (hcovers _).mpr (.inr ⟨by decide, by decide⟩)⟩

end Apart

/-! ### A block with a gap on either side -/

section Between

variable {lo hi : Memblocks}

theorem lower_upper_of_append (hlo : ∀ a ∈ lo, a.base.value < block.base.value)
    (hhi : ∀ b ∈ hi, block.base.value ≤ b.base.value) :
    lower (lo ++ hi) block = lo ∧ upper (lo ++ hi) block = hi := by
  have hbelow : ∀ a ∈ lo, decide (a.base < block.base) = true := fun a ha =>
    decide_eq_true (hlo a ha)
  rw [lower, upper, List.takeWhile_append_of_pos hbelow, List.dropWhile_append_of_pos hbelow]
  cases hi with
  | nil => simp
  | cons b hi =>
      have habove : decide (b.base < block.base) = false :=
        decide_eq_false (not_lt.mpr (hhi b List.mem_cons_self))
      rw [List.takeWhile_cons, List.dropWhile_cons, habove]
      exact ⟨List.append_nil lo, rfl⟩

theorem insert_between {r : Bool} {t : Memblocks} (hb : block.base.value < Usize.modulus)
    (hdata : ∀ b ∈ lo ++ hi, b.base.value < Usize.modulus)
    (hlo : ∀ a ∈ lo, a.stop < block.base.value) (hhi : ∀ b ∈ hi, block.stop < b.base.value)
    (h : (insert block).run (lo ++ hi) = .ok r t) : t = lo ++ block :: hi := by
  have hhi' : ∀ b ∈ hi, block.base.value < b.base.value := fun b hb =>
    lt_of_le_of_lt (Nat.le_add_right _ _) (hhi b hb)
  obtain ⟨hlow, hup⟩ := lower_upper_of_append
    (fun a ha => lt_of_le_of_lt (Nat.le_add_right _ _) (hlo a ha)) fun b hb => (hhi' b hb).le
  rcases insert_eq_ok hb hdata h with ⟨he, -⟩ | ⟨-, -, rfl⟩
  · obtain ⟨b, hb, hbase⟩ := Option.map_eq_some_iff.mp he
    rw [hup] at hb
    exact absurd (hhi' b (List.mem_of_head? hb)) (by rw [hbase]; exact lt_irrefl _)
  · have hprev : prevOf (lo ++ hi) block = none := by
      rw [prevOf, hlow, Option.filter_eq_none_iff]
      intro a ha he
      exact absurd (hlo a (List.mem_of_getLast? ha)) (by rw [beq_iff_eq.mp he]; exact lt_irrefl _)
    have hnext : nextOf (lo ++ hi) block = none := by
      rw [nextOf, hup, Option.filter_eq_none_iff]
      intro b hb he
      exact absurd (hhi b (List.mem_of_head? hb)) (by rw [beq_iff_eq.mp he]; exact lt_irrefl _)
    simp only [joined, hprev, hnext, hlow, hup]

theorem insert_first {r : Bool} {t : Memblocks} (hb : block.base.value < Usize.modulus)
    (hdata : ∀ b ∈ data, b.base.value < Usize.modulus)
    (hlt : ∀ b ∈ data, block.stop < b.base.value) (h : (insert block).run data = .ok r t) :
    t = block :: data := by
  rw [← List.nil_append data] at h hdata
  exact insert_between hb hdata (by simp) hlt h

theorem insert_last {r : Bool} {t : Memblocks} (hb : block.base.value < Usize.modulus)
    (hdata : ∀ b ∈ data, b.base.value < Usize.modulus)
    (hlt : ∀ a ∈ data, a.stop < block.base.value) (h : (insert block).run data = .ok r t) :
    t = data ++ [block] := by
  rw [← List.append_nil data] at h hdata
  exact insert_between hb hdata hlt (by simp) h

/-- A block that starts where another one does is not inserted. -/
theorem insert_again {r : Bool} {t : Memblocks} {b : Memblock}
    (hb : block.base.value < Usize.modulus)
    (hdata : ∀ c ∈ lo ++ b :: hi, c.base.value < Usize.modulus)
    (hasc : Ascending (lo ++ b :: hi)) (hbase : b.base = block.base)
    (h : (insert block).run (lo ++ b :: hi) = .ok r t) : t = lo ++ b :: hi := by
  obtain ⟨-, hcons, hgap⟩ := List.pairwise_append.mp hasc
  obtain ⟨hhead, -⟩ := List.pairwise_cons.mp hcons
  have hup : upper (lo ++ b :: hi) block = b :: hi := by
    refine (lower_upper_of_append (fun a ha => ?_) fun c hc => ?_).2
    · rw [← hbase]; exact hgap a ha b List.mem_cons_self
    · rw [← hbase]
      rcases List.mem_cons.mp hc with rfl | hc
      · exact le_rfl
      · exact (hhead c hc).le
  rcases insert_eq_ok hb hdata h with ⟨-, -, rfl⟩ | ⟨hne, -⟩
  · rfl
  · rw [hup, List.head?_cons, Option.map_some, hbase] at hne
    exact absurd rfl hne

end Between

/-! ### A block that overlaps another

`insert` looks for a block with the same first address and nothing else.  A block that overlaps a
stored one is refused if the two start together, and is stored otherwise. -/

section Overlap

/-- No byte lies in two of the blocks. -/
def Disjoint (data : Memblocks) : Prop :=
  data.Pairwise fun a b => ∀ x, a.Contains x → ¬ b.Contains x

/-- The block only touches them. -/
theorem neighbours_apart {b : Memblock} (hb : b ∈ data.neighbours block) {x : ℕ}
    (hx : b.Contains x) : ¬ block.Contains x := by
  intro hblock
  simp only [Memblock.Contains] at hx hblock
  rcases List.mem_append.mp hb with hb | hb
  · have hmeet := (prevOf_eq_some (Option.mem_toList.mp hb)).2
    simp only [Memblock.stop] at hmeet
    omega
  · have hmeet := (nextOf_eq_some (Option.mem_toList.mp hb)).2
    simp only [Memblock.stop] at hmeet
    omega

theorem Merges.contains_iff {lo hi : Memblocks} {c : Memblock} (hm : data.Merges block lo c hi)
    (x : ℕ) : c.Contains x ↔ block.Contains x ∨ (data.neighbours block).Covers x := by
  have hbelow : c.base.value ≤ block.base.value ∧ (Covers (data.prevOf block).toList x ↔
      c.base.value ≤ x ∧ x < block.base.value) := by
    rw [hm.base_eq]
    cases hp : data.prevOf block with
    | none => exact ⟨le_rfl, iff_of_false Spans.covers_nil (by rw [Option.getD_none]; omega)⟩
    | some p =>
        rw [Option.toList_some, covers_singleton, ← (prevOf_eq_some hp).2]
        exact ⟨Nat.le_add_right _ _, Iff.rfl⟩
  have habove : block.stop ≤ c.stop ∧ (Covers (data.nextOf block).toList x ↔
      block.stop ≤ x ∧ x < c.stop) := by
    rw [hm.stop_eq]
    cases hn : data.nextOf block with
    | none => exact ⟨le_rfl, iff_of_false Spans.covers_nil (by rw [Option.getD_none]; omega)⟩
    | some n =>
        rw [Option.toList_some, covers_singleton, (nextOf_eq_some hn).2]
        exact ⟨Nat.le_add_right _ _, Iff.rfl⟩
  rw [neighbours, covers_append, hbelow.2, habove.2]
  have hle := hbelow.1
  have hle' := habove.1
  simp only [Memblock.Contains, Memblock.stop] at hle' ⊢
  omega

/-- The list stays without an overlap exactly if the block overlaps nothing. -/
theorem joined_disjoint_iff (h : data.Disjoint) :
    (data.joined block).Disjoint ↔ ∀ x, data.Covers x → ¬ block.Contains x := by
  obtain ⟨lo, c, hi, hm⟩ := exists_merges data block
  have hsymm : ∀ {a b : Memblock}, (∀ x, a.Contains x → ¬ b.Contains x) →
      ∀ x, b.Contains x → ¬ a.Contains x := fun hab x hb ha => hab x ha hb
  have hmem : ∀ b, b ∈ data ↔ b ∈ lo ∨ b ∈ data.neighbours block ∨ b ∈ hi := fun b => by
    conv_lhs => rw [← hm.data_eq]
    rw [List.mem_append, List.mem_append]
  rw [Disjoint, ← hm.data_eq] at h
  rw [hm.joined_eq, Disjoint, List.pairwise_middle hsymm, List.pairwise_cons]
  obtain ⟨hlo, hrest, hcross⟩ := List.pairwise_append.mp h
  obtain ⟨hgone, hhi, hcross'⟩ := List.pairwise_append.mp hrest
  constructor
  · rintro ⟨hc, -⟩ x ⟨b, hb, hx⟩ hblock
    have hcx : c.Contains x := (hm.contains_iff x).mpr (.inl hblock)
    rcases (hmem b).mp hb with hb | hb | hb
    · exact hc b (List.mem_append_left _ hb) x hcx hx
    · exact neighbours_apart hb hx hblock
    · exact hc b (List.mem_append_right _ hb) x hcx hx
  · intro hd
    refine ⟨fun b hb x hcx hx => ?_, List.pairwise_append.mpr ⟨hlo, hhi, fun a ha b hb =>
      hcross a ha b (List.mem_append_right _ hb)⟩⟩
    rcases (hm.contains_iff x).mp hcx with hblock | ⟨g, hg, hgx⟩
    · refine hd x ⟨b, (hmem b).mpr ?_, hx⟩ hblock
      exact (List.mem_append.mp hb).imp_right .inr
    · rcases List.mem_append.mp hb with hb | hb
      · exact hcross b hb g (List.mem_append_left _ hg) x hx hgx
      · exact hcross' g hg b hb x hgx hx

/-- What `binary_search` finds: a block with the same first address. -/
theorem head_base_iff (h : data.Ascending) :
    (data.upper block).head?.map Memblock.base = some block.base ↔
      ∃ b ∈ data, b.base = block.base := by
  constructor
  · intro he
    obtain ⟨b, hb, hbase⟩ := Option.map_eq_some_iff.mp he
    exact ⟨b, (List.dropWhile_sublist _).subset (List.mem_of_head? hb), hbase⟩
  · rintro ⟨b, hb, hbase⟩
    by_contra hne
    rw [← lower_append_upper data block] at hb
    have hvalue := congrArg Addr.value hbase
    rcases List.mem_append.mp hb with hb | hb
    · exact absurd (lower_lt b hb) (by omega)
    · exact absurd (lt_upper h hne b hb) (by omega)

theorem insert_same (block : Memblock)
    (h : (data.upper block).head?.map Memblock.base = some block.base) :
    (insert block).run data = .ok false data := by
  rw [insert, Code.get_bind]
  simp only
  rw [if_pos h]
  rfl

/-- The blocks that leave the list without an overlap: those that start where a stored one does,
and those that overlap none. -/
def Admits (data : Memblocks) (block : Memblock) : Prop :=
  (∃ b ∈ data, b.base = block.base) ∨ ∀ x, data.Covers x → ¬ block.Contains x

/-- A call of `insert` with an admitted block. -/
def Inserted (data data' : Memblocks) : Prop :=
  ∃ block r, block.base.value < Usize.modulus ∧ data.Admits block ∧
    (insert block).run data = .ok r data'

/-- What the calls keep. -/
structure Sound (data : Memblocks) : Prop where
  words : ∀ b ∈ data, b.base.value < Usize.modulus
  ascending : data.Ascending
  disjoint : data.Disjoint

theorem Sound.insert_disjoint_iff (h : data.Sound) (hb : block.base.value < Usize.modulus)
    {r : Bool} {t : Memblocks} (hrun : (insert block).run data = .ok r t) :
    t.Disjoint ↔ data.Admits block := by
  rw [Admits, ← head_base_iff h.ascending]
  rcases insert_eq_ok hb h.words hrun with ⟨he, -, rfl⟩ | ⟨hne, -, rfl⟩
  · exact iff_of_true h.disjoint (.inl he)
  · rw [joined_disjoint_iff h.disjoint, or_iff_right hne]

theorem Sound.inserted {data' : Memblocks} (h : data.Sound) (hstep : Inserted data data') :
    data'.Sound := by
  obtain ⟨block, r, hb, hadmits, hrun⟩ := hstep
  refine ⟨?_, preserves_insert block _ _ _ h.ascending hrun,
    (h.insert_disjoint_iff hb hrun).mpr hadmits⟩
  rcases insert_eq_ok hb h.words hrun with ⟨-, -, rfl⟩ | ⟨-, -, rfl⟩
  · exact h.words
  obtain ⟨lo, c, hi, hm⟩ := exists_merges data block
  intro b hmem
  rcases hm.mem hmem with rfl | hmem
  · rw [hm.base_eq]
    cases hp : data.prevOf block with
    | none => exact hb
    | some p => exact h.words p (prevOf_mem hp)
  · exact h.words b hmem

/-- A block that overlaps a stored one is refused exactly if one starts at the same address; the
list is left without an overlap by the admitted blocks and by no other, so it stays without one
while all blocks are admitted. -/
theorem insert_refuses_iff (hwords : ∀ b ∈ data, b.base.value < Usize.modulus)
    (hasc : data.Ascending) (hdis : data.Disjoint) :
    (∀ block : Memblock, block.base.value < Usize.modulus →
      (∃ x, data.Covers x ∧ block.Contains x) →
      ((insert block).run data = .ok false data ↔ ∃ b ∈ data, b.base = block.base)) ∧
    (∀ (block : Memblock) (r : Bool) (t : Memblocks), block.base.value < Usize.modulus →
      (insert block).run data = .ok r t → (t.Disjoint ↔ data.Admits block)) ∧
    ∀ data', Relation.ReflTransGen Inserted data data' → data'.Ascending ∧ data'.Disjoint := by
  have h : data.Sound := ⟨hwords, hasc, hdis⟩
  refine ⟨fun block hb _ => ?_, fun block r t hb hrun => h.insert_disjoint_iff hb hrun,
    fun data' hrun => ?_⟩
  · rw [← head_base_iff hasc]
    constructor
    · intro hrun
      rcases insert_eq_ok hb hwords hrun with ⟨he, -⟩ | ⟨-, hr, -⟩
      · exact he
      · cases hr
    · exact insert_same block
  · have hsound : data'.Sound := by
      induction hrun with
      | refl => exact h
      | tail _ hstep ih => exact ih.inserted hstep
    exact ⟨hsound.ascending, hsound.disjoint⟩

theorem insert_refuses_twice :
    (insert ⟨⟨0x1000⟩, 0x2000, .free⟩).run [⟨⟨0x1000⟩, 0x1000, .free⟩]
      = .ok false [⟨⟨0x1000⟩, 0x1000, .free⟩] := by
  have hwords : ∀ b ∈ ([⟨⟨0x1000⟩, 0x1000, .free⟩] : Memblocks), b.base.value < Usize.modulus := by
    decide
  exact ((insert_refuses_iff hwords (by decide) (List.pairwise_singleton _ _)).1
    ⟨⟨0x1000⟩, 0x2000, .free⟩ (by decide)
    ⟨0x1000, covers_singleton.mpr ⟨by decide, by decide⟩, ⟨by decide, by decide⟩⟩).mpr
    ⟨_, List.mem_singleton_self _, rfl⟩

/-- Two pages from `0x2000` on, inserted next to two from `0x1000` on: both are stored, and share
the page in the middle. -/
theorem insert_overlapping :
    (insert ⟨⟨0x2000⟩, 0x2000, .free⟩).run [⟨⟨0x1000⟩, 0x2000, .free⟩]
        = .ok true [⟨⟨0x1000⟩, 0x2000, .free⟩, ⟨⟨0x2000⟩, 0x2000, .free⟩] ∧
      (⟨⟨0x1000⟩, 0x2000, .free⟩ : Memblock).Contains 0x2000 ∧
      (⟨⟨0x2000⟩, 0x2000, .free⟩ : Memblock).Contains 0x2000 :=
  ⟨by decide, ⟨by decide, by decide⟩, ⟨by decide, by decide⟩⟩

end Overlap

end Memblocks

end Koe
