/-
# `KoeOs.Lib.RingBuffer` — a bounded queue, by its laws

A queue between a producer and a consumer, written by somebody else.  Its state `R` is not
known; what is known of its operations is what its documentation says:

    iter        what is in the queue, the oldest element first
    tryPush     appends, or drops the element if the queue is full
    tryPop      takes the oldest element, if there is one

`Trace` keeps the books: which elements were offered, which of them found room, and which
were taken.  A bounded list has the laws, so they are consistent.
-/
import Mathlib.Data.Nat.Notation
import Mathlib.Tactic.Common

namespace Koe

structure RingBuffer (R α : Type) where
  new : ℕ → R
  capacity : R → ℕ
  iter : R → List α
  tryPush : α → R → Except α Unit × R
  tryPop : R → Option α × R

namespace RingBuffer

variable {R α : Type} {ops : RingBuffer R α}

structure Lawful (ops : RingBuffer R α) : Prop where
  capacity_new : ∀ {n}, 0 < n → ops.capacity (ops.new n) = n
  capacity_push : ∀ a r, ops.capacity (ops.tryPush a r).2 = ops.capacity r
  capacity_pop : ∀ r, ops.capacity (ops.tryPop r).2 = ops.capacity r
  new : ∀ {n}, 0 < n → ops.iter (ops.new n) = []
  push : ∀ a {r}, (ops.iter r).length < ops.capacity r →
    ops.iter (ops.tryPush a r).2 = ops.iter r ++ [a]
  full : ∀ a {r}, ops.capacity r ≤ (ops.iter r).length →
    ops.iter (ops.tryPush a r).2 = ops.iter r
  pop : ∀ {a as r}, ops.iter r = a :: as →
    (ops.tryPop r).1 = some a ∧ ops.iter (ops.tryPop r).2 = as
  empty : ∀ {r}, ops.iter r = [] → (ops.tryPop r).1 = none ∧ ops.iter (ops.tryPop r).2 = []

/-! ## What went through a queue -/

/-- The elements that found room, of elements with whether there was any. -/
def kept (offered : List (α × Bool)) : List α := (offered.filter (·.2)).map (·.1)

@[simp] theorem kept_append (offered offered' : List (α × Bool)) :
    kept (offered ++ offered') = kept offered ++ kept offered' := by
  simp [kept]

theorem kept_map_true (as : List α) : kept (as.map (·, true)) = as := by
  induction as with
  | nil => rfl
  | cons a as ih => exact congrArg (a :: ·) ih

theorem mem_offered_of_kept {offered : List (α × Bool)} {a : α} (h : a ∈ kept offered) :
    ∃ room, (a, room) ∈ offered := by
  obtain ⟨⟨b, room⟩, hmem, rfl⟩ := List.mem_map.mp h
  exact ⟨room, (List.mem_filter.mp hmem).1⟩

/-- Of the elements `offered` to a queue of capacity `n`, those that found room are the `popped`
ones, and then those in the queue. -/
structure Trace (ops : RingBuffer R α) (n : ℕ) (r : R) (offered : List (α × Bool))
    (popped : List α) : Prop where
  capacity : ops.capacity r = n
  le : (ops.iter r).length ≤ n
  order : popped ++ ops.iter r = kept offered

namespace Trace

variable {n : ℕ} {r : R} {offered : List (α × Bool)} {popped : List α}

theorem new (h : ops.Lawful) (hn : 0 < n) : Trace ops n (ops.new n) [] [] where
  capacity := h.capacity_new hn
  le := by rw [h.new hn]; exact Nat.zero_le n
  order := h.new hn

theorem push (ht : Trace ops n r offered popped) (h : ops.Lawful) (a : α) :
    Trace ops n (ops.tryPush a r).2
      (offered ++ [(a, decide ((ops.iter r).length < ops.capacity r))]) popped := by
  have hcapacity := ht.capacity
  refine ⟨(h.capacity_push a r).trans hcapacity, ?_, ?_⟩
  · by_cases hroom : (ops.iter r).length < ops.capacity r
    · rw [h.push a hroom, List.length_append, List.length_singleton]
      omega
    · rw [h.full a (Nat.le_of_not_lt hroom)]
      exact ht.le
  · by_cases hroom : (ops.iter r).length < ops.capacity r
    · rw [h.push a hroom, ← List.append_assoc, ht.order, decide_eq_true hroom, kept_append]
      rfl
    · rw [h.full a (Nat.le_of_not_lt hroom), ht.order, decide_eq_false hroom, kept_append]
      exact (List.append_nil _).symm

theorem pop (ht : Trace ops n r offered popped) (h : ops.Lawful) :
    Trace ops n (ops.tryPop r).2 offered (popped ++ (ops.tryPop r).1.toList) := by
  have hle := ht.le
  have horder := ht.order
  cases hiter : ops.iter r with
  | nil =>
    obtain ⟨hnone, hnil⟩ := h.empty hiter
    refine ⟨(h.capacity_pop r).trans ht.capacity, by rw [hnil]; exact Nat.zero_le n, ?_⟩
    rw [hnone, hnil, ← horder, hiter]
    simp
  | cons a as =>
    obtain ⟨hsome, hrest⟩ := h.pop hiter
    rw [hiter, List.length_cons] at hle
    refine ⟨(h.capacity_pop r).trans ht.capacity, by rw [hrest]; omega, ?_⟩
    rw [hsome, hrest, ← horder, hiter]
    simp

end Trace

/-! ## A bounded list -/

/-- The elements, and the capacity. -/
def bounded (α : Type) : RingBuffer (List α × ℕ) α where
  new n := ([], n)
  capacity r := r.2
  iter r := r.1
  tryPush a r := if r.1.length < r.2 then (.ok (), (r.1 ++ [a], r.2)) else (.error a, r)
  tryPop r := (r.1.head?, (r.1.tail, r.2))

theorem bounded_lawful (α : Type) : (bounded α).Lawful where
  capacity_new _ := rfl
  capacity_push a r := by
    by_cases h : r.1.length < r.2 <;> simp [bounded, h]
  capacity_pop _ := rfl
  new _ := rfl
  push a r h := by
    have hroom : r.1.length < r.2 := h
    simp [bounded, hroom]
  full a r h := by
    have hfull : ¬ r.1.length < r.2 := Nat.not_lt.mpr h
    simp [bounded, hfull]
  pop {a as r} h := by
    have hcons : r.1 = a :: as := h
    simp [bounded, hcons]
  empty {r} h := by
    have hnil : r.1 = [] := h
    simp [bounded, hnil]

end RingBuffer

end Koe
