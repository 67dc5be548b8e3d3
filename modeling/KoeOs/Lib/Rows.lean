/-
# `KoeOs.Lib.Rows` — rows laid end to end

A grid of cells kept in one list, row after row.  A row may be given by less than
its width of cells, and the rest of it is blank:

    page w a rows     every row filled up to the width `w` with `a`, end to end

The lemmas say where the cell of a row and a column is, and what the start and the
rest of a page are.
-/
import Mathlib.Data.List.Basic

namespace Koe.Rows

variable {α : Type}

/-- A row filled up to the width `w`. -/
def pad (w : ℕ) (a : α) (row : List α) : List α := row ++ List.replicate (w - row.length) a

/-- Rows of the width `w`, end to end. -/
def page (w : ℕ) (a : α) (rows : List (List α)) : List α := rows.flatMap (pad w a)

variable {w : ℕ} {a : α}

theorem length_pad {row : List α} (h : row.length ≤ w) : (pad w a row).length = w := by
  rw [pad, List.length_append, List.length_replicate]
  omega

theorem pad_nil : pad w a [] = List.replicate w a := rfl

theorem getElem?_pad {row : List α} {j : ℕ} (hj : j < w) :
    (pad w a row)[j]? = some (row[j]?.getD a) := by
  rcases Nat.lt_or_ge j row.length with hlt | hge
  · rw [pad, List.getElem?_append_left hlt, List.getElem?_eq_getElem hlt]
    rfl
  · rw [pad, List.getElem?_append_right hge, List.getElem?_eq_none hge, List.getElem?_replicate,
      if_pos (by omega)]
    rfl

@[simp] theorem page_nil : page w a [] = [] := rfl

@[simp] theorem page_cons (row : List α) (rows : List (List α)) :
    page w a (row :: rows) = pad w a row ++ page w a rows := List.flatMap_cons

@[simp] theorem page_append (rows rows' : List (List α)) :
    page w a (rows ++ rows') = page w a rows ++ page w a rows' := List.flatMap_append

/-- Blank rows are blank cells. -/
theorem page_replicate_nil (n : ℕ) :
    page w a (List.replicate n []) = List.replicate (n * w) a := by
  induction n with
  | zero => rw [Nat.zero_mul]; rfl
  | succ n ih =>
      rw [List.replicate_succ, page_cons, ih, pad_nil, List.replicate_append_replicate,
        Nat.succ_mul, Nat.add_comm]

theorem length_page {rows : List (List α)} (h : ∀ row ∈ rows, row.length ≤ w) :
    (page w a rows).length = rows.length * w := by
  induction rows with
  | nil => rw [List.length_nil, Nat.zero_mul]; rfl
  | cons row rows ih =>
      rw [List.forall_mem_cons] at h
      rw [page_cons, List.length_append, length_pad h.1, ih h.2, List.length_cons, Nat.succ_mul,
        Nat.add_comm]

/-- The cell of row `i` and column `j`. -/
theorem getElem?_page {rows : List (List α)} (h : ∀ row ∈ rows, row.length ≤ w) {i j : ℕ}
    (hi : i < rows.length) (hj : j < w) :
    (page w a rows)[i * w + j]? = some ((rows[i]?.bind (·[j]?)).getD a) := by
  induction rows generalizing i with
  | nil => exact absurd hi (Nat.not_lt_zero i)
  | cons row rows ih =>
      rw [List.forall_mem_cons] at h
      have hlen := length_pad (a := a) h.1
      rw [page_cons]
      cases i with
      | zero =>
          rw [Nat.zero_mul, Nat.zero_add, List.getElem?_append_left (by rwa [hlen]),
            getElem?_pad hj]
          rfl
      | succ i =>
          rw [List.getElem?_append_right (by rw [hlen, Nat.succ_mul]; omega), hlen, Nat.succ_mul,
            show i * w + w + j - w = i * w + j by omega]
          exact ih h.2 (Nat.lt_of_succ_lt_succ hi)

/-- A row written over the first of several blank rows. -/
theorem page_write {rows : List (List α)} (h : ∀ row ∈ rows, row.length ≤ w) {row : List α}
    (hrow : row.length ≤ w) (n : ℕ) :
    (page w a (rows ++ List.replicate (n + 1) [])).take (rows.length * w) ++ row ++
        (page w a (rows ++ List.replicate (n + 1) [])).drop (rows.length * w + row.length)
      = page w a (rows ++ [row] ++ List.replicate n []) := by
  have hlen := length_page (a := a) h
  rw [page_append, ← hlen, List.take_left, ← List.drop_drop, List.drop_left, List.replicate_succ,
    page_cons, pad_nil, List.drop_append_of_le_length (by rwa [List.length_replicate]),
    List.drop_replicate, page_append, page_append, page_cons, page_nil, List.append_nil, pad]
  simp only [List.append_assoc]

end Koe.Rows
