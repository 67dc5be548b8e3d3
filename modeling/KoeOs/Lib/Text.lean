/-
# `KoeOs.Lib.Text` — text typed into rows

The text of a page that is written from its start: rows that are finished, and
the row in which the next character goes.  A row is finished when it is full or
when `enter` ends it; an empty row is never ended.  `cells` lays the rows end to
end, each but the last filled up with blanks:

    put c        one more cell
    enter        blanks up to the end of the row
    backspace    one cell less, and then all blanks at the end
    scroll       the cells of the first row gone

The fields say that no row holds a blank of its own and that no finished row is
empty, so the blanks at the end of the cells are never text.
-/
import KoeOs.Lib.Rows
import Mathlib.Data.List.DropRight

namespace Koe.Rows

variable {α : Type} {w : ℕ} {b : α}

/-- A finished row. -/
structure IsLine (w : ℕ) (b : α) (r : List α) : Prop where
  ne : r ≠ []
  le : r.length ≤ w
  text : b ∉ r

structure Text (w : ℕ) (b : α) where
  /-- The finished rows, the last one first. -/
  above : List (List α)
  row : List α
  lines : ∀ r ∈ above, IsLine w b r
  row_lt : row.length < w
  row_text : b ∉ row

namespace Text

variable (t : Text w b)

@[ext] theorem ext {t u : Text w b} (habove : t.above = u.above) (hrow : t.row = u.row) :
    t = u := by
  cases t
  cases u
  cases habove
  cases hrow
  rfl

/-- The cells up to where the next character goes. -/
def cells : List α := page w b t.above.reverse ++ t.row

/-- The page at the start. -/
def blank (hw : 0 < w) : Text w b :=
  ⟨[], [], fun _ h => absurd h List.not_mem_nil, hw, List.not_mem_nil⟩

theorem width_pos (t : Text w b) : 0 < w := Nat.zero_lt_of_lt t.row_lt

theorem length_above : (page w b t.above.reverse).length = t.above.length * w := by
  rw [length_page fun r hr => (t.lines r (List.mem_reverse.mp hr)).le, List.length_reverse]

theorem length_cells : t.cells.length = t.above.length * w + t.row.length := by
  rw [cells, List.length_append, t.length_above]

/-! ## One character -/

theorem notMem_concat {r : List α} {c : α} (hr : b ∉ r) (hc : c ≠ b) : b ∉ r ++ [c] := by
  simp [hr, Ne.symm hc]

/-- A character; a row that is full is finished. -/
def put (c : α) (hc : c ≠ b) : Text w b :=
  if h : t.row.length + 1 < w then
    ⟨t.above, t.row ++ [c], t.lines, by simpa using h, notMem_concat t.row_text hc⟩
  else
    { above := (t.row ++ [c]) :: t.above
      row := []
      lines := List.forall_mem_cons.mpr
        ⟨⟨by simp, by simpa using Nat.succ_le_of_lt t.row_lt, notMem_concat t.row_text hc⟩, t.lines⟩
      row_lt := t.width_pos
      row_text := List.not_mem_nil }

theorem cells_put {c : α} (hc : c ≠ b) : (t.put c hc).cells = t.cells ++ [c] := by
  rw [put]
  split
  · exact (List.append_assoc _ _ _).symm
  · rename_i hfull
    have hlen : (t.row ++ [c]).length = w := by
      have := t.row_lt
      rw [List.length_append, List.length_singleton]
      omega
    rw [cells, cells, List.reverse_cons, page_append, page_cons, page_nil, pad, hlen, Nat.sub_self,
      List.replicate_zero]
    simp

/-- The row is finished, unless it is empty. -/
def enter : Text w b :=
  if h : t.row = [] then t
  else
    { above := t.row :: t.above
      row := []
      lines := List.forall_mem_cons.mpr ⟨⟨h, Nat.le_of_lt t.row_lt, t.row_text⟩, t.lines⟩
      row_lt := t.width_pos
      row_text := List.not_mem_nil }

theorem enter_of_nil (h : t.row = []) : t.enter = t := dif_pos h

theorem cells_enter (h : t.row ≠ []) :
    t.enter.cells = t.cells ++ List.replicate (w - t.row.length) b := by
  rw [enter, dif_neg h]
  simp [cells, pad]

/-- The first row is lost. -/
def scroll : Text w b :=
  { t with above := t.above.dropLast, lines := fun r hr => t.lines r (t.above.dropLast_subset hr) }

theorem cells_scroll (h : t.above ≠ []) : t.scroll.cells = t.cells.drop w := by
  obtain ⟨first, hfirst⟩ : ∃ first, t.above = t.above.dropLast ++ [first] :=
    ⟨t.above.getLast h, (List.dropLast_append_getLast h).symm⟩
  have hlen : (pad w b first).length = w :=
    length_pad (t.lines first (by rw [hfirst]; simp)).le
  have hrev : t.above.reverse = first :: t.above.dropLast.reverse := by
    conv_lhs => rw [hfirst]
    rw [List.reverse_concat]
  have hcells : t.cells = pad w b first ++ t.scroll.cells := by
    rw [cells, hrev, page_cons, List.append_assoc]
    rfl
  rw [hcells, List.drop_left' hlen]

/-! ## Backspace -/

theorem set_last {l : List α} (h : l ≠ []) (r : List α) (c : α) :
    (l ++ r).set (l.length - 1) c = l.dropLast ++ c :: r := by
  obtain ⟨m, d, rfl⟩ : ∃ m d, l = m ++ [d] :=
    ⟨l.dropLast, l.getLast h, (List.dropLast_append_getLast h).symm⟩
  rw [List.dropLast_concat, List.append_assoc, List.length_append, List.length_singleton,
    Nat.add_sub_cancel, List.set_append_right _ _ (Nat.le_refl _), Nat.sub_self]
  rfl

/-- From an empty row back to the end of the row above, if that is not full. -/
def join : Text w b → Text w b
  | ⟨r :: above, [], lines, row_lt, row_text⟩ =>
    if h : r.length < w then
      ⟨above, r, fun s hs => lines s (List.mem_cons_of_mem r hs), h,
        (lines r List.mem_cons_self).text⟩
    else ⟨r :: above, [], lines, row_lt, row_text⟩
  | t => t

theorem join_of_row_ne_nil (h : t.row ≠ []) : t.join = t := by
  obtain ⟨above, _ | ⟨c, row⟩, _, _, _⟩ := t
  · exact absurd rfl h
  · cases above <;> rfl

/-- The last character is deleted, if the last cell holds one. -/
def rub : Text w b → Text w b
  | ⟨above, c :: row, lines, row_lt, row_text⟩ =>
    { above := above
      row := (c :: row).dropLast
      lines := lines
      row_lt := Nat.lt_of_le_of_lt (List.length_dropLast ▸ Nat.sub_le _ _) row_lt
      row_text := fun h => row_text (List.dropLast_subset _ h) }
  | ⟨r :: above, [], lines, row_lt, row_text⟩ =>
    if h : r.length < w then ⟨r :: above, [], lines, row_lt, row_text⟩
    else
      { above := above
        row := r.dropLast
        lines := fun s hs => lines s (List.mem_cons_of_mem r hs)
        row_lt := by
          have hlines := lines r List.mem_cons_self
          have hpos := List.length_pos_iff.mpr hlines.ne
          have hle := hlines.le
          rw [List.length_dropLast]
          omega
        row_text := fun h => (lines r List.mem_cons_self).text (r.dropLast_subset h) }
  | ⟨[], [], lines, row_lt, row_text⟩ => ⟨[], [], lines, row_lt, row_text⟩

def backspace : Text w b := t.rub.join

theorem dropLast_append_replicate (l : List α) {n : ℕ} (h : 0 < n) :
    (l ++ List.replicate n b).dropLast = l ++ List.replicate (n - 1) b := by
  obtain ⟨n, rfl⟩ := Nat.exists_eq_succ_of_ne_zero (Nat.pos_iff_ne_zero.mp h)
  rw [List.replicate_succ', ← List.append_assoc, List.dropLast_concat]
  rfl

section

variable [DecidableEq α]

/-- The list without the blanks at its end. -/
def trim (b : α) (l : List α) : List α := l.rdropWhile (· = b)

theorem trim_append_replicate (l : List α) (n : ℕ) :
    trim b (l ++ List.replicate n b) = trim b l := by
  induction n with
  | zero => rw [List.replicate_zero, List.append_nil]
  | succ n ih =>
    rw [List.replicate_succ', ← List.append_assoc, trim,
      List.rdropWhile_concat_pos _ _ _ (by simp), ← trim, ih]

theorem trim_append_text (l : List α) {r : List α} (hne : r ≠ []) (hr : b ∉ r) :
    trim b (l ++ r) = l ++ r := by
  refine List.rdropWhile_eq_self_iff.mpr fun h => ?_
  rw [List.getLast_append_of_ne_nil h hne]
  simp only [decide_eq_true_eq]
  exact fun heq => hr (heq ▸ List.getLast_mem hne)

/-- What is dropped is blank. -/
theorem trim_append_blanks (l : List α) :
    trim b l ++ List.replicate (l.length - (trim b l).length) b = l := by
  have hsplit : trim b l ++ l.rtakeWhile (· = b) = l := List.rdropWhile_append_rtakeWhile
  have hlen : (l.rtakeWhile (· = b)).length = l.length - (trim b l).length := by
    have := congrArg List.length hsplit
    rw [List.length_append] at this
    omega
  have hblank : l.rtakeWhile (· = b) = List.replicate (l.rtakeWhile (· = b)).length b :=
    List.eq_replicate_iff.mpr ⟨rfl, fun c hc => by simpa using List.mem_rtakeWhile_imp hc⟩
  rw [← hlen, ← hblank, hsplit]

theorem cells_join : t.join.cells = trim b t.cells := by
  by_cases hrow : t.row = []
  · obtain ⟨_ | ⟨r, above⟩, row, lines, row_lt, row_text⟩ := t
    · cases hrow
      rfl
    · cases hrow
      obtain ⟨hne, hle, htext⟩ := lines r List.mem_cons_self
      have hcells : cells ⟨r :: above, [], lines, row_lt, row_text⟩ =
          page w b above.reverse ++ r ++ List.replicate (w - r.length) b := by
        simp [cells, pad]
      rw [hcells, trim_append_replicate, trim_append_text _ hne htext, join]
      split
      · rfl
      · rw [hcells, show w - r.length = 0 by omega, List.replicate_zero, List.append_nil]
  · rw [t.join_of_row_ne_nil hrow, cells, trim_append_text _ hrow t.row_text]

/-- Without the last cell, the blanks at the end do not count. -/
theorem trim_cells_rub : trim b t.rub.cells = trim b t.cells.dropLast := by
  obtain ⟨above, row, lines, row_lt, row_text⟩ := t
  cases row with
  | cons c row =>
    have hcells : cells ⟨above, c :: row, lines, row_lt, row_text⟩ =
        page w b above.reverse ++ c :: row := rfl
    rw [hcells, List.dropLast_append_of_ne_nil (List.cons_ne_nil c row)]
    rfl
  | nil =>
    cases above with
    | nil => rfl
    | cons r above =>
      obtain ⟨hne, hle, htext⟩ := lines r List.mem_cons_self
      have hcells : cells ⟨r :: above, [], lines, row_lt, row_text⟩ =
          page w b above.reverse ++ r ++ List.replicate (w - r.length) b := by
        simp [cells, pad]
      rw [rub]
      split
      · rename_i hlt
        rw [hcells, dropLast_append_replicate _ (by omega), trim_append_replicate,
          trim_append_replicate]
      · rw [hcells, show w - r.length = 0 by omega, List.replicate_zero, List.append_nil,
          List.dropLast_append_of_ne_nil hne]
        rfl

theorem cells_backspace : t.backspace.cells = trim b t.cells.dropLast := by
  rw [backspace, cells_join, trim_cells_rub]

end

/-! ## Undoing -/

end Text

end Koe.Rows
