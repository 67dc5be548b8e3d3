/-
# `KoeOs.Drivers.Lines` — lines of text on the console

A cleared console and up to 24 lines, each followed by a newline.  The buffer is read
as rows of cells (`Rows.page`); after each line that is not empty one more row shows
text and the position is at the start of the next.

An empty line is a newline at the start of a row, and `write_u8` rounds the position
up to a multiple of the width: it is one already, so nothing happens and the line has
no row.
-/
import KoeOs.Drivers.Console
import KoeOs.Lib.Rows

namespace Koe

/-- Clear the console and write the lines, each followed by a newline. -/
def Console.writeLines (lines : List (List UInt8)) : Code Console Unit := do
  Console.clear
  lines.forM fun line => Console.write (line ++ [0x0A])

/-- The byte in row `i` and column `j`; 0 where there is none. -/
def charAt (lines : List (List UInt8)) (i j : ℕ) : UInt8 := (lines[i]?.bind (·[j]?)).getD 0

/-- Every line stands in its own row and the rest of every row is blank, with the cursor at the
start of the row after the last line. -/
def LinesShown (s : Console) (lines : List (List UInt8)) : Prop :=
  ∃ s', (Console.writeLines lines).run s = .ok () s' ∧
    (∀ i < viewHeight, ∀ j < viewWidth,
      s'.buffer[i * viewWidth + j]? = some (vgaEntry s'.colorCode (charAt lines i j))) ∧
    s'.getCursorPos = (0, UInt8.ofNat lines.length)

/-- The rows of the screen that show text are the lines, and the position is after them. -/
structure Shows (s : Screen) (lines : List (List UInt8)) : Prop where
  cursor : s.cursorPos = lines.length * viewWidth
  short : ∀ line ∈ lines, line.length < viewWidth
  buffer : s.buffer = (Rows.page viewWidth 0
    (lines ++ List.replicate (viewHeight - lines.length) [])).map (vgaEntry s.colorCode)

/-- A line is written and followed by a newline. -/
def Screen.line (s : Screen) (line : List UInt8) : Screen := (line ++ [0x0A]).foldl Screen.byte s

theorem writeLines_run (s : Screen) (lines : List (List UInt8)) :
    (Console.writeLines lines).run s.toConsole
      = .ok () (lines.foldl Screen.line s.cleared).toConsole := by
  rw [Console.writeLines, Code.bind_ok s.clear_run]
  exact Code.forM_foldl_run (fun line _ t => t.write_run (line ++ [0x0A])) s.cleared

theorem shows_cleared (s : Screen) : Shows s.cleared [] where
  cursor := (Nat.zero_mul _).symm
  short := fun _ h => absurd h List.not_mem_nil
  buffer := by
    show List.replicate s.buffer.length (vgaEntry s.colorCode 0) = _
    rw [s.length_buffer, List.nil_append, Rows.page_replicate_nil, List.map_replicate]
    rfl

/-- An empty line leaves no row. -/
theorem line_nil {s : Screen} {lines : List (List UInt8)} (h : Shows s lines) : s.line [] = s :=
  s.byte_newline_of_dvd (h.cursor ▸ Nat.dvd_mul_left _ _)

/-- Inside a row, the next multiple of the width is the start of the next row. -/
theorem roundUp_row {n k : ℕ} (hpos : 0 < k) (hlt : k < viewWidth) :
    Usize.roundUp (n * viewWidth + k) viewWidth = (n + 1) * viewWidth := by
  have hmod : (n * viewWidth + k) % viewWidth = k := by
    rw [Nat.mul_add_mod_self_right, Nat.mod_eq_of_lt hlt]
  rw [Usize.roundUp, hmod, if_neg (Nat.ne_of_gt hpos), Nat.succ_mul]
  omega

/-- A line that is not empty takes the next row. -/
theorem shows_line {s : Screen} {lines : List (List UInt8)} {line : List UInt8}
    (h : Shows s lines) (hroom : lines.length < viewHeight - 1) (hne : line ≠ [])
    (hshort : line.length < viewWidth) (htext : ∀ c ∈ line, c ≠ 0x0A ∧ c ≠ 0x08) :
    Shows (s.line line) (lines ++ [line]) := by
  have hpos : 0 < line.length := List.length_pos_iff.mpr hne
  have hrow : (lines.length + 1) * viewWidth ≤ (viewHeight - 1) * viewWidth :=
    Nat.mul_le_mul_right _ hroom
  rw [Nat.succ_mul] at hrow
  have hfit : s.cursorPos + line.length ≤ viewHeight * viewWidth := by
    have := Screen.last_row_le
    rw [h.cursor]
    omega
  obtain ⟨hcolor, hcursor, hbuffer⟩ := Screen.foldl_byte_text htext s hfit
  rw [h.cursor] at hcursor
  obtain ⟨hle, hnl⟩ := Screen.byte_newline_of_lt (line.foldl Screen.byte s) (by omega)
  rw [Screen.line, List.foldl_append, List.foldl_cons, List.foldl_nil, hnl]
  refine ⟨?_, ?_, ?_⟩
  · show Usize.roundUp (line.foldl Screen.byte s).cursorPos viewWidth = _
    rw [hcursor, roundUp_row hpos hshort, List.length_append]
    rfl
  · exact List.forall_mem_append.mpr ⟨h.short, List.forall_mem_singleton.mpr hshort⟩
  · have hshorter : ∀ line ∈ lines, line.length ≤ viewWidth :=
      fun line hline => Nat.le_of_lt (h.short line hline)
    have hwrite := Rows.page_write (a := 0) hshorter (Nat.le_of_lt hshort)
      (viewHeight - (lines.length + 1))
    have hsplit : viewHeight - (lines.length + 1) + 1 = viewHeight - lines.length := by omega
    rw [hsplit] at hwrite
    have hcolor' : Console.colorCode (Screen.goTo (line.foldl Screen.byte s) _ hle).toConsole
        = s.colorCode := hcolor
    rw [hcolor', List.length_append, List.length_singleton, ← hwrite, List.map_append,
      List.map_append, List.map_take, List.map_drop, ← h.buffer, ← h.cursor]
    exact hbuffer

/-- After a number of lines, those that are not empty are shown. -/
theorem shows_lines {s : Screen} {shown lines : List (List UInt8)} (h : Shows s shown)
    (hroom : shown.length + lines.length ≤ viewHeight - 1)
    (hlines : ∀ line ∈ lines, line.length < viewWidth ∧ ∀ c ∈ line, c ≠ 0x0A ∧ c ≠ 0x08) :
    Shows (lines.foldl Screen.line s) (shown ++ lines.filter (· ≠ [])) := by
  induction lines generalizing s shown with
  | nil =>
      rw [List.filter_nil, List.append_nil]
      exact h
  | cons line lines ih =>
      obtain ⟨⟨hshort, htext⟩, hrest⟩ := List.forall_mem_cons.mp hlines
      rw [List.length_cons] at hroom
      rw [List.foldl_cons]
      by_cases hne : line = []
      · rw [hne, line_nil h, List.filter_cons_of_neg (by simp)]
        exact ih h (by omega) hrest
      · have hnext := ih (shows_line h (by omega) hne hshort htext)
          (by rw [List.length_append, List.length_singleton]; omega) hrest
        rw [List.filter_cons_of_pos (by simpa using hne), List.append_cons]
        exact hnext

theorem charAt_append_blank (lines : List (List UInt8)) (n i j : ℕ) :
    charAt (lines ++ List.replicate n []) i j = charAt lines i j := by
  unfold charAt
  rcases Nat.lt_or_ge i lines.length with hlt | hge
  · rw [List.getElem?_append_left hlt]
  · rw [List.getElem?_append_right hge, List.getElem?_eq_none hge, List.getElem?_replicate]
    split <;> rfl

/-- The rows of a screen, cell by cell. -/
theorem Shows.cell {s : Screen} {lines : List (List UInt8)} (h : Shows s lines)
    (hlen : lines.length ≤ viewHeight) {i j : ℕ} (hi : i < viewHeight) (hj : j < viewWidth) :
    s.buffer[i * viewWidth + j]? = some (vgaEntry s.colorCode (charAt lines i j)) := by
  have hrows : ∀ row ∈ lines ++ List.replicate (viewHeight - lines.length) [],
      row.length ≤ viewWidth := by
    refine List.forall_mem_append.mpr ⟨fun row hrow => Nat.le_of_lt (h.short row hrow), ?_⟩
    intro row hrow
    rw [List.eq_of_mem_replicate hrow]
    exact Nat.zero_le _
  have hi' : i < (lines ++ List.replicate (viewHeight - lines.length) []).length := by
    rw [List.length_append, List.length_replicate]
    omega
  rw [h.buffer, List.getElem?_map, Rows.getElem?_page hrows hi' hj]
  show some (vgaEntry s.colorCode (charAt _ i j)) = _
  rw [charAt_append_blank]

/-- The position after the lines, by coordinates. -/
theorem Shows.getCursorPos {s : Screen} {lines : List (List UInt8)} (h : Shows s lines) :
    s.getCursorPos = (0, UInt8.ofNat lines.length) := by
  rw [Console.getCursorPos, h.cursor, Nat.mul_mod_left, Nat.mul_div_cancel _ (by decide)]
  rfl

/-- The row of the cursor counts the lines that are not empty. -/
theorem ne_nil_of_linesShown (s : Screen) {lines : List (List UInt8)}
    (hlen : lines.length ≤ viewHeight - 1)
    (hlines : ∀ line ∈ lines, line.length < viewWidth ∧ ∀ c ∈ line, c ≠ 0x0A ∧ c ≠ 0x08)
    (h : LinesShown s.toConsole lines) : ∀ line ∈ lines, line ≠ [] := by
  have hshows := shows_lines (shows_cleared s) (by simpa using hlen) hlines
  obtain ⟨s', hs', -, hcursor⟩ := h
  cases (writeLines_run s lines).symm.trans hs'
  have hrows := congrArg (UInt8.toNat ·.2) (hshows.getCursorPos.symm.trans hcursor)
  change (UInt8.ofNat _).toNat = (UInt8.ofNat _).toNat at hrows
  have hle := List.length_filter_le (· ≠ []) lines
  have hsmall : lines.length ≤ 24 := hlen
  rw [List.nil_append, UInt8.toNat_ofNat', UInt8.toNat_ofNat', Nat.mod_eq_of_lt (by omega),
    Nat.mod_eq_of_lt (by omega)] at hrows
  simpa using List.length_filter_eq_length_iff.mp hrows

/-- Lines appear on their own rows exactly if none of them is empty. -/
theorem linesShown_iff {s : Console} (h : Reachable s) {lines : List (List UInt8)}
    (hlen : lines.length ≤ viewHeight - 1)
    (hlines : ∀ line ∈ lines, line.length < viewWidth ∧ ∀ c ∈ line, c ≠ 0x0A ∧ c ≠ 0x08) :
    LinesShown s lines ↔ ∀ line ∈ lines, line ≠ [] := by
  obtain ⟨t, rfl⟩ := h.screen
  refine ⟨ne_nil_of_linesShown t hlen hlines, fun hne => ?_⟩
  have hshows := shows_lines (shows_cleared t) (by simpa using hlen) hlines
  rw [List.nil_append, List.filter_eq_self.mpr (by simpa using hne)] at hshows
  exact ⟨_, writeLines_run t lines, fun i hi j hj => hshows.cell (by omega) hi hj,
    hshows.getCursorPos⟩

theorem linesShown_two : LinesShown (Console.init ⟨0, fun _ => 0⟩) [[0x61, 0x62], [0x63]] := by
  refine (linesShown_iff (reachable_init ⟨0, fun _ => 0⟩) (by decide) ?_).mpr (by simp)
  simp [viewWidth]

/-- A blank line between two others. -/
theorem blank_line_not_shown :
    ¬ LinesShown (Console.init ⟨0, fun _ => 0⟩) [[0x61], [], [0x62]] := by
  intro h
  have hne := ne_nil_of_linesShown (Screen.init ⟨0, fun _ => 0⟩) (by decide) (by simp [viewWidth]) h
  exact hne [] (by simp) rfl

end Koe
