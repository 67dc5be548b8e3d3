/-
# `KoeOs.Drivers.Editor` — the console as an editor

What a person sees who types at a cleared console: a page of rows, a character at a
time, with a backspace that deletes.  `typed` is that editor, on the text alone; it
says nothing of cells, colours or the device.  A console `Holds` a text if its cells
are those of the text and the rest is blank, and `write_u8` keeps this:

    write_u8(c)       put c
    write_u8('\n')    enter, and scroll when the last row is finished
    write_u8(8)       backspace, also over the end of a row

A page whose last row is full takes nothing more, not even a backspace.

The byte 0 is the blank and stands for no character.
-/
import KoeOs.Drivers.Console
import KoeOs.Lib.Text

namespace Koe

open Rows (Text)

/-- The page of the console. -/
abbrev Page := Text viewWidth (0 : UInt8)

namespace Page

def blank : Page := Text.blank (by decide)

/-- The editor. -/
def typed (t : Page) (char : UInt8) : Page :=
  if t.above.length = viewHeight then t
  else if char = 0x0A then
    if t.enter.above.length = viewHeight then t.enter.scroll else t.enter
  else if char = 0x08 then t.backspace
  else if h : char = 0 then t
  else t.put char h

end Page

/-- The characters of the console are the text and then blanks, and the position is after the
text. -/
structure Holds (s : Screen) (t : Page) : Prop where
  cursor : s.cursorPos = t.cells.length
  chars : s.buffer.map entryGetChar =
    t.cells ++ List.replicate (viewHeight * viewWidth - t.cells.length) 0

/-! ## Cells -/

theorem entryGetChar_vgaEntry (color char : UInt8) : entryGetChar (vgaEntry color char) = char := by
  have hcolor := color.toNat_lt
  have hchar := char.toNat_lt
  refine UInt8.toNat_inj.mp ?_
  rw [entryGetChar, vgaEntry, UInt16.toNat_toUInt8, UInt16.toNat_and, UInt16.toNat_add,
    UInt16.toNat_shiftLeft, UInt8.toNat_toUInt16, UInt8.toNat_toUInt16]
  show (((color.toNat <<< 8 % 2 ^ 16 + char.toNat) % 2 ^ 16) &&& (2 ^ 8 - 1)) % 2 ^ 8 = _
  rw [Nat.and_two_pow_sub_one_eq_mod, Nat.shiftLeft_eq]
  omega

variable {s : Screen} {t : Page}

theorem map_store (s : Screen) (i : ℕ) (char : UInt8) :
    (s.store i char).buffer.map entryGetChar = (s.buffer.map entryGetChar).set i char := by
  rw [Screen.store, List.map_set, entryGetChar_vgaEntry]

/-- The end of the text before a position is where its blanks begin. -/
theorem textEnd_eq (buffer : List UInt16) {n : ℕ} (h : n ≤ buffer.length) :
    textEnd buffer n = (Text.trim 0 ((buffer.take n).map entryGetChar)).length := by
  induction n with
  | zero => rfl
  | succ n ih =>
    rw [textEnd, List.getElem?_eq_getElem h, List.take_succ_eq_append_getElem h, List.map_append,
      Option.map_some, Text.trim]
    by_cases hblank : entryGetChar buffer[n] = 0
    · rw [if_pos (congrArg some hblank), ih (Nat.le_of_lt h), List.map_singleton,
        List.rdropWhile_concat_pos _ _ _ (by simpa using hblank), Text.trim]
    · rw [if_neg fun hsome => hblank (Option.some.inj hsome), List.map_singleton,
        List.rdropWhile_concat_neg _ _ _ (by simpa using hblank)]
      simp
      omega

theorem Holds.length_le (h : Holds s t) : t.cells.length ≤ viewHeight * viewWidth :=
  h.cursor ▸ s.cursor_le

/-- The console takes a byte exactly if the last row is not full. -/
theorem Holds.lt_iff (h : Holds s t) :
    s.cursorPos < viewHeight * viewWidth ↔ t.above.length ≠ viewHeight := by
  have hle := h.length_le
  have hrow := t.row_lt
  rw [h.cursor]
  rw [t.length_cells] at hle ⊢
  simp only [viewHeight, viewWidth] at *
  omega

/-! ## One byte -/

theorem holds_put (h : Holds s t) (hlt : s.cursorPos < viewHeight * viewWidth) {char : UInt8}
    (hc : char ≠ 0) : Holds (s.put char hlt) (t.put char hc) := by
  have hcells := t.cells_put hc
  refine ⟨?_, ?_⟩
  · rw [hcells, List.length_append, List.length_singleton, ← h.cursor]
    rfl
  · have hroom : viewHeight * viewWidth - t.cells.length =
        viewHeight * viewWidth - (t.cells.length + 1) + 1 := by
      rw [← h.cursor]
      omega
    show (s.store s.cursorPos char).buffer.map entryGetChar = _
    rw [map_store, h.chars, h.cursor, hcells, hroom, List.length_append, List.length_singleton,
      List.set_append_right _ _ (Nat.le_refl _), Nat.sub_self, List.replicate_succ,
      List.set_cons_zero, List.append_assoc]
    rfl

theorem holds_goTo_enter (h : Holds s t) (hrow : t.row ≠ [])
    (hle : t.enter.cells.length ≤ viewHeight * viewWidth) :
    Holds (s.goTo t.enter.cells.length hle) t.enter := by
  refine ⟨rfl, h.chars.trans ?_⟩
  have hlen : t.enter.cells.length = t.cells.length + (viewWidth - t.row.length) := by
    rw [t.cells_enter hrow, List.length_append, List.length_replicate]
  rw [t.cells_enter hrow, List.append_assoc, List.replicate_append_replicate, List.length_append,
    List.length_replicate]
  congr 2
  omega

/-- The next multiple of the width is where the text is after `enter`. -/
theorem roundUp_cells (hrow : t.row ≠ []) :
    Usize.roundUp t.cells.length viewWidth = t.enter.cells.length := by
  have hpos := List.length_pos_iff.mpr hrow
  have hlt := t.row_lt
  have hmod : t.cells.length % viewWidth = t.row.length := by
    rw [t.length_cells, Nat.mul_add_mod_self_right, Nat.mod_eq_of_lt hlt]
  rw [Usize.roundUp, hmod, if_neg (Nat.ne_of_gt hpos), t.cells_enter hrow, List.length_append,
    List.length_replicate]

theorem holds_scroll (h : Holds s t) (hfull : t.above.length = viewHeight) :
    Holds (s.rolled.goTo ((viewHeight - 1) * viewWidth) Screen.last_row_le).sync t.scroll := by
  have hlen : t.cells.length = viewHeight * viewWidth := by
    have hle := h.length_le
    rw [t.length_cells, hfull] at hle ⊢
    omega
  have hne : t.above ≠ [] := by
    intro hnil
    rw [hnil] at hfull
    cases hfull
  have hcells := t.cells_scroll hne
  have hscroll : t.scroll.cells.length = (viewHeight - 1) * viewWidth := by
    rw [hcells, List.length_drop, hlen]
    rfl
  have hchars : s.buffer.map entryGetChar = t.cells := by
    rw [h.chars, hlen, Nat.sub_self, List.replicate_zero, List.append_nil]
  refine ⟨hscroll.symm, ?_⟩
  show (s.buffer.drop viewWidth ++ List.replicate viewWidth (vgaEntry s.colorCode 0)).map
    entryGetChar = _
  rw [List.map_append, List.map_drop, hchars, List.map_replicate, entryGetChar_vgaEntry, ← hcells,
    hscroll]
  rfl

theorem holds_newline (h : Holds s t) (hlt : s.cursorPos < viewHeight * viewWidth) :
    Holds s.newline
      (if t.enter.above.length = viewHeight then t.enter.scroll else t.enter) := by
  by_cases hrow : t.row = []
  · -- the position is at the start of a row
    have hdvd : viewWidth ∣ s.cursorPos := by
      rw [h.cursor, t.length_cells, hrow, List.length_nil, Nat.add_zero]
      exact Nat.dvd_mul_left _ _
    have hsame : s.newline = s := by
      have := s.byte_newline_of_dvd hdvd
      rwa [Screen.byte, dif_pos hlt, if_pos rfl] at this
    rw [hsame, t.enter_of_nil hrow, if_neg (h.lt_iff.mp hlt)]
    exact h
  · have hround : Usize.roundUp s.cursorPos viewWidth = t.enter.cells.length := by
      rw [h.cursor, roundUp_cells hrow]
    have hle : t.enter.cells.length ≤ viewHeight * viewWidth := by
      rw [← hround]
      exact (Usize.roundUp_le_iff (by decide) (by decide)).mpr s.cursor_le
    have henter := holds_goTo_enter h hrow hle
    rw [Screen.newline]
    by_cases hend : t.enter.above.length = viewHeight
    · have hnot : ¬ Usize.roundUp s.cursorPos viewWidth < viewHeight * viewWidth := by
        rw [hround]
        exact fun hlt' => henter.lt_iff.mp hlt' hend
      rw [dif_neg hnot, if_pos hend]
      exact holds_scroll (s := s.goTo t.enter.cells.length hle) henter hend
    · have hin : Usize.roundUp s.cursorPos viewWidth < viewHeight * viewWidth := by
        rw [hround]
        exact henter.lt_iff.mpr hend
      rw [dif_pos hin, if_neg hend]
      exact ⟨hround, henter.chars⟩

/-- The characters once the last cell of the text is blank. -/
theorem map_rubOut (h : Holds s t) :
    s.rubOut.cursorPos = t.cells.dropLast.length ∧ s.rubOut.buffer.map entryGetChar =
      t.cells.dropLast ++
        List.replicate (viewHeight * viewWidth - t.cells.dropLast.length) 0 := by
  rw [Screen.rubOut]
  by_cases hzero : s.cursorPos = 0
  · have hnil : t.cells = [] := List.length_eq_zero_iff.mp (h.cursor.symm.trans hzero)
    have hchars := h.chars
    rw [hnil] at hchars
    rw [if_pos hzero, hnil]
    exact ⟨hzero, hchars⟩
  · have hne : t.cells ≠ [] := fun hnil => hzero (by rw [h.cursor, hnil]; rfl)
    have hlen : s.cursorPos - 1 = t.cells.dropLast.length := by
      rw [List.length_dropLast, h.cursor]
    have hpos := List.length_pos_iff.mpr hne
    have hle := h.length_le
    rw [if_neg hzero, map_store]
    refine ⟨hlen, ?_⟩
    show (s.buffer.map entryGetChar).set (s.cursorPos - 1) 0 = _
    have hroom : viewHeight * viewWidth - t.cells.dropLast.length =
        viewHeight * viewWidth - t.cells.length + 1 := by
      rw [List.length_dropLast]
      omega
    rw [h.chars, h.cursor, Text.set_last hne, hroom, List.replicate_succ]

theorem holds_backspace (h : Holds s t) : Holds s.backspace t.backspace := by
  obtain ⟨hcursor, hchars⟩ := map_rubOut h
  have hle : t.cells.dropLast.length ≤ s.rubOut.buffer.length := by
    rw [← hcursor, s.rubOut.length_buffer]
    exact s.rubOut.cursor_le
  have htake : (s.rubOut.buffer.take t.cells.dropLast.length).map entryGetChar =
      t.cells.dropLast := by
    rw [List.map_take, hchars, List.take_left]
  have hend : textEnd s.rubOut.buffer s.rubOut.cursorPos = t.backspace.cells.length := by
    rw [hcursor, textEnd_eq _ hle, htake, t.cells_backspace]
  refine ⟨hend, ?_⟩
  show s.rubOut.buffer.map entryGetChar = _
  have hblanks := Text.trim_append_blanks (b := 0) t.cells.dropLast
  have hshort : (Text.trim 0 t.cells.dropLast).length ≤ t.cells.dropLast.length := by
    have := congrArg List.length hblanks
    rw [List.length_append] at this
    omega
  have hfits : t.cells.dropLast.length ≤ viewHeight * viewWidth := by
    rw [List.length_dropLast]
    have := h.length_le
    omega
  rw [hchars, t.cells_backspace]
  conv_lhs => rw [← hblanks]
  rw [List.append_assoc, List.replicate_append_replicate, hblanks]
  congr 2
  omega

theorem holds_typed (h : Holds s t) {char : UInt8} (hc : char ≠ 0) :
    Holds (s.byte char) (t.typed char) := by
  rw [Screen.byte, Page.typed]
  by_cases hlt : s.cursorPos < viewHeight * viewWidth
  · rw [dif_pos hlt, if_neg (h.lt_iff.mp hlt)]
    split
    · exact holds_newline h hlt
    · split
      · exact holds_backspace h
      · exact holds_put h hlt hc
  · rw [dif_neg hlt, if_pos (not_not.mp fun hne => hlt (h.lt_iff.mpr hne))]
    exact h

/-! ## Texts -/

theorem holds_foldl (h : Holds s t) {text : List UInt8} (h0 : 0 ∉ text) :
    Holds (text.foldl Screen.byte s) (text.foldl Page.typed t) := by
  induction text generalizing s t with
  | nil => exact h
  | cons char text ih =>
    rw [List.mem_cons, not_or] at h0
    exact ih (holds_typed h (Ne.symm h0.1)) h0.2

theorem holds_cleared (s : Screen) : Holds s.cleared Page.blank := by
  refine ⟨rfl, ?_⟩
  show (List.replicate s.buffer.length (vgaEntry s.colorCode 0)).map entryGetChar = _
  rw [List.map_replicate, entryGetChar_vgaEntry, s.length_buffer]
  rfl

theorem clear_write_run {s : Console} (h : Reachable s) {text : List UInt8} (h0 : 0 ∉ text) :
    ∃ s' : Screen, (do Console.clear; Console.write text : Code Console Unit).run s =
      .ok () s'.toConsole ∧ Holds s' (text.foldl Page.typed Page.blank) := by
  obtain ⟨t, rfl⟩ := h.screen
  refine ⟨text.foldl Screen.byte t.cleared, ?_, holds_foldl (holds_cleared t) h0⟩
  rw [Code.bind_ok t.clear_run]
  exact t.cleared.write_run text

/-- **The console is the editor.**  From any state a run reaches, the console is cleared and any
text without the byte 0 is written: everything returns, and the characters and the position are
those of the editor after the same bytes. -/
theorem console_edits {s : Console} (h : Reachable s) {text : List UInt8} (h0 : 0 ∉ text) :
    ∃ s' : Screen, (do Console.clear; Console.write text : Code Console Unit).run s =
      .ok () s'.toConsole ∧ Holds s' (text.foldl Page.typed Page.blank) :=
  clear_write_run h h0

theorem console_edits_word : ∃ s' : Screen,
    (do Console.clear; Console.write [0x61, 0x0A, 0x62, 0x08] : Code Console Unit).run
      (Console.init ⟨0, fun _ => 0⟩) = .ok () s'.toConsole ∧
      Holds s' ([0x61, 0x0A, 0x62, 0x08].foldl Page.typed Page.blank) :=
  console_edits (reachable_init ⟨0, fun _ => 0⟩) (by decide)

/-! ## Deleting -/

namespace Page

end Page

end Koe
