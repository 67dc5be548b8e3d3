/-
# `KoeOs.Drivers.Screen` — what the functions of the console compute

A `Screen` is a console whose buffer has its 2000 cells and whose position is at
most one past the last of them.  On screens every function of the driver returns,
and what it computes is a total function on screens:

    write_u8(c)     byte c          put, newline, backspace, or nothing at the end
    clear           wiped, at 0
    sync_cursor     sync            the device shows the position

There is one lemma for each function of the source; nothing after this module looks
into the code of the driver again.
-/
import KoeOs.Drivers.Vga
import Mathlib.Data.List.Basic

namespace Koe

/-! ## The device -/

namespace Crtc

/-- What `sync_cursor` does to the device. -/
def program (d : Crtc) (pos : ℕ) : Crtc :=
  (((d.out crtcAddrPort cursorLocLowIdx).out crtcDataPort (UInt8.ofNat (0x00FF &&& pos))).out
    crtcAddrPort cursorLocHighIdx).out crtcDataPort (UInt8.ofNat (pos >>> 8))

theorem cursor_program (d : Crtc) {pos : ℕ} (h : pos < 2 ^ 16) : (d.program pos).cursor = pos := by
  have hlow : (UInt8.ofNat (0x00FF &&& pos)).toNat = pos % 256 := by
    rw [Nat.and_comm, show (0x00FF : ℕ) = 2 ^ 8 - 1 from rfl, Nat.and_two_pow_sub_one_eq_mod,
      UInt8.toNat_ofNat']
    omega
  have hhigh : (UInt8.ofNat (pos >>> 8)).toNat = pos / 256 := by
    rw [Nat.shiftRight_eq_div_pow, UInt8.toNat_ofNat']
    omega
  show (UInt8.ofNat (pos >>> 8)).toNat * 256 + (UInt8.ofNat (0x00FF &&& pos)).toNat = pos
  omega

end Crtc

/-! ## Screens -/

/-- A console with its 2000 cells, and a position at most one past the last. -/
@[ext] structure Screen extends Console where
  length_buffer : buffer.length = viewHeight * viewWidth
  cursor_le : cursorPos ≤ viewHeight * viewWidth

/-- The end of the text before the position `n`. -/
def textEnd (buffer : List UInt16) : ℕ → ℕ
  | 0 => 0
  | n + 1 => if buffer[n]?.map entryGetChar = some 0 then textEnd buffer n else n + 1

theorem textEnd_le (buffer : List UInt16) (n : ℕ) : textEnd buffer n ≤ n := by
  induction n with
  | zero => exact Nat.le_refl 0
  | succ n ih =>
      rw [textEnd]
      split
      · exact Nat.le_succ_of_le ih
      · exact Nat.le_refl _

namespace Screen

/-- The console when it is first used. -/
def init (crtc : Crtc) : Screen where
  toConsole := Console.init crtc
  length_buffer := List.length_replicate
  cursor_le := Nat.zero_le _

def sync (s : Screen) : Screen := { s with crtc := s.crtc.program s.cursorPos }

def goTo (s : Screen) (pos : ℕ) (h : pos ≤ viewHeight * viewWidth) : Screen :=
  { s with cursorPos := pos, cursor_le := h }

def recolor (s : Screen) (color : UInt8) : Screen := { s with colorCode := color }

def store (s : Screen) (i : ℕ) (char : UInt8) : Screen where
  toConsole := { s.toConsole with buffer := s.buffer.set i (vgaEntry s.colorCode char) }
  length_buffer := List.length_set.trans s.length_buffer
  cursor_le := s.cursor_le

def wiped (s : Screen) : Screen where
  toConsole :=
    { s.toConsole with buffer := List.replicate s.buffer.length (vgaEntry s.colorCode 0) }
  length_buffer := List.length_replicate.trans s.length_buffer
  cursor_le := s.cursor_le

theorem length_rolled (s : Screen) :
    (s.buffer.drop viewWidth ++ List.replicate viewWidth (vgaEntry s.colorCode 0)).length
      = viewHeight * viewWidth := by
  rw [List.length_append, List.length_drop, List.length_replicate, s.length_buffer]
  decide

/-- One row up, with a blank row at the end. -/
def rolled (s : Screen) : Screen where
  toConsole :=
    { s.toConsole with
      buffer := s.buffer.drop viewWidth ++ List.replicate viewWidth (vgaEntry s.colorCode 0) }
  length_buffer := s.length_rolled
  cursor_le := s.cursor_le

/-- Store a byte and go one further. -/
def put (s : Screen) (char : UInt8) (h : s.cursorPos < viewHeight * viewWidth) : Screen :=
  ((s.store s.cursorPos char).goTo (s.cursorPos + 1) h).sync

theorem last_row_le : (viewHeight - 1) * viewWidth ≤ viewHeight * viewWidth := by decide

/-- On to the next multiple of the width.  The device hears of it only if the screen scrolls. -/
def newline (s : Screen) : Screen :=
  if h : Usize.roundUp s.cursorPos viewWidth < viewHeight * viewWidth then
    s.goTo (Usize.roundUp s.cursorPos viewWidth) (Nat.le_of_lt h)
  else (s.rolled.goTo ((viewHeight - 1) * viewWidth) last_row_le).sync

/-- Rub out the cell before the position, if there is one. -/
def rubOut (s : Screen) : Screen :=
  if s.cursorPos = 0 then s
  else (s.goTo (s.cursorPos - 1) ((Nat.sub_le _ _).trans s.cursor_le)).store (s.cursorPos - 1) 0

def backspace (s : Screen) : Screen :=
  (s.rubOut.goTo (textEnd s.rubOut.buffer s.rubOut.cursorPos)
    ((textEnd_le _ _).trans s.rubOut.cursor_le)).sync

/-- `write_u8`. -/
def byte (s : Screen) (char : UInt8) : Screen :=
  if h : s.cursorPos < viewHeight * viewWidth then
    if char = 0x0A then s.newline else if char = 0x08 then s.backspace else s.put char h
  else s

/-- `set_cursor_pos`, where its assertion holds. -/
def place (s : Screen) (pos : ℕ) (h : pos ≤ viewHeight * viewWidth) : Screen := (s.goTo pos h).sync

/-- `clear`, which programs the device twice. -/
def cleared (s : Screen) : Screen := (s.wiped.place 0 (Nat.zero_le _)).sync

end Screen

/-! ## The functions of the driver on screens -/

section Slices

variable {σ α : Type}

theorem sliceSet_of_lt {l : List α} {i : ℕ} (h : i < l.length) (a : α) (s : σ) :
    (sliceSet l i a).run s = .ok (l.set i a) s := by
  rw [sliceSet, if_pos h]; rfl

theorem sliceIndex_of_lt {l : List α} {i : ℕ} (h : i < l.length) (s : σ) :
    (sliceIndex l i).run s = .ok l[i] s := by
  rw [sliceIndex, List.getElem?_eq_getElem h]; rfl

theorem sliceCopyWithin_of_le {l : List α} {src dest : ℕ} (h : src ≤ l.length) (h' : dest ≤ src)
    (s : σ) : (sliceCopyWithin l src dest).run s
      = .ok (l.take dest ++ l.drop src ++ l.drop (dest + (l.length - src))) s := by
  rw [sliceCopyWithin, if_pos ⟨h, h'⟩]; rfl

theorem sliceFillFrom_of_le {l : List α} {start : ℕ} (h : start ≤ l.length) (a : α) (s : σ) :
    (sliceFillFrom l start a).run s
      = .ok (l.take start ++ List.replicate (l.length - start) a) s := by
  rw [sliceFillFrom, if_pos h]; rfl

end Slices

namespace Screen

open Console

theorem cursor_lt (s : Screen) : s.cursorPos < 2 ^ 16 := Nat.lt_of_le_of_lt s.cursor_le (by decide)

theorem syncCursor_run (s : Console) :
    syncCursor.run s = .ok () { s with crtc := s.crtc.program s.cursorPos } := rfl

theorem setColor_run (s : Screen) (fg bg : Color) (isBright : Bool) :
    (setColor fg bg isBright).run s.toConsole
      = .ok () (s.recolor (colorCode fg bg isBright)).toConsole := rfl

theorem setCursorPos_run (s : Screen) {x y : UInt8}
    (h : x.toNat * y.toNat < viewHeight * viewWidth) :
    (setCursorPos x y).run s.toConsole
      = .ok () (s.place (x.toNat * y.toNat) (Nat.le_of_lt h)).toConsole := by
  have hlt : x.toNat * y.toNat < 2 ^ 16 := Nat.lt_trans h (by decide)
  rw [setCursorPos, Code.bind_ok (U16.checked_of_lt hlt _),
    Code.bind_ok (Code.assert_of (decide_eq_true h) _ _)]
  rfl

theorem setCursorPos_error (s : Console) {x y : UInt8}
    (h : ¬ x.toNat * y.toNat < viewHeight * viewWidth) :
    (setCursorPos x y).run s = .error (.assertion "") s := by
  have hlt : x.toNat * y.toNat < 2 ^ 16 := by
    have := Nat.mul_le_mul (Nat.le_of_lt_succ x.toNat_lt) (Nat.le_of_lt_succ y.toNat_lt)
    omega
  rw [setCursorPos, Code.bind_ok (U16.checked_of_lt hlt _), decide_eq_false h]
  rfl

theorem clear_run (s : Screen) : clear.run s.toConsole = .ok () s.cleared.toConsole := by
  have hzero : (0 : UInt8).toNat * (0 : UInt8).toNat < viewHeight * viewWidth := by decide
  show (setCursorPos 0 0 >>= fun _ => syncCursor).run s.wiped.toConsole = _
  rw [Code.bind_ok (setCursorPos_run s.wiped hzero)]
  rfl

/-- What `copy_within` leaves behind at the end is what `fill` overwrites. -/
theorem rolled_buffer (s : Screen) :
    (s.buffer.take 0 ++ s.buffer.drop viewWidth ++
        s.buffer.drop (0 + (s.buffer.length - viewWidth))).take
          (viewHeight * viewWidth - viewWidth) ++ List.replicate viewWidth (vgaEntry s.colorCode 0)
      = s.rolled.buffer := by
  have hlen := s.length_buffer
  rw [List.take_zero, List.nil_append,
    List.take_append_of_le_length (by rw [List.length_drop, hlen]),
    List.take_of_length_le (by rw [List.length_drop, hlen])]
  rfl

theorem scrollUp_run (s : Screen) (h : viewWidth ≤ s.cursorPos) :
    scrollUp.run s.toConsole
      = .ok () (s.rolled.goTo (s.cursorPos - viewWidth)
          ((Nat.sub_le _ _).trans s.cursor_le)).sync.toConsole := by
  have hlen := s.length_buffer
  have hwidth : viewWidth ≤ s.buffer.length := by rw [hlen]; decide
  have hmoved : (s.buffer.take 0 ++ s.buffer.drop viewWidth ++
      s.buffer.drop (0 + (s.buffer.length - viewWidth))).length = viewHeight * viewWidth := by
    simp only [List.length_append, List.length_take, List.length_drop, hlen]
    decide
  rw [scrollUp, Code.get_bind, Code.bind_ok (sliceCopyWithin_of_le hwidth (Nat.zero_le _) _),
    Code.bind_ok (EStateM.run_modify _ _), Code.get_bind, hmoved,
    Code.bind_ok (Usize.sub_of_le (by decide) _),
    Code.bind_ok (sliceFillFrom_of_le (by rw [hmoved]; decide) _ _),
    Code.bind_ok (EStateM.run_modify _ _), Code.get_bind, Code.bind_ok (Usize.sub_of_le h _),
    Code.bind_ok (EStateM.run_modify _ _), syncCursor_run, hmoved]
  exact congrArg (EStateM.Result.ok ()) (Console.ext rfl rfl s.rolled_buffer rfl)

/-- The loop ends at the end of the text, after as many rounds as there are blanks. -/
theorem skipBlanks_run (fuel : ℕ) (s : Console) (h : s.cursorPos < fuel)
    (hle : s.cursorPos ≤ s.buffer.length) :
    (skipBlanks fuel).run s = .ok () { s with cursorPos := textEnd s.buffer s.cursorPos } := by
  induction fuel generalizing s with
  | zero => exact absurd h (Nat.not_lt_zero _)
  | succ fuel ih =>
      obtain ⟨color, pos, buffer, crtc⟩ := s
      simp only at h hle
      rw [skipBlanks, Code.get_bind]
      cases pos with
      | zero => rfl
      | succ n =>
          rw [if_pos (Nat.succ_pos n), Code.bind_ok (Usize.sub_of_le (Nat.le_add_left 1 n) _),
            Nat.add_sub_cancel, Code.bind_ok (sliceIndex_of_lt hle _), textEnd,
            List.getElem?_eq_getElem hle, Option.map_some]
          by_cases hblank : entryGetChar buffer[n] = 0
          · rw [if_pos hblank, if_pos (congrArg some hblank),
              Code.bind_ok (Usize.sub_of_le (Nat.le_add_left 1 n) _)]
            exact ih ⟨color, n, buffer, crtc⟩ (Nat.lt_of_succ_lt_succ h) (Nat.le_of_lt hle)
          · rw [if_neg hblank, if_neg fun he => hblank (Option.some.inj he)]
            rfl

theorem newline_run (s : Screen) (h : s.cursorPos < viewHeight * viewWidth) :
    (writeU8 0x0A).run s.toConsole = .ok () s.newline.toConsole := by
  have hlen : s.buffer.length % 2 ^ 16 = viewHeight * viewWidth := by
    rw [s.length_buffer]; rfl
  have hround : Usize.roundUp s.cursorPos viewWidth ≤ viewHeight * viewWidth :=
    (Usize.roundUp_le_iff (by decide) (by decide)).mpr s.cursor_le
  rw [writeU8, Code.get_bind, if_neg (Nat.ne_of_lt h), if_pos rfl, Code.get_bind,
    Code.bind_ok (U16.checked_of_lt (Nat.lt_of_le_of_lt hround (by decide)) _)]
  show (if s.buffer.length % 2 ^ 16 ≤ Usize.roundUp s.cursorPos viewWidth then scrollUp
    else pure () : Code Console Unit).run (s.goTo _ hround).toConsole = _
  rw [hlen, newline]
  by_cases hend : Usize.roundUp s.cursorPos viewWidth < viewHeight * viewWidth
  · rw [dif_pos hend, if_neg (Nat.not_le.mpr hend)]
    rfl
  · have hge := Nat.not_lt.mp hend
    -- one past the end, a whole screen, so a row less is the start of the last row
    have hlast : Usize.roundUp s.cursorPos viewWidth - viewWidth
        = (viewHeight - 1) * viewWidth := by
      rw [Nat.le_antisymm hround hge]; rfl
    have hroom : viewWidth ≤ Usize.roundUp s.cursorPos viewWidth :=
      Nat.le_trans (by decide) hge
    rw [dif_neg hend, if_pos hge, scrollUp_run (s.goTo _ hround) hroom]
    refine congrArg (EStateM.Result.ok ()) (Console.ext rfl hlast rfl ?_)
    exact congrArg (Crtc.program s.crtc) hlast

theorem eraseBack_run (s : Screen) : eraseBack.run s.toConsole = .ok () s.rubOut.toConsole := by
  have hlen := s.length_buffer
  have hle := s.cursor_le
  rw [eraseBack, Code.get_bind, rubOut]
  by_cases hzero : s.cursorPos = 0
  · rw [if_neg (not_not.mpr hzero), if_pos hzero]
    rfl
  · have hpos : 1 ≤ s.cursorPos := Nat.pos_of_ne_zero hzero
    rw [if_pos hzero, if_neg hzero, Code.get_bind, Code.bind_ok (Usize.sub_of_le hpos _),
      Code.bind_ok (EStateM.run_modify _ _), Code.get_bind, Code.get_bind,
      Code.bind_ok (sliceSet_of_lt (by simp only; omega) _ _)]
    rfl

theorem backspace_run (s : Screen) (h : s.cursorPos < viewHeight * viewWidth) :
    (writeU8 0x08).run s.toConsole = .ok () s.backspace.toConsole := by
  rw [writeU8, Code.get_bind, if_neg (Nat.ne_of_lt h), if_neg (by decide), if_pos rfl,
    Code.bind_ok s.eraseBack_run, Code.bind_ok (skipBlanks_run _ _ s.rubOut.cursor_lt
      (s.rubOut.length_buffer ▸ s.rubOut.cursor_le))]
  rfl

theorem put_run (s : Screen) {char : UInt8} (hnl : char ≠ 0x0A) (hbs : char ≠ 0x08)
    (h : s.cursorPos < viewHeight * viewWidth) :
    (writeU8 char).run s.toConsole = .ok () (s.put char h).toConsole := by
  have hlt : s.cursorPos + 1 < 2 ^ 16 := Nat.lt_of_le_of_lt h (by decide)
  rw [writeU8, Code.get_bind, if_neg (Nat.ne_of_lt h), if_neg hnl, if_neg hbs, Code.get_bind,
    Code.bind_ok (sliceSet_of_lt (s.length_buffer ▸ h) _ _),
    Code.bind_ok (EStateM.run_modify _ _), Code.bind_ok (U16.checked_of_lt hlt _),
    Code.bind_ok (EStateM.run_modify _ _)]
  rfl

theorem writeU8_run (s : Screen) (char : UInt8) :
    (writeU8 char).run s.toConsole = .ok () (s.byte char).toConsole := by
  rw [byte]
  split
  · rename_i h
    split
    · rename_i hnl
      rw [hnl]
      exact newline_run s h
    · split
      · rename_i hbs
        rw [hbs]
        exact backspace_run s h
      · rename_i hnl hbs
        exact put_run s hnl hbs h
  · rename_i h
    rw [writeU8, Code.get_bind, if_pos (Nat.le_antisymm s.cursor_le (Nat.not_lt.mp h))]
    rfl

/-- A text is written byte by byte. -/
theorem write_run (s : Screen) (text : List UInt8) :
    (write text).run s.toConsole = .ok () (text.foldl byte s).toConsole :=
  Code.forM_foldl_run (fun c _ t => t.writeU8_run c) s

/-! ## Text on a screen -/

theorem byte_put (s : Screen) {char : UInt8} (hnl : char ≠ 0x0A) (hbs : char ≠ 0x08)
    (h : s.cursorPos < viewHeight * viewWidth) : s.byte char = s.put char h := by
  rw [byte, dif_pos h, if_neg hnl, if_neg hbs]

/-- Once the position is past the last cell, nothing that is written has an effect. -/
theorem byte_full (s : Screen) (char : UInt8) (h : s.cursorPos = viewHeight * viewWidth) :
    s.byte char = s := by
  rw [byte, dif_neg (by omega)]

/-- A newline at the start of a row does nothing. -/
theorem byte_newline_of_dvd (s : Screen) (h : viewWidth ∣ s.cursorPos) : s.byte 0x0A = s := by
  rw [byte]
  split
  · rename_i hlt
    have hround := Usize.roundUp_of_dvd h
    rw [if_pos rfl, newline, dif_pos (hround.trans_lt hlt)]
    exact Screen.ext rfl hround rfl rfl
  · rfl

/-- A newline on a row but the last. -/
theorem byte_newline_of_lt (s : Screen) (h : s.cursorPos < (viewHeight - 1) * viewWidth) :
    ∃ hle, s.byte 0x0A = s.goTo (Usize.roundUp s.cursorPos viewWidth) hle := by
  have hround : Usize.roundUp s.cursorPos viewWidth ≤ (viewHeight - 1) * viewWidth :=
    (Usize.roundUp_le_iff (by decide) (by decide)).mpr (Nat.le_of_lt h)
  have hlt : s.cursorPos < viewHeight * viewWidth := Nat.lt_of_lt_of_le h last_row_le
  refine ⟨hround.trans last_row_le, ?_⟩
  rw [byte, dif_pos hlt, if_pos rfl, newline, dif_pos (Nat.lt_of_le_of_lt hround (by decide))]

/-- A newline on the last row scrolls. -/
theorem byte_newline_last (s : Screen) (h : (viewHeight - 1) * viewWidth < s.cursorPos)
    (hlt : s.cursorPos < viewHeight * viewWidth) :
    s.byte 0x0A = (s.rolled.goTo ((viewHeight - 1) * viewWidth) last_row_le).sync := by
  have hround : ¬ Usize.roundUp s.cursorPos viewWidth ≤ (viewHeight - 1) * viewWidth :=
    fun hle => Nat.not_le.mpr h ((Usize.roundUp_le_iff (by decide) (by decide)).mp hle)
  have hdvd := Usize.dvd_roundUp (a := s.cursorPos) (b := viewWidth) (by decide)
  rw [byte, dif_pos hlt, if_pos rfl, newline, dif_neg]
  simp only [viewHeight, viewWidth] at *
  omega

/-- A text without newlines and backspaces, where it fits: one cell for each byte. -/
theorem foldl_byte_text {text : List UInt8} (htext : ∀ c ∈ text, c ≠ 0x0A ∧ c ≠ 0x08) (s : Screen)
    (h : s.cursorPos + text.length ≤ viewHeight * viewWidth) :
    (text.foldl byte s).colorCode = s.colorCode ∧
      (text.foldl byte s).cursorPos = s.cursorPos + text.length ∧
      (text.foldl byte s).buffer = s.buffer.take s.cursorPos ++
        text.map (vgaEntry s.colorCode) ++ s.buffer.drop (s.cursorPos + text.length) := by
  induction text generalizing s with
  | nil =>
      refine ⟨rfl, rfl, ?_⟩
      rw [List.map_nil, List.append_nil]
      exact (List.take_append_drop _ _).symm
  | cons c text ih =>
      rw [List.length_cons] at h
      have hlt : s.cursorPos < viewHeight * viewWidth := by omega
      obtain ⟨hnl, hbs⟩ := htext c List.mem_cons_self
      obtain ⟨hcolor, hpos, hbuffer⟩ := ih (fun c' hc' => htext c' (List.mem_cons_of_mem c hc'))
        (s.put c hlt) (by show s.cursorPos + 1 + _ ≤ _; omega)
      rw [List.foldl_cons, s.byte_put hnl hbs hlt]
      refine ⟨hcolor, hpos.trans ?_, hbuffer.trans ?_⟩
      · show s.cursorPos + 1 + text.length = s.cursorPos + (text.length + 1)
        omega
      · show (s.buffer.set s.cursorPos (vgaEntry s.colorCode c)).take (s.cursorPos + 1) ++
            text.map (vgaEntry s.colorCode) ++
            (s.buffer.set s.cursorPos (vgaEntry s.colorCode c)).drop
              (s.cursorPos + 1 + text.length) = _
        rw [List.drop_set_of_lt (by omega), List.take_add_one,
          List.getElem?_set_self (s.length_buffer ▸ hlt), List.take_set_of_le (Nat.le_refl _),
          Nat.add_assoc, Nat.add_comm 1]
        simp

end Screen

end Koe
