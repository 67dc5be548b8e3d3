/-
# `KoeOs.Drivers.Console` — the console over whole runs

A run is a list of calls from `VGABuffer::init` on.  `write` and `write_str` are
runs of `write_u8`, so a run is flattened to its single steps first (`Op`); a step
that returns takes a `Screen` to a `Screen`.  With this:

  * every state a run reaches is a screen, and from a screen every call returns,
    but for `set_cursor_pos` at its own assertion;
  * a byte is stored just before the new position unless the screen is full, when
    `write_u8` does nothing at all;
  * the device shows the position unless the run ends in a newline that moved it
    without scrolling;
  * `set_cursor_pos` multiplies its two coordinates, and so hits one cell only.
-/
import KoeOs.Drivers.Screen
import Mathlib.Data.List.Induction

namespace Koe

/-! ## Calls and runs -/

/-- One step of the console. -/
inductive Op where
  | writeU8 (char : UInt8)
  | clear
  | setColor (fg bg : Color) (isBright : Bool)
  | setCursorPos (x y : UInt8)
  deriving DecidableEq, Repr

namespace Op

def exec : Op → Code Console Unit
  | writeU8 char => Console.writeU8 char
  | clear => Console.clear
  | setColor fg bg isBright => Console.setColor fg bg isBright
  | setCursorPos x y => Console.setCursorPos x y

/-- The assertion of `set_cursor_pos` holds. -/
def Passes : Op → Prop
  | setCursorPos x y => x.toNat * y.toNat < viewHeight * viewWidth
  | _ => True

/-- The step on screens. -/
def apply (s : Screen) : Op → Screen
  | writeU8 char => s.byte char
  | clear => s.cleared
  | setColor fg bg isBright => s.recolor (colorCode fg bg isBright)
  | setCursorPos x y =>
      if h : x.toNat * y.toNat < viewHeight * viewWidth then
        s.place (x.toNat * y.toNat) (Nat.le_of_lt h)
      else s

theorem exec_run (s : Screen) {o : Op} (h : o.Passes) :
    o.exec.run s.toConsole = .ok () (o.apply s).toConsole := by
  cases o with
  | writeU8 char => exact s.writeU8_run char
  | clear => exact s.clear_run
  | setColor fg bg isBright => exact s.setColor_run fg bg isBright
  | setCursorPos x y =>
      have happly : apply s (setCursorPos x y) = s.place (x.toNat * y.toNat) (Nat.le_of_lt h) :=
        dif_pos h
      rw [happly]
      exact s.setCursorPos_run h

theorem exec_error (s : Console) {o : Op} (h : ¬ o.Passes) :
    o.exec.run s = .error (.assertion "") s := by
  cases o with
  | writeU8 char => exact absurd trivial h
  | clear => exact absurd trivial h
  | setColor fg bg isBright => exact absurd trivial h
  | setCursorPos x y => exact Screen.setCursorPos_error s h

theorem passes_of_exec {s s' : Console} {o : Op} (h : o.exec.run s = .ok () s') : o.Passes := by
  by_contra hn
  exact nomatch (exec_error s hn).symm.trans h

end Op

/-- A call of the console. -/
inductive Call where
  | op (o : Op)
  | write (text : List UInt8)
  | writeStr (s : List UInt8)
  deriving DecidableEq, Repr

namespace Call

def exec : Call → Code Console Unit
  | op o => o.exec
  | write text => Console.write text
  | writeStr s => Console.writeStr s

/-- The steps of a call. -/
def ops : Call → List Op
  | op o => [o]
  | write text => text.map .writeU8
  | writeStr s => s.map .writeU8

theorem exec_eq (c : Call) : c.exec = c.ops.forM Op.exec := by
  cases c with
  | op o => simp only [exec, ops, List.forM_eq_forM, List.forM_cons, List.forM_nil, bind_pure_unit]
  | write text => simp only [exec, ops, Console.write, List.forM_eq_forM, List.forM_map, Op.exec]
  | writeStr s => simp only [exec, ops, Console.writeStr, List.forM_eq_forM, List.forM_map, Op.exec]

end Call

/-- A run of calls is a run of their steps. -/
theorem run_eq_ops (calls : List Call) :
    calls.forM Call.exec = (calls.flatMap Call.ops).forM Op.exec := by
  induction calls with
  | nil => rfl
  | cons c calls ih =>
      rw [List.flatMap_cons, List.forM_eq_forM, List.forM_eq_forM, List.forM_append,
        List.forM_cons, ← List.forM_eq_forM, ← List.forM_eq_forM, ih, c.exec_eq]

/-- On screens, a run that returns is the steps one after the other. -/
theorem run_ops {ops : List Op} (h : ∀ o ∈ ops, o.Passes) (s : Screen) :
    (ops.forM Op.exec).run s.toConsole = .ok () (ops.foldl Op.apply s).toConsole :=
  Code.forM_foldl_run (fun o ho t => o.exec_run t (h o ho)) s

theorem passes_of_run {ops : List Op} {s s' : Console}
    (h : (ops.forM Op.exec).run s = .ok () s') : ∀ o ∈ ops, o.Passes := by
  induction ops generalizing s with
  | nil => exact fun o ho => absurd ho List.not_mem_nil
  | cons o ops ih =>
      obtain ⟨_, t, ho, hrest⟩ := Code.bind_eq_ok.mp h
      rintro o' (_ | ⟨_, ho'⟩)
      · exact Op.passes_of_exec ho
      · exact ih hrest o' ho'

/-- The screen after a run of steps. -/
def Screen.after (crtc : Crtc) (ops : List Op) : Screen := ops.foldl Op.apply (Screen.init crtc)

theorem Screen.after_concat (crtc : Crtc) (ops : List Op) (o : Op) :
    Screen.after crtc (ops ++ [o]) = o.apply (Screen.after crtc ops) :=
  List.foldl_concat ..

/-- A run from `VGABuffer::init` on. -/
theorem run_calls (calls : List Call) (h : ∀ o ∈ calls.flatMap Call.ops, o.Passes) (crtc : Crtc) :
    (calls.forM Call.exec).run (Console.init crtc)
      = .ok () (Screen.after crtc (calls.flatMap Call.ops)).toConsole := by
  rw [run_eq_ops]
  exact run_ops h (Screen.init crtc)

theorem passes_of_calls {calls : List Call} {s s' : Console}
    (h : (calls.forM Call.exec).run s = .ok () s') : ∀ o ∈ calls.flatMap Call.ops, o.Passes := by
  rw [run_eq_ops] at h
  exact passes_of_run h

/-- A state that some run from `VGABuffer::init` reaches. -/
def Reachable (s : Console) : Prop :=
  ∃ (crtc : Crtc) (calls : List Call),
    (calls.forM Call.exec).run (Console.init crtc) = .ok () s

theorem Reachable.screen {s : Console} (h : Reachable s) : ∃ t : Screen, t.toConsole = s := by
  obtain ⟨crtc, calls, hrun⟩ := h
  cases (run_calls calls (passes_of_calls hrun) crtc).symm.trans hrun
  exact ⟨_, rfl⟩

theorem reachable_init (crtc : Crtc) : Reachable (Console.init crtc) := ⟨crtc, [], rfl⟩

/-! ## Memory safety -/

/-- The calls that pass the assertion of `set_cursor_pos`. -/
def Call.Passes (c : Call) : Prop := ∀ o ∈ c.ops, o.Passes

/-- In every state a run reaches the position is inside the buffer or one past it, and every call
returns but for `set_cursor_pos` at its assertion: no index is out of range, no subtraction
underflows, and the loop of a backspace ends. -/
theorem console_safe {s : Console} (h : Reachable s) :
    s.cursorPos ≤ viewHeight * viewWidth ∧ s.buffer.length = viewHeight * viewWidth ∧
      ∀ c : Call, (c.Passes → ∃ s', c.exec.run s = .ok () s') ∧
        (¬ c.Passes → c.exec.run s = .error (.assertion "") s) := by
  obtain ⟨t, rfl⟩ := h.screen
  refine ⟨t.cursor_le, t.length_buffer, fun c => ⟨fun hc => ?_, fun hc => ?_⟩⟩
  · rw [c.exec_eq]
    exact ⟨_, run_ops hc t⟩
  · cases c with
    | op o => exact o.exec_error t.toConsole fun ho => hc (List.forall_mem_singleton.mpr ho)
    | write text => exact absurd (List.forall_mem_map.mpr fun _ _ => trivial) hc
    | writeStr text => exact absurd (List.forall_mem_map.mpr fun _ _ => trivial) hc

theorem console_safe_init :
    ∃ s', (Call.writeStr [0x61, 0x0A, 0x08]).exec.run (Console.init ⟨0, fun _ => 0⟩) = .ok () s' :=
  ((console_safe (reachable_init ⟨0, fun _ => 0⟩)).2.2 (.writeStr [0x61, 0x0A, 0x08])).1
    (List.forall_mem_map.mpr fun _ _ => trivial)

/-! ## A byte is stored -/

/-- After `write_u8` the cell just before the position holds the byte in the current colour. -/
def Stores (s : Console) (char : UInt8) : Prop :=
  ∃ s', (Console.writeU8 char).run s = .ok () s' ∧ 0 < s'.cursorPos ∧
    s'.buffer[s'.cursorPos - 1]? = some (vgaEntry s'.colorCode char)

/-- What is written when the screen is full is lost, unless it is what the last cell holds. -/
theorem stores_full_iff (s : Screen) (char : UInt8) (hfull : s.cursorPos = viewHeight * viewWidth) :
    Stores s.toConsole char ↔
      s.buffer[viewHeight * viewWidth - 1]? = some (vgaEntry s.colorCode char) := by
  have hrun := s.writeU8_run char
  rw [s.byte_full char hfull] at hrun
  constructor
  · rintro ⟨s', hs', hpos, hcell⟩
    cases hrun.symm.trans hs'
    rwa [hfull] at hcell
  · intro hcell
    exact ⟨_, hrun, by rw [hfull]; decide, by rw [hfull]; exact hcell⟩

/-- A byte is stored unless the screen is full. -/
theorem stores_iff {s : Console} (h : Reachable s) {char : UInt8} (hnl : char ≠ 0x0A)
    (hbs : char ≠ 0x08) :
    Stores s char ↔ s.cursorPos ≠ viewHeight * viewWidth ∨
      s.buffer[viewHeight * viewWidth - 1]? = some (vgaEntry s.colorCode char) := by
  obtain ⟨t, rfl⟩ := h.screen
  by_cases hfull : t.cursorPos = viewHeight * viewWidth
  · rw [stores_full_iff t char hfull]
    exact ⟨.inr, fun hcell => hcell.elim (fun hne => absurd hfull hne) id⟩
  · have hlt : t.cursorPos < viewHeight * viewWidth := Nat.lt_of_le_of_ne t.cursor_le hfull
    have hrun := t.writeU8_run char
    rw [t.byte_put hnl hbs hlt] at hrun
    refine iff_of_true ⟨_, hrun, Nat.succ_pos _, ?_⟩ (.inl hfull)
    exact List.getElem?_set_self (t.length_buffer ▸ hlt)

theorem stores_first : Stores (Console.init ⟨0, fun _ => 0⟩) 0x61 :=
  (stores_iff (reachable_init ⟨0, fun _ => 0⟩) (by decide) (by decide)).mpr (.inl (by decide))

/-- As many bytes as there are cells fill the screen. -/
theorem write_screenful (crtc : Crtc) {char : UInt8} (hnl : char ≠ 0x0A) (hbs : char ≠ 0x08) :
    ∃ s : Screen, (Console.write (List.replicate 2000 char)).run (Console.init crtc)
        = .ok () s.toConsole ∧ s.cursorPos = viewHeight * viewWidth ∧
      s.colorCode = (Console.init crtc).colorCode ∧
      s.buffer = List.replicate 2000 (vgaEntry (Console.init crtc).colorCode char) := by
  have htext : ∀ c ∈ List.replicate 2000 char, c ≠ 0x0A ∧ c ≠ 0x08 := by
    intro c hc
    rw [List.eq_of_mem_replicate hc]
    exact ⟨hnl, hbs⟩
  obtain ⟨hcolor, hpos, hbuffer⟩ := Screen.foldl_byte_text htext (Screen.init crtc)
    (by rw [List.length_replicate]; exact Nat.le_refl 2000)
  refine ⟨_, (Screen.init crtc).write_run _, hpos.trans ?_, hcolor, hbuffer.trans ?_⟩
  · rw [List.length_replicate]
    rfl
  · rw [List.length_replicate, List.map_replicate]
    show List.take 0 _ ++ _ ++ List.drop (0 + 2000) (List.replicate (25 * 80) _) = _
    rw [List.take_zero, List.nil_append, List.drop_replicate]
    exact List.append_nil _

theorem full_screen_swallows : ∃ s,
    (Console.write (List.replicate 2000 0x61)).run (Console.init ⟨0, fun _ => 0⟩) = .ok () s ∧
      Reachable s ∧ ¬ Stores s 0x62 := by
  obtain ⟨s, hrun, hpos, hcolor, hbuffer⟩ :=
    write_screenful ⟨0, fun _ => 0⟩ (by decide : (0x61 : UInt8) ≠ 0x0A) (by decide)
  refine ⟨s.toConsole, hrun, ⟨⟨0, fun _ => 0⟩, [.write (List.replicate 2000 0x61)], ?_⟩, ?_⟩
  · rw [run_eq_ops, List.flatMap_cons, List.flatMap_nil, List.append_nil, ← Call.exec_eq]
    exact hrun
  · rw [stores_full_iff s 0x62 hpos, hbuffer, hcolor, List.getElem?_replicate]
    decide

/-! ## Positions by coordinates -/

/-- What `set_cursor_pos` is for: it returns, `get_cursor_pos` gives the coordinates back, and a
byte written then goes to their cell and to no other. -/
def Addresses (s : Console) (x y char : UInt8) : Prop :=
  ∃ t u, (Console.setCursorPos x y).run s = .ok () t ∧ t.getCursorPos = (x, y) ∧
    (Console.writeU8 char).run t = .ok () u ∧
    u.buffer[y.toNat * viewWidth + x.toNat]? = some (vgaEntry s.colorCode char) ∧
    ∀ i, i ≠ y.toNat * viewWidth + x.toNat → u.buffer[i]? = s.buffer[i]?

/-- The product of two coordinates is the index of their cell only at the origin. -/
theorem mul_eq_index_iff {x y : ℕ} (hx : x < viewWidth) :
    x * y = y * viewWidth + x ↔ x = 0 ∧ y = 0 := by
  constructor
  · intro h
    have hle : x * y ≤ (viewWidth - 1) * y := Nat.mul_le_mul_right y (Nat.le_pred_of_lt hx)
    simp only [viewWidth] at *
    omega
  · rintro ⟨rfl, rfl⟩
    rfl

theorem Screen.mul_lt_of_view {x y : UInt8} (hx : x.toNat < viewWidth) (hy : y.toNat < viewHeight) :
    x.toNat * y.toNat < viewHeight * viewWidth := by
  rw [Nat.mul_comm]
  exact Nat.mul_lt_mul'' hy hx

theorem origin_of_addresses (s : Screen) {x y char : UInt8} (hx : x.toNat < viewWidth)
    (hy : y.toNat < viewHeight) (h : Addresses s.toConsole x y char) : x = 0 ∧ y = 0 := by
  have hpos := Screen.mul_lt_of_view hx hy
  obtain ⟨t, u, ht, hget, -⟩ := h
  cases (s.setCursorPos_run hpos).symm.trans ht
  have hcol := congrArg (UInt8.toNat ·.1) hget
  have hrow := congrArg (UInt8.toNat ·.2) hget
  change (UInt8.ofNat (x.toNat * y.toNat % viewWidth)).toNat = x.toNat at hcol
  change (UInt8.ofNat (x.toNat * y.toNat / viewWidth)).toNat = y.toNat at hrow
  rw [UInt8.toNat_ofNat'] at hcol hrow
  have hlt : x.toNat * y.toNat < 2000 := hpos
  have hindex : x.toNat * y.toNat = y.toNat * viewWidth + x.toNat := by
    simp only [viewWidth] at *
    omega
  obtain ⟨hx0, hy0⟩ := (mul_eq_index_iff hx).mp hindex
  exact ⟨UInt8.toNat_inj.mp hx0, UInt8.toNat_inj.mp hy0⟩

/-- `set_cursor_pos` takes the product of the coordinates for the position, and that is right at
the origin and nowhere else. -/
theorem addresses_iff {s : Console} (h : Reachable s) {x y char : UInt8}
    (hx : x.toNat < viewWidth) (hy : y.toNat < viewHeight) (hnl : char ≠ 0x0A)
    (hbs : char ≠ 0x08) : Addresses s x y char ↔ x = 0 ∧ y = 0 := by
  obtain ⟨t, rfl⟩ := h.screen
  refine ⟨origin_of_addresses t hx hy, ?_⟩
  rintro ⟨rfl, rfl⟩
  have hpos := Screen.mul_lt_of_view hx hy
  have hwrite := (t.place 0 (Nat.zero_le _)).writeU8_run char
  rw [Screen.byte_put _ hnl hbs hpos] at hwrite
  have hfirst : 0 < t.buffer.length := by rw [t.length_buffer]; decide
  refine ⟨_, _, t.setCursorPos_run hpos, ?_, hwrite, List.getElem?_set_self hfirst, ?_⟩
  · show (UInt8.ofNat (0 * 0 % viewWidth), UInt8.ofNat (0 * 0 / viewWidth)) = (0, 0)
    decide
  · intro i hi
    exact List.getElem?_set_ne (Ne.symm hi)

theorem addresses_origin : Addresses (Console.init ⟨0, fun _ => 0⟩) 0 0 0x61 :=
  (addresses_iff (reachable_init ⟨0, fun _ => 0⟩) (by decide) (by decide) (by decide)
    (by decide)).mpr ⟨rfl, rfl⟩

/-- Column 5 of row 3 is taken for column 15 of row 0. -/
theorem addresses_elsewhere :
    (∃ t, (Console.setCursorPos 5 3).run (Console.init ⟨0, fun _ => 0⟩) = .ok () t ∧
      t.getCursorPos = (15, 0)) ∧ ¬ Addresses (Console.init ⟨0, fun _ => 0⟩) 5 3 0x61 := by
  refine ⟨⟨_, (Screen.init ⟨0, fun _ => 0⟩).setCursorPos_run (by decide), by decide⟩, ?_⟩
  intro h
  exact absurd (origin_of_addresses (Screen.init ⟨0, fun _ => 0⟩) (by decide) (by decide) h)
    (by decide)

/-! ## The cursor of the device -/

/-- The device shows the position. -/
def Console.Shown (s : Console) : Prop := s.crtc.cursor = s.cursorPos

theorem Screen.shown_sync (s : Screen) : s.sync.Shown := s.crtc.cursor_program s.cursor_lt

/-- A newline inside a row but the last moves the position and not the cursor. -/
theorem Screen.not_shown_newline {s : Screen} (hshown : s.Shown) (hdvd : ¬ viewWidth ∣ s.cursorPos)
    (hlt : s.cursorPos < (viewHeight - 1) * viewWidth) :
    ¬ (s.byte 0x0A).Shown ∧ viewWidth ∣ (s.byte 0x0A).cursorPos ∧
      (s.byte 0x0A).cursorPos < viewHeight * viewWidth := by
  obtain ⟨hle, hbyte⟩ := s.byte_newline_of_lt hlt
  have hround : viewWidth ∣ Usize.roundUp s.cursorPos viewWidth := Usize.dvd_roundUp (by decide)
  rw [hbyte]
  refine ⟨fun h => hdvd ?_, hround, ?_⟩
  · have heq : s.cursorPos = Usize.roundUp s.cursorPos viewWidth := hshown.symm.trans h
    rwa [← heq] at hround
  · exact Nat.lt_of_le_of_lt
      ((Usize.roundUp_le_iff (by decide) (by decide)).mpr (Nat.le_of_lt hlt)) (by decide)

theorem Screen.shown_newline_last {s : Screen} (hdvd : ¬ viewWidth ∣ s.cursorPos)
    (hge : (viewHeight - 1) * viewWidth ≤ s.cursorPos) : (s.byte 0x0A).Shown := by
  have hlast : (viewHeight - 1) * viewWidth < s.cursorPos :=
    Nat.lt_of_le_of_ne hge fun he => hdvd (he ▸ Nat.dvd_mul_left _ _)
  have hin : s.cursorPos < viewHeight * viewWidth :=
    Nat.lt_of_le_of_ne s.cursor_le fun he => hdvd (he ▸ Nat.dvd_mul_left _ _)
  rw [s.byte_newline_last hlast hin]
  exact Screen.shown_sync _

namespace Op

/-- The steps that do not say where the position is to be: a newline and a change of colour. -/
def Idle : Op → Prop
  | writeU8 char => char = 0x0A
  | setColor .. => True
  | _ => False

/-- Any other step programs the device, unless the screen is full. -/
theorem shown_of_not_idle (s : Screen) {o : Op} (hpass : o.Passes) (h : ¬ o.Idle) :
    (o.apply s).Shown ∨ (s.cursorPos = viewHeight * viewWidth ∧ o.apply s = s) := by
  cases o with
  | writeU8 char =>
      by_cases hfull : s.cursorPos = viewHeight * viewWidth
      · exact .inr ⟨hfull, s.byte_full char hfull⟩
      · refine .inl ?_
        have hlt := Nat.lt_of_le_of_ne s.cursor_le hfull
        show (s.byte char).Shown
        rw [Screen.byte, dif_pos hlt, if_neg (show char ≠ 0x0A from h)]
        split
        · exact Screen.shown_sync _
        · exact Screen.shown_sync _
  | clear => exact .inl (Screen.shown_sync _)
  | setColor fg bg isBright => exact absurd trivial h
  | setCursorPos x y =>
      refine .inl ?_
      have happly : apply s (setCursorPos x y)
          = s.place (x.toNat * y.toNat) (Nat.le_of_lt hpass) := dif_pos hpass
      rw [happly]
      exact Screen.shown_sync _

end Op

/-- The run ends in a newline that moves the position without scrolling, and after it come only
newlines and changes of colour. -/
def EndsInNewline (crtc : Crtc) (ops : List Op) : Prop :=
  ∃ before after, ops = before ++ .writeU8 0x0A :: after ∧ (∀ o ∈ after, o.Idle) ∧
    ∃ s, (before.forM Op.exec).run (Console.init crtc) = .ok () s ∧
      ¬ viewWidth ∣ s.cursorPos ∧ s.cursorPos < (viewHeight - 1) * viewWidth

theorem endsInNewline_concat {crtc : Crtc} {ops : List Op} (hpass : ∀ o ∈ ops, o.Passes) (o : Op) :
    EndsInNewline crtc (ops ++ [o]) ↔ (o.Idle ∧ EndsInNewline crtc ops) ∨
      (o = .writeU8 0x0A ∧ ¬ viewWidth ∣ (Screen.after crtc ops).cursorPos ∧
        (Screen.after crtc ops).cursorPos < (viewHeight - 1) * viewWidth) := by
  have hrun := run_ops hpass (Screen.init crtc)
  constructor
  · rintro ⟨before, after, heq, hidle, s, hs, hmid⟩
    rcases List.eq_nil_or_concat after with rfl | ⟨after, last, rfl⟩
    · obtain ⟨rfl, hlast⟩ := List.append_inj' heq rfl
      cases hrun.symm.trans hs
      exact .inr ⟨List.singleton_inj.mp hlast, hmid⟩
    · rw [List.concat_eq_append, ← List.cons_append, ← List.append_assoc] at heq
      rw [List.concat_eq_append] at hidle
      obtain ⟨rfl, hlast⟩ := List.append_inj' heq rfl
      cases List.singleton_inj.mp hlast
      refine .inl ⟨hidle o (List.mem_append_right _ List.mem_cons_self), before, after, rfl, ?_,
        s, hs, hmid⟩
      exact fun o' ho' => hidle o' (List.mem_append_left _ ho')
  · rintro (⟨ho, before, after, rfl, hidle, hmid⟩ | ⟨rfl, hmid⟩)
    · refine ⟨before, after ++ [o], by simp, ?_, hmid⟩
      exact List.forall_mem_append.mpr ⟨hidle, List.forall_mem_singleton.mpr ho⟩
    · exact ⟨ops, [], rfl, fun _ h => absurd h List.not_mem_nil, _, hrun, hmid⟩

/-- What is known of the device along a run.  Before the first step that programs it the position
is still 0.  After it, the device shows the position or the position is the start of a row, where
a newline left it. -/
def Tracked (crtc : Crtc) (ops : List Op) : Prop :=
  ((∀ o ∈ ops, o.Idle) ∧ (Screen.after crtc ops).cursorPos = 0) ∨
  ((∃ o ∈ ops, ¬ o.Idle) ∧ ((Screen.after crtc ops).Shown ↔ ¬ EndsInNewline crtc ops) ∧
    ((Screen.after crtc ops).Shown ∨ (viewWidth ∣ (Screen.after crtc ops).cursorPos ∧
      (Screen.after crtc ops).cursorPos < viewHeight * viewWidth)))

theorem tracked_not_idle {crtc : Crtc} {ops : List Op} {o : Op} (hpass : ∀ o ∈ ops, o.Passes)
    (h : Tracked crtc ops) (ho : o.Passes) (hidle : ¬ o.Idle) : Tracked crtc (ops ++ [o]) := by
  have hshown : (Screen.after crtc (ops ++ [o])).Shown := by
    rw [Screen.after_concat]
    rcases Op.shown_of_not_idle (Screen.after crtc ops) ho hidle with hshown | ⟨hfull, hsame⟩
    · exact hshown
    · -- the screen is full, so the position is not 0 and no newline has left it there
      rw [hsame]
      rcases h with ⟨-, hzero⟩ | ⟨-, -, hshown | ⟨-, hlt⟩⟩
      · exact absurd (hzero.symm.trans hfull) (by decide)
      · exact hshown
      · exact absurd hfull (Nat.ne_of_lt hlt)
  refine .inr ⟨⟨o, by simp, hidle⟩, iff_of_true hshown ?_, .inl hshown⟩
  rw [endsInNewline_concat hpass]
  rintro (⟨hi, -⟩ | ⟨rfl, -⟩)
  · exact hidle hi
  · exact hidle rfl

/-- A step that leaves the position and the device alone, at a position where a newline does
nothing or that is no newline. -/
theorem tracked_of_same {crtc : Crtc} {ops : List Op} {o : Op} (hpass : ∀ o ∈ ops, o.Passes)
    (h : Tracked crtc ops) (hidle : o.Idle)
    (hpos : (o.apply (Screen.after crtc ops)).cursorPos = (Screen.after crtc ops).cursorPos)
    (hcrtc : (o.apply (Screen.after crtc ops)).crtc = (Screen.after crtc ops).crtc)
    (hnl : o = .writeU8 0x0A → viewWidth ∣ (Screen.after crtc ops).cursorPos) :
    Tracked crtc (ops ++ [o]) := by
  have hends : EndsInNewline crtc (ops ++ [o]) ↔ EndsInNewline crtc ops := by
    rw [endsInNewline_concat hpass]
    constructor
    · rintro (⟨-, h⟩ | ⟨ho, hmid, -⟩)
      · exact h
      · exact absurd (hnl ho) hmid
    · exact fun h => .inl ⟨hidle, h⟩
  unfold Tracked Console.Shown
  rw [Screen.after_concat, hpos, hcrtc, hends]
  rcases h with ⟨hall, hzero⟩ | ⟨⟨o', ho', hn⟩, hrest⟩
  · exact .inl ⟨List.forall_mem_append.mpr ⟨hall, List.forall_mem_singleton.mpr hidle⟩, hzero⟩
  · exact .inr ⟨⟨o', List.mem_append_left _ ho', hn⟩, hrest⟩

theorem tracked_newline {crtc : Crtc} {ops : List Op} (hpass : ∀ o ∈ ops, o.Passes)
    (h : Tracked crtc ops) : Tracked crtc (ops ++ [.writeU8 0x0A]) := by
  by_cases hdvd : viewWidth ∣ (Screen.after crtc ops).cursorPos
  · have hsame := (Screen.after crtc ops).byte_newline_of_dvd hdvd
    exact tracked_of_same hpass h rfl (congrArg (·.cursorPos) hsame) (congrArg (·.crtc) hsame)
      fun _ => hdvd
  -- the position is not the start of a row, so it has been set before and the device shows it
  rcases h with ⟨-, hzero⟩ | ⟨⟨o, ho, hn⟩, hends, hshown | ⟨hstart, -⟩⟩
  · exact absurd (hzero ▸ Nat.dvd_zero _) hdvd
  · refine .inr ⟨⟨o, List.mem_append_left _ ho, hn⟩, ?_⟩
    rw [Screen.after_concat, endsInNewline_concat hpass]
    rcases Nat.lt_or_ge (Screen.after crtc ops).cursorPos ((viewHeight - 1) * viewWidth)
      with hlt | hge
    · obtain ⟨hnot, hrest⟩ := Screen.not_shown_newline hshown hdvd hlt
      exact ⟨iff_of_false hnot (not_not.mpr (.inr ⟨rfl, hdvd, hlt⟩)), .inr hrest⟩
    · have hnow := Screen.shown_newline_last hdvd hge
      refine ⟨iff_of_true hnow ?_, .inl hnow⟩
      rintro (⟨-, hstale⟩ | ⟨-, -, hlt⟩)
      · exact hends.mp hshown hstale
      · exact absurd hlt (Nat.not_lt.mpr hge)
  · exact absurd hstart hdvd

theorem tracked_run (crtc : Crtc) {ops : List Op} (hpass : ∀ o ∈ ops, o.Passes) :
    Tracked crtc ops := by
  induction ops using List.reverseRecOn with
  | nil => exact .inl ⟨fun _ h => absurd h List.not_mem_nil, rfl⟩
  | append_singleton ops o ih =>
      obtain ⟨hops, ho⟩ := List.forall_mem_append.mp hpass
      rw [List.forall_mem_singleton] at ho
      have h := ih hops
      cases o with
      | writeU8 char =>
          by_cases hnl : char = 0x0A
          · rw [hnl]
            exact tracked_newline hops h
          · exact tracked_not_idle hops h ho hnl
      | clear => exact tracked_not_idle hops h ho id
      | setColor fg bg isBright => exact tracked_of_same hops h trivial rfl rfl (by simp)
      | setCursorPos x y => exact tracked_not_idle hops h ho id

/-- A run in which the position ever leaves the start has a step that says where it is to be. -/
theorem not_idle_of_moved {crtc : Crtc} {before ops : List Op} (hpass : ∀ o ∈ ops, o.Passes)
    (hb : before <+: ops) (hmoved : (Screen.after crtc before).cursorPos ≠ 0) :
    ∃ o ∈ ops, ¬ o.Idle := by
  rcases tracked_run crtc fun o ho => hpass o (hb.subset ho) with
    ⟨-, hzero⟩ | ⟨⟨o, ho, hn⟩, -⟩
  · exact absurd hzero hmoved
  · exact ⟨o, hb.subset ho, hn⟩

/-- The device shows the position at the end of a run unless the run ends in a newline that moved
it and did not scroll.  Some step must have said where the position is to be (`not_idle_of_moved`):
`init` does not program the device. -/
theorem shown_iff {crtc : Crtc} {calls : List Call} {s : Console}
    (hrun : (calls.forM Call.exec).run (Console.init crtc) = .ok () s)
    (hmoves : ∃ o ∈ calls.flatMap Call.ops, ¬ o.Idle) :
    s.crtc.cursor = s.cursorPos ↔ ¬ EndsInNewline crtc (calls.flatMap Call.ops) := by
  have hpass := passes_of_calls hrun
  cases (run_calls calls hpass crtc).symm.trans hrun
  rcases tracked_run crtc hpass with ⟨hall, -⟩ | ⟨-, hshown, -⟩
  · obtain ⟨o, ho, hn⟩ := hmoves
    exact absurd (hall o ho) hn
  · exact hshown

theorem shown_after_text : ∃ s,
    ([Call.writeStr [0x61]].forM Call.exec).run (Console.init ⟨0, fun _ => 0⟩) = .ok () s ∧
      s.crtc.cursor = s.cursorPos := by
  have hrun := run_calls [.writeStr [0x61]]
    (fun o ho => by cases List.mem_singleton.mp ho; trivial) ⟨0, fun _ => 0⟩
  refine ⟨_, hrun, (shown_iff hrun ⟨.writeU8 0x61, List.mem_cons_self, ?_⟩).mpr ?_⟩
  · exact fun h => absurd (show (0x61 : UInt8) = 0x0A from h) (by decide)
  · rintro ⟨before, after, heq, -⟩
    have hmem : Op.writeU8 0x0A ∈ [Call.writeStr [0x61]].flatMap Call.ops := by
      rw [heq]
      simp
    exact absurd hmem (by decide)

/-- After `a` and a newline the position is 80 and the cursor is shown at 1. -/
theorem newline_not_shown : ∃ s,
    ([Call.writeStr [0x61, 0x0A]].forM Call.exec).run (Console.init ⟨0, fun _ => 0⟩) = .ok () s ∧
      s.cursorPos = 80 ∧ s.crtc.cursor = 1 := by
  have hrun := run_calls [.writeStr [0x61, 0x0A]]
    (List.forall_mem_cons.mpr ⟨trivial, List.forall_mem_singleton.mpr trivial⟩) ⟨0, fun _ => 0⟩
  -- one step at a time: the device is programmed by the first and left alone by the second
  have hput : (Screen.init ⟨0, fun _ => 0⟩).byte 0x61
      = (Screen.init ⟨0, fun _ => 0⟩).put 0x61 (by decide) :=
    Screen.byte_put _ (by decide) (by decide) _
  obtain ⟨hle, hnl⟩ := Screen.byte_newline_of_lt
    ((Screen.init ⟨0, fun _ => 0⟩).put 0x61 (by decide)) (by decide)
  have hafter : Screen.after ⟨0, fun _ => 0⟩ ([Call.writeStr [0x61, 0x0A]].flatMap Call.ops)
      = _ := (congrArg (Screen.byte · 0x0A) hput).trans hnl
  rw [hafter] at hrun
  exact ⟨_, hrun, show Usize.roundUp 1 viewWidth = 80 by decide,
    Crtc.cursor_program _ (by decide : 1 < 2 ^ 16)⟩

end Koe
