/-
# `KoeOs.Drivers.Vga` — `src/drivers/vga.rs`

The text console: 25 rows of 80 cells in one buffer, a position in it, and the
cursor that the CRTC shows.  A cell is a colour and a byte.

    write_u8('\n')    on to the next multiple of the width; scroll at the end
    write_u8(8)       rub out the cell before the position and skip the blanks before it
    write_u8(c)       store `c` and go one further

The CRTC is a device with an index port and a data port; a write to the data port
goes to the register the index port was last given.  `sync_cursor` writes the two
bytes of the position to two of its registers.

Every index into the buffer is checked here, as `cargo build` has it checked, and
so is the arithmetic on the position, a `u16`.
-/
import KoeOs.Rust.Usize

namespace Koe

/-- Colours of the console. -/
inductive Color where
  | black
  | blue
  | green
  | cyan
  | red
  | purple
  | brown
  | gray
  deriving DecidableEq, Repr

/-- `color as u8`. -/
def Color.code : Color → UInt8
  | .black => 0
  | .blue => 1
  | .green => 2
  | .cyan => 3
  | .red => 4
  | .purple => 5
  | .brown => 6
  | .gray => 7

/-! ## The CRTC -/

def crtcAddrPort : ℕ := 0x3D4

def crtcDataPort : ℕ := 0x3D5

def cursorLocHighIdx : UInt8 := 0xE

def cursorLocLowIdx : UInt8 := 0xF

/-- The device behind the two ports: the register selected, and the registers. -/
@[ext] structure Crtc where
  index : UInt8
  regs : UInt8 → UInt8

namespace Crtc

/-- What `out dx, al` does to the device. -/
def out (d : Crtc) (port : ℕ) (value : UInt8) : Crtc :=
  if port = crtcAddrPort then { d with index := value }
  else if port = crtcDataPort then
    { d with regs := fun r => if r = d.index then value else d.regs r }
  else d

/-- Where the device shows the cursor. -/
def cursor (d : Crtc) : ℕ :=
  (d.regs cursorLocHighIdx).toNat * 256 + (d.regs cursorLocLowIdx).toNat

end Crtc

/-! ## The console -/

/-- Height of the console. -/
def viewHeight : ℕ := 25

/-- Width of the console. -/
def viewWidth : ℕ := 80

def vgaEntry (colorCode char : UInt8) : UInt16 := (colorCode.toUInt16 <<< 8) + char.toUInt16

def entryGetChar (entry : UInt16) : UInt8 := (entry &&& 0x00FF).toUInt8

def colorCode (fg bg : Color) (isBright : Bool) : UInt8 :=
  fg.code + ((if isBright then 1 else 0 : UInt8) <<< 3) + (bg.code <<< 4)

/-- A `VGABuffer`, and the device it programs. -/
@[ext] structure Console where
  colorCode : UInt8
  /-- A `u16`. -/
  cursorPos : ℕ
  buffer : List UInt16
  crtc : Crtc

section Slices

variable {σ α : Type}

/-- `slice[i]`. -/
def sliceIndex (l : List α) (i : ℕ) : Code σ α :=
  match l[i]? with
  | some a => pure a
  | none => throw .bounds

/-- `slice[i] = a`. -/
def sliceSet (l : List α) (i : ℕ) (a : α) : Code σ (List α) :=
  if i < l.length then pure (l.set i a) else throw .bounds

/-- `slice.copy_within(src.., dest)`. -/
def sliceCopyWithin (l : List α) (src dest : ℕ) : Code σ (List α) :=
  if src ≤ l.length ∧ dest ≤ src then
    pure (l.take dest ++ l.drop src ++ l.drop (dest + (l.length - src)))
  else throw .bounds

/-- `slice[start..].fill(a)`. -/
def sliceFillFrom (l : List α) (start : ℕ) (a : α) : Code σ (List α) :=
  if start ≤ l.length then pure (l.take start ++ List.replicate (l.length - start) a)
  else throw .bounds

end Slices

namespace Console

/-- The console when it is first used.  Nothing is known of the device then. -/
def init (crtc : Crtc) : Console where
  colorCode := Koe.colorCode .black .black false
  cursorPos := 0
  buffer := List.replicate (viewHeight * viewWidth) (vgaEntry (Koe.colorCode .black .black false) 0)
  crtc := crtc

def outb (port : ℕ) (value : UInt8) : Code Console Unit :=
  modify fun s => { s with crtc := s.crtc.out port value }

def syncCursor : Code Console Unit := do
  outb crtcAddrPort cursorLocLowIdx
  outb crtcDataPort (UInt8.ofNat (0x00FF &&& (← get).cursorPos))
  outb crtcAddrPort cursorLocHighIdx
  outb crtcDataPort (UInt8.ofNat ((← get).cursorPos >>> 8))

def setColor (fg bg : Color) (isBright : Bool) : Code Console Unit :=
  modify fun s => { s with colorCode := Koe.colorCode fg bg isBright }

def setCursorPos (x y : UInt8) : Code Console Unit := do
  let newPos ← U16.checked (x.toNat * y.toNat)
  Code.assert (newPos < viewHeight * viewWidth) ""
  modify fun s => { s with cursorPos := newPos }
  syncCursor

def getCursorPos (s : Console) : UInt8 × UInt8 :=
  (UInt8.ofNat (s.cursorPos % viewWidth), UInt8.ofNat (s.cursorPos / viewWidth))

/-- Fill the buffer with blanks of the current colour. -/
def clear : Code Console Unit := do
  modify fun s =>
    { s with buffer := List.replicate s.buffer.length (vgaEntry s.colorCode 0) }
  setCursorPos 0 0
  syncCursor

def scrollUp : Code Console Unit := do
  let moved ← sliceCopyWithin (← get).buffer viewWidth 0
  modify fun s => { s with buffer := moved }
  let filler := vgaEntry (← get).colorCode 0
  let filled ← sliceFillFrom moved (← Usize.sub moved.length viewWidth) filler
  modify fun s => { s with buffer := filled }
  let pos ← Usize.sub (← get).cursorPos viewWidth
  modify fun s => { s with cursorPos := pos }
  syncCursor

/-- The loop of a backspace, to the end of the text before the position.  It takes at most as
many rounds as there are values of a `u16`. -/
def skipBlanks : ℕ → Code Console Unit
  | 0 => throw .outOfFuel
  | fuel + 1 => do
      let s ← get
      if 0 < s.cursorPos then
        let entry ← sliceIndex s.buffer (← Usize.sub s.cursorPos 1)
        if entryGetChar entry = 0 then
          let pos ← Usize.sub s.cursorPos 1
          set { s with cursorPos := pos }
          skipBlanks fuel

/-- A backspace, up to its loop: blank the cell before the position and go there. -/
def eraseBack : Code Console Unit := do
  if (← get).cursorPos ≠ 0 then
    let pos ← Usize.sub (← get).cursorPos 1
    modify fun s => { s with cursorPos := pos }
    let buffer ← sliceSet (← get).buffer pos (vgaEntry (← get).colorCode 0)
    modify fun s => { s with buffer := buffer }

def writeU8 (char : UInt8) : Code Console Unit := do
  if (← get).cursorPos = viewHeight * viewWidth then return ()
  if char = 0x0A then
    let pos ← U16.checked (Usize.roundUp (← get).cursorPos viewWidth)
    modify fun s => { s with cursorPos := pos }
    if (← get).buffer.length % 2 ^ 16 ≤ pos then scrollUp
  else if char = 0x08 then
    eraseBack
    skipBlanks (2 ^ 16)
    syncCursor
  else
    let s ← get
    let buffer ← sliceSet s.buffer s.cursorPos (vgaEntry s.colorCode char)
    modify fun s => { s with buffer := buffer }
    let pos ← U16.checked (s.cursorPos + 1)
    modify fun s => { s with cursorPos := pos }
    syncCursor

def write (text : List UInt8) : Code Console Unit := text.forM writeU8

/-- `Write::write_str`, on the bytes of the string. -/
def writeStr (s : List UInt8) : Code Console Unit := s.forM writeU8

end Console

end Koe
