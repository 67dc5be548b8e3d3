/-
# `KoeOs.Io.Monitor` — from the keyboard's interrupt to the console

The handler of the keyboard's interrupt, in `src/drivers/ps2.rs`, parses a byte and
pushes the packet into a ring of 128; the loop of `src/io/monitor.rs` pops packets,
keeps the modifiers, and writes characters to the console.  The ring is one of the
`ringbuf` crate, of which nothing is assumed but its laws (`RingBuffer.Lawful`), and that
its two ends may be used at the same time.  The handler may run between any two steps of
the loop:

    irq       `ps2_keyboard_handler`, with a byte of the controller
    pop       `next`: a packet is taken out of the ring, if there is one
    parse     `next`: `VirtKeyboard::parse` of that packet
    write     `ketoa`, and `write_u8` of the character, if there is one

The line is acknowledged after the handler, which is therefore not interrupted by itself:
each of its runs is one step.  Interrupts are on before `drivers::init` sets up the two
statics, one after the other; a byte that comes before the first is not parsed.
-/
import KoeOs.Drivers.Editor
import KoeOs.Drivers.Ps2
import KoeOs.Lib.RingBuffer
import Mathlib.Logic.Relation

namespace Koe

abbrev Packet := KeyCode × Bool

/-! ## Characters -/

def key1 : KeyCode := 2
def key9 : KeyCode := 10
def key0 : KeyCode := 11
def keyEnter : KeyCode := 28

def keyA : KeyCode := 30
def keyB : KeyCode := 48
def keyC : KeyCode := 46
def keyD : KeyCode := 32
def keyE : KeyCode := 18
def keyF : KeyCode := 33
def keyG : KeyCode := 34
def keyH : KeyCode := 35
def keyI : KeyCode := 23
def keyJ : KeyCode := 36
def keyK : KeyCode := 37
def keyL : KeyCode := 38
def keyM : KeyCode := 50
def keyN : KeyCode := 49
def keyO : KeyCode := 24
def keyP : KeyCode := 25
def keyQ : KeyCode := 16
def keyR : KeyCode := 19
def keyS : KeyCode := 31
def keyT : KeyCode := 20
def keyU : KeyCode := 22
def keyV : KeyCode := 47
def keyW : KeyCode := 17
def keyX : KeyCode := 45
def keyY : KeyCode := 21
def keyZ : KeyCode := 44

/-- The arms of `ketoa` for letters, with the small letters from `a` on. -/
def letterKeys : List (KeyCode × UInt8) :=
  [(keyA, 0x61), (keyB, 0x62), (keyC, 0x63), (keyD, 0x64), (keyE, 0x65), (keyF, 0x66),
    (keyG, 0x67), (keyH, 0x68), (keyI, 0x69), (keyJ, 0x6A), (keyK, 0x6B), (keyL, 0x6C),
    (keyM, 0x6D), (keyN, 0x6E), (keyO, 0x6F), (keyP, 0x70), (keyQ, 0x71), (keyR, 0x72),
    (keyS, 0x73), (keyT, 0x74), (keyU, 0x75), (keyV, 0x76), (keyW, 0x77), (keyX, 0x78),
    (keyY, 0x79), (keyZ, 0x7A)]

def ketoa (ke : KeyEvent) : Option UInt8 :=
  if !ke.isPress then none
  else
    let isCap := ke.modifier.contains .capslock ^^ ke.modifier.contains .shift
    let capOffset : UInt8 := 32 * if isCap then 1 else 0
    if ke.key = key0 then some 0x30
    else if key1 ≤ ke.key ∧ ke.key ≤ key9 then some (0x31 + (ke.key - key1).toUInt8)
    else
      match letterKeys.lookup ke.key with
      | some letter => some (letter - capOffset)
      | none =>
        if ke.key = keyEnter then some 0x0A
        else if ke.key = keySpace then some 0x20
        else if ke.key = keyBackspace then some 0x08
        else none

/-! ## The two ends of the ring -/

section Ring

variable {R : Type} (ring : RingBuffer R Packet)

/-- The ring of `ps2::init`. -/
def keyBuffer : R := ring.new 128

structure Ps2KeyboardSrc (R : Type) where
  curSc : Sc1
  prod : R
  deriving DecidableEq, Repr

structure Ps2Keyboard (R : Type) where
  virt : VirtKeyboard
  src : R

/-- `ps2_keyboard_handler`, for the byte that `inb` read.  The state is `KEYBOARD_SRC`. -/
def ps2KeyboardHandler (byte : UInt8) : Code (Option (Ps2KeyboardSrc R)) Unit := do
  let some src ← get | return ()
  let (packet, sc) ← Code.locally src.curSc (Sc1.parse byte)
  match packet with
  | none => set (some { src with curSc := sc })
  -- whether there was room is not looked at
  | some packet => set (some (⟨sc, (ring.tryPush packet src.prod).2⟩ : Ps2KeyboardSrc R))

def Ps2Keyboard.next : Code (Ps2Keyboard R) (Option KeyEvent) := do
  let (packet, src) := ring.tryPop (← get).src
  modify fun s => { s with src := src }
  match packet with
  | none => return none
  | some packet =>
      Code.zoom virt (fun s virt => { s with virt := virt }) (VirtKeyboard.parse packet)

end Ring

/-- The rest of a round of `Monitor::start`, after `next`. -/
def Monitor.write (ke : Option KeyEvent) : Code Console Unit :=
  match ke.bind ketoa with
  | none => return ()
  | some ascii => Console.writeU8 ascii

/-! ## Runs -/

/-- Where the loop of the monitor is. -/
inductive Pc where
  | pop
  | parse (packet : Packet)
  | write (ke : Option KeyEvent)
  deriving DecidableEq

structure Terminal (R : Type) where
  /-- The parser of `KEYBOARD_SRC`, once that is set up. -/
  sc : Option Sc1
  /-- The keyboard of `KEYBOARD`, once that is set up. -/
  virt : Option VirtKeyboard
  /-- What the two share. -/
  ring : R
  pc : Pc
  console : Console
  /-- The packets that the handler has parsed, and whether the ring had room for them. -/
  heard : List (Packet × Bool)
  /-- The packets that the loop has taken. -/
  popped : List Packet

namespace Terminal

variable {R : Type} (ring : RingBuffer R Packet)

/-- Before `ps2::init`. -/
def boot (console : Console) : Terminal R where
  sc := none
  virt := none
  ring := keyBuffer ring
  pc := .pop
  console := console
  heard := []
  popped := []

/-- `KEYBOARD_SRC`. -/
def source (s : Terminal R) : Option (Ps2KeyboardSrc R) := s.sc.map (⟨·, s.ring⟩)

/-- The packet of a byte, if there is a parser. -/
def packet (s : Terminal R) (byte : UInt8) : Option Packet :=
  s.sc.bind fun _ => Sc1.parseNormal byte

/-- Whether the ring has room for a packet. -/
def room (s : Terminal R) : Bool := decide ((ring.iter s.ring).length < ring.capacity s.ring)

/-- The handler has run, and has left `src`. -/
def interrupted (s : Terminal R) (byte : UInt8) (src : Option (Ps2KeyboardSrc R)) : Terminal R :=
  { s with
    sc := src.map Ps2KeyboardSrc.curSc
    ring := src.elim s.ring Ps2KeyboardSrc.prod
    heard := s.heard ++ (s.packet byte).toList.map (·, s.room ring) }

/-- The steps of the loop. -/
inductive Loop : Terminal R → Terminal R → Prop
  | pop {s : Terminal R} (hpc : s.pc = .pop) (hv : s.virt ≠ none) :
      Loop s { s with
        ring := (ring.tryPop s.ring).2
        pc := (ring.tryPop s.ring).1.elim (.write none) .parse
        popped := s.popped ++ (ring.tryPop s.ring).1.toList }
  | parse {s : Terminal R} {p : Packet} {v w : VirtKeyboard} {ke : Option KeyEvent}
      (hpc : s.pc = .parse p) (hv : s.virt = some v)
      (h : (VirtKeyboard.parse p).run v = .ok ke w) :
      Loop s { s with virt := some w, pc := .write ke }
  | write {s : Terminal R} {ke : Option KeyEvent} {c : Console} (hpc : s.pc = .write ke)
      (h : (Monitor.write ke).run s.console = .ok () c) : Loop s { s with console := c, pc := .pop }

inductive Step : Terminal R → Terminal R → Prop
  | initSrc {s : Terminal R} (h : s.sc = none) : Step s { s with sc := some .normal }
  | initKeyboard {s : Terminal R} (h : s.virt = none) : Step s { s with virt := some .new }
  | irq {s : Terminal R} (byte : UInt8) {src : Option (Ps2KeyboardSrc R)}
      (h : (ps2KeyboardHandler ring byte).run s.source = .ok () src) :
      Step s (s.interrupted ring byte src)
  | loop {s t : Terminal R} (h : Loop ring s t) : Step s t

/-- The states of runs that begin with the console `c`. -/
inductive Reachable (c : Console) : Terminal R → Prop
  | boot : Reachable c (boot ring c)
  | step {s t : Terminal R} (hs : Reachable c s) (h : Step ring s t) : Reachable c t

end Terminal

/-! ## What packets stand for -/

/-- The modifiers after packets. -/
def modifiersAfter (packets : List Packet) : Modifier :=
  packets.foldl VirtKeyboard.nextModifier .empty

/-- The event of the last of some packets. -/
def lastEvent (before : List Packet) (p : Packet) : KeyEvent :=
  ⟨p.1, p.2, modifiersAfter (before ++ [p])⟩

/-- The characters that packets are typed for, from modifiers `m` on. -/
def typedFrom (m : Modifier) : List Packet → List UInt8
  | [] => []
  | p :: packets =>
      (ketoa ⟨p.1, p.2, VirtKeyboard.nextModifier m p⟩).toList ++
        typedFrom (VirtKeyboard.nextModifier m p) packets

/-- The characters that packets are typed for. -/
def typedText (packets : List Packet) : List UInt8 := typedFrom .empty packets

theorem typedFrom_append (m : Modifier) (packets packets' : List Packet) :
    typedFrom m (packets ++ packets') =
      typedFrom m packets ++ typedFrom (packets.foldl VirtKeyboard.nextModifier m) packets' := by
  induction packets generalizing m with
  | nil => rfl
  | cons p packets ih => rw [List.cons_append, typedFrom, ih, typedFrom, List.append_assoc]; rfl

theorem typedText_concat (before : List Packet) (p : Packet) :
    typedText (before ++ [p]) = typedText before ++ (ketoa (lastEvent before p)).toList := by
  rw [typedText, typedFrom_append, typedFrom, typedFrom, List.append_nil, lastEvent, modifiersAfter,
    List.foldl_concat]
  rfl

/-- The console once packets have been typed at the screen `c`. -/
def Screen.typed (c : Screen) (packets : List Packet) : Screen :=
  (typedText packets).foldl Screen.byte c

/-! ## The steps of the handler and the loop -/

section Ring

variable {R : Type} (ring : RingBuffer R Packet)

theorem handler_run (prod : R) (byte : UInt8) :
    (ps2KeyboardHandler ring byte).run (some ⟨.normal, prod⟩) = .ok () (some ⟨.normal,
      (Sc1.parseNormal byte).elim prod fun packet => (ring.tryPush packet prod).2⟩) := by
  rw [ps2KeyboardHandler, Code.get_bind]
  simp only
  rw [Code.bind_ok (Code.locally_ok (Sc1.parse_normal byte))]
  cases Sc1.parseNormal byte with
  | none => rfl
  | some packet => rfl

theorem handler_run_none (byte : UInt8) :
    (ps2KeyboardHandler ring byte).run none = .ok () none := rfl

variable {ring} in
theorem next_run {v w : VirtKeyboard} {src : R} {p : Packet} {ke : Option KeyEvent}
    (hpop : (ring.tryPop src).1 = some p) (hparse : (VirtKeyboard.parse p).run v = .ok ke w) :
    (Ps2Keyboard.next ring).run ⟨v, src⟩ = .ok ke ⟨w, (ring.tryPop src).2⟩ := by
  rw [Ps2Keyboard.next, Code.get_bind]
  refine (Code.bind_ok (EStateM.run_modify ..)).trans ?_
  simp only [hpop]
  exact Code.zoom_ok hparse

/-- Where there was no packet, there is no event. -/
theorem next_eq_ok {v : VirtKeyboard} {src : R} {ke : Option KeyEvent} {k : Ps2Keyboard R}
    (h : (Ps2Keyboard.next ring).run ⟨v, src⟩ = .ok ke k) :
    k.src = (ring.tryPop src).2 ∧
      (((ring.tryPop src).1 = none ∧ ke = none ∧ k.virt = v) ∨
        ∃ p, (ring.tryPop src).1 = some p ∧ (VirtKeyboard.parse p).run v = .ok ke k.virt) := by
  rw [Ps2Keyboard.next, Code.get_bind] at h
  obtain ⟨_, _, hset, h⟩ := Code.bind_eq_ok.mp h
  cases hset
  cases hpop : (ring.tryPop src).1 with
  | none =>
    simp only [hpop] at h
    cases h
    exact ⟨rfl, .inl ⟨rfl, rfl, rfl⟩⟩
  | some p =>
    simp only [hpop] at h
    obtain ⟨w, hparse, rfl⟩ := Code.zoom_eq_ok.mp h
    exact ⟨rfl, .inr ⟨p, rfl, hparse⟩⟩

end Ring

theorem monitorWrite_run (c : Screen) (ke : Option KeyEvent) :
    (Monitor.write ke).run c.toConsole =
      .ok () ((ke.bind ketoa).toList.foldl Screen.byte c).toConsole := by
  unfold Monitor.write
  cases ke.bind ketoa with
  | none => rfl
  | some ascii => exact c.writeU8_run ascii

/-! ## The invariant -/

/-- The packet that has been taken and not parsed. -/
def Pc.unparsed : Pc → List Packet
  | parse packet => [packet]
  | _ => []

/-- The character that has been found and not written. -/
def Pc.unwritten : Pc → List UInt8
  | write ke => (ke.bind ketoa).toList
  | _ => []

namespace Terminal

variable {R : Type} {ring : RingBuffer R Packet}

/-- The loop has parsed the packets `parsed`; with what is not written yet, the console shows
them. -/
structure Parsed (c : Screen) (s : Terminal R) (parsed : List Packet) : Prop where
  popped : s.popped = parsed ++ s.pc.unparsed
  modifier : ∀ v, s.virt = some v → v.modifier = modifiersAfter parsed
  console : ∃ t : Screen, s.console = t.toConsole ∧
    s.pc.unwritten.foldl Screen.byte t = c.typed parsed

structure Inv (ring : RingBuffer R Packet) (c : Screen) (s : Terminal R) : Prop where
  sc : s.sc = none ∨ s.sc = some .normal
  trace : ring.Trace 128 s.ring s.heard s.popped
  keys : ∀ p ∈ s.heard, p.1.1.toNat / 64 < statesLen
  unused : s.virt = none → s.pc = .pop ∧ s.popped = []
  parsed : ∃ parsed, s.Parsed c parsed

variable {c : Screen} {s t : Terminal R}

theorem inv_boot (hring : ring.Lawful) (c : Screen) : Inv ring c (boot ring c.toConsole) where
  sc := .inl rfl
  trace := .new hring (by decide)
  keys := fun _ h => absurd h List.not_mem_nil
  unused := fun _ => ⟨rfl, rfl⟩
  parsed := ⟨[], rfl, fun _ hv => absurd hv.symm (Option.some_ne_none _), c, rfl, rfl⟩

/-- The keyboard's bitmap has the keys of the packets that found room. -/
theorem Inv.key_lt (h : Inv ring c s) {p : Packet} (hp : p ∈ s.popped ++ ring.iter s.ring) :
    p.1.toNat / 64 < statesLen := by
  have hkept : p ∈ RingBuffer.kept s.heard := h.trace.order ▸ hp
  obtain ⟨room, hmem⟩ := RingBuffer.mem_offered_of_kept hkept
  exact h.keys _ hmem

theorem inv_initSrc (h : Inv ring c s) : Inv ring c { s with sc := some .normal } :=
  ⟨.inr rfl, h.trace, h.keys, h.unused,
    let ⟨parsed, hp⟩ := h.parsed; ⟨parsed, hp.popped, hp.modifier, hp.console⟩⟩

theorem inv_initKeyboard (h : Inv ring c s) (hvirt : s.virt = none) :
    Inv ring c { s with virt := some .new } := by
  obtain ⟨hpc, hnone⟩ := h.unused hvirt
  obtain ⟨parsed, hp⟩ := h.parsed
  have hnil : parsed = [] := (List.append_eq_nil_iff.mp (hp.popped.symm.trans hnone)).1
  refine ⟨h.sc, h.trace, h.keys, fun h => absurd h (Option.some_ne_none _), parsed, hp.popped, ?_,
    hp.console⟩
  rintro v ⟨⟩
  rw [hnil]
  rfl

theorem inv_irq (hring : ring.Lawful) (h : Inv ring c s) {byte : UInt8}
    {src : Option (Ps2KeyboardSrc R)}
    (hrun : (ps2KeyboardHandler ring byte).run s.source = .ok () src) :
    Inv ring c (s.interrupted ring byte src) := by
  obtain ⟨parsed, hp⟩ := h.parsed
  have hparsed : (s.interrupted ring byte src).Parsed c parsed :=
    ⟨hp.popped, hp.modifier, hp.console⟩
  rcases h.sc with hsc | hsc
  · -- no parser yet: nothing is heard
    have hsource : s.source = none := by rw [source, hsc]; rfl
    rw [hsource] at hrun
    cases hrun
    have hpacket : s.packet byte = none := by rw [packet, hsc]; rfl
    have hsame : s.interrupted ring byte none = { s with sc := none } := by
      simp [interrupted, hpacket]
    rw [hsame] at hparsed ⊢
    exact ⟨.inl rfl, h.trace, h.keys, h.unused, parsed, hparsed⟩
  · have hsource : s.source = some ⟨.normal, s.ring⟩ := by rw [source, hsc]; rfl
    rw [hsource] at hrun
    cases (handler_run ring s.ring byte).symm.trans hrun
    have hpacket : s.packet byte = Sc1.parseNormal byte := by rw [packet, hsc]; rfl
    cases hbyte : Sc1.parseNormal byte with
    | none =>
      rw [hbyte] at hpacket hparsed
      have hsame : s.interrupted ring byte (some ⟨.normal, s.ring⟩) =
          { s with sc := some .normal } := by
        simp [interrupted, hpacket]
      rw [Option.elim_none, hsame] at hparsed ⊢
      exact ⟨.inr rfl, h.trace, h.keys, h.unused, parsed, hparsed⟩
    | some p =>
      rw [hbyte] at hpacket hparsed
      have hnext : s.interrupted ring byte (some ⟨.normal, (ring.tryPush p s.ring).2⟩) =
          { s with
            sc := some .normal
            ring := (ring.tryPush p s.ring).2
            heard := s.heard ++ [(p, s.room ring)] } := by
        simp [interrupted, hpacket]
      rw [Option.elim_some, hnext] at hparsed ⊢
      refine ⟨.inr rfl, h.trace.push hring p, ?_, h.unused, parsed, hparsed⟩
      refine List.forall_mem_append.mpr ⟨h.keys, List.forall_mem_singleton.mpr ?_⟩
      exact Sc1.key_lt_of_parseNormal hbyte

theorem inv_pop (hring : ring.Lawful) (h : Inv ring c s) (hpc : s.pc = .pop)
    (hv : s.virt ≠ none) :
    Inv ring c { s with
      ring := (ring.tryPop s.ring).2
      pc := (ring.tryPop s.ring).1.elim (.write none) .parse
      popped := s.popped ++ (ring.tryPop s.ring).1.toList } := by
  obtain ⟨parsed, hp⟩ := h.parsed
  have hpopped := hp.popped
  have hconsole := hp.console
  rw [hpc] at hpopped hconsole
  refine ⟨h.sc, h.trace.pop hring, h.keys, fun hnone => absurd hnone hv, parsed, ?_, hp.modifier,
    ?_⟩
  · rw [hpopped]
    cases (ring.tryPop s.ring).1 <;> simp [Pc.unparsed]
  · cases (ring.tryPop s.ring).1 <;> exact hconsole

theorem inv_parse (h : Inv ring c s) {p : Packet} {v w : VirtKeyboard} {ke : Option KeyEvent}
    (hpc : s.pc = .parse p) (hv : s.virt = some v)
    (hrun : (VirtKeyboard.parse p).run v = .ok ke w) :
    Inv ring c { s with virt := some w, pc := .write ke } := by
  obtain ⟨parsed, hp⟩ := h.parsed
  have hpopped := hp.popped
  obtain ⟨t, ht, hshown⟩ := hp.console
  rw [hpc] at hpopped hshown
  have hkey : p.1.toNat / 64 < statesLen := h.key_lt (by rw [hpopped]; simp [Pc.unparsed])
  cases (v.parse_run hkey).symm.trans hrun
  have hmodifier : (v.step p hkey).modifier = modifiersAfter (parsed ++ [p]) := by
    rw [modifiersAfter, List.foldl_concat, ← modifiersAfter, ← hp.modifier v hv]
    rfl
  refine ⟨h.sc, h.trace, h.keys, fun h => absurd h (Option.some_ne_none _), parsed ++ [p], ?_, ?_,
    t, ht, ?_⟩
  · simpa [Pc.unparsed] using hpopped
  · rintro _ ⟨⟩
    exact hmodifier
  · have hevent : (v.step p hkey).event p = lastEvent parsed p := by
      rw [VirtKeyboard.event, hmodifier]
      rfl
    show (ketoa ((v.step p hkey).event p)).toList.foldl Screen.byte t = _
    have ht' : t = c.typed parsed := hshown
    rw [hevent, Screen.typed, typedText_concat, List.foldl_append, ht']
    rfl

theorem inv_write (h : Inv ring c s) {ke : Option KeyEvent} {console : Console}
    (hpc : s.pc = .write ke) (hrun : (Monitor.write ke).run s.console = .ok () console) :
    Inv ring c { s with console := console, pc := .pop } := by
  obtain ⟨parsed, hp⟩ := h.parsed
  have hpopped := hp.popped
  obtain ⟨t, ht, hshown⟩ := hp.console
  rw [hpc] at hpopped hshown
  rw [ht] at hrun
  cases (monitorWrite_run t ke).symm.trans hrun
  refine ⟨h.sc, h.trace, h.keys, fun hvirt => ?_, parsed, hpopped, hp.modifier, _, rfl, hshown⟩
  exact ⟨rfl, (h.unused hvirt).2⟩

theorem Loop.inv (hstep : Loop ring s t) (hring : ring.Lawful) (h : Inv ring c s) :
    Inv ring c t := by
  cases hstep with
  | pop hpc hv => exact inv_pop hring h hpc hv
  | parse hpc hv hrun => exact inv_parse h hpc hv hrun
  | write hpc hrun => exact inv_write h hpc hrun

theorem Step.inv (hstep : Step ring s t) (hring : ring.Lawful) (h : Inv ring c s) :
    Inv ring c t := by
  cases hstep with
  | initSrc _ => exact inv_initSrc h
  | initKeyboard hvirt => exact inv_initKeyboard h hvirt
  | irq byte hrun => exact inv_irq hring h hrun
  | loop hloop => exact hloop.inv hring h

theorem Reachable.inv (h : Reachable ring c.toConsole s) (hring : ring.Lawful) :
    Inv ring c s := by
  induction h with
  | boot => exact inv_boot hring c
  | step _ hstep ih => exact hstep.inv hring ih

theorem Inv.shown_of_pop (h : Inv ring c s) (hpc : s.pc = .pop) :
    s.console = (c.typed s.popped).toConsole := by
  obtain ⟨parsed, hp⟩ := h.parsed
  have hpopped := hp.popped
  obtain ⟨t, ht, hshown⟩ := hp.console
  rw [hpc] at hpopped hshown
  rw [ht, hpopped, show t = c.typed parsed from hshown]
  simp [Pc.unparsed]

theorem Inv.loops (h : Inv ring c s) (hring : ring.Lawful)
    (hrun : Relation.ReflTransGen (Loop ring) s t) : Inv ring c t := by
  induction hrun with
  | refl => exact h
  | tail _ hstep ih => exact hstep.inv hring ih

/-! ## Results -/

/-- **Keys arrive in order.**  In every state of every interleaving of interrupts and the loop the
ring holds at most 128 packets; what the loop has taken and what the ring holds are, in order, the
packets that the handler has parsed, but for exactly those that found the ring full.  Between two
rounds of the loop the console is what the characters of the packets taken make of it. -/
theorem keys_in_order (hring : ring.Lawful) (h : Reachable ring c.toConsole s) :
    (ring.iter s.ring).length ≤ 128 ∧
      s.popped ++ ring.iter s.ring = RingBuffer.kept s.heard ∧
      (s.pc = .pop → s.console = (c.typed s.popped).toConsole) :=
  ⟨(h.inv hring).trace.le, (h.inv hring).trace.order, (h.inv hring).shown_of_pop⟩

variable (ring) in
/-- After `ps2::init`. -/
def ready (c : Screen) : Terminal R :=
  { boot ring c.toConsole with sc := some .normal, virt := some .new }

variable (ring) in
theorem reachable_ready (c : Screen) : Reachable ring c.toConsole (ready ring c) := by
  have hsrc : Reachable ring c.toConsole { boot ring c.toConsole with sc := some .normal } :=
    Reachable.boot.step (.initSrc rfl)
  exact hsrc.step (.initKeyboard rfl)

/-- The make code of the key `A` comes then. -/
def keyed (c : Screen) : Terminal (List Packet × ℕ) :=
  { ready (.bounded Packet) c with
    ring := ([(keyA, true)], 128)
    heard := [((keyA, true), true)] }

theorem reachable_keyed (c : Screen) :
    Reachable (.bounded Packet) c.toConsole (keyed c) := by
  have hboth := reachable_ready (.bounded Packet) c
  have hkey : (ready (.bounded Packet) c).interrupted (.bounded Packet) 0x1E
      (some ⟨.normal, ([(keyA, true)], 128)⟩) = keyed c := by
    simp only [interrupted, packet, ready, show Sc1.parseNormal 0x1E = some (keyA, true) from rfl]
    rfl
  exact hkey ▸ hboth.step (.irq 0x1E (handler_run (.bounded Packet) ([], 128) 0x1E))

theorem keys_in_order_keyed :
    (keyed (.init ⟨0, fun _ => 0⟩)).ring.1.length ≤ 128 ∧
      (keyed (.init ⟨0, fun _ => 0⟩)).popped ++ (keyed (.init ⟨0, fun _ => 0⟩)).ring.1 =
        RingBuffer.kept [((keyA, true), true)] ∧
      (keyed (.init ⟨0, fun _ => 0⟩)).console = Console.init ⟨0, fun _ => 0⟩ := by
  have hkeys := keys_in_order (RingBuffer.bounded_lawful Packet)
    (reachable_keyed (.init ⟨0, fun _ => 0⟩))
  exact ⟨hkeys.1, hkeys.2.1, hkeys.2.2 rfl⟩

/-- The loop is at the start of a round with nothing in the ring. -/
structure Idle (ring : RingBuffer R Packet) (s : Terminal R) : Prop where
  pc : s.pc = .pop
  ring : ring.iter s.ring = []

/-- What the loop's own steps leave alone. -/
structure Apart (s t : Terminal R) : Prop where
  sc : t.sc = s.sc
  heard : t.heard = s.heard
  virt : t.virt ≠ none

theorem Apart.trans {r : Terminal R} (h : Apart r s) (h' : Apart s t) : Apart r t :=
  ⟨h'.sc.trans h.sc, h'.heard.trans h.heard, h'.virt⟩

/-- From the last step of a round the loop gets to the next round. -/
theorem finish_write (h : Inv ring c s) (hvirt : s.virt ≠ none) {ke : Option KeyEvent}
    (hpc : s.pc = .write ke) :
    ∃ t, Loop ring s t ∧ Apart s t ∧ t.pc = .pop ∧ t.ring = s.ring := by
  obtain ⟨parsed, hp⟩ := h.parsed
  obtain ⟨screen, hscreen, -⟩ := hp.console
  have hrun := monitorWrite_run screen ke
  rw [← hscreen] at hrun
  exact ⟨_, .write hpc hrun, ⟨rfl, rfl, hvirt⟩, rfl, rfl⟩

theorem finish_parse (h : Inv ring c s) (hvirt : s.virt ≠ none) {p : Packet}
    (hpc : s.pc = .parse p) :
    ∃ t ke, Loop ring s t ∧ Apart s t ∧ t.pc = .write ke ∧ t.ring = s.ring := by
  obtain ⟨v, hv⟩ := Option.ne_none_iff_exists'.mp hvirt
  obtain ⟨parsed, hp⟩ := h.parsed
  have hpopped := hp.popped
  rw [hpc] at hpopped
  have hkey : p.1.toNat / 64 < statesLen := h.key_lt (by rw [hpopped]; simp [Pc.unparsed])
  exact ⟨_, _, .parse hpc hv (v.parse_run hkey), ⟨rfl, rfl, Option.some_ne_none _⟩, rfl, rfl⟩

/-- Whatever the loop is doing, it gets to the start of a round. -/
theorem finish_round (hring : ring.Lawful) (h : Inv ring c s) (hvirt : s.virt ≠ none) :
    ∃ t, Relation.ReflTransGen (Loop ring) s t ∧ Apart s t ∧ t.pc = .pop ∧ t.ring = s.ring := by
  cases hpc : s.pc with
  | pop => exact ⟨s, .refl, ⟨rfl, rfl, hvirt⟩, hpc, rfl⟩
  | write ke =>
    obtain ⟨t, hstep, hapart, htpc, hsame⟩ := finish_write h hvirt hpc
    exact ⟨t, .single hstep, hapart, htpc, hsame⟩
  | parse p =>
    obtain ⟨t, ke, hstep, hapart, htpc, hsame⟩ := finish_parse h hvirt hpc
    obtain ⟨u, hstep', hapart', hupc, hsame'⟩ := finish_write (hstep.inv hring h) hapart.virt htpc
    exact ⟨u, .tail (.single hstep) hstep', hapart.trans hapart', hupc, hsame'.trans hsame⟩

/-- Undisturbed, the loop gets through `next` to the last step of the round. -/
theorem loop_next {v : VirtKeyboard} {ke : Option KeyEvent} {k : Ps2Keyboard R} (hpc : s.pc = .pop)
    (hv : s.virt = some v) (hrun : (Ps2Keyboard.next ring).run ⟨v, s.ring⟩ = .ok ke k) :
    ∃ t, Relation.ReflTransGen (Loop ring) s t ∧ Apart s t ∧ t.pc = .write ke ∧ t.ring = k.src := by
  have hvirt : s.virt ≠ none := by rw [hv]; exact Option.some_ne_none v
  have hstep : Loop ring s _ := .pop hpc hvirt
  obtain ⟨hsrc, ⟨hnone, rfl, -⟩ | ⟨p, hsome, hparse⟩⟩ := next_eq_ok ring hrun
  · refine ⟨_, .single hstep, ⟨rfl, rfl, hvirt⟩, ?_, hsrc.symm⟩
    rw [hnone]
    rfl
  · refine ⟨_, .tail (.single hstep) (.parse (p := p) ?_ hv hparse),
      ⟨rfl, rfl, Option.some_ne_none _⟩, rfl, hsrc.symm⟩
    rw [hsome]
    rfl

/-- The loop takes all that is in the ring. -/
theorem drain (hring : ring.Lawful) (packets : List Packet) (h : Inv ring c s)
    (hvirt : s.virt ≠ none) (hpc : s.pc = .pop) (hiter : ring.iter s.ring = packets) :
    ∃ t, Relation.ReflTransGen (Loop ring) s t ∧ Apart s t ∧ Idle ring t := by
  induction packets generalizing s with
  | nil => exact ⟨s, .refl, ⟨rfl, rfl, hvirt⟩, hpc, hiter⟩
  | cons p rest ih =>
    obtain ⟨v, hv⟩ := Option.ne_none_iff_exists'.mp hvirt
    obtain ⟨hpop, hrest⟩ := hring.pop hiter
    have hnext := next_run hpop (v.parse_run (h.key_lt (by rw [hiter]; simp)))
    obtain ⟨t, hrun, hapart, htpc, htring⟩ := loop_next hpc hv hnext
    have ht := h.loops hring hrun
    obtain ⟨u, hwrite, hapart', hupc, huring⟩ := finish_write ht hapart.virt htpc
    obtain ⟨w, hrun', hapart'', hidle⟩ := ih (hwrite.inv hring ht) hapart'.virt hupc
      (by rw [huring, htring, hrest])
    exact ⟨w, (hrun.tail hwrite).trans hrun', (hapart.trans hapart').trans hapart'', hidle⟩

/-- **The loop never gets stuck.**  In every state of every run the handler returns, whatever byte
comes; and once there is a keyboard, the steps of the loop alone lead from there to a state in which
every packet that found room has been taken and shown, with none heard on the way. -/
theorem ring_drains (hring : ring.Lawful) (h : Reachable ring c.toConsole s) :
    (∀ byte, ∃ src, (ps2KeyboardHandler ring byte).run s.source = .ok () src) ∧
      (s.virt ≠ none → ∃ t, Relation.ReflTransGen (Loop ring) s t ∧ ring.iter t.ring = [] ∧
        t.heard = s.heard ∧ t.popped = RingBuffer.kept s.heard ∧
        t.console = (c.typed t.popped).toConsole) := by
  have hinv := h.inv hring
  refine ⟨fun byte => ?_, fun hvirt => ?_⟩
  · rcases hinv.sc with hsc | hsc
    · rw [source, hsc]
      exact ⟨_, handler_run_none ring byte⟩
    · rw [source, hsc]
      exact ⟨_, handler_run ring s.ring byte⟩
  · obtain ⟨t, hrun, hapart, hpc, -⟩ := finish_round hring hinv hvirt
    have ht := hinv.loops hring hrun
    obtain ⟨u, hrun', hapart', hidle⟩ := drain hring _ ht hapart.virt hpc rfl
    have hu := ht.loops hring hrun'
    have hheard : u.heard = s.heard := hapart'.heard.trans hapart.heard
    have horder := hu.trace.order
    rw [hidle.ring, List.append_nil, hheard] at horder
    exact ⟨u, hrun.trans hrun', hidle.ring, hheard, horder, hu.shown_of_pop hidle.pc⟩

theorem ring_drains_keyed : ∃ t,
    Relation.ReflTransGen (Loop (.bounded Packet)) (keyed (.init ⟨0, fun _ => 0⟩)) t ∧
      t.ring.1 = [] ∧ t.popped = [(keyA, true)] := by
  obtain ⟨t, hrun, hempty, -, hpopped, -⟩ := (ring_drains (RingBuffer.bounded_lawful Packet)
    (reachable_keyed (.init ⟨0, fun _ => 0⟩))).2 (Option.some_ne_none _)
  exact ⟨t, hrun, hempty, hpopped⟩

end Terminal

/-! ## Typing -/

/-- The key of a character, and whether it is typed with a shift key. -/
def keyOf (char : UInt8) : Option (KeyCode × Bool) :=
  if char = 0x30 then some (key0, false)
  else if 0x31 ≤ char ∧ char ≤ 0x39 then some (key1 + (char - 0x31).toUInt16, false)
  else if char = 0x0A then some (keyEnter, false)
  else if char = 0x20 then some (keySpace, false)
  else if char = 0x08 then some (keyBackspace, false)
  else
    (letterKeys.find? (·.2 = char)).elim
      ((letterKeys.find? (·.2 = char + 32)).map fun letter => (letter.1, true))
      fun letter => some (letter.1, false)

/-- The bytes that a keyboard sends for a character: the key goes down and up, where it has to with
the left shift key down meanwhile. -/
def strokes (char : UInt8) : List UInt8 :=
  match keyOf char with
  | none => []
  | some (key, false) => [key.toUInt8, key.toUInt8 + 0x80]
  | some (key, true) =>
      [keyLeftshift.toUInt8, key.toUInt8, key.toUInt8 + 0x80, keyLeftshift.toUInt8 + 0x80]

/-- Characters that can be typed: the letters and digits, a space, a newline and a backspace. -/
def Typable (char : UInt8) : Prop := (keyOf char).isSome

instance (char : UInt8) : Decidable (Typable char) := inferInstanceAs (Decidable (_ = true))

/-- The packets of some bytes. -/
def packetsOf (bytes : List UInt8) : List Packet := bytes.filterMap Sc1.parseNormal

theorem strokes_of_lt : ∀ n < 256, Typable (UInt8.ofNat n) →
    typedText (packetsOf (strokes (UInt8.ofNat n))) = [UInt8.ofNat n] ∧
      modifiersAfter (packetsOf (strokes (UInt8.ofNat n))) = .empty := by
  decide +kernel

theorem typedText_strokes {char : UInt8} (h : Typable char) :
    typedText (packetsOf (strokes char)) = [char] ∧
      modifiersAfter (packetsOf (strokes char)) = .empty := by
  have hchar := strokes_of_lt char.toNat char.toNat_lt
  rw [UInt8.ofNat_toNat] at hchar
  exact hchar h

/-- The keyboard and the monitor undo the typist. -/
theorem typedText_flatMap_strokes {text : List UInt8} (h : ∀ char ∈ text, Typable char) :
    typedText (packetsOf (text.flatMap strokes)) = text := by
  induction text with
  | nil => rfl
  | cons char text ih =>
    obtain ⟨hchar, hrest⟩ := List.forall_mem_cons.mp h
    obtain ⟨htyped, hmodifiers⟩ := typedText_strokes hchar
    rw [List.flatMap_cons, packetsOf, List.filterMap_append, typedText, typedFrom_append]
    change typedText (packetsOf (strokes char)) ++
      typedFrom (modifiersAfter (packetsOf (strokes char))) (packetsOf (text.flatMap strokes)) = _
    rw [htyped, hmodifiers]
    exact congrArg (char :: ·) (ih hrest)

theorem zero_not_typable : ¬ Typable 0 := by decide

namespace Terminal

variable {R : Type} {ring : RingBuffer R Packet} {c : Screen} {s t : Terminal R}

theorem Reachable.loops {console : Console} (h : Reachable ring console s)
    (hrun : Relation.ReflTransGen (Loop ring) s t) : Reachable ring console t := by
  induction hrun with
  | refl => exact h
  | tail _ hstep ih => exact ih.step (.loop hstep)

/-- The loop takes each packet before the next byte comes. -/
theorem serve (hring : ring.Lawful) (bytes : List UInt8) (h : Reachable ring c.toConsole s)
    (hsc : s.sc = some .normal) (hvirt : s.virt ≠ none) (hidle : Idle ring s) :
    ∃ t, Reachable ring c.toConsole t ∧ Idle ring t ∧
      t.heard = s.heard ++ (packetsOf bytes).map (·, true) := by
  induction bytes generalizing s with
  | nil => exact ⟨s, h, hidle, (List.append_nil _).symm⟩
  | cons byte bytes ih =>
    have hrun : (ps2KeyboardHandler ring byte).run s.source = .ok () (some ⟨.normal,
        (Sc1.parseNormal byte).elim s.ring fun packet => (ring.tryPush packet s.ring).2⟩) := by
      rw [source, hsc]
      exact handler_run ring s.ring byte
    have hstep := h.step (.irq byte hrun)
    obtain ⟨t, hdrain, hapart, htidle⟩ :=
      drain hring _ (hstep.inv hring) hvirt hidle.pc rfl
    obtain ⟨u, hu, huidle, hheard⟩ := ih (hstep.loops hdrain) (hapart.sc.trans rfl) hapart.virt
      htidle
    have hroom : s.room ring = true := by
      rw [room, hidle.ring, (h.inv hring).trace.capacity]
      rfl
    refine ⟨u, hu, huidle, ?_⟩
    rw [hheard, hapart.heard]
    show s.heard ++ (s.packet byte).toList.map (·, s.room ring) ++
      (packetsOf bytes).map (·, true) = _
    rw [packet, hsc, hroom, packetsOf, packetsOf, List.filterMap_cons, List.append_assoc]
    cases Sc1.parseNormal byte with
    | none => rfl
    | some p => rfl

/-- **What is typed is what is shown.**  A text of letters, digits, spaces, newlines and backspaces
is typed at a cleared console.  In every run in which the handler heard exactly the scan codes of
the text, each found room and the loop has taken them all, the console holds what the editor makes
of the text. -/
theorem typed_text_shown (hring : ring.Lawful) (h : Reachable ring c.cleared.toConsole s)
    {text : List UInt8} (htext : ∀ char ∈ text, Typable char)
    (hheard : s.heard = (packetsOf (text.flatMap strokes)).map (·, true))
    (hempty : ring.iter s.ring = []) (hpc : s.pc = .pop) :
    ∃ t : Screen, s.console = t.toConsole ∧ Holds t (text.foldl Page.typed Page.blank) := by
  have hinv := h.inv hring
  have hpopped := hinv.trace.order
  rw [hempty, List.append_nil, hheard, RingBuffer.kept_map_true] at hpopped
  have hshown := hinv.shown_of_pop hpc
  rw [hpopped, Screen.typed, typedText_flatMap_strokes htext] at hshown
  exact ⟨_, hshown, holds_foldl (holds_cleared c) fun h0 => zero_not_typable (htext 0 h0)⟩

/-- Such a run, for any text: the loop keeps up with the typist. -/
theorem exists_typed (hring : ring.Lawful) (c : Screen) (text : List UInt8) :
    ∃ s : Terminal R, Reachable ring c.toConsole s ∧
      s.heard = (packetsOf (text.flatMap strokes)).map (·, true) ∧ Idle ring s := by
  obtain ⟨t, ht, hidle, hheard⟩ := serve hring (text.flatMap strokes) (reachable_ready ring c) rfl
    (Option.some_ne_none _) ⟨rfl, hring.new (by decide)⟩
  exact ⟨t, ht, hheard.trans (List.nil_append _), hidle⟩

theorem typed_text_shown_letter : ∃ (s : Terminal (List Packet × ℕ)) (t : Screen),
    Reachable (.bounded Packet) (Screen.init ⟨0, fun _ => 0⟩).cleared.toConsole s ∧
      s.console = t.toConsole ∧ Holds t ([0x41].foldl Page.typed Page.blank) := by
  have hring := RingBuffer.bounded_lawful Packet
  obtain ⟨s, h, hheard, hidle⟩ := exists_typed hring (Screen.init ⟨0, fun _ => 0⟩).cleared [0x41]
  have hletter : ∀ c ∈ [0x41], Typable c := List.forall_mem_singleton.mpr (by decide)
  obtain ⟨t, ht⟩ := typed_text_shown hring h hletter hheard hidle.ring hidle.pc
  exact ⟨s, t, h, ht⟩

end Terminal

end Koe
