/-
The text console: `kernel/console.c`. Characters, control characters and escape sequences move the cursor, scroll the screen and change
cells of the video memory. Addresses, coordinates and arguments are words of 32 bits that wrap, as in the source; a byte of the video
memory is read or written only between `mem_base` and `mem_end`, and an access elsewhere is a fault.

The ports of the display controller and the beeper have no effect on the console and are left out.
-/
import Mathlib.Data.BitVec
import Onix.Lib.Loop

namespace Onix.Vga

open Onix.Lib

abbrev Word := BitVec 32

/-! ## Data -/

def argNr : Word := 16

def styleNormal : BitVec 8 := 7
def blink : BitVec 8 := 0x80
def bold : BitVec 8 := 0x0F

inductive State
  | nor
  | esc
  | que
  | arg
  | csi
  deriving DecidableEq

/-- `console_t`, with the video memory. -/
structure Console where
  memBase : Word
  memSize : Word
  memEnd : Word
  screen : Word
  scrSize : Word
  pos : Word
  x : Word
  y : Word
  savedX : Word
  savedY : Word
  width : Word
  height : Word
  rowSize : Word
  state : State
  args : Nat → Word
  argc : Word
  ques : Bool
  erase : BitVec 16
  style : BitVec 8
  mem : Word → BitVec 8

/-- An access outside of the video memory; a loop that goes on for more rounds than the memory has bytes. -/
inductive Fault
  | outside (a : Word)
  | hang
  deriving DecidableEq

namespace Console

def inside (c : Console) (a : Word) : Prop := c.memBase ≤ a ∧ a < c.memEnd

instance (c : Console) (a : Word) : Decidable (c.inside a) := inferInstanceAs (Decidable (_ ∧ _))

def load (c : Console) (a : Word) : Except Fault (BitVec 8) := if c.inside a then .ok (c.mem a) else .error (.outside a)

def store (c : Console) (a : Word) (v : BitVec 8) : Except Fault Console :=
  if c.inside a then .ok { c with mem := Function.update c.mem a v } else .error (.outside a)

def load16 (c : Console) (a : Word) : Except Fault (BitVec 16) := do
  let lo ← c.load a
  let hi ← c.load (a + 1)
  pure (hi ++ lo)

def store16 (c : Console) (a : Word) (v : BitVec 16) : Except Fault Console := do
  let c ← c.store a (v.setWidth 8)
  c.store (a + 1) ((v >>> 8).setWidth 8)

end Console

def memcpy : Nat → Word → Word → Console → Except Fault Console
  | 0, _, _, c => .ok c
  | count + 1, dest, src, c => do
    let v ← c.load src
    let c ← c.store dest v
    memcpy count (dest + 1) (src + 1) c

def eraseScreen : Nat → Word → Console → Except Fault Console
  | 0, _, c => .ok c
  | count + 1, start, c => do
    let c ← c.store16 start c.erase
    eraseScreen count (start + 2) c

/-! ## The cursor -/

def setXy (c : Console) (x y : Word) : Console :=
  if c.width < x ∨ c.height ≤ y then c else { c with x := x, y := y, pos := c.screen + y * c.rowSize + (x <<< 1) }

def saveCursor (c : Console) : Console := { c with savedX := c.x, savedY := c.y }

/-- `scroll_up` at the end of the memory: the screen goes to its start. -/
def rewind (c : Console) : Except Fault Console :=
  if c.memEnd ≤ c.screen + c.scrSize + c.rowSize then do
    let c ← memcpy c.scrSize.toNat c.memBase c.screen c
    pure { c with pos := c.pos - (c.screen - c.memBase), screen := c.memBase }
  else .ok c

def scrollUp (c : Console) : Except Fault Console := do
  let c ← rewind c
  let c ← eraseScreen c.width.toNat (c.screen + c.scrSize) c
  pure { c with screen := c.screen + c.rowSize, pos := c.pos + c.rowSize }

def lf (c : Console) : Except Fault Console :=
  if c.y + 1 < c.height then .ok { c with y := c.y + 1, pos := c.pos + c.rowSize } else scrollUp c

def cr (c : Console) : Console := { c with pos := c.pos - (c.x <<< 1), x := 0 }

def wrap (c : Console) : Except Fault Console :=
  if c.width ≤ c.x then lf { c with x := c.x - c.width, pos := c.pos - c.rowSize } else .ok c

def tab (c : Console) : Except Fault Console :=
  let offset := 8 - (c.x &&& 7)
  wrap { c with x := c.x + offset, pos := c.pos + (offset <<< 1) }

def bs (c : Console) : Except Fault Console :=
  if c.x = 0 then .ok c
  else
    let c := { c with x := c.x - 1, pos := c.pos - 2 }
    c.store16 c.pos c.erase

def del (c : Console) : Except Fault Console := c.store16 c.pos c.erase

def putc (c : Console) (v : BitVec 8) : Except Fault Console := do
  let c ← c.store c.pos v
  pure { c with pos := c.pos + 1 }

def chr (c : Console) (ch : BitVec 8) : Except Fault Console := do
  let c ← wrap c
  let c ← putc c ch
  let c ← putc c c.style
  pure { c with x := c.x + 1 }

def newline (c : Console) : Except Fault Console := do
  let c ← lf c
  pure (cr c)

/-! ## Control sequences -/

def csiJ (c : Console) : Except Fault Console :=
  if c.args 0 = 0 then eraseScreen ((c.screen + c.scrSize - c.pos) >>> 1).toNat c.pos c
  else if c.args 0 = 1 then eraseScreen ((c.pos - c.screen) >>> 1).toNat c.screen c
  else if c.args 0 = 2 then eraseScreen (c.scrSize >>> 1).toNat c.screen c
  else .ok c

def csiK (c : Console) : Except Fault Console :=
  if c.args 0 = 0 then eraseScreen (c.width - c.x).toNat c.pos c
  else if c.args 0 = 1 then eraseScreen c.x.toNat (c.pos - (c.x <<< 1)) c
  else if c.args 0 = 2 then eraseScreen c.width.toNat (c.pos - (c.x <<< 1)) c
  else .ok c

def Console.line (c : Console) : Word := c.screen + c.y * c.rowSize

def insertLineLoop : Nat → Word → Word → Console → Except Fault Console
  | 0, _, _, _ => .error .hang
  | fuel + 1, i, start, c =>
    let src := c.memEnd - i * c.rowSize
    if src < start then .ok c
    else do
      let c ← memcpy c.rowSize.toNat (src + c.rowSize) src c
      insertLineLoop fuel (i + 1) start c

def insertLine (c : Console) : Except Fault Console := do
  let c ← insertLineLoop c.memSize.toNat 2 c.line c
  eraseScreen c.width.toNat c.line c

/-- The loop of `delete_line`: `start` points to cells, so `start + i * row_size` is twice as many bytes on. -/
def deleteLineLoop : Nat → Word → Word → Console → Except Fault Console
  | 0, _, _, _ => .error .hang
  | fuel + 1, i, start, c =>
    let src := start + 2 * (i * c.rowSize)
    if c.memEnd ≤ src then .ok c
    else do
      let c ← memcpy c.rowSize.toNat (src - c.rowSize) src c
      deleteLineLoop fuel (i + 1) start c

def deleteLine (c : Console) : Except Fault Console := do
  let c ← deleteLineLoop c.memSize.toNat 1 c.line c
  eraseScreen c.width.toNat (c.memEnd - c.rowSize) c

def deleteCharLoop : Nat → BitVec 16 → Word → Console → Except Fault (Word × Console)
  | 0, _, _, _ => .error .hang
  | fuel + 1, i, ptr, c =>
    let i := i + 1
    if i.setWidth 32 < c.width then do
      let v ← c.load16 (ptr + 2)
      let c ← c.store16 ptr v
      deleteCharLoop fuel i (ptr + 2) c
    else .ok (ptr, c)

def deleteChar (c : Console) : Except Fault Console := do
  let r ← deleteCharLoop c.memSize.toNat (c.x.setWidth 16) c.pos c
  r.2.store16 r.1 r.2.erase

def insertCharLoop : Nat → Word → Console → Except Fault Console
  | 0, _, _ => .error .hang
  | fuel + 1, ptr, c =>
    if c.pos < ptr then do
      let v ← c.load16 (ptr - 2)
      let c ← c.store16 ptr v
      insertCharLoop fuel (ptr - 2) c
    else .ok c

def insertChar (c : Console) : Except Fault Console := do
  let c ← insertCharLoop c.memSize.toNat (c.pos + 2 * (c.width - c.x - 1)) c
  c.store c.pos (c.erase.setWidth 8)

def repeated (f : Console → Except Fault Console) : Nat → Console → Except Fault Console
  | 0, c => .ok c
  | nr + 1, c => do
    let c ← f c
    repeated f nr c

/-- How often `csi_L`, `csi_M`, `csi_P` and `csi_at` repeat: `nr` is compared with `height` as unsigned. -/
def Console.times (c : Console) : Nat :=
  if c.height < c.args 0 then c.height.toNat else if c.args 0 = 0 then 1 else (c.args 0).toNat

def csiL (c : Console) : Except Fault Console := repeated insertLine c.times c
def csiM (c : Console) : Except Fault Console := repeated deleteLine c.times c
def csiP (c : Console) : Except Fault Console := repeated deleteChar c.times c
def csiAt (c : Console) : Except Fault Console := repeated insertChar c.times c

def restyle (style : BitVec 8) (a : Word) : BitVec 8 :=
  if a = 0 then styleNormal
  else if a = 1 then bold
  else if a = blink.setWidth 32 then style ||| blink
  else if a = 7 then style >>> 4 ||| style <<< 4
  else if 30 ≤ a ∧ a ≤ 37 then style &&& 0xF8 ||| (a - 30).setWidth 8
  else if 40 ≤ a ∧ a ≤ 47 then style &&& 0x8F ||| ((a - 40) <<< 4).setWidth 8
  else style

def csim (c : Console) : Console :=
  let style := (List.range c.argc.toNat).foldl (fun s i => restyle s (c.args i)) 0
  { c with style := style, erase := style ++ 0x20#8 }

def Console.setArg (c : Console) (i : Nat) (a : Word) : Console := { c with args := Function.update c.args i a }

def Console.decArg (c : Console) (i : Nat) : Console := if c.args i ≠ 0 then c.setArg i (c.args i - 1) else c

def Console.orOne (c : Console) : Console := if c.args 0 = 0 then c.setArg 0 (c.args 0 + 1) else c

def stateCsi (c : Console) (ch : BitVec 8) : Except Fault Console :=
  let c := { c with state := .nor }
  match Char.ofNat ch.toNat with
  | 'G' | '`' =>
    let c := c.decArg 0
    .ok (setXy c (c.args 0) c.y)
  | 'A' =>
    let c := c.orOne
    .ok (setXy c c.x (c.y - c.args 0))
  | 'B' | 'e' =>
    let c := c.orOne
    .ok (setXy c c.x (c.y + c.args 0))
  | 'C' | 'a' =>
    let c := c.orOne
    .ok (setXy c (c.x + c.args 0) c.y)
  | 'D' =>
    let c := c.orOne
    .ok (setXy c (c.x - c.args 0) c.y)
  | 'E' =>
    let c := c.orOne
    .ok (setXy c 0 (c.y + c.args 0))
  | 'F' =>
    let c := c.orOne
    .ok (setXy c 0 (c.y - c.args 0))
  | 'd' =>
    let c := c.decArg 0
    .ok (setXy c c.x (c.args 0))
  | 'H' | 'f' =>
    let c := (c.decArg 0).decArg 1
    .ok (setXy c (c.args 1) (c.args 0))
  | 'J' => csiJ c
  | 'K' => csiK c
  | 'L' => csiL c
  | 'M' => csiM c
  | 'P' => csiP c
  | '@' => csiAt c
  | 'm' => .ok (csim c)
  | 's' =>
    -- without a `break`, the position saved is then restored
    let c := saveCursor c
    .ok (setXy c c.savedX c.savedY)
  | 'u' => .ok (setXy c c.savedX c.savedY)
  | _ => .ok c

/-! ## The stream -/

def stateNormal (c : Console) (ch : BitVec 8) : Except Fault Console :=
  match ch.toNat with
  | 0x00 | 0x07 => .ok c
  | 0x08 => bs c
  | 0x09 => tab c
  | 0x0A => newline c
  | 0x0B | 0x0C => lf c
  | 0x0D => .ok (cr c)
  | 0x7F => del c
  | 0x1B => .ok { c with state := .esc }
  | _ => chr c ch

def stateEsc (c : Console) (ch : BitVec 8) : Except Fault Console :=
  match Char.ofNat ch.toNat with
  | '[' => .ok { c with state := .que }
  | 'E' => newline c
  | 'D' => lf c
  | '7' => .ok (saveCursor c)
  | '8' => .ok (setXy c c.savedX c.savedY)
  | _ => .ok c

def stateArg (c : Console) (ch : BitVec 8) : Console × Bool :=
  if argNr ≤ c.argc then (c, false)
  else if ch = 0x3B then ({ c with argc := c.argc + 1 }, false)
  else if 0x30 ≤ ch ∧ ch ≤ 0x39 then (c.setArg c.argc.toNat (c.args c.argc.toNat * 10 + ch.setWidth 32 - 0x30), false)
  else ({ c with argc := c.argc + 1, state := .csi }, true)

def argument (c : Console) (ch : BitVec 8) : Except Fault Console :=
  match stateArg c ch with
  | (c, false) => .ok c
  | (c, true) => stateCsi c ch

def consoleByte (c : Console) (ch : BitVec 8) : Except Fault Console :=
  match c.state with
  | .nor => stateNormal c ch
  | .esc => stateEsc c ch
  | .que =>
    let ques := decide (ch = 0x3F)
    let c := { c with args := fun _ => 0, argc := 0, state := .arg, ques := ques }
    if ques then .ok c else argument c ch
  | .arg => argument c ch
  | .csi => stateCsi c ch

def consoleWrite (c : Console) (buf : List (BitVec 8)) : Except Fault Console := buf.foldlM consoleByte c

/-- `console_init`, up to the `erase_screen` of `console_clear`; the static variable is zero before. -/
def consoleStart (mem : Word → BitVec 8) : Console where
  memBase := 0xB8000
  memSize := (0x4000 / 160) * 160
  memEnd := 0xB8000 + (0x4000 / 160) * 160
  screen := 0xB8000
  scrSize := 80 * 25 * 2
  pos := 0xB8000
  x := 0
  y := 0
  savedX := 0
  savedY := 0
  width := 80
  height := 25
  rowSize := 80 * 2
  state := .nor
  args _ := 0
  argc := 0
  ques := false
  erase := 0x0720
  style := styleNormal
  mem := mem

def consoleInit (mem : Word → BitVec 8) : Except Fault Console :=
  let c := consoleStart mem
  eraseScreen (c.memSize >>> 1).toNat c.memBase c

end Onix.Vga
