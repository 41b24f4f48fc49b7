/-
The keyboard: `keyboard_handler` of `kernel/keyboard.c` over the bytes the device sends, with `tty_rx_notify` of `kernel/tty.c`, as a
translation of what is done to the keys. Whatever keys are pressed and released, the modifiers of a keystroke are the keys held down
at it, and the locks are on after an odd number of presses; the bytes the device acknowledges the lamps with are no keys.
-/
import Mathlib.Data.BitVec
import Mathlib.Data.List.GetD

namespace Onix.Keyboard

open List

/-! ## Keys -/

def KEY_CTRL_L : Nat := 0x1D
def KEY_SHIFT_L : Nat := 0x2A
def KEY_SLASH : Nat := 0x35
def KEY_SHIFT_R : Nat := 0x36
def KEY_CAPSLOCK : Nat := 0x3A
def KEY_NUMLOCK : Nat := 0x45
def KEY_SCRLOCK : Nat := 0x46
def KEY_PRINT_SCREEN : Nat := 0x5F

def CODE_PRINT_SCREEN_DOWN : Nat := 0xB7

def KEYBOARD_CMD_ACK : BitVec 8 := 0xFA

def INV : Char := '\x00'

/-- `keymap[_][0]` up to the last key that is not `INV`. -/
def plain : List Char :=
  ("\x00\x1b1234567890-=\x08\tqwertyuiop[]\n\x00asdfghjkl;'`\x00\\zxcvbnm,./\x00*\x00 \x00" ++
    "\x00\x00\x00\x00\x00\x00\x00\x00\x00\x00\x00\x00789-456+1230.").toList

/-- `keymap[_][1]` -/
def shifted : List Char :=
  ("\x00\x1b!@#$%^&*()_+\x08\tQWERTYUIOP\x7b\x7d\n\x00ASDFGHJKL:\"~\x00|ZXCVBNM<>?\x00*\x00 \x00" ++
    "\x00\x00\x00\x00\x00\x00\x00\x00\x00\x00\x00\x00\x00\x00\x00-\x00\x00\x00+\x00\x00\x00\x00\x7f").toList

/-! ## The handler -/

/-- `keymap[_][2]` and, after an extension byte, `keymap[_][3]`; the states of the locks. -/
structure State where
  down : Nat → Bool → Bool
  capslock : Bool
  scrlock : Bool
  numlock : Bool
  extcode : Bool

def State.set (s : State) (makecode : Nat) (ext v : Bool) : State :=
  { s with down := fun k e => if k = makecode ∧ e = ext then v else s.down k e }

def State.ctrl (s : State) : Bool := s.down KEY_CTRL_L false || s.down KEY_CTRL_L true

def State.shift (s : State) : Bool := s.down KEY_SHIFT_L false || s.down KEY_SHIFT_R false

/-- What becomes of a key: a byte for the ring, `SIGINT` for the foreground, an empty screen, the lamps. -/
inductive Out
  | put (ch : Char)
  | intr
  | clear
  | leds (capslock numlock scrlock : Bool)

/-- `keyboard_ack`: every byte up to the acknowledgement is dropped; `none` when it does not come. -/
def keyboardAck : List (BitVec 8) → Option (List (BitVec 8))
  | [] => none
  | b :: bytes => if b = KEYBOARD_CMD_ACK then some bytes else keyboardAck bytes

def setLeds (s : State) (bytes : List (BitVec 8)) : Option (List Out × List (BitVec 8)) := do
  let bytes ← keyboardAck bytes
  let bytes ← keyboardAck bytes
  pure ([.leds s.capslock s.numlock s.scrlock], bytes)

/-- `tty_rx_notify`: what it returns, the character it leaves, and what it does. -/
def ttyRxNotify (ch : Char) (ctrl : Bool) : Int × Char × List Out :=
  let ch := if ch = '\r' then '\n' else ch
  if !ctrl then (0, ch, [])
  else if ch = 'c' ∨ ch = 'C' then (0, '\n', [.intr])
  else if ch = 'l' ∨ ch = 'L' then (0, '\r', [.clear])
  else (1, ch, [])

def State.toggle (s : State) (makecode : Nat) : State × Bool :=
  if makecode = KEY_NUMLOCK then ({ s with numlock := !s.numlock }, true)
  else if makecode = KEY_CAPSLOCK then ({ s with capslock := !s.capslock }, true)
  else if makecode = KEY_SCRLOCK then ({ s with scrlock := !s.scrlock }, true)
  else (s, false)

/-- The character of a key that went down. -/
def State.char (s : State) (makecode : Nat) (ext : Bool) : Char :=
  let c := plain.getD makecode INV
  let shift := if s.capslock && ('a' ≤ c && c ≤ 'z') then true else false
  let shift := if s.shift then !shift else shift
  if ext && makecode ≠ KEY_SLASH then shifted.getD makecode INV
  else if shift then shifted.getD makecode INV else c

/-- What is done with the character of a key that went down. -/
def State.input (s : State) (makecode : Nat) (ext : Bool) : List Out :=
  let ch := s.char makecode ext
  if ch = INV then []
  else
    let (ret, ch, out) := ttyRxNotify ch s.ctrl
    out ++ if 0 < ret then [] else [.put ch]

/-- From a key that went down on. -/
def keyDown (s : State) (makecode : Nat) (ext : Bool) (bytes : List (BitVec 8)) : Option (State × List Out × List (BitVec 8)) :=
  let (s, led) := (s.set makecode ext true).toggle makecode
  (if led then setLeds s bytes else some ([], bytes)).map fun (out, bytes) => (s, out ++ s.input makecode ext, bytes)

/-- `keyboard_handler`: the state after it, what it did and the bytes it left; `none` while it waits for the device. -/
def keyboardHandler (s : State) : List (BitVec 8) → Option (State × List Out × List (BitVec 8))
  | [] => none
  | scancode :: bytes =>
    if scancode = 0xE0 then some ({ s with extcode := true }, [], bytes)
    else
      let ext := s.extcode
      let s := { s with extcode := false }
      let makecode := scancode.toNat % 128
      let makecode := if makecode = CODE_PRINT_SCREEN_DOWN then KEY_PRINT_SCREEN else makecode
      if KEY_PRINT_SCREEN < makecode then some (s, [], bytes)
      else if scancode.msb then some (s.set makecode ext false, [], bytes)
      else keyDown s makecode ext bytes

/-- Interrupt after interrupt, `n` at most, until no byte is left. -/
def run : Nat → State → List (BitVec 8) → Option (State × List Out)
  | _, s, [] => some (s, [])
  | 0, _, _ :: _ => none
  | n + 1, s, b :: bytes => do
    let (s, out, rest) ← keyboardHandler s (b :: bytes)
    let (s, out') ← run n s rest
    pure (s, out ++ out')

/-- `keyboard_init` -/
def init : State := ⟨fun _ _ => false, false, false, false, false⟩

/-! ## What is done to the keys -/

structure Key where
  code : Nat
  ext : Bool
  le : code ≤ KEY_PRINT_SCREEN
  deriving DecidableEq

def Key.Locks (k : Key) : Prop := k.code = KEY_NUMLOCK ∨ k.code = KEY_CAPSLOCK ∨ k.code = KEY_SCRLOCK

instance (k : Key) : Decidable k.Locks := inferInstanceAs (Decidable (_ ∨ _))

/-- `other`: a byte that stands for no key. -/
inductive Event
  | press (k : Key)
  | release (k : Key)
  | other (b : BitVec 8) (h : b ≠ 0xE0 ∧ KEY_PRINT_SCREEN < b.toNat % 128)

def Key.bytes (k : Key) (up : Nat) : List (BitVec 8) := (if k.ext then [0xE0] else []) ++ [BitVec.ofNat 8 (k.code + up)]

/-- The device acknowledges the command for the lamps, and then what they are to show. -/
def Event.bytes : Event → List (BitVec 8)
  | .press k => k.bytes 0 ++ if k.Locks then [KEYBOARD_CMD_ACK, KEYBOARD_CMD_ACK] else []
  | .release k => k.bytes 128
  | .other b _ => [b]

/-- The key was pressed and has not been released since. -/
def Held (h : List Event) (k : Key) : Prop := ∃ h1 h2, h = h1 ++ .press k :: h2 ∧ .release k ∉ h2

def Event.presses (c : Nat) : Event → Bool
  | .press k => k.code = c
  | _ => false

/-- A lock is on after an odd number of presses. -/
def Locked (h : List Event) (c : Nat) : Prop := Odd (h.countP (Event.presses c))

def ctrlL (ext : Bool) : Key := ⟨KEY_CTRL_L, ext, by decide⟩
def shiftL : Key := ⟨KEY_SHIFT_L, false, by decide⟩
def shiftR : Key := ⟨KEY_SHIFT_R, false, by decide⟩

/-- The second character of a key: with shift or, for a letter, with the lock, but not with both. -/
def Shifted (h : List Event) (k : Key) : Prop :=
  Xor (Locked h KEY_CAPSLOCK ∧ 'a' ≤ plain.getD k.code INV ∧ plain.getD k.code INV ≤ 'z') (Held h shiftL ∨ Held h shiftR)

open Classical in
noncomputable def charOf (h : List Event) (k : Key) : Char :=
  if (k.ext = true ∧ k.code ≠ KEY_SLASH) ∨ Shifted h k then shifted.getD k.code INV else plain.getD k.code INV

open Classical in
/-- What the last key of `h` types, with `tty_rx_notify` where it is held with `CTRL`. -/
noncomputable def keystroke (h : List Event) (k : Key) : List Out :=
  let ch := charOf h k
  if ch = INV then []
  else if Held h (ctrlL false) ∨ Held h (ctrlL true) then
    if ch = 'c' ∨ ch = 'C' then [.intr, .put '\n'] else if ch = 'l' ∨ ch = 'L' then [.clear, .put '\r'] else []
  else [.put ch]

open Classical in
noncomputable def Event.typed (h : List Event) : Event → List Out
  | .press k => (if k.Locks then [.leds (decide (Locked h KEY_CAPSLOCK)) (decide (Locked h KEY_NUMLOCK)) (decide (Locked h KEY_SCRLOCK))]
      else []) ++ keystroke h k
  | _ => []

noncomputable def typed : List Event → List Event → List Out
  | _, [] => []
  | h, e :: events => e.typed (h ++ [e]) ++ typed (h ++ [e]) events

/-! ## The state -/

/-- What the handler knows is what was done to the keys. -/
structure Rep (h : List Event) (s : State) : Prop where
  down : ∀ k : Key, s.down k.code k.ext = true ↔ Held h k
  capslock : s.capslock = true ↔ Locked h KEY_CAPSLOCK
  scrlock : s.scrlock = true ↔ Locked h KEY_SCRLOCK
  numlock : s.numlock = true ↔ Locked h KEY_NUMLOCK
  extcode : s.extcode = false

variable {h : List Event} {s t : State} {k : Key} {e : Event} {rest : List (BitVec 8)}

theorem held_append (e : Event) (k : Key) : Held (h ++ [e]) k ↔ e = .press k ∨ Held h k ∧ e ≠ .release k := by
  constructor
  · rintro ⟨h1, h2, heq, hno⟩
    rcases eq_nil_or_concat h2 with rfl | ⟨h2, x, rfl⟩
    · exact .inl (append_inj_right' heq rfl |> singleton_inj.1)
    · rw [concat_eq_append, ← cons_append, ← append_assoc] at heq
      obtain ⟨rfl, hx⟩ := append_inj' heq rfl
      obtain rfl := singleton_inj.1 hx
      rw [concat_eq_append, mem_append, mem_singleton, not_or] at hno
      exact .inr ⟨⟨h1, h2, rfl, hno.1⟩, fun he => hno.2 he.symm⟩
  · rintro (rfl | ⟨⟨h1, h2, rfl, hno⟩, he⟩)
    · exact ⟨h, [], rfl, not_mem_nil⟩
    · refine ⟨h1, h2 ++ [e], by rw [append_assoc, cons_append], ?_⟩
      rw [mem_append, mem_singleton, not_or]
      exact ⟨hno, fun hr => he hr.symm⟩

theorem locked_press (k : Key) (c : Nat) : Locked (h ++ [.press k]) c ↔ if k.code = c then ¬ Locked h c else Locked h c := by
  unfold Locked
  rw [countP_append, countP_singleton]
  unfold Event.presses
  by_cases hc : k.code = c
  · rw [if_pos hc, if_pos (decide_eq_true hc)]
    exact Nat.odd_add_one
  · rw [if_neg hc, if_neg fun he => hc (of_decide_eq_true he)]
    rfl

theorem locked_append {c : Nat} (he : e.presses c = false) : Locked (h ++ [e]) c ↔ Locked h c := by
  unfold Locked
  rw [countP_append, countP_singleton, he]
  rfl

theorem set_down (k k' : Key) (v : Bool) : (s.set k.code k.ext v).down k'.code k'.ext = if k' = k then v else s.down k'.code k'.ext := by
  obtain ⟨c, e, _⟩ := k
  obtain ⟨c', e', _⟩ := k'
  unfold State.set
  dsimp only
  simp only [Key.mk.injEq]

theorem Rep.quiet (hr : Rep h s) (he : ∀ c, e.presses c = false) {down : Nat → Bool → Bool}
    (hd : ∀ k : Key, down k.code k.ext = true ↔ Held (h ++ [e]) k) : Rep (h ++ [e]) { s with down := down } :=
  ⟨hd, hr.capslock.trans (locked_append (he _)).symm, hr.scrlock.trans (locked_append (he _)).symm, hr.numlock.trans (locked_append (he _)).symm,
    hr.extcode⟩

theorem Rep.release (hr : Rep h s) (k : Key) : Rep (h ++ [.release k]) (s.set k.code k.ext false) := by
  refine hr.quiet (fun _ => rfl) fun k' => ?_
  change (s.set k.code k.ext false).down k'.code k'.ext = true ↔ _
  rw [set_down, held_append]
  split
  · rename_i hk
    exact iff_of_false nofun fun hx => hx.elim nofun fun hx => hx.2 (congrArg Event.release hk.symm)
  · rename_i hk
    rw [hr.down k']
    exact ⟨fun hh => .inr ⟨hh, fun he => hk (Event.release.inj he).symm⟩, fun hx => (hx.resolve_left nofun).1⟩

theorem Rep.other (hr : Rep h s) {b : BitVec 8} (hb : b ≠ 0xE0 ∧ KEY_PRINT_SCREEN < b.toNat % 128) : Rep (h ++ [.other b hb]) s := by
  refine hr.quiet (fun _ => rfl) fun k' => ?_
  rw [hr.down k', held_append]
  exact ⟨fun hh => .inr ⟨hh, nofun⟩, fun hx => (hx.resolve_left nofun).1⟩

theorem toggle_eq (s : State) (c : Nat) : s.toggle c =
    ({ s with
        capslock := if c = KEY_CAPSLOCK then !s.capslock else s.capslock
        scrlock := if c = KEY_SCRLOCK then !s.scrlock else s.scrlock
        numlock := if c = KEY_NUMLOCK then !s.numlock else s.numlock },
      decide (c = KEY_NUMLOCK ∨ c = KEY_CAPSLOCK ∨ c = KEY_SCRLOCK)) := by
  unfold State.toggle KEY_NUMLOCK KEY_CAPSLOCK KEY_SCRLOCK
  split_ifs <;> simp_all

theorem toggle_press (hr : Rep h s) (k : Key) : Rep (h ++ [.press k]) ((s.set k.code k.ext true).toggle k.code).1 ∧
    ((s.set k.code k.ext true).toggle k.code).2 = decide k.Locks := by
  have hlock : ∀ c (b : Bool), (b = true ↔ Locked h c) → ((if k.code = c then !b else b) = true ↔ Locked (h ++ [.press k]) c) := by
    intro c b hb
    rw [locked_press]
    split
    · rw [← hb, Bool.not_eq_true', Bool.not_eq_true]
    · exact hb
  rw [toggle_eq]
  refine ⟨⟨fun k' => ?_, hlock _ _ hr.capslock, hlock _ _ hr.scrlock, hlock _ _ hr.numlock, hr.extcode⟩, rfl⟩
  dsimp only
  rw [set_down, held_append]
  split
  · rename_i hk
    exact iff_of_true rfl (.inl (congrArg Event.press hk.symm))
  · rename_i hk
    rw [hr.down k']
    exact ⟨fun hh => .inr ⟨hh, nofun⟩, fun hx => (hx.resolve_left fun he => hk (Event.press.inj he).symm).1⟩

/-! ## A key that goes down -/

theorem plain_return (c : Nat) : plain.getD c INV ≠ '\r' ∧ shifted.getD c INV ≠ '\r' := by
  have hall : ∀ l : List Char, '\r' ∉ l → l.getD c INV ≠ '\r' := by
    intro l hl he
    by_cases hc : c < l.length
    · rw [getD_eq_getElem _ _ hc] at he
      exact hl (he ▸ getElem_mem hc)
    · rw [getD_eq_default _ _ (Nat.le_of_not_lt hc)] at he
      exact absurd he (by decide)
  exact ⟨hall _ (by decide), hall _ (by decide)⟩

theorem Rep.shift (hr : Rep h s) : s.shift = true ↔ Held h shiftL ∨ Held h shiftR :=
  Bool.or_eq_true_iff.trans (or_congr (hr.down shiftL) (hr.down shiftR))

theorem Rep.ctrl (hr : Rep h s) : s.ctrl = true ↔ Held h (ctrlL false) ∨ Held h (ctrlL true) :=
  Bool.or_eq_true_iff.trans (or_congr (hr.down (ctrlL false)) (hr.down (ctrlL true)))

theorem Rep.char (hr : Rep h s) (k : Key) : s.char k.code k.ext = charOf h k := by
  have hletter : (decide ('a' ≤ plain.getD k.code INV) && decide (plain.getD k.code INV ≤ 'z')) = true ↔
      'a' ≤ plain.getD k.code INV ∧ plain.getD k.code INV ≤ 'z' := by
    rw [Bool.and_eq_true, decide_eq_true_iff, decide_eq_true_iff]
  have hshift : ((if s.shift then !(if s.capslock && ('a' ≤ plain.getD k.code INV && plain.getD k.code INV ≤ 'z') then true else false)
      else if s.capslock && ('a' ≤ plain.getD k.code INV && plain.getD k.code INV ≤ 'z') then true else false) = true) ↔ Shifted h k := by
    unfold Shifted Xor
    rw [← hr.shift, ← hr.capslock, ← hletter]
    generalize (decide ('a' ≤ plain.getD k.code INV) && decide (plain.getD k.code INV ≤ 'z')) = letter
    cases s.shift <;> cases s.capslock <;> cases letter <;> decide
  unfold State.char charOf
  dsimp only
  by_cases he : k.ext = true ∧ k.code ≠ KEY_SLASH
  · rw [if_pos (by simpa using he), if_pos (Or.inl he)]
  · rw [if_neg (by simpa using he)]
    by_cases hs : Shifted h k
    · rw [if_pos (hshift.2 hs), if_pos (Or.inr hs)]
    · rw [if_neg fun hx => hs (hshift.1 hx), if_neg (not_or.2 ⟨he, hs⟩)]

theorem Rep.input (hr : Rep h s) (k : Key) : s.input k.code k.ext = keystroke h k := by
  unfold State.input keystroke ttyRxNotify
  rw [hr.char k]
  dsimp only
  have hno : charOf h k ≠ '\r' := by
    unfold charOf
    split
    · exact (plain_return _).2
    · exact (plain_return _).1
  generalize charOf h k = ch at hno
  rw [if_neg hno]
  by_cases hinv : ch = INV
  · rw [if_pos hinv, if_pos hinv]
  rw [if_neg hinv, if_neg hinv]
  by_cases hc : s.ctrl = true
  · rw [hc, if_pos (hr.ctrl.1 hc), if_neg (by decide)]
    by_cases h1 : ch = 'c' ∨ ch = 'C'
    · rw [if_pos h1, if_pos h1]
      rfl
    rw [if_neg h1, if_neg h1]
    by_cases h2 : ch = 'l' ∨ ch = 'L'
    · rw [if_pos h2, if_pos h2]
      rfl
    · rw [if_neg h2, if_neg h2]
      rfl
  · rw [if_neg fun hx => hc (hr.ctrl.2 hx), eq_false_of_ne_true hc]
    rfl

theorem keyDown_press (hr : Rep h s) (k : Key) (rest : List (BitVec 8)) :
    ∃ t, keyDown s k.code k.ext ((if k.Locks then [KEYBOARD_CMD_ACK, KEYBOARD_CMD_ACK] else []) ++ rest) =
      some (t, Event.typed (h ++ [.press k]) (.press k), rest) ∧ Rep (h ++ [.press k]) t := by
  obtain ⟨hrep, hled⟩ := toggle_press hr k
  unfold keyDown Event.typed
  generalize (s.set k.code k.ext true).toggle k.code = x at hrep hled
  obtain ⟨t, led⟩ := x
  refine ⟨t, ?_, hrep⟩
  dsimp only at hrep hled ⊢
  rw [hled, hrep.input]
  by_cases hk : k.Locks
  · simp only [← hrep.capslock, ← hrep.numlock, ← hrep.scrlock, Bool.decide_eq_true]
    rw [if_pos (decide_eq_true hk), if_pos hk, if_pos hk]
    rfl
  · rw [if_neg (by rw [decide_eq_false hk]; exact Bool.false_ne_true), if_neg hk, if_neg hk]
    rfl

/-! ## The bytes of a key -/

theorem handler_key (k : Key) {up : Nat} (hup : up = 0 ∨ up = 128) (bytes : List (BitVec 8)) :
    keyboardHandler s (BitVec.ofNat 8 (k.code + up) :: bytes) =
      if up = 0 then keyDown { s with extcode := false } k.code s.extcode bytes
      else some (State.set { s with extcode := false } k.code s.extcode false, [], bytes) := by
  have hle : k.code ≤ 0x5F := k.le
  have hnat : (BitVec.ofNat 8 (k.code + up)).toNat = k.code + up := by
    rw [BitVec.toNat_ofNat]
    omega
  have hne : BitVec.ofNat 8 (k.code + up) ≠ 0xE0 := fun he => by
    have := hnat.symm.trans (congrArg BitVec.toNat he)
    change k.code + up = 0xE0 at this
    omega
  unfold keyboardHandler CODE_PRINT_SCREEN_DOWN
  dsimp only
  rw [if_neg hne, hnat, show (k.code + up) % 128 = k.code by omega, if_neg (show k.code ≠ 0xB7 by omega), if_neg (Nat.not_lt.2 k.le),
    BitVec.msb_eq_decide, hnat]
  rcases hup with rfl | rfl
  · rw [if_neg (by rw [decide_eq_true_iff]; omega), if_pos rfl]
  · rw [if_pos (by rw [decide_eq_true_iff]; omega), if_neg (by decide)]

/-- `out` comes before what `r` does. -/
def before (out : List Out) (r : Option (State × List Out)) : Option (State × List Out) := r.map fun x => (x.1, out ++ x.2)

theorem run_step {n : Nat} {b : BitVec 8} {bytes : List (BitVec 8)} {out : List Out}
    (hstep : keyboardHandler s (b :: bytes) = some (t, out, rest)) : run (n + 1) s (b :: bytes) = before out (run n t rest) := by
  rw [run, hstep]
  show (run n t rest >>= fun x => some (x.1, out ++ x.2)) = (run n t rest).map _
  cases run n t rest <;> rfl

theorem before_nil (r : Option (State × List Out)) : before [] r = r := by
  cases r <;> rfl

theorem extcode_same (hs : s.extcode = false) : ({ s with extcode := false } : State) = s := by
  cases s
  cases hs
  rfl

/-- The extension byte only sets its state. -/
theorem run_key {n up : Nat} {bytes : List (BitVec 8)} {out : List Out} (hs : s.extcode = false) (k : Key)
    (hstep : keyboardHandler { s with extcode := k.ext } (BitVec.ofNat 8 (k.code + up) :: bytes) = some (t, out, rest)) :
    run (n + (k.bytes up).length) s (k.bytes up ++ bytes) = before out (run n t rest) := by
  obtain ⟨c, ext, hle⟩ := k
  cases ext with
  | false =>
    dsimp only at hstep
    rw [extcode_same hs] at hstep
    exact run_step hstep
  | true =>
    have hext : keyboardHandler s (0xE0 :: BitVec.ofNat 8 (c + up) :: bytes) =
        some ({ s with extcode := true }, [], BitVec.ofNat 8 (c + up) :: bytes) := by
      unfold keyboardHandler
      exact if_pos rfl
    exact (run_step hext).trans ((before_nil _).trans (run_step hstep))

/-- What one event does, and how many interrupts are left after it. -/
theorem run_event (hr : Rep h s) (e : Event) (rest : List (BitVec 8)) {n : Nat} (hn : e.bytes.length ≤ n) :
    ∃ t, Rep (h ++ [e]) t ∧ ∃ m, n ≤ m + e.bytes.length ∧ run n s (e.bytes ++ rest) = before (e.typed (h ++ [e])) (run m t rest) := by
  cases e with
  | press k =>
    obtain ⟨t, hdown, hrep⟩ := keyDown_press hr k rest
    unfold Event.bytes at hn ⊢
    rw [length_append] at hn
    have hstep : keyboardHandler { s with extcode := k.ext }
        (BitVec.ofNat 8 (k.code + 0) :: ((if k.Locks then [KEYBOARD_CMD_ACK, KEYBOARD_CMD_ACK] else []) ++ rest)) = _ :=
      (handler_key k (.inl rfl) _).trans ((congrArg (keyDown · _ _ _) (extcode_same hr.extcode)).trans hdown)
    have hrun := run_key (n := n - (k.bytes 0).length) hr.extcode k hstep
    rw [Nat.sub_add_cancel (by omega)] at hrun
    refine ⟨t, hrep, n - (k.bytes 0).length, ?_, ?_⟩
    · rw [length_append]
      omega
    · rw [append_assoc]
      exact hrun
  | release k =>
    have hstep : keyboardHandler { s with extcode := k.ext } (BitVec.ofNat 8 (k.code + 128) :: rest) = some (s.set k.code k.ext false, [], rest) :=
      (handler_key k (.inr rfl) _).trans (congrArg (fun u => some (State.set u _ _ _, [], rest)) (extcode_same hr.extcode))
    have hrun := run_key (n := n - (k.bytes 128).length) hr.extcode k hstep
    rw [Nat.sub_add_cancel (show (k.bytes 128).length ≤ n from hn)] at hrun
    exact ⟨_, hr.release k, n - (k.bytes 128).length, Nat.le_of_eq (Nat.sub_add_cancel hn).symm, hrun⟩
  | other b hb =>
    have hstep : keyboardHandler s (b :: rest) = some (s, [], rest) := by
      unfold keyboardHandler
      dsimp only
      rw [if_neg hb.1, extcode_same hr.extcode]
      refine if_pos ?_
      split
      · rename_i he
        unfold CODE_PRINT_SCREEN_DOWN at he
        omega
      · exact hb.2
    have hrun := run_step (n := n - 1) hstep
    rw [Nat.sub_add_cancel (show 1 ≤ n from hn)] at hrun
    exact ⟨s, hr.other hb, n - 1, Nat.le_of_eq (Nat.sub_add_cancel hn).symm, hrun⟩

theorem run_events (events : List Event) {n : Nat} (hr : Rep h s) (hn : (events.flatMap Event.bytes).length ≤ n) :
    ∃ t, run n s (events.flatMap Event.bytes) = some (t, typed h events) ∧ Rep (h ++ events) t := by
  induction events generalizing h s n with
  | nil =>
    refine ⟨s, ?_, by rw [append_nil]; exact hr⟩
    cases n <;> rfl
  | cons e events ih =>
    rw [flatMap_cons] at hn ⊢
    rw [length_append] at hn
    obtain ⟨t, hrep, m, hm, hrun⟩ := run_event (n := n) hr e (events.flatMap Event.bytes) (by omega)
    obtain ⟨u, hu, hrep'⟩ := ih hrep (n := m) (by omega)
    refine ⟨u, ?_, by rw [append_cons]; exact hrep'⟩
    rw [hrun, hu]
    rfl

theorem init_rep : Rep [] init where
  down _ := iff_of_false nofun fun ⟨h1, _, he, _⟩ => by cases h1 <;> cases he
  capslock := iff_of_false nofun Nat.not_odd_zero
  scrlock := iff_of_false nofun Nat.not_odd_zero
  numlock := iff_of_false nofun Nat.not_odd_zero
  extcode := rfl

/-- Whatever is done to the keys, the handler types what was meant, and knows in the end which keys are held and which locks are on. -/
theorem keyboard_types (events : List Event) :
    ∃ t, run (events.flatMap Event.bytes).length init (events.flatMap Event.bytes) = some (t, typed [] events) ∧ Rep events t :=
  run_events events init_rep (Nat.le_refl _)

end Onix.Keyboard
