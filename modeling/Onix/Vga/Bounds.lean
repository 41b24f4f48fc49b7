/-
The console stays in its memory: the screen starts at a whole row, a row below the last possible one at most, and the cursor is where
its coordinates say; every character, control character and control sequence keeps that, and no access leaves the video memory.
-/
import Onix.Vga.Model

namespace Onix.Vga

open Onix.Lib

abbrev Safe (r : Except Fault Console) (Q : Console → Prop) : Prop := Sat (fun _ => True) r Q

theorem Safe.reached {r : Except Fault Console} {Q : Console → Prop} (h : Safe r Q) : ∃ c, r = .ok c ∧ Q c := by
  cases r with
  | error e => exact absurd trivial h
  | ok c => exact ⟨c, rfl, h⟩

structure Dims (c : Console) : Prop where
  memBase : c.memBase = 0xB8000
  memSize : c.memSize = 16320
  memEnd : c.memEnd = 0xBBFC0
  scrSize : c.scrSize = 4000
  width : c.width = 80
  height : c.height = 25
  rowSize : c.rowSize = 160

/-- The screen starts at one of the first rows of the memory, and the cursor is in it or just right of it. -/
structure Inv (c : Console) : Prop where
  dims : Dims c
  screen : ∃ r ≤ 76, c.screen.toNat = 0xB8000 + 160 * r
  x : c.x.toNat ≤ 80
  y : c.y.toNat < 25
  pos : c.pos.toNat = c.screen.toNat + 160 * c.y.toNat + 2 * c.x.toNat
  argc : c.argc.toNat ≤ 16

variable {c d : Console}

variable {pos : Word}

theorem Dims.other (h : Dims c) {screen x y savedX savedY : Word} {state : State} {args : Nat → Word} {argc : Word} {ques : Bool}
    {erase : BitVec 16} {style : BitVec 8} {mem : Word → BitVec 8} :
    Dims { c with
      screen := screen, pos := pos, x := x, y := y, savedX := savedX, savedY := savedY, state := state, args := args, argc := argc,
      ques := ques, erase := erase, style := style, mem := mem } :=
  ⟨h.memBase, h.memSize, h.memEnd, h.scrSize, h.width, h.height, h.rowSize⟩

theorem Inv.other (h : Inv c) {savedX savedY : Word} {state : State} {args : Nat → Word} {argc : Word} {ques : Bool}
    {erase : BitVec 16} {style : BitVec 8} {mem : Word → BitVec 8} (ha : argc.toNat ≤ 16) :
    Inv { c with
      savedX := savedX, savedY := savedY, state := state, args := args, argc := argc, ques := ques, erase := erase, style := style,
      mem := mem } :=
  ⟨h.dims.other, h.screen, h.x, h.y, h.pos, ha⟩

/-! ## Memory -/

def Same (c d : Console) : Prop := ∃ m, d = { c with mem := m }

theorem Same.refl (c : Console) : Same c c := ⟨c.mem, rfl⟩

theorem Same.trans {e : Console} (h1 : Same c d) (h2 : Same d e) : Same c e := by
  obtain ⟨m, rfl⟩ := h1
  obtain ⟨n, rfl⟩ := h2
  exact ⟨n, rfl⟩

theorem Same.inv (hs : Same c d) (h : Inv c) : Inv d := by
  obtain ⟨m, rfl⟩ := hs
  exact h.other h.argc

def Room (c : Console) (a : Word) (n : Nat) : Prop := c.memBase.toNat ≤ a.toNat ∧ a.toNat + n ≤ c.memEnd.toNat

variable {n : Nat} {a : Word}

theorem Same.room (hs : Same c d) (h : Room c a n) : Room d a n := by
  obtain ⟨m, rfl⟩ := hs
  exact h

theorem Room.inside (h : Room c a n) (hn : 0 < n) : c.inside a := by
  obtain ⟨h1, h2⟩ := h
  exact ⟨BitVec.le_def.2 h1, BitVec.lt_def.2 (by omega)⟩

variable {k : Nat}

theorem Room.next (h : Room c a (k + n)) (hn : 0 < n) : Room c (a + BitVec.ofNat 32 k) n := by
  obtain ⟨h1, h2⟩ := h
  have := c.memEnd.isLt
  have ha : (a + BitVec.ofNat 32 k).toNat = a.toNat + k := by
    rw [BitVec.toNat_add, BitVec.toNat_ofNat, Nat.mod_eq_of_lt (by omega : k < 2 ^ 32), Nat.mod_eq_of_lt (by omega)]
  exact ⟨by omega, by omega⟩

theorem Room.mono (h : Room c a n) (hk : k ≤ n) : Room c a k := ⟨h.1, by have := h.2; omega⟩

theorem load_ok (h : Room c a 1) : c.load a = .ok (c.mem a) := if_pos (h.inside Nat.one_pos)

theorem load16_ok (h : Room c a 2) : c.load16 a = .ok (c.mem (a + 1) ++ c.mem a) := by
  have h1 : Room c (a + 1) 1 := Room.next (k := 1) h Nat.one_pos
  unfold Console.load16
  rw [load_ok (h.mono (by omega)), load_ok h1]
  rfl

theorem store_safe (v : BitVec 8) (h : Room c a 1) : Safe (c.store a v) (Same c) := by
  unfold Console.store
  rw [if_pos (h.inside Nat.one_pos)]
  exact ⟨_, rfl⟩

theorem store16_safe (v : BitVec 16) (h : Room c a 2) : Safe (c.store16 a v) (Same c) :=
  (store_safe _ (h.mono (by omega))).bind fun _ _ h1 => (store_safe _ (h1.room (Room.next (k := 1) h Nat.one_pos))).mono fun _ => h1.trans

theorem memcpy_safe : ∀ (n : Nat) (dest src : Word) (c : Console), Room c dest n → Room c src n → Safe (memcpy n dest src c) (Same c)
  | 0, _, _, c, _, _ => .refl c
  | n + 1, dest, src, c, hd, hs => by
    unfold memcpy
    rw [load_ok (hs.mono (by omega))]
    refine (store_safe _ (hd.mono (by omega))).bind fun d _ h1 => ?_
    rcases Nat.eq_zero_or_pos n with rfl | hn
    · exact h1
    · rw [Nat.add_comm] at hd hs
      exact (memcpy_safe n _ _ d (h1.room (hd.next hn)) (h1.room (hs.next hn))).mono fun _ => h1.trans

theorem eraseScreen_safe : ∀ (n : Nat) (start : Word) (c : Console), Room c start (2 * n) → Safe (eraseScreen n start c) (Same c)
  | 0, _, c, _ => .refl c
  | n + 1, start, c, h => by
    unfold eraseScreen
    refine (store16_safe _ (h.mono (by omega))).bind fun d _ h1 => ?_
    rcases Nat.eq_zero_or_pos n with rfl | hn
    · exact h1
    · rw [show 2 * (n + 1) = 2 + 2 * n by omega] at h
      exact (eraseScreen_safe n _ d (h1.room (h.next (by omega)))).mono fun _ => h1.trans

/-! ## The cursor -/

namespace Inv

theorem room (h : Inv c) (h1 : 0xB8000 ≤ a.toNat) (h2 : a.toNat + n ≤ 0xBBFC0) : Room c a n := by
  unfold Room
  rw [h.dims.memBase, h.dims.memEnd]
  exact ⟨h1, h2⟩

theorem screen_le (h : Inv c) : 0xB8000 ≤ c.screen.toNat ∧ c.screen.toNat + 4000 ≤ 0xBBFC0 - 160 := by
  obtain ⟨r, hr, hs⟩ := h.screen
  omega

theorem moved (h : Inv c) {screen x y : Word} (hs : ∃ r ≤ 76, screen.toNat = 0xB8000 + 160 * r) (hx : x.toNat ≤ 80) (hy : y.toNat < 25)
    (hp : pos.toNat = screen.toNat + 160 * y.toNat + 2 * x.toNat) : Inv { c with screen := screen, pos := pos, x := x, y := y } :=
  ⟨h.dims.other, hs, hx, hy, hp, h.argc⟩

theorem setXy (h : Inv c) (x y : Word) : Inv (setXy c x y) := by
  unfold Vga.setXy
  split
  · exact h
  · rename_i hn
    rw [h.dims.width, h.dims.height, not_or, BitVec.not_lt, BitVec.not_le] at hn
    have h1 := h.screen_le
    refine h.moved h.screen ?_ ?_ ?_
    · have := hn.1
      bv_omega
    · have := hn.2
      bv_omega
    · rw [h.dims.rowSize]
      obtain ⟨h2, h3⟩ := hn
      bv_omega

theorem cr (h : Inv c) : Inv (cr c) := by
  unfold Vga.cr
  refine h.moved h.screen (by decide) h.y ?_
  have h1 := h.pos
  have h2 := h.x
  have h3 := h.y
  have h4 := h.screen_le
  bv_omega

theorem rewind (h : Inv c) : Safe (rewind c) fun d => Inv d ∧ d.x = c.x ∧ d.screen.toNat + 4160 < 0xBBFC0 := by
  have h1 := h.screen_le
  have h2 := h.x
  have h3 := h.y
  have h4 := h.pos
  unfold Vga.rewind
  refine sat_ite (fun _ => ?_) fun hn => ?_
  · have h5 : Room c c.memBase c.scrSize.toNat := by
      rw [h.dims.memBase, h.dims.scrSize]
      exact h.room (by bv_omega) (by bv_omega)
    have h6 : Room c c.screen c.scrSize.toNat := by
      rw [h.dims.scrSize]
      exact h.room h1.1 (by bv_omega)
    refine (memcpy_safe _ _ _ c h5 h6).bind fun d _ hd => ?_
    obtain ⟨m, rfl⟩ := hd
    have h7 : c.memBase.toNat = 0xB8000 := by rw [h.dims.memBase]; rfl
    refine ⟨Inv.moved (c := { c with mem := m }) (Same.inv ⟨m, rfl⟩ h) ⟨0, by decide, h7⟩ h.x h.y ?_, rfl, ?_⟩
    · show (c.pos - (c.screen - c.memBase)).toNat = c.memBase.toNat + 160 * c.y.toNat + 2 * c.x.toNat
      bv_omega
    · show c.memBase.toNat + 4160 < 0xBBFC0
      omega
  · rw [h.dims.memEnd, h.dims.scrSize, h.dims.rowSize] at hn
    refine ⟨h, rfl, ?_⟩
    bv_omega

theorem scrollUp (h : Inv c) : Safe (scrollUp c) fun d => Inv d ∧ d.x = c.x := by
  unfold Vga.scrollUp
  refine h.rewind.bind fun d _ hd => ?_
  obtain ⟨hd, hx, h5⟩ := hd
  have h1 := hd.screen_le
  have h2 := hd.x
  have h3 := hd.y
  have h4 := hd.pos
  rw [hd.dims.width, hd.dims.scrSize]
  refine (eraseScreen_safe _ _ d (hd.room ?_ ?_)).bind fun e _ he => ?_
  · bv_omega
  · bv_omega
  obtain ⟨m, rfl⟩ := he
  obtain ⟨r, hr, hs⟩ := hd.screen
  refine ⟨Inv.moved (c := { d with mem := m }) (Same.inv ⟨m, rfl⟩ hd) ⟨r + 1, by omega, ?_⟩ hd.x hd.y ?_, hx⟩
  · show (d.screen + d.rowSize).toNat = 0xB8000 + 160 * (r + 1)
    rw [hd.dims.rowSize]
    bv_omega
  · show (d.pos + d.rowSize).toNat = (d.screen + d.rowSize).toNat + 160 * d.y.toNat + 2 * d.x.toNat
    have h6 : (d.screen + 160).toNat = d.screen.toNat + 160 := by bv_omega
    have h7 : (d.pos + 160).toNat = d.pos.toNat + 160 := by bv_omega
    rw [hd.dims.rowSize, h6, h7]
    omega

theorem lf (h : Inv c) : Safe (lf c) fun d => Inv d ∧ d.x = c.x := by
  unfold Vga.lf
  split
  · rename_i hy
    rw [h.dims.height] at hy
    have h1 := h.screen_le
    have h2 := h.x
    have h3 := h.y
    have h4 := h.pos
    refine Sat.ok ⟨h.moved h.screen h.x ?_ ?_, rfl⟩
    · bv_omega
    · rw [h.dims.rowSize]
      bv_omega
  · exact h.scrollUp

theorem wrap (h : Dims c) (hs : ∃ r ≤ 76, c.screen.toNat = 0xB8000 + 160 * r) (hx : c.x.toNat ≤ 160) (hy : c.y.toNat < 25)
    (hp : c.pos.toNat = c.screen.toNat + 160 * c.y.toNat + 2 * c.x.toNat) (ha : c.argc.toNat ≤ 16) :
    Safe (wrap c) fun d => Inv d ∧ (c.x.toNat < 160 → d.x.toNat < 80) := by
  obtain ⟨r, hr, hs⟩ := hs
  unfold Vga.wrap
  refine sat_ite (fun hn => ?_) fun hn => ?_
  · rw [h.width] at hn
    have h0 : 80 ≤ c.x.toNat := by bv_omega
    have h1 : (c.x - 80).toNat = c.x.toNat - 80 := by bv_omega
    have h2 : (c.pos - 160).toNat = c.pos.toNat - 160 := by bv_omega
    have h3 : Inv { c with x := c.x - c.width, pos := c.pos - c.rowSize } := by
      refine ⟨h.other, ⟨r, hr, hs⟩, ?_, hy, ?_, ha⟩
      · show (c.x - c.width).toNat ≤ 80
        rw [h.width, h1]
        omega
      · show (c.pos - c.rowSize).toNat = c.screen.toNat + 160 * c.y.toNat + 2 * (c.x - c.width).toNat
        rw [h.width, h.rowSize, h1, h2]
        omega
    refine h3.lf.mono fun d hd => ⟨hd.1, fun hlt => ?_⟩
    rw [hd.2]
    show (c.x - c.width).toNat < 80
    rw [h.width, h1]
    omega
  · rw [h.width] at hn
    have h1 : c.x.toNat < 80 := by bv_omega
    exact ⟨⟨h, ⟨r, hr, hs⟩, by omega, hy, hp, ha⟩, fun _ => h1⟩

theorem tab (h : Inv c) : Safe (tab c) Inv := by
  have h1 : (c.x &&& 7).toNat ≤ 7 := by
    rw [BitVec.toNat_and]
    exact Nat.and_le_right
  have h2 := h.x
  have h3 := h.y
  have h4 := h.pos
  have h5 := h.screen_le
  have h6 : (8 - (c.x &&& 7)).toNat = 8 - (c.x &&& 7).toNat := by bv_omega
  have h7 : (c.x + (8 - (c.x &&& 7))).toNat = c.x.toNat + (8 - (c.x &&& 7)).toNat := by bv_omega
  unfold Vga.tab
  refine (wrap (c := { c with x := c.x + (8 - (c.x &&& 7)), pos := c.pos + ((8 - (c.x &&& 7)) <<< 1) })
    h.dims.other h.screen ?_ h3 ?_ h.argc).mono fun _ hd => hd.1
  · show (c.x + (8 - (c.x &&& 7))).toNat ≤ 160
    omega
  · show (c.pos + ((8 - (c.x &&& 7)) <<< 1)).toNat = c.screen.toNat + 160 * c.y.toNat + 2 * (c.x + (8 - (c.x &&& 7))).toNat
    rw [h7]
    bv_omega

theorem cell (h : Inv c) : Room c c.pos 2 := by
  have h1 := h.screen_le
  have h2 := h.x
  have h3 := h.y
  have h4 := h.pos
  exact h.room (by omega) (by omega)

theorem del (h : Inv c) : Safe (del c) Inv := (store16_safe _ h.cell).mono fun _ hd => hd.inv h

theorem bs (h : Inv c) : Safe (bs c) Inv := by
  unfold Vga.bs
  refine sat_ite (fun _ => h) fun hn => ?_
  have h1 := h.screen_le
  have h2 := h.x
  have h3 := h.y
  have h4 := h.pos
  have h5 : (c.x - 1).toNat = c.x.toNat - 1 := by bv_omega
  have h6 : (c.pos - 2).toNat = c.pos.toNat - 2 := by bv_omega
  have h7 : 0 < c.x.toNat := by bv_omega
  have h8 : Inv { c with x := c.x - 1, pos := c.pos - 2 } := h.moved h.screen (by omega) h3 (by omega)
  exact h8.del

theorem chr (h : Inv c) (ch : BitVec 8) : Safe (chr c ch) Inv := by
  have h0 := h.x
  unfold Vga.chr
  refine (wrap h.dims h.screen (by omega) h.y h.pos h.argc).bind fun d _ hd => ?_
  obtain ⟨hd, hlt⟩ := hd
  have h1 := hd.screen_le
  have h2 := hlt (by omega)
  have h3 := hd.y
  have h4 := hd.pos
  -- the character, and its style in the byte after it
  refine ((store_safe _ (hd.cell.mono (by omega))).bind (R := fun e => ∃ m, e = { d with pos := d.pos + 1, mem := m })
    fun e _ he => ?_).bind fun e _ he => ?_
  · obtain ⟨m, rfl⟩ := he
    exact ⟨m, rfl⟩
  obtain ⟨m, rfl⟩ := he
  refine ((store_safe (c := { d with pos := d.pos + 1, mem := m }) _ (Room.next (k := 1) hd.cell Nat.one_pos)).bind
    (R := fun e => ∃ m, e = { d with pos := d.pos + 1 + 1, mem := m }) fun e _ he => ?_).bind fun e _ he => ?_
  · obtain ⟨m, rfl⟩ := he
    exact ⟨m, rfl⟩
  obtain ⟨m, rfl⟩ := he
  have h5 : (d.x + 1).toNat = d.x.toNat + 1 := by bv_omega
  have h6 : (d.pos + 1 + 1).toNat = d.pos.toNat + 2 := by bv_omega
  refine moved (c := { d with mem := m }) (Same.inv ⟨m, rfl⟩ hd) hd.screen ?_ h3 ?_
  · show (d.x + 1).toNat ≤ 80
    omega
  · show (d.pos + 1 + 1).toNat = d.screen.toNat + 160 * d.y.toNat + 2 * (d.x + 1).toNat
    omega

theorem newline (h : Inv c) : Safe (newline c) Inv := h.lf.bind fun _ _ hd => Inv.cr hd.1

/-! ## Erasing -/

theorem erased (h : Inv c) (hr : Room c a (2 * n)) : Safe (eraseScreen n a c) Inv :=
  (eraseScreen_safe n a c hr).mono fun _ hd => hd.inv h

theorem csiJ (h : Inv c) : Safe (csiJ c) Inv := by
  have h1 := h.screen_le
  have h2 := h.x
  have h3 := h.y
  have h4 := h.pos
  have h5 : (c.screen + c.scrSize - c.pos).toNat = c.screen.toNat + 4000 - c.pos.toNat := by
    rw [h.dims.scrSize]
    bv_omega
  have h6 : (c.pos - c.screen).toNat = c.pos.toNat - c.screen.toNat := by bv_omega
  unfold Vga.csiJ
  refine sat_ite (fun _ => h.erased (h.room ?_ ?_)) fun _ => sat_ite (fun _ => h.erased (h.room ?_ ?_)) fun _ =>
    sat_ite (fun _ => h.erased (h.room ?_ ?_)) fun _ => Sat.ok h
  · omega
  · rw [BitVec.toNat_ushiftRight, h5, Nat.shiftRight_eq_div_pow]
    omega
  · omega
  · rw [BitVec.toNat_ushiftRight, h6, Nat.shiftRight_eq_div_pow]
    omega
  · omega
  · rw [h.dims.scrSize]
    show c.screen.toNat + 2 * 2000 ≤ 0xBBFC0
    omega

theorem line (h : Inv c) : ∃ k ≤ 100, c.line.toNat = 0xB8000 + 160 * k ∧ c.pos.toNat = c.line.toNat + 2 * c.x.toNat := by
  obtain ⟨r, hr, hs⟩ := h.screen
  have h3 := h.y
  have h4 := h.pos
  have h5 : c.line.toNat = c.screen.toNat + 160 * c.y.toNat := by
    unfold Console.line
    rw [h.dims.rowSize]
    bv_omega
  exact ⟨r + c.y.toNat, by omega, by omega, by omega⟩

theorem csiK (h : Inv c) : Safe (csiK c) Inv := by
  have h2 := h.x
  obtain ⟨k, hk, h3, h4⟩ := h.line
  have h5 : (c.width - c.x).toNat = 80 - c.x.toNat := by
    rw [h.dims.width]
    bv_omega
  have h6 : (c.pos - (c.x <<< 1)).toNat = c.line.toNat := by bv_omega
  have h7 : c.width.toNat = 80 := by rw [h.dims.width]; rfl
  unfold Vga.csiK
  refine sat_ite (fun _ => h.erased (h.room ?_ ?_)) fun _ => sat_ite (fun _ => h.erased (h.room ?_ ?_)) fun _ =>
    sat_ite (fun _ => h.erased (h.room ?_ ?_)) fun _ => Sat.ok h
  all_goals omega

/-! ## Lines -/

theorem copied (h : Inv c) {dest src : Word} (hd : 0xB8000 ≤ dest.toNat ∧ dest.toNat + 160 ≤ 0xBBFC0)
    (hs : 0xB8000 ≤ src.toNat ∧ src.toNat + 160 ≤ 0xBBFC0) : Safe (memcpy c.rowSize.toNat dest src c) Inv := by
  rw [h.dims.rowSize]
  exact (memcpy_safe _ dest src c (h.room hd.1 hd.2) (h.room hs.1 hs.2)).mono fun _ hd => hd.inv h

theorem insertLineLoop {start : Word} (h0 : 0xB8000 ≤ start.toNat) : ∀ (fuel : Nat) (i : Word) (c : Console), Inv c → 2 ≤ i.toNat →
    i.toNat ≤ 103 → 103 < i.toNat + fuel → Safe (insertLineLoop fuel i start c) Inv
  | 0, i, _, _, _, h3, h4 => by omega
  | fuel + 1, i, c, h, h2, h3, h4 => by
    unfold Vga.insertLineLoop
    have h5 : (c.memEnd - i * c.rowSize).toNat = 0xBBFC0 - 160 * i.toNat := by
      rw [h.dims.memEnd, h.dims.rowSize]
      bv_omega
    refine sat_ite (fun _ => h) fun hn => ?_
    have h6 : start.toNat ≤ (c.memEnd - i * c.rowSize).toNat := by
      rw [BitVec.lt_def] at hn
      omega
    have h7 : (c.memEnd - i * c.rowSize + c.rowSize).toNat = (c.memEnd - i * c.rowSize).toNat + 160 := by
      rw [h.dims.rowSize] at h5 ⊢
      bv_omega
    have h8 : (i + 1).toNat = i.toNat + 1 := by bv_omega
    refine (h.copied (by omega) (by omega)).bind fun d _ hd => ?_
    exact insertLineLoop h0 fuel (i + 1) d hd (by omega) (by omega) (by omega)

theorem insertLine (h : Inv c) : Safe (insertLine c) Inv := by
  unfold Vga.insertLine
  obtain ⟨k, hk, h1, h2⟩ := h.line
  have h3 : c.memSize.toNat = 16320 := by rw [h.dims.memSize]; rfl
  refine (insertLineLoop (by omega) _ 2 c h (by decide) (by decide) ?_).bind fun d _ hd => hd.erased ?_
  · rw [h3]
    decide
  · obtain ⟨k, hk, h1, h2⟩ := hd.line
    rw [hd.dims.width]
    exact hd.room (by omega) (by show d.line.toNat + 160 ≤ _; omega)

theorem deleteLineLoop {start : Word} (h0 : start.toNat = 0xB8000 + 160 * k) (hk : k ≤ 100) : ∀ (fuel : Nat) (i : Word) (c : Console),
    Inv c → 1 ≤ i.toNat → i.toNat ≤ 51 → 51 < i.toNat + fuel → Safe (deleteLineLoop fuel i start c) Inv
  | 0, i, _, _, _, h3, h4 => by omega
  | fuel + 1, i, c, h, h2, h3, h4 => by
    unfold Vga.deleteLineLoop
    have h5 : (start + 2 * (i * c.rowSize)).toNat = 0xB8000 + 160 * (k + 2 * i.toNat) := by
      rw [h.dims.rowSize]
      bv_omega
    have h6 : c.memEnd.toNat = 0xB8000 + 160 * 102 := by rw [h.dims.memEnd]; rfl
    refine sat_ite (fun _ => h) fun hn => ?_
    rw [BitVec.le_def] at hn
    have h7 : (start + 2 * (i * c.rowSize) - c.rowSize).toNat = (start + 2 * (i * c.rowSize)).toNat - 160 := by
      rw [h.dims.rowSize] at h5 ⊢
      bv_omega
    have h8 : (i + 1).toNat = i.toNat + 1 := by bv_omega
    refine (h.copied (by omega) (by omega)).bind fun d _ hd => ?_
    exact deleteLineLoop h0 hk fuel (i + 1) d hd (by omega) (by omega) (by omega)

theorem deleteLine (h : Inv c) : Safe (deleteLine c) Inv := by
  unfold Vga.deleteLine
  obtain ⟨k, hk, h1, h2⟩ := h.line
  have h3 : c.memSize.toNat = 16320 := by rw [h.dims.memSize]; rfl
  refine (deleteLineLoop h1 hk _ 1 c h (by decide) (by decide) ?_).bind fun d _ hd => hd.erased ?_
  · rw [h3]
    decide
  · rw [hd.dims.memEnd, hd.dims.rowSize, hd.dims.width]
    exact hd.room (by decide) (by decide)

/-! ## Characters -/

theorem movedCell (h : Inv c) {dest src : Word} (hd : 0xB8000 ≤ dest.toNat ∧ dest.toNat + 2 ≤ 0xBBFC0)
    (hs : 0xB8000 ≤ src.toNat ∧ src.toNat + 2 ≤ 0xBBFC0) : Safe (c.load16 src >>= fun v => c.store16 dest v) (Same c) := by
  rw [load16_ok (h.room hs.1 hs.2)]
  exact store16_safe _ (h.room hd.1 hd.2)

theorem deleteCharLoop : ∀ (fuel : Nat) (i : BitVec 16) (ptr : Word) (c : Console), Inv c → i.toNat ≤ 80 → 80 < i.toNat + fuel →
    0xB8000 ≤ ptr.toNat → ptr.toNat + 2 ≤ 0xBBFC0 → ptr.toNat + 2 * (80 - i.toNat) ≤ 0xBBFC0 →
    Sat (fun _ => True) (deleteCharLoop fuel i ptr c) fun r => Inv r.2 ∧ 0xB8000 ≤ r.1.toNat ∧ r.1.toNat + 2 ≤ 0xBBFC0
  | 0, i, _, _, _, h1, h2, _, _, _ => by omega
  | fuel + 1, i, ptr, c, h, h1, h2, h3, h4, h5 => by
    unfold Vga.deleteCharLoop
    have h6 : (i + 1).toNat = i.toNat + 1 := by bv_omega
    refine sat_ite (fun hn => ?_) fun _ => Sat.ok ⟨h, h3, h4⟩
    rw [h.dims.width, BitVec.lt_def, BitVec.toNat_setWidth, h6] at hn
    have h7 : i.toNat + 1 < 80 := by
      rw [Nat.mod_eq_of_lt (by omega)] at hn
      exact hn
    have h8 : (ptr + 2).toNat = ptr.toNat + 2 := by bv_omega
    rw [← bind_assoc]
    refine (h.movedCell ⟨h3, h4⟩ (by omega)).bind fun d _ hd => ?_
    exact deleteCharLoop fuel (i + 1) (ptr + 2) d (hd.inv h) (by omega) (by omega) (by omega) (by omega) (by omega)

theorem deleteChar (h : Inv c) : Safe (deleteChar c) Inv := by
  have h1 := h.screen_le
  have h2 := h.x
  have h3 := h.y
  have h4 := h.pos
  have h5 : (c.x.setWidth 16).toNat = c.x.toNat := by rw [BitVec.toNat_setWidth, Nat.mod_eq_of_lt (by omega)]
  have h6 : c.memSize.toNat = 16320 := by rw [h.dims.memSize]; rfl
  unfold Vga.deleteChar
  refine (deleteCharLoop _ _ c.pos c h (by omega) (by omega) (by omega) (by omega) (by omega)).bind fun r _ hr => ?_
  exact (store16_safe _ (hr.1.room hr.2.1 hr.2.2)).mono fun _ hd => hd.inv hr.1

theorem insertCharLoop (h0 : 0xB8000 ≤ pos.toNat) : ∀ (fuel : Nat) (k : Nat) (ptr : Word) (c : Console), Inv c → c.pos = pos →
    ptr.toNat = pos.toNat + 2 * k → ptr.toNat + 2 ≤ 0xBBFC0 → k < fuel → Safe (insertCharLoop fuel ptr c) fun d => Inv d ∧ d.pos = pos
  | 0, k, _, _, _, _, _, _, h4 => by omega
  | fuel + 1, k, ptr, c, h, h1, h2, h3, h4 => by
    unfold Vga.insertCharLoop
    refine sat_ite (fun hn => ?_) fun _ => Sat.ok ⟨h, h1⟩
    rw [h1, BitVec.lt_def] at hn
    have h5 : (ptr - 2).toNat = pos.toNat + 2 * (k - 1) := by bv_omega
    rw [← bind_assoc]
    refine (h.movedCell (by omega) (by omega)).bind fun d _ hd => ?_
    obtain ⟨m, rfl⟩ := hd
    exact insertCharLoop h0 fuel (k - 1) (ptr - 2) _ (Same.inv ⟨m, rfl⟩ h) h1 h5 (by omega) (by omega)

theorem insertChar (h : Inv c) : Safe (insertChar c) Inv := by
  have h1 := h.screen_le
  have h2 := h.x
  have h3 := h.y
  have h4 := h.pos
  have h6 : c.memSize.toNat = 16320 := by rw [h.dims.memSize]; rfl
  unfold Vga.insertChar
  refine Sat.bind (Q := fun d => Inv d ∧ d.pos = c.pos) ?_ fun d _ hd => ?_
  · rw [h.dims.width]
    rcases Nat.lt_or_ge c.x.toNat 80 with hx | hx
    · exact insertCharLoop (by omega) _ (79 - c.x.toNat) _ c h rfl (by bv_omega) (by bv_omega) (by omega)
    · -- right of the last column the pointer starts below the cursor, and there is nothing to move
      rw [h6]
      unfold Vga.insertCharLoop
      exact sat_ite (fun hn => by bv_omega) fun _ => Sat.ok ⟨h, rfl⟩
  · exact (store_safe _ (hd.1.cell.mono (by omega))).mono fun _ he => he.inv hd.1

theorem repeated {f : Console → Except Fault Console} (hf : ∀ {c}, Inv c → Safe (f c) Inv) : ∀ (n : Nat) (c : Console), Inv c →
    Safe (repeated f n c) Inv
  | 0, _, h => Sat.ok h
  | n + 1, _, h => (hf h).bind fun d _ hd => repeated hf n d hd

/-! ## The stream -/

theorem setArg (h : Inv c) (i : Nat) (a : Word) : Inv (c.setArg i a) := h.other h.argc

theorem decArg (h : Inv c) (i : Nat) : Inv (c.decArg i) := by
  unfold Console.decArg
  split
  · exact h.setArg i _
  · exact h

theorem orOne (h : Inv c) : Inv c.orOne := by
  unfold Console.orOne
  split
  · exact h.setArg 0 _
  · exact h

theorem saveCursor (h : Inv c) : Inv (saveCursor c) := h.other h.argc

theorem csim (h : Inv c) : Inv (csim c) := h.other h.argc

theorem stateCsi (h : Inv c) (ch : BitVec 8) : Safe (stateCsi c ch) Inv := by
  have h : Inv { c with state := .nor } := h.other h.argc
  unfold Vga.stateCsi
  dsimp only
  split
  · exact Sat.ok ((h.decArg 0).setXy _ _)
  · exact Sat.ok ((h.decArg 0).setXy _ _)
  · exact Sat.ok (h.orOne.setXy _ _)
  · exact Sat.ok (h.orOne.setXy _ _)
  · exact Sat.ok (h.orOne.setXy _ _)
  · exact Sat.ok (h.orOne.setXy _ _)
  · exact Sat.ok (h.orOne.setXy _ _)
  · exact Sat.ok (h.orOne.setXy _ _)
  · exact Sat.ok (h.orOne.setXy _ _)
  · exact Sat.ok (h.orOne.setXy _ _)
  · exact Sat.ok ((h.decArg 0).setXy _ _)
  · exact Sat.ok (((h.decArg 0).decArg 1).setXy _ _)
  · exact Sat.ok (((h.decArg 0).decArg 1).setXy _ _)
  · exact h.csiJ
  · exact h.csiK
  · exact repeated insertLine _ _ h
  · exact repeated deleteLine _ _ h
  · exact repeated deleteChar _ _ h
  · exact repeated insertChar _ _ h
  · exact Sat.ok h.csim
  · exact Sat.ok (h.saveCursor.setXy _ _)
  · exact Sat.ok (h.setXy _ _)
  · exact Sat.ok h

theorem stateNormal (h : Inv c) (ch : BitVec 8) : Safe (stateNormal c ch) Inv := by
  unfold Vga.stateNormal
  split
  · exact Sat.ok h
  · exact Sat.ok h
  · exact h.bs
  · exact h.tab
  · exact h.newline
  · exact h.lf.mono fun _ hd => hd.1
  · exact h.lf.mono fun _ hd => hd.1
  · exact Sat.ok h.cr
  · exact h.del
  · exact Sat.ok (h.other h.argc)
  · exact h.chr ch

theorem stateEsc (h : Inv c) (ch : BitVec 8) : Safe (stateEsc c ch) Inv := by
  unfold Vga.stateEsc
  split
  · exact Sat.ok (h.other h.argc)
  · exact h.newline
  · exact h.lf.mono fun _ hd => hd.1
  · exact Sat.ok h.saveCursor
  · exact Sat.ok (h.setXy _ _)
  · exact Sat.ok h

theorem stateArg (h : Inv c) (ch : BitVec 8) : Inv (stateArg c ch).1 := by
  have h1 : ¬ argNr ≤ c.argc → (c.argc + 1).toNat ≤ 16 := fun hn => by
    unfold argNr at hn
    bv_omega
  unfold Vga.stateArg
  split
  · exact h
  · rename_i hn
    split
    · exact h.other (h1 hn)
    · split
      · exact h.setArg _ _
      · exact h.other (h1 hn)

theorem argument (h : Inv c) (ch : BitVec 8) : Safe (argument c ch) Inv := by
  have h1 := h.stateArg ch
  unfold Vga.argument
  generalize Vga.stateArg c ch = r at h1 ⊢
  obtain ⟨d, b⟩ := r
  cases b with
  | false => exact Sat.ok h1
  | true => exact h1.stateCsi ch

theorem consoleByte (h : Inv c) (ch : BitVec 8) : Safe (consoleByte c ch) Inv := by
  unfold Vga.consoleByte
  split
  · exact h.stateNormal ch
  · exact h.stateEsc ch
  · have h1 : Inv { c with args := fun _ => 0, argc := 0, state := .arg, ques := decide (ch = 0x3F) } := h.other (Nat.zero_le _)
    exact sat_ite (fun _ => Sat.ok h1) fun _ => h1.argument ch
  · exact h.argument ch
  · exact h.stateCsi ch

theorem consoleWrite (h : Inv c) (buf : List (BitVec 8)) : Safe (consoleWrite c buf) Inv :=
  foldlM_sat buf c (fun _ ch _ hd => hd.consoleByte ch) h

end Inv

theorem consoleStart_inv (mem : Word → BitVec 8) : Inv (consoleStart mem) :=
  ⟨⟨rfl, rfl, rfl, rfl, rfl, rfl, rfl⟩, ⟨0, Nat.zero_le _, rfl⟩, Nat.zero_le _, Nat.succ_pos _, rfl, Nat.zero_le _⟩

theorem consoleInit_inv (mem : Word → BitVec 8) : Safe (consoleInit mem) Inv := by
  have h := consoleStart_inv mem
  have h1 : ((consoleStart mem).memSize >>> 1).toNat = 8160 := by
    show (((0x4000 : Word) / 160 * 160) >>> 1).toNat = 8160
    decide
  have h2 : (consoleStart mem).memBase.toNat = 0xB8000 := by
    rw [h.dims.memBase]
    rfl
  exact h.erased (h.room (by omega) (by omega))

theorem consoleWrite_flatten : ∀ (chunks : List (List (BitVec 8))) (c : Console), chunks.foldlM consoleWrite c = consoleWrite c chunks.flatten
  | [], _ => rfl
  | buf :: chunks, c => by
    unfold consoleWrite
    rw [List.foldlM_cons, List.flatten_cons, List.foldlM_append]
    exact congrArg _ (funext fun d => consoleWrite_flatten chunks d)

/-! ## The bounds -/

/-- The cursor is in the window or just right of it, where `pos` points to; the window is in the memory. -/
structure Bounded (c : Console) : Prop where
  x : c.x ≤ c.width
  y : c.y < c.height
  pos : c.pos = c.screen + c.y * c.rowSize + 2 * c.x
  first : c.memBase ≤ c.screen
  last : c.screen.toNat + c.scrSize.toNat ≤ c.memEnd.toNat

theorem Inv.bounded (h : Inv c) : Bounded c := by
  have h1 := h.screen_le
  have h2 := h.x
  have h3 := h.y
  have h4 := h.pos
  constructor
  · rw [h.dims.width]
    bv_omega
  · rw [h.dims.height]
    bv_omega
  · rw [h.dims.rowSize]
    bv_omega
  · rw [h.dims.memBase]
    bv_omega
  · rw [h.dims.scrSize, h.dims.memEnd]
    exact Nat.le_trans h1.2 (Nat.sub_le _ _)

/-- Whatever is written, in any chunks: no access leaves the video memory, and the console is in its bounds after every byte. -/
theorem console_bounds (mem : Word → BitVec 8) (chunks : List (List (BitVec 8))) : ∃ c, consoleInit mem = .ok c ∧ Bounded c ∧
    ∀ pre suf, chunks.flatten = pre ++ suf → ∃ d e, consoleWrite c pre = .ok d ∧ Bounded d ∧ consoleWrite d suf = .ok e ∧
      chunks.foldlM consoleWrite c = .ok e := by
  obtain ⟨c, hc, h⟩ := (consoleInit_inv mem).reached
  refine ⟨c, hc, h.bounded, fun pre suf he => ?_⟩
  obtain ⟨d, hd, h1⟩ := (h.consoleWrite pre).reached
  obtain ⟨e, h2, _⟩ := (h1.consoleWrite suf).reached
  refine ⟨d, e, hd, h1.bounded, h2, ?_⟩
  rw [consoleWrite_flatten, he]
  unfold consoleWrite at hd h2 ⊢
  rw [List.foldlM_append, hd]
  exact h2

end Onix.Vga
