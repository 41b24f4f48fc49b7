/-
Lines are inserted and deleted: `csi_L` and `csi_M` in `kernel/console.c`, row by row of the video memory. `delete_line` counts its rows
in cells and not in bytes, so that a round moves a row up by one, as it should, but the next round is about the row after the next.
-/
import Onix.Vga.Bounds

namespace Onix.Vga

open Onix.Lib

/-! ## Rows -/

abbrev Row := Fin 160 → BitVec 8

namespace Console

def addr (c : Console) (o : Nat) : Word := c.memBase + BitVec.ofNat 32 o

def byte (c : Console) (o : Nat) : BitVec 8 := c.mem (c.addr o)

def row (c : Console) (k : Nat) : Row := fun i => c.byte (160 * k + i.val)

def rows (c : Console) : Nat := c.memSize.toNat / c.rowSize.toNat

def here (c : Console) : Nat := (c.screen - c.memBase).toNat / c.rowSize.toNat + c.y.toNat

def blank (c : Console) : Row := fun i => if i.val % 2 = 0 then c.erase.setWidth 8 else (c.erase >>> 8).setWidth 8

def under (c : Console) (k : Nat) : Row := if k < c.rows then c.row k else c.blank

def inserted (c : Console) (n k : Nat) : Row := if k < c.here then c.row k else if k < c.here + n then c.blank else c.row (k - n)

def deleted (c : Console) (n k : Nat) : Row := if k < c.here then c.row k else c.under (k + n)

/-- The rows at an even distance below the cursor, which stay, are what the `n`th row after them was, and so is the row before each. -/
def Alike (c : Console) (n : Nat) : Prop := ∀ k, c.here ≤ k → k + 1 < c.rows → (k - c.here) % 2 = 0 →
  c.row k = c.under (k + n) ∧ (c.here < k → c.row k = c.under (k - 1 + n))

end Console

/-- Only the rows differ, and they are these. -/
structure Becomes (c d : Console) (R : Nat → Row) : Prop where
  same : Same c d
  row : ∀ k < c.rows, d.row k = R k

variable {c d e : Console} {R S : Nat → Row} {n k : Nat}

theorem Becomes.mono (h : Becomes c d R) (hs : ∀ k < c.rows, R k = S k) : Becomes c d S :=
  ⟨h.same, fun k hk => (h.row k hk).trans (hs k hk)⟩

theorem Same.rows (h : Same c d) : d.rows = c.rows := by
  obtain ⟨m, rfl⟩ := h
  rfl

theorem Same.here (h : Same c d) : d.here = c.here := by
  obtain ⟨m, rfl⟩ := h
  rfl

theorem Same.line (h : Same c d) : d.line = c.line := by
  obtain ⟨m, rfl⟩ := h
  rfl

theorem Same.blank (h : Same c d) : d.blank = c.blank := by
  obtain ⟨m, rfl⟩ := h
  rfl

theorem Becomes.trans (h1 : Becomes c d R) (h2 : Becomes d e S) : Becomes c e S :=
  ⟨h1.same.trans h2.same, fun k hk => h2.row k (by rw [h1.same.rows]; exact hk)⟩

theorem Dims.rows (h : Dims c) : c.rows = 102 := by
  unfold Console.rows
  rw [h.memSize, h.rowSize]
  rfl

theorem Inv.here (h : Inv c) : c.here ≤ 100 ∧ c.line = c.addr (160 * c.here) := by
  obtain ⟨r, hr, hs⟩ := h.screen
  have h1 := h.y
  have h2 : (c.screen - 0xB8000).toNat = 160 * r := by bv_omega
  have h3 : c.here = r + c.y.toNat := by
    unfold Console.here
    rw [h.dims.memBase, h.dims.rowSize, h2]
    show 160 * r / 160 + _ = _
    rw [Nat.mul_div_cancel_left r (by omega)]
  unfold Console.line Console.addr
  rw [h3, h.dims.memBase, h.dims.rowSize]
  bv_omega

/-! ## Bytes -/

variable {o p q : Nat}

theorem Same.addr (h : Same c d) (o : Nat) : d.addr o = c.addr o := by
  obtain ⟨m, rfl⟩ := h
  rfl

theorem Console.addr_add (c : Console) (o p : Nat) : c.addr o + BitVec.ofNat 32 p = c.addr (o + p) := by
  unfold Console.addr
  rw [BitVec.add_assoc, BitVec.ofNat_add]

theorem Dims.addr_toNat (h : Dims c) (ho : o < 16320) : (c.addr o).toNat = 0xB8000 + o := by
  unfold Console.addr
  rw [h.memBase]
  bv_omega

theorem Inv.addr_room (h : Inv c) (ho : o < 16320) (hn : o + n ≤ 16320) : Room c (c.addr o) n := by
  refine h.room ?_ ?_
  · rw [h.dims.addr_toNat ho]
    omega
  · rw [h.dims.addr_toNat ho]
    omega

theorem Inv.store_byte (h : Inv c) (hp : p < 16320) (v : BitVec 8) : ∃ d, c.store (c.addr p) v = .ok d ∧ Same c d ∧
    ∀ o < 16320, d.byte o = if o = p then v else c.byte o := by
  refine ⟨_, if_pos ((h.addr_room (n := 1) hp (by omega)).inside Nat.one_pos), ⟨_, rfl⟩, fun o ho => ?_⟩
  have h1 : c.addr o = c.addr p ↔ o = p := by
    refine ⟨fun he => ?_, fun he => by rw [he]⟩
    have h2 := congrArg BitVec.toNat he
    rw [h.dims.addr_toNat ho, h.dims.addr_toNat hp] at h2
    omega
  show Function.update c.mem (c.addr p) v (c.addr o) = _
  rw [Function.update_apply]
  exact if_congr h1 rfl rfl

theorem Inv.memcpy_bytes : ∀ {n p q : Nat} {c : Console}, Inv c → p + n ≤ 16320 → q + n ≤ 16320 → p + n ≤ q ∨ q + n ≤ p →
    ∃ d, memcpy n (c.addr p) (c.addr q) c = .ok d ∧ Same c d ∧
      ∀ o < 16320, d.byte o = if p ≤ o ∧ o < p + n then c.byte (q + (o - p)) else c.byte o
  | 0, p, q, c, _, _, _, _ => ⟨c, rfl, .refl c, fun o _ => (if_neg (by omega)).symm⟩
  | n + 1, p, q, c, h, hp, hq, ha => by
    obtain ⟨d, hd, hs, hb⟩ := h.store_byte (p := p) (by omega) (c.byte q)
    obtain ⟨e, he, hs', hb'⟩ := (hs.inv h).memcpy_bytes (n := n) (p := p + 1) (q := q + 1) (by omega) (by omega) (by omega)
    refine ⟨e, ?_, hs.trans hs', fun o ho => ?_⟩
    · unfold memcpy
      rw [load_ok (h.addr_room (by omega) (by omega))]
      show (c.store (c.addr p) (c.byte q) >>= fun c' => memcpy n (c.addr p + 1) (c.addr q + 1) c') = _
      rw [hd, ← he, hs.addr, hs.addr]
      show memcpy n (c.addr p + BitVec.ofNat 32 1) (c.addr q + BitVec.ofNat 32 1) d = _
      rw [c.addr_add, c.addr_add]
    · rw [hb' o ho, hb o ho]
      by_cases h1 : o = p
      · subst h1
        rw [if_neg (by omega), if_pos rfl, if_pos (by omega), Nat.sub_self, Nat.add_zero]
      · by_cases h2 : p ≤ o ∧ o < p + (n + 1)
        · rw [if_pos (by omega), if_pos h2, hb _ (by omega), if_neg (by omega), show q + 1 + (o - (p + 1)) = q + (o - p) by omega]
        · rw [if_neg (by omega), if_neg h1, if_neg h2]

theorem Inv.eraseScreen_bytes : ∀ {n p : Nat} {c : Console}, Inv c → p + 2 * n ≤ 16320 →
    ∃ d, eraseScreen n (c.addr p) c = .ok d ∧ Same c d ∧ ∀ o < 16320, d.byte o = if p ≤ o ∧ o < p + 2 * n then
      if (o - p) % 2 = 0 then c.erase.setWidth 8 else (c.erase >>> 8).setWidth 8 else c.byte o
  | 0, p, c, _, _ => ⟨c, rfl, .refl c, fun o _ => (if_neg (by omega)).symm⟩
  | n + 1, p, c, h, hp => by
    obtain ⟨d, hd, hs, hb⟩ := h.store_byte (p := p) (by omega) (c.erase.setWidth 8)
    obtain ⟨e, he, hs', hb'⟩ := (hs.inv h).store_byte (p := p + 1) (by omega) ((c.erase >>> 8).setWidth 8)
    obtain ⟨f, hf, hs'', hb''⟩ := ((hs.trans hs').inv h).eraseScreen_bytes (n := n) (p := p + 2) (by omega)
    have h1 : e.erase = c.erase := by
      obtain ⟨m, rfl⟩ := hs.trans hs'
      rfl
    refine ⟨f, ?_, (hs.trans hs').trans hs'', fun o ho => ?_⟩
    · unfold eraseScreen Console.store16
      rw [hd]
      show (d.store (c.addr p + BitVec.ofNat 32 1) _ >>= _) = _
      rw [c.addr_add, ← hs.addr, he, ← hf, (hs.trans hs').addr, ← c.addr_add]
      rfl
    · rw [hb'' o ho, hb' o ho, hb o ho, h1]
      by_cases h2 : o = p
      · subst h2
        rw [if_neg (by omega), if_neg (by omega), if_pos rfl, if_pos (by omega), if_pos (by omega)]
      · by_cases h3 : o = p + 1
        · subst h3
          rw [if_neg (by omega), if_pos rfl, if_pos (by omega), if_neg (by omega)]
        · by_cases h4 : p ≤ o ∧ o < p + 2 * (n + 1)
          · rw [if_pos (by omega), if_pos h4, show (o - (p + 2)) % 2 = (o - p) % 2 by omega]
          · rw [if_neg (by omega), if_neg h3, if_neg h2, if_neg h4]

/-! ## One row -/

theorem Inv.copyRow (h : Inv c) {s t : Nat} (hs : s < 102) (ht : t < 102) (hn : s ≠ t) :
    ∃ d, memcpy c.rowSize.toNat (c.addr (160 * t)) (c.addr (160 * s)) c = .ok d ∧
      Becomes c d fun k => if k = t then c.row s else c.row k := by
  obtain ⟨d, hd, hs', hb⟩ := h.memcpy_bytes (n := 160) (p := 160 * t) (q := 160 * s) (by omega) (by omega) (by omega)
  rw [h.dims.rowSize]
  refine ⟨d, hd, hs', fun k hk => funext fun i => ?_⟩
  rw [h.dims.rows] at hk
  show d.byte _ = _
  rw [hb _ (by omega)]
  by_cases h2 : k = t
  · rw [if_pos (by omega), if_pos h2, h2, Nat.add_sub_cancel_left]
    rfl
  · rw [if_neg (by omega), if_neg h2]
    rfl

theorem Inv.eraseRow (h : Inv c) {t : Nat} (ht : t < 102) :
    ∃ d, eraseScreen c.width.toNat (c.addr (160 * t)) c = .ok d ∧ Becomes c d fun k => if k = t then c.blank else c.row k := by
  obtain ⟨d, hd, hs, hb⟩ := h.eraseScreen_bytes (n := 80) (p := 160 * t) (by omega)
  rw [h.dims.width]
  refine ⟨d, hd, hs, fun k hk => funext fun i => ?_⟩
  rw [h.dims.rows] at hk
  show d.byte _ = _
  rw [hb _ (by omega)]
  by_cases h2 : k = t
  · rw [if_pos (by omega), if_pos h2, h2, Nat.add_sub_cancel_left]
    rfl
  · rw [if_neg (by omega), if_neg h2]
    rfl

/-! ## Insertion -/

theorem insertLineLoop_rows : ∀ (fuel i : Nat) (c : Console), Inv c → 2 ≤ i → i ≤ 103 - c.here → 103 < i + fuel →
    ∃ d, insertLineLoop fuel (BitVec.ofNat 32 i) c.line c = .ok d ∧
      Becomes c d fun k => if c.here < k ∧ k + i ≤ 103 then c.row (k - 1) else c.row k
  | 0, i, _, _, _, h3, h4 => by omega
  | fuel + 1, i, c, h, h2, h3, h4 => by
    obtain ⟨hk, hl⟩ := h.here
    have h5 : (c.memEnd - BitVec.ofNat 32 i * c.rowSize).toNat = 0xB8000 + 16320 - 160 * i := by
      rw [h.dims.memEnd, h.dims.rowSize]
      bv_omega
    have h6 : c.line.toNat = 0xB8000 + 160 * c.here := by rw [hl, h.dims.addr_toNat (by omega)]
    unfold insertLineLoop
    by_cases hn : i = 103 - c.here
    · refine ⟨c, if_pos ?_, .refl c, fun k _ => (if_neg (by omega)).symm⟩
      rw [BitVec.lt_def]
      omega
    · have h7 : c.memEnd - BitVec.ofNat 32 i * c.rowSize = c.addr (160 * (102 - i)) := by
        apply BitVec.eq_of_toNat_eq
        rw [h5, h.dims.addr_toNat (by omega)]
        omega
      have h8 : c.addr (160 * (102 - i)) + c.rowSize = c.addr (160 * (103 - i)) := by
        rw [h.dims.rowSize, show 103 - i = 102 - i + 1 by omega]
        exact c.addr_add _ 160
      obtain ⟨d, hd, hs⟩ := h.copyRow (s := 102 - i) (t := 103 - i) (by omega) (by omega) (by omega)
      obtain ⟨e, he, hs'⟩ := insertLineLoop_rows fuel (i + 1) d (hs.same.inv h) (by omega) (by rw [hs.same.here]; omega) (by omega)
      refine ⟨e, ?_, (hs.trans hs').mono fun k hr => ?_⟩
      · rw [if_neg (by rw [BitVec.lt_def]; omega), h7, h8, hd, ← he, hs.same.line, BitVec.ofNat_add]
        rfl
      · rw [h.dims.rows] at hr
        rw [hs.same.here]
        by_cases h9 : c.here < k ∧ k + (i + 1) ≤ 103
        · rw [if_pos h9, if_pos (by omega), hs.row _ (by rw [h.dims.rows]; omega), if_neg (by omega)]
        · rw [if_neg h9, hs.row _ (by rw [h.dims.rows]; omega)]
          by_cases h10 : k = 103 - i
          · rw [if_pos h10, if_pos (by omega), h10, show 103 - i - 1 = 102 - i by omega]
          · rw [if_neg h10, if_neg (by omega)]

theorem insertLine_rows (h : Inv c) : ∃ d, insertLine c = .ok d ∧ Becomes c d (c.inserted 1) := by
  obtain ⟨hk, hl⟩ := h.here
  have h1 : c.memSize.toNat = 16320 := by rw [h.dims.memSize]; rfl
  obtain ⟨d, hd, hs⟩ := insertLineLoop_rows c.memSize.toNat 2 c h (by omega) (by omega) (by omega)
  have h2 := hs.same.inv h
  obtain ⟨e, he, hs'⟩ := h2.eraseRow (t := c.here) (by omega)
  refine ⟨e, ?_, (hs.trans hs').mono fun k hr => ?_⟩
  · unfold insertLine
    rw [show (2 : Word) = BitVec.ofNat 32 2 from rfl, hd, ← he, ← hs.same.here, ← h2.here.2]
    rfl
  · unfold Console.inserted
    rw [hs.row k hr, hs.same.blank]
    rw [h.dims.rows] at hr
    rcases Nat.lt_trichotomy k c.here with h3 | h3 | h3
    · rw [if_neg (by omega), if_neg (by omega), if_pos h3]
    · rw [if_pos h3, if_neg (by omega), if_pos (by omega)]
    · rw [if_neg (by omega), if_pos (by omega), if_neg (by omega), if_neg (by omega)]

theorem insertLines (n : Nat) : ∀ c : Console, Inv c → ∃ d, repeated insertLine n c = .ok d ∧ Becomes c d (c.inserted n) := by
  induction n with
  | zero =>
    refine fun c _ => ⟨c, rfl, .refl c, fun k _ => ?_⟩
    unfold Console.inserted
    rw [Nat.add_zero, Nat.sub_zero]
    split
    · rfl
    · rfl
  | succ n ih =>
    intro c h
    obtain ⟨d, hd, hs⟩ := insertLine_rows h
    obtain ⟨e, he, hs'⟩ := ih d (hs.same.inv h)
    refine ⟨e, ?_, (hs.trans hs').mono fun k hr => ?_⟩
    · unfold repeated
      rw [hd]
      exact he
    · unfold Console.inserted at hs ⊢
      rw [hs.same.here, hs.same.blank]
      by_cases h1 : k < c.here
      · rw [if_pos h1, if_pos h1, hs.row k hr, if_pos h1]
      · rw [if_neg h1, if_neg h1]
        by_cases h2 : k < c.here + n
        · rw [if_pos h2, if_pos (by omega)]
        · rw [if_neg h2, hs.row _ (by omega), if_neg (by omega)]
          by_cases h3 : k = c.here + n
          · rw [if_pos (by omega), if_pos (by omega)]
          · rw [if_neg (by omega), if_neg (by omega), Nat.sub_sub]

/-! ## Deletion -/

theorem deleteLineLoop_rows : ∀ (fuel i : Nat) (c : Console), Inv c → 1 ≤ i → i ≤ 51 → 51 < i + fuel →
    ∃ d, deleteLineLoop fuel (BitVec.ofNat 32 i) c.line c = .ok d ∧
      Becomes c d fun k => if c.here + 2 * i ≤ k + 1 ∧ (k - c.here) % 2 = 1 ∧ k + 1 < 102 then c.row (k + 1) else c.row k
  | 0, i, _, _, _, h3, h4 => by omega
  | fuel + 1, i, c, h, h2, h3, h4 => by
    obtain ⟨hk, hl⟩ := h.here
    have h5 : (c.line + 2 * (BitVec.ofNat 32 i * c.rowSize)).toNat = 0xB8000 + 160 * (c.here + 2 * i) := by
      have h6 : c.line.toNat = 0xB8000 + 160 * c.here := by rw [hl, h.dims.addr_toNat (by omega)]
      rw [h.dims.rowSize]
      bv_omega
    have h6 : c.memEnd.toNat = 0xB8000 + 160 * 102 := by rw [h.dims.memEnd]; rfl
    unfold deleteLineLoop
    by_cases hn : 102 ≤ c.here + 2 * i
    · refine ⟨c, if_pos ?_, .refl c, fun k _ => (if_neg (by omega)).symm⟩
      rw [BitVec.le_def]
      omega
    · have h7 : c.line + 2 * (BitVec.ofNat 32 i * c.rowSize) = c.addr (160 * (c.here + 2 * i)) :=
        BitVec.eq_of_toNat_eq (by rw [h5, h.dims.addr_toNat (by omega)])
      have h8 : c.addr (160 * (c.here + 2 * i)) - c.rowSize = c.addr (160 * (c.here + 2 * i - 1)) := by
        rw [h.dims.rowSize, ← h7]
        apply BitVec.eq_of_toNat_eq
        rw [h.dims.addr_toNat (by omega)]
        bv_omega
      obtain ⟨d, hd, hs⟩ := h.copyRow (s := c.here + 2 * i) (t := c.here + 2 * i - 1) (by omega) (by omega) (by omega)
      obtain ⟨e, he, hs'⟩ := deleteLineLoop_rows fuel (i + 1) d (hs.same.inv h) (by omega) (by omega) (by omega)
      refine ⟨e, ?_, (hs.trans hs').mono fun k hr => ?_⟩
      · rw [if_neg (by rw [BitVec.le_def]; omega), h7, h8, hd, ← he, hs.same.line, BitVec.ofNat_add]
        rfl
      · rw [h.dims.rows] at hr
        rw [hs.same.here]
        by_cases h9 : c.here + 2 * (i + 1) ≤ k + 1 ∧ (k - c.here) % 2 = 1 ∧ k + 1 < 102
        · rw [if_pos h9, if_pos (by omega), hs.row _ (by rw [h.dims.rows]; omega), if_neg (by omega)]
        · rw [if_neg h9, hs.row _ (by rw [h.dims.rows]; omega)]
          by_cases h10 : k = c.here + 2 * i - 1
          · rw [if_pos h10, if_pos (by omega), show k + 1 = c.here + 2 * i by omega]
          · rw [if_neg h10, if_neg (by omega)]

/-- What becomes of the rows when `n + 1` lines are deleted: those at an even distance stay. -/
def Console.skipped (c : Console) (n k : Nat) : Row :=
  if k = 101 then c.blank
  else if (k - c.here) % 2 = 1 then if k = 100 ∧ 0 < n then c.blank else c.row (k + 1)
  else c.row k

theorem deleteLine_rows (h : Inv c) : ∃ d, deleteLine c = .ok d ∧ Becomes c d (c.skipped 0) := by
  have h1 : c.memSize.toNat = 16320 := by rw [h.dims.memSize]; rfl
  obtain ⟨d, hd, hs⟩ := deleteLineLoop_rows c.memSize.toNat 1 c h (by omega) (by omega) (by omega)
  have h2 := hs.same.inv h
  have h3 : d.memEnd - d.rowSize = d.addr (160 * 101) := by
    unfold Console.addr
    rw [h2.dims.memEnd, h2.dims.rowSize, h2.dims.memBase]
    rfl
  obtain ⟨e, he, hs'⟩ := h2.eraseRow (t := 101) (by omega)
  refine ⟨e, ?_, (hs.trans hs').mono fun k hr => ?_⟩
  · unfold deleteLine
    rw [show (1 : Word) = BitVec.ofNat 32 1 from rfl, hd, ← he, ← h3]
    rfl
  · unfold Console.skipped
    rw [hs.row k hr, hs.same.blank]
    rw [h.dims.rows] at hr
    by_cases h4 : k = 101
    · rw [if_pos h4, if_pos h4]
    · rw [if_neg h4, if_neg h4]
      by_cases h5 : (k - c.here) % 2 = 1
      · rw [if_pos (by omega), if_pos h5, if_neg (by omega)]
      · rw [if_neg (by omega), if_neg h5]

theorem deleteLines (n : Nat) : ∀ c : Console, Inv c → ∃ d, repeated deleteLine (n + 1) c = .ok d ∧ Becomes c d (c.skipped n) := by
  induction n with
  | zero =>
    intro c h
    obtain ⟨d, hd, hs⟩ := deleteLine_rows h
    refine ⟨d, ?_, hs⟩
    unfold repeated
    rw [hd]
    rfl
  | succ n ih =>
    intro c h
    obtain ⟨d, hd, hs⟩ := deleteLine_rows h
    obtain ⟨e, he, hs'⟩ := ih d (hs.same.inv h)
    refine ⟨e, ?_, (hs.trans hs').mono fun k hr => ?_⟩
    · unfold repeated
      rw [hd]
      exact he
    · unfold Console.skipped at hs ⊢
      rw [hs.same.here, hs.same.blank]
      have h1 := hr
      rw [h.dims.rows] at h1
      by_cases h2 : k = 101
      · rw [if_pos h2, if_pos h2]
      · rw [if_neg h2, if_neg h2]
        by_cases h3 : (k - c.here) % 2 = 1
        · rw [if_pos h3, if_pos h3, hs.row (k + 1) (by rw [h.dims.rows]; omega)]
          by_cases h4 : k = 100
          · -- the last row was blank when it went up
            rw [if_pos (by omega : k + 1 = 101), if_pos (And.intro h4 (Nat.succ_pos n))]
            split
            · rfl
            · rfl
          · rw [if_neg (by omega), if_neg (by omega), if_neg (by omega), if_neg (by omega)]
        · rw [if_neg h3, if_neg h3, hs.row k hr, if_neg h2, if_neg h3]

theorem Inv.skipped_deleted (h : Inv c) (n : Nat) : (∀ k < c.rows, c.skipped n k = c.deleted (n + 1) k) ↔ c.Alike (n + 1) := by
  have h0 := h.dims.rows
  have h1 := h.here.1
  have hu : ∀ k, c.rows ≤ k → c.under k = c.blank := fun k hk => if_neg (by omega)
  constructor
  · intro hs k hk hr he
    have h2 := hs k (by omega)
    unfold Console.skipped Console.deleted at h2
    rw [if_neg (by omega), if_neg (by omega), if_neg (by omega)] at h2
    refine ⟨h2, fun hl => ?_⟩
    have h3 := hs (k - 1) (by omega)
    unfold Console.skipped Console.deleted at h3
    rw [if_neg (by omega), if_pos (by omega), if_neg (by omega), if_neg (by omega), Nat.sub_add_cancel (by omega)] at h3
    exact h3
  · intro ha k hr
    unfold Console.skipped Console.deleted
    by_cases h2 : k = 101
    · rw [if_pos h2, if_neg (by omega), hu _ (by omega)]
    · rw [if_neg h2]
      by_cases h3 : (k - c.here) % 2 = 1
      · rw [if_pos h3, if_neg (by omega : ¬ k < c.here)]
        by_cases h4 : k = 100 ∧ 0 < n
        · rw [if_pos h4, hu _ (by omega)]
        · rw [if_neg h4]
          by_cases h5 : k = 100
          · rw [show n + 1 = 1 by omega]
            exact (if_pos (by omega)).symm
          · exact (ha (k + 1) (by omega) (by omega) (by omega)).2 (by omega)
      · rw [if_neg h3]
        by_cases h4 : k < c.here
        · rw [if_pos h4]
        · rw [if_neg h4]
          exact (ha k (by omega) (by omega) (by omega)).1

theorem Inv.times_pos (h : Inv c) : 0 < c.times := by
  have h1 : c.height.toNat = 25 := by rw [h.dims.height]; rfl
  unfold Console.times
  split
  · omega
  · split
    · omega
    · rename_i h2
      exact Nat.pos_of_ne_zero fun h3 => h2 (BitVec.eq_of_toNat_eq h3)

/-- Lines are always inserted as they should be; they are deleted so just when the rows that stay where they are do not show. -/
theorem csi_lines (h : Inv c) : (∃ d, csiL c = .ok d ∧ Becomes c d (c.inserted c.times)) ∧
    ((∃ d, csiM c = .ok d ∧ Becomes c d (c.deleted c.times)) ↔ c.Alike c.times) := by
  refine ⟨insertLines c.times c h, ?_⟩
  obtain ⟨n, hn⟩ := Nat.exists_eq_add_one.2 h.times_pos
  obtain ⟨d, hd, hs⟩ := deleteLines n c h
  unfold csiM
  rw [hn, hd, ← h.skipped_deleted n]
  constructor
  · rintro ⟨e, he, ht⟩ k hk
    cases he
    rw [← hs.row k hk, ht.row k hk]
  · exact fun ha => ⟨d, rfl, hs.mono ha⟩

/-- `CSI 1 M` and `CSI 1 L` at the start of a memory with one letter in its first cell. -/
def letter (ch : BitVec 8) : Console := (consoleStart fun a => if a = 0xB8000 then ch else 0).setArg 0 1

theorem letter_inv (ch : BitVec 8) : Inv (letter ch) := (consoleStart_inv _).setArg 0 1

/-- The letter should go up, out of the memory, but it stays. -/
theorem letter_stays : (¬ ∃ d, csiM (letter 0x41) = .ok d ∧ Becomes (letter 0x41) d ((letter 0x41).deleted 1)) ∧
    ∃ d, csiM (letter 0x41) = .ok d ∧ d.row 0 0 = 0x41 := by
  obtain ⟨d, hd, hs⟩ := deleteLines 0 (letter 0x41) (letter_inv _)
  have hd : csiM (letter 0x41) = .ok d := hd
  have h1 : d.row 0 0 = 0x41 := by
    rw [hs.row 0 (by decide)]
    rfl
  refine ⟨fun ⟨e, he, ht⟩ => ?_, d, hd, h1⟩
  rw [hd] at he
  cases he
  rw [ht.row 0 (by decide)] at h1
  exact absurd h1 (by decide)

/-- An empty row hides it. -/
theorem csi_lines_letter : (∃ d, csiL (letter 0) = .ok d ∧ Becomes (letter 0) d ((letter 0).inserted 1)) ∧
    ∃ d, csiM (letter 0) = .ok d ∧ Becomes (letter 0) d ((letter 0).deleted 1) := by
  have h0 : ∀ k, (letter 0).row k = fun _ => 0 := fun k => funext fun i => by
    show (if _ then (0 : BitVec 8) else 0) = 0
    split
    · rfl
    · rfl
  have h1 : ∀ k, k + 1 ≤ (letter 0).rows → (letter 0).under k = fun _ => 0 := fun k hk => (if_pos (by omega)).trans (h0 k)
  refine ⟨(csi_lines (letter_inv 0)).1, (csi_lines (letter_inv 0)).2.2 fun k _ hk _ => ⟨?_, fun _ => ?_⟩⟩
  · exact (h0 k).trans (h1 (k + 1) hk).symm
  · exact (h0 k).trans (h1 (k - 1 + 1) (by omega)).symm

end Onix.Vga
