/-
`bitmap_scan` in the words of the machine: the length in bits, the index of a bit and the answer wrap at 32 bits, and the answer is an
`int`. Bit by bit the search is that of the bitmaps above; where nothing wraps it is first fit, and a byte outside of the map is never
touched.
-/
import Onix.Bitmap

namespace Onix.Scan

open Bitmap (bit put Clear Taken Searched)

abbrev Word := BitVec 32

/-- `bitmap_t`, over an object of `length` bytes. -/
structure Map where
  bits : Bytes
  length : Word
  offset : Word

def eof : Word := -1

def bitmapTest (m : Map) (index : Word) : Except BitmapFault Bool :=
  let idx := index - m.offset
  let bytes := idx / 8
  if index < m.offset ∨ ¬ bytes < m.length then .error .assert
  else .ok (decide (m.bits bytes.toNat &&& (1#8 <<< (idx % 8).toNat) ≠ 0#8))

def bitmapSet (m : Map) (index : Word) (value : Bool) : Except BitmapFault Map :=
  let idx := index - m.offset
  let bytes := idx / 8
  if index < m.offset then .error .assert
  else if ¬ bytes < m.length then .error .outside
  else
    let byte := m.bits bytes.toNat
    let mask := 1#8 <<< (idx % 8).toNat
    .ok { m with bits := Function.update m.bits bytes.toNat (if value then byte ||| mask else byte &&& ~~~mask) }

def scanLoop (m : Map) (count : Word) : Nat → Word → Word → Except BitmapFault Word
  | 0, _, _ => .ok eof
  | bitsLeft + 1, nextBit, counter => do
    let taken ← bitmapTest m (m.offset + nextBit)
    let counter := if taken then 0 else counter + 1
    if counter = count then pure (nextBit + 1 - count) else scanLoop m count bitsLeft (nextBit + 1) counter

def setLoop : Nat → Word → Map → Except BitmapFault Map
  | 0, _, m => .ok m
  | bitsLeft + 1, nextBit, m => do
    let m ← bitmapSet m (m.offset + nextBit) true
    setLoop bitsLeft (nextBit + 1) m

def bitmapScan (m : Map) (count : Word) : Except BitmapFault (Word × Map) := do
  let start ← scanLoop m count (m.length * 8).toNat 0 0
  if start = eof then pure (eof, m)
  else do
    let m ← setLoop count.toNat start m
    pure (start + m.offset, m)

/-! ## Bit by bit -/

variable {m : Map} {count : Word}

def Map.wide (m : Map) : Bitmap := ⟨m.bits, m.length.toNat, m.offset.toNat, m.length.toNat⟩

theorem byte_of {index : Word} (h : ¬ index < m.offset) :
    ((index - m.offset) / 8).toNat = (index.toNat - m.offset.toNat) / 8 ∧
      ((index - m.offset) % 8).toNat = (index.toNat - m.offset.toNat) % 8 := by
  have hsub : (index - m.offset).toNat = index.toNat - m.offset.toNat := BitVec.toNat_sub_of_le (BitVec.not_lt.1 h)
  rw [BitVec.toNat_udiv, BitVec.toNat_umod, hsub]
  exact ⟨rfl, rfl⟩

theorem bitmapTest_wide (index : Word) : bitmapTest m index = m.wide.test index.toNat := by
  unfold bitmapTest Bitmap.test Map.wide
  dsimp only
  by_cases h : index < m.offset
  · rw [if_pos (.inl h), if_pos (.inl (BitVec.lt_def.1 h))]
  · obtain ⟨h1, h2⟩ := byte_of h
    by_cases hb : (index - m.offset) / 8 < m.length
    · have hb' := BitVec.lt_def.1 hb
      rw [h1] at hb'
      rw [if_neg (by tauto), if_neg (by tauto), if_neg (by omega), h1, h2]
    · rw [if_pos (.inr hb), if_pos (.inr fun hb' => hb (by rwa [BitVec.lt_def, h1]))]

theorem bitmapSet_wide (index : Word) (v : Bool) : (bitmapSet m index v).map Map.wide = m.wide.set index.toNat v := by
  unfold bitmapSet Bitmap.set Map.wide
  dsimp only
  by_cases h : index < m.offset
  · rw [if_pos h, if_pos (BitVec.lt_def.1 h)]
    rfl
  · obtain ⟨h1, h2⟩ := byte_of h
    rw [if_neg h, if_neg (mt BitVec.lt_def.2 h)]
    by_cases hb : (index - m.offset) / 8 < m.length
    · have hb' := BitVec.lt_def.1 hb
      rw [if_neg (not_not.2 hb), if_neg (show ¬ m.length.toNat ≤ (index.toNat - m.offset.toNat) / 8 by omega), h1, h2]
      rfl
    · have hb' := mt BitVec.lt_def.2 hb
      rw [if_pos hb, if_pos (by omega)]
      rfl

theorem toNat_add {a b : Word} (h : a.toNat + b.toNat < 2 ^ 32) : (a + b).toNat = a.toNat + b.toNat := by
  rw [BitVec.toNat_add, Nat.mod_eq_of_lt h]

theorem toNat_next {a : Word} {n : Nat} (h : a.toNat + (n + 1) < 2 ^ 32) : (a + 1).toNat = a.toNat + 1 :=
  toNat_add (b := 1) (by simp; omega)

theorem bitmapTest_ok {next : Word} (h1 : next.toNat / 8 < m.length.toNat) (h2 : m.offset.toNat + next.toNat < 2 ^ 32) :
    bitmapTest m (m.offset + next) = .ok (bit m.bits next.toNat) := by
  rw [bitmapTest_wide, toNat_add h2]
  exact Bitmap.test_ok (m := m.wide) h1 h1

theorem bitmapTest_wrapped {next : Word} (h : 2 ^ 32 ≤ m.offset.toNat + next.toNat) :
    bitmapTest m (m.offset + next) = .error .assert := by
  have hlt : m.offset + next < m.offset := by
    rw [BitVec.lt_def, BitVec.toNat_add]
    omega
  exact if_pos (.inl hlt)

theorem setLoop_wide : ∀ (n : Nat) (next : Word) (m : Map), m.offset.toNat + next.toNat + n ≤ 2 ^ 32 → next.toNat + n < 2 ^ 32 →
    (setLoop n next m).map Map.wide = Bitmap.setLoop n next.toNat m.wide
  | 0, _, _, _, _ => rfl
  | n + 1, next, m, h, h' => by
    unfold setLoop Bitmap.setLoop
    have hset := bitmapSet_wide (m := m) (m.offset + next) true
    rw [toNat_add (by omega)] at hset
    change _ = (m.wide.set (m.offset.toNat + next.toNat) true >>= _)
    rw [← hset]
    cases hs : bitmapSet m (m.offset + next) true with
    | error e => rfl
    | ok u =>
      have hoff : u.offset = m.offset := by
        unfold bitmapSet at hs
        dsimp only at hs
        split at hs
        · cases hs
        split at hs
        · cases hs
        · cases hs
          rfl
      rw [← toNat_next h']
      exact setLoop_wide n (next + 1) u (by rw [hoff, toNat_next h']; omega) (by rw [toNat_next h']; omega)

theorem setLoop_ok {n : Nat} {st : Word} (h1 : st.toNat + n ≤ m.length.toNat * 8) (h2 : m.offset.toNat + st.toNat + n ≤ 2 ^ 32)
    (h3 : st.toNat + n < 2 ^ 32) : ∃ b, setLoop n st m = .ok { m with bits := b } ∧
      ∀ j, bit b j = if st.toNat ≤ j ∧ j < st.toNat + n then true else bit m.bits j := by
  obtain ⟨b, hb, hbits⟩ := Bitmap.setLoop_spec n st.toNat m.wide h1
  refine ⟨b, ?_, hbits⟩
  have hw := (setLoop_wide n st m h2 h3).trans hb
  cases hs : setLoop n st m with
  | error e =>
    rw [hs] at hw
    cases hw
  | ok u =>
    rw [hs] at hw
    obtain ⟨e1, e2, e3, -⟩ := Bitmap.mk.inj (Except.ok.inj hw)
    obtain ⟨bits, length, offset⟩ := u
    obtain rfl : bits = b := e1
    obtain rfl : length = m.length := BitVec.eq_of_toNat_eq e2
    obtain rfl : offset = m.offset := BitVec.eq_of_toNat_eq e3
    rfl

/-! ## First fit -/

def Run (m : Map) (count : Word) (st : Nat) : Prop := st + count.toNat ≤ 8 * m.length.toNat ∧ Clear m.bits st count.toNat

def Lowest (m : Map) (count : Word) (st : Nat) : Prop := Run m count st ∧ ∀ j < st, ¬ Run m count j

theorem Taken.not_run {st : Nat} (h : Taken m.bits st count.toNat) : ¬ Run m count st := by
  obtain ⟨j, h1, h2, h3⟩ := h
  intro hr
  exact absurd (hr.2 j h1 h2) (by rw [h3]; decide)

theorem scanLoop_cases {bits : Nat} (hbits : bits ≤ 8 * m.length.toNat) (hb : bits < 2 ^ 32) : ∀ (n : Nat) (next counter : Word),
    next.toNat + n = bits → m.offset.toNat + next.toNat ≤ 2 ^ 32 → Searched m.bits count.toNat next.toNat counter.toNat →
    (∃ st : Word, Lowest m count st.toNat ∧ st.toNat + count.toNat ≤ bits ∧ m.offset.toNat + st.toNat + count.toNat ≤ 2 ^ 32 ∧
        scanLoop m count n next counter = .ok st) ∨
      ((∀ st, st + count.toNat ≤ bits → ¬ Run m count st) ∧ m.offset.toNat + bits ≤ 2 ^ 32 ∧ scanLoop m count n next counter = .ok eof) ∨
        ∃ p < bits, (∀ st, st + count.toNat ≤ p → ¬ Run m count st) ∧ m.offset.toNat + p = 2 ^ 32 ∧
          scanLoop m count n next counter = .error .assert
  | 0, next, counter, hn, ho, h => .inr (.inl ⟨fun st hst => Taken.not_run (h.none st (by omega)), by omega, rfl⟩)
  | n + 1, next, counter, hn, ho, h => by
    unfold scanLoop
    by_cases hw : m.offset.toNat + next.toNat = 2 ^ 32
    · rw [bitmapTest_wrapped (by omega)]
      exact .inr (.inr ⟨next.toNat, by omega, fun st hst => Taken.not_run (h.none st hst), hw, rfl⟩)
    have hnext : (next + 1).toNat = next.toNat + 1 := toNat_next (n := n) (by omega)
    have hlt := h.lt
    have hle := h.le
    rw [bitmapTest_ok (by omega) (by omega)]
    simp only [Bind.bind, Except.bind]
    cases hbit : bit m.bits next.toNat with
    | true =>
      have hne : (0 : Word) ≠ count := fun e => by
        rw [← e] at hlt
        exact Nat.not_lt_zero _ hlt
      rw [if_pos rfl, if_neg hne]
      exact scanLoop_cases hbits hb n (next + 1) 0 (by omega) (by omega) (by rw [hnext]; exact h.taken hbit)
    | false =>
      have hcount : (counter + 1).toNat = counter.toNat + 1 := toNat_next (n := n) (by omega)
      rw [if_neg Bool.false_ne_true]
      by_cases hc : counter + 1 = count
      · have hcn : count.toNat = counter.toNat + 1 := by rw [← hc, hcount]
        have hst : (next + 1 - count).toNat = next.toNat + 1 - count.toNat := by
          rw [BitVec.toNat_sub_of_le (BitVec.le_def.2 (by omega)), hnext]
        rw [if_pos hc]
        refine .inl ⟨next + 1 - count, ⟨⟨by omega, ?_⟩, fun j hj => Taken.not_run (h.none j (by omega))⟩, by omega, by omega, rfl⟩
        rw [hst, hcn]
        exact h.grown hbit
      · have hcn : counter.toNat + 1 ≠ count.toNat := fun e => hc (BitVec.eq_of_toNat_eq (hcount.trans e))
        rw [if_neg hc]
        exact scanLoop_cases hbits hb n (next + 1) (counter + 1) (by omega) (by omega) (by rw [hnext, hcount]; exact h.free hbit hcn)

theorem Lowest.unique {a b : Nat} (ha : Lowest m count a) (hb : Lowest m count b) : a = b := by
  rcases Nat.lt_trichotomy a b with h | h | h
  · exact absurd ha.1 (hb.2 a h)
  · exact h
  · exact absurd hb.1 (ha.2 b h)

theorem Run.lowest {st : Nat} (h : Run m count st) : ∃ l ≤ st, Lowest m count l := by
  classical
  exact ⟨Nat.find ⟨st, h⟩, Nat.find_min' _ h, Nat.find_spec ⟨st, h⟩, fun _ hj => Nat.find_min ⟨st, h⟩ hj⟩

/-- What `bitmap_scan` is to do: first fit. -/
structure Scans (m : Map) (count : Word) : Prop where
  found : ∀ st, Lowest m count st → ∃ r b, bitmapScan m count = .ok (r, { m with bits := b }) ∧ r.toInt = m.offset.toNat + st ∧
    ∀ j, bit b j = if st ≤ j ∧ j < st + count.toNat then true else bit m.bits j
  none : (∀ st, ¬ Run m count st) → bitmapScan m count = .ok (eof, m)

/-- Nothing wraps: the lowest run ends in the bits that `length * 8` counts and at no index past the last word, and the answer is no
negative `int`; without a run the last bit has an index. -/
structure Fits (m : Map) (count : Word) : Prop where
  found : ∀ st, Lowest m count st → st + count.toNat ≤ (m.length * 8).toNat ∧ m.offset.toNat + st + count.toNat ≤ 2 ^ 32 ∧
    m.offset.toNat + st < 2 ^ 31
  none : (∀ st, ¬ Run m count st) → m.offset.toNat + (m.length * 8).toNat ≤ 2 ^ 32

theorem Fits.small (h1 : 8 * m.length.toNat < 2 ^ 32) (h2 : m.offset.toNat + 8 * m.length.toNat ≤ 2 ^ 31) (hc : 0 < count.toNat) :
    Fits m count := by
  have hbits : (m.length * 8).toNat = 8 * m.length.toNat := by
    rw [BitVec.toNat_mul, show (8 : Word).toNat = 8 from rfl, Nat.mod_eq_of_lt (by omega), Nat.mul_comm]
  refine ⟨fun st h => ?_, fun _ => by omega⟩
  have := h.1.1
  omega

end Onix.Scan
