/-
The bitmaps of `lib/bitmap.c`: bytes in memory, a length in bytes, and the index of the first bit. The bytes past the
object the map was made for are another's: a call that reaches them stops there, as it stops at a failed assertion.
-/
import Mathlib.Data.BitVec

namespace Onix

open BitVec

abbrev Bytes := Nat → BitVec 8

/-- `bitmap_t`, with the number of bytes of the object at `bits`. -/
structure Bitmap where
  bits : Bytes
  length : Nat
  offset : Nat
  room : Nat

inductive BitmapFault
  | assert
  | outside
  deriving DecidableEq

namespace Bitmap

def test (m : Bitmap) (index : Nat) : Except BitmapFault Bool :=
  let idx := index - m.offset
  if index < m.offset ∨ ¬ idx / 8 < m.length then .error .assert
  else if m.room ≤ idx / 8 then .error .outside
  else .ok (decide (m.bits (idx / 8) &&& (1#8 <<< (idx % 8)) ≠ 0#8))

def set (m : Bitmap) (index : Nat) (value : Bool) : Except BitmapFault Bitmap :=
  let idx := index - m.offset
  if index < m.offset then .error .assert
  else if m.room ≤ idx / 8 then .error .outside
  else
    let byte := m.bits (idx / 8)
    let mask := 1#8 <<< (idx % 8)
    .ok { m with bits := Function.update m.bits (idx / 8) (if value then byte ||| mask else byte &&& ~~~mask) }

/-- The search of `bitmap_scan`, with `bitsLeft` bits to go; the answer is `start`. -/
def scanLoop (m : Bitmap) (count : Nat) : Nat → Nat → Nat → Except BitmapFault (Option Nat)
  | 0, _, _ => .ok none
  | bitsLeft + 1, nextBit, counter => do
    let taken ← m.test (m.offset + nextBit)
    let counter := if taken then 0 else counter + 1
    if counter = count then pure (some (nextBit + 1 - count)) else scanLoop m count bitsLeft (nextBit + 1) counter

def setLoop : Nat → Nat → Bitmap → Except BitmapFault Bitmap
  | 0, _, m => .ok m
  | bitsLeft + 1, nextBit, m => do
    let m ← m.set (m.offset + nextBit) true
    setLoop bitsLeft (nextBit + 1) m

def scan (m : Bitmap) (count : Nat) : Except BitmapFault (Option Nat × Bitmap) := do
  let start ← m.scanLoop count (m.length * 8) 0 0
  match start with
  | none => pure (none, m)
  | some start => do
    let m ← setLoop count start m
    pure (some (start + m.offset), m)

/-! ## Bits -/

def bit (b : Bytes) (k : Nat) : Bool := (b (k / 8)).getLsbD (k % 8)

def put (b : Bytes) (k : Nat) (v : Bool) : Bytes :=
  Function.update b (k / 8) (if v then b (k / 8) ||| 1#8 <<< (k % 8) else b (k / 8) &&& ~~~(1#8 <<< (k % 8)))

theorem mask_getLsbD {i j : Nat} (hj : j < 8) : (1#8 <<< i).getLsbD j = decide (j = i) := by
  rw [getLsbD_shiftLeft, getLsbD_one]
  by_cases h : j = i
  · subst h
    simp [hj]
  · rw [decide_eq_false h]
    simp only [hj, decide_true, Bool.true_and, Bool.and_eq_false_imp, Bool.not_eq_true', decide_eq_false_iff_not,
      decide_eq_true_eq]
    omega

theorem bit_put (b : Bytes) (k j : Nat) (v : Bool) : bit (put b k v) j = if j = k then v else bit b j := by
  have hj : j % 8 < 8 := Nat.mod_lt _ (by omega)
  unfold bit put
  by_cases hd : j / 8 = k / 8
  · rw [hd, Function.update_self]
    by_cases hjk : j = k
    · subst hjk
      rw [if_pos rfl]
      cases v
      · simp only [Bool.false_eq_true, if_false, getLsbD_and, getLsbD_not, mask_getLsbD hj, decide_true, Bool.not_true,
          Bool.and_false]
      · simp only [if_true, getLsbD_or, mask_getLsbD hj, decide_true, Bool.or_true]
    · have hm : j % 8 ≠ k % 8 := by omega
      rw [if_neg hjk]
      cases v
      · simp only [Bool.false_eq_true, if_false, getLsbD_and, getLsbD_not, mask_getLsbD hj, decide_eq_false hm, hj,
          decide_true, Bool.not_false, Bool.and_true]
      · simp only [if_true, getLsbD_or, mask_getLsbD hj, decide_eq_false hm, Bool.or_false]
  · have hjk : j ≠ k := fun e => hd (e ▸ rfl)
    rw [Function.update_of_ne hd, if_neg hjk]

theorem and_mask {b : BitVec 8} {i : Nat} (hi : i < 8) : decide (b &&& (1#8 <<< i) ≠ 0#8) = b.getLsbD i := by
  rw [Bool.eq_iff_iff, decide_eq_true_iff]
  constructor
  · intro h
    by_contra hb
    refine h (eq_of_getLsbD_eq fun j hj => ?_)
    rw [getLsbD_and, mask_getLsbD hj]
    by_cases hji : j = i
    · subst hji
      simp [hb]
    · simp [hji]
  · intro hb h
    have h1 : (b &&& (1#8 <<< i)).getLsbD i = true := by
      rw [getLsbD_and, hb, mask_getLsbD hi]
      simp
    rw [h] at h1
    simp at h1

/-! ## The calls -/

variable {m : Bitmap} {k : Nat}

theorem test_ok (h1 : k / 8 < m.length) (h2 : k / 8 < m.room) : m.test (m.offset + k) = .ok (bit m.bits k) := by
  have hk : m.offset + k - m.offset = k := Nat.add_sub_cancel_left ..
  unfold test
  rw [hk, if_neg (by omega), if_neg (by omega), and_mask (Nat.mod_lt _ (by omega))]
  rfl

theorem test_outside (h1 : k / 8 < m.length) (h2 : m.room ≤ k / 8) : m.test (m.offset + k) = .error .outside := by
  have hk : m.offset + k - m.offset = k := Nat.add_sub_cancel_left ..
  unfold test
  rw [hk, if_neg (by omega), if_pos h2]

theorem set_ok (v : Bool) (h : k / 8 < m.room) : m.set (m.offset + k) v = .ok { m with bits := put m.bits k v } := by
  have hk : m.offset + k - m.offset = k := Nat.add_sub_cancel_left ..
  unfold set
  rw [hk, if_neg (by omega), if_neg (by omega)]
  rfl

theorem scanLoop_one : ∀ (n next : Nat), next + n = m.length * 8 → next ≤ m.room * 8 →
    (∃ k, next ≤ k ∧ k < next + n ∧ k < m.room * 8 ∧ bit m.bits k = false ∧ (∀ j, next ≤ j → j < k → bit m.bits j = true) ∧
      m.scanLoop 1 n next 0 = .ok (some k)) ∨
    (next + n ≤ m.room * 8 ∧ (∀ j, next ≤ j → j < next + n → bit m.bits j = true) ∧ m.scanLoop 1 n next 0 = .ok none) ∨
    (m.room * 8 < next + n ∧ (∀ j, next ≤ j → j < m.room * 8 → bit m.bits j = true) ∧ m.scanLoop 1 n next 0 = .error .outside)
  | 0, next, _, hr => .inr (.inl ⟨hr, fun j h1 h2 => by omega, rfl⟩)
  | n + 1, next, hl, hr => by
    unfold scanLoop
    by_cases hin : next < m.room * 8
    · rw [test_ok (by omega) (by omega)]
      cases hb : bit m.bits next with
      | false => exact .inl ⟨next, Nat.le_refl _, by omega, hin, hb, fun j h1 h2 => by omega, rfl⟩
      | true =>
        have hall : ∀ e, (∀ j, next + 1 ≤ j → j < e → bit m.bits j = true) → ∀ j, next ≤ j → j < e → bit m.bits j = true := by
          intro e h j h1 h2
          rcases Nat.eq_or_lt_of_le h1 with rfl | h1
          · exact hb
          · exact h j h1 h2
        rcases scanLoop_one n (next + 1) (by omega) hin with ⟨k, h1, h2, h3, h4, h5, h6⟩ | ⟨h1, h2, h3⟩ | ⟨h1, h2, h3⟩
        · exact .inl ⟨k, by omega, by omega, h3, h4, hall k h5, h6⟩
        · exact .inr (.inl ⟨by omega, hall _ fun j h4 h5 => h2 j h4 (by omega), h3⟩)
        · exact .inr (.inr ⟨by omega, hall _ h2, h3⟩)
    · have hout : m.test (m.offset + next) = .error .outside := test_outside (by omega) (by omega)
      rw [hout]
      exact .inr (.inr ⟨by omega, fun j h1 h2 => by omega, rfl⟩)

theorem scan_one : (∃ k, k < m.length * 8 ∧ k < m.room * 8 ∧ bit m.bits k = false ∧ (∀ j, j < k → bit m.bits j = true) ∧
      m.scan 1 = .ok (some (k + m.offset), { m with bits := put m.bits k true })) ∨
    (m.length ≤ m.room ∧ (∀ j, j < m.length * 8 → bit m.bits j = true) ∧ m.scan 1 = .ok (none, m)) ∨
    (m.room < m.length ∧ (∀ j, j < m.room * 8 → bit m.bits j = true) ∧ m.scan 1 = .error .outside) := by
  unfold scan
  rcases scanLoop_one (m := m) (m.length * 8) 0 (Nat.zero_add _) (Nat.zero_le _) with ⟨k, -, h2, h3, h4, h5, h6⟩ | ⟨h1, h2, h3⟩ | ⟨h1, h2, h3⟩
  · rw [h6]
    refine .inl ⟨k, by omega, h3, h4, fun j hj => h5 j (Nat.zero_le _) hj, ?_⟩
    show (setLoop 1 k m >>= fun m' => pure (some (k + m'.offset), m')) = _
    unfold setLoop
    rw [set_ok true (by omega)]
    rfl
  · rw [h3]
    exact .inr (.inl ⟨by omega, fun j hj => h2 j (Nat.zero_le _) (by omega), rfl⟩)
  · rw [h3]
    exact .inr (.inr ⟨by omega, fun j hj => h2 j (Nat.zero_le _) hj, rfl⟩)

/-! ## Several bits -/

def Taken (b : Bytes) (start count : Nat) : Prop := ∃ j, start ≤ j ∧ j < start + count ∧ bit b j = true

def Clear (b : Bytes) (start count : Nat) : Prop := ∀ j, start ≤ j → j < start + count → bit b j = false

/-- How far the search is: `counter` clear bits end at `next`, no more, and no range before it is clear. -/
structure Searched (b : Bytes) (count next counter : Nat) : Prop where
  lt : counter < count
  le : counter ≤ next
  clear : Clear b (next - counter) counter
  edge : counter = next ∨ bit b (next - counter - 1) = true
  none : ∀ st, st + count ≤ next → Taken b st count

variable {b : Bytes} {count : Nat}

theorem Searched.start (h : 0 < count) : Searched b count 0 0 :=
  ⟨h, Nat.le_refl 0, (fun j _ h2 => by omega), .inl rfl, fun st h2 => by omega⟩

variable {next counter : Nat}

theorem Searched.taken (h : Searched b count next counter) (hb : bit b next = true) :
    Searched b count (next + 1) 0 := by
  refine ⟨Nat.zero_lt_of_lt h.lt, Nat.zero_le _, fun j _ h2 => by omega, .inr hb, fun st hst => ?_⟩
  by_cases hle : st + count ≤ next
  · exact h.none st hle
  · have := h.lt
    exact ⟨next, by omega, by omega, hb⟩

theorem Searched.grown (h : Searched b count next counter) (hb : bit b next = false) :
    Clear b (next + 1 - (counter + 1)) (counter + 1) := by
  intro j h1 h2
  have := h.le
  by_cases hj : j = next
  · rw [hj]
    exact hb
  · exact h.clear j (by omega) (by omega)

theorem Searched.free (h : Searched b count next counter) (hb : bit b next = false)
    (hc : counter + 1 ≠ count) : Searched b count (next + 1) (counter + 1) := by
  have hlt := h.lt
  have hle := h.le
  refine ⟨by omega, by omega, h.grown hb, ?_, fun st hst => ?_⟩
  · rcases h.edge with he | he
    · exact .inl (by omega)
    · right
      rw [Nat.add_sub_add_right]
      exact he
  · by_cases hst' : st + count ≤ next
    · exact h.none st hst'
    · rcases h.edge with he | he
      · omega
      · exact ⟨next - counter - 1, by omega, by omega, he⟩

theorem scanLoop_spec (hroom : m.length ≤ m.room) : ∀ n next counter, next + n = m.length * 8 →
    Searched m.bits count next counter →
    (∃ st, st + count ≤ m.length * 8 ∧ Clear m.bits st count ∧ m.scanLoop count n next counter = .ok (some st)) ∨
      ((∀ st, st + count ≤ m.length * 8 → Taken m.bits st count) ∧ m.scanLoop count n next counter = .ok none)
  | 0, next, counter, hn, h => by
    right
    refine ⟨fun st hst => h.none st (by omega), rfl⟩
  | n + 1, next, counter, hn, h => by
    unfold scanLoop
    rw [test_ok (by omega) (by omega)]
    cases hb : bit m.bits next with
    | true =>
      have hne : 0 ≠ count := Nat.ne_of_lt (Nat.zero_lt_of_lt h.lt)
      have := scanLoop_spec hroom n (next + 1) 0 (by omega) (h.taken hb)
      simpa [Bind.bind, Except.bind, hne] using this
    | false =>
      by_cases hc : counter + 1 = count
      · left
        have hle := h.le
        refine ⟨next + 1 - count, by omega, ?_, ?_⟩
        · rw [← hc]
          exact h.grown hb
        · simp [Bind.bind, Except.bind, pure, Except.pure, hc]
      · have := scanLoop_spec hroom n (next + 1) (counter + 1) (by omega) (h.free hb hc)
        simpa [Bind.bind, Except.bind, hc] using this

theorem setLoop_spec : ∀ (n next : Nat) (m : Bitmap), next + n ≤ m.room * 8 →
    ∃ b, setLoop n next m = .ok { m with bits := b } ∧
      ∀ j, bit b j = if next ≤ j ∧ j < next + n then true else bit m.bits j
  | 0, next, m, _ => ⟨m.bits, rfl, fun j => by rw [if_neg (by omega)]⟩
  | n + 1, next, m, h => by
    obtain ⟨b, hb, hbits⟩ := setLoop_spec n (next + 1) { m with bits := put m.bits next true } (by simpa using (by omega : next + 1 + n ≤ m.room * 8))
    refine ⟨b, ?_, fun j => ?_⟩
    · unfold setLoop
      rw [set_ok true (by omega)]
      exact hb
    · rw [hbits, bit_put]
      by_cases hj : j = next
      · rw [if_neg (by omega), if_pos hj, if_pos (by omega)]
      · rw [if_neg hj]
        by_cases hin : next + 1 ≤ j ∧ j < next + 1 + n
        · rw [if_pos hin, if_pos (by omega)]
        · rw [if_neg hin, if_neg (by omega)]

theorem scan_spec (hroom : m.length ≤ m.room) (hc : 0 < count) :
    (∃ st b, st + count ≤ m.length * 8 ∧ Clear m.bits st count ∧
      (∀ j, bit b j = if st ≤ j ∧ j < st + count then true else bit m.bits j) ∧
      m.scan count = .ok (some (st + m.offset), { m with bits := b })) ∨
    ((∀ st, st + count ≤ m.length * 8 → Taken m.bits st count) ∧ m.scan count = .ok (none, m)) := by
  unfold scan
  rcases scanLoop_spec hroom (m.length * 8) 0 0 (Nat.zero_add _) (.start hc) with ⟨st, h1, h2, h3⟩ | ⟨h1, h2⟩
  · obtain ⟨b, hb, hbits⟩ := setLoop_spec count st m (by omega)
    left
    refine ⟨st, b, h1, h2, hbits, ?_⟩
    rw [h3]
    change (setLoop count st m >>= fun m' => pure (some (st + m'.offset), m')) = _
    rw [hb]
    rfl
  · right
    refine ⟨h1, ?_⟩
    rw [h2]
    rfl

end Bitmap

end Onix
