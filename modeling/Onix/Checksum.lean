/-
The Internet checksum of `net/chksum.c`: the sum of the little-endian words of a buffer in a `u32`, folded to 16 bits. It is the sum in
one's complement; no addition leaves 32 bits, and a checksum stored in its field makes the sum over the whole all ones.
-/
import Onix.Lib.OnesComplement
import Onix.Tcp.Find

namespace Onix.Checksum

open List Onix.Lib
open Onix.Tcp (IpAddr)

/-! ## The program -/

/-- `sum`, with the additions that were made for it. -/
structure Sum where
  val : BitVec 32
  adds : List (BitVec 32 × BitVec 32)

namespace Sum

def of (seed : BitVec 32) : Sum := ⟨seed, []⟩

def add (s : Sum) (x : BitVec 32) : Sum := ⟨s.val + x, (s.val, x) :: s.adds⟩

def fold (s : Sum) : Sum := ⟨(s.val &&& 0xFFFF#32) + s.val >>> 16, (s.val &&& 0xFFFF#32, s.val >>> 16) :: s.adds⟩

theorem fold_val (s : Sum) : s.fold.val.toNat = s.val.toNat % 65536 + s.val.toNat / 65536 := by
  have hand : (s.val &&& 0xFFFF#32).toNat = s.val.toNat % 65536 := by
    exact Nat.and_two_pow_sub_one_eq_mod s.val.toNat 16
  have hshift : (s.val >>> 16).toNat = s.val.toNat / 65536 := by
    rw [BitVec.toNat_ushiftRight, Nat.shiftRight_eq_div_pow]
  unfold fold
  rw [BitVec.toNat_add, hand, hshift]
  omega

end Sum

def chksumLoop : List (BitVec 8) → Sum → Sum
  | b :: c :: data, s =>
    let s := if s.val &&& 0x80000000#32 ≠ 0 then s.fold else s
    chksumLoop data (s.add ((c ++ b).setWidth 32))
  | [b], s => s.add (b.setWidth 32)
  | [], s => s

def foldLoop (s : Sum) : Sum := if s.val >>> 16 = 0 then s else foldLoop s.fold
  termination_by s.val.toNat
  decreasing_by
    rename_i h
    have hpos : (s.val >>> 16).toNat ≠ 0 := fun h0 => h (BitVec.eq_of_toNat_eq h0)
    rw [BitVec.toNat_ushiftRight, Nat.shiftRight_eq_div_pow] at hpos
    rw [Sum.fold_val]
    omega

/-- `chksum` of the first `len` bytes; the result is the lower half. -/
def chksum (data : List (BitVec 8)) (len : Nat) (s : Sum) : Sum := foldLoop (chksumLoop (data.take len) s)

def ipChksum (data : List (BitVec 8)) (len : Nat) : BitVec 16 := ~~~((chksum data len (.of 0)).val.setWidth 16)

def htons (v : BitVec 16) : BitVec 16 := v <<< 8 ||| v >>> 8

def inetSeed (len : BitVec 16) (dst src : IpAddr) (proto : BitVec 16) : Sum :=
  let s := ((Sum.of 0).add (dst &&& 0xFFFF#32)).add (dst >>> 16)
  let s := (s.add (src &&& 0xFFFF#32)).add (src >>> 16)
  (s.add ((htons proto).setWidth 32)).add ((htons len).setWidth 32)

def inetSum (data : List (BitVec 8)) (len : BitVec 16) (dst src : IpAddr) (proto : BitVec 16) : Sum :=
  chksum data len.toNat (inetSeed len dst src proto)

def inetChksum (data : List (BitVec 8)) (len : BitVec 16) (dst src : IpAddr) (proto : BitVec 16) : BitVec 16 :=
  ~~~((inetSum data len dst src proto).val.setWidth 16)

/-! ## What it is to compute -/

def words : List (BitVec 8) → List Nat
  | b :: c :: data => (c ++ b).toNat :: words data
  | [b] => [b.toNat]
  | [] => []

def Sum.Exact (s : Sum) : Prop := ∀ p ∈ s.adds, p.1.toNat + p.2.toNat < 2 ^ 32

def pseudo (len : BitVec 16) (dst src : IpAddr) (proto : BitVec 16) : List Nat :=
  [dst.toNat % 65536, dst.toNat / 65536, src.toNat % 65536, src.toNat / 65536, (htons proto).toNat, (htons len).toNat]

def field (v : BitVec 16) (before after : List (BitVec 8)) : List (BitVec 8) :=
  before ++ v.setWidth 8 :: (v >>> 8).setWidth 8 :: after

variable {s : Sum} {data before after : List (BitVec 8)} {seed : BitVec 32}

theorem Sum.Exact.add {x : BitVec 32} (h : s.Exact) (hx : s.val.toNat + x.toNat < 2 ^ 32) :
    (s.add x).Exact ∧ (s.add x).val.toNat = s.val.toNat + x.toNat := by
  constructor
  · rintro p hp
    rcases mem_cons.1 hp with rfl | hp
    · exact hx
    · exact h p hp
  · exact (BitVec.toNat_add ..).trans (Nat.mod_eq_of_lt hx)

theorem Sum.Exact.fold (h : s.Exact) : s.fold.Exact := by
  rintro p hp
  rcases mem_cons.1 hp with rfl | hp
  · have hand : (s.val &&& 0xFFFF#32).toNat ≤ 0xFFFF := BitVec.toNat_and .. ▸ Nat.and_le_right
    have hshift : (s.val >>> 16).toNat = s.val.toNat / 65536 := by
      rw [BitVec.toNat_ushiftRight, Nat.shiftRight_eq_div_pow]
    dsimp only
    omega
  · exact h p hp

theorem top_iff (v : BitVec 32) : v &&& 0x80000000#32 ≠ 0 ↔ 2 ^ 31 ≤ v.toNat := by
  have hbit : ∀ i < 32, (0x80000000#32).getLsbD i = decide (i = 31) := by decide
  have hmsb : v.getLsbD 31 = decide (2 ^ 31 ≤ v.toNat) := by
    rw [← BitVec.msb_eq_decide (x := v), BitVec.msb_eq_getLsbD_last]
  constructor
  · intro h
    by_contra hle
    refine h (BitVec.eq_of_getLsbD_eq fun i hi => ?_)
    rw [BitVec.getLsbD_and, hbit i hi]
    by_cases h31 : i = 31
    · rw [h31, hmsb, decide_eq_false hle]
      simp
    · simp [h31]
  · intro hle h
    have h1 : (v &&& 0x80000000#32).getLsbD 31 = true := by
      rw [BitVec.getLsbD_and, hbit 31 (by decide), hmsb, decide_eq_true hle]
      simp
    rw [h] at h1
    simp at h1

theorem word_le (b c : BitVec 8) : (c ++ b).toNat ≤ 65535 := Nat.le_of_lt_succ (c ++ b).isLt

theorem words_le : ∀ (data : List (BitVec 8)), ∀ x ∈ words data, x ≤ 65535
  | [], _, hx => nomatch hx
  | [b], x, hx => by
    obtain rfl := mem_singleton.1 hx
    omega
  | b :: c :: data, x, hx => by
    rcases mem_cons.1 hx with rfl | hx
    · exact word_le b c
    · exact words_le data x hx

/-! ## The sum -/

theorem chksumLoop_spec : ∀ (data : List (BitVec 8)) (s : Sum), s.Exact → s.val.toNat + 255 < 2 ^ 32 →
    (chksumLoop data s).Exact ∧ reduce 65535 (chksumLoop data s).val.toNat = reduce 65535 (s.val.toNat + (words data).sum)
  | [], s, he, _ => ⟨he, rfl⟩
  | [b], s, he, hs => by
    have hb : (b.setWidth 32).toNat = b.toNat := BitVec.toNat_setWidth_of_le (by decide)
    obtain ⟨h1, h2⟩ := he.add (x := b.setWidth 32) (by omega)
    refine ⟨h1, congrArg (reduce 65535) ?_⟩
    rw [chksumLoop, h2, hb]
    simp [words]
  | b :: c :: data, s, he, hs => by
    have hw : ((c ++ b).setWidth 32).toNat = (c ++ b).toNat := BitVec.toNat_setWidth_of_le (by decide)
    -- the highest bit is carried around first
    obtain ⟨t, ht, hte, htv, htr⟩ : ∃ t, (if s.val &&& 0x80000000#32 ≠ 0 then s.fold else s) = t ∧ t.Exact ∧ t.val.toNat < 2 ^ 31 ∧
        reduce 65535 t.val.toNat = reduce 65535 s.val.toNat := by
      by_cases htop : s.val &&& 0x80000000#32 ≠ 0
      · refine ⟨s.fold, if_pos htop, he.fold, ?_, ?_⟩
        · rw [s.fold_val]
          omega
        · rw [s.fold_val]
          exact reduce_carry 65535 _
      · refine ⟨s, if_neg htop, he, ?_, rfl⟩
        rw [top_iff] at htop
        omega
    obtain ⟨h1, h2⟩ := hte.add (x := (c ++ b).setWidth 32) (by omega)
    obtain ⟨h3, h4⟩ := chksumLoop_spec data (t.add ((c ++ b).setWidth 32)) h1 (by omega)
    unfold chksumLoop
    rw [ht]
    refine ⟨h3, h4.trans ?_⟩
    calc reduce 65535 ((t.add ((c ++ b).setWidth 32)).val.toNat + (words data).sum)
        = reduce 65535 (reduce 65535 t.val.toNat + ((c ++ b).toNat + (words data).sum)) := by rw [h2, hw, reduce_add, Nat.add_assoc]
      _ = reduce 65535 (s.val.toNat + (words (b :: c :: data)).sum) := by rw [htr, reduce_add, words, sum_cons]

theorem foldLoop_spec (s : Sum) (he : s.Exact) : (foldLoop s).Exact ∧ (foldLoop s).val.toNat = reduce 65535 s.val.toNat := by
  induction s using foldLoop.induct with
  | case1 s h =>
    have h0 : (s.val >>> 16).toNat = 0 := congrArg BitVec.toNat h
    rw [BitVec.toNat_ushiftRight, Nat.shiftRight_eq_div_pow] at h0
    unfold foldLoop
    rw [if_pos h]
    exact ⟨he, (reduce_self (by omega)).symm⟩
  | case2 s h ih =>
    unfold foldLoop
    rw [if_neg h]
    obtain ⟨h1, h2⟩ := ih he.fold
    refine ⟨h1, h2.trans ?_⟩
    rw [s.fold_val]
    exact reduce_carry 65535 _

theorem chksum_spec (data : List (BitVec 8)) (he : s.Exact) (hs : s.val.toNat + 255 < 2 ^ 32) :
    (chksum data data.length s).Exact ∧ (chksum data data.length s).val.toNat = reduce 65535 (s.val.toNat + (words data).sum) := by
  unfold chksum
  rw [take_length]
  obtain ⟨h1, h2⟩ := chksumLoop_spec data s he hs
  obtain ⟨h3, h4⟩ := foldLoop_spec _ h1
  exact ⟨h3, h4.trans h2⟩

theorem of_exact (seed : BitVec 32) : (Sum.of seed).Exact := fun _ hp => nomatch hp

theorem chksum_zero (data : List (BitVec 8)) :
    (chksum data data.length (.of 0)).Exact ∧ (chksum data data.length (.of 0)).val.toNat = reduce 65535 (words data).sum := by
  obtain ⟨h1, h2⟩ := chksum_spec data (of_exact 0) (by decide)
  refine ⟨h1, h2.trans ?_⟩
  simp [Sum.of]

theorem inetSeed_spec (len : BitVec 16) (dst src : IpAddr) (proto : BitVec 16) :
    (inetSeed len dst src proto).Exact ∧
      (inetSeed len dst src proto).val.toNat = (pseudo len dst src proto).sum ∧ (pseudo len dst src proto).sum ≤ 6 * 65535 := by
  have hlo : ∀ a : IpAddr, (a &&& 0xFFFF#32).toNat = a.toNat % 65536 := fun a => by
    exact Nat.and_two_pow_sub_one_eq_mod a.toNat 16
  have hhi : ∀ a : IpAddr, (a >>> 16).toNat = a.toNat / 65536 := fun a => by rw [BitVec.toNat_ushiftRight, Nat.shiftRight_eq_div_pow]
  have hw : ∀ v : BitVec 16, (v.setWidth 32).toNat = v.toNat := fun v => BitVec.toNat_setWidth_of_le (by decide)
  have h0 : (Sum.of 0).val.toNat = 0 := rfl
  obtain ⟨e1, v1⟩ := (of_exact 0).add (x := dst &&& 0xFFFF#32) (by rw [h0, hlo]; omega)
  rw [h0, hlo] at v1
  obtain ⟨e2, v2⟩ := e1.add (x := dst >>> 16) (by rw [v1, hhi]; omega)
  rw [v1, hhi] at v2
  obtain ⟨e3, v3⟩ := e2.add (x := src &&& 0xFFFF#32) (by rw [v2, hlo]; omega)
  rw [v2, hlo] at v3
  obtain ⟨e4, v4⟩ := e3.add (x := src >>> 16) (by rw [v3, hhi]; omega)
  rw [v3, hhi] at v4
  obtain ⟨e5, v5⟩ := e4.add (x := (htons proto).setWidth 32) (by rw [v4, hw]; omega)
  rw [v4, hw] at v5
  obtain ⟨e6, v6⟩ := e5.add (x := (htons len).setWidth 32) (by rw [v5, hw]; omega)
  rw [v5, hw] at v6
  have hsum : (pseudo len dst src proto).sum = 0 + dst.toNat % 65536 + dst.toNat / 65536 + src.toNat % 65536 + src.toNat / 65536 +
      (htons proto).toNat + (htons len).toNat := by
    simp [pseudo, Nat.add_assoc]
  refine ⟨e6, v6.trans hsum.symm, ?_⟩
  omega

theorem inetSum_spec (hlen : data.length ≤ 65535) (dst src : IpAddr) (proto : BitVec 16) :
    (inetSum data (BitVec.ofNat 16 data.length) dst src proto).Exact ∧
      (inetSum data (BitVec.ofNat 16 data.length) dst src proto).val.toNat =
        reduce 65535 ((pseudo (BitVec.ofNat 16 data.length) dst src proto).sum + (words data).sum) := by
  obtain ⟨h1, h2, h3⟩ := inetSeed_spec (BitVec.ofNat 16 data.length) dst src proto
  have hl : (BitVec.ofNat 16 data.length).toNat = data.length := Nat.mod_eq_of_lt (by omega)
  unfold inetSum
  rw [← h2, hl]
  exact chksum_spec data h1 (by omega)

/-! ## The field -/

theorem words_append : ∀ {before : List (BitVec 8)}, before.length % 2 = 0 → ∀ after, words (before ++ after) = words before ++ words after
  | [], _, _ => rfl
  | [_], h, _ => by cases h
  | b :: c :: before, h, after => by
    rw [length_cons, length_cons] at h
    exact congrArg _ (words_append (by omega) after)

theorem words_field (v : BitVec 16) (h : before.length % 2 = 0) :
    (words (field v before after)).sum = (words before).sum + (words after).sum + v.toNat := by
  have hv : (v >>> 8).setWidth 8 ++ v.setWidth 8 = v := by
    apply BitVec.eq_of_getLsbD_eq
    intro i hi
    rw [BitVec.getLsbD_append]
    by_cases h8 : i < 8
    · simp [h8]
    · have : i - 8 < 8 := by omega
      simp [h8, this, show 8 + (i - 8) = i by omega]
  unfold field
  rw [words_append h, sum_append, words, hv, sum_cons]
  omega

theorem complement_sum {n : Nat} {x y : Sum} (hx : x.val.toNat = reduce 65535 n)
    (hy : y.val.toNat = reduce 65535 (n + (~~~(x.val.setWidth 16)).toNat)) : ~~~(y.val.setWidth 16) = 0 := by
  have hle := reduce_le (m := 65535) (by decide) n
  have hnot : (~~~(x.val.setWidth 16)).toNat = 65535 - reduce 65535 n := by
    rw [BitVec.toNat_not, BitVec.toNat_setWidth, hx]
    omega
  rw [hnot, reduce_complement (by decide)] at hy
  apply BitVec.eq_of_toNat_eq
  rw [BitVec.toNat_not, BitVec.toNat_setWidth, hy]
  rfl

/-! ## The checksum -/

theorem pseudo_le (len : BitVec 16) (dst src : IpAddr) (proto : BitVec 16) : ∀ x ∈ pseudo len dst src proto, x ≤ 65535 := by
  simp only [pseudo, mem_cons, not_mem_nil, or_false]
  rintro x (rfl | rfl | rfl | rfl | rfl | rfl) <;> omega

theorem chksum_seed (data : List (BitVec 8)) (hs : seed.toNat + 255 < 2 ^ 32) :
    (chksum data data.length (.of seed)).Exact ∧ (chksum data data.length (.of seed)).val.toNat =
      onesSum 65535 (seed.toNat % 65536 :: seed.toNat / 65536 :: words data) := by
  obtain ⟨h1, h2⟩ := chksum_spec data (of_exact seed) hs
  refine ⟨h1, h2.trans ?_⟩
  rw [onesSum_eq (by decide), sum_cons, sum_cons, ← Nat.add_assoc, ← reduce_add _ (_ + _), reduce_carry, reduce_add]
  · rfl
  · rintro x hx
    rcases mem_cons.1 hx with rfl | hx
    · omega
    · rcases mem_cons.1 hx with rfl | hx
      · omega
      · exact words_le data x hx

/-- A buffer is summed up in one's complement without an overflow, and the checksum put into its field makes the checksum of the whole zero,
whichever address comes first. -/
theorem internet_checksum (data before after : List (BitVec 8)) (dst src : IpAddr) (proto : BitVec 16) (hlen : data.length ≤ 65535)
    (heven : before.length % 2 = 0) (hwhole : before.length + 2 + after.length ≤ 65535) :
    ((∀ seed : BitVec 32, seed.toNat + 255 < 2 ^ 32 → (chksum data data.length (.of seed)).Exact ∧
        (chksum data data.length (.of seed)).val.toNat = onesSum 65535 (seed.toNat % 65536 :: seed.toNat / 65536 :: words data)) ∧
      (chksum data data.length (.of 0)).Exact ∧ (chksum data data.length (.of 0)).val.toNat = onesSum 65535 (words data)) ∧
    ((inetSum data (BitVec.ofNat 16 data.length) dst src proto).Exact ∧
      (inetSum data (BitVec.ofNat 16 data.length) dst src proto).val.toNat =
        onesSum 65535 (pseudo (BitVec.ofNat 16 data.length) dst src proto ++ words data)) ∧
    (let len := before.length + 2 + after.length
     ipChksum (field (ipChksum (field 0 before after) len) before after) len = 0 ∧
     inetChksum (field (inetChksum (field 0 before after) (BitVec.ofNat 16 len) dst src proto) before after) (BitVec.ofNat 16 len) dst src proto = 0 ∧
     inetChksum (field (inetChksum (field 0 before after) (BitVec.ofNat 16 len) dst src proto) before after) (BitVec.ofNat 16 len) src dst proto = 0) := by
  have hl : ∀ v, before.length + 2 + after.length = (field v before after).length := fun v => by
    simp [field]
    omega
  refine ⟨?_, ?_, ?_⟩
  · obtain ⟨h1, h2⟩ := chksum_zero data
    refine ⟨fun seed => chksum_seed data, h1, h2.trans ?_⟩
    rw [onesSum_eq (by decide) (words_le data)]
  · obtain ⟨h1, h2⟩ := inetSum_spec hlen dst src proto
    refine ⟨h1, h2.trans ?_⟩
    rw [onesSum_eq (by decide), List.sum_append]
    intro x hx
    rcases List.mem_append.1 hx with hx | hx
    · exact pseudo_le _ _ _ _ x hx
    · exact words_le data x hx
  · have hinet : ∀ (v : BitVec 16) (dst src : IpAddr),
        (inetSum (field v before after) (BitVec.ofNat 16 (before.length + 2 + after.length)) dst src proto).val.toNat =
          reduce 65535 ((pseudo (BitVec.ofNat 16 (before.length + 2 + after.length)) dst src proto).sum + (words before).sum + (words after).sum +
            v.toNat) := fun v dst src => by
      rw [hl v, (inetSum_spec (hl v ▸ hwhole) dst src proto).2, words_field v heven]
      congr 1
      omega
    have hswap : ∀ len, (pseudo len src dst proto).sum = (pseudo len dst src proto).sum := fun len => by
      simp [pseudo]
      omega
    refine ⟨?_, ?_, ?_⟩
    · have hip : ∀ v, (chksum (field v before after) (before.length + 2 + after.length) (.of 0)).val.toNat =
          reduce 65535 ((words before).sum + (words after).sum + v.toNat) := fun v => by
        rw [hl v, (chksum_zero _).2, words_field v heven]
      exact complement_sum (hip 0) (hip _)
    · exact complement_sum (hinet 0 dst src) (hinet _ dst src)
    · refine complement_sum (hinet 0 dst src) ?_
      rw [hinet _ src dst, hswap]
      rfl

/-- An echo request with three bytes of data, and a buffer of one byte. -/
theorem internet_checksum_echo : onesSum 65535 (words [7]) = 7 ∧
    ipChksum (field (ipChksum (field 0 [8, 0] [1, 2, 3]) 7) [8, 0] [1, 2, 3]) 7 = 0 := by
  obtain ⟨-, -, h, -⟩ := internet_checksum [7] [8, 0] [1, 2, 3] 0 0 1 (by decide) (by decide) (by decide)
  exact ⟨by decide, h⟩

end Onix.Checksum
