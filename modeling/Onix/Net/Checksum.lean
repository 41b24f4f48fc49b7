/-
The checksums of the input path are those of `Onix.Checksum`, taken over the bytes of the buffer: two folds are as many as the loop of
`chksum` makes.
-/
import Onix.Checksum
import Onix.Net.Access

namespace Onix.Net

open Onix.Lib

def Pbuf.bytes (p : Pbuf) (o : Nat) : Nat → List (BitVec 8)
  | 0 => []
  | len + 1 => p.u8 o :: p.bytes (o + 1) len

@[simp] theorem Pbuf.length_bytes (p : Pbuf) (o len : Nat) : (p.bytes o len).length = len := by
  induction len generalizing o with
  | zero => rfl
  | succ len ih => simp [bytes, ih]

theorem msb_top (v : BitVec 32) : v.msb = true ↔ v &&& 0x80000000#32 ≠ 0 := by
  rw [Checksum.top_iff, BitVec.msb_eq_decide]
  simp

theorem sumLoop_eq (p : Pbuf) (len o : Nat) (s : Checksum.Sum) :
    (Checksum.chksumLoop (p.bytes o len) s).val = p.sumLoop len o s.val := by
  induction len using Nat.twoStepInduction generalizing o s with
  | zero => rfl
  | one => rfl
  | more len ih _ =>
    have hval : ∀ t : Checksum.Sum, t.val = (if s.val.msb = true then foldCarry s.val else s.val) →
        (t.add ((p.u8 (o + 1) ++ p.u8 o).setWidth 32)).val =
          (if s.val.msb = true then foldCarry s.val else s.val) + (p.u16 o).setWidth 32 := by
      rintro t ht
      exact congrArg (· + _) ht
    unfold Pbuf.bytes Pbuf.bytes Checksum.chksumLoop Pbuf.sumLoop
    rw [ih, hval]
    by_cases h : s.val.msb = true
    · rw [if_pos h, if_pos ((msb_top _).1 h)]
      rfl
    · rw [if_neg h, if_neg fun e => h ((msb_top _).2 e)]

theorem foldLoop_eq (s : Checksum.Sum) : (Checksum.foldLoop s).val = foldCarry (foldCarry s.val) := by
  have hfold : ∀ v : BitVec 32, v >>> 16 = 0 → foldCarry v = v := fun v hv => by
    have h0 : (v >>> 16).toNat = 0 := congrArg BitVec.toNat hv
    have h1 := Checksum.Sum.fold_val (.of v)
    rw [BitVec.toNat_ushiftRight, Nat.shiftRight_eq_div_pow] at h0
    apply BitVec.eq_of_toNat_eq
    change (foldCarry v).toNat = v.toNat % 65536 + v.toNat / 65536 at h1
    omega
  have hsmall : foldCarry (foldCarry s.val) >>> 16 = 0 := by
    have h1 : (foldCarry s.val).toNat = s.val.toNat % 65536 + s.val.toNat / 65536 := Checksum.Sum.fold_val s
    have h2 : (foldCarry (foldCarry s.val)).toNat = (foldCarry s.val).toNat % 65536 + (foldCarry s.val).toNat / 65536 :=
      Checksum.Sum.fold_val (.of (foldCarry s.val))
    apply BitVec.eq_of_toNat_eq
    rw [BitVec.toNat_ushiftRight, Nat.shiftRight_eq_div_pow]
    show _ = 0
    omega
  unfold Checksum.foldLoop
  by_cases h1 : s.val >>> 16 = 0
  · rw [if_pos h1, hfold _ h1, hfold _ h1]
  · rw [if_neg h1]
    unfold Checksum.foldLoop
    by_cases h2 : s.fold.val >>> 16 = 0
    · rw [if_pos h2]
      exact (hfold _ h2).symm
    · rw [if_neg h2]
      unfold Checksum.foldLoop
      exact congrArg Checksum.Sum.val (if_pos hsmall)

theorem ends_ipChksum_bytes {o len : Nat} {p : Pbuf} {R : BitVec 16 → Pbuf → Prop} :
    Ends (ipChksum o len) p R ↔ p.Holds o len ∧ R (Checksum.ipChksum (p.bytes o len) len) p := by
  unfold ipChksum chksum Checksum.ipChksum Checksum.chksum
  simp only [ends_bind, ends_pure, ends_chksumLoop]
  rw [List.take_of_length_le (by rw [Pbuf.length_bytes]), foldLoop_eq, sumLoop_eq]
  rfl

theorem ends_inetChksum_bytes {o : Nat} {len : BitVec 16} {dst src : IpAddr} {proto : BitVec 16} {p : Pbuf} {R : BitVec 16 → Pbuf → Prop} :
    Ends (inetChksum o len dst src proto) p R ↔
      p.Holds o len.toNat ∧ R (Checksum.inetChksum (p.bytes o len.toNat) len dst src proto) p := by
  have hseed : (Checksum.inetSeed len dst src proto).val =
      addrSum dst + addrSum src + (ntohs proto).setWidth 32 + (ntohs len).setWidth 32 := by
    unfold Checksum.inetSeed Checksum.Sum.add Checksum.Sum.of addrSum Checksum.htons ntohs
    dsimp only
    ac_nf
  unfold inetChksum chksum Checksum.inetChksum Checksum.inetSum Checksum.chksum
  simp only [ends_bind, ends_pure, ends_chksumLoop]
  rw [List.take_of_length_le (by rw [Pbuf.length_bytes]), foldLoop_eq, sumLoop_eq, hseed]

end Onix.Net
