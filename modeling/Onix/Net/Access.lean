/-
Functions of the input path read backwards. Each gets its condition on the buffer before it: the
offsets it reads lie below the received length and those it writes in the buffer. Here the loads and
stores, the checksums, ICMP and UDP.
-/
import Onix.Net.Model

namespace Onix.Net

open Onix.Lib

variable {Q : Answer → Pbuf → Prop}
variable {p : Pbuf} {o : Nat}

/-! ## Loads and stores -/

theorem ends_loads {α : Type} {n o : Nat} {f : Pbuf → α} {R : α → Pbuf → Prop} :
    Ends (loads n o f) p R ↔ o + n ≤ p.length ∧ R (f p) p := ends_guarded

variable {R : Unit → Pbuf → Prop}

theorem ends_stores {n o : Nat} {f : Pbuf → Pbuf} :
    Ends (stores n o f) p R ↔ o + n ≤ payloadMax ∧ R () (f p) := ends_guarded

@[simp] theorem ends_load8 {R : BitVec 8 → Pbuf → Prop} :
    Ends (load8 o) p R ↔ o + 1 ≤ p.length ∧ R (p.u8 o) p := ends_loads

@[simp] theorem ends_load16 {R : BitVec 16 → Pbuf → Prop} :
    Ends (load16 o) p R ↔ o + 2 ≤ p.length ∧ R (p.u16 o) p := ends_loads

@[simp] theorem ends_load32 {R : BitVec 32 → Pbuf → Prop} :
    Ends (load32 o) p R ↔ o + 4 ≤ p.length ∧ R (p.u32 o) p := ends_loads

@[simp] theorem ends_store8 {v : BitVec 8} :
    Ends (store8 o v) p R ↔ o + 1 ≤ payloadMax ∧ R () (p.put8 o v) := ends_stores

variable {v : BitVec 32}

@[simp] theorem ends_store16 {v : BitVec 16} :
    Ends (store16 o v) p R ↔ o + 2 ≤ payloadMax ∧ R () (p.put16 o v) := ends_stores

@[simp] theorem ends_store32 :
    Ends (store32 o v) p R ↔ o + 4 ≤ payloadMax ∧ R () (p.put32 o v) := ends_stores

namespace Pbuf

def hostS (p : Pbuf) (o : Nat) : Pbuf := p.put16 o (ntohs (p.u16 o))

def hostL (p : Pbuf) (o : Nat) : Pbuf := p.put32 o (ntohl (p.u32 o))

@[simp] theorem hostS_length (p : Pbuf) (o : Nat) : (p.hostS o).length = p.length := put16_length p o _

@[simp] theorem hostL_length (p : Pbuf) (o : Nat) : (p.hostL o).length = p.length := put32_length p o _

def sumLoop (p : Pbuf) : Nat → Nat → BitVec 32 → BitVec 32
  | 0, _, sum => sum
  | 1, o, sum => sum + (p.u8 o).setWidth 32
  | len + 2, o, sum => p.sumLoop len (o + 2) ((if sum.msb then foldCarry sum else sum) + (p.u16 o).setWidth 32)

def inetSum (p : Pbuf) (o : Nat) (len : BitVec 16) (dst src : IpAddr) (proto : BitVec 16) : BitVec 16 :=
  ~~~(foldCarry (foldCarry (p.sumLoop len.toNat o
    (addrSum dst + addrSum src + (ntohs proto).setWidth 32 + (ntohs len).setWidth 32)))).setWidth 16

def Holds (p : Pbuf) (o len : Nat) : Prop := len = 0 ∨ o + len ≤ p.length

end Pbuf

/-- `q` differs from `p` in the bytes alone. -/
structure SameFields (p q : Pbuf) : Prop where
  length : q.length = p.length
  data : q.data = p.data
  size : q.size = p.size
  queued : q.queued = p.queued
  sized : q.sized = p.sized

namespace SameFields

variable {p q : Pbuf} {o : Nat}

theorem refl (p : Pbuf) : SameFields p p := ⟨rfl, rfl, rfl, rfl, rfl⟩

theorem put8 (h : SameFields p q) {v : BitVec 8} : SameFields p (q.put8 o v) := ⟨h.length, h.data, h.size, h.queued, h.sized⟩

theorem put16 (h : SameFields p q) {v : BitVec 16} : SameFields p (q.put16 o v) := h.put8.put8

theorem put32 (h : SameFields p q) : SameFields p (q.put32 o v) := h.put16.put16

theorem hostS (h : SameFields p q) : SameFields p (q.hostS o) := h.put16

theorem hostL (h : SameFields p q) : SameFields p (q.hostL o) := h.put32

theorem withSeqno (h : SameFields p q) : SameFields p { q with seqno := v } :=
  ⟨h.length, h.data, h.size, h.queued, h.sized⟩

theorem holds (h : SameFields p q) {len : Nat} (hp : p.Holds o len) : q.Holds o len := by
  unfold Pbuf.Holds at hp ⊢
  rw [h.length]; exact hp

end SameFields

@[simp] theorem ends_ntohsAt :
    Ends (ntohsAt o) p R ↔ (o + 2 ≤ p.length ∧ o + 2 ≤ payloadMax) ∧ R () (p.hostS o) := by
  unfold ntohsAt
  rw [ends_bind, ends_load16, ends_store16, and_assoc]
  rfl

@[simp] theorem ends_ntohlAt :
    Ends (ntohlAt o) p R ↔ (o + 4 ≤ p.length ∧ o + 4 ≤ payloadMax) ∧ R () (p.hostL o) := by
  unfold ntohlAt
  rw [ends_bind, ends_load32, ends_store32, and_assoc]
  rfl

/-! ## Checksums -/

theorem ends_chksumLoop {R : BitVec 32 → Pbuf → Prop} (len o : Nat) (sum : BitVec 32) :
    Ends (chksumLoop len o sum) p R ↔ p.Holds o len ∧ R (p.sumLoop len o sum) p := by
  induction len, o, sum using chksumLoop.induct with
  | case1 o sum => exact ⟨fun h => ⟨.inl rfl, h⟩, fun h => h.2⟩
  | case2 o sum =>
    unfold chksumLoop Pbuf.Holds
    rw [ends_bind, ends_load8, ends_pure]
    exact and_congr_left fun _ => ⟨.inr, fun h => h.resolve_left (by decide)⟩
  | case3 len o sum ih =>
    unfold chksumLoop
    rw [ends_bind, ends_load16, ih, ← and_assoc]
    refine and_congr_left fun _ => ?_
    unfold Pbuf.Holds
    omega

theorem ends_inetChksum {R : BitVec 16 → Pbuf → Prop} {len : BitVec 16} {dst src : IpAddr}
    {proto : BitVec 16} :
    Ends (inetChksum o len dst src proto) p R ↔ p.Holds o len.toNat ∧ R (p.inetSum o len dst src proto) p := by
  unfold inetChksum chksum
  simp only [ends_bind, ends_pure, ends_chksumLoop]
  rfl

variable {S : Prop}

theorem ends_ipChksum {R : BitVec 16 → Pbuf → Prop} {o len : Nat} (hR : ∀ sum, R sum p ↔ S) :
    Ends (ipChksum o len) p R ↔ p.Holds o len ∧ S := by
  unfold ipChksum chksum
  simp only [ends_bind, ends_pure, ends_chksumLoop, hR]

/-! ## ICMP -/

variable {e : Env}

theorem ends_ipOutput {proto : BitVec 8} {len : BitVec 16} (hp : 34 ≤ p.length)
    (hQ : ∀ a q, SameFields p q → (Q a q ↔ S)) : Ends (ipOutput e proto len) p Q ↔ S := by
  have hin : ∀ n, n ≤ 34 → n ≤ p.length := fun n h => Nat.le_trans h hp
  unfold ipOutput
  simp only [ends_bind, ends_load8, ends_load32, ends_store8, ends_store16, ends_store32, Pbuf.put8_length,
    payloadMax, hin, Nat.reduceAdd, Nat.reduceSub, Nat.reduceLeDiff, true_and]
  by_cases hoff : e.ipTxOffload = true
  · rw [ends_of_pos hoff, ends_pure]
    exact hQ _ _ (SameFields.refl p).put8.put8.put8.put8.put16.put8.put8.put16.put32.put32.put16
  · rw [ends_of_neg hoff, ends_bind, ends_ipChksum (S := S) fun sum => ?_]
    · exact and_iff_right (SameFields.holds
        (SameFields.refl p).put8.put8.put8.put8.put16.put8.put8.put16.put32.put32.put16 (.inr hp))
    · rw [ends_bind, ends_store16, and_iff_right (by decide), ends_pure]
      exact hQ _ _ (SameFields.refl p).put8.put8.put8.put8.put16.put8.put8.put16.put32.put32.put16.put16

def IcmpFits (e : Env) (p : Pbuf) : Prop :=
  34 < p.length ∧
    (p.u8 34 = 8 → ipAddrIsbroadcast (p.u32 30) e.netmask = false → ipAddrIsmulticast (p.u32 30) = false →
      p.u32 30 = e.ipaddr → p.Holds 34 (p.u16 16 - 20).toNat)

theorem ends_icmpInput (hp : 34 ≤ p.length)
    (hQ : ∀ a q, SameFields p q → (Q a q ↔ S)) : Ends (icmpInput e) p Q ↔ IcmpFits e p ∧ S := by
  unfold icmpInput IcmpFits
  rw [ends_bind, ends_load8, and_assoc]
  refine and_congr_right fun _ => ?_
  by_cases htype : p.u8 34 = 8
  · rw [ends_of_pos htype]
    unfold icmpEchoReply
    rw [ends_bind, ends_load32, and_iff_right (show 30 + 4 ≤ p.length by omega)]
    by_cases hcast : (ipAddrIsbroadcast (p.u32 30) e.netmask || ipAddrIsmulticast (p.u32 30)) = true
    · rw [ends_of_pos hcast, ends_pure, hQ _ p (.refl p)]
      refine (and_iff_right fun _ h1 h2 => ?_).symm
      rw [h1, h2] at hcast; cases hcast
    rw [ends_of_neg hcast]
    by_cases haddr : p.u32 30 = e.ipaddr
    · rw [ends_of_neg (not_not.2 haddr)]
      rw [Bool.or_eq_true, not_or, Bool.not_eq_true, Bool.not_eq_true] at hcast
      simp only [ends_bind, ends_store8, ends_store16, ends_load16, Pbuf.put8_length, Pbuf.put16_length, payloadMax,
        Nat.reduceAdd, Nat.reduceSub, Nat.reduceLeDiff, true_and]
      rw [and_iff_right (show 18 ≤ p.length by omega), ends_ipChksum (S := S) fun sum => ?_]
      · refine and_congr_left fun _ => ?_
        exact ⟨fun h _ _ _ _ => h, fun h => h htype hcast.1 hcast.2 haddr⟩
      · exact ends_ipOutput hp fun a q h => hQ a q ⟨h.length, h.data, h.size, h.queued, h.sized⟩
    · rw [ends_of_pos haddr, ends_pure, hQ _ p (.refl p)]
      exact (and_iff_right fun _ _ _ h => absurd h haddr).symm
  · rw [ends_of_neg htype, ends_pure, hQ _ p (.refl p)]
    exact (and_iff_right fun h => absurd h htype).symm

/-! ## UDP -/

def Pbuf.udpHost (p : Pbuf) : Pbuf := (p.hostS 34).hostS 36

def Pbuf.udpPcb (e : Env) (p : Pbuf) : Option UdpPcb := findUdpPcb e (p.u32 26) (p.u16 34) (p.u32 30) (p.u16 36)

theorem ends_udpInput :
    Ends (udpInput e) p Q ↔ 37 < p.length ∧ (p.udpHost.udpPcb e = none → Q .addr p.udpHost) ∧
      (p.udpHost.udpPcb e ≠ none → Q .ok { p.udpHost with queued := true }) := by
  unfold udpInput Pbuf.udpPcb Pbuf.udpHost
  simp only [ends_bind, ends_ntohsAt, ends_load16, ends_load32, Pbuf.hostS_length, payloadMax, Nat.reduceAdd, Nat.reduceSub,
    Nat.reduceLeDiff, and_true]
  cases findUdpPcb e (((p.hostS 34).hostS 36).u32 26) (((p.hostS 34).hostS 36).u16 34) (((p.hostS 34).hostS 36).u32 30)
    (((p.hostS 34).hostS 36).u16 36) with
  | none =>
    exact ⟨fun h => ⟨by omega, fun _ => h.2.2.2.2.2.2, fun h => absurd rfl h⟩,
      fun h => ⟨by omega, by omega, by omega, by omega, by omega, by omega, h.2.1 rfl⟩⟩
  | some b =>
    exact ⟨fun h => ⟨by omega, fun h => (by cases h), fun _ => h.2.2.2.2.2.2⟩,
      fun h => ⟨by omega, by omega, by omega, by omega, by omega, by omega, h.2.2 (Option.some_ne_none b)⟩⟩

def RecvFits (iov : List Nat) (p : Pbuf) : Prop :=
  39 < p.length ∧ p.Holds 42 (min (ntohs (p.u16 38) - 8).toNat iov.sum)

theorem ends_iovecWrite {R : Nat → Pbuf → Prop} (iov : List Nat) (buf count : Nat) :
    Ends (iovecWrite iov buf count) p R ↔ p.Holds buf (min count iov.sum) ∧ R (min count iov.sum) p := by
  induction iov generalizing buf count R with
  | nil =>
    unfold iovecWrite
    rw [ends_pure, List.sum_nil, Nat.min_zero]
    exact (and_iff_right (.inl rfl)).symm
  | cons size iov ih =>
    unfold iovecWrite
    rw [List.sum_cons]
    by_cases hc : count = 0
    · rw [ends_of_pos hc, hc, Nat.zero_min]
      exact (and_iff_right (.inl rfl)).symm
    rw [ends_of_neg hc]
    by_cases hs : size = 0
    · rw [ends_of_pos hs, ih, hs, Nat.zero_add]
    rw [ends_of_neg hs]
    simp only [ends_bind, ends_loads, ih, ends_pure]
    have hlen : (if count < size then count else size) = min count size := by
      split <;> omega
    have hall : min count size + min (count - min count size) iov.sum = min count (size + iov.sum) := by omega
    rw [hlen, hall, ← and_assoc]
    refine and_congr_left fun _ => ?_
    unfold Pbuf.Holds
    omega

theorem ends_udpRecvmsg {iov : List Nat} {name : Bool} {R : Nat → Pbuf → Prop} (hR : ∀ n, R n p ↔ S) :
    Ends (udpRecvmsg iov name) p R ↔ RecvFits iov p ∧ S := by
  unfold udpRecvmsg RecvFits
  rw [ends_bind, ends_load16, ends_bind, ends_iovecWrite, and_assoc]
  refine and_congr_right fun hlen => and_congr_right fun _ => ?_
  cases name with
  | false => exact hR _
  | true =>
    simp only [if_true, ends_bind, ends_load16, ends_load32, ends_pure, hR]
    exact ⟨fun h => h.2.2, fun h => ⟨by omega, by omega, h⟩⟩

end Onix.Net
