/-
TCP on the input path: when the header, the checksum and the options of a segment lie in what was
received, and when the `size` that `tcp_input` computes from three header lengths is the number of
bytes that are there. `tcp_update_buf` takes bytes off the front and keeps a true size true and a
wrong one wrong.
-/
import Onix.Net.Access

namespace Onix.Net

open Onix.Lib

variable {Q : Answer → Pbuf → Prop}

/-! ## Options -/

def OptionGood (p : Pbuf) (ptr : Nat) : Prop := p.u8 ptr = 2 → p.u8 (ptr + 1) = 4

def MssFits (p : Pbuf) (ptr : Nat) : Prop := p.u8 ptr = 2 → p.u8 (ptr + 1) = 4 → ptr + 4 ≤ p.length

/-- The options `tcp_parse_option` looks at were received: the kind, the size of all but a
no-operation, the value of a maximum segment size. -/
def OptionsFit (p : Pbuf) : Nat → Nat → Nat → Prop
  | 0, _, _ => True
  | fuel + 1, ptr, payload => ptr < payload →
    ptr + 1 ≤ p.length ∧ (p.u8 ptr = 1 → OptionsFit p fuel (ptr + 1) payload) ∧
      (p.u8 ptr ≠ 0 → p.u8 ptr ≠ 1 → ptr + 2 ≤ p.length ∧ MssFits p ptr ∧
        (OptionGood p ptr → p.u8 (ptr + 1) ≠ 0 → OptionsFit p fuel (ptr + (p.u8 (ptr + 1)).toNat) payload))

variable {p : Pbuf}

theorem ends_parseOption {R : Bool → Pbuf → Prop} (ptr : Nat) :
    Ends (parseOption (p.u8 ptr) (p.u8 (ptr + 1)) ptr) p R ↔
      MssFits p ptr ∧ (OptionGood p ptr → R true p) ∧ (¬ OptionGood p ptr → R false p) := by
  unfold parseOption MssFits OptionGood
  by_cases h2 : p.u8 ptr = 2
  · rw [ends_of_neg (not_not.2 h2)]
    by_cases h4 : p.u8 (ptr + 1) = 4
    · rw [ends_of_neg (not_not.2 h4), ends_bind, ends_load16]
      exact ⟨fun h => ⟨fun _ _ => h.1, fun _ => h.2, fun h => absurd (fun _ => h4) h⟩, fun h => ⟨h.1 h2 h4, h.2.1 fun _ => h4⟩⟩
    · rw [ends_of_pos h4]
      exact ⟨fun h => ⟨fun _ h => absurd h h4, fun h => absurd (h h2) h4, fun _ => h⟩, fun h => h.2.2 fun h => absurd (h h2) h4⟩
  · rw [ends_of_pos h2]
    exact ⟨fun h => ⟨fun h => absurd h h2, fun _ => h, fun hn => absurd (fun h => absurd h h2) hn⟩,
      fun h => h.2.1 fun h => absurd h h2⟩

variable {S : Prop}

theorem ends_parseOptions {R : Option Answer → Pbuf → Prop} (hR : ∀ a, R a p ↔ S) (fuel ptr payload : Nat) :
    Ends (parseOptions fuel ptr payload) p R ↔ OptionsFit p fuel ptr payload ∧ S := by
  induction fuel generalizing ptr with
  | zero => exact (hR _).trans (and_iff_right trivial).symm
  | succ fuel ih =>
    unfold parseOptions OptionsFit
    by_cases hend : payload ≤ ptr
    · rw [ends_of_pos hend, ends_pure, hR]
      exact (and_iff_right fun h => absurd h (by omega)).symm
    rw [ends_of_neg hend, ends_bind, ends_load8, imp_iff_right (show ptr < payload by omega), and_assoc]
    refine and_congr_right fun _ => ?_
    by_cases h0 : p.u8 ptr = 0
    · rw [ends_of_pos h0, ends_pure, hR]
      refine (and_iff_right ⟨fun h => ?_, fun h => absurd h0 h⟩).symm
      rw [h0] at h; cases h
    rw [ends_of_neg h0]
    by_cases h1 : p.u8 ptr = 1
    · rw [ends_of_pos h1, ih]
      exact and_congr_left fun _ => ⟨fun h => ⟨fun _ => h, fun _ h => absurd h1 h⟩, fun h => h.1 h1⟩
    rw [ends_of_neg h1, ends_bind, ends_load8, ends_bind, ends_parseOption, imp_iff_right h0, imp_iff_right h1,
      and_iff_right (fun h => absurd h h1), and_assoc, and_assoc]
    refine and_congr_right fun _ => and_congr_right fun _ => ?_
    by_cases hgood : OptionGood p ptr
    · rw [imp_iff_right hgood, imp_iff_right hgood, and_iff_left (fun h => absurd hgood h), ends_of_neg (by decide)]
      by_cases hsize : p.u8 (ptr + 1) = 0
      · rw [ends_of_pos hsize, ends_pure, hR]
        exact (and_iff_right fun h => absurd hsize h).symm
      · rw [ends_of_neg hsize, ih, imp_iff_right hsize]
    · rw [and_iff_right (fun h => absurd h hgood), imp_iff_right hgood, ends_of_pos rfl, ends_pure, hR]
      exact (and_iff_right fun h => absurd h hgood).symm

/-! ## What a segment does to its buffer -/

def Pbuf.received (p : Pbuf) (b : TcpPcb) : Pbuf := if 0 < p.size then tcpUpdateBuf b (p.u32 38) p else p

theorem received_length (b : TcpPcb) (p : Pbuf) : (p.received b).length = p.length := by
  unfold Pbuf.received tcpUpdateBuf
  dsimp only
  split_ifs <;> rfl

theorem received_queued (b : TcpPcb) (p : Pbuf) : (p.received b).queued = p.queued := by
  unfold Pbuf.received tcpUpdateBuf
  dsimp only
  split_ifs <;> rfl

/-- What `Q` asks of the buffer of a segment comes to `S`, before `tcp_receive` and after it. -/
def Settled (Q : Answer → Pbuf → Prop) (S : Prop) (p : Pbuf) : Prop := ∀ a, (Q a p ↔ S) ∧ ∀ b, Q a (p.received b) ↔ S

variable {R : Unit → Pbuf → Prop}

theorem ends_tcpReceive {b : TcpPcb} (hp : 54 ≤ p.length) :
    Ends (tcpReceive b) p R ↔ R () (p.received b) := by
  have hin : ∀ n, n ≤ 54 → n ≤ p.length := fun n h => Nat.le_trans h hp
  unfold tcpReceive
  simp only [ends_bind, ends_load32, ends_load16, ends_modify, hin, Nat.reduceAdd, Nat.reduceLeDiff, true_and]
  rfl

theorem ends_tcpProcess {b : TcpPcb} (hp : 54 ≤ p.length) (hQ : Settled Q S p) :
    Ends (tcpProcess b) p Q ↔ S := by
  -- the loads after `tcp_receive`
  have hrest : ∀ q : Pbuf, q.length = p.length → (Q .processed q ↔ S) →
      (Ends (do
        let _seqno ← load32 38
        let _ackno ← load32 42
        let _window ← load16 48
        let _src ← load32 26
        let _sport ← load16 34
        pure Answer.processed) q Q ↔ S) := by
    intro q hq hS
    have hin : ∀ n, n ≤ 54 → n ≤ q.length := fun n h => Nat.le_trans h (hq ▸ hp)
    simp only [ends_bind, ends_load32, ends_load16, ends_pure, hin, Nat.reduceAdd, Nat.reduceLeDiff, true_and, hS]
  unfold tcpProcess
  rw [ends_bind, ends_load8, and_iff_right (show 47 + 1 ≤ p.length by omega)]
  by_cases hack : (tcpFlag (p.u8 47) Tcp.tcpAck && decide (b.state ≠ .timeWait)) = true
  · simp only [hack, if_true]
    rw [ends_bind, ends_tcpReceive hp]
    exact hrest _ (received_length b p) ((hQ _).2 b)
  · simp only [hack]
    exact hrest p rfl (hQ _).1

def optionsRead (b : TcpPcb) (p : Pbuf) : Bool :=
  tcpValidate b p (p.u8 47) && b.state ≠ .closed && !tcpFlag (p.u8 47) Tcp.tcpRst

def Pbuf.tcpPcb (e : Env) (dst src : IpAddr) (p : Pbuf) : Option TcpPcb := tcpFindPcb e dst (p.u16 36) src (p.u16 34)

def DemuxFits (e : Env) (dst src : IpAddr) (tcphlen : Nat) (p : Pbuf) : Prop :=
  ∀ b, p.tcpPcb e dst src = some b → optionsRead b p = true → OptionsFit p (tcphlen - 20) 54 (34 + tcphlen)

variable {e : Env}

theorem ends_tcpDemux {dst src : IpAddr} {tcphlen : Nat} (hp : 54 ≤ p.length)
    (hQ : Settled Q S p) : Ends (tcpDemux e dst src tcphlen) p Q ↔ DemuxFits e dst src tcphlen p ∧ S := by
  have hin : ∀ n, n ≤ 54 → n ≤ p.length := fun n h => Nat.le_trans h hp
  unfold tcpDemux DemuxFits Pbuf.tcpPcb
  rw [ends_bind, ends_load16, and_iff_right (hin _ (by decide)), ends_bind, ends_load16, and_iff_right (hin _ (by decide))]
  cases tcpFindPcb e dst (p.u16 36) src (p.u16 34) with
  | none => exact (hQ _).1.trans (and_iff_right fun _ h => by cases h).symm
  | some b =>
    rw [ends_bind, ends_load8, and_iff_right (hin _ (by decide)), ends_bind, ends_get]
    -- a segment whose options are not read asks for nothing more
    have hskip : ∀ a, optionsRead b p = false → (Ends (pure a : Rx Answer) p Q ↔
        (∀ b', some b = some b' → optionsRead b' p = true → OptionsFit p (tcphlen - 20) 54 (34 + tcphlen)) ∧ S) := by
      intro a hread
      rw [ends_pure, (hQ a).1]
      refine (and_iff_right ?_).symm
      rintro _ ⟨⟩ h
      rw [hread] at h; cases h
    by_cases hv : tcpValidate b p (p.u8 47) = false
    · rw [ends_of_pos hv, hskip _ (by unfold optionsRead; rw [hv]; rfl)]
    rw [ends_of_neg hv]
    by_cases hc : b.state = .closed
    · rw [ends_of_pos hc, hskip _ (by unfold optionsRead; simp [hc])]
    rw [ends_of_neg hc]
    unfold tcpAccept
    by_cases hr : tcpFlag (p.u8 47) Tcp.tcpRst = true
    · rw [ends_of_pos hr, hskip _ (by unfold optionsRead; simp [hr])]
    have hread : optionsRead b p = true := by
      unfold optionsRead; simp [hv, hc, hr]
    rw [ends_of_neg hr, ends_bind]
    unfold tcpParseOption
    rw [ends_parseOptions (S := S)]
    · refine and_congr_left fun _ => ⟨fun h => ?_, fun h => h b rfl hread⟩
      rintro _ ⟨⟩ -; exact h
    · rintro (_ | a)
      · exact ends_tcpProcess hp hQ
      · exact (hQ a).1

/-! ## The size of the payload -/

/-- A size that was set is the number of bytes the frame holds from the data pointer up to `stop`,
the end of the IP packet. -/
def Pbuf.SizeTrue (stop : Nat) (p : Pbuf) : Prop := p.sized = true → p.size.toNat = min p.length stop - p.data.toNat

variable {stop : Nat} {q : Pbuf}

theorem SameFields.sizeTrue (h : SameFields p q) : q.SizeTrue stop ↔ p.SizeTrue stop := by
  unfold Pbuf.SizeTrue
  rw [h.sized, h.size, h.length, h.data]

/-- Taking bytes off the front moves the pointer by as much as the size. A size that was wrong stays
wrong: it leads past the packet or, below zero, past all memory. -/
theorem trim_size {n : Nat} {data size x : BitVec 32} (hd : data.toNat < 2 ^ 16) (hstop : stop < 2 ^ 31)
    (hsum : (data + size).toNat = stop) (hx : x.toInt < 0) (hs : 0 < (size + x).toInt) :
    (size + x).toNat = min n stop - (data - x).toNat ↔ size.toNat = min n stop - data.toNat := by
  -- `x` is a step back of `a` bytes
  obtain ⟨a, ha, ha2⟩ : ∃ a, x.toNat + a = 2 ^ 32 ∧ a ≤ 2 ^ 31 := by
    have hneg : 2 ^ 31 ≤ x.toNat := by
      by_contra hlt
      rw [BitVec.toInt_eq_toNat_of_lt (by omega)] at hx
      omega
    exact ⟨2 ^ 32 - x.toNat, by omega, by omega⟩
  have hdata : (data - x).toNat = data.toNat + a := by
    rw [BitVec.toNat_sub]
    omega
  have hpos : (size + x).toNat < 2 ^ 31 ∧ 0 < (size + x).toNat := by
    rw [BitVec.toInt_eq_toNat_cond] at hs
    split at hs
    · omega
    · omega
  have hadd : (size + x).toNat = size.toNat - a ∧ a < size.toNat := by
    rw [BitVec.toNat_add] at hpos ⊢
    omega
  rcases Nat.le_total n stop with hn | hn
  · rw [Nat.min_eq_left hn]
    omega
  · rw [Nat.min_eq_right hn]
    omega
theorem received_size (hd : p.data.toNat < 2 ^ 16) (hstop : stop < 2 ^ 31)
    (hsum : (p.data + p.size).toNat = stop) (b : TcpPcb) : (p.received b).SizeTrue stop ↔ p.SizeTrue stop := by
  unfold Pbuf.received tcpUpdateBuf
  dsimp only
  split_ifs with h1 h2 h3 h4
  · rfl
  · rfl
  · refine imp_congr_right fun _ => ?_
    generalize p.u32 38 = seqno at *
    have hnew : ∀ a n s : BitVec 32, a + n - s = n + (a - s) := fun a n s => by bv_omega
    have hdata : ∀ a d s : BitVec 32, d + (s - a) = d - (a - s) := fun a d s => by bv_omega
    have hsize : ∀ a n s : BitVec 32, n - (s - a) = n + (a - s) := fun a n s => by bv_omega
    unfold Tcp.seqLEQ at h2
    rw [hnew] at h2
    show (p.size - (b.rcvNxt - seqno)).toNat = min p.length stop - (p.data + (b.rcvNxt - seqno)).toNat ↔ _
    rw [hdata, hsize]
    exact trim_size hd hstop hsum h4 (Int.not_le.1 h2)
  · rfl
  · rfl

/-! ## A segment -/

def Pbuf.tcphlen (p : Pbuf) : Nat := (p.u8 46 >>> 4).toNat * 4

theorem tcphlen_le (p : Pbuf) : p.tcphlen ≤ 60 := by
  unfold Pbuf.tcphlen
  rw [BitVec.toNat_ushiftRight, Nat.shiftRight_eq_div_pow]
  omega

def Pbuf.tcpTotal (p : Pbuf) : BitVec 32 := (p.u16 16).setWidth 32 - 20

def Pbuf.withPayload (p : Pbuf) : Pbuf :=
  { p with
    total := p.tcpTotal, size := p.tcpTotal - BitVec.ofNat 32 p.tcphlen
    data := BitVec.ofNat 32 (34 + p.tcphlen), sized := true }

def Pbuf.tcpHost (p : Pbuf) : Pbuf :=
  let p := (((((p.hostS 34).hostS 36).hostL 38).hostL 42).hostS 48).hostS 52
  { p with seqno := p.u32 38 }

/-- The segment `tcp_find_pcb` gets: with the `NUL` after its payload and its header in host order. -/
def Pbuf.segment (p : Pbuf) : Pbuf := (p.withPayload.put8 (14 + (p.u16 16).toNat) 0).tcpHost

theorem withPayload_stop (p : Pbuf) : (p.withPayload.data + p.withPayload.size).toNat = 14 + (p.u16 16).toNat := by
  show (BitVec.ofNat 32 (34 + p.tcphlen) + ((p.u16 16).setWidth 32 - 20 - BitVec.ofNat 32 p.tcphlen)).toNat = _
  have hsum : ∀ n t : BitVec 32, 34#32 + t + (n - 20 - t) = n + 14 := fun n t => by bv_omega
  rw [BitVec.ofNat_add, hsum, BitVec.toNat_add, BitVec.toNat_setWidth]
  show (_ + 14) % _ = _
  omega

theorem ends_tcpHost : Ends tcpHost p R ↔ 54 ≤ p.length ∧ R () p.tcpHost := by
  unfold tcpHost Pbuf.tcpHost
  simp only [ends_bind, ends_ntohsAt, ends_ntohlAt, ends_load32, ends_modify, Pbuf.hostS_length, Pbuf.hostL_length, payloadMax,
    Nat.reduceAdd, Nat.reduceSub, Nat.reduceLeDiff, and_true]
  exact ⟨fun h => ⟨by omega, h.2.2.2.2.2.2.2⟩,
    fun h => ⟨by omega, by omega, by omega, by omega, by omega, by omega, by omega, h.2⟩⟩

def LengthsAgree (p : Pbuf) : Prop :=
  20 + p.tcphlen ≤ (p.u16 16).toNat ∧ (14 + (p.u16 16).toNat ≤ p.length ∨ (p.u16 16).toNat = 20 + p.tcphlen)

theorem segment_fields (p : Pbuf) : SameFields p.withPayload p.segment :=
  (SameFields.refl p.withPayload).put8.hostS.hostS.hostL.hostL.hostS.hostS.withSeqno

theorem withPayload_data (p : Pbuf) : p.withPayload.data.toNat = 34 + p.tcphlen := by
  have := tcphlen_le p
  show (BitVec.ofNat 32 (34 + p.tcphlen)).toNat = _
  rw [BitVec.toNat_ofNat]
  omega

theorem segment_size (p : Pbuf) : p.segment.SizeTrue (14 + (p.u16 16).toNat) ↔ LengthsAgree p := by
  have hstop := withPayload_stop p
  have hdata := withPayload_data p
  rw [BitVec.toNat_add, hdata] at hstop
  rw [(segment_fields p).sizeTrue]
  unfold LengthsAgree Pbuf.SizeTrue
  rw [hdata, imp_iff_right (show p.withPayload.sized = true from rfl)]
  show _ = min p.length _ - _ ↔ _
  omega

theorem segment_settled (hstop : stop = 14 + (p.u16 16).toNat)
    (hp : p.queued = false) (hQ : ∀ a q, q.queued = false → (Q a q ↔ q.SizeTrue stop)) : Settled Q (LengthsAgree p) p.segment := by
  have hf := segment_fields p
  have hlen := tcphlen_le p
  intro a
  refine ⟨?_, fun b => ?_⟩
  · rw [hQ a _ (hf.queued.trans hp), hstop, segment_size]
  · rw [hQ a _ ?_, hstop, received_size, segment_size]
    · rw [hf.data, withPayload_data]; omega
    · omega
    · rw [hf.data, hf.size, withPayload_stop]
    · exact (received_queued b _).trans (hf.queued.trans hp)

def chksumGood (e : Env) (p : Pbuf) : Bool :=
  e.tcpRxOffload || p.inetSum 34 (p.tcpTotal.setWidth 16) (p.u32 30) (p.u32 26) 6 = 0

/-- A segment was received as far as `tcp_input` reads it, and its lengths agree. -/
structure SegmentFits (e : Env) (p : Pbuf) : Prop where
  head : 53 < p.length
  stop : 14 + (p.u16 16).toNat < payloadMax
  lengths : LengthsAgree p
  options : DemuxFits e (p.u32 30) (p.u32 26) p.tcphlen p.segment

def TcpFits (e : Env) (p : Pbuf) : Prop :=
  46 < p.length ∧
    (20 ≤ p.tcphlen → ipAddrIsbroadcast (p.u32 30) e.netmask = false → ipAddrIsmulticast (p.u32 30) = false →
      (e.tcpRxOffload = false → p.Holds 34 (p.tcpTotal.setWidth 16).toNat) ∧ (chksumGood e p = true → SegmentFits e p))

theorem sumLoop_congr (h : q.payload = p.payload) (len o : Nat) (sum : BitVec 32) :
    q.sumLoop len o sum = p.sumLoop len o sum := by
  induction len, o, sum using chksumLoop.induct with
  | case1 o sum => rfl
  | case2 o sum => unfold Pbuf.sumLoop Pbuf.u8; rw [h]
  | case3 len o sum ih => unfold Pbuf.sumLoop; rw [ih]; unfold Pbuf.u16; rw [h]

theorem ends_tcpChksumBad {R : Bool → Pbuf → Prop} (hlen : q.length = p.length)
    (hpay : q.payload = p.payload) : Ends (tcpChksumBad e (p.u32 30) (p.u32 26) p.tcpTotal) q R ↔
      (e.tcpRxOffload = false → p.Holds 34 (p.tcpTotal.setWidth 16).toNat) ∧ R (!chksumGood e p) q := by
  unfold tcpChksumBad chksumGood
  cases e.tcpRxOffload with
  | true => exact (and_iff_right fun h => absurd h (by decide)).symm
  | false =>
    rw [ends_of_neg (by decide), ends_bind, ends_inetChksum, imp_iff_right rfl]
    unfold Pbuf.Holds Pbuf.inetSum
    rw [hlen, sumLoop_congr hpay, ends_pure, Bool.false_or, decide_not]

theorem ends_tcpPayload :
    Ends (tcpPayload p.tcphlen) { p with total := p.tcpTotal } R ↔
      14 + (p.u16 16).toNat < payloadMax ∧ R () (p.withPayload.put8 (14 + (p.u16 16).toNat) 0) := by
  change Ends (store8 (p.withPayload.data + p.withPayload.size).toNat 0) p.withPayload R ↔ _
  rw [ends_store8, withPayload_stop]
  rfl

theorem ends_tcpInput (hstop : stop = 14 + (p.u16 16).toNat) (hp : p.queued = false)
    (hs : p.sized = false) (hQ : ∀ a q, q.queued = false → (Q a q ↔ q.SizeTrue stop)) :
    Ends (tcpInput e) p Q ↔ TcpFits e p := by
  have hnone : ∀ a q, q.queued = false → q.sized = false → Q a q := fun a q h1 h2 =>
    (hQ a q h1).2 fun h => absurd (h2.symm.trans h) (by decide)
  unfold tcpInput TcpFits
  rw [ends_bind, ends_load8]
  refine and_congr_right fun hlen => ?_
  change Ends (if p.tcphlen < 20 then _ else _) p Q ↔ _
  by_cases hshort : p.tcphlen < 20
  · rw [ends_of_pos hshort, ends_pure]
    exact iff_of_true (hnone _ _ hp hs) fun h => absurd h (by omega)
  rw [ends_of_neg hshort, ends_bind, ends_load32, and_iff_right (show 30 + 4 ≤ p.length by omega), imp_iff_right (by omega)]
  by_cases hbroad : ipAddrIsbroadcast (p.u32 30) e.netmask = true
  · rw [ends_of_pos hbroad, ends_pure]
    exact iff_of_true (hnone _ _ hp hs) fun h => absurd (hbroad.symm.trans h) (by decide)
  rw [ends_of_neg hbroad, imp_iff_right (eq_false_of_ne_true hbroad)]
  by_cases hmulti : ipAddrIsmulticast (p.u32 30) = true
  · rw [ends_of_pos hmulti, ends_pure]
    exact iff_of_true (hnone _ _ hp hs) fun h => absurd (hmulti.symm.trans h) (by decide)
  rw [ends_of_neg hmulti, imp_iff_right (eq_false_of_ne_true hmulti), ends_bind, ends_load16,
    and_iff_right (show 16 + 2 ≤ p.length by omega)]
  rw [ends_bind, ends_modify, ends_bind, ends_load32, and_iff_right (show 26 + 4 ≤ p.length by omega)]
  change Ends (tcpChksumBad e (p.u32 30) (p.u32 26) p.tcpTotal >>= fun bad => if bad = true then pure .chksum else do
    tcpPayload p.tcphlen
    tcpHost
    tcpDemux e (p.u32 30) (p.u32 26) p.tcphlen) { p with total := p.tcpTotal } Q ↔ _
  rw [ends_bind, ends_tcpChksumBad (p := p) (q := { p with total := p.tcpTotal }) rfl rfl]
  refine and_congr_right fun _ => ?_
  by_cases hgood : chksumGood e p = true
  · rw [imp_iff_right hgood, hgood, ends_of_neg (by decide), ends_bind, ends_tcpPayload, ends_bind, ends_tcpHost]
    have hsegment : 54 ≤ p.length → 54 ≤ p.segment.length := fun h => by
      rw [(segment_fields p).length]; exact h
    constructor
    · rintro ⟨h1, h2, h3⟩
      obtain ⟨h3, h4⟩ := (ends_tcpDemux (hsegment h2) (segment_settled hstop hp hQ)).1 h3
      exact ⟨h2, h1, h4, h3⟩
    · intro h
      exact ⟨h.stop, h.head, (ends_tcpDemux (hsegment h.head) (segment_settled hstop hp hQ)).2 ⟨h.options, h.lengths⟩⟩
  · rw [eq_false_of_ne_true hgood, ends_of_pos (show (!false) = true from rfl), ends_pure]
    exact iff_of_true (hnone _ _ hp hs) (nofun)

end Onix.Net
