/-
When a received frame stays within its buffer: `Fits` puts the conditions of the protocols together
along the way `ip_input` takes with the frame, up to the copy `udp_recvmsg` makes of it.
-/
import Onix.Net.Segment

namespace Onix.Net

open Onix.Lib

/-! ## A frame -/

/-- The frame `raw_input` gets: the length and the id in host order. -/
def Pbuf.ipHost (p : Pbuf) : Pbuf := (p.hostS 16).hostS 18

def Pbuf.eaten (e : Env) (p : Pbuf) : Bool := e.raws.any fun b => b.recv (p.u32 26) (p.u32 30) (p.u8 23)

/-- A datagram was received as far as `udp_input` reads it and, when a socket waits for it,
`udp_recvmsg`. -/
def UdpFits (e : Env) (iov : List Nat) (p : Pbuf) : Prop :=
  37 < p.length ∧ (p.udpHost.udpPcb e ≠ none → RecvFits iov p.udpHost)

def ProtoFits (e : Env) (iov : List Nat) (p : Pbuf) : Prop :=
  (p.u8 23 = 6 → TcpFits e p) ∧ (p.u8 23 = 17 → UdpFits e iov p) ∧ (p.u8 23 = 1 → IcmpFits e p)

/-- `ip_input` goes past the version, the time to live, the header length and the fragment flag. -/
def HeadGood (p : Pbuf) : Prop := p.u8 22 ≠ 0 ∧ p.u8 14 &&& 15 = 5 ∧ p.u8 20 >>> 5 &&& 4 = 0

/-- A frame was received as far as the input path reads it, and the lengths of its headers agree
where the code relies on them. -/
def Fits (e : Env) (iov : List Nat) (p : Pbuf) : Prop :=
  14 < p.length ∧ (p.u8 14 >>> 4 = 4 → 22 < p.length ∧ (HeadGood p → 33 < p.length ∧
    (p.u32 30 = e.ipaddr → p.ipHost.eaten e = false → ProtoFits e iov p.ipHost)))

def Pbuf.ipStop (p : Pbuf) : Nat := 14 + (p.ipHost.u16 16).toNat

/-- A buffer the device filled: on no list, its `size` left from the frame before. -/
def Pbuf.arrive (p : Pbuf) : Pbuf := { p with queued := false, sized := false }

/-- Once `ip_input` is done: a queued datagram is read, and a size that was set is true. -/
def Handed (iov : List Nat) (stop : Nat) (p : Pbuf) : Prop := (p.queued = true → RecvFits iov p) ∧ p.SizeTrue stop

variable {iov : List Nat} {stop : Nat}
variable {p : Pbuf}

theorem handed_of_unsized (hp : p.queued = false) (hs : p.sized = false) : Handed iov stop p :=
  ⟨fun h => absurd (hp.symm.trans h) (by decide), fun h => absurd (hs.symm.trans h) (by decide)⟩

theorem handed_queued (hs : p.sized = false) : Handed iov stop { p with queued := true } ↔ RecvFits iov p :=
  ⟨fun h => h.1 rfl, fun h => ⟨fun _ => h, fun h => absurd (hs.symm.trans h) (by decide)⟩⟩

theorem handed_iff (hp : p.queued = false) : Handed iov stop p ↔ p.SizeTrue stop :=
  and_iff_right fun h => absurd (hp.symm.trans h) (by decide)

theorem ends_ipDeliver {e : Env} (hp : p.queued = false) (hs : p.sized = false) (hlen : 33 < p.length) :
    Ends (ipDeliver e) p (fun _ => Handed iov p.ipStop) ↔ (p.ipHost.eaten e = false → ProtoFits e iov p.ipHost) := by
  have hin : ∀ n, n ≤ 34 → n ≤ p.length := fun n h => Nat.le_trans h hlen
  have hsame : SameFields p p.ipHost := (SameFields.refl p).hostS.hostS
  have hp' : p.ipHost.queued = false := hsame.queued.trans hp
  have hs' : p.ipHost.sized = false := hsame.sized.trans hs
  have hlen' : 34 ≤ p.ipHost.length := by rw [hsame.length]; exact hlen
  have hin' : ∀ n, n ≤ 34 → n ≤ p.ipHost.length := fun n h => Nat.le_trans h hlen'
  unfold ipDeliver
  rw [ends_bind, ends_ntohsAt, and_iff_right ⟨hin _ (by decide), by decide⟩, ends_bind, ends_ntohsAt,
    and_iff_right ⟨hin _ (by decide), by decide⟩, ends_bind]
  change Ends (rawInput e) p.ipHost _ ↔ _
  unfold rawInput
  simp only [ends_bind, ends_load32, ends_load8, ends_pure, hin', Nat.reduceAdd, Nat.reduceLeDiff, true_and]
  change Ends (if p.ipHost.eaten e = true then _ else _) p.ipHost _ ↔ _
  by_cases heaten : p.ipHost.eaten e = true
  · rw [ends_of_pos heaten, ends_pure]
    exact iff_of_true (handed_of_unsized hp' hs') fun h => absurd (heaten.symm.trans h) (by decide)
  rw [ends_of_neg heaten, imp_iff_right (eq_false_of_ne_true heaten), ends_bind, ends_load8, and_iff_right (hin' _ (by decide))]
  unfold ProtoFits
  by_cases h6 : p.ipHost.u8 23 = 6
  · rw [ends_of_pos h6, h6]
    refine (ends_tcpInput rfl hp' hs' fun _ q hq => handed_iff hq).trans ?_
    exact ⟨fun h => ⟨fun _ => h, fun h => absurd h (by decide), fun h => absurd h (by decide)⟩, fun h => h.1 rfl⟩
  rw [ends_of_neg h6]
  by_cases h17 : p.ipHost.u8 23 = 17
  · rw [ends_of_pos h17, ends_udpInput, h17]
    have hudp : SameFields p.ipHost p.ipHost.udpHost := (SameFields.refl _).hostS.hostS
    have hnone : Handed iov p.ipStop p.ipHost.udpHost :=
      handed_of_unsized (hudp.queued.trans hp') (hudp.sized.trans hs')
    rw [handed_queued (hudp.sized.trans hs')]
    exact ⟨fun h => ⟨fun h => absurd h (by decide), fun _ => ⟨h.1, h.2.2⟩, fun h => absurd h (by decide)⟩,
      fun h => ⟨(h.2.1 rfl).1, fun _ => hnone, (h.2.1 rfl).2⟩⟩
  rw [ends_of_neg h17]
  by_cases h1 : p.ipHost.u8 23 = 1
  · rw [ends_of_pos h1]
    refine (ends_icmpInput (S := True) hlen' fun _ q hq =>
      iff_true_intro (handed_of_unsized (hq.queued.trans hp') (hq.sized.trans hs'))).trans ?_
    rw [and_true]
    exact ⟨fun h => ⟨fun h => absurd h h6, fun h => absurd h h17, fun _ => h⟩, fun h => h.2.2 h1⟩
  · rw [ends_of_neg h1, ends_pure]
    exact iff_of_true (handed_of_unsized hp' hs') ⟨fun h => absurd h h6, fun h => absurd h h17, fun h => absurd h h1⟩

theorem ends_ipInput {e : Env} (hp : p.queued = false) (hs : p.sized = false) :
    Ends (ipInput e) p (fun _ => Handed iov p.ipStop) ↔ Fits e iov p := by
  have hnone : Handed iov p.ipStop p := handed_of_unsized hp hs
  unfold ipInput Fits
  rw [ends_bind, ends_load8]
  refine and_congr_right fun _ => ?_
  by_cases hversion : p.u8 14 >>> 4 = 4
  · rw [ends_of_neg (not_not.2 hversion), imp_iff_right hversion, ends_bind, ends_load8]
    refine and_congr_right fun _ => ?_
    by_cases httl : p.u8 22 = 0
    · rw [ends_of_pos httl, ends_pure]
      exact iff_of_true hnone fun h => absurd httl h.1
    rw [ends_of_neg httl]
    by_cases hheader : p.u8 14 &&& 15 = 5
    · rw [ends_of_neg (not_not.2 hheader), ends_bind, ends_load8, and_iff_right (show 20 + 1 ≤ p.length by omega)]
      by_cases hflags : p.u8 20 >>> 5 &&& 4 = 0
      · rw [ends_of_neg (not_not.2 hflags), imp_iff_right ⟨httl, hheader, hflags⟩, ends_bind, ends_load32]
        refine and_congr_right fun hlen => ?_
        by_cases hdst : p.u32 30 = e.ipaddr
        · rw [ends_of_neg (not_not.2 hdst), imp_iff_right hdst]
          exact ends_ipDeliver hp hs hlen
        · rw [ends_of_pos hdst, ends_pure]
          exact iff_of_true hnone fun h => absurd h hdst
      · rw [ends_of_pos hflags, ends_pure]
        exact iff_of_true hnone fun h => absurd h.2.2 hflags
    · rw [ends_of_pos hheader, ends_pure]
      exact iff_of_true hnone fun h => absurd h.2.1 hheader
  · rw [ends_of_pos hversion, ends_pure]
    exact iff_of_true hnone fun h => absurd h hversion

/-- **Received-frame bounds**: a frame of any content and length goes through the input path, up to
the copy to the receiver, without an access outside of what was received or of the buffer, and leaves
a true size, exactly when it `Fits`. -/
theorem receive_fits (e : Env) (iov : List Nat) (name : Bool) (p : Pbuf) :
    Ends (receive e iov name) p.arrive (fun _ t => t.SizeTrue p.arrive.ipStop) ↔ Fits e iov p.arrive := by
  unfold receive
  rw [ends_bind, ← ends_ipInput rfl rfl]
  refine ends_congr fun _ t => ?_
  rw [ends_bind, ends_get]
  by_cases hqueued : t.queued = true
  · rw [ends_of_pos hqueued, ends_bind]
    refine Iff.trans (ends_udpRecvmsg (S := t.SizeTrue p.arrive.ipStop) fun _ => .rfl) ?_
    exact and_congr_left fun _ => (imp_iff_right hqueued).symm
  · rw [ends_of_neg hqueued, ends_pure, handed_iff (eq_false_of_ne_true hqueued)]

/-! ## A datagram shorter than it says -/

def host : Env := ⟨0x0200000A, 0x00FFFFFF, true, true, [], [⟨0, 0, 7, 9⟩], [], [], []⟩

/-- The IP and UDP headers of a datagram from port 9 to port 7: the IP length is 46, the UDP length 1000. -/
def longDatagram : List (BitVec 8) :=
  [0x45, 0, 0, 46, 0, 0, 0, 0, 64, 17, 0, 0, 10, 0, 0, 1, 10, 0, 0, 2, 0, 9, 0, 7, 0x03, 0xE8, 0, 0]

def frame (packet : List (BitVec 8)) : Pbuf :=
  ⟨60, fun o => if o < 14 then 0 else packet.getD (o - 14) 0, 0, 0, 0, 0, false, false⟩

/-- Nothing compares the UDP length with the frame: `udp_recvmsg` copies 992 bytes from offset 42 of
the 60 received. -/
theorem read_past : (frame longDatagram).length ≤ payloadMax ∧
    ¬ Ends (receive host [1024] false) (frame longDatagram).arrive fun _ t => t.SizeTrue (frame longDatagram).arrive.ipStop := by
  refine ⟨by decide, fun h => ?_⟩
  have hfail : (receive host [1024] false (frame longDatagram).arrive).isOk = false := by decide +kernel
  rw [h.isOk] at hfail; cases hfail

end Onix.Net
