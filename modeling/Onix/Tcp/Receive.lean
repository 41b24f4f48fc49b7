/-
The receive stream of an established connection. In every run in which no read ends inside a
segment and each accepted segment has a sequence number that reads, as an `int`, at least as large
as those queued, what the calls of `tcp_recvmsg` returned is a prefix of the peer's bytes, and with
the queue empty it is everything received. A read that ends inside a segment advances its data
pointer by nothing and returns the same bytes again.
-/
import Onix.Tcp.Frame
import Onix.Lib.Serial

namespace Onix.Tcp

open List Onix.Lib

/-! ## Sequence numbers of one stream -/

variable {a b : Nat}

theorem seq_diff (x : Seq) (h1 : a < b + 2 ^ 31) (h2 : b < a + 2 ^ 31) :
    ((x + BitVec.ofNat 32 a) - (x + BitVec.ofNat 32 b)).toInt = (a : Int) - b :=
  serial_sub_toInt (by decide) x h1 h2

theorem seqLT_iff (x : Seq) (h1 : a < b + 2 ^ 31) (h2 : b < a + 2 ^ 31) :
    seqLT (x + BitVec.ofNat 32 a) (x + BitVec.ofNat 32 b) ↔ a < b := by
  unfold seqLT; rw [seq_diff x h1 h2]; omega

theorem seqLEQ_iff (x : Seq) (h1 : a < b + 2 ^ 31) (h2 : b < a + 2 ^ 31) :
    seqLEQ (x + BitVec.ofNat 32 a) (x + BitVec.ofNat 32 b) ↔ a ≤ b := by
  unfold seqLEQ; rw [seq_diff x h1 h2]; omega

theorem seqGT_iff (x : Seq) (h1 : a < b + 2 ^ 31) (h2 : b < a + 2 ^ 31) :
    seqGT (x + BitVec.ofNat 32 a) (x + BitVec.ofNat 32 b) ↔ b < a := by
  unfold seqGT; rw [seq_diff x h1 h2]; omega

/-! ## Vectors -/

def filled (iov : List Iovec) : List UInt8 := iov.flatMap Iovec.base

def room (iov : List Iovec) : Nat := (iov.map Iovec.size).sum

def Packed : List Iovec → Prop
  | [] => True
  | v :: iov => (0 < v.size → ∀ u ∈ iov, u.base = []) ∧ Packed iov

theorem filled_of_empty {iov : List Iovec} (h : ∀ u ∈ iov, u.base = []) : filled iov = [] := by
  simpa [filled, flatMap_eq_nil_iff] using h

theorem iovecWrite_zero (iov : List Iovec) (buf : List UInt8) : iovecWrite iov buf 0 = (iov, 0) := by
  cases iov <;> simp [iovecWrite]

theorem iovecWrite_spec : ∀ (iov : List Iovec) (buf : List UInt8) (count : Nat), count ≤ buf.length → Packed iov →
    ∃ iov', iovecWrite iov buf count = (iov', min count (room iov)) ∧
      filled iov' = filled iov ++ buf.take (min count (room iov)) ∧
      room iov' = room iov - min count (room iov) ∧ Packed iov'
  | [], buf, count, _, _ => ⟨[], by simp [iovecWrite, room, filled, Packed]⟩
  | v :: iov, buf, count, hb, hp => by
    by_cases hc : count = 0
    · subst hc
      exact ⟨v :: iov, by rw [iovecWrite_zero]; simp, by simp, by simp, hp⟩
    obtain ⟨len, hlen, hl1, hl2⟩ : ∃ len, len = (if count < v.size then count else v.size) ∧ len ≤ count ∧ len ≤ v.size := by
      refine ⟨_, rfl, ?_⟩; split <;> omega
    obtain ⟨iov', e, hf, hr, hp'⟩ := iovecWrite_spec iov (buf.drop len) (count - len) (by simp; omega) hp.2
    have hroom : room (v :: iov) = v.size + room iov := by simp [room]
    have hmin : min count (room (v :: iov)) = len + min (count - len) (room iov) := by
      rw [hroom, hlen]; split <;> omega
    refine ⟨⟨v.base ++ buf.take len, v.size - len⟩ :: iov', ?_, ?_, ?_, ?_, hp'⟩
    · rw [hmin]; simp only [iovecWrite, if_neg hc, ← hlen, e]
    · have e1 : filled (⟨v.base ++ buf.take len, v.size - len⟩ :: iov') = v.base ++ buf.take len ++ filled iov' := by
        simp [filled]
      have e2 : filled (v :: iov) = v.base ++ filled iov := by simp [filled]
      rw [e1, e2, hf, hmin]
      by_cases hv : v.size = 0
      · have h0 : len = 0 := by omega
        simp [h0]
      · rw [filled_of_empty (hp.1 (by omega))]
        simp [take_add]
    · rw [hmin]
      simp only [room, map_cons, sum_cons] at hr ⊢
      omega
    · intro hpos u hu
      -- a vector left with room took the last byte: the others are as they were
      have h0 : count - len = 0 := by
        simp only at hpos
        rw [hlen]; split <;> rename_i h2
        · omega
        · rw [hlen, if_neg h2] at hpos; omega
      rw [h0, iovecWrite_zero] at e
      obtain ⟨rfl, -⟩ := Prod.mk.inj e
      exact hp.1 (by simp only at hpos; omega) u hu

/-! ## The receive queue -/

def Pbuf.bytes (p : Pbuf) : List UInt8 := p.data.take p.size

def queued (l : List Pbuf) : List UInt8 := l.flatMap Pbuf.bytes

def pending (l : List Pbuf) : Nat := (l.map Pbuf.size).sum

/-- A queued segment; `length` is its size from the first read on. -/
structure SegOk (p : Pbuf) : Prop where
  pos : 0 < p.size
  len : p.size ≤ p.data.length
  lt : p.size < 65536
  count : p.count = 1
  kept : p.total ≠ 0 ∨ p.length = p.size

/-- A read of `left` bytes ends where a queued segment ends, or takes the whole queue. -/
def EndsOnSegment : Nat → List Pbuf → Prop
  | _, [] => True
  | left, p :: rest => left = 0 ∨ (p.size ≤ left ∧ EndsOnSegment (left - p.size) rest)

theorem length_queued {l : List Pbuf} (h : ∀ p ∈ l, SegOk p) : (queued l).length = pending l := by
  induction l with
  | nil => rfl
  | cons p l ih =>
    have := (h p (.head _)).len
    have := ih fun q hq => h q (.tail _ hq)
    simp only [queued, pending, Pbuf.bytes, flatMap_cons, length_append, length_take, map_cons,
      sum_cons] at *
    omega

theorem recvLoop_spec : ∀ (l : List Pbuf) (left : Nat) (iov : List Iovec) (wnd : Nat), (∀ p ∈ l, SegOk p) →
    EndsOnSegment left l → Packed iov → left ≤ room iov → wnd + pending l = tcpWindow →
    ∃ left' iov' wnd' rest, recvLoop l left iov wnd = .ok (left', iov', wnd', rest) ∧
      filled iov' ++ queued rest = filled iov ++ queued l ∧ (∀ p ∈ rest, SegOk p) ∧
      wnd' + pending rest = tcpWindow ∧ (pending l ≤ left → rest = [])
  | [], left, iov, wnd, _, _, _, _, hw => ⟨left, iov, wnd, [], rfl, rfl, by simp, hw, fun _ => rfl⟩
  | p :: rest, left, iov, wnd, hl, he, hp, hr, hw => by
    have hok := hl p (.head _)
    have hrest : ∀ q ∈ rest, SegOk q := fun q hq => hl q (.tail _ hq)
    have hpend : pending (p :: rest) = p.size + pending rest := by simp [pending]
    have hq : queued (p :: rest) = p.bytes ++ queued rest := by simp [queued]
    -- the first read of a segment notes its size
    obtain ⟨p', hp', hd, hs, hc, hlen⟩ : ∃ p' : Pbuf,
        p' = (if p.total ≠ 0 then { p with length := p.size, total := 0 } else p) ∧ p'.data = p.data ∧
        p'.size = p.size ∧ p'.count = 1 ∧ p'.length = p.size := by
      refine ⟨_, rfl, ?_⟩
      split
      · exact ⟨rfl, rfl, hok.count, rfl⟩
      · rename_i h; exact ⟨rfl, rfl, hok.count, hok.kept.resolve_left h⟩
    rcases he with rfl | ⟨hle, he⟩
    · refine ⟨0, iov, wnd, { p' with data := p'.data.drop 0, size := p'.size - 0 } :: rest, ?_, ?_, ?_, ?_, ?_⟩
      · have := hok.pos
        simp only [recvLoop, ← hp', hs, if_pos this, iovecWrite_zero]
        simp
      · simp [queued, Pbuf.bytes, hd, hs]
      · intro q hq
        rcases mem_cons.1 hq with rfl | hq
        · exact ⟨by simpa [hs] using hok.pos, by simpa [hs, hd] using hok.len, by simpa [hs] using hok.lt, hc,
            .inr (by simpa [hs] using hlen)⟩
        · exact hrest q hq
      · simpa [pending, hs] using hw
      · intro h0
        have := hok.pos
        rw [hpend] at h0; omega
    · obtain ⟨iov1, e, hf, hroom, hp1⟩ := iovecWrite_spec iov p.data p.size hok.len hp
      have hmin : min p.size (room iov) = p.size := by omega
      rw [hmin] at e hf hroom
      have hsum : (wnd + p.size) % 65536 = wnd + p.size := Nat.mod_eq_of_lt (by unfold tcpWindow at hw; omega)
      obtain ⟨left', iov', wnd', rest', h1, h2, h3, h4, h5⟩ := recvLoop_spec rest (left - p.size) iov1 (wnd + p.size) hrest he hp1
        (by omega) (by omega)
      refine ⟨left', iov', wnd', rest', ?_, ?_, h3, h4, fun h0 => h5 (by omega)⟩
      · have hnw : ¬ tcpWindow < wnd + p.size := by omega
        simp only [recvLoop, ← hp', hs, hd, if_neg (show ¬ left < p.size by omega), e, hc, hlen, hsum, if_neg hnw]
        simpa using h1
      · rw [h2, hf, hq, Pbuf.bytes, append_assoc]

/-! ## The stream -/

def slice (stream : Nat → UInt8) (off n : Nat) : List UInt8 := (List.range' off n).map stream

@[simp] theorem length_slice (stream : Nat → UInt8) (off n : Nat) : (slice stream off n).length = n := by simp [slice]

theorem slice_append (stream : Nat → UInt8) (off a b : Nat) :
    slice stream off a ++ slice stream (off + a) b = slice stream off (a + b) := by
  rw [slice, slice, slice, ← map_append, ← range'_append_1, Nat.add_comm off a]

theorem slice_drop (stream : Nat → UInt8) (off n k : Nat) : (slice stream off n).drop k = slice stream (off + k) (n - k) := by
  rw [slice, slice, ← map_drop, drop_range', Nat.mul_one]

theorem slice_prefix {stream : Nat → UInt8} {a b : List UInt8} (h : a ++ b = slice stream 0 (a.length + b.length)) :
    a = slice stream 0 a.length := by
  rw [← slice_append] at h
  exact (append_inj h (by simp)).1

/-- The receive side of an open connection: `out` was delivered, the queue holds what follows it in
the stream, and `rcv_nxt` and `rcv_wnd` account for both. -/
structure QueueInv (irs : Seq) (stream : Nat → UInt8) (out : List UInt8) (s : Pcb) : Prop where
  segs : ∀ p ∈ s.recved, SegOk p
  bytes : out ++ queued s.recved = slice stream 0 (out.length + pending s.recved)
  nxt : s.rcvNxt = irs + 1 + BitVec.ofNat 32 (out.length + pending s.recved)
  wnd : s.rcvWnd + pending s.recved = tcpWindow

variable {irs : Seq} {stream : Nat → UInt8} {out : List UInt8}

variable {s s' : Pcb}

theorem QueueInv.same (h : QueueInv irs stream out s) (e : SameRecv s s') : QueueInv irs stream out s' :=
  ⟨by rw [e.recved]; exact h.segs, by rw [e.recved]; exact h.bytes, by rw [e.rcvNxt, e.recved]; exact h.nxt,
    by rw [e.rcvWnd, e.recved]; exact h.wnd⟩

def FromPeer (irs : Seq) (stream : Nat → UInt8) (n : Nat) (g : Segment) : Prop :=
  g.flags.has tcpSyn = false ∧ ∃ off, g.seqno = irs + 1 + BitVec.ofNat 32 off ∧ g.data = slice stream off g.size ∧
    off + g.size < n + 2 ^ 31 ∧ n < off + 2 ^ 31

theorem add_ofNat (x : Seq) (a b : Nat) : x + BitVec.ofNat 32 a + BitVec.ofNat 32 b = x + BitVec.ofNat 32 (a + b) := by
  rw [BitVec.add_assoc, BitVec.ofNat_add]

theorem sub_ofNat (x : Seq) (h : b ≤ a) (hlt : a < b + 2 ^ 31) :
    ((x + BitVec.ofNat 32 a) - (x + BitVec.ofNat 32 b)).toNat = a - b := by
  have h1 := seq_diff x hlt (show b < a + 2 ^ 31 by omega)
  rw [BitVec.toInt_eq_toNat_cond] at h1
  split at h1 <;> omega

variable {g : Segment}

theorem trimSeg_stream {off n : Nat} (hseq : g.seqno = irs + 1 + BitVec.ofNat 32 off)
    (hdata : g.data = slice stream off g.size) (hnxt : s.rcvNxt = irs + 1 + BitVec.ofNat 32 n) (h1 : off ≤ n)
    (h2 : n < off + g.size) (h3 : n < off + 2 ^ 31) :
    (trimSeg s g).size = off + g.size - n ∧ (trimSeg s g).data = slice stream n (off + g.size - n) ∧
      (trimSeg s g).seqno = g.seqno ∧ (trimSeg s g).count = 1 ∧ (trimSeg s g).total ≠ 0 := by
  have hoff : (s.rcvNxt - g.seqno).toNat = n - off := by rw [hnxt, hseq, sub_ofNat _ h1 h3]
  unfold trimSeg
  split
  · refine ⟨?_, ?_, rfl, rfl, by simp [Segment.pbuf]⟩
    · simp only [Segment.pbuf, hoff]; omega
    · simp only [Segment.pbuf, hoff, hdata, slice_drop]
      congr 1 <;> omega
  · rename_i hlt
    rw [hseq, hnxt, seqLT_iff _ (by omega) (by omega)] at hlt
    obtain rfl : off = n := by omega
    refine ⟨?_, ?_, rfl, rfl, by simp [Segment.pbuf]⟩
    · simp only [Segment.pbuf]; omega
    · simp only [Segment.pbuf]; rw [hdata]; congr 1; omega

theorem QueueInv.extend {p : Pbuf} {m : Nat} (h : QueueInv irs stream out s) (hpos : 0 < m) (hlt : m < 65536)
    (hsize : p.size = m) (hdata : p.data = slice stream (out.length + pending s.recved) m) (hc : p.count = 1)
    (ht : p.total ≠ 0) (e1 : s'.recved = s.recved ++ [p])
    (e2 : s'.rcvNxt = irs + 1 + BitVec.ofNat 32 (out.length + pending s.recved + m)) (e3 : s'.rcvWnd + m = s.rcvWnd) :
    QueueInv irs stream out s' := by
  have hpend : pending s'.recved = pending s.recved + m := by rw [e1]; simp [pending, hsize]
  refine ⟨?_, ?_, ?_, ?_⟩
  · rw [e1]
    intro q hq
    rcases mem_append.1 hq with hq | hq
    · exact h.segs q hq
    · rw [mem_singleton.1 hq]
      exact ⟨by omega, by rw [hdata, length_slice, hsize], by omega, hc, .inl ht⟩
  · have hb : queued s'.recved = queued s.recved ++ slice stream (out.length + pending s.recved) m := by
      rw [e1]; simp [queued, Pbuf.bytes, hdata, hsize, take_of_length_le]
    have := slice_append stream 0 (out.length + pending s.recved) m
    rw [Nat.zero_add] at this
    rw [hb, ← append_assoc, h.bytes, this, hpend]; congr 1; omega
  · rw [e2, hpend]; congr 2; omega
  · have := h.wnd
    rw [hpend]; omega

theorem tcpUpdateBuf_stream (h : QueueInv irs stream out s) (hst : s.state = .established)
    (hg : FromPeer irs stream (out.length + pending s.recved) g) (hsz : g.size < 65536) (hv : tcpValidate s g)
    (ho : InOrder s g → ∀ p ∈ s.recved, p.seqno.toInt ≤ g.seqno.toInt) :
    QueueInv irs stream out (tcpUpdateBuf s g) ∧ (tcpUpdateBuf s g).state = .established := by
  obtain ⟨hsyn, off, hseq, hdata, h1, h2⟩ := hg
  set n := out.length + pending s.recved with hn
  have hend : g.seqno + BitVec.ofNat 32 g.size = irs + 1 + BitVec.ofNat 32 (off + g.size) := by rw [hseq, add_ofNat]
  have hnxt := h.nxt
  rcases tcpUpdateBuf_cases s g with ⟨-, hsame⟩ | ⟨hio, e1, e2, e3, e4⟩
  · exact ⟨h.same hsame, hsame.state.trans hst⟩
  refine ⟨?_, e1.trans hst⟩
  have hord := ho hio
  obtain ⟨hle, hgt⟩ := hio
  rw [hend, hnxt, seqLEQ_iff _ (by omega) (by omega)] at hle
  rw [hseq, hnxt, seqGT_iff _ (by omega) (by omega)] at hgt
  have hw := h.wnd
  -- the segment fits the window
  have hwnd : off + g.size ≤ n + s.rcvWnd := by
    simp only [tcpValidate, hsyn, Bool.false_eq_true, false_or, decide_eq_true_eq] at hv
    have := hv.1
    rw [hend, hnxt, add_ofNat, seqGT_iff _ (by omega) (by unfold tcpWindow at hw; omega)] at this
    omega
  obtain ⟨hps, hpd, hpk, hpc, hpt⟩ := trimSeg_stream hseq hdata hnxt (by omega) (by omega) (by omega)
  have hlast : insertSeg (trimSeg s g) s.recved = s.recved ++ [trimSeg s g] :=
    listInsertSort_last fun q hq => by rw [hpk]; exact hord q hq
  have hmod : (s.rcvWnd + 65536 - (trimSeg s g).size % 65536) % 65536 + (off + g.size - n) = s.rcvWnd := by
    unfold tcpWindow at hw
    rw [hps, Nat.mod_eq_of_lt (show off + g.size - n < 65536 by omega)]; omega
  rw [hst, if_neg (by decide), hlast] at e4
  refine h.extend (m := off + g.size - n) (by omega) (by omega) hps hpd hpc hpt e4 ?_ (by rw [e3]; exact hmod)
  rw [e2, hend, ← hn]; congr 2; omega

theorem tcpInput_stream (h : QueueInv irs stream out s) (hst : s.state = .established)
    (hg : FromPeer irs stream (out.length + pending s.recved) g) (hsz : g.size < 65536)
    (ho : InOrder s g → ∀ p ∈ s.recved, p.seqno.toInt ≤ g.seqno.toInt) (hs : tcpInput s g = .ok s') :
    s'.state = .established → QueueInv irs stream out s' := by
  unfold tcpInput at hs
  split at hs
  · cases hs; exact fun _ => h
  rename_i hv
  rw [if_neg (by rw [hst]; decide)] at hs
  split at hs
  · -- a reset closes the connection
    unfold tcpHandleReset at hs
    rw [if_neg (by rw [hst]; decide)] at hs
    obtain ⟨s1, -, hs⟩ := bind_ok hs
    cases hs; rintro ⟨⟩
  have hopt := tcpParseOption_recv g.options s
  generalize tcpParseOption s g.options = r at hs hopt
  obtain ⟨s1, ok⟩ := r
  dsimp only at hs hopt
  split at hs
  · cases hs; exact fun _ => h.same hopt
  have hsame : SameRecv s { s1 with idle := 0 } := hopt.trans ⟨rfl, rfl, rfl, rfl⟩
  generalize ({ s1 with idle := 0 } : Pcb) = s2 at hs hsame
  have hst2 : s2.state = .established := hsame.state.trans hst
  obtain ⟨s3, h3, hs⟩ := bind_ok hs
  have h3' : QueueInv irs stream out s3 ∧ s3.state = .established := by
    split at h3
    · obtain ⟨s4, h4, h3⟩ := bind_ok h3
      cases h3
      have hsame4 : SameRecv s s4 := by
        refine hsame.trans ?_
        split at h4
        · exact (tcpUpdateWnd_recv s2 g).trans (tcpUpdateAck_recv h4)
        · cases h4; exact .refl _
      split
      · refine tcpUpdateBuf_stream (h.same hsame4) (hsame4.state.trans hst) (by rw [hsame4.recved]; exact hg) hsz ?_ ?_
        · unfold tcpValidate at hv ⊢
          rw [hsame4.rcvNxt, hsame4.rcvWnd]; exact not_not.1 hv
        · unfold InOrder at ho ⊢
          rw [hsame4.rcvNxt, hsame4.recved]; exact ho
      · exact ⟨h.same hsame4, hsame4.state.trans hst⟩
    · cases h3; exact ⟨h.same hsame, hst2⟩
  obtain ⟨h3, hst3⟩ := h3'
  unfold processState at hs
  rw [hst3] at hs
  dsimp only at hs
  split at hs
  · cases hs; rintro ⟨⟩
  · cases hs; exact fun _ => h3

/-! ## Runs -/

/-- A connection just established with a peer whose initial sequence number is `irs`. -/
def Opened (irs : Seq) (s : State) : Prop :=
  s.pcb.state = .established ∧ s.pcb.rcvNxt = irs + 1 ∧ s.pcb.rcvWnd = tcpWindow ∧ s.pcb.recved = [] ∧ s.delivered = []

def connection (irs : Seq) : Machine State Act Fault where
  start := Opened irs
  enabled := enabled
  step := step

def Peer (irs : Seq) (stream : Nat → UInt8) (s : State) (a : Act) : Prop :=
  s.pcb.state = .established ∧ match a with
  | .input g => FromPeer irs stream (s.delivered.length + pending s.pcb.recved) g
  | _ => True

/-- The steps that keep the stream: an accepted segment has a sequence number that reads, as an `int`,
at least as large as those of the queue; and a read ends where a queued segment ends, or takes the
whole queue. -/
def Streams (irs : Seq) (stream : Nat → UInt8) (s : State) (a : Act) : Prop :=
  Peer irs stream s a ∧ match a with
  | .input g => InOrder s.pcb g → ∀ p ∈ s.pcb.recved, p.seqno.toInt ≤ g.seqno.toInt
  | .recv sizes | .resume sizes => EndsOnSegment (sizes.sum % 2 ^ 32) s.pcb.recved
  | _ => True

/-- What the reads returned is a prefix of the stream; while the connection is open, what they returned
and the queue make up all bytes before `rcv_nxt`. -/
structure RecvInv (irs : Seq) (stream : Nat → UInt8) (s : State) : Prop where
  delivered : s.delivered = slice stream 0 s.delivered.length
  queue : s.pcb.state = .established → QueueInv irs stream s.delivered s.pcb

theorem opened_inv {s : State} (h : Opened irs s) : RecvInv irs stream s := by
  obtain ⟨-, h2, h3, h4, h5⟩ := h
  refine ⟨by rw [h5]; rfl, fun _ => ⟨by simp [h4], ?_, ?_, ?_⟩⟩
  · rw [h4, h5]; rfl
  · rw [h4, h5, h2]; simp [pending]
  · rw [h4, h3]; rfl

theorem packed_of_empty : ∀ {iov : List Iovec}, (∀ u ∈ iov, u.base = []) → Packed iov
  | [], _ => trivial
  | _ :: _, h => ⟨fun _ u hu => h u (.tail _ hu), packed_of_empty fun u hu => h u (.tail _ hu)⟩

theorem freshVectors (sizes : List Nat) :
    ((sizes.map fun n => (⟨[], n⟩ : Iovec)).map Iovec.size).sum = sizes.sum ∧
      ∀ u ∈ sizes.map fun n => (⟨[], n⟩ : Iovec), u.base = [] := by
  refine ⟨?_, fun u hu => ?_⟩
  · rw [map_map]; exact congrArg sum (map_id _)
  · obtain ⟨n, -, rfl⟩ := mem_map.1 hu; rfl

theorem recvQueued_stream {iov' : List Iovec} {sizes : List Nat} (h : QueueInv irs stream out s)
    (he : EndsOnSegment (sizes.sum % 2 ^ 32) s.recved) (hs : recvQueued s (sizes.map fun n => ⟨[], n⟩) = .ok (s', iov')) :
    QueueInv irs stream (out ++ filled iov') s' ∧
      (out ++ filled iov').length + pending s'.recved = out.length + pending s.recved ∧
      (pending s.recved ≤ sizes.sum % 2 ^ 32 → s'.recved = []) := by
  obtain ⟨hsum, hbase⟩ := freshVectors sizes
  unfold recvQueued at hs
  rw [hsum] at hs
  dsimp only at hs
  split at hs
  · cases hs
  obtain ⟨left', iov1, wnd', rest, h1, h2, h3, h4, h5⟩ := recvLoop_spec s.recved (sizes.sum % 2 ^ 32)
    (sizes.map fun n => ⟨[], n⟩) s.rcvWnd h.segs he (packed_of_empty hbase) (by rw [room, hsum]; exact Nat.mod_le _ _) h.wnd
  rw [h1] at hs
  obtain ⟨rfl, rfl⟩ := Prod.mk.inj (Except.ok.inj hs)
  rw [filled_of_empty hbase, nil_append] at h2
  have hlen : (filled iov1).length + pending rest = pending s.recved := by
    rw [← length_queued h.segs, ← h2, length_append, length_queued h3]
  have htotal : (out ++ filled iov1).length + pending rest = out.length + pending s.recved := by
    rw [length_append]; omega
  refine ⟨⟨h3, ?_, ?_, h4⟩, htotal, h5⟩
  · show out ++ filled iov1 ++ queued rest = slice stream 0 ((out ++ filled iov1).length + pending rest)
    rw [append_assoc, h2, h.bytes, length_append]; congr 1; omega
  · show s.rcvNxt = irs + 1 + BitVec.ofNat 32 ((out ++ filled iov1).length + pending rest)
    rw [h.nxt, length_append]; congr 2; omega

theorem QueueInv.delivered (h : QueueInv irs stream out s) : out = slice stream 0 out.length := by
  refine slice_prefix (b := queued s.recved) ?_
  rw [h.bytes, length_queued h.segs]

theorem tcpPcbPurge_state (h : tcpPcbPurge s = .ok s') : s'.state = s.state := by
  unfold tcpPcbPurge at h
  split at h
  · cases h
  · cases h; rfl

theorem tcpTimeout_stream {type : TcpTimer} (hs : tcpTimeout s type = .ok s') :
    SameRecv s s' ∨ s'.state = .closed := by
  have hclose : ∀ {t : Pcb}, (do let s ← tcpPcbPurge t; pure { s with state := .closed } : Except Fault Pcb) = .ok s' →
      s'.state = .closed := by
    intro t h
    obtain ⟨s1, -, h⟩ := bind_ok h
    cases h; rfl
  unfold tcpTimeout at hs
  cases type with
  | syn =>
    dsimp only at hs
    split at hs
    · cases hs; exact .inl (.refl s)
    · exact .inr (hclose hs)
  | rexmit =>
    dsimp only at hs
    split at hs
    · exact .inr (hclose hs)
    · have := tcpRexmit_recv hs
      exact .inl ⟨this.state, this.recved, this.rcvNxt, this.rcvWnd⟩
  | persist =>
    cases hs
    split <;> exact .inl ⟨rfl, rfl, rfl, rfl⟩
  | keepalive =>
    dsimp only at hs
    split at hs
    · cases hs; exact .inl (.refl s)
    · exact .inr (hclose hs)
  | finWait2 => exact .inr (tcpPcbPurge_state hs)
  | timewait => exact .inr (tcpPcbPurge_state hs)

theorem tcpClose_stream (hst : s.state = .established) (hs : tcpClose s = .ok s') :
    s'.state = .finWait1 := by
  unfold tcpClose at hs
  rw [hst] at hs
  obtain ⟨s1, -, hs⟩ := bind_ok hs
  exact (tcpOutput_recv hs).state

theorem step_stream {s s' : State} {a : Act} (h : RecvInv irs stream s) (hc : Streams irs stream s a)
    (he : enabled s a) (hs : step s a = .ok s') : RecvInv irs stream s' := by
  obtain ⟨⟨hst, hpeer⟩, hc⟩ := hc
  have hq := h.queue hst
  -- a step of the send side
  have hsend : ∀ {p : Pcb}, SameRecv s.pcb p → RecvInv irs stream { s with pcb := p } := fun e =>
    ⟨h.delivered, fun _ => hq.same e⟩
  have hread : ∀ {sizes : List Nat} {r : Pcb × List Iovec}, EndsOnSegment (sizes.sum % 2 ^ 32) s.pcb.recved →
      recvQueued s.pcb (sizes.map fun n => ⟨[], n⟩) = .ok r →
      RecvInv irs stream { s with pcb := r.1, delivered := s.delivered ++ r.2.flatMap Iovec.base } := by
    rintro sizes ⟨p, iov⟩ he hr
    have h1 := (recvQueued_stream hq he hr).1
    exact ⟨h1.delivered, fun _ => h1⟩
  cases a with
  | connect =>
    obtain ⟨p, h1, hs⟩ := bind_ok hs
    cases hs
    unfold tcpConnect at h1
    rw [if_pos (by rw [hst]; decide)] at h1
    cases h1; exact hsend (.refl _)
  | input g =>
    obtain ⟨p, h1, hs⟩ := bind_ok hs
    cases hs
    exact ⟨h.delivered, tcpInput_stream hq hst hpeer he.1 hc h1⟩
  | send iov flags =>
    obtain ⟨p, h1, hs⟩ := bind_ok hs
    cases hs; exact hsend (tcpSendmsg_recv h1)
  | recv sizes =>
    obtain ⟨r, h1, hs⟩ := bind_ok hs
    cases hs
    unfold tcpRecvmsg at h1
    split at h1
    · cases h1
      have : ((sizes.map fun n => (⟨[], n⟩ : Iovec)).flatMap Iovec.base) = [] := by
        simp [flatMap_eq_nil_iff]
      rw [this, append_nil]; exact hsend (.refl _)
    · exact hread hc h1
  | resume sizes =>
    obtain ⟨r, h1, hs⟩ := bind_ok hs
    cases hs; exact hread hc h1
  | setsockopt opt val =>
    cases hs
    exact hsend (by cases opt <;> exact ⟨rfl, rfl, rfl, rfl⟩)
  | close =>
    obtain ⟨p, h1, hs⟩ := bind_ok hs
    cases hs
    exact ⟨h.delivered, fun hp => by rw [tcpClose_stream hst h1] at hp; cases hp⟩
  | timeout type =>
    obtain ⟨p, h1, hs⟩ := bind_ok hs
    cases hs
    rcases tcpTimeout_stream h1 with e | e
    · exact hsend e
    · exact ⟨h.delivered, fun hp => by rw [e] at hp; cases hp⟩
  | slowtimo => cases hs; exact hsend ⟨rfl, rfl, rfl, rfl⟩
  | fastimo =>
    obtain ⟨p, h1, hs⟩ := bind_ok hs
    cases hs; exact hsend (tcpFastimo_recv h1)
  | sent i => cases hs; exact hsend ⟨rfl, rfl, rfl, rfl⟩

theorem endsOnSegment_of_le {l : List Pbuf} : ∀ {left : Nat}, pending l ≤ left → EndsOnSegment left l := by
  induction l with
  | nil => exact fun _ => trivial
  | cons p l ih =>
    intro left h
    have hp : pending (p :: l) = p.size + pending l := by simp [pending]
    exact .inr ⟨by omega, ih (by omega)⟩

theorem recvQueued_ok {sizes : List Nat} (h : QueueInv irs stream out s)
    (he : EndsOnSegment (sizes.sum % 2 ^ 32) s.recved) (h0 : sizes.sum % 2 ^ 32 ≠ 0) :
    ∃ r, recvQueued s (sizes.map fun n => ⟨[], n⟩) = .ok r := by
  obtain ⟨hsum, hbase⟩ := freshVectors sizes
  obtain ⟨left', iov1, wnd', rest, h1, -⟩ := recvLoop_spec s.recved (sizes.sum % 2 ^ 32)
    (sizes.map fun n => ⟨[], n⟩) s.rcvWnd h.segs he (packed_of_empty hbase) (by rw [room, hsum]; exact Nat.mod_le _ _) h.wnd
  unfold recvQueued
  rw [hsum]
  rw [if_neg h0, h1]
  exact ⟨_, rfl⟩

theorem reach_stream {s : State} (h : (connection irs).Reach (Streams irs stream) s) : RecvInv irs stream s :=
  h.inv (fun _ => opened_inv) fun _ _ _ hi hc hs => step_stream hi hc hs.1 hs.2

/-- The receive stream: in every run whose steps meet the condition the bytes the reads returned are a
prefix of the peer's; while the connection is open they and the queue are all bytes before `rcv_nxt`,
and a read with room for the queue brings what was returned up to there. -/
theorem recv_stream {s : State} (h : (connection irs).Reach (Streams irs stream) s) :
    s.delivered = slice stream 0 s.delivered.length ∧
      (s.pcb.state = .established →
        s.pcb.rcvNxt = irs + 1 + BitVec.ofNat 32 (s.delivered.length + pending s.pcb.recved) ∧
        ∀ sizes : List Nat, sizes.sum % 2 ^ 32 ≠ 0 → pending s.pcb.recved ≤ sizes.sum % 2 ^ 32 →
          ∃ s', step s (.recv sizes) = .ok s' ∧
            s'.delivered = slice stream 0 (s.delivered.length + pending s.pcb.recved)) := by
  have hi := reach_stream h
  refine ⟨hi.delivered, fun hst => ⟨(hi.queue hst).nxt, fun sizes h0 hle => ?_⟩⟩
  have hq := hi.queue hst
  obtain ⟨-, hbase⟩ := freshVectors sizes
  by_cases hnil : s.pcb.recved = []
  · refine ⟨s, ?_, ?_⟩
    · have hr : tcpRecvmsg s.pcb (sizes.map fun n => ⟨[], n⟩) = .ok (s.pcb, sizes.map fun n => ⟨[], n⟩) := by
        unfold tcpRecvmsg; rw [if_pos (.inr hnil)]
      have hf := filled_of_empty hbase
      unfold filled at hf
      simp only [step, hr]
      show Except.ok { s with pcb := s.pcb, delivered := s.delivered ++ _ } = _
      rw [hf, List.append_nil]
    · rw [hnil]; exact hi.delivered
  · have he := endsOnSegment_of_le hle
    obtain ⟨⟨p, iov⟩, hr⟩ := recvQueued_ok hq he h0
    obtain ⟨h1, h3, h2⟩ := recvQueued_stream hq he hr
    refine ⟨{ s with pcb := p, delivered := s.delivered ++ filled iov }, ?_, ?_⟩
    · have hr' : tcpRecvmsg s.pcb (sizes.map fun n => ⟨[], n⟩) = .ok (p, iov) := by
        unfold tcpRecvmsg
        rw [if_neg (by rintro (h3 | h3); exact h3 hst; exact hnil h3)]; exact hr
      simp only [step, hr']; rfl
    · rw [h2 hle] at h3
      rw [← h3]; exact h1.delivered

def openPcb : Pcb := { tcpPcbGet 5 with state := .established, rcvNxt := 8 }

def firstSeg : Segment := ⟨8, 5, tcpAck, 4096, [], [1, 2, 3, 4]⟩

def queuedPcb : Pcb :=
  { openPcb with
    sndWnd := 4096, sndWl1 := 8, sndWl2 := 5, sndMwnd := 4096, ackDelay := true
    rcvNxt := 12, rcvWnd := 8188, recved := [firstSeg.pbuf] }

theorem firstSeg_input : (connection 7).Steps ⟨openPcb, true, []⟩ (Act.input firstSeg) ⟨queuedPcb, true, []⟩ :=
  ⟨(by decide : enabled ⟨openPcb, true, []⟩ (Act.input firstSeg)), rfl⟩

theorem firstSeg_fromPeer : FromPeer 7 (fun i => UInt8.ofNat (i + 1)) 0 firstSeg :=
  ⟨by decide, 0, by decide, by decide, by decide, by decide⟩

/-- A segment of four bytes and one read for all of it. -/
theorem recv_stream_segment : ∃ s, (connection 7).Reach (Streams 7 fun i => UInt8.ofNat (i + 1)) s ∧
    s.delivered = [1, 2, 3, 4] ∧ s.delivered = slice (fun i => UInt8.ofNat (i + 1)) 0 s.delivered.length := by
  let s0 : State := ⟨openPcb, true, []⟩
  let s2 : State := ⟨{ queuedPcb with rcvWnd := 8192, recved := [] }, true, [1, 2, 3, 4]⟩
  have h2 : (connection 7).Steps ⟨queuedPcb, true, []⟩ (Act.recv [4]) s2 := ⟨⟨rfl, by decide⟩, rfl⟩
  have hr : (connection 7).Reach (Streams 7 fun i => UInt8.ofNat (i + 1)) s2 := by
    refine ⟨s0, ⟨rfl, rfl, rfl, rfl, rfl⟩, .tail (.tail (.refl s0) ⟨⟨rfl, firstSeg_fromPeer⟩, ?_⟩ firstSeg_input)
      ⟨⟨rfl, trivial⟩, ?_⟩ h2⟩
    · rintro - p ⟨⟩
    · exact .inr ⟨by decide, trivial⟩
  exact ⟨s2, hr, rfl, (recv_stream hr).1⟩

/-- The same segment read two bytes at a time: both reads return its first two bytes. -/
theorem read_twice : ∃ s, (connection 7).Reach (Peer 7 fun i => UInt8.ofNat (i + 1)) s ∧
    s.delivered = [1, 2, 1, 2] ∧ s.delivered ≠ slice (fun i => UInt8.ofNat (i + 1)) 0 s.delivered.length := by
  let p2 : Pcb := { queuedPcb with recved := [{ firstSeg.pbuf with length := 4, total := 0 }] }
  let s0 : State := ⟨openPcb, true, []⟩
  let s2 : State := ⟨p2, true, [1, 2]⟩
  let s3 : State := ⟨p2, true, [1, 2, 1, 2]⟩
  have h2 : (connection 7).Steps ⟨queuedPcb, true, []⟩ (Act.recv [2]) s2 := ⟨⟨rfl, by decide⟩, rfl⟩
  have h3 : (connection 7).Steps s2 (Act.recv [2]) s3 := ⟨⟨rfl, by decide⟩, rfl⟩
  refine ⟨s3, ⟨s0, ⟨rfl, rfl, rfl, rfl, rfl⟩, ?_⟩, rfl, by decide⟩
  exact .tail (.tail (.tail (.refl s0) ⟨rfl, firstSeg_fromPeer⟩ firstSeg_input) ⟨rfl, trivial⟩ h2) ⟨rfl, trivial⟩ h3

end Onix.Tcp
