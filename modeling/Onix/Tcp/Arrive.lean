/-
The peer's stream as it arrives: a history beside the connection that holds the peer's initial
sequence number, the pieces of its data that came in order, whether its `FIN` did, and the pieces the
reads used up. The receive side of the pcb is compared with it.
-/
import Onix.Tcp.Window

namespace Onix.Tcp

open Onix.Lib

structure Arrived where
  irs : Seq
  pieces : List (List UInt8)
  fin : Bool
  returned : List (List UInt8)

namespace Arrived

def fresh (irs : Seq) : Arrived := ⟨irs, [], false, []⟩

def bytes (r : Arrived) : Nat := (r.pieces.map List.length).sum

/-- The next sequence number: one for the `SYN`, one for each byte, one for the `FIN`. -/
def nxt (r : Arrived) : Seq := r.irs + 1 + BitVec.ofNat 32 (r.bytes + if r.fin then 1 else 0)

def Reached (r : Arrived) (g : Segment) : Prop := ¬ seqLEQ g.pbuf.endSeq r.nxt ∧ ¬ seqGT g.seqno r.nxt

instance (r : Arrived) (g : Segment) : Decidable (r.Reached g) := inferInstanceAs (Decidable (_ ∧ _))

def take (r : Arrived) (g : Segment) : Arrived :=
  if r.Reached g then { r with pieces := r.pieces ++ [g.data.drop (r.nxt - g.seqno).toNat] } else r

/-- The `FIN` of a segment, when all that is before it has arrived. -/
def finish (r : Arrived) (g : Segment) : Arrived :=
  if g.flags.has tcpFin = true ∧ g.pbuf.endSeq = r.nxt ∧ r.fin = false then { r with fin := true } else r

/-- What a segment adds in the state `s`, which it leaves for `t`: the handshake starts the stream; data
needs an `ACK`, and `TIME_WAIT` takes none. -/
def input (r : Arrived) (s : Pcb) (g : Segment) (t : Pcb) : Arrived :=
  if s.state = .synSent then if t.state = .established then fresh g.seqno else r
  else if Processed s g then (if Accepts s g then r.take g else r).finish g else r

def after (r : Arrived) (s : State) (a : Act) (t : State) : Arrived :=
  match a with
  | .input g => r.input s.pcb g t.pcb
  | .recv _ | .resume _ =>
    { r with returned := r.returned ++ (s.pcb.recved.take (s.pcb.recved.length - t.pcb.recved.length)).map Pbuf.bytes }
  | _ => r

/-- The history at the start: none before the handshake, the `SYN` for a connection made by a listener. -/
def init (s : State) (r : Arrived) : Prop :=
  r = fresh r.irs ∧ (s.pcb.state = .synRcvd → s.pcb.rcvNxt = r.irs + 1)

end Arrived

def arriving : Machine (State × Arrived) Act Fault := tcp.record Arrived.init Arrived.after

/-! ## The next sequence number -/

section
variable {r : Arrived} {s t : Pcb} {g : Segment}

theorem Arrived.fresh_nxt (irs : Seq) : (Arrived.fresh irs).nxt = irs + 1 := by
  show irs + 1 + BitVec.ofNat 32 0 = irs + 1
  simp

theorem reached_iff (h : s.rcvNxt = r.nxt) : r.Reached g ↔ InOrder s g := by
  unfold Arrived.Reached InOrder
  rw [h]; rfl

theorem Arrived.push_nxt (r : Arrived) (piece : List UInt8) :
    ({ r with pieces := r.pieces ++ [piece] } : Arrived).nxt = r.nxt + BitVec.ofNat 32 piece.length := by
  unfold Arrived.nxt Arrived.bytes
  rw [List.map_append, List.sum_append, List.map_singleton, List.sum_singleton, add_ofNat]
  congr 2
  dsimp only
  omega

theorem Arrived.take_nxt (h : r.Reached g) (hsz : g.size < 65536) :
    (r.take g).nxt = g.pbuf.endSeq ∧ (g.pbuf.endSeq - r.nxt).toNat ≤ g.size ∧
      (g.data.drop (r.nxt - g.seqno).toNat).length = (g.pbuf.endSeq - r.nxt).toNat := by
  let p : Pcb := { tcpPcbGet 0 with rcvNxt := r.nxt }
  have hin : InOrder p g := (reached_iff (s := p) rfl).1 h
  obtain ⟨h1, h2, -⟩ := trimSeg_size hin hsz
  have hlen : (g.data.drop (r.nxt - g.seqno).toNat).length = (trimSeg p g).size := by
    rw [List.length_drop]
    unfold trimSeg
    split
    · rfl
    · rename_i hlt
      -- the segment begins at the next byte
      have : g.seqno = r.nxt := by
        have h3 := hin.2
        have h4 : ¬ seqLT g.seqno r.nxt := hlt
        unfold seqGT at h3
        unfold seqLT at h4
        have h5 : (g.seqno - r.nxt).toInt = 0 := by
          have : p.rcvNxt = r.nxt := rfl
          rw [this] at h3; omega
        have h6 := BitVec.eq_of_toInt_eq (y := (0 : Seq)) (by rw [h5]; rfl)
        bv_omega
      rw [this, BitVec.sub_self]; rfl
  refine ⟨?_, h2, hlen.trans h1⟩
  have e : (r.take g).nxt = r.nxt + BitVec.ofNat 32 (g.pbuf.endSeq - r.nxt).toNat := by
    unfold Arrived.take
    rw [if_pos h, Arrived.push_nxt, hlen, h1]
  bv_omega

theorem tcpUpdateBuf_nxt (h : s.rcvNxt = r.nxt) (hsz : g.size < 65536) :
    (if 0 < g.size then tcpUpdateBuf s g else s).rcvNxt = (r.take g).nxt := by
  by_cases h0 : 0 < g.size
  · rw [if_pos h0]
    rcases tcpUpdateBuf_cases s g with ⟨hno, e⟩ | ⟨hin, -, e, -⟩
    · have hno' : ¬ r.Reached g := by
        intro hr
        have hin := (reached_iff h).1 hr
        refine hno ⟨hin, ?_⟩
        rw [(trimSeg_size hin hsz).1]
        have h1 := hin.1
        unfold seqLEQ at h1
        intro h2
        have e1 : g.pbuf.endSeq = g.seqno + BitVec.ofNat 32 g.size := rfl
        rw [← e1, BitVec.toInt_eq_toNat_cond, h2] at h1
        simp at h1
      unfold Arrived.take
      rw [if_neg hno', e.rcvNxt, h]
    · rw [(Arrived.take_nxt ((reached_iff h).2 hin) hsz).1, e]; rfl
  · rw [if_neg h0, h]
    have hno : ¬ r.Reached g := fun hr => h0 (inOrder_size ((reached_iff h).1 hr))
    unfold Arrived.take
    rw [if_neg hno]

end

end Onix.Tcp
