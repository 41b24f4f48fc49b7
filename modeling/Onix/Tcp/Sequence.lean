/-
The send counters of a synchronised connection: `snd_una`, `snd_nxt`, `snd_max` and `snd_nbb` stay
in this order as long as no segment acknowledges what lies beyond `snd_nxt`. Every byte from
`snd_una` to `snd_nbb` is in a queued segment, so they span no more than the buffers hold and their
order modulo 2^32 is that of their distances from `snd_una`. `tcp_update_ack` has no upper bound: a
greater number moves `snd_una` past `snd_nxt` and drops what was never sent.
-/
import Mathlib.Algebra.Order.BigOperators.Group.List
import Onix.Lib.Serial
import Onix.Tcp.Order

namespace Onix.Tcp

open Prod List Onix.Lib

/-! ## Distances -/

def dist (a x : Seq) : Int := (x - a).toInt

theorem dist_self (a : Seq) : dist a a = 0 := by
  unfold dist
  rw [BitVec.sub_self]; rfl

variable {a x : Seq}

theorem dist_sub {y : Seq} (h1 : -2 ^ 31 ≤ dist a x - dist a y) (h2 : dist a x - dist a y < 2 ^ 31) :
    (x - y).toInt = dist a x - dist a y :=
  serial_dist_sub (by decide) a x y h1 h2

theorem dist_add {k : Int} (h1 : -2 ^ 31 ≤ dist a x + k) (h2 : dist a x + k < 2 ^ 31) :
    dist a (x + BitVec.ofInt 32 k) = dist a x + k :=
  serial_dist_add (by decide) a x k h1 h2

variable {p : Pbuf}

theorem dist_endSeq (h1 : -2 ^ 31 ≤ dist a p.seqno) (h2 : dist a p.seqno + p.size < 2 ^ 31) :
    dist a p.endSeq = dist a p.seqno + p.size := by
  unfold Pbuf.endSeq
  rw [← BitVec.ofInt_natCast]
  exact dist_add (by omega) h2

theorem dist_range (a x : Seq) : -2 ^ 31 ≤ dist a x ∧ dist a x < 2 ^ 31 :=
  ⟨BitVec.le_toInt _, BitVec.toInt_lt⟩

theorem seqLEQ_self (a : Seq) : seqLEQ a a := by
  unfold seqLEQ
  rw [BitVec.sub_self]; decide

theorem seqLEQ_of_dist {y : Seq} (h1 : -2 ^ 31 ≤ dist a x - dist a y) (h : dist a x ≤ dist a y) : seqLEQ x y := by
  unfold seqLEQ
  rw [dist_sub h1 (by omega)]; omega

theorem dist_of_geq (h : seqGEQ a x) : dist a x ≤ 0 := by
  unfold seqGEQ at h
  have h1 := dist_range a x
  by_contra hc
  have := dist_sub (a := a) (x := a) (y := x) (by rw [dist_self]; omega) (by rw [dist_self]; omega)
  rw [dist_self] at this
  omega

/-! ## The invariant -/

def queueEnd (s : Pcb) : Seq :=
  match s.sndBuf with
  | some p => p.seqno
  | none => s.sndNbb

def spans (s : Pcb) : List (Seq × Nat) := (s.unacked ++ s.unsent).map fun p => (p.endSeq, p.size)

def buffers (s : Pcb) : Nat := (spans s).length + s.sndBuf.toList.length

/-- The send side of a synchronised pcb: the counters are in order, the queued segments end between
`snd_una` and the Nagle buffer, they hold every byte from `snd_una` on, and the Nagle buffer the rest. -/
structure SendInv (s : Pcb) : Prop where
  nxt : 0 ≤ dist s.sndUna s.sndNxt
  max : dist s.sndUna s.sndNxt ≤ dist s.sndUna s.sndMax
  top : dist s.sndUna s.sndMax ≤ dist s.sndUna (queueEnd s)
  buf : ∀ p, s.sndBuf = some p → p.endSeq = s.sndNbb ∧ p.size ≤ tcpMaxWindow
  segs : ∀ x ∈ spans s, x.2 ≤ tcpMaxWindow ∧ 0 ≤ dist s.sndUna x.1 ∧ dist s.sndUna x.1 ≤ dist s.sndUna (queueEnd s)
  cover : ∀ k, 0 ≤ k → k < dist s.sndUna (queueEnd s) →
    ∃ x ∈ spans s, dist s.sndUna x.1 - x.2 ≤ k ∧ k < dist s.sndUna x.1
  count : buffers s ≤ pbufMax
  mss : s.sndMss ≤ tcpMaxWindow

variable {s : Pcb}

theorem SendInv.span (h : SendInv s) : dist s.sndUna (queueEnd s) ≤ pbufMax * tcpMaxWindow := by
  have h1 : ((Finset.Ico 0 (dist s.sndUna (queueEnd s))).card : Int) ≤ ((spans s).map snd).sum := by
    refine Int.ofNat_le.2 (card_le_of_cover (fun x => dist s.sndUna x.1 - x.2) snd (spans s) _ fun k hk => ?_)
    obtain ⟨hk0, hk1⟩ := Finset.mem_Ico.1 hk
    obtain ⟨x, hx, h1, h2⟩ := h.cover k hk0 hk1
    exact ⟨x, hx, h1, by omega⟩
  rw [Int.card_Ico] at h1
  have h2 : ((spans s).map snd).sum ≤ (spans s).length * tcpMaxWindow := by
    refine (sum_le_card_nsmul _ tcpMaxWindow fun n hn => ?_).trans (by simp)
    obtain ⟨x, hx, rfl⟩ := mem_map.1 hn
    exact (h.segs x hx).1
  have h3 : (spans s).length * tcpMaxWindow ≤ pbufMax * tcpMaxWindow :=
    Nat.mul_le_mul_right _ ((Nat.le_add_right _ _).trans h.count)
  omega

theorem SendInv.lt (h : SendInv s) : dist s.sndUna (queueEnd s) + tcpMaxWindow < 2 ^ 30 := by
  have h1 := h.span
  unfold pbufMax tcpMaxWindow at *
  omega

theorem SendInv.nbb (h : SendInv s) : dist s.sndUna (queueEnd s) ≤ dist s.sndUna s.sndNbb ∧
    dist s.sndUna s.sndNbb < 2 ^ 30 := by
  have h1 := h.lt
  have h2 := h.nxt.trans (h.max.trans h.top)
  unfold queueEnd at *
  cases hb : s.sndBuf with
  | none => rw [hb] at h1; exact ⟨le_refl _, by dsimp only at h1; omega⟩
  | some p =>
    rw [hb] at h1 h2
    dsimp only at h1 h2 ⊢
    obtain ⟨e, hsz⟩ := h.buf p hb
    rw [← e, dist_endSeq (by omega) (by omega)]
    omega

def Chain (s : Pcb) : Prop := seqLEQ s.sndUna s.sndNxt ∧ seqLEQ s.sndNxt s.sndMax ∧ seqLEQ s.sndMax s.sndNbb

instance (s : Pcb) : Decidable (Chain s) := inferInstanceAs (Decidable (_ ∧ _))

theorem chain_of_dist (h1 : 0 ≤ dist s.sndUna s.sndNxt) (h2 : dist s.sndUna s.sndNxt ≤ dist s.sndUna s.sndMax)
    (h3 : dist s.sndUna s.sndMax ≤ dist s.sndUna s.sndNbb) : Chain s := by
  have hr := dist_range s.sndUna s.sndNbb
  refine ⟨seqLEQ_of_dist (a := s.sndUna) ?_ ?_, seqLEQ_of_dist (a := s.sndUna) ?_ h2, seqLEQ_of_dist (a := s.sndUna) ?_ h3⟩
  · rw [dist_self]; omega
  · rw [dist_self]; omega
  · omega
  · omega

variable {s' : Pcb}

theorem SendInv.same (h : SendInv s) (e1 : s'.sndUna = s.sndUna) (e2 : s'.sndNxt = s.sndNxt)
    (e3 : s'.sndMax = s.sndMax) (e4 : s'.sndNbb = s.sndNbb) (e5 : s'.sndBuf = s.sndBuf) (e6 : s'.sndMss ≤ tcpMaxWindow)
    (e7 : (spans s').Perm (spans s)) : SendInv s' := by
  have etop : queueEnd s' = queueEnd s := by unfold queueEnd; rw [e5, e4]
  refine ⟨?_, ?_, ?_, ?_, ?_, ?_, ?_, e6⟩
  · rw [e1, e2]; exact h.nxt
  · rw [e1, e2, e3]; exact h.max
  · rw [e1, e3, etop]; exact h.top
  · rw [e5, e4]; exact h.buf
  · rw [e1, etop]
    exact fun x hx => h.segs x (e7.mem_iff.1 hx)
  · rw [e1, etop]
    intro k h1 h2
    obtain ⟨x, hx, hc⟩ := h.cover k h1 h2
    exact ⟨x, e7.mem_iff.2 hx, hc⟩
  · unfold buffers
    rw [e7.length_eq, e5]; exact h.count

theorem SendInv.frame (h : SendInv s) (e : SameSend s s') : SendInv s' := by
  refine h.same e.una e.nxt e.max e.nbb e.buf (by rw [e.mss]; exact h.mss) ?_
  unfold spans
  rw [e.unacked, e.unsent]

theorem SendInv.push (h : SendInv s) (hp : p.seqno = queueEnd s) (hsz : p.size ≤ tcpMaxWindow)
    (e1 : s'.sndUna = s.sndUna) (e2 : s'.sndNxt = s.sndNxt) (e3 : s'.sndMax = s.sndMax) (e4 : s'.sndNbb = p.endSeq)
    (e5 : s'.sndBuf = none) (e6 : s'.sndMss = s.sndMss) (e7 : (spans s').Perm ((p.endSeq, p.size) :: spans s))
    (hc : (spans s').length ≤ pbufMax) : SendInv s' := by
  have h0 := h.nxt.trans (h.max.trans h.top)
  have hlt := h.lt
  have hend : dist s.sndUna p.endSeq = dist s.sndUna (queueEnd s) + p.size := by
    rw [dist_endSeq (by rw [hp]; omega) (by rw [hp]; omega), hp]
  have etop : queueEnd s' = p.endSeq := by unfold queueEnd; rw [e5, ← e4]
  refine ⟨?_, ?_, ?_, ?_, ?_, ?_, ?_, by rw [e6]; exact h.mss⟩
  · rw [e1, e2]; exact h.nxt
  · rw [e1, e2, e3]; exact h.max
  · rw [e1, e3, etop, hend]
    have := h.top
    omega
  · rw [e5]; rintro q ⟨⟩
  · rw [e1, etop, hend]
    intro x hx
    rcases mem_cons.1 (e7.mem_iff.1 hx) with rfl | hx
    · exact ⟨hsz, by rw [hend]; omega, by rw [hend]⟩
    · obtain ⟨h1, h2, h3⟩ := h.segs x hx
      exact ⟨h1, h2, by omega⟩
  · rw [e1, etop, hend]
    intro k hk1 hk2
    by_cases hk : k < dist s.sndUna (queueEnd s)
    · obtain ⟨x, hx, hc⟩ := h.cover k hk1 hk
      exact ⟨x, e7.mem_iff.2 (.tail _ hx), hc⟩
    · refine ⟨_, e7.mem_iff.2 (.head _), ?_⟩
      rw [hend]; omega
  · unfold buffers
    rw [e5]; exact hc

theorem SendInv.keep (h : SendInv s) (hp : p.seqno = queueEnd s) (hsz : p.size ≤ tcpMaxWindow)
    (e1 : s'.sndUna = s.sndUna) (e2 : s'.sndNxt = s.sndNxt) (e3 : s'.sndMax = s.sndMax) (e4 : s'.sndNbb = p.endSeq)
    (e5 : s'.sndBuf = some p) (e6 : s'.sndMss = s.sndMss) (e7 : spans s' = spans s)
    (hc : (spans s').length + 1 ≤ pbufMax) : SendInv s' := by
  have etop : queueEnd s' = queueEnd s := by unfold queueEnd; rw [e5]; exact hp
  refine ⟨?_, ?_, ?_, ?_, ?_, ?_, ?_, by rw [e6]; exact h.mss⟩
  · rw [e1, e2]; exact h.nxt
  · rw [e1, e2, e3]; exact h.max
  · rw [e1, e3, etop]; exact h.top
  · rw [e5]
    rintro q ⟨⟩
    exact ⟨e4.symm, hsz⟩
  · rw [e1, e7, etop]; exact h.segs
  · rw [e1, e7, etop]; exact h.cover
  · unfold buffers
    rw [e5]; exact hc

/-! ## Output -/

theorem enqueueBuf_seqno (s : Pcb) (f : Flags) : (enqueueBuf s f).seqno = queueEnd s := by
  unfold enqueueBuf queueEnd
  cases s.sndBuf <;> rfl

variable {f : Flags} {src : Nat → UInt8}

theorem fillBuf_spec {ptr : Nat} {left : Int} (hl : 0 ≤ left) (p : Pbuf) :
    (fillBuf src ptr left (enqueueLen s p left) f p).size ≤ s.sndMss ∧
      (fillBuf src ptr left (enqueueLen s p left) f p).endSeq = p.endSeq + BitVec.ofInt 32 (enqueueLen s p left) ∧
      (fillBuf src ptr left (enqueueLen s p left) f p).seqno = p.seqno := by
  obtain ⟨len, hlen, h1, h2⟩ : ∃ len, len = enqueueLen s p left ∧ p.size + len ≤ (s.sndMss : Int) ∧ 0 ≤ p.size + len := by
    refine ⟨_, rfl, ?_⟩
    unfold enqueueLen
    dsimp only
    split <;> omega
  rw [← hlen]
  have hsz : (fillBuf src ptr left len f p).size = (p.size + len).toNat := by
    unfold fillBuf; dsimp only; split <;> rfl
  refine ⟨by rw [hsz]; omega, ?_, enqueueBuf_fill ..⟩
  unfold Pbuf.endSeq
  rw [hsz, enqueueBuf_fill, BitVec.add_assoc, ← BitVec.ofInt_natCast, ← BitVec.ofInt_natCast, ← BitVec.ofInt_add]
  congr 2; omega

theorem length_spans (s : Pcb) : (spans s).length = s.unacked.length + s.unsent.length := by
  unfold spans
  rw [length_map, length_append]

variable {t : Pcb}

theorem spans_insert (e1 : t.unacked = s.unacked) (e2 : t.unsent = insertSeg p s.unsent) :
    (spans t).Perm ((p.endSeq, p.size) :: spans s) := by
  unfold spans
  rw [e1, e2, ← map_cons (f := fun p : Pbuf => (p.endSeq, p.size))]
  refine List.Perm.map _ ?_
  exact ((listInsertSort_perm p s.unsent).append_left _).trans perm_middle

variable {size : Nat}

theorem tcpEnqueueSeg_inv {ptr : Nat} {left len : Int} (h : SendInv s)
    (hl : 0 ≤ left) (hs : tcpEnqueueSeg src ptr left size f s = .ok (s', len)) :
    SendInv s' ∧ s'.sndUna = s.sndUna := by
  unfold tcpEnqueueSeg at hs
  split at hs
  · cases hs
  rename_i hmem
  have hcount : (spans s).length + 1 ≤ pbufMax := by
    cases hb : s.sndBuf with
    | none =>
      rw [hb] at hmem
      rw [length_spans]
      simp only [true_and, not_le] at hmem
      omega
    | some p =>
      have := h.count
      unfold buffers at this
      rw [hb] at this
      exact this
  obtain ⟨p, hp, hlen, hend, hseq⟩ : ∃ p, p = fillBuf src ptr left (enqueueLen s (enqueueBuf s f) left) f (enqueueBuf s f) ∧
      p.size ≤ s.sndMss ∧ p.endSeq = (enqueueBuf s f).endSeq + BitVec.ofInt 32 (enqueueLen s (enqueueBuf s f) left) ∧
      p.seqno = (enqueueBuf s f).seqno := ⟨_, rfl, fillBuf_spec hl _⟩
  have hsz := hlen.trans h.mss
  have htop : p.seqno = queueEnd s := hseq.trans (enqueueBuf_seqno s f)
  -- the buffer ended at `snd_nbb`
  have hnbb : s.sndNbb + BitVec.ofInt 32 (enqueueLen s (enqueueBuf s f) left) = p.endSeq := by
    rw [hend]
    congr 1
    unfold enqueueBuf
    cases hb : s.sndBuf with
    | none => simp [Pbuf.endSeq]
    | some q => exact (h.buf q hb).1.symm
  dsimp only at hs
  rw [← hp, hnbb] at hs
  split at hs
  · obtain ⟨rfl, -⟩ := mk.inj (Except.ok.inj hs)
    exact ⟨h.keep htop hsz rfl rfl rfl rfl rfl rfl rfl hcount, rfl⟩
  · obtain ⟨rfl, -⟩ := mk.inj (Except.ok.inj hs)
    have hperm := spans_insert (s := s) (p := p)
      (t := { s with sndNbb := p.endSeq, unsent := insertSeg p s.unsent, sndBuf := none }) rfl rfl
    exact ⟨h.push htop hsz rfl rfl rfl rfl rfl rfl hperm (by rw [hperm.length_eq]; exact hcount), rfl⟩

theorem enqueueLoop_inv : ∀ (fuel ptr : Nat) (left : Int) (s s' : Pcb),
    SendInv s → 0 ≤ left → enqueueLoop src size f fuel ptr left s = .ok s' → SendInv s' ∧ s'.sndUna = s.sndUna
  | 0, _, _, s, s', h, _, hs => by cases hs; exact ⟨h, rfl⟩
  | fuel + 1, ptr, left, s, s', h, hl, hs => by
    obtain ⟨⟨s1, len⟩, h1, hs⟩ := bind_ok hs
    have hi := tcpEnqueueSeg_inv h hl h1
    dsimp only at hs
    split at hs
    · have := enqueueLoop_inv _ _ _ _ _ hi.1 (by omega) hs
      exact ⟨this.1, this.2.trans hi.2⟩
    · cases hs; exact hi

theorem tcpEnqueue_inv (h : SendInv s)
    (hs : tcpEnqueue s src size f = .ok s') : SendInv s' ∧ s'.sndUna = s.sndUna := by
  unfold tcpEnqueue at hs
  split at hs
  · have hmss : tcpDefaultMss ≤ tcpMaxWindow := by decide
    have h1 : SendInv { s with sndMss := tcpDefaultMss } := h.same rfl rfl rfl rfl rfl hmss (List.Perm.refl _)
    have := enqueueLoop_inv _ _ _ _ _ h1 (Int.natCast_nonneg _) hs
    exact this
  · exact enqueueLoop_inv _ _ _ _ _ h (by omega) hs

theorem SendInv.send {q : Pbuf} {rest : List Pbuf} (h : SendInv s) (hl : s.unsent = p :: rest)
    (hp : q.endSeq = p.endSeq ∧ q.size = p.size) (e1 : s'.sndUna = s.sndUna) (e2 : s'.sndNxt = p.endSeq)
    (e3 : s'.sndMax = if seqGT p.endSeq s.sndMax then p.endSeq else s.sndMax) (e4 : s'.sndNbb = s.sndNbb)
    (e5 : s'.sndBuf = s.sndBuf) (e6 : s'.sndMss = s.sndMss) (e7 : s'.unsent = rest)
    (e8 : s'.unacked = insertSeg q s.unacked) : SendInv s' := by
  have hperm : (spans s').Perm (spans s) := by
    unfold spans
    rw [e7, e8, hl, map_append, map_append, map_cons]
    refine ((listInsertSort_perm q s.unacked).map _ |>.append_right _).trans ?_
    rw [map_cons, hp.1, hp.2]
    exact perm_middle.symm
  have etop : queueEnd s' = queueEnd s := by unfold queueEnd; rw [e5, e4]
  have hmem : (p.endSeq, p.size) ∈ spans s := by
    unfold spans
    rw [hl]
    exact mem_map.2 ⟨p, mem_append_right _ (.head _), rfl⟩
  obtain ⟨-, hp0, hp1⟩ := h.segs _ hmem
  dsimp only at hp0 hp1
  have hlt := h.lt
  have h1 := h.nxt
  have h2 := h.max
  have h3 := h.top
  have hmax : s'.sndMax = p.endSeq ∧ dist s.sndUna s.sndMax ≤ dist s.sndUna p.endSeq ∨
      s'.sndMax = s.sndMax ∧ dist s.sndUna p.endSeq ≤ dist s.sndUna s.sndMax := by
    have hd : (p.endSeq - s.sndMax).toInt = dist s.sndUna p.endSeq - dist s.sndUna s.sndMax :=
      dist_sub (by omega) (by omega)
    rw [e3]
    split
    · rename_i hgt
      unfold seqGT at hgt
      exact .inl ⟨rfl, by omega⟩
    · rename_i hgt
      unfold seqGT at hgt
      exact .inr ⟨rfl, by omega⟩
  refine ⟨?_, ?_, ?_, ?_, ?_, ?_, ?_, by rw [e6]; exact h.mss⟩
  · rw [e1, e2]; exact hp0
  · rw [e1, e2]
    rcases hmax with ⟨e, hm⟩ | ⟨e, hm⟩
    · rw [e]
    · rw [e]; exact hm
  · rw [e1, etop]
    rcases hmax with ⟨e, hm⟩ | ⟨e, hm⟩
    · rw [e]; exact hp1
    · rw [e]; exact h3
  · rw [e5, e4]; exact h.buf
  · rw [e1, etop]
    exact fun x hx => h.segs x (hperm.mem_iff.1 hx)
  · rw [e1, etop]
    intro k hk1 hk2
    obtain ⟨x, hx, hc⟩ := h.cover k hk1 hk2
    exact ⟨x, hperm.mem_iff.2 hx, hc⟩
  · unfold buffers
    rw [hperm.length_eq, e5]; exact h.count

theorem outputLoop_inv {wnd : BitVec 32} : ∀ (l : List Pbuf) (s s' : Pcb), s.unsent = l → SendInv s →
    outputLoop wnd l s = .ok s' → SendInv s' ∧ s'.sndUna = s.sndUna
  | [], s, s', _, h, hs => by cases hs; exact ⟨h, rfl⟩
  | p :: rest, s, s', hl, h, hs => by
    simp only [outputLoop] at hs
    split at hs
    · cases hs; exact ⟨h, rfl⟩
    split at hs
    · cases hs
    have key : ∀ t : Pcb, SendInv t → t.sndUna = s.sndUna → t.unsent = rest → outputLoop wnd rest t = .ok s' →
        SendInv s' ∧ s'.sndUna = s.sndUna := by
      intro t ht e1 e2 hr
      obtain ⟨h1, h2⟩ := outputLoop_inv rest t s' e2 ht hr
      exact ⟨h1, h2.trans e1⟩
    refine key _ ?_ ?_ ?_ hs
    · refine SendInv.frame ?_ (tcpOutputSeg_send _ _)
      refine h.send hl (q := { p with
        count := p.count + 1, flags := if p.flags.has tcpSyn then p.flags else p.flags ||| tcpAck }) ⟨rfl, rfl⟩ ?_ rfl ?_
        ?_ ?_ ?_ rfl ?_
      all_goals split <;> rfl
    · rw [(tcpOutputSeg_send _ _).una]; split <;> rfl
    · rw [(tcpOutputSeg_send _ _).unsent]

theorem tcpOutput_inv (h : SendInv s) (hs : tcpOutput s = .ok s') : SendInv s' ∧ s'.sndUna = s.sndUna := by
  unfold tcpOutput at hs
  have h1 := h.frame (slowStart_send s)
  have e1 := (slowStart_send s).una
  dsimp only at hs
  split at hs
  · cases hs; exact ⟨h1, e1⟩
  · obtain ⟨s1, h2, hs⟩ := bind_ok hs
    obtain ⟨h2, e2⟩ := outputLoop_inv _ _ _ rfl h1 h2
    split at hs
    · cases hs
      exact ⟨h2.frame (tcpSendAck_send _ _), ((tcpSendAck_send _ _).una.trans e2).trans e1⟩
    · cases hs; exact ⟨h2, e2.trans e1⟩

theorem insertAll_perm : ∀ (m l : List Pbuf), (m.foldl (fun l p => insertSeg p l) l).Perm (m ++ l)
  | [], _ => .refl _
  | p :: m, l => (insertAll_perm m (insertSeg p l)).trans
    (((listInsertSort_perm p l).append_left m).trans perm_middle)

theorem requeue_perm (s : Pcb) : ((requeue s).unacked ++ (requeue s).unsent).Perm (s.unacked ++ s.unsent) := by
  refine ((insertAll_perm _ _).append_left _).trans ?_
  rw [← append_assoc]
  refine List.Perm.append_right _ ?_
  have e : (s.unacked.filter fun p => decide (p.count ≤ 1)) = s.unacked.filter fun p => ! decide (1 < p.count) := by
    refine filter_congr fun p _ => ?_
    by_cases hc : 1 < p.count <;> simp [hc]; omega
  rw [e]
  exact filter_append_perm _ _

theorem requeue_spans (s : Pcb) : (spans (requeue s)).Perm (spans s) := (requeue_perm s).map _

theorem tcpRexmit_inv (h : SendInv s) (hs : tcpRexmit s = .ok s') : SendInv s' ∧ s'.sndUna = s.sndUna := by
  have h1 : SendInv (requeue s) := h.same rfl rfl rfl rfl rfl h.mss (requeue_spans s)
  have := tcpOutput_inv h1 hs
  exact this

theorem tcpHandleDuppacks_inv (h : SendInv s) (hs : tcpHandleDuppacks s = .ok s') :
    SendInv s' ∧ s'.sndUna = s.sndUna := by
  unfold tcpHandleDuppacks at hs
  split at hs
  · cases hs; exact ⟨h, rfl⟩
  split at hs
  · split at hs
    · cases hs
    · obtain ⟨s1, h1, hs⟩ := bind_ok hs
      cases hs
      have hq : SendInv (fastRexmit s) := h.frame ⟨rfl, rfl, rfl, rfl, rfl, rfl, rfl, rfl⟩
      obtain ⟨h2, e⟩ := tcpRexmit_inv hq h1
      exact ⟨h2.frame ⟨rfl, rfl, rfl, rfl, rfl, rfl, rfl, rfl⟩, e⟩
  · have hq : SendInv { s with sndCwnd := s.sndCwnd + BitVec.ofNat 32 s.sndMss } :=
      h.frame ⟨rfl, rfl, rfl, rfl, rfl, rfl, rfl, rfl⟩
    have := tcpRexmit_inv hq hs
    exact this

/-! ## Acknowledgements -/

theorem SendInv.ack (h : SendInv s) (h1 : 0 < dist s.sndUna a)
    (h2 : dist s.sndUna a ≤ dist s.sndUna s.sndNxt) (e1 : s'.sndUna = a) (e2 : s'.sndNxt = s.sndNxt)
    (e3 : s'.sndMax = s.sndMax) (e4 : s'.sndNbb = s.sndNbb) (e5 : s'.sndBuf = s.sndBuf) (e6 : s'.sndMss = s.sndMss)
    (e7 : s'.unacked = s.unacked.filter fun p => decide (seqGT p.endSeq a))
    (e8 : s'.unsent = s.unsent.filter fun p => decide (seqGT p.endSeq a)) : SendInv s' := by
  have hlt := h.lt
  have hn := h.nxt
  have hm := h.max
  have ht := h.top
  -- distances from the new number
  have hd : ∀ x, 0 ≤ dist s.sndUna x → dist a x = dist s.sndUna x - dist s.sndUna a := by
    intro x hx
    have := dist_range s.sndUna x
    exact dist_sub (by omega) (by omega)
  have etop : queueEnd s' = queueEnd s := by unfold queueEnd; rw [e5, e4]
  have espans : spans s' = (spans s).filter fun x => decide (seqGT x.1 a) := by
    unfold spans
    rw [e7, e8, ← filter_append, filter_map]
    rfl
  refine ⟨?_, ?_, ?_, ?_, ?_, ?_, ?_, by rw [e6]; exact h.mss⟩
  · rw [e1, e2, hd _ hn]; omega
  · rw [e1, e2, e3, hd _ hn, hd _ (by omega)]; omega
  · rw [e1, e3, etop, hd _ (by omega), hd _ (by omega)]; omega
  · rw [e5, e4]; exact h.buf
  · rw [e1, etop, espans]
    intro x hx
    obtain ⟨hx, hgt⟩ := mem_filter.1 hx
    obtain ⟨h3, h4, h5⟩ := h.segs x hx
    have hgt : 0 < dist a x.1 := by simpa [seqGT, dist] using hgt
    exact ⟨h3, by omega, by rw [hd _ h4, hd _ (by omega)]; omega⟩
  · rw [e1, etop, espans, hd _ (by omega)]
    intro k hk1 hk2
    obtain ⟨x, hx, hc1, hc2⟩ := h.cover (k + dist s.sndUna a) (by omega) (by omega)
    obtain ⟨-, h4, -⟩ := h.segs x hx
    have hx' := hd _ h4
    have hgt : seqGT x.1 a := by unfold seqGT; change 0 < dist a x.1; omega
    exact ⟨x, mem_filter.2 ⟨hx, by simpa using hgt⟩, by omega, by omega⟩
  · have hle : (spans s').length ≤ (spans s).length := by rw [espans]; exact length_filter_le _ _
    have := h.count
    unfold buffers at *
    rw [e5]; omega

/-- The number is not after `snd_una`, or after it and up to `snd_nxt`. -/
def AckWithin (s : Pcb) (ackno : Seq) : Prop :=
  seqGEQ s.sndUna ackno ∨ (seqGT ackno s.sndUna ∧ seqLEQ ackno s.sndNxt)

instance (s : Pcb) (a : Seq) : Decidable (AckWithin s a) := inferInstanceAs (Decidable (_ ∨ _))

theorem flushBuf_inv (h : SendInv s) (a : Seq) :
    SendInv (flushBuf s a) ∧ (flushBuf s a).sndUna = s.sndUna := by
  unfold flushBuf
  cases hb : s.sndBuf with
  | none => exact ⟨h, rfl⟩
  | some p =>
    dsimp only
    split
    · obtain ⟨e, hsz⟩ := h.buf p hb
      have htop : p.seqno = queueEnd s := by unfold queueEnd; rw [hb]
      have hperm := spans_insert (s := s) (p := p) (t := { s with unsent := insertSeg p s.unsent, sndBuf := none }) rfl rfl
      have hcount := h.count
      unfold buffers at hcount
      rw [hb] at hcount
      exact ⟨h.push htop hsz rfl rfl rfl e.symm rfl rfl hperm (by rw [hperm.length_eq]; exact hcount), rfl⟩
    · exact ⟨h, rfl⟩

variable {g : Segment}

theorem tcpUpdateAck_inv (h : SendInv s) (ha : AckWithin s g.ackno)
    (hs : tcpUpdateAck s g = .ok s') : SendInv s' ∧ seqLEQ s.sndUna s'.sndUna ∧ dist s'.sndUna g.ackno ≤ 0 := by
  unfold tcpUpdateAck at hs
  split at hs
  · rename_i hge
    have hle := dist_of_geq hge
    split at hs
    · have hq : SendInv { s with dupacks := s.dupacks + 1 } := h.frame ⟨rfl, rfl, rfl, rfl, rfl, rfl, rfl, rfl⟩
      obtain ⟨h1, e⟩ := tcpHandleDuppacks_inv hq hs
      exact ⟨h1, by rw [e]; exact seqLEQ_self _, by rw [e]; exact hle⟩
    · cases hs
      exact ⟨h.frame ⟨rfl, rfl, rfl, rfl, rfl, rfl, rfl, rfl⟩, seqLEQ_self _, hle⟩
  · rename_i hge
    obtain ⟨hgt, hle⟩ := ha.resolve_left hge
    have h1 : 0 < dist s.sndUna g.ackno := hgt
    have hlt := h.lt
    have h2 : dist s.sndUna g.ackno ≤ dist s.sndUna s.sndNxt := by
      have hr := dist_range s.sndUna g.ackno
      have hn := h.nxt
      have hm := h.max
      have ht := h.top
      have hd : (g.ackno - s.sndNxt).toInt = dist s.sndUna g.ackno - dist s.sndUna s.sndNxt := dist_sub (by omega) (by omega)
      unfold seqLEQ at hle
      omega
    obtain ⟨s1, h3, hs⟩ := bind_ok hs
    cases hs
    obtain ⟨t, ht, e⟩ : ∃ t, t = advanceUna (growCwnd s) g.ackno ∧ t.sndUna = g.ackno ∧ t.sndNxt = s.sndNxt ∧
        t.sndMax = s.sndMax ∧ t.sndNbb = s.sndNbb ∧ t.sndBuf = s.sndBuf ∧ t.sndMss = s.sndMss ∧
        t.unacked = s.unacked ∧ t.unsent = s.unsent := by
      refine ⟨_, rfl, ?_⟩
      unfold advanceUna growCwnd tcpXmitTimer
      split <;> split <;> exact ⟨rfl, rfl, rfl, rfl, rfl, rfl, rfl, rfl⟩
    rw [← ht] at h3
    obtain ⟨e1, e2, e3, e4, e5, e6, e7, e8⟩ := e
    unfold dropAcked at h3
    split at h3
    · cases h3
    have h3 := (Except.ok.inj h3).symm
    have hq : SendInv s1 := by
      subst h3
      exact h.ack h1 h2 e1 e2 e3 e4 e5 e6 (by rw [← e7]) (by rw [← e8])
    have hu : s1.sndUna = g.ackno := by subst h3; exact e1
    obtain ⟨h4, e⟩ := flushBuf_inv hq g.ackno
    refine ⟨h4, ?_, ?_⟩
    · rw [e, hu]
      exact seqLEQ_of_dist (a := s.sndUna) (by rw [dist_self]; have := dist_range s.sndUna g.ackno; omega)
        (by rw [dist_self]; omega)
    · rw [e, hu, dist_self]

theorem tcpReceive_inv (h : SendInv s) (ha : AckWithin s g.ackno)
    (hack : g.flags.has tcpAck = true) (hs : tcpReceive s g = .ok s') :
    SendInv s' ∧ seqLEQ s.sndUna s'.sndUna ∧ dist s'.sndUna g.ackno ≤ 0 := by
  obtain ⟨s1, h1, hs⟩ := bind_ok hs
  cases hs
  rw [if_pos hack] at h1
  have hw := tcpUpdateWnd_send s g
  obtain ⟨h2, h3, h4⟩ := tcpUpdateAck_inv (h.frame hw) (by unfold AckWithin; rw [hw.una, hw.nxt]; exact ha) h1
  rw [hw.una] at h3
  split
  · have hb := tcpUpdateBuf_send s1 g
    exact ⟨h2.frame hb, by rw [hb.una]; exact h3, by rw [hb.una]; exact h4⟩
  · exact ⟨h2, h3, h4⟩

theorem SendInv.fin_beyond (h : SendInv s) (ha : dist s.sndUna a ≤ 0) : a ≠ s.sndNxt + 1 := by
  rintro rfl
  have h1 := h.lt
  have h2 := h.nxt
  have h3 := h.max
  have h4 := h.top
  have : dist s.sndUna (s.sndNxt + 1) = dist s.sndUna s.sndNxt + 1 := dist_add (k := 1) (by omega) (by omega)
  omega

/-! ## The states -/

def Synchronised (s : Pcb) : Prop := TcpState.established.val ≤ s.state.val

instance (s : Pcb) : Decidable (Synchronised s) := inferInstanceAs (Decidable (_ ≤ _))

theorem not_synchronised_closed (h : s.state = .closed) : ¬ Synchronised s := by
  unfold Synchronised
  rw [h]; decide

/-- The send side of a pcb in `TIME_WAIT`: nothing is queued any more. -/
structure Quiet (s : Pcb) : Prop where
  nxt : 0 ≤ dist s.sndUna s.sndNxt
  max : dist s.sndUna s.sndNxt ≤ dist s.sndUna s.sndMax
  nbb : dist s.sndUna s.sndMax ≤ dist s.sndUna s.sndNbb
  unsent : s.unsent = []
  unacked : s.unacked = []

def Sound (s : Pcb) : Prop := if s.state = .timeWait then Quiet s else SendInv s

theorem Sound.chain (h : Sound s) : Chain s := by
  unfold Sound at h
  split at h
  · exact chain_of_dist h.nxt h.max h.nbb
  · exact chain_of_dist h.nxt h.max (h.top.trans h.nbb.1)

theorem Sound.of_inv (h : SendInv s) (hst : s.state ≠ .timeWait) : Sound s := by
  unfold Sound
  rw [if_neg hst]; exact h

theorem Sound.inv (h : Sound s) (hst : s.state ≠ .timeWait) : SendInv s := by
  unfold Sound at h
  rwa [if_neg hst] at h

theorem Quiet.frame (h : Quiet s) (e : SameSend s s') : Quiet s' :=
  ⟨by rw [e.una, e.nxt]; exact h.nxt, by rw [e.una, e.nxt, e.max]; exact h.max, by rw [e.una, e.max, e.nbb]; exact h.nbb,
    by rw [e.unsent]; exact h.unsent, by rw [e.unacked]; exact h.unacked⟩

theorem Sound.frame (h : Sound s) (e : SameSend s s') (hst : s'.state = s.state) : Sound s' := by
  unfold Sound at *
  rw [hst]
  split
  · rename_i ht
    rw [if_pos ht] at h
    exact h.frame e
  · rename_i ht
    rw [if_neg ht] at h
    exact h.frame e

/-- What a step leaves of a sound pcb: it is closed, or sound, and `snd_una` is not before the old one. -/
def After (s s' : Pcb) : Prop := (Synchronised s' → Sound s') ∧ seqLEQ s.sndUna s'.sndUna

theorem tcpPcbPurge_numbers (hs : tcpPcbPurge s = .ok s') :
    s' = { s with recved := [], unsent := [], unacked := [] } := by
  unfold tcpPcbPurge at hs
  split at hs
  · cases hs
  · cases hs; rfl

theorem tcpPcbTimewait_sound (h : SendInv s) (hs : tcpPcbTimewait s = .ok s') :
    Sound s' ∧ s'.sndUna = s.sndUna := by
  have e := tcpPcbPurge_numbers hs
  subst e
  refine ⟨?_, rfl⟩
  exact ⟨h.nxt, h.max, h.top.trans h.nbb.1, rfl, rfl⟩

theorem tcpOutput_sound (h : Sound s) (hs : tcpOutput s = .ok s') : Sound s' ∧ s'.sndUna = s.sndUna := by
  have hst := (tcpOutput_recv hs).state
  by_cases ht : s.state = .timeWait
  · -- with empty queues nothing is sent
    unfold Sound at h ⊢
    rw [if_pos ht] at h
    rw [hst, if_pos ht]
    unfold tcpOutput at hs
    have h1 := h.frame (slowStart_send s)
    have e1 := (slowStart_send s).una
    dsimp only at hs
    split at hs
    · cases hs; exact ⟨h1, e1⟩
    · rw [h1.unsent] at hs
      obtain ⟨s1, h2, hs⟩ := bind_ok hs
      cases h2
      split at hs
      · cases hs; exact ⟨h1.frame (tcpSendAck_send _ _), (tcpSendAck_send _ _).una.trans e1⟩
      · cases hs; exact ⟨h1, e1⟩
  · obtain ⟨h1, e⟩ := tcpOutput_inv (h.inv ht) hs
    exact ⟨.of_inv h1 (by rw [hst]; exact ht), e⟩

theorem tcpRexmit_sound (h : Sound s) (hs : tcpRexmit s = .ok s') : Sound s' ∧ s'.sndUna = s.sndUna := by
  have hq : Sound (requeue s) := by
    unfold Sound at *
    split
    · rename_i ht
      rw [if_pos (show s.state = .timeWait from ht)] at h
      refine ⟨h.nxt, h.max, h.nbb, ?_, ?_⟩
      · unfold requeue
        rw [h.unacked]; exact h.unsent
      · unfold requeue
        rw [h.unacked]; rfl
    · rename_i ht
      rw [if_neg (show ¬ s.state = .timeWait from ht)] at h
      exact h.same rfl rfl rfl rfl rfl h.mss (requeue_spans s)
  have := tcpOutput_sound hq hs
  exact this

theorem After.of_sound (h : Sound s' ∧ s'.sndUna = s.sndUna) : After s s' :=
  ⟨fun _ => h.1, by rw [h.2]; exact seqLEQ_self _⟩

theorem processState_sound (h : SendInv t) (hsync : Synchronised t) (ht : t.state ≠ .timeWait)
    (hfin : g.flags.has tcpAck = true → g.ackno ≠ t.sndNxt + 1) (hs : processState t g = .ok s') :
    (Synchronised s' → Sound s') ∧ s'.sndUna = t.sndUna := by
  have hsound : Sound t := .of_inv h ht
  have hsync' := hsync
  unfold Synchronised at hsync'
  unfold processState at hs
  dsimp only at hs
  split at hs
  · rename_i e; rw [e] at hsync'; exact absurd hsync' (by decide)
  · rename_i e; rw [e] at hsync'; exact absurd hsync' (by decide)
  · split at hs
    · cases hs
      exact ⟨fun _ => .of_inv (h.frame ⟨rfl, rfl, rfl, rfl, rfl, rfl, rfl, rfl⟩) (fun e => by cases e), rfl⟩
    · cases hs; exact ⟨fun _ => hsound, rfl⟩
  · split at hs
    · cases hs
      exact ⟨fun _ => .of_inv (h.frame ⟨rfl, rfl, rfl, rfl, rfl, rfl, rfl, rfl⟩) (fun e => by cases e), rfl⟩
    · cases hs; exact ⟨fun _ => hsound, rfl⟩
  · split at hs
    · have e := tcpPcbPurge_numbers hs
      subst e
      exact ⟨fun hc => absurd hc (not_synchronised_closed rfl), rfl⟩
    · cases hs; exact ⟨fun _ => hsound, rfl⟩
  · unfold processFinWait1 at hs
    obtain ⟨s1, h1, hs⟩ := bind_ok hs
    cases hs
    have hna : ¬ (g.flags.has tcpAck = true ∧ g.ackno = t.sndNxt + 1) := fun hc => hfin hc.1 hc.2
    have h2 : Sound s1 ∧ s1.sndUna = t.sndUna := by
      rw [if_neg (fun hc => hna hc.2)] at h1
      split at h1
      · cases h1
        exact ⟨.of_inv (h.frame ⟨rfl, rfl, rfl, rfl, rfl, rfl, rfl, rfl⟩) (fun e => by cases e), rfl⟩
      · cases h1; exact ⟨hsound, rfl⟩
    split
    · exact ⟨fun _ => h2.1.frame ⟨rfl, rfl, rfl, rfl, rfl, rfl, rfl, rfl⟩ rfl, h2.2⟩
    · exact ⟨fun _ => h2.1, h2.2⟩
  · split at hs
    · have hq : SendInv { t with rcvNxt := g.seqno + 1, ackNow := true } := h.frame ⟨rfl, rfl, rfl, rfl, rfl, rfl, rfl, rfl⟩
      have := tcpPcbTimewait_sound hq hs
      exact ⟨fun _ => this.1, this.2⟩
    · cases hs; exact ⟨fun _ => hsound, rfl⟩
  · rw [if_neg fun hc => hfin hc.1 hc.2] at hs
    cases hs; exact ⟨fun _ => hsound, rfl⟩
  · rename_i e; exact absurd e ht
  · rename_i e; rw [e] at hsync'; exact absurd hsync' (by decide)
  · rename_i e; rw [e] at hsync'; exact absurd hsync' (by decide)

theorem processState_timeWait (h : Sound t) (ht : t.state = .timeWait)
    (hs : processState t g = .ok s') : Sound s' ∧ s'.sndUna = t.sndUna := by
  have e : processState t g = .ok (processTimeWait t g) := by
    unfold processState
    rw [ht]
  rw [e] at hs
  cases hs
  obtain ⟨h1, h2, -⟩ := processTimeWait_send t g
  exact ⟨h.frame h1 h2, h1.una⟩

theorem processPcb_sound (h : Sound s) (hv : ∀ v ∈ g.options.filterMap TcpOpt.mss, v < 65536) :
    Sound (tcpParseOption s g.options).1 ∧ (tcpParseOption s g.options).1.sndUna = s.sndUna ∧
      (tcpParseOption s g.options).1.state = s.state := by
  obtain ⟨mss, e, hm⟩ := tcpParseOption_send g.options s
  rw [e]
  refine ⟨?_, rfl, rfl⟩
  unfold Sound at *
  split
  · rename_i ht
    rw [if_pos (show s.state = .timeWait from ht)] at h
    exact ⟨h.nxt, h.max, h.nbb, h.unsent, h.unacked⟩
  · rename_i ht
    rw [if_neg (show ¬ s.state = .timeWait from ht)] at h
    refine h.same rfl rfl rfl rfl rfl ?_ (List.Perm.refl _)
    rcases hm with rfl | ⟨n, hm⟩
    · exact h.mss
    · have := hv mss (mem_filterMap.2 ⟨_, hm, rfl⟩)
      unfold tcpMaxWindow
      dsimp only
      omega

theorem tcpInput_after (h : Sound s) (hsync : Synchronised s)
    (hv : ∀ v ∈ g.options.filterMap TcpOpt.mss, v < 65536) (ha : Accepts s g → AckWithin s g.ackno)
    (hs : tcpInput s g = .ok s') : After s s' := by
  obtain ⟨h1, e1, e2⟩ := processPcb_sound h hv
  have h2 : Sound (processPcb s g) := h1.frame ⟨rfl, rfl, rfl, rfl, rfl, rfl, rfl, rfl⟩ rfl
  have e3 : (processPcb s g).state = s.state := e2
  have e4 : (processPcb s g).sndUna = s.sndUna := e1
  rcases tcpInput_cases hs with ⟨-, rfl⟩ | ⟨-, -, hr⟩ | ⟨-, rfl⟩ | ⟨hn, hp⟩ | ⟨hacc, t, ht, hp⟩
  · exact .of_sound ⟨h, rfl⟩
  · unfold tcpHandleReset at hr
    split at hr
    · cases hr; exact .of_sound ⟨h, rfl⟩
    · obtain ⟨s1, h3, hr⟩ := bind_ok hr
      cases hr
      have e := tcpPcbPurge_numbers h3
      subst e
      exact ⟨fun hc => absurd hc (not_synchronised_closed rfl), seqLEQ_self _⟩
  · exact .of_sound ⟨h1, e1⟩
  · by_cases hst : s.state = .timeWait
    · have := processState_timeWait h2 (e3.trans hst) hp
      exact .of_sound ⟨this.1, this.2.trans e4⟩
    · have hst' : (processPcb s g).state ≠ .timeWait := by rw [e3]; exact hst
      have hsync' : Synchronised (processPcb s g) := by unfold Synchronised; rw [e3]; exact hsync
      have := processState_sound (h2.inv hst') hsync' hst' (fun hack => absurd ⟨hack, hst⟩ hn) hp
      exact ⟨this.1, by rw [this.2, e4]; exact seqLEQ_self _⟩
  · have hst : s.state ≠ .timeWait := hacc.2.2.2.2.2
    have hst' : (processPcb s g).state ≠ .timeWait := by rw [e3]; exact hst
    obtain ⟨mss, eo, -⟩ := tcpParseOption_send g.options s
    have hack : AckWithin (processPcb s g) g.ackno := by
      unfold processPcb AckWithin
      rw [eo]; exact ha hacc
    obtain ⟨h5, h6, h7⟩ := tcpReceive_inv (h2.inv hst') hack hacc.2.2.2.2.1 ht
    have est : t.state = s.state := (tcpReceive_state ht).trans e3
    have hsync' : Synchronised t := by unfold Synchronised; rw [est]; exact hsync
    have := processState_sound h5 hsync' (by rw [est]; exact hst) (fun _ => h5.fin_beyond h7) hp
    exact ⟨this.1, by rw [this.2, ← e4]; exact h6⟩

/-! ## System calls and timers -/

theorem sendLoop_inv : ∀ (iov : List ((Nat → UInt8) × Nat)) (left : Nat) (s s' : Pcb), SendInv s →
    sendLoop f iov left s = .ok s' → SendInv s' ∧ s'.sndUna = s.sndUna
  | [], _, s, s', h, hs => by cases hs; exact ⟨h, rfl⟩
  | v :: iov, left, s, s', h, hs => by
    unfold sendLoop at hs
    split at hs
    · cases hs; exact ⟨h, rfl⟩
    split at hs
    · exact sendLoop_inv iov left s s' h hs
    obtain ⟨s1, h1, hs⟩ := bind_ok hs
    obtain ⟨h2, e2⟩ := tcpEnqueue_inv h h1
    obtain ⟨h3, e3⟩ := sendLoop_inv iov _ s1 s' h2 hs
    exact ⟨h3, e3.trans e2⟩

theorem tcpSendmsg_sound {iov : List ((Nat → UInt8) × Nat)} (h : Sound s)
    (hs : tcpSendmsg s iov f = .ok s') : Sound s' ∧ s'.sndUna = s.sndUna := by
  unfold tcpSendmsg at hs
  dsimp only at hs
  split at hs
  · cases hs; exact ⟨h, rfl⟩
  rename_i hst
  split at hs
  · cases hs; exact ⟨h, rfl⟩
  have hst : s.state = .established := not_not.1 hst
  obtain ⟨s1, h1, hs⟩ := bind_ok hs
  have ht : s.state ≠ .timeWait := by rw [hst]; decide
  obtain ⟨h2, e2⟩ := sendLoop_inv _ _ _ _ (h.inv ht) h1
  have hst1 : s1.state ≠ .timeWait := by rw [(sendLoop_recv _ _ _ _ h1).state]; exact ht
  obtain ⟨h3, e3⟩ := tcpOutput_sound (.of_inv h2 hst1) hs
  exact ⟨h3, e3.trans e2⟩

theorem close_sound {s1 : Pcb} {st : TcpState} (h : SendInv s) (hst : st ≠ .timeWait)
    (h1 : tcpEnqueue s (fun _ => 0) 0 tcpFin = .ok s1) (hs : tcpOutput { s1 with state := st } = .ok s') :
    Sound s' ∧ s'.sndUna = s.sndUna := by
  obtain ⟨h2, e2⟩ := tcpEnqueue_inv h h1
  have hq : Sound { s1 with state := st } := .of_inv (h2.frame ⟨rfl, rfl, rfl, rfl, rfl, rfl, rfl, rfl⟩) hst
  obtain ⟨h3, e3⟩ := tcpOutput_sound hq hs
  exact ⟨h3, e3.trans e2⟩

theorem tcpClose_after (h : Sound s) (hsync : Synchronised s) (hs : tcpClose s = .ok s') : After s s' := by
  unfold Synchronised at hsync
  unfold tcpClose at hs
  split at hs
  · rename_i e; rw [e] at hsync; exact absurd hsync (by decide)
  · rename_i e; rw [e] at hsync; exact absurd hsync (by decide)
  · rename_i e; rw [e] at hsync; exact absurd hsync (by decide)
  · rename_i e; rw [e] at hsync; exact absurd hsync (by decide)
  · rename_i e
    obtain ⟨s1, h1, hs⟩ := bind_ok hs
    exact .of_sound (close_sound (h.inv (by rw [e]; decide)) (by decide) h1 hs)
  · rename_i e
    obtain ⟨s1, h1, hs⟩ := bind_ok hs
    exact .of_sound (close_sound (h.inv (by rw [e]; decide)) (by decide) h1 hs)
  · cases hs; exact .of_sound ⟨h, rfl⟩

theorem tcpTimeout_after {type : TcpTimer} (h : Sound s)
    (hs : tcpTimeout s type = .ok s') : After s s' := by
  have hclose : ∀ {t : Pcb}, t.sndUna = s.sndUna →
      (do let s ← tcpPcbPurge t; pure { s with state := .closed } : Except Fault Pcb) = .ok s' → After s s' := by
    intro t e h
    obtain ⟨s1, h1, h⟩ := bind_ok h
    cases h
    have e1 := tcpPcbPurge_numbers h1
    subst e1
    exact ⟨fun hc => absurd hc (not_synchronised_closed rfl), by dsimp only; rw [e]; exact seqLEQ_self _⟩
  have hpurge : tcpPcbPurge { s with state := .closed } = .ok s' → After s s' := by
    intro h
    have e1 := tcpPcbPurge_numbers h
    subst e1
    exact ⟨fun hc => absurd hc (not_synchronised_closed rfl), seqLEQ_self _⟩
  unfold tcpTimeout at hs
  cases type with
  | syn =>
    dsimp only at hs
    split at hs
    · cases hs; exact .of_sound ⟨h, rfl⟩
    · exact hclose rfl hs
  | rexmit =>
    dsimp only at hs
    split at hs
    · exact hclose (t := { s with rtxCnt := s.rtxCnt + 1 }) rfl hs
    · have hq : Sound { s with
          rtxCnt := s.rtxCnt + 1, rto := tcpUpdateRto s (tcpBackoff (s.rtxCnt + 1).toNat) } :=
        h.frame ⟨rfl, rfl, rfl, rfl, rfl, rfl, rfl, rfl⟩ rfl
      have := tcpRexmit_sound hq hs
      exact .of_sound this
  | persist =>
    cases hs
    split
    · exact .of_sound ⟨h.frame ⟨rfl, rfl, rfl, rfl, rfl, rfl, rfl, rfl⟩ rfl, rfl⟩
    · exact .of_sound ⟨h, rfl⟩
  | keepalive =>
    dsimp only at hs
    split at hs
    · cases hs; exact .of_sound ⟨h, rfl⟩
    · exact hclose rfl hs
  | finWait2 => exact hpurge hs
  | timewait => exact hpurge hs

theorem deviceSent_spans (s : Pcb) (i : Nat) : spans (deviceSent s i) = spans s := by
  unfold spans deviceSent
  rw [map_append, map_append]
  congr 1
  refine ext_getElem? fun j => ?_
  rw [getElem?_map, getElem?_map, getElem?_modify]
  cases s.unacked[j]? with
  | none => rfl
  | some p => by_cases hij : i = j <;> simp [hij, Pbuf.endSeq]

theorem deviceSent_sound (h : Sound s) (i : Nat) : Sound (deviceSent s i) := by
  unfold Sound at *
  split
  · rename_i ht
    rw [if_pos (show s.state = .timeWait from ht)] at h
    refine ⟨h.nxt, h.max, h.nbb, h.unsent, ?_⟩
    unfold deviceSent
    rw [h.unacked]; exact modify_nil _ _
  · rename_i ht
    rw [if_neg (show ¬ s.state = .timeWait from ht)] at h
    exact h.same rfl rfl rfl rfl rfl h.mss (by rw [deviceSent_spans])

theorem recvQueued_state {iov iov' : List Iovec} (h : recvQueued s iov = .ok (s', iov')) :
    s'.state = s.state := by
  unfold recvQueued at h
  dsimp only at h
  split at h
  · cases h
  · obtain ⟨r, -, h⟩ := bind_ok h
    obtain ⟨rfl, -⟩ := mk.inj (Except.ok.inj h)
    rfl

/-! ## Runs -/

/-- The steps of a synchronised connection whose accepted segments acknowledge nothing beyond `snd_nxt`. -/
def Acked (s : State) (a : Act) : Prop :=
  Synchronised s.pcb ∧ match a with
  | .input g => Accepts s.pcb g → AckWithin s.pcb g.ackno
  | _ => True

instance (s : State) : (a : Act) → Decidable (Acked s a)
  | .input _ => inferInstanceAs (Decidable (_ ∧ (_ → _)))
  | .connect | .send _ _ | .recv _ | .resume _ | .setsockopt _ _ | .close | .timeout _ | .slowtimo | .fastimo | .sent _ =>
    inferInstanceAs (Decidable (_ ∧ True))

theorem step_after {s s' : State} {a : Act} (h : Sound s.pcb) (ha : Acked s a) (he : enabled s a)
    (hs : step s a = .ok s') : After s.pcb s'.pcb := by
  obtain ⟨hsync, ha⟩ := ha
  cases a with
  | connect =>
    obtain ⟨p, h1, hs⟩ := bind_ok hs
    cases hs
    unfold tcpConnect at h1
    rw [if_pos (fun e => not_synchronised_closed e hsync)] at h1
    cases h1; exact .of_sound ⟨h, rfl⟩
  | input g =>
    obtain ⟨p, h1, hs⟩ := bind_ok hs
    cases hs; exact tcpInput_after h hsync he.2.2 ha h1
  | send iov flags =>
    obtain ⟨p, h1, hs⟩ := bind_ok hs
    cases hs; exact .of_sound (tcpSendmsg_sound h h1)
  | recv sizes =>
    obtain ⟨⟨p, iov⟩, h1, hs⟩ := bind_ok hs
    cases hs
    rcases tcpRecvmsg_cases h1 with rfl | h1
    · exact .of_sound ⟨h, rfl⟩
    · exact .of_sound ⟨h.frame (recvQueued_send h1) (recvQueued_state h1), (recvQueued_send h1).una⟩
  | resume sizes =>
    obtain ⟨⟨p, iov⟩, h1, hs⟩ := bind_ok hs
    cases hs
    exact .of_sound ⟨h.frame (recvQueued_send h1) (recvQueued_state h1), (recvQueued_send h1).una⟩
  | setsockopt opt val =>
    cases hs
    exact .of_sound ⟨h.frame (tcpSetsockopt_send _ _ _) (by cases opt <;> rfl), (tcpSetsockopt_send _ _ _).una⟩
  | close =>
    obtain ⟨p, h1, hs⟩ := bind_ok hs
    cases hs; exact tcpClose_after h hsync h1
  | timeout type =>
    obtain ⟨p, h1, hs⟩ := bind_ok hs
    cases hs; exact tcpTimeout_after h h1
  | slowtimo => cases hs; exact .of_sound ⟨h.frame ⟨rfl, rfl, rfl, rfl, rfl, rfl, rfl, rfl⟩ rfl, rfl⟩
  | fastimo =>
    obtain ⟨p, h1, hs⟩ := bind_ok hs
    cases hs
    unfold tcpFastimo at h1
    have hq : Sound (if s.pcb.ackDelay then { s.pcb with ackNow := true } else s.pcb) ∧
        (if s.pcb.ackDelay then { s.pcb with ackNow := true } else s.pcb).sndUna = s.pcb.sndUna := by
      split
      · exact ⟨h.frame ⟨rfl, rfl, rfl, rfl, rfl, rfl, rfl, rfl⟩ rfl, rfl⟩
      · exact ⟨h, rfl⟩
    generalize (if s.pcb.ackDelay then { s.pcb with ackNow := true } else s.pcb) = q at hq h1
    dsimp only at h1
    split at h1
    · have := tcpOutput_sound hq.1 h1
      exact .of_sound ⟨this.1, this.2.trans hq.2⟩
    · cases h1; exact .of_sound hq
  | sent i => cases hs; exact .of_sound ⟨deviceSent_sound h i, rfl⟩

def synchronised : Machine State Act Fault where
  start s := Synchronised s.pcb ∧ Sound s.pcb
  enabled := enabled
  step := step

instance (s : State) (a : Act) : Decidable (synchronised.enabled s a) := inferInstanceAs (Decidable (enabled s a))

theorem reach_sound {s : State} (h : synchronised.Reach Acked s) : Synchronised s.pcb → Sound s.pcb :=
  h.inv (I := fun s => Synchronised s.pcb → Sound s.pcb)
    (fun s (h0 : Synchronised s.pcb ∧ Sound s.pcb) _ => h0.2)
    fun _ _ _ hi hc hs => (step_after (hi hc.1) hc hs.1 hs.2).1

theorem not_accepted (hn : ¬ Accepts s g) (hack : g.flags.has tcpAck = true)
    (hrst : g.flags.has tcpRst = false) (hs : tcpInput s g = .ok s') :
    s'.sndUna = s.sndUna ∧ s'.unsent = s.unsent ∧ s'.unacked = s.unacked := by
  obtain ⟨mss, e, -⟩ := tcpParseOption_send g.options s
  rcases tcpInput_cases hs with ⟨-, rfl⟩ | ⟨-, hr, -⟩ | ⟨-, rfl⟩ | ⟨hn', hp⟩ | ⟨hacc, -⟩
  · exact ⟨rfl, rfl, rfl⟩
  · rw [hrst] at hr; cases hr
  · rw [e]; exact ⟨rfl, rfl, rfl⟩
  · have hst : s.state = .timeWait := by
      by_contra hc
      exact hn' ⟨hack, hc⟩
    have e1 : processPcb s g = { s with sndMss := mss, idle := 0 } := by unfold processPcb; rw [e]
    have e2 : processState (processPcb s g) g = .ok (processTimeWait (processPcb s g) g) := by
      unfold processState
      rw [show (processPcb s g).state = .timeWait by rw [e1]; exact hst]
    rw [e2] at hp
    cases hp
    have h1 := (processTimeWait_send (processPcb s g) g).1
    rw [e1] at h1 ⊢
    exact ⟨h1.una, h1.unsent, h1.unacked⟩
  · exact absurd hacc hn

theorem SendInv.not_within (h : SendInv s) (h1 : seqGT a s.sndUna) (h2 : seqGT a s.sndMax) :
    ¬ AckWithin s a := by
  have hlt := h.lt
  have hn := h.nxt
  have hm := h.max
  have ht := h.top
  have hd : 0 < dist s.sndUna a := h1
  have hr := dist_range s.sndUna a
  rintro (hge | ⟨-, hle⟩)
  · have := dist_of_geq hge
    omega
  · have e1 : (a - s.sndNxt).toInt = dist s.sndUna a - dist s.sndUna s.sndNxt := dist_sub (by omega) (by omega)
    have e2 : (a - s.sndMax).toInt = dist s.sndUna a - dist s.sndUna s.sndMax := dist_sub (by omega) (by omega)
    unfold seqLEQ at hle
    unfold seqGT at h2
    omega

theorem ack_beyond (hst : s.state = .established ∨ s.state = .closeWait) (hacc : Accepts s g)
    (h1 : ¬ seqGEQ s.sndUna g.ackno) (h2 : ¬ seqLEQ g.ackno s.sndNxt) (hs : tcpInput s g = .ok s') :
    s'.sndUna = g.ackno ∧ ¬ Chain s' := by
  obtain ⟨mss, e, -⟩ := tcpParseOption_send g.options s
  have e1 : processPcb s g = { s with sndMss := mss, idle := 0 } := by unfold processPcb; rw [e]
  rcases tcpInput_cases hs with ⟨hn, -⟩ | ⟨hn, -⟩ | ⟨hn, -⟩ | ⟨hn, -⟩ | ⟨-, t, ht, hp⟩
  · exact absurd hacc hn
  · exact absurd hacc hn
  · exact absurd hacc hn
  · exact absurd hacc.2.2.2.2 hn
  obtain ⟨s1, h3, ht⟩ := bind_ok ht
  cases ht
  rw [if_pos hacc.2.2.2.2.1] at h3
  have hw := tcpUpdateWnd_send (processPcb s g) g
  have hs1 : s1.sndUna = g.ackno ∧ s1.sndNxt = s.sndNxt ∧ s1.state = s.state := by
    have hst1 : s1.state = s.state := by
      rw [(tcpUpdateAck_recv h3).state, (tcpUpdateWnd_recv _ _).state, e1]
    have hnxt : (tcpUpdateWnd (processPcb s g) g).sndNxt = s.sndNxt := by rw [hw.nxt, e1]
    have huna : (tcpUpdateWnd (processPcb s g) g).sndUna = s.sndUna := by rw [hw.una, e1]
    generalize tcpUpdateWnd (processPcb s g) g = u at h3 hnxt huna
    unfold tcpUpdateAck at h3
    rw [huna, if_neg h1] at h3
    obtain ⟨v, h4, h3⟩ := bind_ok h3
    cases h3
    have hv : v.sndUna = g.ackno ∧ v.sndNxt = u.sndNxt := by
      unfold dropAcked at h4
      split at h4
      · cases h4
      · cases h4
        unfold advanceUna growCwnd tcpXmitTimer
        split <;> split <;> exact ⟨rfl, rfl⟩
    have hf : (flushBuf v g.ackno).sndUna = v.sndUna ∧ (flushBuf v g.ackno).sndNxt = v.sndNxt := by
      unfold flushBuf
      split
      · split <;> exact ⟨rfl, rfl⟩
      · exact ⟨rfl, rfl⟩
    exact ⟨hf.1.trans hv.1, (hf.2.trans hv.2).trans hnxt, hst1⟩
  obtain ⟨t, ht, ht1, ht2, ht3⟩ : ∃ t, t = (if 0 < g.size then tcpUpdateBuf s1 g else s1) ∧ t.sndUna = g.ackno ∧
      t.sndNxt = s.sndNxt ∧ t.state = s.state := by
    refine ⟨_, rfl, ?_⟩
    split
    · have hb := tcpUpdateBuf_send s1 g
      refine ⟨hb.una.trans hs1.1, hb.nxt.trans hs1.2.1, ?_⟩
      exact (tcpUpdateBuf_state s1 g).trans hs1.2.2
    · exact hs1
  rw [← ht] at hp
  have hfinal : s'.sndUna = g.ackno ∧ s'.sndNxt = s.sndNxt := by
    unfold processState at hp
    rw [ht3] at hp
    rcases hst with hst | hst
    all_goals
      rw [hst] at hp
      dsimp only at hp
      split at hp
      · cases hp; exact ⟨ht1, ht2⟩
      · cases hp; exact ⟨ht1, ht2⟩
  refine ⟨hfinal.1, fun hc => h2 ?_⟩
  have := hc.1
  rwa [hfinal.1, hfinal.2] at this

/-- The handshake leaves `snd_max` behind: `tcp_pcb_get` clears it and `tcp_output` does not count the
`SYN`, so but for the last initial number the chain is broken when `ESTABLISHED` begins. -/
theorem handshake_behind (hst : s.state = .synSent)
    (hmax : s.sndMax = if seqGT s.sndNxt 0 then s.sndNxt else 0) (hisn : s.sndNxt ≠ 0xffffffff)
    (he : (tcpHandleSynSent s g).state = .established) : ¬ Chain (tcpHandleSynSent s g) := by
  obtain ⟨h1, h2, h3, h4⟩ : (tcpHandleSynSent s g).sndUna = s.sndNxt + 1 ∧ (tcpHandleSynSent s g).sndNxt = s.sndNxt + 1 ∧
      (tcpHandleSynSent s g).sndMax = s.sndMax ∧ (tcpHandleSynSent s g).sndNbb = s.sndNxt + 1 := by
    unfold tcpHandleSynSent at he ⊢
    split at he
    · rw [hst] at he; cases he
    rename_i hf
    rw [if_neg hf]
    split at he
    · rw [hst] at he; cases he
    rename_i ha
    rw [if_neg ha]
    dsimp only
    split
    · refine ⟨(tcpSendAck_send _ _).una.trans (not_not.1 ha), (tcpSendAck_send _ _).nxt.trans (not_not.1 ha),
        (tcpSendAck_send _ _).max, (tcpSendAck_send _ _).nbb.trans (not_not.1 ha)⟩
    · exact ⟨not_not.1 ha, not_not.1 ha, rfl, not_not.1 ha⟩
  rintro ⟨-, hc1, hc2⟩
  rw [h2, h3] at hc1
  rw [h3, h4] at hc2
  rw [hmax] at hc1 hc2
  generalize s.sndNxt = x at hc1 hc2 hisn
  have hx : x.toNat ≠ 0xffffffff := fun h => hisn (BitVec.eq_of_toNat_eq h)
  unfold seqLEQ at hc1 hc2
  split at hc1
  · rw [BitVec.add_comm, BitVec.add_sub_cancel] at hc1
    exact absurd hc1 (by decide)
  · rename_i hgt
    rw [if_neg hgt] at hc2
    unfold seqGT at hgt
    rw [BitVec.toInt_eq_toNat_cond] at hc1 hc2 hgt
    have e0 : (0 : Seq).toNat = 0 := rfl
    have e1 : (1 : Seq).toNat = 1 := rfl
    simp only [BitVec.toNat_sub, BitVec.toNat_add, e0, e1] at hc1 hc2 hgt
    omega

/-- The opening of a connection, two bytes, and an acknowledgement of numbers that were never sent. -/
def beyond : List Act :=
  [.connect, .input ⟨0, 101, tcpSyn ||| tcpAck, 4096, [], []⟩, .setsockopt .nodelay true, .send [(fun _ => 1, 2)] 0]

end Onix.Tcp
