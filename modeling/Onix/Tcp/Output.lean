/-
What `tcp_output` and `tcp_rexmit` hand to `ip_output`. `outputLog` is the loop of `tcp_output` with
a record of the segments it hands over and of `snd_max` after each; without the record it is
`outputLoop`. What is handed over is a first part of `unsent` that ends within the window, and each
of its segments goes to `unacked` once.
-/
import Onix.Tcp.Sequence

namespace Onix.Tcp

open List Onix.Lib

/-! ## The loop with its record -/

/-- A segment as `ip_output` gets it, and `snd_max` then. -/
structure Handed where
  seg : Pbuf
  sndMax : Seq

def sentSeg (p : Pbuf) : Pbuf :=
  { p with count := p.count + 1, flags := if p.flags.has tcpSyn then p.flags else p.flags ||| tcpAck }

def outputMove (s : Pcb) (p : Pbuf) (rest : List Pbuf) : Pcb :=
  let nxt := p.endSeq
  let s := if s.rtt ≠ 0 ∧ seqLEQ s.rttSeq s.sndUna then { s with rtt := 1, rttSeq := nxt } else s
  let s := { s with sndNxt := nxt, sndMax := if seqGT nxt s.sndMax then nxt else s.sndMax }
  tcpOutputSeg { s with unsent := rest, unacked := insertSeg (sentSeg p) s.unacked } (sentSeg p).flags

/-- The loop of `tcp_output` and what it hands over, also when an assertion ends it. -/
def outputLog (wnd : BitVec 32) : List Pbuf → Pcb → List Handed × Except Fault Pcb
  | [], s => ([], .ok s)
  | p :: rest, s =>
    if seqGT p.endSeq (s.sndUna + wnd) then ([], .ok s)
    else if p.count ≠ 1 then ([], .error .count)
    else
      let s := outputMove s p rest
      let r := outputLog wnd rest s
      (⟨sentSeg p, s.sndMax⟩ :: r.1, r.2)

def tcpOutputLog (s : Pcb) : List Handed × Except Fault Pcb :=
  let s := slowStart s
  if outputWnd s < BitVec.ofNat 32 tcpDefaultMss then ([], .ok s)
  else
    let r := outputLog (outputWnd s) s.unsent s
    (r.1, r.2.map fun s => if s.ackNow then tcpSendAck s tcpAck else s)

def tcpRexmitLog (s : Pcb) : List Handed × Except Fault Pcb := tcpOutputLog (requeue s)

theorem outputLoop_cons (wnd : BitVec 32) (p : Pbuf) (rest : List Pbuf) (s : Pcb) :
    outputLoop wnd (p :: rest) s =
      if seqGT p.endSeq (s.sndUna + wnd) then .ok s
      else if p.count ≠ 1 then .error .count
      else outputLoop wnd rest (outputMove s p rest) := by
  rfl

theorem outputLog_snd (wnd : BitVec 32) : ∀ (l : List Pbuf) (s : Pcb), (outputLog wnd l s).2 = outputLoop wnd l s
  | [], _ => rfl
  | p :: rest, s => by
    rw [outputLoop_cons, outputLog]
    split
    · rfl
    · split
      · rfl
      · exact outputLog_snd wnd rest _

theorem tcpOutputLog_snd (s : Pcb) : (tcpOutputLog s).2 = tcpOutput s := by
  unfold tcpOutputLog tcpOutput
  dsimp only
  split
  · rfl
  · dsimp only
    rw [outputLog_snd]
    cases outputLoop (outputWnd (slowStart s)) (slowStart s).unsent (slowStart s) with
    | error e => rfl
    | ok t =>
      show Except.ok (if t.ackNow = true then tcpSendAck t tcpAck else t) =
        if t.ackNow = true then Except.ok (tcpSendAck t tcpAck) else Except.ok t
      split <;> rfl

/-! ## One round -/

theorem outputMove_frame (s : Pcb) (p : Pbuf) (rest : List Pbuf) :
    (outputMove s p rest).sndUna = s.sndUna ∧ outputWnd (outputMove s p rest) = outputWnd s ∧
      (outputMove s p rest).unsent = rest ∧ (outputMove s p rest).unacked = insertSeg (sentSeg p) s.unacked ∧
      (outputMove s p rest).sndMax = if seqGT p.endSeq s.sndMax then p.endSeq else s.sndMax := by
  unfold outputMove tcpOutputSeg outputWnd
  refine ⟨?_, ?_, ?_, ?_, ?_⟩ <;> dsimp only <;> split <;> split <;> rfl

/-- Each value of `snd_max` is the one before, or the end of the segment when that is later. -/
def Forward : Seq → List Handed → Prop
  | _, [] => True
  | m, h :: log => (h.sndMax = m ∨ h.sndMax = h.seg.endSeq ∧ seqGT h.sndMax m) ∧ Forward h.sndMax log

def lastMax (m : Seq) (log : List Handed) : Seq := (log.getLast?.map Handed.sndMax).getD m

theorem lastMax_cons (m : Seq) (h : Handed) (log : List Handed) : lastMax m (h :: log) = lastMax h.sndMax log := by
  unfold lastMax
  rw [getLast?_cons]
  cases log.getLast? <;> rfl

theorem Forward.leq {b : Seq} : ∀ {log : List Handed} {m : Seq}, Forward m log → 0 ≤ dist b m →
    (∀ h ∈ log, 0 ≤ dist b h.seg.endSeq) → 0 ≤ dist b (lastMax m log) ∧ dist b m ≤ dist b (lastMax m log)
  | [], _, _, h0, _ => ⟨h0, le_refl _⟩
  | h :: log, m, hf, h0, he => by
    rw [lastMax_cons]
    have hr := dist_range b
    have hle : 0 ≤ dist b h.sndMax ∧ dist b m ≤ dist b h.sndMax := by
      rcases hf.1 with e | ⟨e, hgt⟩
      · rw [e]
        exact ⟨h0, le_refl _⟩
      · have h1 : 0 ≤ dist b h.sndMax := by
          rw [e]
          exact he h (mem_cons_self ..)
        have h2 := hr h.sndMax
        have h3 := hr m
        unfold seqGT at hgt
        rw [dist_sub (a := b) (by omega) (by omega)] at hgt
        omega
    obtain ⟨h4, h5⟩ := Forward.leq hf.2 hle.1 fun x hx => he x (mem_cons_of_mem _ hx)
    exact ⟨h4, hle.2.trans h5⟩

/-- What a loop that begins at `s` hands over within a window. -/
structure HandsOver (wnd : BitVec 32) (s : Pcb) (log : List Handed) (r : Except Fault Pcb) : Prop where
  ends : ∀ h ∈ log, seqLEQ h.seg.endSeq (s.sndUna + wnd)
  order : log.map Handed.seg = (s.unsent.take log.length).map sentSeg
  forward : Forward s.sndMax log
  moved : ∀ t, r = .ok t → t.unsent = s.unsent.drop log.length ∧ t.unacked.Perm (log.map Handed.seg ++ s.unacked)
  window : ∀ t, r = .ok t → t.sndUna = s.sndUna ∧ outputWnd t = outputWnd s
  max : ∀ t, r = .ok t → t.sndMax = lastMax s.sndMax log

theorem HandsOver.nil (wnd : BitVec 32) (s : Pcb) : HandsOver wnd s [] (.ok s) where
  ends := by simp
  order := rfl
  forward := trivial
  moved := by rintro t ⟨⟩; exact ⟨rfl, .refl _⟩
  window := by rintro t ⟨⟩; exact ⟨rfl, rfl⟩
  max := by rintro t ⟨⟩; rfl

theorem HandsOver.fault (wnd : BitVec 32) (s : Pcb) (e : Fault) : HandsOver wnd s [] (.error e) where
  ends := by simp
  order := rfl
  forward := trivial
  moved := by intro t ht; cases ht
  window := by intro t ht; cases ht
  max := by intro t ht; cases ht

variable {wnd : BitVec 32} {r : Except Fault Pcb} {log : List Handed} {s : Pcb}

theorem HandsOver.cons {p : Pbuf} {rest : List Pbuf}
    (hl : s.unsent = p :: rest) (hw : ¬ seqGT p.endSeq (s.sndUna + wnd)) (h : HandsOver wnd (outputMove s p rest) log r) :
    HandsOver wnd s (⟨sentSeg p, (outputMove s p rest).sndMax⟩ :: log) r := by
  obtain ⟨e1, e2, e3, e4, e5⟩ := outputMove_frame s p rest
  refine ⟨?_, ?_, ⟨?_, h.forward⟩, ?_, ?_, ?_⟩
  · rintro x hx
    rcases mem_cons.1 hx with rfl | hx
    · exact Int.not_lt.1 hw
    · have := h.ends x hx
      rwa [e1] at this
  · have := h.order
    rw [e3] at this
    rw [hl, map_cons, this]; rfl
  · rw [e5]
    split
    · rename_i hgt
      exact .inr ⟨rfl, hgt⟩
    · exact .inl rfl
  · intro t ht
    obtain ⟨h1, h2⟩ := h.moved t ht
    rw [e3] at h1
    rw [e4] at h2
    refine ⟨by rw [h1, hl]; rfl, h2.trans ?_⟩
    exact ((listInsertSort_perm (sentSeg p) s.unacked).append_left _).trans perm_middle
  · intro t ht
    obtain ⟨h1, h2⟩ := h.window t ht
    exact ⟨h1.trans e1, h2.trans e2⟩
  · intro t ht
    rw [lastMax_cons]
    exact h.max t ht

theorem outputLog_handsOver (wnd : BitVec 32) : ∀ (l : List Pbuf) (s : Pcb), s.unsent = l →
    HandsOver wnd s (outputLog wnd l s).1 (outputLog wnd l s).2
  | [], s, _ => .nil wnd s
  | p :: rest, s, hl => by
    unfold outputLog
    split
    · exact .nil wnd s
    · rename_i hw
      split
      · exact .fault wnd s .count
      · exact .cons hl hw (outputLog_handsOver wnd rest _ (outputMove_frame s p rest).2.2.1)

/-! ## The calls -/

theorem HandsOver.map {f : Pcb → Pcb}
    (h : HandsOver wnd s log r) (hf : ∀ t, SameSend t (f t) ∧ (f t).sndMax = t.sndMax ∧ outputWnd (f t) = outputWnd t) :
    HandsOver wnd s log (r.map f) := by
  have key : ∀ t, r.map f = .ok t → ∃ u, r = .ok u ∧ t = f u := by
    intro t ht
    cases r with
    | error e => cases ht
    | ok u => cases ht; exact ⟨u, rfl, rfl⟩
  refine ⟨h.ends, h.order, h.forward, ?_, ?_, ?_⟩
  all_goals
    intro t ht
    obtain ⟨u, hu, rfl⟩ := key t ht
    obtain ⟨h1, h2, h3⟩ := hf u
  · rw [h1.unsent, h1.unacked]
    exact h.moved u hu
  · rw [h1.una, h3]
    exact h.window u hu
  · rw [h2]
    exact h.max u hu

theorem tcpOutputLog_handsOver (s : Pcb) :
    HandsOver (outputWnd (slowStart s)) (slowStart s) (tcpOutputLog s).1 (tcpOutputLog s).2 := by
  unfold tcpOutputLog
  dsimp only
  split
  · exact .nil _ _
  · refine (outputLog_handsOver _ _ _ rfl).map fun t => ?_
    split
    · refine ⟨tcpSendAck_send t tcpAck, ?_, ?_⟩ <;> unfold tcpSendAck tcpOutputSeg <;> split <;> rfl
    · exact ⟨SameSend.refl t, rfl, rfl⟩

theorem HandsOver.never_back {t : Pcb}
    (h : HandsOver wnd s log r) (ht : r = .ok t) {b : Seq} (h0 : 0 ≤ dist b s.sndMax)
    (he : ∀ x ∈ log, 0 ≤ dist b x.seg.endSeq) : seqLEQ s.sndMax t.sndMax := by
  rw [h.max t ht]
  obtain ⟨h1, h2⟩ := h.forward.leq h0 he
  have := dist_range b (lastMax s.sndMax log)
  exact seqLEQ_of_dist (a := b) (by omega) h2

/-- The send window of one call that begins at `s`: what it hands over, in which order, within which window, and
`snd_max` before and after when its values are in one half of the sequence space. -/
structure SendWindow (s : Pcb) (log : List Handed) (r : Except Fault Pcb) : Prop where
  handsOver : HandsOver (outputWnd s) s log r
  never_back : ∀ t b, r = .ok t → 0 ≤ dist b s.sndMax → (∀ x ∈ log, 0 ≤ dist b x.seg.endSeq) → seqLEQ s.sndMax t.sndMax

theorem tcpOutputLog_window (s : Pcb) : SendWindow (slowStart s) (tcpOutputLog s).1 (tcpOutputLog s).2 where
  handsOver := tcpOutputLog_handsOver s
  never_back _ _ ht h0 he := (tcpOutputLog_handsOver s).never_back ht h0 he

/-- Every call of `tcp_output`, and of `tcp_rexmit` after it has put the segments of `unacked` back, hands over a
first part of `unsent` that ends within `MIN(snd_cwnd, snd_wnd)`, each segment going to `unacked` once; `snd_max`
only goes forward. -/
theorem send_window (s : Pcb) :
    (tcpOutputLog s).2 = tcpOutput s ∧ SameSend s (slowStart s) ∧
      SendWindow (slowStart s) (tcpOutputLog s).1 (tcpOutputLog s).2 ∧
      (tcpRexmitLog s).2 = tcpRexmit s ∧ SameSend (requeue s) (slowStart (requeue s)) ∧
      ((requeue s).unacked ++ (requeue s).unsent).Perm (s.unacked ++ s.unsent) ∧
      SendWindow (slowStart (requeue s)) (tcpRexmitLog s).1 (tcpRexmitLog s).2 :=
  ⟨tcpOutputLog_snd s, slowStart_send s, tcpOutputLog_window s, tcpOutputLog_snd (requeue s), slowStart_send (requeue s),
    requeue_perm s, tcpOutputLog_window (requeue s)⟩

end Onix.Tcp
