/-
The segments of the send side as pieces of the stream of enqueued bytes: those in `unacked`, `unsent`
and `snd_buf` are contiguous from the first unacknowledged byte to `snd_nbb`, and their payloads are the
bytes not yet acknowledged. `tcp_enqueue` goes on filling the Nagle buffer against the segment size of the
moment: it keeps the stream whole as long as that size is not below what the buffer holds already.
-/
import Onix.Lib.Stream
import Onix.Tcp.Output

namespace Onix.Tcp

open List Onix.Lib

/-! ## Segments -/

def Pbuf.seg (p : Pbuf) : Piece 32 UInt8 := ⟨p.seqno, p.data.take p.size⟩

def Pbuf.Whole (p : Pbuf) : Prop := p.size ≤ p.data.length ∧ p.size ≤ tcpMaxWindow

variable {p : Pbuf}

theorem Pbuf.Whole.length (h : p.Whole) : p.seg.data.length = p.size := by
  unfold Pbuf.seg
  rw [length_take]
  exact min_eq_left h.1

theorem Pbuf.Whole.stop (h : p.Whole) : p.seg.stop = p.endSeq := by
  unfold Piece.stop Pbuf.endSeq
  rw [h.length]
  rfl

def listed (s : Pcb) : List Pbuf := s.unacked ++ s.unsent

def listedSegs (s : Pcb) : List (Piece 32 UInt8) := (listed s).map Pbuf.seg

def held (s : Pcb) : List (Piece 32 UInt8) := s.sndBuf.toList.map Pbuf.seg

def segments (s : Pcb) : List (Piece 32 UInt8) := listedSegs s ++ held s

def Pbuf.core (p : Pbuf) : Seq × Nat × List UInt8 := (p.seqno, p.size, p.data)

theorem Pbuf.whole_core {q : Pbuf} (h : p.core = q.core) (hp : p.Whole) : q.Whole := by
  obtain ⟨-, h2⟩ := Prod.mk.inj h
  obtain ⟨h2, h3⟩ := Prod.mk.inj h2
  unfold Pbuf.Whole at *
  rwa [← h2, ← h3]

theorem queued_core (s : Pcb) :
    listedSegs s = ((listed s).map Pbuf.core).map fun c : Seq × Nat × List UInt8 => (⟨c.1, c.2.2.take c.2.1⟩ : Piece 32 UInt8) := by
  rw [map_map]
  rfl

/-! ## The stream -/

/-- The send side holds `rest`, the bytes from `snd_una` on: `q` are the queued segments in sequence order, of
which the first may begin `m` bytes before `snd_una`. -/
structure Holds (s : Pcb) (rest : List UInt8) : Prop where
  order : ∃ q a m, q.Perm (listedSegs s) ∧ Contig a q (queueEnd s) ∧ a + BitVec.ofNat 32 m = s.sndUna ∧ Headed m q ∧
    (content (q ++ held s)).drop m = rest
  whole : ∀ p ∈ listed s, p.Whole
  buf : ∀ p, s.sndBuf = some p → p.endSeq = s.sndNbb ∧ p.Whole
  count : (listed s).length + s.sndBuf.toList.length ≤ pbufMax
  mss : s.sndMss ≤ tcpMaxWindow

variable {rest : List UInt8} {s t : Pcb}

theorem Holds.same (h : Holds s rest) (e1 : t.sndUna = s.sndUna) (e2 : t.sndNbb = s.sndNbb)
    (e3 : t.sndBuf = s.sndBuf) (e4 : t.sndMss ≤ tcpMaxWindow)
    (e5 : ((listed t).map Pbuf.core).Perm ((listed s).map Pbuf.core)) : Holds t rest := by
  obtain ⟨q, a, m, hq, hc, hm, hh, hr⟩ := h.order
  have etop : queueEnd t = queueEnd s := by unfold queueEnd; rw [e3, e2]
  have eheld : held t = held s := by unfold held; rw [e3]
  refine ⟨⟨q, a, m, hq.trans ?_, ?_, ?_, hh, ?_⟩, fun p hp => ?_, ?_, ?_, e4⟩
  · rw [queued_core, queued_core]
    exact (e5.map _).symm
  · rwa [etop]
  · rwa [e1]
  · rwa [eheld]
  · obtain ⟨p', hp', e⟩ := mem_map.1 (e5.mem_iff.1 (mem_map_of_mem hp))
    exact Pbuf.whole_core e (h.whole p' hp')
  · rw [e3, e2]
    exact h.buf
  · have hl := e5.length_eq
    rw [length_map, length_map] at hl
    rw [hl, e3]
    exact h.count

theorem Holds.small (h : Holds s rest) : (content (listedSegs s)).length < 2 ^ 29 := by
  have h1 : (content (listedSegs s)).length ≤ ((listedSegs s).map fun g => g.data.length).sum := by
    unfold content
    rw [length_flatMap]
  have h2 : ((listedSegs s).map fun g => g.data.length).sum ≤ (listedSegs s).length * tcpMaxWindow := by
    refine (sum_le_card_nsmul _ tcpMaxWindow fun n hn => ?_).trans (by simp)
    obtain ⟨g, hg, rfl⟩ := mem_map.1 hn
    obtain ⟨p, hp, rfl⟩ := mem_map.1 hg
    rw [(h.whole p hp).length]
    exact (h.whole p hp).2
  have h3 : (listedSegs s).length ≤ pbufMax := by
    unfold listedSegs
    rw [length_map]
    exact (Nat.le_add_right _ _).trans h.count
  have h4 : pbufMax * tcpMaxWindow < 2 ^ 29 := by decide
  exact (h1.trans h2).trans_lt ((Nat.mul_le_mul_right _ h3).trans_lt h4)

/-! ## A round of `tcp_enqueue` -/

def filledBuf (src : Nat → UInt8) (ptr : Nat) (left : Int) (f : Flags) (s : Pcb) : Pbuf :=
  fillBuf src ptr left (enqueueLen s (enqueueBuf s f) left) f (enqueueBuf s f)

variable {f : Flags} {size ptr : Nat} {src : Nat → UInt8}

theorem tcpEnqueueSeg_cases {left len : Int}
    (hs : tcpEnqueueSeg src ptr left size f s = .ok (t, len)) :
    len = enqueueLen s (enqueueBuf s f) left ∧ (s.sndBuf = none → (listed s).length < pbufMax) ∧
      ((t = { s with sndNbb := s.sndNbb + BitVec.ofInt 32 len, sndBuf := some (filledBuf src ptr left f s) } ∧
          (filledBuf src ptr left f s).size < s.sndMss) ∨
        t = { s with
          sndNbb := s.sndNbb + BitVec.ofInt 32 len, unsent := insertSeg (filledBuf src ptr left f s) s.unsent, sndBuf := none }) := by
  unfold tcpEnqueueSeg at hs
  split at hs
  · cases hs
  rename_i hmem
  have hlt : s.sndBuf = none → (listed s).length < pbufMax := by
    intro hb
    unfold listed
    rw [length_append]
    simp only [hb, true_and, not_le] at hmem
    omega
  dsimp only at hs
  split at hs
  · rename_i hc
    obtain ⟨rfl, rfl⟩ := Prod.mk.inj (Except.ok.inj hs)
    exact ⟨rfl, hlt, .inl ⟨rfl, hc.2.1⟩⟩
  · obtain ⟨rfl, rfl⟩ := Prod.mk.inj (Except.ok.inj hs)
    exact ⟨rfl, hlt, .inr rfl⟩

def taken (src : Nat → UInt8) (ptr n : Nat) : List UInt8 := (List.range n).map fun i => src (ptr + i)

@[simp] theorem length_taken (src : Nat → UInt8) (ptr n : Nat) : (taken src ptr n).length = n := by simp [taken]

theorem taken_add (src : Nat → UInt8) (ptr m n : Nat) : taken src ptr (m + n) = taken src ptr m ++ taken src (ptr + m) n := by
  unfold taken
  rw [range_add, map_append, map_map]
  congr 1
  refine map_congr_left fun i _ => ?_
  show src (ptr + (m + i)) = _
  rw [Nat.add_assoc]

theorem fillBuf_core (src : Nat → UInt8) (ptr n : Nat) (left : Int) (f : Flags) (p : Pbuf) :
    (fillBuf src ptr left n f p).core = (p.seqno, p.size + n, p.data.take p.size ++ taken src ptr n) := by
  unfold fillBuf Pbuf.core taken
  dsimp only
  split <;> rfl

variable {n : Nat}

theorem fillBuf_seg {left : Int} (h : p.Whole)
    (hn : p.size + n ≤ tcpMaxWindow) :
    (fillBuf src ptr left n f p).seg = ⟨p.seqno, p.seg.data ++ taken src ptr n⟩ ∧ (fillBuf src ptr left n f p).Whole ∧
      (fillBuf src ptr left n f p).size = p.size + n := by
  have hc := fillBuf_core src ptr n left f p
  obtain ⟨h1, h2⟩ := Prod.mk.inj hc
  obtain ⟨h2, h3⟩ := Prod.mk.inj h2
  have hl : (p.data.take p.size ++ taken src ptr n).length = p.size + n := by
    rw [length_append, length_taken, length_take, min_eq_left h.1]
  refine ⟨?_, ⟨?_, ?_⟩, h2⟩
  · unfold Pbuf.seg
    rw [h1, h2, h3, take_of_length_le hl.le]
  · rw [h2, h3, hl]
  · rw [h2]
    exact hn

theorem enqueueLen_nat (h : p.size ≤ s.sndMss) (left : Nat) :
    enqueueLen s p left = (min left (s.sndMss - p.size) : Nat) := by
  unfold enqueueLen
  dsimp only
  split <;> omega

theorem enqueueBuf_whole (h : Holds s rest) (f : Flags) :
    (enqueueBuf s f).Whole ∧ (enqueueBuf s f).endSeq = s.sndNbb ∧ content (held s) = (enqueueBuf s f).seg.data := by
  unfold enqueueBuf held
  cases hb : s.sndBuf with
  | none => exact ⟨⟨le_refl 0, Nat.zero_le _⟩, BitVec.add_zero _, rfl⟩
  | some p =>
    obtain ⟨h1, h2⟩ := h.buf p hb
    exact ⟨h2, h1, by simp [content]⟩

/-- A round takes `n` bytes: it leaves the segments that were queued, and `g` of a fitting size. -/
structure Round (g : Piece 32 UInt8) (n : Nat) (s t : Pcb) : Prop where
  una : t.sndUna = s.sndUna
  mss : t.sndMss = s.sndMss
  nbb : t.sndNbb = s.sndNbb + BitVec.ofNat 32 n
  room : ∀ p, t.sndBuf = some p → p.size < t.sndMss
  size : g.data.length ≤ s.sndMss
  segs : ∀ x ∈ segments t, x ∈ listedSegs s ∨ x = g

theorem tcpEnqueueSeg_round {left : Nat} {len : Int}
    (h : Holds s rest) (hb : (enqueueBuf s f).size ≤ s.sndMss) (hs : tcpEnqueueSeg src ptr left size f s = .ok (t, len)) :
    ∃ n, len = (n : Nat) ∧ n = min left (s.sndMss - (enqueueBuf s f).size) ∧
      Round (filledBuf src ptr left f s).seg n s t ∧ Holds t (rest ++ taken src ptr n) := by
  obtain ⟨hlen, hmem, hcases⟩ := tcpEnqueueSeg_cases hs
  rw [enqueueLen_nat hb] at hlen
  obtain ⟨n, hn⟩ : ∃ n, n = min left (s.sndMss - (enqueueBuf s f).size) := ⟨_, rfl⟩
  rw [← hn] at hlen
  subst hlen
  refine ⟨n, rfl, hn, ?_⟩
  -- the buffer with the bytes in it
  have hfill : filledBuf src ptr left f s = fillBuf src ptr left (n : Int) f (enqueueBuf s f) := by
    unfold filledBuf
    rw [enqueueLen_nat hb, ← hn]
  have hmss := h.mss
  obtain ⟨hw, hend, hheld⟩ := enqueueBuf_whole h f
  obtain ⟨hseg, hw', hsize⟩ := @fillBuf_seg _ f ptr src n left hw (by omega)
  rw [← hfill] at hseg hw' hsize
  have hstop : (filledBuf src ptr left f s).endSeq = s.sndNbb + BitVec.ofInt 32 n := by
    rw [BitVec.ofInt_natCast, ← hend, ← hw'.stop, hseg, Piece.stop, length_append, length_taken, hw.length,
      ← ofNat_add_ofNat]
    rfl
  have hle : (filledBuf src ptr left f s).seg.data.length ≤ s.sndMss := by
    rw [hw'.length, hsize]
    omega
  have hcount : (listed s).length + 1 ≤ pbufMax := by
    cases hbuf : s.sndBuf with
    | none => exact hmem hbuf
    | some p =>
      have hc := h.count
      rw [hbuf] at hc
      exact hc
  have hstart : (filledBuf src ptr left f s).seqno = queueEnd s := by
    rw [← enqueueBuf_seqno s f]
    exact congrArg Piece.start hseg
  generalize filledBuf src ptr left f s = p at hcases hseg hw' hstop hle hstart ⊢
  have hbytes : p.seg.data = content (held s) ++ taken src ptr n := by rw [hseg, hheld]
  obtain ⟨q, a, m, hq, hc, hm, hh, hrest⟩ := h.order
  have hml := (hh.append (held s)).le
  rcases hcases with ⟨rfl, hlt⟩ | rfl
  · refine ⟨⟨rfl, rfl, by rw [← BitVec.ofInt_natCast], ?_, hle, fun x hx => ?_⟩,
      ⟨q, a, m, hq, ?_, hm, hh, ?_⟩, h.whole, ?_, hcount, hmss⟩
    · rintro p' ⟨⟩
      exact hlt
    · rcases mem_append.1 hx with hx | hx
      · exact .inl hx
      · exact .inr (mem_singleton.1 hx)
    · show Contig a q p.seqno
      rwa [hstart]
    · rw [← hrest, ← drop_append_of_le_length hml, content_append, content_append, append_assoc, ← hbytes]
      simp [held]
    · rintro p' ⟨⟩
      exact ⟨hstop, hw'⟩
  · have hperm : (listed { s with
        sndNbb := s.sndNbb + BitVec.ofInt 32 n, unsent := insertSeg p s.unsent, sndBuf := none }).Perm (p :: listed s) :=
      ((listInsertSort_perm p s.unsent).append_left s.unacked).trans perm_middle
    refine ⟨⟨rfl, rfl, by rw [← BitVec.ofInt_natCast], ?_, hle, fun x hx => ?_⟩,
      ⟨q ++ [p.seg], a, m, ?_, ?_, hm, hh.append _, ?_⟩, fun p' hp' => ?_, ?_, ?_, hmss⟩
    · rintro p' ⟨⟩
    · rw [segments, held, Option.toList_none, map_nil, append_nil] at hx
      rcases mem_cons.1 ((hperm.map Pbuf.seg).mem_iff.1 hx) with rfl | hx
      · exact .inr rfl
      · exact .inl hx
    · refine List.Perm.trans ?_ (hperm.map Pbuf.seg).symm
      exact (perm_append_singleton _ _).trans (hq.cons _)
    · refine hc.append ⟨hstart, ?_⟩
      rw [hw'.stop]
      exact hstop
    · rw [← hrest, ← drop_append_of_le_length hml]
      simp [held, hbytes, content]
    · rcases mem_cons.1 (hperm.mem_iff.1 hp') with rfl | hp'
      · exact hw'
      · exact h.whole p' hp'
    · rintro p' ⟨⟩
    · rw [hperm.length_eq]
      exact hcount

/-! ## `tcp_enqueue` -/

/-- A round of `tcp_enqueue`: what its buffer was when it was filled, and the `snd_mss` then. -/
structure Fill where
  seg : Piece 32 UInt8
  mss : Nat

def enqueueFills (src : Nat → UInt8) (size : Nat) (f : Flags) : Nat → Nat → Int → Pcb → List Fill
  | 0, _, _, _ => []
  | fuel + 1, ptr, left, s =>
    match tcpEnqueueSeg src ptr left size f s with
    | .error _ => []
    | .ok (t, len) =>
      ⟨(filledBuf src ptr left f s).seg, s.sndMss⟩ ::
        if 0 < left - len then enqueueFills src size f fuel (ptr + len.toNat) (left - len) t else []

def raiseMss (s : Pcb) : Pcb := if s.sndMss < tcpDefaultMss then { s with sndMss := tcpDefaultMss } else s

def tcpEnqueueFills (s : Pcb) (src : Nat → UInt8) (size : Nat) (f : Flags) : List Fill :=
  enqueueFills src size f (size + tcpMaxWindow + 2) 0 size (raiseMss s)

/-- Rounds that take `n` bytes: each of a fitting size, and each segment was queued before or filled by one of them. -/
structure Enqueued (fills : List Fill) (n : Nat) (s t : Pcb) : Prop where
  una : t.sndUna = s.sndUna
  nbb : t.sndNbb = s.sndNbb + BitVec.ofNat 32 n
  size : ∀ x ∈ fills, x.seg.data.length ≤ x.mss
  segs : ∀ g ∈ segments t, g ∈ listedSegs s ∨ ∃ x ∈ fills, x.seg = g

theorem Round.single {g : Piece 32 UInt8} (h : Round g n s t) : Enqueued [⟨g, s.sndMss⟩] n s t := by
  refine ⟨h.una, h.nbb, fun x hx => ?_, fun x hx => (h.segs x hx).imp_right fun e => ⟨_, mem_singleton_self _, e.symm⟩⟩
  obtain rfl := mem_singleton.1 hx
  exact h.size

variable {k : Nat} {u : Pcb}

theorem Round.cons {g : Piece 32 UInt8} {fills : List Fill} (h1 : Round g n s t)
    (h2 : Enqueued fills k t u) : Enqueued (⟨g, s.sndMss⟩ :: fills) (n + k) s u where
  una := h2.una.trans h1.una
  nbb := by rw [h2.nbb, h1.nbb, ofNat_add_ofNat]
  size x hx := by
    rcases mem_cons.1 hx with rfl | hx
    · exact h1.size
    · exact h2.size x hx
  segs x hx := by
    rcases h2.segs x hx with hx | ⟨y, hy, e⟩
    · refine (h1.segs x (mem_append_left _ hx)).imp_right fun e => ?_
      exact ⟨_, mem_cons_self .., e.symm⟩
    · exact .inr ⟨y, mem_cons_of_mem _ hy, e⟩

theorem enqueueLoop_holds : ∀ (fuel ptr left : Nat) (s u : Pcb) (rest : List UInt8),
    Holds s rest → (enqueueBuf s f).size ≤ s.sndMss → 0 < s.sndMss → left + s.sndBuf.toList.length < fuel →
    enqueueLoop src size f fuel ptr left s = .ok u →
    Enqueued (enqueueFills src size f fuel ptr left s) left s u ∧ Holds u (rest ++ taken src ptr left)
  | 0, _, _, _, _, _, _, _, _, hf, _ => absurd hf (Nat.not_lt_zero _)
  | fuel + 1, ptr, left, s, u, rest, h, hb, hm, hf, hs => by
    obtain ⟨⟨t, len⟩, h1, hr⟩ := bind_ok hs
    obtain ⟨n, rfl, hn, hround, ht⟩ := tcpEnqueueSeg_round h hb h1
    dsimp only at hr
    unfold enqueueFills
    rw [h1]
    dsimp only
    by_cases hgt : 0 < (left : Int) - (n : Nat)
    · rw [if_pos hgt] at hr ⊢
      obtain ⟨efull, hnone, -⟩ := tcpEnqueueSeg_full h1 hgt
      have hbuf : (enqueueBuf t f).size = 0 := by
        unfold enqueueBuf
        rw [hnone]
      -- a new buffer takes at least one byte, and the Nagle buffer is there for one round only
      have hfuel : left - n + t.sndBuf.toList.length < fuel := by
        rw [hnone]
        have hpos : s.sndBuf = none → 0 < n := by
          intro hsb
          unfold enqueueBuf at efull
          rw [hsb] at efull
          dsimp only at efull
          omega
        cases hsb : s.sndBuf with
        | none =>
          have := hpos hsb
          rw [hsb] at hf
          omega
        | some p =>
          rw [hsb] at hf
          simp only [Option.toList_none, Option.toList_some, length_nil, length_singleton] at hf ⊢
          omega
      have e : (left : Int) - (n : Nat) = ((left - n : Nat) : Int) := by omega
      rw [Int.toNat_natCast, e] at hr ⊢
      obtain ⟨h2, h3⟩ := enqueueLoop_holds fuel (ptr + n) (left - n) t u _ ht (by rw [hbuf]; exact Nat.zero_le _)
        (by rw [hround.mss]; exact hm) hfuel hr
      have hsum : n + (left - n) = left := by omega
      refine ⟨?_, ?_⟩
      · have := hround.cons h2
        rwa [hsum] at this
      · rwa [append_assoc, ← taken_add, hsum] at h3
    · rw [if_neg hgt] at hr ⊢
      obtain rfl : n = left := by omega
      cases hr
      exact ⟨hround.single, ht⟩

theorem raiseMss_holds (h : Holds s rest) : Holds (raiseMss s) rest := by
  unfold raiseMss
  split
  · exact h.same rfl rfl rfl (show tcpDefaultMss ≤ tcpMaxWindow by decide) (.refl _)
  · exact h

theorem raiseMss_mss (s : Pcb) : (raiseMss s).sndMss = max s.sndMss tcpDefaultMss := by
  unfold raiseMss
  split
  · rename_i h
    exact (max_eq_right h.le).symm
  · rename_i h
    exact (max_eq_left (not_lt.1 h)).symm

theorem raiseMss_buf (s : Pcb) : (raiseMss s).sndBuf = s.sndBuf ∧ (raiseMss s).sndUna = s.sndUna ∧ (raiseMss s).sndNbb = s.sndNbb ∧
    listedSegs (raiseMss s) = listedSegs s := by
  unfold raiseMss
  split <;> exact ⟨rfl, rfl, rfl, rfl⟩

theorem tcpEnqueue_holds (h : Holds s rest)
    (hb : (enqueueBuf s f).size ≤ max s.sndMss tcpDefaultMss) (hs : tcpEnqueue s src size f = .ok u) :
    Enqueued (tcpEnqueueFills s src size f) size s u ∧ Holds u (rest ++ taken src 0 size) := by
  obtain ⟨e1, e2, e3, e4⟩ := raiseMss_buf s
  have hmss := raiseMss_mss s
  have hbuf : (enqueueBuf (raiseMss s) f).size = (enqueueBuf s f).size := by
    unfold enqueueBuf
    rw [e1]
    cases s.sndBuf <;> rfl
  have hone : s.sndBuf.toList.length ≤ 1 := by cases s.sndBuf <;> simp
  have hw : 0 < tcpMaxWindow ∧ 0 < tcpDefaultMss := by decide
  obtain ⟨h1, h2⟩ := enqueueLoop_holds (size + tcpMaxWindow + 2) 0 size (raiseMss s) u rest (raiseMss_holds h)
    (by rw [hbuf, hmss]; exact hb) (by rw [hmss]; exact lt_max_of_lt_right hw.2) (by rw [e1]; omega) hs
  refine ⟨⟨h1.una.trans e2, by rw [h1.nbb, e3], h1.size, fun g hg => ?_⟩, h2⟩
  rw [← e4]
  exact h1.segs g hg

/-! ## Segments that move -/

/-- Segments move between the lists: the numbers stay, the bytes stay, and no segment is new. -/
structure Moves (s t : Pcb) : Prop where
  una : t.sndUna = s.sndUna
  nbb : t.sndNbb = s.sndNbb
  holds : ∀ {rest}, Holds s rest → Holds t rest
  segs : ∀ g ∈ segments t, g ∈ segments s

theorem Moves.refl (s : Pcb) : Moves s s := ⟨rfl, rfl, id, fun _ => id⟩

theorem Moves.trans (h1 : Moves s t) (h2 : Moves t u) : Moves s u :=
  ⟨h2.una.trans h1.una, h2.nbb.trans h1.nbb, fun h => h2.holds (h1.holds h), fun g hg => h1.segs g (h2.segs g hg)⟩

theorem Moves.same (e1 : t.sndUna = s.sndUna) (e2 : t.sndNbb = s.sndNbb) (e3 : t.sndBuf = s.sndBuf)
    (e4 : s.sndMss ≤ tcpMaxWindow → t.sndMss ≤ tcpMaxWindow)
    (e5 : ((listed t).map Pbuf.core).Perm ((listed s).map Pbuf.core)) : Moves s t := by
  refine ⟨e1, e2, fun h => h.same e1 e2 e3 (e4 h.mss) e5, fun g hg => ?_⟩
  unfold segments held at hg ⊢
  rw [e3, queued_core] at hg
  rw [queued_core]
  exact ((e5.map _).append_right _).mem_iff.1 hg

theorem Moves.frame (e : SameSend s t) : Moves s t := by
  refine .same e.una e.nbb e.buf (fun h => by rwa [e.mss]) ?_
  unfold listed
  rw [e.unacked, e.unsent]

theorem outputMove_moves {rest : List Pbuf} (hl : s.unsent = p :: rest) : Moves s (outputMove s p rest) := by
  have hperm : (insertSeg (sentSeg p) s.unacked ++ rest).Perm (sentSeg p :: (s.unacked ++ rest)) :=
    (listInsertSort_perm (sentSeg p) s.unacked).append_right rest
  have hcore : ((insertSeg (sentSeg p) s.unacked ++ rest).map Pbuf.core).Perm ((listed s).map Pbuf.core) := by
    refine (hperm.map _).trans ?_
    unfold listed
    rw [hl, map_cons, show (sentSeg p).core = p.core from rfl, ← map_cons]
    exact (perm_middle.map Pbuf.core).symm
  refine Moves.trans ?_ (.frame (tcpOutputSeg_send _ _))
  split
  · exact .same rfl rfl rfl id hcore
  · exact .same rfl rfl rfl id hcore

theorem outputLoop_moves (wnd : BitVec 32) : ∀ (l : List Pbuf) (s t : Pcb), s.unsent = l → outputLoop wnd l s = .ok t → Moves s t
  | [], s, _, _, h => by
    cases h
    exact .refl s
  | p :: rest, s, t, hl, h => by
    rw [outputLoop_cons] at h
    split at h
    · cases h
      exact .refl s
    · split at h
      · cases h
      · exact (outputMove_moves hl).trans (outputLoop_moves wnd rest _ t (outputMove_frame s p rest).2.2.1 h)

theorem tcpOutput_moves (h : tcpOutput s = .ok t) : Moves s t := by
  unfold tcpOutput at h
  have h0 := Moves.frame (slowStart_send s)
  dsimp only at h
  split at h
  · cases h
    exact h0
  · obtain ⟨u, h1, h⟩ := bind_ok h
    have h2 := h0.trans (outputLoop_moves _ _ _ u rfl h1)
    split at h
    · cases h
      exact h2.trans (.frame (tcpSendAck_send _ _))
    · cases h
      exact h2

theorem tcpRexmit_moves (h : tcpRexmit s = .ok t) : Moves s t := by
  refine Moves.trans (t := requeue s) (.same rfl rfl rfl id ?_) (tcpOutput_moves h)
  exact (requeue_perm s).map _

theorem deviceSent_moves (s : Pcb) (i : Nat) : Moves s (deviceSent s i) := by
  refine .same rfl rfl rfl id ?_
  unfold listed deviceSent
  rw [map_append, map_append]
  refine List.Perm.append_right _ (.of_eq (ext_getElem? fun j => ?_))
  rw [getElem?_map, getElem?_map, getElem?_modify]
  cases s.unacked[j]? with
  | none => rfl
  | some p =>
    by_cases hij : i = j
    · simp [hij, Pbuf.core]
    · simp [hij]

theorem tcpHandleDuppacks_moves (h : tcpHandleDuppacks s = .ok t) : Moves s t := by
  have hs : ∀ {v u : Pcb}, tcpRexmit v = .ok u → SameSend s v → Moves s u := fun h e => (Moves.frame e).trans (tcpRexmit_moves h)
  unfold tcpHandleDuppacks at h
  split at h
  · cases h
    exact .refl s
  split at h
  · split at h
    · cases h
    · obtain ⟨u, h1, h⟩ := bind_ok h
      cases h
      refine (hs h1 ?_).trans (.frame ⟨rfl, rfl, rfl, rfl, rfl, rfl, rfl, rfl⟩)
      exact ⟨rfl, rfl, rfl, rfl, rfl, rfl, rfl, rfl⟩
  · exact hs h ⟨rfl, rfl, rfl, rfl, rfl, rfl, rfl, rfl⟩

theorem flushBuf_moves (s : Pcb) (a : Seq) : Moves s (flushBuf s a) := by
  unfold flushBuf
  cases hb : s.sndBuf with
  | none => exact .refl s
  | some p =>
    dsimp only
    split
    · have hperm : (listed { s with unsent := insertSeg p s.unsent, sndBuf := none }).Perm (p :: listed s) :=
        ((listInsertSort_perm p s.unsent).append_left s.unacked).trans perm_middle
      have hheld : held s = [p.seg] := by
        unfold held
        rw [hb]
        rfl
      refine ⟨rfl, rfl, @fun rest h => ?_, fun g hg => ?_⟩
      · obtain ⟨q, b, m, hq, hc, hm, hh, hr⟩ := h.order
        obtain ⟨hend, hw⟩ := h.buf p hb
        have htop : queueEnd s = p.seqno := by
          unfold queueEnd
          rw [hb]
        rw [htop] at hc
        refine ⟨⟨q ++ [p.seg], b, m, ?_, hc.append ⟨rfl, ?_⟩, hm, hh.append _, ?_⟩, fun p' hp' => ?_, ?_, ?_, h.mss⟩
        · refine List.Perm.trans ?_ (hperm.map Pbuf.seg).symm
          exact (perm_append_singleton _ _).trans (hq.cons _)
        · show p.seg.stop = s.sndNbb
          rw [hw.stop, hend]
        · rw [← hr, hheld]
          simp [held]
        · rcases mem_cons.1 (hperm.mem_iff.1 hp') with rfl | hp'
          · exact hw
          · exact h.whole p' hp'
        · rintro p' ⟨⟩
        · have hc := h.count
          rw [hb] at hc
          rw [hperm.length_eq]
          exact hc
      · rw [segments, held, Option.toList_none, map_nil, append_nil] at hg
        unfold segments
        rw [hheld]
        rcases mem_cons.1 ((hperm.map Pbuf.seg).mem_iff.1 hg) with rfl | hg
        · exact mem_append_right _ (mem_singleton_self _)
        · exact mem_append_left _ hg
    · exact .refl s

/-! ## Acknowledgements -/

/-- The number is not after `snd_una`, or after it and not after the end of what is queued. -/
def AckQueued (s : Pcb) (ackno : Seq) : Prop :=
  seqGEQ s.sndUna ackno ∨ (0 ≤ dist s.sndUna ackno ∧ dist s.sndUna ackno ≤ dist s.sndUna (queueEnd s))

instance (s : Pcb) (a : Seq) : Decidable (AckQueued s a) := inferInstanceAs (Decidable (_ ∨ _))

/-- The first `k` bytes are acknowledged: `snd_una` moves by `k`, and no segment is new. -/
structure Drops (k : Nat) (s t : Pcb) : Prop where
  small : k < 2 ^ 31
  una : t.sndUna = s.sndUna + BitVec.ofNat 32 k
  nbb : t.sndNbb = s.sndNbb
  holds : ∀ {rest}, Holds s rest → k ≤ rest.length ∧ Holds t (rest.drop k)
  segs : ∀ g ∈ segments t, g ∈ segments s

theorem Moves.drops (h : Moves s t) : Drops 0 s t :=
  ⟨by decide, h.una.trans (BitVec.add_zero _).symm, h.nbb, fun hr => ⟨Nat.zero_le _, h.holds hr⟩, h.segs⟩

theorem Moves.before (h1 : Moves s t) (h2 : Drops k t u) : Drops k s u :=
  ⟨h2.small, h2.una.trans (by rw [h1.una]), h2.nbb.trans h1.nbb, fun hr => h2.holds (h1.holds hr),
    fun g hg => h1.segs g (h2.segs g hg)⟩

theorem Drops.moves (h1 : Drops k s t) (h2 : Moves t u) : Drops k s u :=
  ⟨h1.small, h2.una.trans h1.una, h2.nbb.trans h1.nbb, fun hr => (h1.holds hr).imp_right h2.holds,
    fun g hg => h1.segs g (h2.segs g hg)⟩

variable {a : Seq}

theorem dist_ofNat (hk : k < 2 ^ 30) (hn : n < 2 ^ 30) :
    dist (a + BitVec.ofNat 32 k) (a + BitVec.ofNat 32 n) = (n : Int) - k := by
  have h : ∀ m : Nat, m < 2 ^ 30 → dist a (a + BitVec.ofNat 32 m) = m := by
    intro m hm
    have := dist_add (a := a) (x := a) (k := m) (by rw [dist_self]; omega) (by rw [dist_self]; omega)
    rwa [dist_self, zero_add, BitVec.ofInt_natCast] at this
  have h1 := h k hk
  have h2 := h n hn
  show (a + BitVec.ofNat 32 n - (a + BitVec.ofNat 32 k)).toInt = _
  rw [dist_sub (a := a) (by omega) (by omega), h1, h2]

theorem eq_add_of_dist {x : Seq} (h : dist a x = k) : x = a + BitVec.ofNat 32 k := by
  have e : x - a = BitVec.ofNat 32 k := by
    rw [← BitVec.ofInt_natCast, ← h]
    exact (BitVec.ofInt_toInt).symm
  rw [← e, BitVec.add_comm, BitVec.sub_add_cancel]

theorem drop_moves (hk : dist s.sndUna a = k) (hq : dist s.sndUna a ≤ dist s.sndUna (queueEnd s))
    (e1 : t.sndUna = a) (e2 : t.sndNbb = s.sndNbb) (e3 : t.sndBuf = s.sndBuf) (e4 : t.sndMss = s.sndMss)
    (e5 : listed t = (listed s).filter fun p => decide (seqGT p.endSeq a)) : Drops k s t := by
  have ha := eq_add_of_dist hk
  have hsmall : k < 2 ^ 31 := by
    have := (dist_range s.sndUna a).2
    omega
  have etop : queueEnd t = queueEnd s := by unfold queueEnd; rw [e3, e2]
  have eheld : held t = held s := by unfold held; rw [e3]
  refine ⟨hsmall, e1.trans ha, e2, @fun rest h => ?_, fun g hg => ?_⟩
  · obtain ⟨q, b, m, hperm, hc, hm, hh, hr⟩ := h.order
    have hlen : (content q).length = (content (listedSegs s)).length :=
      (hperm.flatMap_right Piece.data).length_eq
    have hlt := h.small
    have hml := hh.le
    have hend := hc.stop
    -- the end of the queue, counted from `snd_una`
    rw [hk, ← hm, hend, dist_ofNat (by omega) (by omega)] at hq
    obtain ⟨c, m', hc', hm', hh', hdrop⟩ := @Contig.filter _ _ _ (fun x => decide (seqGT x a)) _ _ (m + k) hc (by omega) fun n hn => by
      refine decide_eq_decide.2 ?_
      show 0 < dist a (b + BitVec.ofNat 32 n) ↔ _
      rw [ha, ← hm, ofNat_add_ofNat, dist_ofNat (by omega) (by omega)]
      omega
    have hfilter : listedSegs t = (listedSegs s).filter fun g => decide (seqGT g.stop a) := by
      unfold listedSegs
      rw [e5, filter_map]
      refine congrArg (map Pbuf.seg) (filter_congr fun p hp => ?_)
      show _ = decide (seqGT p.seg.stop a)
      rw [(h.whole p hp).stop]
    have hrest : rest = (content q).drop m ++ content (held s) := by
      rw [← hr, content_append, drop_append_of_le_length hml]
    refine ⟨?_, ⟨_, c, m', ?_, ?_, ?_, hh', ?_⟩, fun p hp => ?_, ?_, ?_, ?_⟩
    · rw [hrest, length_append, length_drop]
      omega
    · rw [hfilter]
      exact hperm.filter _
    · rwa [etop]
    · rw [hm', ← ofNat_add_ofNat, hm, e1, ha]
    · rw [eheld, content_append, drop_append_of_le_length hh'.le, hdrop, hrest,
        drop_append_of_le_length (by rw [length_drop]; omega), drop_drop]
    · rw [e5] at hp
      exact h.whole p (mem_of_mem_filter hp)
    · rw [e3, e2]
      exact h.buf
    · rw [e5, e3]
      have := length_filter_le (fun p : Pbuf => decide (seqGT p.endSeq a)) (listed s)
      have := h.count
      omega
    · rw [e4]
      exact h.mss
  · unfold segments listedSegs at hg ⊢
    rw [e5, eheld] at hg
    refine (mem_append.1 hg).elim (fun hg => mem_append_left _ ?_) fun hg => mem_append_right _ hg
    obtain ⟨p, hp, rfl⟩ := mem_map.1 hg
    exact mem_map_of_mem (mem_of_mem_filter hp)

theorem AckQueued.frame (h : AckQueued s a) (e1 : t.sndUna = s.sndUna) (e2 : queueEnd t = queueEnd s) :
    AckQueued t a := by
  unfold AckQueued
  rwa [e1, e2]

variable {g : Segment}

theorem tcpUpdateAck_drops (ha : AckQueued s g.ackno) (hs : tcpUpdateAck s g = .ok t) :
    ∃ k, Drops k s t := by
  unfold tcpUpdateAck at hs
  split at hs
  · refine ⟨0, Moves.drops ?_⟩
    split at hs
    · refine Moves.trans ?_ (tcpHandleDuppacks_moves hs)
      exact .frame ⟨rfl, rfl, rfl, rfl, rfl, rfl, rfl, rfl⟩
    · cases hs
      exact .frame ⟨rfl, rfl, rfl, rfl, rfl, rfl, rfl, rfl⟩
  · rename_i hge
    obtain ⟨h0, hle⟩ := ha.resolve_left hge
    obtain ⟨u, h1, hs⟩ := bind_ok hs
    cases hs
    obtain ⟨v, hv, e1, e2, e3, e4, e5, e6⟩ : ∃ v, v = advanceUna (growCwnd s) g.ackno ∧ v.sndUna = g.ackno ∧
        v.sndNbb = s.sndNbb ∧ v.sndBuf = s.sndBuf ∧ v.sndMss = s.sndMss ∧ v.unacked = s.unacked ∧ v.unsent = s.unsent := by
      refine ⟨_, rfl, ?_⟩
      unfold advanceUna growCwnd tcpXmitTimer
      split <;> split <;> exact ⟨rfl, rfl, rfl, rfl, rfl, rfl⟩
    rw [← hv] at h1
    unfold dropAcked at h1
    split at h1
    · cases h1
    cases h1
    obtain ⟨k, hk⟩ := Int.eq_ofNat_of_zero_le h0
    refine ⟨k, Drops.moves (drop_moves hk hle ?_ ?_ ?_ ?_ ?_) (flushBuf_moves _ _)⟩
    · exact e1
    · exact e2
    · exact e3
    · exact e4
    · show v.unacked.filter _ ++ v.unsent.filter _ = _
      rw [e5, e6, ← filter_append]
      rfl

theorem tcpReceive_drops (ha : AckQueued s g.ackno) (hs : tcpReceive s g = .ok t) :
    ∃ k, Drops k s t := by
  obtain ⟨u, h1, hs⟩ := bind_ok hs
  cases hs
  have hlast : Moves u (if 0 < g.size then tcpUpdateBuf u g else u) := by
    split
    · exact .frame (tcpUpdateBuf_send u g)
    · exact .refl u
  split at h1
  · have hw := tcpUpdateWnd_send s g
    have htop : queueEnd (tcpUpdateWnd s g) = queueEnd s := by
      unfold queueEnd
      rw [hw.buf, hw.nbb]
    obtain ⟨k, hk⟩ := tcpUpdateAck_drops (ha.frame hw.una htop) h1
    exact ⟨k, ((Moves.frame hw).before hk).moves hlast⟩
  · cases h1
    exact ⟨0, hlast.drops⟩

theorem processState_established (hst : s.state = .established) (hs : processState s g = .ok t) :
    Moves s t := by
  unfold processState at hs
  rw [hst] at hs
  dsimp only at hs
  split at hs
  · cases hs
    exact .frame ⟨rfl, rfl, rfl, rfl, rfl, rfl, rfl, rfl⟩
  · cases hs
    exact .refl s

theorem tcpParseOption_moves {os : List TcpOpt} (hv : ∀ v ∈ os.filterMap TcpOpt.mss, v < 65536) :
    Moves s (tcpParseOption s os).1 := by
  obtain ⟨mss, e, h⟩ := tcpParseOption_send os s
  rw [e]
  refine .same rfl rfl rfl (fun hm => ?_) (.refl _)
  rcases h with rfl | ⟨n, hn⟩
  · exact hm
  · have := hv mss (mem_filterMap.2 ⟨_, hn, rfl⟩)
    show mss ≤ 65535
    omega

theorem tcpInput_drops (hst : s.state = .established)
    (hv : ∀ v ∈ g.options.filterMap TcpOpt.mss, v < 65536) (ha : Accepts s g → AckQueued s g.ackno)
    (hs : tcpInput s g = .ok t) : t.state = .closed ∨ ∃ k, Drops k s t := by
  have hp : Moves s (processPcb s g) :=
    (tcpParseOption_moves hv).trans (.frame ⟨rfl, rfl, rfl, rfl, rfl, rfl, rfl, rfl⟩)
  have hpst : (processPcb s g).state = .established := ((tcpParseOption_recv g.options s).state).trans hst
  rcases tcpInput_cases hs with ⟨-, rfl⟩ | ⟨-, -, hr⟩ | ⟨-, rfl⟩ | ⟨-, hr⟩ | ⟨hacc, u, hu, hr⟩
  · exact .inr ⟨0, (Moves.refl t).drops⟩
  · unfold tcpHandleReset at hr
    rw [hst, if_neg (by decide)] at hr
    obtain ⟨u, -, hr⟩ := bind_ok hr
    cases hr
    exact .inl rfl
  · exact .inr ⟨0, (tcpParseOption_moves hv).drops⟩
  · exact .inr ⟨0, (hp.trans (processState_established hpst hr)).drops⟩
  · have htop : (processPcb s g).sndUna = s.sndUna ∧ queueEnd (processPcb s g) = queueEnd s := by
      obtain ⟨mss, e, -⟩ := tcpParseOption_send g.options s
      unfold processPcb
      rw [e]
      exact ⟨rfl, rfl⟩
    obtain ⟨k, hk⟩ := tcpReceive_drops ((ha hacc).frame htop.1 htop.2) hu
    refine .inr ⟨k, (hp.before hk).moves (processState_established ?_ hr)⟩
    exact (tcpReceive_state hu).trans hpst

end Onix.Tcp
