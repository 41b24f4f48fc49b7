/-
The search of an ISO 9660 directory. Its records are packed into blocks, and what a block has left is zero: `left` goes down where the loop
meets a zero, which is not at the end of every block.
-/
import Onix.Namei.Calls

namespace Onix.Namei

open List Function Onix.Lib
open Walk (isoMatchName namelen)

variable {s t : State} {dir : Ino} {dev : Int} {path : List Char} {lba size off limit n k : Nat} {left : Int} {p : Ptr} {ptr : Option Ptr}
variable {w : Scan}
  {b : Buf} {l : List Ptr} {blocks : List (List Ptr)}

/-! ## Directories -/

/-- The records of a block from a place on: one after the other, up to the end of what belongs to the directory or to zeros. -/
inductive Packed (s : State) (b : Buf) (limit : Nat) : Nat → List Ptr → Prop
  | full : Packed s b limit limit []
  | pad {off : Nat} (h : off < limit) (hzero : ∀ j, off ≤ j → j < limit → s.data b j = 0) : Packed s b limit off []
  | record {off : Nat} {l : List Ptr} (hlen : s.isoLength ⟨b, off⟩ ≠ 0) (hend : off + s.isoLength ⟨b, off⟩ ≤ limit)
      (hrest : Packed s b limit (off + s.isoLength ⟨b, off⟩) l) : Packed s b limit off (⟨b, off⟩ :: l)

/-- The records of a directory of `size` bytes from block `lba` on, block by block. -/
inductive Extent (s : State) (dev : Int) : Nat → Nat → List (List Ptr) → Prop
  | nil {lba : Nat} : Extent s dev lba 0 []
  | cons {lba size : Nat} {l : List Ptr} {blocks : List (List Ptr)} (hpos : 0 < size)
      (hblock : Packed s ⟨dev, lba, ISO_BLOCK_SIZE⟩ (min ISO_BLOCK_SIZE size) 0 l)
      (hrest : Extent s dev (lba + 1) (size - ISO_BLOCK_SIZE) blocks) : Extent s dev lba size (l :: blocks)

def State.recordsEnd (s : State) (l : List Ptr) : Nat := (l.map s.isoLength).sum

def State.Padded (s : State) (b : Buf) (l : List Ptr) : Prop := s.recordsEnd l < ISO_BLOCK_SIZE ∧ s.isoLength ⟨b, s.recordsEnd l⟩ = 0

def State.AllPadded (s : State) (dev : Int) (lba : Nat) (blocks : List (List Ptr)) : Prop :=
  ∀ j l, blocks[j]? = some l → s.Padded ⟨dev, lba + j, ISO_BLOCK_SIZE⟩ l

/-! ## The search -/

def State.takes (s : State) (path : List Char) (p : Ptr) : Bool := isoMatchName path (namelen path).1 (s.isoName p)

/-- The records a search has looked at, how many blocks it has read, and what it has found. -/
structure Scan where
  examined : List Ptr
  reads : Nat
  result : Option Ptr

/-- How a search goes on that ends, from the next block, the bytes it counts as left and the pointer. -/
inductive Scans (s : State) (dev : Int) (path : List Char) : Nat → Int → Option Ptr → Scan → Prop
  | done {lba : Nat} {left : Int} {ptr : Option Ptr} (h : left ≤ 0) : Scans s dev path lba left ptr ⟨[], 0, none⟩
  | turn {lba : Nat} {left : Int} {ptr : Option Ptr} {w : Scan} (h : 0 < left) (hptr : ∀ p, ptr = some p → ISO_BLOCK_SIZE ≤ p.off)
      (hrest : Scans s dev path (lba + 1) left (some ⟨⟨dev, lba, ISO_BLOCK_SIZE⟩, 0⟩) w) :
      Scans s dev path lba left ptr ⟨w.examined, w.reads + 1, w.result⟩
  | pad {lba : Nat} {left : Int} {p : Ptr} {w : Scan} (h : 0 < left) (hp : p.off < ISO_BLOCK_SIZE) (hlen : s.isoLength p = 0)
      (hrest : Scans s dev path lba (left - ISO_BLOCK_SIZE) (some ⟨p.buf, ISO_BLOCK_SIZE⟩) w) : Scans s dev path lba left (some p) w
  | hit {lba : Nat} {left : Int} {p : Ptr} (h : 0 < left) (hp : p.off < ISO_BLOCK_SIZE) (hlen : s.isoLength p ≠ 0)
      (hm : s.takes path p = true) : Scans s dev path lba left (some p) ⟨[p], 0, some p⟩
  | miss {lba : Nat} {left : Int} {p : Ptr} {w : Scan} (h : 0 < left) (hp : p.off < ISO_BLOCK_SIZE) (hlen : s.isoLength p ≠ 0)
      (hm : s.takes path p = false) (hrest : Scans s dev path lba left (some ⟨p.buf, p.off + s.isoLength p⟩) w) :
      Scans s dev path lba left (some p) ⟨p :: w.examined, w.reads, w.result⟩

def State.after (s : State) (b : Option Buf) (k : Nat) : State :=
  { s with reads := s.reads + k, bufs := fun c => s.bufs c + if b = some c then 1 else 0 }

def State.waiting (s : State) (patience : Nat) : State := { s with patience := patience }

/-! ### The loop goes as a search does -/

theorem brelse_some (h : s.bufs b ≠ 0) : brelse (some b) s = .ok (⟨⟩, { s with bufs := update s.bufs b (s.bufs b - 1) }) := by
  show (ensure .assertion (s.bufs b ≠ 0) >>= fun _ => set _ : Prog PUnit) s = _
  unfold ensure
  rw [if_pos h]
  rfl

theorem brelse_after (s : State) (b : Option Buf) (k : Nat) : brelse b (s.after b k) = .ok (⟨⟩, s.after none k) := by
  cases b with
  | none => rfl
  | some b =>
    have hbufs : update (s.after (some b) k).bufs b ((s.after (some b) k).bufs b - 1) = (s.after none k).bufs := by
      funext c
      by_cases hc : c = b
      · subst hc
        simp [State.after]
      · rw [update_of_ne hc]
        simp [State.after, Ne.symm hc]
    rw [brelse_some (by simp [State.after]), hbufs]
    rfl

theorem getBuf_after (s : State) (b : Buf) (k : Nat) : getBuf b (s.after none k) = .ok (⟨⟩, s.after (some b) k) := by
  have hbufs : update (s.after none k).bufs b ((s.after none k).bufs b + 1) = (s.after (some b) k).bufs := by
    funext c
    by_cases hc : c = b
    · subst hc
      simp [State.after]
    · rw [update_of_ne hc]
      simp [State.after, Ne.symm hc]
  have hget : getBuf b (s.after none k) = .ok (⟨⟩, { s.after none k with bufs := update (s.after none k).bufs b ((s.after none k).bufs b + 1) }) := rfl
  rw [hget, hbufs]
  rfl

theorem bread_after (s : State) (dev : Int) (block size k : Nat) : bread dev block size (s.after none k) =
    if s.faulty (s.reads + k) then .ok (none, s.after none (k + 1)) else .ok (some ⟨dev, block, size⟩, s.after (some ⟨dev, block, size⟩) (k + 1)) := by
  show (if s.faulty (s.reads + k) then Pure.pure none else _ : Prog (Option Buf)) _ = _
  cases hf : s.faulty (s.reads + k) with
  | true => rfl
  | false =>
    show (getBuf ⟨dev, block, size⟩ >>= fun _ => Pure.pure (some ⟨dev, block, size⟩) : Prog (Option Buf)) (s.after none (k + 1)) = _
    show (getBuf ⟨dev, block, size⟩ (s.after none (k + 1)) >>= fun x => _ : Except Stop (Option Buf × State)) = _
    rw [getBuf_after]
    rfl

theorem isoTurn_after (s : State) (dir : Ino) (lba k : Nat) : isoLoop.isoTurn dir lba (s.after none k) =
    if s.faulty (s.reads + k) then .error .assertion
    else .ok ((⟨⟨(s.slot dir).dev, lba, ISO_BLOCK_SIZE⟩, 0⟩, lba + 1), s.after (some ⟨(s.slot dir).dev, lba, ISO_BLOCK_SIZE⟩) (k + 1)) := by
  show (bread (s.slot dir).dev lba ISO_BLOCK_SIZE (s.after none k) >>= fun x => _ : Except Stop ((Ptr × Nat) × State)) = _
  rw [bread_after]
  cases s.faulty (s.reads + k) with
  | true => rfl
  | false => rfl

theorem isoSeek_after (s : State) (dir : Ino) (lba k : Nat) (hptr : ∀ p, ptr = some p → ISO_BLOCK_SIZE ≤ p.off) :
    isoLoop.isoSeek dir lba ptr (s.after (ptr.map Ptr.buf) k) = isoLoop.isoTurn dir lba (s.after none k) := by
  cases ptr with
  | none => rfl
  | some p =>
    show (if p.off < ISO_BLOCK_SIZE then Pure.pure (p, lba) else _ : Prog (Ptr × Nat)) _ = _
    rw [if_neg (Nat.not_lt_of_le (hptr p rfl))]
    show (brelse (some p.buf) (s.after (some p.buf) k) >>= fun x => _ : Except Stop ((Ptr × Nat) × State)) = _
    rw [brelse_after]
    rfl

/-! One round of the loop. -/

theorem isoLoop_done (h : left ≤ 0) : isoLoop dir path (n + 1) lba left ptr (s.after (ptr.map Ptr.buf) k) = .ok (none, s.after none k) := by
  unfold isoLoop
  rw [if_pos h]
  show (brelse (ptr.map Ptr.buf) (s.after (ptr.map Ptr.buf) k) >>= fun x => _ : Except Stop (Option Ptr × State)) = _
  rw [brelse_after]
  rfl

theorem isoLoop_at (h : 0 < left) (hp : p.off < ISO_BLOCK_SIZE) : isoLoop dir path (n + 1) lba left (some p) (s.after (some p.buf) k) =
    if s.isoLength p = 0 then isoLoop dir path n lba (left - ISO_BLOCK_SIZE) (some ⟨p.buf, ISO_BLOCK_SIZE⟩) (s.after (some p.buf) k)
    else if s.takes path p then .ok (some p, s.after (some p.buf) k)
    else isoLoop dir path n lba left (some ⟨p.buf, p.off + s.isoLength p⟩) (s.after (some p.buf) k) := by
  conv => lhs; unfold isoLoop
  rw [if_neg (Int.not_le.2 h)]
  have hseek : isoLoop.isoSeek dir lba (some p) (s.after (some p.buf) k) = .ok ((p, lba), s.after (some p.buf) k) := by
    show (if p.off < ISO_BLOCK_SIZE then Pure.pure (p, lba) else _ : Prog (Ptr × Nat)) _ = _
    rw [if_pos hp]
    rfl
  show (isoLoop.isoSeek dir lba (some p) (s.after (some p.buf) k) >>= fun x => _ : Except Stop (Option Ptr × State)) = _
  rw [hseek]
  show (if s.isoLength p = 0 then _ else if s.takes path p = true then Pure.pure (some p) else _ : Prog (Option Ptr)) _ = _
  split
  · rfl
  · split
    · rfl
    · rfl

theorem isoLoop_turn (h : 0 < left) (hptr : ∀ p, ptr = some p → ISO_BLOCK_SIZE ≤ p.off) :
    isoLoop dir path (n + 1) lba left ptr (s.after (ptr.map Ptr.buf) k) =
      if s.faulty (s.reads + k) then .error .assertion
      else isoLoop dir path (n + 1) (lba + 1) left (some ⟨⟨(s.slot dir).dev, lba, ISO_BLOCK_SIZE⟩, 0⟩)
        (s.after (some ⟨(s.slot dir).dev, lba, ISO_BLOCK_SIZE⟩) (k + 1)) := by
  have hat : isoLoop dir path (n + 1) (lba + 1) left (some ⟨⟨(s.slot dir).dev, lba, ISO_BLOCK_SIZE⟩, 0⟩)
      (s.after (some ⟨(s.slot dir).dev, lba, ISO_BLOCK_SIZE⟩) (k + 1)) = _ := isoLoop_at h (Nat.zero_lt_succ 2047)
  rw [hat]
  conv => lhs; unfold isoLoop
  rw [if_neg (Int.not_le.2 h)]
  show (isoLoop.isoSeek dir lba ptr (s.after (ptr.map Ptr.buf) k) >>= fun x => _ : Except Stop (Option Ptr × State)) = _
  rw [isoSeek_after s dir lba k hptr, isoTurn_after]
  cases s.faulty (s.reads + k) with
  | true => rfl
  | false =>
    show (if s.isoLength ⟨⟨(s.slot dir).dev, lba, ISO_BLOCK_SIZE⟩, 0⟩ = 0 then _
      else if s.takes path ⟨⟨(s.slot dir).dev, lba, ISO_BLOCK_SIZE⟩, 0⟩ = true then Pure.pure (some _) else _ : Prog (Option Ptr)) _ = _
    split
    · rfl
    · split
      · rfl
      · rfl

theorem loop_of_scans (h : Scans s (s.slot dir).dev path lba left ptr w) : ∀ k, (∀ i < w.reads, s.faulty (s.reads + (k + i)) = false) →
    ∃ m, ∀ patience, ∀ n ≥ m, isoLoop dir path n lba left ptr ((s.waiting patience).after (ptr.map Ptr.buf) k) =
      .ok (w.result, (s.waiting patience).after (w.result.map Ptr.buf) (k + w.reads)) := by
  induction h with
  | done h =>
    refine fun k _ => ⟨1, fun patience n hn => ?_⟩
    obtain ⟨n, rfl⟩ := Nat.exists_eq_add_of_le' hn
    exact isoLoop_done h
  | @turn lba left ptr w h hptr _ ih =>
    intro k hread
    obtain ⟨m, hm⟩ := ih (k + 1) fun i hi => by
      have := hread (i + 1) (Nat.succ_lt_succ hi)
      rwa [add_comm i 1, ← add_assoc k] at this
    refine ⟨m + 1, fun patience n hn => ?_⟩
    obtain ⟨n, rfl⟩ := Nat.exists_eq_add_of_le' (le_trans (Nat.succ_le_succ (Nat.zero_le m)) hn)
    have hread : ¬ (s.waiting patience).faulty ((s.waiting patience).reads + k) = true :=
      fun h => Bool.noConfusion (h.symm.trans (hread 0 (Nat.succ_pos _)))
    refine (isoLoop_turn h hptr).trans ((if_neg hread).trans ?_)
    rw [add_comm w.reads, ← add_assoc]
    exact hm patience (n + 1) (Nat.le_of_succ_le hn)
  | @pad lba left p w h hp hlen _ ih =>
    intro k hread
    obtain ⟨m, hm⟩ := ih k hread
    refine ⟨m + 1, fun patience n hn => ?_⟩
    obtain ⟨n, rfl⟩ := Nat.exists_eq_add_of_le' (le_trans (Nat.succ_le_succ (Nat.zero_le m)) hn)
    exact (isoLoop_at h hp).trans ((if_pos hlen).trans (hm patience n (Nat.le_of_succ_le_succ hn)))
  | @hit lba left p h hp hlen htake =>
    refine fun k _ => ⟨1, fun patience n hn => ?_⟩
    obtain ⟨n, rfl⟩ := Nat.exists_eq_add_of_le' hn
    exact (isoLoop_at h hp).trans ((if_neg hlen).trans (if_pos htake))
  | @miss lba left p w h hp hlen htake _ ih =>
    intro k hread
    obtain ⟨m, hm⟩ := ih k hread
    refine ⟨m + 1, fun patience n hn => ?_⟩
    obtain ⟨n, rfl⟩ := Nat.exists_eq_add_of_le' (le_trans (Nat.succ_le_succ (Nat.zero_le m)) hn)
    have htake : ¬ s.takes path p = true := fun h => Bool.noConfusion (h.symm.trans htake)
    exact (isoLoop_at h hp).trans ((if_neg hlen).trans ((if_neg htake).trans (hm patience n (Nat.le_of_succ_le_succ hn))))

theorem scans_of_loop {r : Option Ptr} : ∀ (n lba : Nat) (left : Int) (ptr : Option Ptr) (k : Nat),
    isoLoop dir path n lba left ptr (s.after (ptr.map Ptr.buf) k) = .ok (r, t) →
      ∃ w, Scans s (s.slot dir).dev path lba left ptr w ∧ r = w.result ∧ t = s.after (w.result.map Ptr.buf) (k + w.reads)
  | 0, _, _, _, _, h => nomatch h
  | n + 1, lba, left, ptr, k, h => by
    by_cases hleft : left ≤ 0
    · rw [isoLoop_done hleft] at h
      cases h
      exact ⟨_, .done hleft, rfl, rfl⟩
    have hleft := Int.not_le.1 hleft
    have hat : ∀ (lba : Nat) (p : Ptr) (k : Nat), p.off < ISO_BLOCK_SIZE →
        isoLoop dir path (n + 1) lba left (some p) (s.after (some p.buf) k) = .ok (r, t) →
          ∃ w, Scans s (s.slot dir).dev path lba left (some p) w ∧ r = w.result ∧ t = s.after (w.result.map Ptr.buf) (k + w.reads) := by
      intro lba p k hp h
      rw [isoLoop_at hleft hp] at h
      by_cases hlen : s.isoLength p = 0
      · rw [if_pos hlen] at h
        obtain ⟨w, hw, hr⟩ := scans_of_loop n lba _ (some ⟨p.buf, ISO_BLOCK_SIZE⟩) k h
        exact ⟨w, .pad hleft hp hlen hw, hr⟩
      rw [if_neg hlen] at h
      cases htake : s.takes path p with
      | true =>
        rw [if_pos htake] at h
        cases h
        exact ⟨_, .hit hleft hp hlen htake, rfl, rfl⟩
      | false =>
        rw [if_neg fun he => Bool.noConfusion (htake.symm.trans he)] at h
        obtain ⟨w, hw, hr⟩ := scans_of_loop n lba _ (some ⟨p.buf, p.off + s.isoLength p⟩) k h
        exact ⟨_, .miss hleft hp hlen htake hw, hr⟩
    by_cases hptr : ∀ p, ptr = some p → ISO_BLOCK_SIZE ≤ p.off
    · rw [isoLoop_turn hleft hptr] at h
      cases hread : s.faulty (s.reads + k) with
      | true =>
        rw [if_pos hread] at h
        cases h
      | false =>
        rw [if_neg fun he => Bool.noConfusion (hread.symm.trans he)] at h
        obtain ⟨w, hw, hr, ht⟩ := hat (lba + 1) _ (k + 1) (Nat.zero_lt_succ 2047) h
        refine ⟨_, .turn hleft hptr hw, hr, ?_⟩
        rw [ht, add_assoc, add_comm 1]
    · push Not at hptr
      obtain ⟨p, rfl, hp⟩ := hptr
      exact hat lba p k hp h

/-! ### One step of a search -/

theorem scans_done (h : left ≤ 0) : Scans s dev path lba left ptr w ↔ w = ⟨[], 0, none⟩ := by
  constructor
  · intro hw
    cases hw with
    | done => rfl
    | turn h' => omega
    | pad h' => omega
    | hit h' => omega
    | miss h' => omega
  · rintro rfl
    exact .done h

theorem scans_turn (h : 0 < left) (hptr : ∀ p, ptr = some p → ISO_BLOCK_SIZE ≤ p.off) : Scans s dev path lba left ptr w ↔
    ∃ v, Scans s dev path (lba + 1) left (some ⟨⟨dev, lba, ISO_BLOCK_SIZE⟩, 0⟩) v ∧ w = ⟨v.examined, v.reads + 1, v.result⟩ := by
  constructor
  · intro hw
    cases hw with
    | done h' => omega
    | turn _ _ hrest => exact ⟨_, hrest, rfl⟩
    | pad _ hp => exact absurd (hptr _ rfl) (Nat.not_le_of_lt hp)
    | hit _ hp => exact absurd (hptr _ rfl) (Nat.not_le_of_lt hp)
    | miss _ hp => exact absurd (hptr _ rfl) (Nat.not_le_of_lt hp)
  · rintro ⟨v, hv, rfl⟩
    exact .turn h hptr hv

theorem scans_pad (h : 0 < left) (hp : p.off < ISO_BLOCK_SIZE) (hlen : s.isoLength p = 0) :
    Scans s dev path lba left (some p) w ↔ Scans s dev path lba (left - ISO_BLOCK_SIZE) (some ⟨p.buf, ISO_BLOCK_SIZE⟩) w := by
  constructor
  · intro hw
    cases hw with
    | done h' => omega
    | turn _ hptr => exact absurd (hptr p rfl) (Nat.not_le_of_lt hp)
    | pad _ _ _ hrest => exact hrest
    | hit _ _ h' => exact absurd hlen h'
    | miss _ _ h' => exact absurd hlen h'
  · exact .pad h hp hlen

theorem scans_record (h : 0 < left) (hp : p.off < ISO_BLOCK_SIZE) (hlen : s.isoLength p ≠ 0) :
    Scans s dev path lba left (some p) w ↔
      if s.takes path p then w = ⟨[p], 0, some p⟩
      else ∃ v, Scans s dev path lba left (some ⟨p.buf, p.off + s.isoLength p⟩) v ∧ w = ⟨p :: v.examined, v.reads, v.result⟩ := by
  cases hm : s.takes path p with
  | true =>
    constructor
    · intro hw
      cases hw with
      | done h' => omega
      | turn _ hptr => exact absurd (hptr p rfl) (Nat.not_le_of_lt hp)
      | pad _ _ h' => exact absurd h' hlen
      | hit => rfl
      | miss _ _ _ h' => exact Bool.noConfusion (hm.symm.trans h')
    · rintro rfl
      exact .hit h hp hlen hm
  | false =>
    constructor
    · intro hw
      cases hw with
      | done h' => omega
      | turn _ hptr => exact absurd (hptr p rfl) (Nat.not_le_of_lt hp)
      | pad _ _ h' => exact absurd h' hlen
      | hit _ _ _ h' => exact Bool.noConfusion (h'.symm.trans hm)
      | miss _ _ _ _ hrest => exact ⟨_, hrest, rfl⟩
    · rintro ⟨v, hv, rfl⟩
      exact .miss h hp hlen hm hv

/-! ### Blocks -/

/-- The search that looks at the records in order, up to the first that `f` holds of. -/
def expected (f : Ptr → Bool) : List (List Ptr) → Scan
  | [] => ⟨[], 0, none⟩
  | l :: blocks =>
    match l.find? f with
    | some p => ⟨l.takeWhile (fun q => !f q) ++ [p], 1, some p⟩
    | none => ⟨l ++ (expected f blocks).examined, (expected f blocks).reads + 1, (expected f blocks).result⟩

theorem scans_packed (hb : Packed s b limit off l) (hlimit : limit ≤ ISO_BLOCK_SIZE) (h : 0 < left) : ∀ w,
    Scans s dev path lba left (some ⟨b, off⟩) w ↔
      match l.find? (s.takes path) with
      | some p => w = ⟨l.takeWhile (fun q => !s.takes path q) ++ [p], 0, some p⟩
      | none => ∃ v, Scans s dev path lba left (some ⟨b, off + s.recordsEnd l⟩) v ∧ w = ⟨l ++ v.examined, v.reads, v.result⟩ := by
  have hend : ∀ {off : Nat} {w : Scan}, Scans s dev path lba left (some ⟨b, off⟩) w ↔
      ∃ v, Scans s dev path lba left (some ⟨b, off + s.recordsEnd []⟩) v ∧ w = ⟨[] ++ v.examined, v.reads, v.result⟩ := by
    intro off w
    constructor
    · exact fun hw => ⟨w, hw, rfl⟩
    · rintro ⟨v, hv, rfl⟩
      exact hv
  induction hb with
  | full => exact fun w => hend
  | pad => exact fun w => hend
  | @record off l hlen hle _ ih =>
    intro w
    have hp : off < ISO_BLOCK_SIZE := by omega
    rw [scans_record h hp hlen, find?_cons, takeWhile_cons]
    cases hm : s.takes path ⟨b, off⟩ with
    | true => rfl
    | false =>
      have hsum : off + s.recordsEnd (⟨b, off⟩ :: l) = off + s.isoLength ⟨b, off⟩ + s.recordsEnd l := (add_assoc ..).symm
      rw [hsum]
      cases hfind : l.find? (s.takes path) with
      | some p =>
        simp only [hfind] at ih ⊢
        constructor
        · rintro ⟨v, hv, rfl⟩
          rw [(ih v).1 hv]
          rfl
        · rintro rfl
          exact ⟨_, (ih _).2 rfl, rfl⟩
      | none =>
        simp only [hfind] at ih ⊢
        constructor
        · rintro ⟨v, hv, rfl⟩
          obtain ⟨u, hu, rfl⟩ := (ih v).1 hv
          exact ⟨u, hu, rfl⟩
        · rintro ⟨u, hu, rfl⟩
          exact ⟨_, (ih _).2 ⟨u, hu, rfl⟩, rfl⟩

theorem Packed.ends (hb : Packed s b limit off l) : off + s.recordsEnd l ≤ limit ∧
    (off + s.recordsEnd l = limit ∨ s.isoLength ⟨b, off + s.recordsEnd l⟩ = 0) := by
  induction hb with
  | full => exact ⟨le_refl _, .inl rfl⟩
  | @pad off h hzero =>
    refine ⟨le_of_lt h, .inr ?_⟩
    show (s.data b off).toNat = 0
    rw [hzero _ (le_refl _) h]
    rfl
  | @record off l _ _ _ ih =>
    rw [show off + s.recordsEnd (⟨b, off⟩ :: l) = off + s.isoLength ⟨b, off⟩ + s.recordsEnd l from (add_assoc ..).symm]
    exact ih

/-! ### The directory -/

theorem Extent.length (h : Extent s dev lba size blocks) : ISO_BLOCK_SIZE * blocks.length < size + ISO_BLOCK_SIZE ∧
    size ≤ ISO_BLOCK_SIZE * blocks.length := by
  induction h with
  | nil => exact ⟨Nat.zero_lt_succ 2047, le_refl 0⟩
  | cons hpos _ _ ih =>
    unfold ISO_BLOCK_SIZE at ih ⊢
    rw [length_cons]
    omega

theorem allPadded_cons : s.AllPadded dev lba (l :: blocks) ↔ s.Padded ⟨dev, lba, ISO_BLOCK_SIZE⟩ l ∧ s.AllPadded dev (lba + 1) blocks := by
  constructor
  · intro h
    refine ⟨h 0 l rfl, fun j m hm => ?_⟩
    have := h (j + 1) m hm
    rwa [add_comm j 1, ← add_assoc] at this
  · rintro ⟨h0, h⟩ j m hm
    cases j with
    | zero =>
      cases hm
      exact h0
    | succ j =>
      have := h j m hm
      rwa [add_assoc, add_comm 1 j] at this

theorem scans_block (hb : Packed s ⟨dev, lba, ISO_BLOCK_SIZE⟩ limit 0 l) (hlimit : limit ≤ ISO_BLOCK_SIZE) (h : 0 < left)
    (hptr : ∀ p, ptr = some p → ISO_BLOCK_SIZE ≤ p.off) (w : Scan) : Scans s dev path lba left ptr w ↔
      match l.find? (s.takes path) with
      | some p => w = ⟨l.takeWhile (fun q => !s.takes path q) ++ [p], 1, some p⟩
      | none => ∃ v, Scans s dev path (lba + 1) left (some ⟨⟨dev, lba, ISO_BLOCK_SIZE⟩, s.recordsEnd l⟩) v ∧
          w = ⟨l ++ v.examined, v.reads + 1, v.result⟩ := by
  rw [scans_turn h hptr]
  have hrecords : ∀ w, Scans s dev path (lba + 1) left (some ⟨⟨dev, lba, ISO_BLOCK_SIZE⟩, 0⟩) w ↔ _ := scans_packed hb hlimit h
  rw [zero_add] at hrecords
  cases hfind : l.find? (s.takes path) with
  | some p =>
    simp only [hfind] at hrecords ⊢
    constructor
    · rintro ⟨v, hv, rfl⟩
      rw [(hrecords v).1 hv]
    · rintro rfl
      exact ⟨_, (hrecords _).2 rfl, rfl⟩
  | none =>
    simp only [hfind] at hrecords ⊢
    constructor
    · rintro ⟨v, hv, rfl⟩
      obtain ⟨u, hu, rfl⟩ := (hrecords v).1 hv
      exact ⟨u, hu, rfl⟩
    · rintro ⟨u, hu, rfl⟩
      exact ⟨_, (hrecords _).2 ⟨u, hu, rfl⟩, rfl⟩

theorem Packed.stops (hb : Packed s b (min ISO_BLOCK_SIZE size) 0 l) : s.recordsEnd l = ISO_BLOCK_SIZE ∨ s.Padded b l ∨
    s.recordsEnd l < ISO_BLOCK_SIZE ∧ s.isoLength ⟨b, s.recordsEnd l⟩ ≠ 0 ∧ size ≤ ISO_BLOCK_SIZE := by
  obtain ⟨hle, hend⟩ := hb.ends
  rw [zero_add] at hle hend
  have hle : s.recordsEnd l ≤ ISO_BLOCK_SIZE := le_trans hle (Nat.min_le_left _ _)
  rcases Nat.eq_or_lt_of_le hle with heq | hlt
  · exact .inl heq
  by_cases hlen : s.isoLength ⟨b, s.recordsEnd l⟩ = 0
  · exact .inr (.inl ⟨hlt, hlen⟩)
  · have hend := hend.resolve_right hlen
    exact .inr (.inr ⟨hlt, hlen, by omega⟩)

theorem Extent.eq_nil (h : Extent s dev lba size blocks) (hsize : size = 0) : blocks = [] := by
  cases h with
  | nil => rfl
  | cons hpos => omega

theorem scans_extent (hext : Extent s dev lba size blocks) : ∀ (left : Int) (ptr : Option Ptr), (∀ p, ptr = some p → ISO_BLOCK_SIZE ≤ p.off) →
    (ISO_BLOCK_SIZE * blocks.length : Nat) < left + ISO_BLOCK_SIZE →
    ((∃ p ∈ blocks.flatten, s.takes path p = true) ∨ s.AllPadded dev lba blocks ∧ left ≤ (ISO_BLOCK_SIZE * blocks.length : Nat)) →
    ∀ w, Scans s dev path lba left ptr w ↔ w = expected (s.takes path) blocks := by
  induction hext with
  | nil =>
    rintro left ptr _ _ (⟨p, hp, _⟩ | ⟨-, hle⟩) w
    · cases hp
    · exact scans_done hle
  | @cons lba size l blocks hpos hblock hrest ih =>
    intro left ptr hptr hlast hends w
    rw [length_cons, Nat.mul_succ] at hlast
    rw [scans_block hblock (Nat.min_le_left _ _) (by omega) hptr w]
    conv => rhs; unfold expected
    cases hfind : l.find? (s.takes path) with
    | some p => exact .rfl
    | none =>
      have hnone : ∀ p ∈ l, ¬ s.takes path p = true := find?_eq_none.1 hfind
      have hmore : (∃ p ∈ blocks.flatten, s.takes path p = true) ∨
          s.Padded ⟨dev, lba, ISO_BLOCK_SIZE⟩ l ∧ s.AllPadded dev (lba + 1) blocks ∧ left ≤ (ISO_BLOCK_SIZE * blocks.length + ISO_BLOCK_SIZE : Nat) := by
        rw [allPadded_cons, length_cons, Nat.mul_succ, and_assoc] at hends
        refine hends.imp_left ?_
        rintro ⟨p, hp, htake⟩
        rw [flatten_cons, mem_append] at hp
        exact ⟨p, hp.resolve_left fun h => hnone p h htake, htake⟩
      have hv : ∀ v, Scans s dev path (lba + 1) left (some ⟨⟨dev, lba, ISO_BLOCK_SIZE⟩, s.recordsEnd l⟩) v ↔ v = expected (s.takes path) blocks := by
        intro v
        rcases hblock.stops with hfull | hpad | ⟨hlt, hlen, hsize⟩
        · rw [hfull]
          refine ih left _ (fun p hp => ?_) (by omega) (hmore.imp_right fun h => absurd h.1.1 ?_) v
          · cases hp
            exact le_refl _
          · rw [hfull]
            exact lt_irrefl _
        · rw [scans_pad (by omega) hpad.1 hpad.2]
          refine ih _ _ (fun p hp => ?_) (by omega) (hmore.imp_right fun h => ⟨h.2.1, by omega⟩) v
          cases hp
          exact le_refl _
        · have hnil := hrest.eq_nil (Nat.sub_eq_zero_of_le hsize)
          rcases hmore with ⟨p, hp, -⟩ | ⟨hpad, -⟩
          · rw [hnil] at hp
            cases hp
          · exact absurd hpad.2 hlen
      simp only [hv, exists_eq_left]

theorem scans_over (hext : Extent s dev lba size blocks) (hnone : ∀ p ∈ blocks.flatten, s.takes path p = false) :
    ∀ (left : Int) (ptr : Option Ptr), (∀ p, ptr = some p → ISO_BLOCK_SIZE ≤ p.off) →
    (ISO_BLOCK_SIZE * blocks.length : Nat) < left + ISO_BLOCK_SIZE →
    ((ISO_BLOCK_SIZE * blocks.length : Nat) < left ∨ ¬ s.AllPadded dev lba blocks) →
    ∀ w, Scans s dev path lba left ptr w → blocks.length < w.reads ∨ blocks.flatten.length < w.examined.length := by
  induction hext with
  | nil =>
    rintro left ptr hptr _ (hleft | hpad) w hw
    · obtain ⟨v, -, rfl⟩ := (scans_turn (by simpa using hleft) hptr).1 hw
      exact .inl (Nat.succ_pos _)
    · exact absurd (fun j l hl => by simp at hl) hpad
  | @cons lba size l blocks hpos hblock hrest ih =>
    intro left ptr hptr hlast hmore w hw
    rw [length_cons, Nat.mul_succ] at hlast hmore
    have hfind : l.find? (s.takes path) = none := find?_eq_none.2 fun p hp h => by
      rw [hnone p (mem_flatten.2 ⟨l, mem_cons_self .., hp⟩)] at h
      cases h
    have hnone : ∀ p ∈ blocks.flatten, s.takes path p = false := fun p hp => hnone p (mem_append.2 (.inr hp))
    rw [scans_block hblock (Nat.min_le_left _ _) (by omega) hptr w, hfind] at hw
    obtain ⟨v, hv, rfl⟩ := hw
    rw [length_cons, flatten_cons, length_append, length_append]
    have hgrow : (blocks.length < v.reads ∨ blocks.flatten.length < v.examined.length) →
        blocks.length + 1 < v.reads + 1 ∨ l.length + blocks.flatten.length < l.length + v.examined.length := by omega
    rcases hblock.stops with hfull | hpad | ⟨hlt, hlen, hsize⟩
    · rw [hfull] at hv
      refine hgrow (ih hnone left _ (fun p hp => ?_) (by omega) (.inl (by omega)) v hv)
      cases hp
      exact le_refl _
    · rw [scans_pad (by omega) hpad.1 hpad.2] at hv
      refine hgrow (ih hnone _ _ (fun p hp => ?_) (by omega) ?_ v hv)
      · cases hp
        exact le_refl _
      · rw [allPadded_cons] at hmore
        exact hmore.imp (fun h => by omega) fun h ha => h ⟨hpad, ha⟩
    · rw [hrest.eq_nil (Nat.sub_eq_zero_of_le hsize)]
      rw [scans_record (by omega) hlt hlen] at hv
      refine .inr (Nat.add_lt_add_left ?_ _)
      split at hv
      · rw [hv]
        exact Nat.succ_pos _
      · obtain ⟨u, -, rfl⟩ := hv
        exact Nat.succ_pos _

end Onix.Namei
