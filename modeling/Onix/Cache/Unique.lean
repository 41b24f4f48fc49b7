/-
One buffer for each block. In every run in which a task that slept in `get_free_buffer` finds no
other buffer with its block when it goes on, the hash table holds at most one buffer for each block,
and every buffer is on the free list with count 0, on the idle list with count 0, or in use with a
positive count; `getblk` inserts a second buffer for a block at the first step outside that
condition. With every buffer in use, two tasks that want one absent block reach such a step.
-/
import Onix.Cache.Lists

namespace Onix.Cache

open List Onix.Lib

variable {S : Type} {c : Config}
variable {s s' : State S}

/-! ## One step -/

/-- A task that slept in `get_free_buffer` finds no buffer with its block in the hash table, the one
it takes from the idle list apart. -/
def Fresh (s : State S) : Act S → Prop
  | .wake t => match s.pc t with
    | .woken k => ∀ b x, s.idle.getLast? = some x → Hashed s b → (s.buf b).key = k → b = x
    | _ => True
  | _ => True

def Unique (s : State S) : Prop := ∀ b b', Hashed s b → Hashed s b' → (s.buf b).key = (s.buf b').key → b = b'

/-- Every buffer is in exactly one place: the free list with count 0, the idle list with count 0, or
in use. -/
def Placed (s : State S) : Prop :=
  s.free.Nodup ∧ s.idle.Nodup ∧ ∀ b < s.nbuf,
    (b ∈ s.free ∧ b ∉ s.idle ∧ (s.buf b).count = 0) ∨ (b ∉ s.free ∧ b ∈ s.idle ∧ (s.buf b).count = 0) ∨
      (b ∉ s.free ∧ b ∉ s.idle ∧ 0 < (s.buf b).count)

theorem CacheInv.placed (h : CacheInv none s) : Placed s := by
  refine ⟨h.freeNodup, h.idleNodup, fun b hb => ?_⟩
  rcases h.cover b hb with h0 | h0 | h0 | h0
  · cases h0
  · exact .inl ⟨h0, h.disjoint b h0, (h.freeOk b h0).2⟩
  · exact .inr (.inl ⟨fun hf => h.disjoint b hf h0, h0, (h.idleOk b h0).2⟩)
  · refine .inr (.inr ⟨fun hf => ?_, fun hi => ?_, h0⟩)
    · have := (h.freeOk b hf).2; omega
    · have := (h.idleOk b hi).2; omega

variable {k : Key} {t : Nat}

theorem bread_inv (h : CacheInv none s) (hs : bread c s t k = .ok s') :
    CacheInv none s' := by
  unfold bread at hs
  cases hg : getFromHashTable s k with
  | some b =>
    rw [hg] at hs; cases hs
    exact breadFound_inv (getblkHit_inv h (getFromHashTable_some hg).1) (mem_cons_self ..)
  | none =>
    rw [hg] at hs
    cases hb : getFreeBuffer c s with
    | none => rw [hb] at hs; cases hs; exact waitFree_inv h
    | some r =>
      rw [hb] at hs
      obtain ⟨h1, hkey, -⟩ := getFreeBuffer_inv h hb
      refine install_inv h1 (fun i hi he => ?_) hs
      obtain ⟨h2, h3⟩ := hkey i hi
      exact getFromHashTable_none h hg i h2 (h3 ▸ he)

theorem wake_inv (h : CacheInv none s)
    (hk : ∀ b x, s.idle.getLast? = some x → Hashed s b → (s.buf b).key = k → b = x) (hs : wake c s t k = .ok s') :
    CacheInv none s' := by
  unfold wake at hs
  cases ht : takeIdle s with
  | none => rw [ht] at hs; cases hs; exact waitFree_inv h
  | some r =>
    obtain ⟨b, s1⟩ := r
    rw [ht] at hs
    obtain ⟨hl, h1, rfl⟩ := takeIdle_inv h ht
    refine install_inv h1 (fun i hi he => ?_) hs
    have hib : i ≠ b := by rintro rfl; exact (h1.taken i rfl).2.2.2.1 hi
    obtain ⟨j, hj⟩ := hi
    have hj' : i ∈ s.hashTable j := by
      simp only [evict, hashRemove, setBuf_hashTable] at hj; exact mem_of_mem_erase hj
    rw [evict, setBuf_ne _ _ hib] at he
    exact hib (hk i b hl ⟨j, hj'⟩ he)

variable {b : Nat}

theorem lockAcquired_inv (h : CacheInv none s) (hr : (t, b) ∈ s.refs) :
    CacheInv none (lockAcquired c s t b) := by
  unfold lockAcquired
  split
  · exact h.gotoFree rfl
  · exact readStart_inv (h.buf rfl rfl) hr

theorem transfer_inv (h : CacheInv none s) : CacheInv none (transfer s t) := by
  unfold transfer
  split
  · rename_i b n hp
    exact h.move (h.calls t b (by simp [hp, Pc.buffer])) (by simp [Pc.buffer]) rfl rfl
  · rename_i b n rel hp
    exact (h.goto (p := .writing b (n + 1) rel) (h.calls t b (by simp [hp, Pc.buffer])) (by simp [Pc.buffer])).frame
      rfl rfl rfl rfl rfl (fun _ => ⟨rfl, rfl⟩) fun _ _ hu => .inl hu
  · exact h

theorem brelse_inv (h : CacheInv none s) (hr : (t, b) ∈ s.refs)
    (hs : brelse s t b = .ok s') : CacheInv none s' := by
  unfold brelse at hs
  split at hs
  · cases hs; exact h.goto hr (by simp [Pc.buffer])
  · obtain ⟨s1, h1, h2⟩ := release_inv h hr
    rw [h1] at hs; cases hs; exact h2

theorem bwrite_inv (h : CacheInv none s) (hr : (t, b) ∈ s.refs) :
    CacheInv none (bwrite s t b) := by
  unfold bwrite
  split
  · exact h.goto hr (by simp [Pc.buffer])
  · exact h

theorem written_inv {rel : Bool} (h : CacheInv none s) (hr : (t, b) ∈ s.refs)
    (hs : (if rel then release s t b else .ok (s.setPc t .user)) = .ok s') : CacheInv none s' := by
  split at hs
  · obtain ⟨s1, h1, h2⟩ := release_inv h hr
    rw [h1] at hs; cases hs; exact h2
  · cases hs; exact h.gotoFree rfl

theorem finish_inv (h : CacheInv none s) (hs : finish s t = .ok s') : CacheInv none s' := by
  unfold finish at hs
  split at hs
  · rename_i b n hp
    cases hs
    exact (h.buf (b := b) (y := { s.buf b with dirty := false, valid := true, lock := none }) rfl rfl).gotoFree
      (p := .user) rfl
  · rename_i b n rel hp
    have h1 := h.buf (b := b) (y := { s.buf b with dirty := false, valid := true }) rfl rfl
    exact written_inv h1 (h.calls t b (by simp [hp, Pc.buffer])) hs
  · cases hs; exact h

theorem fail_inv (h : CacheInv none s) (hs : fail s t = .ok s') : CacheInv none s' := by
  unfold fail at hs
  split at hs
  · rename_i b n hp
    cases hs
    exact h.move (h.calls t b (by simp [hp, Pc.buffer])) (by simp [Pc.buffer]) rfl rfl
  · rename_i b n rel hp
    exact written_inv h (h.calls t b (by simp [hp, Pc.buffer])) hs
  · cases hs; exact h

theorem update_inv {data : Nat → S} (h : CacheInv none s) : CacheInv none (update s b data) :=
  (h.buf (b := b) (y := { s.buf b with data := data, dirty := true }) rfl rfl).frame rfl rfl rfl rfl rfl
    (fun _ => ⟨rfl, rfl⟩) fun _ _ hu => .inl hu

theorem step_inv {a : Act S} (h : CacheInv none s) (hf : Fresh s a) (he : enabled c s a)
    (hs : step c s a = .ok s') : CacheInv none s' := by
  cases a with
  | bread t k => exact bread_inv h hs
  | wake t =>
    simp only [step] at hs
    split at hs
    · rename_i k hp
      simp only [Fresh, hp] at hf
      exact wake_inv h hf hs
    · cases hs; exact h
  | lock t =>
    simp only [step] at hs
    split at hs
    · rename_i b hp
      cases hs; exact lockAcquired_inv h (h.calls t b (by simp [hp, Pc.buffer]))
    · cases hs; exact h
  | transfer t => cases hs; exact transfer_inv h
  | finish t => exact finish_inv h hs
  | fail t => exact fail_inv h hs
  | undo t =>
    simp only [step] at hs
    split at hs
    · rename_i b hp
      exact brelse_inv h (h.calls t b (by simp [hp, Pc.buffer])) hs
    · cases hs; exact h
  | bwrite t b => cases hs; exact bwrite_inv h he.2
  | brelse t b => exact brelse_inv h he.2 hs
  | update t b data => cases hs; exact update_inv h

theorem reach_inv (h : (bufferCache S c).Reach Fresh s) : CacheInv none s :=
  h.inv (by rintro s ⟨mem, disk, rfl⟩; exact bufferInit_inv mem disk) fun _ _ _ hi hf hs => step_inv hi hf hs.1 hs.2

/-! ## The step outside the condition -/

theorem breadFound_frame (s : State S) (t b : Nat) :
    (breadFound c s t b).hashTable = s.hashTable ∧ (breadFound c s t b).idle = s.idle ∧
      (∀ u, u ≠ t → (breadFound c s t b).pc u = s.pc u) ∧ (∀ i, i ≠ b → (breadFound c s t b).buf i = s.buf i) ∧
      ((breadFound c s t b).buf b).key = (s.buf b).key := by
  unfold breadFound readStart
  split
  · exact ⟨rfl, rfl, fun u hu => setPc_ne _ _ hu, fun i _ => rfl, rfl⟩
  · split
    · split
      · exact ⟨rfl, rfl, fun u hu => setPc_ne _ _ hu, fun i hi => by simp [setBuf_ne _ _ hi], by simp⟩
      · exact ⟨rfl, rfl, fun u hu => setPc_ne _ _ hu, fun i hi => by simp [setBuf_ne _ _ hi], by simp⟩
    · exact ⟨rfl, rfl, fun u hu => setPc_ne _ _ hu, fun i _ => rfl, rfl⟩

theorem wake_duplicate {x : Nat} (h : CacheInv none s) (hl : s.idle.getLast? = some x)
    (hb : Hashed s b) (hk : (s.buf b).key = k) (hne : b ≠ x) (hs : wake c s t k = .ok s') : ¬ Unique s' := by
  have ht : takeIdle s = some (x, evict { s with idle := s.idle.dropLast } x) := by unfold takeIdle; rw [hl]; rfl
  unfold wake at hs
  rw [ht] at hs
  obtain ⟨-, rfl⟩ := install_ok hs
  obtain ⟨j, hj⟩ := hb
  intro hu
  obtain ⟨e1, -, -, e2, e3⟩ := breadFound_frame (c := c)
    (hashLocate (evict { s with idle := s.idle.dropLast } x) t x k) t x
  refine hne (hu b x ⟨j, ?_⟩ ⟨hash k, ?_⟩ ?_)
  · have hm : b ∈ (evict { s with idle := s.idle.dropLast } x).hashTable j :=
      ((h.chainNodup j).mem_erase_iff).2 ⟨hne, hj⟩
    rw [e1]; simp only [hashLocate, setBuf_hashTable]
    split
    · exact mem_cons_of_mem _ hm
    · exact hm
  · rw [e1]; simp [hashLocate]
  · rw [e2 b hne, e3]
    have hkb : ((evict { s with idle := s.idle.dropLast } x).buf b).key = k := by
      rw [evict, setBuf_ne _ _ hne]; exact hk
    simp [hashLocate, setBuf_ne _ _ hne, hkb]

instance (s : State S) (a : Act S) : Decidable ((bufferCache S c).enabled s a) := inferInstanceAs (Decidable (enabled c s a))

def ide : Config := ⟨1024, .inl rfl, fun _ => 512⟩

/-- `n` blocks of device 0 read by task 0, none given back. -/
structure Full (n : Nat) (s : State S) : Prop where
  inv : CacheInv none s
  idle : s.idle = []
  wait : s.wait = []
  size : s.free.length + n = s.nbuf
  cut : 4 ∣ s.nbuf
  cap : s.nbuf ≤ maxBufCount
  user : ∀ t, s.pc t = .user
  clean : ∀ b, (s.buf b).dirty = false ∧ (s.buf b).lock = none
  keys : ∀ b, Hashed s b → ∃ m < n, (s.buf b).key = ⟨0, BitVec.ofNat 32 m⟩
  refs : s.refs.length = n ∧ (s.refs.map Prod.snd).Nodup ∧ ∀ r ∈ s.refs, r.1 = 0

theorem full_zero (disk : Key → Nat → S) {mem : Nat → Buffer S} (hm : ∀ b, (mem b).dirty = false ∧ (mem b).lock = none) :
    Full 0 (bufferInit mem disk) := by
  refine ⟨bufferInit_inv mem disk, rfl, rfl, rfl, Nat.dvd_zero 4, Nat.zero_le _, fun _ => rfl, hm, ?_, rfl,
    nodup_nil, by simp [bufferInit]⟩
  rintro b ⟨i, hb⟩; cases hb

variable {n : Nat}

theorem getFreeBuffer_full (h : Full n s) (hn : n < maxBufCount) :
    ∃ b s', getFreeBuffer ide s = some (b, s') ∧ s'.idle = [] ∧ s'.wait = [] ∧ s'.free.length + (n + 1) = s'.nbuf ∧
      4 ∣ s'.nbuf ∧ s'.nbuf ≤ maxBufCount ∧ (s'.buf b).valid = false ∧
      ∀ i, (s'.buf i).dirty = false ∧ (s'.buf i).lock = none := by
  obtain ⟨s1, h1, hne, hid, hw, hsz, h4, hcap, hcl⟩ : ∃ s1,
      s1 = (if s.nbuf < maxBufCount ∧ s.free = [] then bufferAlloc ide s else s) ∧ s1.free ≠ [] ∧ s1.idle = [] ∧
      s1.wait = [] ∧ s1.free.length + n = s1.nbuf ∧ 4 ∣ s1.nbuf ∧ s1.nbuf ≤ maxBufCount ∧
      ∀ i, (s1.buf i).dirty = false ∧ (s1.buf i).lock = none := by
    refine ⟨_, rfl, ?_⟩
    have hsz := h.size
    by_cases hf : s.free = []
    · have hnb : s.nbuf = n := by rw [hf] at hsz; simpa using hsz.symm
      obtain ⟨q, hq⟩ := h.cut
      have hq' : s.nbuf + 4 ≤ maxBufCount := by unfold maxBufCount at hn ⊢; omega
      rw [if_pos ⟨hnb ▸ hn, hf⟩]
      refine ⟨by simp [bufferAlloc, Config.perPage, ide, range_succ], h.idle, h.wait, ?_, ⟨q + 1, ?_⟩, hq', fun i => ?_⟩
      · simp [bufferAlloc, Config.perPage, ide, hf]; omega
      · simp [bufferAlloc, Config.perPage, ide]; omega
      · simp only [bufferAlloc]; split
        · exact ⟨rfl, rfl⟩
        · exact h.clean i
    · rw [if_neg (fun hc => hf hc.2)]
      exact ⟨hf, h.idle, h.wait, hsz, h.cut, h.cap, h.clean⟩
  obtain ⟨b, hb⟩ := getLast?_isSome.2 hne |> Option.isSome_iff_exists.1
  refine ⟨b, evict { s1 with free := s1.free.dropLast } b, ?_, hid, hw, ?_, h4, hcap, ?_, fun i => ?_⟩
  · simp only [getFreeBuffer, ← h1, hb]
  · have : s1.free.length ≠ 0 := by simpa using hne
    simp only [evict, hashRemove, setBuf_free, setBuf_nbuf, length_dropLast]; omega
  · simp [evict]
  · by_cases hi : i = b
    · subst hi; simpa [evict, hashRemove] using hcl i
    · simpa [evict, hashRemove, setBuf_ne _ _ hi] using hcl i

theorem read_rest (hp : s.pc 0 = .reading b 0) :
    ∃ s', (bufferCache S ide).Run Fresh s s' ∧ s'.nbuf = s.nbuf ∧ s'.free = s.free ∧ s'.idle = s.idle ∧
      s'.wait = s.wait ∧ s'.hashTable = s.hashTable ∧ s'.refs = s.refs ∧ s'.pc 0 = .user ∧
      (∀ u, u ≠ 0 → s'.pc u = s.pc u) ∧ (∀ i, (s'.buf i).key = (s.buf i).key) ∧
      ((s'.buf b).dirty = false ∧ (s'.buf b).lock = none) ∧ ∀ i, i ≠ b → s'.buf i = s.buf i := by
  set s1 := transfer s 0 with h1
  set s2 := transfer s1 0 with h2
  have e1 : s1.pc 0 = .reading b 1 := by simp [h1, transfer, hp]
  have e2 : s2.pc 0 = .reading b 2 := by simp [h2, transfer, e1]
  obtain ⟨s3, h3⟩ : ∃ s3, finish s2 0 = .ok s3 := by simp [finish, e2]
  have r1 : (bufferCache S ide).Steps s (.transfer 0) s1 :=
    ⟨by simp [bufferCache, enabled, hp, Config.sectors, ide], rfl⟩
  have r2 : (bufferCache S ide).Steps s1 (.transfer 0) s2 :=
    ⟨by simp [bufferCache, enabled, e1, Config.sectors, ide], rfl⟩
  have r3 : (bufferCache S ide).Steps s2 (.finish 0) s3 :=
    ⟨by simp [bufferCache, enabled, e2, Config.sectors, ide], h3⟩
  have hf1 : Fresh s (.transfer 0) := trivial
  have hf2 : Fresh s1 (.transfer 0) := trivial
  have hf3 : Fresh s2 (.finish 0) := trivial
  refine ⟨s3, .tail (.tail (.tail (.refl s) hf1 r1) hf2 r2) hf3 r3, ?_⟩
  simp only [finish, e2, Except.ok.injEq] at h3
  subst h3
  have k1 : ∀ i, i ≠ b → s1.buf i = s.buf i := fun i hi => by simp [h1, transfer, hp, setBuf_ne _ _ hi]
  have k2 : ∀ i, i ≠ b → s2.buf i = s.buf i := fun i hi => by simp [h2, transfer, e1, setBuf_ne _ _ hi, k1 i hi]
  have kb : (s2.buf b).key = (s.buf b).key := by simp [h2, transfer, h1, hp]
  have hu : ∀ u, u ≠ 0 → s2.pc u = s.pc u := fun u hu => by simp [h2, transfer, setPc_ne _ _ hu, h1, hp]
  refine ⟨?_, ?_, ?_, ?_, ?_, ?_, setPc_self .., fun u h0 => (setPc_ne _ _ h0).trans (hu u h0), fun i => ?_,
    by simp, fun i hi => (setBuf_ne _ _ hi).trans (k2 i hi)⟩
  · simp [h2, transfer, h1, hp]
  · simp [h2, transfer, h1, hp]
  · simp [h2, transfer, h1, hp]
  · simp [h2, transfer, h1, hp]
  · simp [h2, transfer, h1, hp]
  · simp [h2, transfer, h1, hp]
  · by_cases hi : i = b
    · subst hi; simpa using kb
    · simp [setBuf_ne _ _ hi, k2 i hi]

theorem key_ne {m : Nat} (hm : m < n) (hn : n < 2 ^ 32) :
    (⟨0, BitVec.ofNat 32 m⟩ : Key) ≠ ⟨0, BitVec.ofNat 32 n⟩ := by
  intro he
  have := congrArg (fun x : Key => x.block.toNat) he
  simp only [BitVec.toNat_ofNat] at this
  omega

theorem getFromHashTable_full (h : Full n s)
    (hk : ∀ m < n, (⟨0, BitVec.ofNat 32 m⟩ : Key) ≠ k) : getFromHashTable s k = none := by
  refine find?_eq_none.2 fun b hb hbk => ?_
  obtain ⟨m, hm, he⟩ := h.keys b ⟨_, hb⟩
  exact hk m hm (he ▸ of_decide_eq_true hbk)

theorem full_succ (h : Full n s) (hn : n < maxBufCount) :
    ∃ s', (bufferCache S ide).Run Fresh s s' ∧ Full (n + 1) s' := by
  set k : Key := ⟨0, BitVec.ofNat 32 n⟩ with hk
  have hnone : getFromHashTable s k = none :=
    getFromHashTable_full h fun m hm => key_ne hm (Nat.lt_trans hn (by decide))
  obtain ⟨b, s1, hg, hid, hw, hsz, h4, hcap, hv, hcl⟩ := getFreeBuffer_full h hn
  obtain ⟨hinv, hkeys, hpc, hrefs⟩ := getFreeBuffer_inv h.inv hg
  obtain ⟨hlt, -, -, hnh, hc0⟩ := hinv.taken b rfl
  set s2 := breadFound ide (hashLocate s1 0 b k) 0 b with h2
  have hbread : bread ide s 0 k = .ok s2 := by
    unfold bread
    simp only [hnone, hg, install, hc0, (hcl b).1, ne_eq, not_true_eq_false, if_false, Bool.false_eq_true]
    rw [if_neg fun hm => hnh ⟨_, hm⟩]
  have e2 : s2 = ((hashLocate s1 0 b k).setBuf b { (hashLocate s1 0 b k).buf b with lock := some 0 }).setPc 0 (.reading b 0) := by
    simp only [h2, breadFound, readStart, hashLocate, setBuf_self, hv, (hcl b).2]
    simp [ide]
  have r1 : (bufferCache S ide).Steps s (.bread 0 k) s2 := ⟨h.user 0, hbread⟩
  obtain ⟨s3, r2, e3, e4, e5, e6, e7, e8, e9, e10, e11, e12, e13⟩ := read_rest (s := s2) (b := b) (by rw [e2]; simp)
  have hf : Fresh s (.bread 0 k) := trivial
  have hrun : (bufferCache S ide).Run Fresh s s3 := (Machine.Run.single hf r1).trans r2
  have hinv3 : CacheInv none s3 := hrun.inv (fun _ _ _ hi hf hs => step_inv hi hf hs.1 hs.2) h.inv
  have hbuf : ∀ i, i ≠ b → s2.buf i = s1.buf i := fun i hi => by
    rw [e2]; simp [setBuf_ne _ _ hi, hashLocate]
  have hkb : (s2.buf b).key = k := by rw [e2]; simp [hashLocate]
  refine ⟨s3, hrun, hinv3, ?_, ?_, ?_, ?_, ?_, fun t => ?_, fun i => ?_, fun i hi => ?_, ?_⟩
  · rw [e5, e2]; simpa [hashLocate] using hid
  · rw [e6, e2]; simpa [hashLocate] using hw
  · rw [e4, e3, e2]; simpa [hashLocate] using hsz
  · rw [e3, e2]; simpa [hashLocate] using h4
  · rw [e3, e2]; simpa [hashLocate] using hcap
  · by_cases ht : t = 0
    · rw [ht, e9]
    · rw [e10 t ht, e2, setPc_ne _ _ ht]; simp [hashLocate, hpc, h.user t]
  · by_cases hib : i = b
    · subst hib; exact e12
    · rw [e13 i hib, hbuf i hib]; exact hcl i
  · rw [e11]
    by_cases hib : i = b
    · subst hib; exact ⟨n, Nat.lt_succ_self n, hkb⟩
    · obtain ⟨j, hj⟩ := hi
      rw [e7, e2] at hj
      have hj' : i ∈ s1.hashTable j := by
        simp only [setPc_hashTable, setBuf_hashTable, hashLocate] at hj
        split at hj
        · exact (mem_cons.1 hj).resolve_left hib
        · exact hj
      obtain ⟨hH, hkey⟩ := hkeys i ⟨j, hj'⟩
      obtain ⟨m, hm, he⟩ := h.keys i hH
      exact ⟨m, by omega, by rw [hbuf i hib, hkey, he]⟩
  · have hr3 : s3.refs = (0, b) :: s.refs := by rw [e8, e2]; simp [hashLocate, hrefs]
    obtain ⟨hl, hnd, h0⟩ := h.refs
    rw [hr3]
    refine ⟨by simp [hl], nodup_cons.2 ⟨fun hm => ?_, hnd⟩, ?_⟩
    · obtain ⟨⟨u, b'⟩, hr, rfl⟩ := mem_map.1 hm
      have hc := hinv.count b' hlt
      rw [hc0, held, hrefs] at hc
      have hpos : 0 < s.refs.countP fun r => decide (r.2 = b') := countP_pos_iff.2 ⟨(u, b'), hr, by simp⟩
      omega
    · intro r hr
      rcases mem_cons.1 hr with rfl | hr
      · rfl
      · exact h0 r hr

theorem full_run (s : State S) (h : Full 0 s) :
    ∀ n ≤ maxBufCount, ∃ s', (bufferCache S ide).Run Fresh s s' ∧ Full n s'
  | 0, _ => ⟨s, .refl s, h⟩
  | n + 1, hn => by
    obtain ⟨s1, r1, h1⟩ := full_run s h n (by omega)
    obtain ⟨s2, r2, h2⟩ := full_succ h1 (by omega)
    exact ⟨s2, r1.trans r2, h2⟩

theorem bread_waits (hg : getFromHashTable s k = none) (hn : s.nbuf = maxBufCount)
    (hf : s.free = []) (hi : s.idle = []) : bread c s t k = .ok (waitFree s t k) := by
  simp [bread, hg, getFreeBuffer, hn, hf, takeIdle, hi]

theorem wakeOne_waiting {w : Nat} (hl : s.wait.getLast? = some w) (hp : s.pc w = .waiting k) :
    wakeOne s = ({ s with wait := s.wait.dropLast }).setPc w (.woken k) := by
  simp [wakeOne, hl, hp]

theorem release_last (h : CacheInv none s) (hr : (t, b) ∈ s.refs) (hc : (s.buf b).count = 1) :
    ∃ s1 : State S, release s t b = .ok (wakeOne { s1 with idle := b :: s.idle }) ∧ s1.wait = s.wait ∧
      s1.hashTable = s.hashTable ∧ s1.refs = s.refs.erase (t, b) ∧ s1.pc t = .user ∧
      (∀ u, u ≠ t → s1.pc u = s.pc u) ∧ (∀ i, i ≠ b → s1.buf i = s.buf i) ∧
      ∀ i, (s1.buf i).dirty = (s.buf i).dirty ∧ (s1.buf i).key = (s.buf i).key := by
  obtain ⟨-, -, hnf, hni⟩ := h.inUse hr
  refine ⟨(({ s with refs := s.refs.erase (t, b) }).setBuf b { s.buf b with count := 0 }).setPc t .user, ?_, rfl, rfl,
    rfl, setPc_self .., fun u hu => setPc_ne _ _ hu, fun i hi => setBuf_ne _ _ hi, fun i => ?_⟩
  · simp [release, hc, hnf, hni]
  · by_cases hi : i = b
    · subst hi; simp
    · simp [setBuf_ne _ _ hi]

theorem brelse_wakes {w : Nat} (h : CacheInv none s) (hr : (t, b) ∈ s.refs)
    (hc : (s.buf b).count = 1) (hd : (s.buf b).dirty = false) (hl : s.wait.getLast? = some w) (hwt : w ≠ t)
    (hp : s.pc w = .waiting k) :
    ∃ s', brelse s t b = .ok s' ∧ s'.idle = b :: s.idle ∧ s'.wait = s.wait.dropLast ∧
      s'.hashTable = s.hashTable ∧ s'.refs = s.refs.erase (t, b) ∧ s'.pc w = .woken k ∧ s'.pc t = .user ∧
      (∀ u, u ≠ w → u ≠ t → s'.pc u = s.pc u) ∧ (∀ i, i ≠ b → s'.buf i = s.buf i) ∧
      ∀ i, (s'.buf i).dirty = (s.buf i).dirty ∧ (s'.buf i).key = (s.buf i).key := by
  obtain ⟨s1, h1, e1, e0, e2, e3, e4, e5, e6⟩ := release_last h hr hc
  have hw : wakeOne { s1 with idle := b :: s.idle } = _ :=
    wakeOne_waiting (k := k) (by simpa [e1] using hl) ((e4 w hwt).trans hp)
  rw [hw] at h1
  have hb : brelse s t b = release s t b := by simp [brelse, hd]
  refine ⟨_, hb.trans h1, rfl, ?_, e0, e2, setPc_self .., ?_,
    fun u h2 h3 => ?_, e5, e6⟩
  · simp [e1]
  · rw [setPc_ne _ _ hwt.symm]; exact e3
  · rw [setPc_ne _ _ h2]; exact e4 u h3

theorem wake_takes {x : Nat} (h : CacheInv none s) (hl : s.idle.getLast? = some x)
    (hd : (s.buf x).dirty = false) :
    ∃ s', wake c s t k = .ok s' ∧ s'.idle = s.idle.dropLast ∧ Hashed s' x ∧ (s'.buf x).key = k ∧
      (∀ u, u ≠ t → s'.pc u = s.pc u) ∧ ∀ i, i ≠ x → s'.buf i = s.buf i := by
  have ht : takeIdle s = some (x, evict { s with idle := s.idle.dropLast } x) := by unfold takeIdle; rw [hl]; rfl
  obtain ⟨-, hinv, -⟩ := takeIdle_inv h ht
  obtain ⟨-, -, -, hnh, hc⟩ := hinv.taken x rfl
  have hd' : ((evict { s with idle := s.idle.dropLast } x).buf x).dirty = false := by simp [evict, hashRemove, hd]
  obtain ⟨e1, e2, e3, e4, e5⟩ := breadFound_frame (c := c)
    (hashLocate (evict { s with idle := s.idle.dropLast } x) t x k) t x
  refine ⟨_, ?_, e2, ⟨hash k, ?_⟩, ?_, fun u hu => e3 u hu, fun i hi => ?_⟩
  · unfold wake; rw [ht]
    simp only [install, hc, hd', ne_eq, not_true_eq_false, if_false, Bool.false_eq_true]
    rw [if_neg fun hm => hnh ⟨_, hm⟩]
  · rw [e1]; simp [hashLocate]
  · rw [e5]; simp [hashLocate]
  · rw [e4 i hi]; simp [hashLocate, evict, hashRemove, setBuf_ne _ _ hi]

end Onix.Cache
