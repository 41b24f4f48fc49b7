/-
The lists of the buffer cache: what `get_free_buffer`, `getblk`, `brelse` and the calls around them
keep of the free, idle and hash lists, the counts and the references.

A buffer between `get_free_buffer` and `hash_locate` is on no list: the invariant names it.
-/
import Onix.Cache.Model

namespace Onix.Cache

open List Onix.Lib

variable {S : Type} {c : Config}
variable {s s' : State S}

/-! ## Projections of the primitive changes -/

variable {t : Nat}

@[simp] theorem setPc_self (s : State S) (t : Nat) (p : Pc) : (s.setPc t p).pc t = p := by simp [State.setPc]
theorem setPc_ne (s : State S) {u : Nat} (p : Pc) (h : u ≠ t) : (s.setPc t p).pc u = s.pc u := by
  simp [State.setPc, h]
@[simp] theorem setPc_buf (s : State S) (t : Nat) (p : Pc) : (s.setPc t p).buf = s.buf := rfl
@[simp] theorem setPc_nbuf (s : State S) (t : Nat) (p : Pc) : (s.setPc t p).nbuf = s.nbuf := rfl
@[simp] theorem setPc_free (s : State S) (t : Nat) (p : Pc) : (s.setPc t p).free = s.free := rfl
@[simp] theorem setPc_idle (s : State S) (t : Nat) (p : Pc) : (s.setPc t p).idle = s.idle := rfl
@[simp] theorem setPc_wait (s : State S) (t : Nat) (p : Pc) : (s.setPc t p).wait = s.wait := rfl
@[simp] theorem setPc_hashTable (s : State S) (t : Nat) (p : Pc) : (s.setPc t p).hashTable = s.hashTable := rfl
@[simp] theorem setPc_refs (s : State S) (t : Nat) (p : Pc) : (s.setPc t p).refs = s.refs := rfl
@[simp] theorem setPc_disk (s : State S) (t : Nat) (p : Pc) : (s.setPc t p).disk = s.disk := rfl
@[simp] theorem setPc_last (s : State S) (t : Nat) (p : Pc) : (s.setPc t p).last = s.last := rfl

variable {b : Nat}

@[simp] theorem setBuf_self (s : State S) (b : Nat) (x : Buffer S) : (s.setBuf b x).buf b = x := by
  simp [State.setBuf]
theorem setBuf_ne (s : State S) {i : Nat} (x : Buffer S) (h : i ≠ b) : (s.setBuf b x).buf i = s.buf i := by
  simp [State.setBuf, h]
@[simp] theorem setBuf_nbuf (s : State S) (b : Nat) (x : Buffer S) : (s.setBuf b x).nbuf = s.nbuf := rfl
@[simp] theorem setBuf_free (s : State S) (b : Nat) (x : Buffer S) : (s.setBuf b x).free = s.free := rfl
@[simp] theorem setBuf_idle (s : State S) (b : Nat) (x : Buffer S) : (s.setBuf b x).idle = s.idle := rfl
@[simp] theorem setBuf_wait (s : State S) (b : Nat) (x : Buffer S) : (s.setBuf b x).wait = s.wait := rfl
@[simp] theorem setBuf_hashTable (s : State S) (b : Nat) (x : Buffer S) :
    (s.setBuf b x).hashTable = s.hashTable := rfl
@[simp] theorem setBuf_pc (s : State S) (b : Nat) (x : Buffer S) : (s.setBuf b x).pc = s.pc := rfl
@[simp] theorem setBuf_refs (s : State S) (b : Nat) (x : Buffer S) : (s.setBuf b x).refs = s.refs := rfl
@[simp] theorem setBuf_disk (s : State S) (b : Nat) (x : Buffer S) : (s.setBuf b x).disk = s.disk := rfl
@[simp] theorem setBuf_last (s : State S) (b : Nat) (x : Buffer S) : (s.setBuf b x).last = s.last := rfl

/-! ## The invariant -/

def Hashed (s : State S) (b : Nat) : Prop := ∃ i, b ∈ s.hashTable i

def Pc.buffer : Pc → Option Nat
  | .locking b | .reading b _ | .rollback b | .writing b _ _ => some b
  | _ => none

def held (s : State S) (b : Nat) : Nat := s.refs.countP fun r => decide (r.2 = b)

/-- The lists and counts of the cache while the buffer `x`, if any, is on its way from
`get_free_buffer` to `hash_locate`. -/
structure CacheInv (x : Option Nat) (s : State S) : Prop where
  chain : ∀ i b, b ∈ s.hashTable i → i = hash (s.buf b).key
  chainNodup : ∀ i, (s.hashTable i).Nodup
  hashedLt : ∀ b, Hashed s b → b < s.nbuf
  uniq : ∀ b b', Hashed s b → Hashed s b' → (s.buf b).key = (s.buf b').key → b = b'
  freeNodup : s.free.Nodup
  idleNodup : s.idle.Nodup
  disjoint : ∀ b ∈ s.free, b ∉ s.idle
  freeOk : ∀ b ∈ s.free, b < s.nbuf ∧ (s.buf b).count = 0
  idleOk : ∀ b ∈ s.idle, b < s.nbuf ∧ (s.buf b).count = 0
  cover : ∀ b < s.nbuf, x = some b ∨ b ∈ s.free ∨ b ∈ s.idle ∨ 0 < (s.buf b).count
  refsLt : ∀ r ∈ s.refs, r.2 < s.nbuf
  count : ∀ b < s.nbuf, (s.buf b).count = held s b
  calls : ∀ t b, (s.pc t).buffer = some b → (t, b) ∈ s.refs
  taken : ∀ b, x = some b → b < s.nbuf ∧ b ∉ s.free ∧ b ∉ s.idle ∧ ¬ Hashed s b ∧ (s.buf b).count = 0
  unused : ∀ b ∈ s.free, ¬ Hashed s b

theorem bufferInit_inv (mem : Nat → Buffer S) (disk : Key → Nat → S) : CacheInv none (bufferInit mem disk) := by
  constructor <;> simp [bufferInit, Hashed, Pc.buffer]

variable {x : Option Nat}

theorem CacheInv.frame (h : CacheInv x s) (hn : s'.nbuf = s.nbuf)
    (hf : s'.free = s.free) (hi : s'.idle = s.idle) (hh : s'.hashTable = s.hashTable) (hr : s'.refs = s.refs)
    (hb : ∀ b, (s'.buf b).key = (s.buf b).key ∧ (s'.buf b).count = (s.buf b).count)
    (hp : ∀ t b, (s'.pc t).buffer = some b → (s.pc t).buffer = some b ∨ (t, b) ∈ s.refs) : CacheInv x s' := by
  have hH : ∀ b, Hashed s' b ↔ Hashed s b := fun b => by unfold Hashed; rw [hh]
  refine ⟨fun i b => ?_, fun i => ?_, fun b => ?_, fun b b' => ?_, ?_, ?_, ?_, ?_, ?_, ?_, ?_, fun b hlt => ?_,
    fun t b ht => ?_, fun b hx => ?_, ?_⟩
  · rw [hh, (hb b).1]; exact h.chain i b
  · rw [hh]; exact h.chainNodup i
  · rw [hH, hn]; exact h.hashedLt b
  · rw [hH, hH, (hb b).1, (hb b').1]; exact h.uniq b b'
  · rw [hf]; exact h.freeNodup
  · rw [hi]; exact h.idleNodup
  · rw [hf, hi]; exact h.disjoint
  · rw [hf, hn]; intro b hm; rw [(hb b).2]; exact h.freeOk b hm
  · rw [hi, hn]; intro b hm; rw [(hb b).2]; exact h.idleOk b hm
  · rw [hf, hi, hn]; intro b hm; rw [(hb b).2]; exact h.cover b hm
  · rw [hr, hn]; exact h.refsLt
  · rw [hn] at hlt
    rw [(hb b).2]; unfold held; rw [hr]; exact h.count b hlt
  · rw [hr]
    rcases hp t b ht with h1 | h1
    · exact h.calls t b h1
    · exact h1
  · rw [hf, hi, hn, hH, (hb b).2]; exact h.taken b hx
  · rw [hf]; intro b hm; rw [hH]; exact h.unused b hm

theorem CacheInv.inUse (h : CacheInv x s) (hr : (t, b) ∈ s.refs) :
    b < s.nbuf ∧ 0 < (s.buf b).count ∧ b ∉ s.free ∧ b ∉ s.idle := by
  have hlt := h.refsLt _ hr
  have hpos : 0 < (s.buf b).count := by
    rw [h.count b hlt]
    exact countP_pos_iff.2 ⟨(t, b), hr, by simp⟩
  refine ⟨hlt, hpos, fun hm => ?_, fun hm => ?_⟩
  · have := (h.freeOk b hm).2; omega
  · have := (h.idleOk b hm).2; omega

/-! ## Taking a buffer -/

theorem evict_inv {s s1 : State S} (h : CacheInv none s) (hlt : b < s.nbuf) (hc : (s.buf b).count = 0)
    (e1 : s1.nbuf = s.nbuf) (e2 : s1.hashTable = s.hashTable) (e3 : s1.buf = s.buf) (e4 : s1.refs = s.refs)
    (e5 : s1.pc = s.pc) (hfs : s1.free.Sublist s.free) (his : s1.idle.Sublist s.idle)
    (hb : b ∉ s1.free ∧ b ∉ s1.idle)
    (hrest : ∀ i, i ≠ b → (i ∈ s.free → i ∈ s1.free) ∧ (i ∈ s.idle → i ∈ s1.idle)) :
    CacheInv (some b) (evict s1 b) := by
  have hbuf : ∀ i, ((evict s1 b).buf i).key = (s.buf i).key ∧ ((evict s1 b).buf i).count = (s.buf i).count := by
    intro i
    by_cases hi : i = b
    · subst hi; simp [evict, hashRemove, e3]
    · simp [evict, hashRemove, setBuf_ne _ _ hi, e3]
  have hmem : ∀ i j, j ∈ (evict s1 b).hashTable i ↔ j ≠ b ∧ j ∈ s.hashTable i := by
    intro i j
    simp only [evict, hashRemove, setBuf_hashTable, e2]
    rw [(h.chainNodup i).mem_erase_iff]
  have hH : ∀ j, Hashed (evict s1 b) j → j ≠ b ∧ Hashed s j := by
    rintro j ⟨i, hj⟩
    exact ⟨((hmem i j).1 hj).1, i, ((hmem i j).1 hj).2⟩
  refine ⟨fun i j hj => ?_, fun i => ?_, fun j hj => ?_, fun j j' hj hj' hk => ?_, ?_, ?_, ?_, ?_, ?_, ?_, ?_, ?_, ?_, ?_, ?_⟩
  · rw [(hbuf j).1]; exact h.chain i j ((hmem i j).1 hj).2
  · simp only [evict, hashRemove, setBuf_hashTable, e2]; exact (h.chainNodup i).erase b
  · simp only [evict, hashRemove, setBuf_nbuf, e1]; exact h.hashedLt j (hH j hj).2
  · rw [(hbuf j).1, (hbuf j').1] at hk
    exact h.uniq j j' (hH j hj).2 (hH j' hj').2 hk
  · exact hfs.nodup h.freeNodup
  · exact his.nodup h.idleNodup
  · intro j hj hj'; exact h.disjoint j (hfs.subset hj) (his.subset hj')
  · intro j hj; rw [(hbuf j).2]
    have := h.freeOk j (hfs.subset hj)
    simpa [evict, hashRemove, e1] using this
  · intro j hj; rw [(hbuf j).2]
    have := h.idleOk j (his.subset hj)
    simpa [evict, hashRemove, e1] using this
  · intro j hj; rw [(hbuf j).2]
    by_cases hjb : j = b
    · exact .inl (congrArg some hjb.symm)
    · have hj' : j < s.nbuf := by simpa [evict, hashRemove, e1] using hj
      rcases h.cover j hj' with h0 | h0 | h0 | h0
      · cases h0
      · exact .inr (.inl ((hrest j hjb).1 h0))
      · exact .inr (.inr (.inl ((hrest j hjb).2 h0)))
      · exact .inr (.inr (.inr h0))
  · intro r hr
    simpa [evict, hashRemove, e1] using h.refsLt r (by simpa [evict, hashRemove, e4] using hr)
  · intro j hj
    rw [(hbuf j).2, h.count j (by simpa [evict, hashRemove, e1] using hj)]
    simp [held, evict, hashRemove, e4]
  · intro u j hu
    have := h.calls u j (by simpa [evict, hashRemove, e5] using hu)
    simpa [evict, hashRemove, e4] using this
  · intro j hj
    cases hj
    exact ⟨by simpa [evict, hashRemove, e1] using hlt, hb.1, hb.2, fun hh => (hH b hh).1 rfl, (hbuf b).2.trans hc⟩
  · intro j hj hh; exact h.unused j (hfs.subset hj) (hH j hh).2

theorem mem_dropLast_of_nodup {l : List Nat} (hn : l.Nodup) (hl : l.getLast? = some b) :
    b ∉ l.dropLast ∧ ∀ i, i ≠ b → i ∈ l → i ∈ l.dropLast := by
  obtain ⟨l', rfl⟩ : ∃ l', l = l' ++ [b] := getLast?_eq_some_iff.1 hl
  rw [dropLast_concat]
  rw [nodup_append] at hn
  refine ⟨fun hb => hn.2.2 b hb b (by simp) rfl, fun i hi hm => ?_⟩
  rcases mem_append.1 hm with h | h
  · exact h
  · exact absurd (mem_singleton.1 h) hi

theorem takeIdle_inv (h : CacheInv none s) (ht : takeIdle s = some (b, s')) :
    s.idle.getLast? = some b ∧ CacheInv (some b) s' ∧ s' = evict { s with idle := s.idle.dropLast } b := by
  unfold takeIdle at ht
  cases hl : s.idle.getLast? with
  | none => rw [hl] at ht; cases ht
  | some b' =>
    rw [hl] at ht
    simp only [Option.map_some, Option.some.injEq, Prod.mk.injEq] at ht
    obtain ⟨rfl, rfl⟩ := ht
    have hm : b' ∈ s.idle := mem_of_getLast? hl
    obtain ⟨hnd, hkeep⟩ := mem_dropLast_of_nodup h.idleNodup hl
    refine ⟨rfl, evict_inv h (h.idleOk b' hm).1 (h.idleOk b' hm).2 rfl rfl rfl rfl rfl (List.Sublist.refl _)
      (dropLast_sublist _) ⟨fun hf => h.disjoint b' hf hm, hnd⟩ fun i hi => ⟨id, hkeep i hi⟩, rfl⟩

theorem bufferAlloc_inv (h : CacheInv none s) : CacheInv none (bufferAlloc c s) := by
  set n := c.perPage
  have hnew : ∀ i, i ∈ ((range n).map (s.nbuf + ·)).reverse ↔ s.nbuf ≤ i ∧ i < s.nbuf + n := by
    intro i
    simp only [mem_reverse, mem_map, mem_range]
    constructor
    · rintro ⟨k, hk, rfl⟩; omega
    · rintro ⟨h1, h2⟩; exact ⟨i - s.nbuf, by omega, by omega⟩
  have hold : ∀ i, i < s.nbuf → (bufferAlloc c s).buf i = s.buf i := by
    intro i hi
    exact if_neg (by omega)
  have hfresh : ∀ i, s.nbuf ≤ i → i < s.nbuf + n → ((bufferAlloc c s).buf i).count = 0 := by
    intro i h1 h2
    simp only [bufferAlloc]
    rw [if_pos ⟨h1, h2⟩]
  have hfree : (bufferAlloc c s).free = ((range n).map (s.nbuf + ·)).reverse ++ s.free := rfl
  have hnb : (bufferAlloc c s).nbuf = s.nbuf + n := rfl
  refine ⟨fun i b hb => ?_, h.chainNodup, fun b hb => ?_, fun b b' hb hb' => ?_, ?_, h.idleNodup, ?_, ?_, ?_, ?_, ?_, ?_,
    h.calls, by simp, ?_⟩
  · rw [hold b (h.hashedLt b ⟨i, hb⟩)]; exact h.chain i b hb
  · rw [hnb]; have := h.hashedLt b hb; omega
  · rw [hold b (h.hashedLt b hb), hold b' (h.hashedLt b' hb')]; exact h.uniq b b' hb hb'
  · rw [hfree, nodup_append]
    refine ⟨nodup_reverse.2 ((nodup_range).map fun a b hab => by simpa using hab), h.freeNodup, ?_⟩
    intro a ha b hb hab
    subst hab
    have := (h.freeOk a hb).1; have := ((hnew a).1 ha).1; omega
  · rw [hfree]
    intro b hb hi
    have hi' := (h.idleOk b hi).1
    rcases mem_append.1 hb with hb | hb
    · have := ((hnew b).1 hb).1; omega
    · exact h.disjoint b hb hi
  · rw [hfree, hnb]
    intro b hb
    rcases mem_append.1 hb with hb | hb
    · have := (hnew b).1 hb; exact ⟨this.2, hfresh b this.1 this.2⟩
    · have := h.freeOk b hb; rw [hold b this.1]; exact ⟨by omega, this.2⟩
  · intro b hb
    have := h.idleOk b hb; rw [hold b this.1, hnb]; exact ⟨by omega, this.2⟩
  · rw [hfree, hnb]
    intro b hb
    by_cases hlt : b < s.nbuf
    · rw [hold b hlt]
      rcases h.cover b hlt with h0 | h0 | h0
      · cases h0
      · exact .inr (.inl (mem_append_right _ h0))
      · exact .inr (.inr h0)
    · exact .inr (.inl (mem_append_left _ ((hnew b).2 ⟨by omega, hb⟩)))
  · rw [hnb]; intro r hr; have := h.refsLt r hr; omega
  · rw [hnb]
    intro b hb
    by_cases hlt : b < s.nbuf
    · rw [hold b hlt]; exact h.count b hlt
    · rw [hfresh b (by omega) hb]
      refine (countP_eq_zero.2 fun r hr => ?_).symm
      have := h.refsLt r hr
      simp only [decide_eq_true_eq]; omega
  · rw [hfree]
    intro b hb hh
    rcases mem_append.1 hb with hb | hb
    · have := ((hnew b).1 hb).1; have := h.hashedLt b hh; omega
    · exact h.unused b hb hh

/-- A buffer comes from the free list, a page of new ones on it where there was none, or from the idle list. -/
theorem getFreeBuffer_cases (ht : getFreeBuffer c s = some (b, s')) : ∃ s1, (s1 = bufferAlloc c s ∨ s1 = s) ∧
    (s1.free.getLast? = some b ∧ s' = evict { s1 with free := s1.free.dropLast } b ∨ takeIdle s1 = some (b, s')) := by
  unfold getFreeBuffer at ht
  refine ⟨_, ite_eq_or_eq (s.nbuf < maxBufCount ∧ s.free = []) (bufferAlloc c s) s, ?_⟩
  dsimp only at ht
  split at ht
  · rename_i b' hl
    cases ht
    exact .inl ⟨hl, rfl⟩
  · exact .inr ht

theorem getFreeBuffer_inv (h : CacheInv none s) (ht : getFreeBuffer c s = some (b, s')) :
    CacheInv (some b) s' ∧ (∀ i, Hashed s' i → Hashed s i ∧ (s'.buf i).key = (s.buf i).key) ∧
      s'.pc = s.pc ∧ s'.refs = s.refs := by
  have key : ∀ s1 : State S, CacheInv none s1 → (∀ i, Hashed s1 i → Hashed s i ∧ (s1.buf i).key = (s.buf i).key) →
      s1.pc = s.pc → s1.refs = s.refs →
      (s1.free.getLast? = some b ∧ s' = evict { s1 with free := s1.free.dropLast } b ∨ takeIdle s1 = some (b, s')) →
      CacheInv (some b) s' ∧ (∀ i, Hashed s' i → Hashed s i ∧ (s'.buf i).key = (s.buf i).key) ∧
        s'.pc = s.pc ∧ s'.refs = s.refs := by
    intro s1 h1 hk hp hr hm
    have hev : ∀ s2 : State S, s2.hashTable = s1.hashTable → s2.buf = s1.buf →
        ∀ i, Hashed (evict s2 b) i → Hashed s i ∧ ((evict s2 b).buf i).key = (s.buf i).key := by
      rintro s2 e1 e2 i ⟨j, hj⟩
      have hj' : i ∈ s1.hashTable j := by
        simp only [evict, hashRemove, setBuf_hashTable, e1] at hj; exact mem_of_mem_erase hj
      obtain ⟨hH, hkey⟩ := hk i ⟨j, hj'⟩
      refine ⟨hH, ?_⟩
      rw [← hkey]
      by_cases hib : i = b
      · subst hib; simp [evict, hashRemove, e2]
      · simp [evict, hashRemove, setBuf_ne _ _ hib, e2]
    rcases hm with ⟨hl, rfl⟩ | hm
    · have hmem : b ∈ s1.free := mem_of_getLast? hl
      obtain ⟨hnd, hkeep⟩ := mem_dropLast_of_nodup h1.freeNodup hl
      exact ⟨evict_inv h1 (h1.freeOk b hmem).1 (h1.freeOk b hmem).2 rfl rfl rfl rfl rfl (dropLast_sublist _)
        (List.Sublist.refl _) ⟨hnd, h1.disjoint b hmem⟩ fun i hi => ⟨hkeep i hi, id⟩, hev _ rfl rfl, hp, hr⟩
    · obtain ⟨-, hinv, rfl⟩ := takeIdle_inv h1 hm
      exact ⟨hinv, hev _ rfl rfl, hp, hr⟩
  obtain ⟨s1, rfl | rfl, hm⟩ := getFreeBuffer_cases ht
  · refine key _ (bufferAlloc_inv h) (fun i hi => ⟨hi, ?_⟩) rfl rfl hm
    have : i < s.nbuf := h.hashedLt i hi
    exact congrArg Buffer.key (if_neg (by omega))
  · exact key _ h (fun i hi => ⟨hi, rfl⟩) rfl rfl hm

theorem countP_cons_ref (t : Nat) (b i : Nat) (l : List (Nat × Nat)) :
    ((t, b) :: l).countP (fun r => decide (r.2 = i)) =
      l.countP (fun r => decide (r.2 = i)) + if b = i then 1 else 0 := by
  rw [countP_cons]; simp

variable {k : Key}

theorem hashLocate_inv (h : CacheInv (some b) s)
    (hk : ∀ i, Hashed s i → (s.buf i).key ≠ k) : CacheInv none (hashLocate s t b k) := by
  obtain ⟨hlt, hbf, hbi, hbh, hbc⟩ := h.taken b rfl
  have hbuf : ∀ i, i ≠ b → (hashLocate s t b k).buf i = s.buf i := fun i hi => setBuf_ne _ _ hi
  have hself : ((hashLocate s t b k).buf b).key = k ∧ ((hashLocate s t b k).buf b).count = 1 := by simp [hashLocate]
  have hmem : ∀ i j, j ∈ (hashLocate s t b k).hashTable i ↔ j ∈ s.hashTable i ∨ (i = hash k ∧ j = b) := by
    intro i j
    simp only [hashLocate, setBuf_hashTable]
    by_cases hi : i = hash k
    · simp only [hi, if_true, mem_cons]; tauto
    · simp [hi]
  have hH : ∀ j, Hashed (hashLocate s t b k) j ↔ j = b ∨ Hashed s j := by
    intro j
    constructor
    · rintro ⟨i, hi⟩
      rcases (hmem i j).1 hi with h1 | ⟨-, h1⟩
      · exact .inr ⟨i, h1⟩
      · exact .inl h1
    · rintro (rfl | ⟨i, hi⟩)
      · exact ⟨hash k, (hmem _ _).2 (.inr ⟨rfl, rfl⟩)⟩
      · exact ⟨i, (hmem _ _).2 (.inl hi)⟩
  have hne : ∀ j, Hashed s j → j ≠ b := by rintro j hj rfl; exact hbh hj
  refine ⟨fun i j hj => ?_, fun i => ?_, fun j hj => ?_, fun j j' hj hj' he => ?_, h.freeNodup, h.idleNodup, h.disjoint,
    fun j hj => ?_, fun j hj => ?_, fun j hj => ?_, fun r hr => ?_, fun j hj => ?_, fun u j hu => ?_, by simp,
    fun j hj hh => ?_⟩
  · rcases (hmem i j).1 hj with h1 | ⟨rfl, rfl⟩
    · rw [hbuf j (hne j ⟨i, h1⟩)]; exact h.chain i j h1
    · rw [hself.1]
  · simp only [hashLocate, setBuf_hashTable]
    split
    · exact nodup_cons.2 ⟨fun hm => hbh ⟨i, hm⟩, h.chainNodup i⟩
    · exact h.chainNodup i
  · rcases (hH j).1 hj with rfl | h1
    · exact hlt
    · exact h.hashedLt j h1
  · rcases (hH j).1 hj with rfl | h1 <;> rcases (hH j').1 hj' with rfl | h2
    · rfl
    · rw [hself.1, hbuf j' (hne j' h2)] at he; exact absurd he.symm (hk j' h2)
    · rw [hself.1, hbuf j (hne j h1)] at he; exact absurd he (hk j h1)
    · rw [hbuf j (hne j h1), hbuf j' (hne j' h2)] at he; exact h.uniq j j' h1 h2 he
  · rw [hbuf j (by rintro rfl; exact hbf hj)]; exact h.freeOk j hj
  · rw [hbuf j (by rintro rfl; exact hbi hj)]; exact h.idleOk j hj
  · by_cases hjb : j = b
    · subst hjb; rw [hself.2]; exact .inr (.inr (.inr Nat.one_pos))
    · rw [hbuf j hjb]
      rcases h.cover j hj with h0 | h0
      · exact absurd (Option.some.inj h0).symm hjb
      · exact .inr h0
  · rcases mem_cons.1 hr with rfl | hr
    · exact hlt
    · exact h.refsLt r hr
  · have hheld : held (hashLocate s t b k) j = held s j + if b = j then 1 else 0 := countP_cons_ref t b j s.refs
    rw [hheld]
    by_cases hjb : j = b
    · subst hjb; rw [hself.2, ← h.count j hlt, hbc, if_pos rfl]
    · rw [hbuf j hjb, h.count j hj, if_neg (Ne.symm hjb)]; rfl
  · exact .tail _ (h.calls u j hu)
  · rcases (hH j).1 hh with rfl | h1
    · exact hbf hj
    · exact h.unused j hj h1

theorem getblkHit_inv (h : CacheInv none s) (hb : Hashed s b) :
    CacheInv none (getblkHit s t b) := by
  have hlt := h.hashedLt b hb
  have hnf : b ∉ s.free := fun hf => h.unused b hf hb
  have hbuf : ∀ i, ((getblkHit s t b).buf i).key = (s.buf i).key ∧
      ((getblkHit s t b).buf i).count = (s.buf i).count + if b = i then 1 else 0 := by
    intro i
    by_cases hi : i = b
    · subst hi; simp [getblkHit]
    · simp [getblkHit, setBuf_ne _ _ hi, Ne.symm hi]
  have hidle : ∀ i, i ∈ (getblkHit s t b).idle ↔ i ≠ b ∧ i ∈ s.idle := fun i => h.idleNodup.mem_erase_iff
  refine ⟨fun i j hj => ?_, h.chainNodup, h.hashedLt, fun j j' => ?_, h.freeNodup, h.idleNodup.erase b, fun j hj hi => ?_,
    fun j hj => ?_, fun j hj => ?_, fun j hj => ?_, fun r hr => ?_, fun j hj => ?_, fun u j hu => ?_, by simp, h.unused⟩
  · rw [(hbuf j).1]; exact h.chain i j hj
  · rw [(hbuf j).1, (hbuf j').1]; exact h.uniq j j'
  · exact h.disjoint j hj ((hidle j).1 hi).2
  · rw [(hbuf j).2, if_neg (by rintro rfl; exact hnf hj)]; exact h.freeOk j hj
  · obtain ⟨h1, h2⟩ := (hidle j).1 hj
    rw [(hbuf j).2, if_neg (Ne.symm h1)]; exact h.idleOk j h2
  · rw [(hbuf j).2, hidle]
    rcases h.cover j hj with h0 | h0 | h0 | h0
    · cases h0
    · exact .inr (.inl h0)
    · by_cases hjb : b = j
      · simp [hjb]
      · exact .inr (.inr (.inl ⟨Ne.symm hjb, h0⟩))
    · exact .inr (.inr (.inr (by omega)))
  · rcases mem_cons.1 hr with rfl | hr
    · exact hlt
    · exact h.refsLt r hr
  · have hheld : held (getblkHit s t b) j = held s j + if b = j then 1 else 0 := countP_cons_ref t b j s.refs
    rw [(hbuf j).2, hheld, h.count j hj]
  · exact .tail _ (h.calls u j hu)

/-! ## Calls in progress -/

variable {p : Pc}

theorem pc_buffer_setPc {u : Nat} (hu : ((s.setPc t p).pc u).buffer = some b) :
    (s.pc u).buffer = some b ∨ (u = t ∧ p.buffer = some b) := by
  by_cases h : u = t
  · subst h; rw [setPc_self] at hu; exact .inr ⟨rfl, hu⟩
  · rw [setPc_ne s p h] at hu; exact .inl hu

theorem CacheInv.move (h : CacheInv x s) {y : Buffer S}
    (hr : (t, b) ∈ s.refs) (hp : ∀ i, p.buffer = some i → i = b) (hk : y.key = (s.buf b).key)
    (hc : y.count = (s.buf b).count) : CacheInv x ((s.setBuf b y).setPc t p) := by
  refine h.frame rfl rfl rfl rfl rfl (fun i => ?_) fun u i hu => ?_
  · by_cases hi : i = b
    · subst hi; simp [hk, hc]
    · simp [setBuf_ne _ _ hi]
  · rcases pc_buffer_setPc hu with h1 | ⟨rfl, h1⟩
    · exact .inl h1
    · exact .inr (hp i h1 ▸ hr)

theorem setBuf_eta (s : State S) (b : Nat) : s.setBuf b (s.buf b) = s := by
  have : (fun i => if i = b then s.buf b else s.buf i) = s.buf := by
    funext i; split
    · rename_i h; rw [h]
    · rfl
  unfold State.setBuf; rw [this]

theorem CacheInv.goto (h : CacheInv x s)
    (hr : (t, b) ∈ s.refs) (hp : ∀ i, p.buffer = some i → i = b) : CacheInv x (s.setPc t p) := by
  have := h.move (y := s.buf b) hr hp rfl rfl
  rwa [setBuf_eta] at this

theorem CacheInv.gotoFree (h : CacheInv x s)
    (hp : p.buffer = none) : CacheInv x (s.setPc t p) := by
  refine h.frame rfl rfl rfl rfl rfl (fun i => ⟨rfl, rfl⟩) fun u i hu => ?_
  rcases pc_buffer_setPc hu with h1 | ⟨-, h1⟩
  · exact .inl h1
  · rw [hp] at h1; cases h1

theorem CacheInv.buf (h : CacheInv x s) {y : Buffer S}
    (hk : y.key = (s.buf b).key) (hc : y.count = (s.buf b).count) : CacheInv x (s.setBuf b y) := by
  refine h.frame rfl rfl rfl rfl rfl (fun i => ?_) fun u i hu => .inl hu
  by_cases hi : i = b
  · subst hi; simp [hk, hc]
  · simp [setBuf_ne _ _ hi]

theorem readStart_inv (h : CacheInv x s) (hr : (t, b) ∈ s.refs) :
    CacheInv x (readStart c s t b) := by
  unfold readStart
  split
  · exact h.move hr (by simp [Pc.buffer]) rfl rfl
  · exact h.goto hr (by simp [Pc.buffer])

theorem breadFound_inv (h : CacheInv x s) (hr : (t, b) ∈ s.refs) :
    CacheInv x (breadFound c s t b) := by
  unfold breadFound
  split
  · exact h.gotoFree rfl
  · split
    · exact readStart_inv (h.buf rfl rfl) hr
    · exact h.goto hr (by simp [Pc.buffer])

theorem install_ok (h : install c s t b k = .ok s') :
    (s.buf b).dirty = false ∧ s' = breadFound c (hashLocate s t b k) t b := by
  unfold install at h
  split at h
  · cases h
  · split at h
    · cases h
    · rename_i hd
      split at h
      · cases h
      · cases h; exact ⟨by simpa using hd, rfl⟩

theorem install_inv (h : CacheInv (some b) s)
    (hk : ∀ i, Hashed s i → (s.buf i).key ≠ k) (hs : install c s t b k = .ok s') : CacheInv none s' := by
  obtain ⟨-, rfl⟩ := install_ok hs
  exact breadFound_inv (hashLocate_inv h hk) (.head _)

theorem getFromHashTable_some (h : getFromHashTable s k = some b) :
    Hashed s b ∧ (s.buf b).key = k :=
  ⟨⟨_, mem_of_find?_eq_some h⟩, by simpa using find?_some h⟩

theorem getFromHashTable_none (hi : CacheInv none s) (h : getFromHashTable s k = none) :
    ∀ b, Hashed s b → (s.buf b).key ≠ k := by
  rintro b ⟨i, hb⟩ hk
  have hi' := hi.chain i b hb
  rw [hk] at hi'; subst hi'
  have := find?_eq_none.1 h b hb
  simp [hk] at this

theorem waitFree_inv (h : CacheInv x s) :
    CacheInv x (waitFree s t k) := by
  have h1 : CacheInv x { s with wait := t :: s.wait } :=
    h.frame rfl rfl rfl rfl rfl (fun _ => ⟨rfl, rfl⟩) fun _ _ hu => .inl hu
  exact h1.gotoFree rfl

theorem wakeOne_inv (h : CacheInv x s) : CacheInv x (wakeOne s) := by
  unfold wakeOne
  cases s.wait.getLast? with
  | none => exact h
  | some w =>
    have h1 : CacheInv x { s with wait := s.wait.dropLast } :=
      h.frame rfl rfl rfl rfl rfl (fun _ => ⟨rfl, rfl⟩) fun _ _ hu => .inl hu
    simp only
    split
    · exact h1.gotoFree rfl
    · exact h1

theorem release_inv (h : CacheInv none s) (hr : (t, b) ∈ s.refs) :
    ∃ s', release s t b = .ok s' ∧ CacheInv none s' := by
  obtain ⟨hlt, hpos, hnf, hni⟩ := h.inUse hr
  have hperm : s.refs.Perm ((t, b) :: s.refs.erase (t, b)) := perm_cons_erase hr
  have hcnt : ∀ i, held s i =
      (s.refs.erase (t, b)).countP (fun r => decide (r.2 = i)) + if b = i then 1 else 0 := by
    intro i; unfold held; rw [hperm.countP_eq, countP_cons_ref]
  have hcalls : ∀ u i, u ≠ t → (s.pc u).buffer = some i → (u, i) ∈ s.refs.erase (t, b) := by
    intro u i hu hc
    exact (mem_erase_of_ne (by simp [hu])).2 (h.calls u i hc)
  set s1 : State S := (({ s with refs := s.refs.erase (t, b) }).setBuf b
    { s.buf b with count := (s.buf b).count - 1 }).setPc t .user with hs1
  have hbuf : ∀ i, (s1.buf i).key = (s.buf i).key ∧ (s1.buf i).count = (s.buf i).count - if b = i then 1 else 0 := by
    intro i
    by_cases hi : i = b
    · subst hi; simp [hs1]
    · simp [hs1, setBuf_ne _ _ hi, Ne.symm hi]
  have hpc : ∀ u i, (s1.pc u).buffer = some i → (u, i) ∈ s1.refs := by
    intro u i hu
    by_cases hut : u = t
    · subst hut; rw [hs1, setPc_self] at hu; cases hu
    · rw [hs1, setPc_ne _ _ hut] at hu; exact hcalls u i hut hu
  -- the invariant with the buffer in hand when this was the last reference
  have base : ∀ s2 : State S, s2.nbuf = s.nbuf → s2.buf = s1.buf → s2.free = s.free → s2.hashTable = s.hashTable →
      s2.refs = s1.refs → s2.pc = s1.pc → s2.idle.Nodup → (∀ i ∈ s2.idle, i ∈ s.idle ∨ i = b ∧ (s1.buf b).count = 0) →
      (∀ i ∈ s.idle, i ∈ s2.idle) → ((s1.buf b).count = 0 → b ∈ s2.idle) → CacheInv none s2 := by
    intro s2 e1 e2 e3 e4 e5 e6 hnd hsub hsup hb0
    have hH : ∀ j, Hashed s2 j ↔ Hashed s j := fun j => by unfold Hashed; rw [e4]
    refine ⟨fun i j hj => ?_, fun i => ?_, fun j hj => ?_, fun j j' => ?_, ?_, hnd, ?_, ?_, ?_, ?_, ?_, ?_, ?_, by simp, ?_⟩
    · rw [e2, (hbuf j).1]; rw [e4] at hj; exact h.chain i j hj
    · rw [e4]; exact h.chainNodup i
    · rw [e1]; exact h.hashedLt j ((hH j).1 hj)
    · rw [hH, hH, e2, (hbuf j).1, (hbuf j').1]; exact h.uniq j j'
    · rw [e3]; exact h.freeNodup
    · rw [e3]
      intro j hj hj'
      rcases hsub j hj' with h1 | ⟨rfl, -⟩
      · exact h.disjoint j hj h1
      · exact hnf hj
    · rw [e3, e1, e2]
      intro j hj; have := h.freeOk j hj; rw [(hbuf j).2]; exact ⟨this.1, by omega⟩
    · rw [e1, e2]
      intro j hj
      rcases hsub j hj with h1 | ⟨rfl, h0⟩
      · have := h.idleOk j h1; rw [(hbuf j).2]; exact ⟨this.1, by omega⟩
      · exact ⟨hlt, h0⟩
    · rw [e1, e2, e3]
      intro j hj
      by_cases hjb : j = b
      · subst hjb
        by_cases h0 : (s1.buf j).count = 0
        · exact .inr (.inr (.inl (hb0 h0)))
        · exact .inr (.inr (.inr (by omega)))
      · rw [(hbuf j).2, if_neg (Ne.symm hjb)]
        rcases h.cover j hj with h0 | h0 | h0 | h0
        · cases h0
        · exact .inr (.inl h0)
        · exact .inr (.inr (.inl (hsup j h0)))
        · exact .inr (.inr (.inr h0))
    · rw [e5, e1]; intro r hm; exact h.refsLt r (mem_of_mem_erase hm)
    · rw [e1, e2]
      intro j hj
      rw [(hbuf j).2, h.count j hj, hcnt j]
      simp only [held, e5, hs1, setPc_refs, setBuf_refs]
      omega
    · rw [e5, e6]; exact hpc
    · rw [e3]; intro j hj; rw [hH]; exact h.unused j hj
  unfold release
  rw [if_neg (by omega)]
  simp only [← hs1]
  split
  · rename_i h0
    exact ⟨s1, rfl, base s1 rfl rfl rfl rfl rfl rfl h.idleNodup (fun i hi => .inl hi) (fun i hi => hi) fun hc => absurd hc h0⟩
  · rename_i h0
    simp only [ne_eq, Decidable.not_not] at h0
    rw [if_neg (by rintro (hf | hf); exact hnf hf; exact hni hf)]
    refine ⟨_, rfl, wakeOne_inv (base _ rfl rfl rfl rfl rfl rfl (nodup_cons.2 ⟨hni, h.idleNodup⟩) ?_ ?_ ?_)⟩
    · intro i hi
      rcases mem_cons.1 hi with rfl | hi
      · exact .inr ⟨rfl, h0⟩
      · exact .inl hi
    · intro i hi; exact .tail _ hi
    · intro _; exact .head _

end Onix.Cache
