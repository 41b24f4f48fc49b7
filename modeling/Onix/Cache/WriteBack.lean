/-
Write-back. `bwrite` clears `dirty` when its request is over, whatever happened to the buffer since
the request took its sectors. In every run in which that step, and the end of a failed write, leave
no sector behind, a block nobody holds has on the disk what was last written into its buffer, and
no dirty buffer is on the idle list. Two holders of one buffer reach the step that loses an update;
one failed write of a last holder reaches the dirty buffer on the idle list.
-/
import Onix.Cache.Unique

namespace Onix.Cache

open List Onix.Lib

variable {S : Type} {c : Config}
variable {s s' : State S}

/-! ## The invariant -/

def Pc.fetching : Pc → Option Nat
  | .locking b | .reading b _ | .rollback b => some b
  | _ => none

def Pending (s : State S) (b i : Nat) : Prop := ∃ t n rel, s.pc t = .writing b n rel ∧ n ≤ i

/-- What the buffers and the disk hold, with the reference `y`, if any, just taken by a `getblk`. -/
structure WriteInv (c : Config) (y : Option (Nat × Nat)) (s : State S) : Prop where
  hashed : ∀ r ∈ s.refs, Hashed s r.2
  ready : ∀ t b, (t, b) ∈ s.refs → y = some (t, b) ∨ (s.buf b).valid = true ∨ (s.pc t).fetching = some b
  once : ∀ r, (s.buf r.2).valid = true ∨ s.refs.count r ≤ 1
  reading : ∀ t b n, s.pc t = .reading b n →
    (s.buf b).valid = false ∧ (s.buf b).lock = some t ∧ ∀ i < n, (s.buf b).data i = s.disk (s.buf b).key i
  writing : ∀ t b n rel, s.pc t = .writing b n rel → (s.buf b).valid = true
  dirty : ∀ b < s.nbuf, (s.buf b).dirty = true → (s.buf b).valid = true ∧ 0 < (s.buf b).count
  data : ∀ b, Hashed s b → (s.buf b).valid = true → ∀ i < c.sectors (s.buf b).key,
    (s.buf b).data i = s.last (s.buf b).key i
  backed : ∀ b, Hashed s b → (s.buf b).valid = true → (s.buf b).dirty = true ∨
    ∀ i < c.sectors (s.buf b).key, s.disk (s.buf b).key i = s.last (s.buf b).key i ∨ Pending s b i
  absent : ∀ k, (∀ b, Hashed s b → (s.buf b).key = k → (s.buf b).valid = false) →
    ∀ i < c.sectors k, s.disk k i = s.last k i

theorem bufferInit_write (mem : Nat → Buffer S) (disk : Key → Nat → S) : WriteInv c none (bufferInit mem disk) := by
  constructor <;> simp [bufferInit, Hashed]

variable {y : Option (Nat × Nat)}

theorem WriteInv.lists (h : WriteInv c y s) (f i w : List Nat) :
    WriteInv c y { s with free := f, idle := i, wait := w } :=
  ⟨h.hashed, h.ready, h.once, h.reading, h.writing, h.dirty, h.data, h.backed, h.absent⟩

variable {b t : Nat} {p : Pc}

theorem pending_setPc (hp : ∀ b n rel, s.pc t ≠ .writing b n rel) {i : Nat}
    (h : Pending s b i) : Pending (s.setPc t p) b i := by
  obtain ⟨u, n, rel, hu, hn⟩ := h
  have hut : u ≠ t := by rintro rfl; exact hp _ _ _ hu
  exact ⟨u, n, rel, by rw [setPc_ne _ _ hut]; exact hu, hn⟩

theorem WriteInv.move (h : WriteInv c y s) {x : Buffer S}
    (hy : ∀ r, y = some r → r.1 = t) (hk : x.key = (s.buf b).key) (hc : x.count = (s.buf b).count)
    (hv : (s.buf b).valid = true → x.valid = true) (hw : ∀ b' i, b' ≠ b → Pending s b' i → Pending (s.setPc t p) b' i)
    (hready : ∀ b', (t, b') ∈ s.refs → (b' = b ∧ x.valid = true) ∨ (s.buf b').valid = true ∨ p.fetching = some b')
    (halone : ∀ u n, u ≠ t → s.pc u ≠ .reading b n)
    (hread : ∀ b' n, p = .reading b' n → b' = b ∧ x.valid = false ∧ x.lock = some t ∧
      ∀ i < n, x.data i = s.disk (s.buf b).key i)
    (hwrite : ∀ b' n rel, p = .writing b' n rel → (s.buf b').valid = true)
    (hd : x.dirty = true → x.valid = true ∧ (s.buf b).dirty = true)
    (hdata : Hashed s b → x.valid = true → ∀ i < c.sectors (s.buf b).key, x.data i = s.last (s.buf b).key i)
    (hback : Hashed s b → x.valid = true → x.dirty = true ∨ ∀ i < c.sectors (s.buf b).key,
      s.disk (s.buf b).key i = s.last (s.buf b).key i ∨ Pending (s.setPc t p) b i) :
    WriteInv c none ((s.setBuf b x).setPc t p) := by
  set s' := (s.setBuf b x).setPc t p with hs'
  have hb : s'.buf b = x := setBuf_self ..
  have hne : ∀ i, i ≠ b → s'.buf i = s.buf i := fun i hi => setBuf_ne _ _ hi
  have hkey : ∀ i, (s'.buf i).key = (s.buf i).key := by
    intro i
    by_cases hi : i = b
    · rw [hi, hb, hk]
    · rw [hne i hi]
  have hvalid : ∀ i, (s.buf i).valid = true → (s'.buf i).valid = true := by
    intro i h1
    by_cases hi : i = b
    · rw [hi, hb]; exact hv (hi ▸ h1)
    · rw [hne i hi]; exact h1
  have hpc : ∀ u, u ≠ t → s'.pc u = s.pc u := fun u hu => setPc_ne _ _ hu
  have hpt : s'.pc t = p := setPc_self ..
  refine ⟨h.hashed, fun u b' hr => .inr ?_, fun r => ?_, fun u b' n hu => ?_, fun u b' n rel hu => ?_,
    fun i hi hd' => ?_, fun i hH hvi => ?_, fun i hH hvi => ?_, fun k hk' => ?_⟩
  · by_cases hut : u = t
    · subst hut
      rw [hpt]
      rcases hready b' hr with ⟨rfl, h1⟩ | h1 | h1
      · exact .inl (hb ▸ h1)
      · exact .inl (hvalid b' h1)
      · exact .inr h1
    · rw [hpc u hut]
      rcases h.ready u b' hr with h1 | h1 | h1
      · exact absurd (hy _ h1) hut
      · exact .inl (hvalid b' h1)
      · exact .inr h1
  · rcases h.once r with h1 | h1
    · exact .inl (hvalid _ h1)
    · exact .inr h1
  · by_cases hut : u = t
    · subst hut
      obtain ⟨rfl, h1⟩ := hread b' n (hpt ▸ hu)
      rw [hb, hk]; exact h1
    · rw [hpc u hut] at hu
      have hbb : b' ≠ b := by rintro rfl; exact halone u n hut hu
      rw [hne b' hbb]; exact h.reading u b' n hu
  · by_cases hut : u = t
    · subst hut; exact hvalid b' (hwrite b' n rel (hpt ▸ hu))
    · rw [hpc u hut] at hu; exact hvalid b' (h.writing u b' n rel hu)
  · by_cases hib : i = b
    · rw [hib, hb] at hd' ⊢
      obtain ⟨h1, h2⟩ := hd hd'
      rw [hc]; exact ⟨h1, (h.dirty b (hib ▸ hi) h2).2⟩
    · rw [hne i hib] at hd' ⊢; exact h.dirty i hi hd'
  · rw [hkey]
    by_cases hib : i = b
    · subst hib; rw [hb] at hvi ⊢; exact hdata hH hvi
    · rw [hne i hib] at hvi ⊢; exact h.data i hH hvi
  · rw [hkey]
    by_cases hib : i = b
    · subst hib; rw [hb] at hvi ⊢; exact hback hH hvi
    · rw [hne i hib] at hvi ⊢
      rcases h.backed i hH hvi with h1 | h1
      · exact .inl h1
      · refine .inr fun j hj => (h1 j hj).imp_right (hw i j hib)
  · refine h.absent k fun i hH hik => ?_
    have h1 := hk' i hH ((hkey i).trans hik)
    by_contra hcon
    rw [hvalid i (by simpa using hcon)] at h1; cases h1

theorem WriteInv.goto (h : WriteInv c y s)
    (hy : ∀ r, y = some r → r.1 = t) (hnw : ∀ b n rel, s.pc t ≠ .writing b n rel)
    (hready : ∀ b, (t, b) ∈ s.refs → (s.buf b).valid = true ∨ p.fetching = some b)
    (hread : ∀ b n, p ≠ .reading b n) (hwrite : ∀ b n rel, p = .writing b n rel → (s.buf b).valid = true) :
    WriteInv c none (s.setPc t p) := by
  refine ⟨h.hashed, fun u b hr => .inr ?_, h.once, fun u b n hu => ?_, fun u b n rel hu => ?_, h.dirty, h.data,
    fun i hH hv => ?_, h.absent⟩
  · by_cases hut : u = t
    · subst hut; rw [setPc_self]; exact hready b hr
    · rw [setPc_ne _ _ hut]
      rcases h.ready u b hr with h1 | h1
      · exact absurd (hy _ h1) hut
      · exact h1
  · by_cases hut : u = t
    · subst hut; rw [setPc_self] at hu; exact absurd hu (hread b n)
    · rw [setPc_ne _ _ hut] at hu; exact h.reading u b n hu
  · by_cases hut : u = t
    · subst hut; rw [setPc_self] at hu; exact hwrite b n rel hu
    · rw [setPc_ne _ _ hut] at hu; exact h.writing u b n rel hu
  · rcases h.backed i hH hv with h1 | h1
    · exact .inl h1
    · exact .inr fun j hj => (h1 j hj).imp_right (pending_setPc hnw)

/-! ## Taking a buffer -/

theorem noRefs {x : Option Nat} (hC : CacheInv x s) (hlt : b < s.nbuf) (hc : (s.buf b).count = 0) :
    ∀ r ∈ s.refs, r.2 ≠ b := by
  rintro ⟨t, b'⟩ hr rfl
  exact absurd hc (Nat.ne_of_gt (hC.inUse hr).2.1)

theorem count_noRefs (h : ∀ r ∈ s.refs, r.2 ≠ b) {r : Nat × Nat} (hr : r.2 = b) :
    s.refs.count r ≤ 1 := by
  rw [count_eq_zero_of_not_mem fun hm => h r hm hr]; exact Nat.zero_le 1

theorem evict_write (hC : CacheInv none s) (h : WriteInv c none s) (hlt : b < s.nbuf)
    (hc : (s.buf b).count = 0) : WriteInv c none (evict s b) := by
  have hno := noRefs hC hlt hc
  have hcall : ∀ t b', (s.pc t).buffer = some b' → b' ≠ b := fun t b' ht => hno _ (hC.calls t b' ht)
  have hbuf : ∀ i, i ≠ b → (evict s b).buf i = s.buf i := fun i hi => setBuf_ne _ _ hi
  have hself : (evict s b).buf b = { s.buf b with valid := false } := setBuf_self ..
  have hclean : (s.buf b).dirty = false := by
    by_contra hd
    have := (h.dirty b hlt (by simpa using hd)).2
    omega
  have hH : ∀ i, Hashed (evict s b) i ↔ i ≠ b ∧ Hashed s i := by
    intro i
    constructor
    · rintro ⟨j, hj⟩
      have := (hC.chainNodup j).mem_erase_iff.1 hj
      exact ⟨this.1, j, this.2⟩
    · rintro ⟨hi, j, hj⟩
      exact ⟨j, (hC.chainNodup j).mem_erase_iff.2 ⟨hi, hj⟩⟩
  refine ⟨fun r hr => (hH _).2 ⟨hno r hr, h.hashed r hr⟩, fun t b' hr => ?_, fun r => ?_, fun t b' n ht => ?_,
    fun t b' n rel ht => ?_, fun i hi hd => ?_, fun i hi => ?_, fun i hi => ?_, fun k hk => ?_⟩
  · rw [hbuf b' (hno _ hr)]; exact h.ready t b' hr
  · by_cases hr : r.2 = b
    · exact .inr (count_noRefs hno hr)
    · rw [hbuf _ hr]; exact h.once r
  · have ht' : s.pc t = .reading b' n := ht
    rw [hbuf b' (hcall t b' (by simp [ht', Pc.buffer]))]; exact h.reading t b' n ht'
  · have ht' : s.pc t = .writing b' n rel := ht
    rw [hbuf b' (hcall t b' (by simp [ht', Pc.buffer]))]; exact h.writing t b' n rel ht'
  · by_cases hib : i = b
    · rw [hib, hself] at hd; rw [hclean] at hd; cases hd
    · rw [hbuf i hib] at hd ⊢; exact h.dirty i hi hd
  · rw [hbuf i ((hH i).1 hi).1]; exact h.data i ((hH i).1 hi).2
  · rw [hbuf i ((hH i).1 hi).1]; exact h.backed i ((hH i).1 hi).2
  · by_cases hbk : Hashed s b ∧ (s.buf b).key = k ∧ (s.buf b).valid = true
    · obtain ⟨h1, rfl, h3⟩ := hbk
      intro i hi
      rcases h.backed b h1 h3 with h4 | h4
      · rw [hclean] at h4; cases h4
      · rcases h4 i hi with h5 | ⟨t, n, rel, h5, -⟩
        · exact h5
        · exact absurd rfl (hcall t b (by simp [h5, Pc.buffer]))
    · refine h.absent k fun i hi hik => ?_
      by_cases hib : i = b
      · subst hib; simpa using fun hv => hbk ⟨hi, hik, hv⟩
      · have := hk i ((hH i).2 ⟨hib, hi⟩) (by rw [hbuf i hib]; exact hik)
        rwa [hbuf i hib] at this

theorem bufferAlloc_write (hC : CacheInv none s) (h : WriteInv c none s) :
    WriteInv c none (bufferAlloc c s) := by
  have hold : ∀ i, i < s.nbuf → (bufferAlloc c s).buf i = s.buf i := fun i hi => if_neg (by omega)
  have hH : ∀ i, Hashed (bufferAlloc c s) i → i < s.nbuf := fun i hi => hC.hashedLt i hi
  have hcall : ∀ t b, (s.pc t).buffer = some b → b < s.nbuf := fun t b ht => hC.refsLt _ (hC.calls t b ht)
  refine ⟨h.hashed, fun t b hr => ?_, fun r => ?_, fun t b n ht => ?_, fun t b n rel ht => ?_, fun i hi hd => ?_,
    fun i hi => ?_, fun i hi => ?_, fun k hk => h.absent k fun i hi hik => ?_⟩
  · rw [hold b (hC.refsLt _ hr)]; exact h.ready t b hr
  · by_cases hr : r.2 < s.nbuf
    · rw [hold _ hr]; exact h.once r
    · exact .inr (count_noRefs (s := s) (b := r.2) (fun r' hm he => hr (he ▸ hC.refsLt r' hm)) rfl)
  · have ht' : s.pc t = .reading b n := ht
    rw [hold b (hcall t b (by simp [ht', Pc.buffer]))]; exact h.reading t b n ht'
  · have ht' : s.pc t = .writing b n rel := ht
    rw [hold b (hcall t b (by simp [ht', Pc.buffer]))]; exact h.writing t b n rel ht'
  · by_cases hlt : i < s.nbuf
    · rw [hold i hlt] at hd ⊢; exact h.dirty i hlt hd
    · have hnew : (bufferAlloc c s).buf i = _ := if_pos ⟨by omega, hi⟩
      rw [hnew] at hd; cases hd
  · rw [hold i (hH i hi)]; exact h.data i hi
  · rw [hold i (hH i hi)]; exact h.backed i hi
  · have := hk i hi (by rw [hold i (hH i hi)]; exact hik)
    rwa [hold i (hH i hi)] at this

theorem takeIdle_write (hC : CacheInv none s) (h : WriteInv c none s)
    (ht : takeIdle s = some (b, s')) : WriteInv c none s' ∧ (s'.buf b).valid = false := by
  obtain ⟨hl, -, rfl⟩ := takeIdle_inv hC ht
  obtain ⟨hlt, hc⟩ := hC.idleOk b (mem_of_getLast? hl)
  exact ⟨(evict_write hC h hlt hc).lists s.free s.idle.dropLast s.wait, by simp [evict]⟩

theorem getFreeBuffer_write (hC : CacheInv none s) (h : WriteInv c none s)
    (ht : getFreeBuffer c s = some (b, s')) : WriteInv c none s' ∧ (s'.buf b).valid = false := by
  have key : ∀ s1 : State S, CacheInv none s1 → WriteInv c none s1 →
      (s1.free.getLast? = some b ∧ s' = evict { s1 with free := s1.free.dropLast } b ∨ takeIdle s1 = some (b, s')) → WriteInv c none s' ∧ (s'.buf b).valid = false := by
    intro s1 hC1 h1 hm
    rcases hm with ⟨hl, rfl⟩ | hm
    · obtain ⟨hlt, hc⟩ := hC1.freeOk b (mem_of_getLast? hl)
      exact ⟨(evict_write hC1 h1 hlt hc).lists s1.free.dropLast s1.idle s1.wait, by simp [evict]⟩
    · exact takeIdle_write hC1 h1 hm
  obtain ⟨s1, rfl | rfl, hm⟩ := getFreeBuffer_cases ht
  · exact key _ (bufferAlloc_inv hC) (bufferAlloc_write hC h) hm
  · exact key _ hC h hm

/-! ## `getblk` and the waits of `bread` -/

variable {k : Key}

theorem hashLocate_write (hC : CacheInv (some b) s) (h : WriteInv c none s)
    (hv : (s.buf b).valid = false) (hd : (s.buf b).dirty = false) :
    WriteInv c (some (t, b)) (hashLocate s t b k) := by
  obtain ⟨hlt, -, -, hnh, hc0⟩ := hC.taken b rfl
  have hno := noRefs hC hlt hc0
  have hcall : ∀ u b', (s.pc u).buffer = some b' → b' ≠ b := fun u b' hu => hno _ (hC.calls u b' hu)
  have hbuf : ∀ i, i ≠ b → (hashLocate s t b k).buf i = s.buf i := fun i hi => setBuf_ne _ _ hi
  have hself : (hashLocate s t b k).buf b = { s.buf b with count := 1, key := k } := setBuf_self ..
  have hH : ∀ i, Hashed (hashLocate s t b k) i ↔ i = b ∨ Hashed s i := by
    intro i
    constructor
    · rintro ⟨j, hj⟩
      simp only [hashLocate, setBuf_hashTable] at hj
      split at hj
      · rcases mem_cons.1 hj with h1 | h1
        · exact .inl h1
        · exact .inr ⟨j, h1⟩
      · exact .inr ⟨j, hj⟩
    · rintro (rfl | ⟨j, hj⟩)
      · exact ⟨hash k, by simp [hashLocate]⟩
      · refine ⟨j, ?_⟩
        simp only [hashLocate, setBuf_hashTable]
        split
        · exact mem_cons_of_mem _ hj
        · exact hj
  have hsplit : ∀ i, Hashed (hashLocate s t b k) i → ((hashLocate s t b k).buf i).valid = true → Hashed s i ∧ i ≠ b := by
    intro i hi hvi
    have hib : i ≠ b := by rintro rfl; rw [hself] at hvi; simp [hv] at hvi
    exact ⟨((hH i).1 hi).resolve_left hib, hib⟩
  refine ⟨fun r hr => ?_, fun u b' hr => ?_, fun r => ?_, fun u b' n hu => ?_, fun u b' n rel hu => ?_,
    fun i hi hdi => ?_, fun i hi hvi => ?_, fun i hi hvi => ?_, fun k' hk' => ?_⟩
  · rcases mem_cons.1 hr with rfl | hr
    · exact (hH _).2 (.inl rfl)
    · exact (hH _).2 (.inr (h.hashed r hr))
  · rcases mem_cons.1 hr with he | hr
    · exact .inl (congrArg some he.symm)
    · rw [hbuf b' (hno _ hr)]
      exact .inr ((h.ready u b' hr).resolve_left (by simp))
  · by_cases hrb : r.2 = b
    · have h0 : s.refs.count r = 0 := count_eq_zero_of_not_mem fun hm => hno r hm hrb
      refine .inr ?_
      show ((t, b) :: s.refs).count r ≤ 1
      rw [count_cons, h0]; split <;> omega
    · have hne : r ≠ (t, b) := by rintro rfl; exact hrb rfl
      have hcount : (hashLocate s t b k).refs.count r = s.refs.count r := count_cons_of_ne hne.symm
      rw [hbuf _ hrb, hcount]; exact h.once r
  · have hu' : s.pc u = .reading b' n := hu
    rw [hbuf b' (hcall u b' (by simp [hu', Pc.buffer]))]; exact h.reading u b' n hu'
  · have hu' : s.pc u = .writing b' n rel := hu
    rw [hbuf b' (hcall u b' (by simp [hu', Pc.buffer]))]; exact h.writing u b' n rel hu'
  · by_cases hib : i = b
    · rw [hib, hself] at hdi; simp [hd] at hdi
    · rw [hbuf i hib] at hdi ⊢; exact h.dirty i hi hdi
  · obtain ⟨h1, h2⟩ := hsplit i hi hvi
    rw [hbuf i h2] at hvi ⊢; exact h.data i h1 hvi
  · obtain ⟨h1, h2⟩ := hsplit i hi hvi
    rw [hbuf i h2] at hvi ⊢; exact h.backed i h1 hvi
  · refine h.absent k' fun i hi hik => ?_
    have hib : i ≠ b := by rintro rfl; exact hnh hi
    have := hk' i ((hH i).2 (.inr hi)) (by rw [hbuf i hib]; exact hik)
    rwa [hbuf i hib] at this

theorem getblkHit_write (h : WriteInv c none s) (hb : Hashed s b)
    (ht : (s.pc t).fetching = none) : WriteInv c (some (t, b)) (getblkHit s t b) := by
  have hbuf : ∀ i, ((getblkHit s t b).buf i).valid = (s.buf i).valid ∧ ((getblkHit s t b).buf i).key = (s.buf i).key ∧
      ((getblkHit s t b).buf i).data = (s.buf i).data ∧ ((getblkHit s t b).buf i).dirty = (s.buf i).dirty ∧
      ((getblkHit s t b).buf i).lock = (s.buf i).lock ∧ (s.buf i).count ≤ ((getblkHit s t b).buf i).count := by
    intro i
    by_cases hi : i = b
    · subst hi; simp [getblkHit]
    · simp [getblkHit, setBuf_ne _ _ hi]
  refine ⟨fun r hr => ?_, fun u b' hr => ?_, fun r => ?_, fun u b' n hu => ?_, fun u b' n rel hu => ?_,
    fun i hi hd => ?_, fun i hi hv => ?_, fun i hi hv => ?_, fun k hk => ?_⟩
  · rcases mem_cons.1 hr with rfl | hr
    · exact hb
    · exact h.hashed r hr
  · rw [(hbuf b').1]
    rcases mem_cons.1 hr with he | hr
    · exact .inl (congrArg some he.symm)
    · exact .inr ((h.ready u b' hr).resolve_left (by simp))
  · rw [(hbuf r.2).1]
    by_cases hrt : r = (t, b)
    · subst hrt
      by_cases hm : (t, b) ∈ s.refs
      · rcases h.ready t b hm with h1 | h1 | h1
        · cases h1
        · exact .inl h1
        · rw [ht] at h1; cases h1
      · refine .inr ?_
        show ((t, b) :: s.refs).count (t, b) ≤ 1
        have h0 := count_eq_zero_of_not_mem hm
        rw [count_cons_self]; omega
    · have hcount : (getblkHit s t b).refs.count r = s.refs.count r := count_cons_of_ne (Ne.symm hrt)
      rw [hcount]; exact h.once r
  · obtain ⟨h1, h2, h3, -, h5, -⟩ := hbuf b'
    rw [h1, h2, h3, h5]; exact h.reading u b' n hu
  · rw [(hbuf b').1]; exact h.writing u b' n rel hu
  · obtain ⟨h1, -, -, h4, -, h6⟩ := hbuf i
    rw [h4] at hd; rw [h1]
    obtain ⟨h7, h8⟩ := h.dirty i hi hd
    exact ⟨h7, by omega⟩
  · obtain ⟨h1, h2, h3, -⟩ := hbuf i
    rw [h1] at hv; rw [h2, h3]; exact h.data i hi hv
  · obtain ⟨h1, h2, -, h4, -⟩ := hbuf i
    rw [h1] at hv; rw [h2, h4]; exact h.backed i hi hv
  · refine h.absent k fun i hi hik => ?_
    rw [← (hbuf i).1]; exact hk i hi ((hbuf i).2.1.trans hik)

theorem setBuf_setBuf (s : State S) (b : Nat) (x y : Buffer S) : (s.setBuf b x).setBuf b y = s.setBuf b y := by
  unfold State.setBuf
  congr 1
  funext i; by_cases h : i = b <;> simp [h]

theorem readStart_write (h : WriteInv c y s)
    (hy : ∀ r, y = some r → r.1 = t) (hlt : b < s.nbuf) (hl : (s.buf b).lock = none) (hv : (s.buf b).valid = false)
    (hnw : ∀ b n rel, s.pc t ≠ .writing b n rel)
    (hready : ∀ b', (t, b') ∈ s.refs → b' = b ∨ (s.buf b').valid = true) :
    WriteInv c none (readStart c (s.setBuf b { s.buf b with lock := some t }) t b) := by
  have halone : ∀ u n, u ≠ t → s.pc u ≠ .reading b n := by
    intro u n _ hu
    have := (h.reading u b n hu).2.1
    rw [hl] at this; cases this
  have hready' : ∀ p : Pc, p.fetching = some b → ∀ b', (t, b') ∈ s.refs →
      (b' = b ∧ (s.buf b).valid = true) ∨ (s.buf b').valid = true ∨ p.fetching = some b' := by
    intro p hp b' hr
    rcases hready b' hr with rfl | h1
    · exact .inr (.inr hp)
    · exact .inr (.inl h1)
  have hdirty : (s.buf b).dirty = true → (s.buf b).valid = true ∧ (s.buf b).dirty = true :=
    fun hd => ⟨(h.dirty b hlt hd).1, hd⟩
  unfold readStart
  simp only [setBuf_self, setBuf_setBuf]
  split
  · refine h.move hy rfl rfl id (fun _ _ _ => pending_setPc hnw) (hready' _ rfl) halone (by simp) (by simp) hdirty
      (h.data b) fun _ h1 => ?_
    rw [hv] at h1; cases h1
  · refine h.move hy rfl rfl id (fun _ _ _ => pending_setPc hnw) (hready' _ rfl) halone ?_ (by simp) hdirty
      (h.data b) fun _ h1 => ?_
    · rintro b' n he
      cases he
      exact ⟨rfl, hv, rfl, by simp⟩
    · rw [hv] at h1; cases h1

theorem breadFound_write (h : WriteInv c (some (t, b)) s) (hlt : b < s.nbuf)
    (ht : (s.pc t).buffer = none) : WriteInv c none (breadFound c s t b) := by
  have hy : ∀ r, some (t, b) = some r → r.1 = t := by rintro r he; cases he; rfl
  have hnw : ∀ b n rel, s.pc t ≠ .writing b n rel := by rintro b n rel he; simp [he, Pc.buffer] at ht
  have hready : ∀ b', (t, b') ∈ s.refs → b' = b ∨ (s.buf b').valid = true := by
    intro b' hr
    rcases h.ready t b' hr with h1 | h1 | h1
    · cases h1; exact .inl rfl
    · exact .inr h1
    · cases hp : s.pc t <;> simp [hp, Pc.fetching, Pc.buffer] at h1 ht
  unfold breadFound
  split
  · rename_i hv
    refine h.goto hy hnw (fun b' hr => .inl ?_) (by simp) (by simp)
    rcases hready b' hr with rfl | h1
    · exact hv
    · exact h1
  · rename_i hv
    split
    · rename_i hl
      exact readStart_write h hy hlt hl (by simpa using hv) hnw hready
    · refine h.goto hy hnw (fun b' hr => ?_) (by simp) (by simp)
      rcases hready b' hr with rfl | h1
      · exact .inr rfl
      · exact .inl h1

theorem lockAcquired_write (h : WriteInv c none s) (hlt : b < s.nbuf)
    (hp : s.pc t = .locking b) (hl : (s.buf b).lock = none) : WriteInv c none (lockAcquired c s t b) := by
  have hnw : ∀ b n rel, s.pc t ≠ .writing b n rel := by simp [hp]
  have hready : ∀ b', (t, b') ∈ s.refs → b' = b ∨ (s.buf b').valid = true := by
    intro b' hr
    rcases h.ready t b' hr with h1 | h1 | h1
    · cases h1
    · exact .inr h1
    · rw [hp] at h1; cases h1; exact .inl rfl
  unfold lockAcquired
  split
  · rename_i hv
    refine h.goto (by simp) hnw (fun b' hr => .inl ?_) (by simp) (by simp)
    rcases hready b' hr with rfl | h1
    · exact hv
    · exact h1
  · rename_i hv
    exact readStart_write h (by simp) hlt hl (by simpa using hv) hnw hready

theorem WriteInv.valid (h : WriteInv c none s) (hr : (t, b) ∈ s.refs)
    (ht : (s.pc t).fetching = none) : (s.buf b).valid = true := by
  rcases h.ready t b hr with h1 | h1 | h1
  · cases h1
  · exact h1
  · rw [ht] at h1; cases h1

theorem waitFree_write (h : WriteInv c none s) (ht : (s.pc t).buffer = none)
    (hf : (s.pc t).fetching = none) : WriteInv c none (waitFree s t k) := by
  have hnw : ∀ b n rel, s.pc t ≠ .writing b n rel := by rintro b n rel he; simp [he, Pc.buffer] at ht
  exact (h.lists s.free s.idle (t :: s.wait)).goto (by simp) hnw (fun b hr => .inl (h.valid hr hf)) (by simp) (by simp)

theorem install_write (hC : CacheInv (some b) s) (h : WriteInv c none s)
    (hv : (s.buf b).valid = false) (ht : (s.pc t).buffer = none) (hs : install c s t b k = .ok s') :
    WriteInv c none s' := by
  obtain ⟨hd, rfl⟩ := install_ok hs
  exact breadFound_write (hashLocate_write hC h hv hd) (hC.taken b rfl).1 ht

theorem bread_write (hC : CacheInv none s) (h : WriteInv c none s)
    (hp : s.pc t = .user) (hs : bread c s t k = .ok s') : WriteInv c none s' := by
  unfold bread at hs
  cases hg : getFromHashTable s k with
  | some b =>
    rw [hg] at hs; cases hs
    have hb := (getFromHashTable_some hg).1
    exact breadFound_write (getblkHit_write h hb (by simp [hp, Pc.fetching])) (hC.hashedLt b hb)
      (show (s.pc t).buffer = none by simp [hp, Pc.buffer])
  | none =>
    rw [hg] at hs
    cases hb : getFreeBuffer c s with
    | none => rw [hb] at hs; cases hs; exact waitFree_write h (by simp [hp, Pc.buffer]) (by simp [hp, Pc.fetching])
    | some r =>
      rw [hb] at hs
      obtain ⟨h1, -, hpc, -⟩ := getFreeBuffer_inv hC hb
      obtain ⟨h2, hv⟩ := getFreeBuffer_write hC h hb
      exact install_write h1 h2 hv (by simp [hpc, hp, Pc.buffer]) hs

theorem wake_write (hC : CacheInv none s) (h : WriteInv c none s)
    (hp : s.pc t = .woken k) (hs : wake c s t k = .ok s') : WriteInv c none s' := by
  unfold wake at hs
  cases ht : takeIdle s with
  | none => rw [ht] at hs; cases hs; exact waitFree_write h (by simp [hp, Pc.buffer]) (by simp [hp, Pc.fetching])
  | some r =>
    obtain ⟨b, s1⟩ := r
    rw [ht] at hs
    obtain ⟨-, h1, rfl⟩ := takeIdle_inv hC ht
    obtain ⟨h2, hv⟩ := takeIdle_write hC h ht
    exact install_write h1 h2 hv (show (s.pc t).buffer = none by simp [hp, Pc.buffer]) hs

/-! ## Requests -/

variable {n : Nat}

theorem transfer_read_write (hC : CacheInv none s) (h : WriteInv c none s)
    (hp : s.pc t = .reading b n) : WriteInv c none (transfer s t) := by
  obtain ⟨hv, hl, hd⟩ := h.reading t b n hp
  have hnw : ∀ b n rel, s.pc t ≠ .writing b n rel := by simp [hp]
  have hlt : b < s.nbuf := hC.refsLt _ (hC.calls t b (by simp [hp, Pc.buffer]))
  have e : transfer s t = (s.setBuf b { s.buf b with
      data := fun i => if i = n then s.disk (s.buf b).key n else (s.buf b).data i }).setPc t (.reading b (n + 1)) := by
    simp [transfer, hp]
  rw [e]
  refine h.move (by simp) rfl rfl id (fun _ _ _ => pending_setPc hnw) (fun b' hr => ?_) (fun u m hu hu' => ?_) ?_
    (by simp) (fun hd' => ⟨(h.dirty b hlt hd').1, hd'⟩) (fun _ h1 => ?_) (fun _ h1 => ?_)
  · rcases h.ready t b' hr with h1 | h1 | h1
    · cases h1
    · exact .inr (.inl h1)
    · rw [hp] at h1; exact .inr (.inr h1)
  · have := (h.reading u b m hu').2.1
    rw [hl] at this; exact hu (Option.some.inj this).symm
  · rintro b' m he
    cases he
    refine ⟨rfl, hv, hl, fun i hi => ?_⟩
    by_cases hin : i = n
    · simp [hin]
    · simpa [hin] using hd i (by omega)
  · rw [hv] at h1; cases h1
  · rw [hv] at h1; cases h1

theorem transfer_write_write {rel : Bool} (hC : CacheInv none s) (h : WriteInv c none s)
    (hp : s.pc t = .writing b n rel) (hn : n < c.sectors (s.buf b).key) : WriteInv c none (transfer s t) := by
  have hr : (t, b) ∈ s.refs := hC.calls t b (by simp [hp, Pc.buffer])
  have hv := h.writing t b n rel hp
  have hbH := h.hashed _ hr
  have hlast := h.data b hbH hv n hn
  set s' := transfer s t with hs'
  have e : s' = { s.setPc t (.writing b (n + 1) rel) with
      disk := fun k i => if k = (s.buf b).key ∧ i = n then (s.buf b).data n else s.disk k i } := by
    simp [hs', transfer, hp]
  have hpt : s'.pc t = .writing b (n + 1) rel := by rw [e]; exact setPc_self ..
  have hpc : ∀ u, u ≠ t → s'.pc u = s.pc u := fun u hu => by rw [e]; exact setPc_ne _ _ hu
  have hbuf : s'.buf = s.buf := by rw [e]; rfl
  have hrefs : s'.refs = s.refs := by rw [e]; rfl
  have hnb : s'.nbuf = s.nbuf := by rw [e]; rfl
  have hla : s'.last = s.last := by rw [e]; rfl
  have hH : ∀ i, Hashed s' i ↔ Hashed s i := fun i => by rw [e]; rfl
  have hdisk : ∀ k i, s.disk k i = s.last k i → s'.disk k i = s.last k i := by
    intro k i hki
    rw [e]
    show (if _ then _ else _) = _
    split
    · rename_i hc; rw [hc.1, hc.2]; exact hlast
    · exact hki
  have hdiskn : s'.disk (s.buf b).key n = s.last (s.buf b).key n := by
    rw [e]; exact (if_pos ⟨rfl, rfl⟩).trans hlast
  refine ⟨fun r hm => ?_, fun u b' hm => ?_, fun r => ?_, fun u b' m hu => ?_, fun u b' m rel' hu => ?_,
    fun i hi hd => ?_, fun i hi hvi => ?_, fun i hi hvi => ?_, fun k hk => ?_⟩
  · rw [hH]; exact h.hashed r (hrefs ▸ hm)
  · rw [hbuf]
    by_cases hut : u = t
    · subst hut
      exact .inr (.inl (h.valid (hrefs ▸ hm) (by simp [hp, Pc.fetching])))
    · rw [hpc u hut]; exact h.ready u b' (hrefs ▸ hm)
  · rw [hbuf, hrefs]; exact h.once r
  · have hut : u ≠ t := by rintro rfl; rw [hpt] at hu; cases hu
    rw [hpc u hut] at hu
    obtain ⟨h1, h2, h3⟩ := h.reading u b' m hu
    -- the buffer being read has another block
    have hkey : (s.buf b').key ≠ (s.buf b).key := by
      intro hk
      have hbb := hC.uniq b' b (h.hashed _ (hC.calls u b' (by simp [hu, Pc.buffer]))) hbH hk
      rw [hbb, hv] at h1; cases h1
    rw [hbuf]
    refine ⟨h1, h2, fun i hi => (h3 i hi).trans ?_⟩
    rw [e]; exact (if_neg fun hc => hkey hc.1).symm
  · rw [hbuf]
    by_cases hut : u = t
    · subst hut; rw [hpt] at hu; cases hu; exact hv
    · rw [hpc u hut] at hu; exact h.writing u b' m rel' hu
  · rw [hbuf] at hd ⊢; exact h.dirty i (hnb ▸ hi) hd
  · rw [hbuf] at hvi ⊢; rw [hla]; exact h.data i ((hH i).1 hi) hvi
  · rw [hbuf] at hvi ⊢; rw [hla]
    rcases h.backed i ((hH i).1 hi) hvi with h1 | h1
    · exact .inl h1
    · refine .inr fun j hj => ?_
      rcases h1 j hj with h2 | ⟨u, m, rel', h2, h3⟩
      · exact .inl (hdisk _ _ h2)
      · by_cases hut : u = t
        · subst hut
          rw [hp] at h2; cases h2
          by_cases hjn : j = n
          · rw [hjn]; exact .inl hdiskn
          · exact .inr ⟨u, n + 1, rel, hpt, by omega⟩
        · exact .inr ⟨u, m, rel', (hpc u hut).trans h2, h3⟩
  · intro i hi
    rw [hla]
    refine hdisk k i (h.absent k (fun j hj hjk => ?_) i hi)
    have := hk j ((hH j).2 hj) (by rw [hbuf]; exact hjk)
    rwa [hbuf] at this

theorem wakeOne_write (h : WriteInv c none s) : WriteInv c none (wakeOne s) := by
  unfold wakeOne
  cases s.wait.getLast? with
  | none => exact h
  | some w =>
    have h1 := h.lists s.free s.idle s.wait.dropLast
    simp only
    split
    · rename_i k hp
      refine h1.goto (by simp) (by simp [hp]) (fun b hr => .inl (h.valid hr (by simp [hp, Pc.fetching]))) (by simp) (by simp)
    · exact h1

theorem release_write (h : WriteInv c none s)
    (hr : (t, b) ∈ s.refs) (hp : s.pc t = .user ∨ s.pc t = .rollback b)
    (hd : (s.buf b).dirty = true → (s.buf b).count ≠ 1) (hs : release s t b = .ok s') : WriteInv c none s' := by
  set s1 : State S := (({ s with refs := s.refs.erase (t, b) }).setBuf b
    { s.buf b with count := (s.buf b).count - 1 }).setPc t .user with hs1
  have hnw : ∀ b n rel, s.pc t ≠ .writing b n rel := by rcases hp with hp | hp <;> simp [hp]
  have hbuf : ∀ i, (s1.buf i).valid = (s.buf i).valid ∧ (s1.buf i).key = (s.buf i).key ∧
      (s1.buf i).data = (s.buf i).data ∧ (s1.buf i).dirty = (s.buf i).dirty ∧ (s1.buf i).lock = (s.buf i).lock ∧
      (i ≠ b → (s1.buf i).count = (s.buf i).count) := by
    intro i
    by_cases hi : i = b
    · subst hi; simp [hs1]
    · simp [hs1, setBuf_ne _ _ hi]
  have hpc : ∀ u, u ≠ t → s1.pc u = s.pc u := fun u hu => setPc_ne _ _ hu
  have hpt : s1.pc t = .user := setPc_self ..
  have h1 : WriteInv c none s1 := by
    refine ⟨fun r hm => h.hashed r (mem_of_mem_erase hm), fun u b' hm => ?_, fun r => ?_, fun u b' n hu => ?_,
      fun u b' n rel hu => ?_, fun i hi hdi => ?_, fun i hi hv => ?_, fun i hi hv => ?_, fun k hk => ?_⟩
    · rw [(hbuf b').1]
      have hm' : (u, b') ∈ s.refs := mem_of_mem_erase hm
      by_cases hut : u = t
      · subst hut
        refine .inr (.inl ?_)
        rcases h.ready u b' hm' with h1 | h1 | h1
        · cases h1
        · exact h1
        · -- a task that gives up a read holds the buffer once
          rcases hp with hp | hp
          · rw [hp] at h1; cases h1
          · rw [hp] at h1; cases h1
            refine (h.once (u, b)).resolve_right fun hle => ?_
            have := count_pos_iff.2 hm
            rw [show s1.refs = s.refs.erase (u, b) from rfl, count_erase_self] at this
            omega
      · rw [hpc u hut]; exact h.ready u b' hm'
    · rw [(hbuf r.2).1]
      refine (h.once r).imp_right fun hle => Nat.le_trans ?_ hle
      exact List.Sublist.count_le r erase_sublist
    · obtain ⟨e1, e2, e3, -, e5, -⟩ := hbuf b'
      have hut : u ≠ t := by rintro rfl; rw [hpt] at hu; cases hu
      rw [e1, e2, e3, e5]; exact h.reading u b' n (hpc u hut ▸ hu)
    · have hut : u ≠ t := by rintro rfl; rw [hpt] at hu; cases hu
      rw [(hbuf b').1]; exact h.writing u b' n rel (hpc u hut ▸ hu)
    · obtain ⟨e1, -, -, e4, -, e6⟩ := hbuf i
      rw [e4] at hdi; rw [e1]
      obtain ⟨h2, h3⟩ := h.dirty i hi hdi
      refine ⟨h2, ?_⟩
      by_cases hib : i = b
      · subst hib
        have := hd hdi
        simp only [hs1, setPc_buf, setBuf_self]; omega
      · rw [e6 hib]; exact h3
    · obtain ⟨e1, e2, e3, -⟩ := hbuf i
      rw [e1] at hv; rw [e2, e3]; exact h.data i hi hv
    · obtain ⟨e1, e2, -, e4, -⟩ := hbuf i
      rw [e1] at hv; rw [e2, e4]
      rcases h.backed i hi hv with h2 | h2
      · exact .inl h2
      · refine .inr fun j hj => (h2 j hj).imp_right ?_
        rintro ⟨u, n, rel, hu, hn⟩
        have hut : u ≠ t := by rintro rfl; exact hnw _ _ _ hu
        exact ⟨u, n, rel, (hpc u hut).trans hu, hn⟩
    · refine h.absent k fun i hi hik => ?_
      rw [← (hbuf i).1]; exact hk i hi ((hbuf i).2.1.trans hik)
  unfold release at hs
  split at hs
  · cases hs
  · simp only [← hs1] at hs
    split at hs
    · exact Except.ok.inj hs ▸ h1
    · split at hs
      · cases hs
      · cases hs; exact wakeOne_write (h1.lists s1.free (b :: s1.idle) s1.wait)

theorem brelse_write (hC : CacheInv none s) (h : WriteInv c none s)
    (hr : (t, b) ∈ s.refs) (hp : s.pc t = .user ∨ s.pc t = .rollback b) (hs : brelse s t b = .ok s') :
    WriteInv c none s' := by
  have hnw : ∀ b n rel, s.pc t ≠ .writing b n rel := by rcases hp with hp | hp <;> simp [hp]
  unfold brelse at hs
  split at hs
  · rename_i hd
    cases hs
    have hv := (h.dirty b (hC.inUse hr).1 hd).1
    refine h.goto (by simp) hnw (fun b' hr' => .inl ?_) (by simp) (by rintro b' n rel he; cases he; exact hv)
    rcases h.ready t b' hr' with h1 | h1 | h1
    · cases h1
    · exact h1
    · rcases hp with hp | hp
      · rw [hp] at h1; cases h1
      · rw [hp] at h1; cases h1; exact hv
  · rename_i hd
    exact release_write h hr hp (fun h1 => absurd h1 hd) hs

theorem bwrite_write (hC : CacheInv none s) (h : WriteInv c none s)
    (hr : (t, b) ∈ s.refs) (hp : s.pc t = .user) : WriteInv c none (bwrite s t b) := by
  unfold bwrite
  split
  · rename_i hd
    have hv := (h.dirty b (hC.inUse hr).1 hd).1
    exact h.goto (by simp) (by simp [hp]) (fun b' hr' => .inl (h.valid hr' (by simp [hp, Pc.fetching]))) (by simp)
      (by rintro b' n rel he; cases he; exact hv)
  · exact h

theorem update_write {data : Nat → S} (hC : CacheInv none s) (h : WriteInv c none s)
    (hr : (t, b) ∈ s.refs) (hp : s.pc t = .user) : WriteInv c none (update s b data) := by
  have hv := h.valid hr (by simp [hp, Pc.fetching])
  have hbH := h.hashed _ hr
  obtain ⟨hlt, hpos, -⟩ := hC.inUse hr
  have hbuf : ∀ i, i ≠ b → (update s b data).buf i = s.buf i := fun i hi => setBuf_ne _ _ hi
  have hself : (update s b data).buf b = { s.buf b with data := data, dirty := true } := setBuf_self ..
  have hfield : ∀ i, ((update s b data).buf i).valid = (s.buf i).valid ∧ ((update s b data).buf i).key = (s.buf i).key := by
    intro i
    by_cases hi : i = b
    · rw [hi, hself]; exact ⟨rfl, rfl⟩
    · rw [hbuf i hi]; exact ⟨rfl, rfl⟩
  have hlast : ∀ k, k ≠ (s.buf b).key → (update s b data).last k = s.last k := fun k hk => if_neg hk
  have hother : ∀ i, Hashed s i → i ≠ b → (s.buf i).key ≠ (s.buf b).key := fun i hi hib hk => hib (hC.uniq i b hi hbH hk)
  refine ⟨h.hashed, fun u b' hm => ?_, fun r => ?_, fun u b' n hu => ?_, fun u b' n rel hu => ?_, fun i hi hd => ?_,
    fun i hi hvi => ?_, fun i hi hvi => ?_, fun k hk => ?_⟩
  · rw [(hfield b').1]; exact h.ready u b' hm
  · rw [(hfield r.2).1]; exact h.once r
  · have h1 := h.reading u b' n hu
    have hbb : b' ≠ b := by rintro rfl; rw [hv] at h1; cases h1.1
    rw [hbuf b' hbb]; exact h1
  · rw [(hfield b').1]; exact h.writing u b' n rel hu
  · by_cases hib : i = b
    · rw [hib, hself]; exact ⟨hv, hpos⟩
    · rw [hbuf i hib] at hd ⊢; exact h.dirty i hi hd
  · by_cases hib : i = b
    · rw [hib, hself]; intro j _; exact congrFun (if_pos rfl).symm j
    · rw [hbuf i hib] at hvi ⊢; rw [hlast _ (hother i hi hib)]; exact h.data i hi hvi
  · by_cases hib : i = b
    · rw [hib, hself]; exact .inl rfl
    · rw [hbuf i hib] at hvi ⊢; rw [hlast _ (hother i hi hib)]; exact h.backed i hi hvi
  · have hkb : k ≠ (s.buf b).key := by
      rintro rfl
      have := hk b hbH (hfield b).2
      rw [(hfield b).1, hv] at this; cases this
    rw [hlast k hkb]
    refine h.absent k fun i hi hik => ?_
    rw [← (hfield i).1]; exact hk i hi ((hfield i).2.trans hik)

/-! ## The end of a request -/

/-- Every sector on the disk is as the buffer holds it, or another write in flight has yet to take it. -/
def Covered (c : Config) (s : State S) (t b : Nat) : Prop :=
  ∀ i < c.sectors (s.buf b).key, s.disk (s.buf b).key i = (s.buf b).data i ∨
    ∃ u, u ≠ t ∧ ∃ n rel, s.pc u = .writing b n rel ∧ n ≤ i

theorem release_user (s : State S) (t b : Nat) : release (s.setPc t .user) t b = release s t b := by
  have e : (fun u => if u = t then Pc.user else if u = t then .user else s.pc u) =
      fun u => if u = t then .user else s.pc u := by
    funext u; split <;> rfl
  simp only [release, State.setPc, State.setBuf, e]

theorem written_write {rel : Bool} {d : Bool} (hC : CacheInv none s)
    (h : WriteInv c none s) (hp : s.pc t = .writing b n rel) (hd : d = true → (s.buf b).dirty = true)
    (hcov : d = false → Covered c s t b) (hlast : d = true → rel = true → (s.buf b).count ≠ 1)
    (hs : (if rel then release (s.setBuf b { s.buf b with dirty := d, valid := true }) t b
      else .ok ((s.setBuf b { s.buf b with dirty := d, valid := true }).setPc t .user)) = .ok s') :
    WriteInv c none s' := by
  have hv := h.writing t b n rel hp
  have hr : (t, b) ∈ s.refs := hC.calls t b (by simp [hp, Pc.buffer])
  have h1 : WriteInv c none ((s.setBuf b { s.buf b with dirty := d, valid := true }).setPc t .user) := by
    refine h.move (by simp) rfl rfl (fun _ => rfl) ?_ (fun b' hr' => .inr (.inl ?_)) (fun u m _ hu => ?_) (by simp) (by simp)
      (fun h1 => ⟨rfl, hd h1⟩) (fun hH _ => h.data b hH hv) (fun hH _ => ?_)
    · rintro b' i hb ⟨u, m, rel', hu, hm⟩
      have hut : u ≠ t := by rintro rfl; rw [hp] at hu; cases hu; exact hb rfl
      exact ⟨u, m, rel', (setPc_ne _ _ hut).trans hu, hm⟩
    · exact h.valid hr' (by simp [hp, Pc.fetching])
    · have := (h.reading u b m hu).1
      rw [hv] at this; cases this
    · cases d with
      | true => exact .inl rfl
      | false =>
        refine .inr fun i hi => ?_
        rcases hcov rfl i hi with h2 | ⟨u, hut, m, rel', hu, hm⟩
        · exact .inl (h2.trans (h.data b hH hv i hi))
        · exact .inr ⟨u, m, rel', (setPc_ne _ _ hut).trans hu, hm⟩
  cases rel with
  | false => simp only [Bool.false_eq_true, if_false] at hs; exact Except.ok.inj hs ▸ h1
  | true =>
    rw [← release_user] at hs
    refine release_write h1 hr (.inl (setPc_self ..)) (fun hdd => ?_) hs
    simp only [setPc_buf, setBuf_self] at hdd ⊢
    exact hlast hdd rfl

theorem finish_read_write (hC : CacheInv none s) (h : WriteInv c none s)
    (hp : s.pc t = .reading b n) (hn : n = c.sectors (s.buf b).key) (hs : finish s t = .ok s') : WriteInv c none s' := by
  obtain ⟨hv, hl, hd⟩ := h.reading t b n hp
  have hbH := h.hashed _ (hC.calls t b (by simp [hp, Pc.buffer]))
  have hdisk := h.absent (s.buf b).key fun i hi hk => by rw [hC.uniq i b hi hbH hk]; exact hv
  unfold finish at hs
  rw [hp] at hs
  cases hs
  refine h.move (by simp) rfl rfl (fun _ => rfl) (fun _ _ _ => pending_setPc (by simp [hp])) (fun b' hr => ?_)
    (fun u m hu hu' => ?_) (by simp) (by simp) (by simp) (fun _ _ i hi => ?_) (fun _ _ => .inr fun i hi => .inl (hdisk i hi))
  · rcases h.ready t b' hr with h1 | h1 | h1
    · cases h1
    · exact .inr (.inl h1)
    · rw [hp] at h1; cases h1; exact .inl ⟨rfl, rfl⟩
  · have := (h.reading u b m hu').2.1
    rw [hl] at this; exact hu (Option.some.inj this).symm
  · exact (hd i (hn ▸ hi)).trans (hdisk i hi)

theorem fail_read_write (hC : CacheInv none s) (h : WriteInv c none s)
    (hp : s.pc t = .reading b n) (hs : fail s t = .ok s') : WriteInv c none s' := by
  obtain ⟨hv, hl, -⟩ := h.reading t b n hp
  have hlt : b < s.nbuf := hC.refsLt _ (hC.calls t b (by simp [hp, Pc.buffer]))
  unfold fail at hs
  rw [hp] at hs
  cases hs
  refine h.move (by simp) rfl rfl id (fun _ _ _ => pending_setPc (by simp [hp])) (fun b' hr => ?_)
    (fun u m hu hu' => ?_) (by simp) (by simp) (fun hd => ⟨(h.dirty b hlt hd).1, hd⟩) (h.data b) (fun _ h1 => ?_)
  · rcases h.ready t b' hr with h1 | h1 | h1
    · cases h1
    · exact .inr (.inl h1)
    · rw [hp] at h1; exact .inr (.inr h1)
  · have := (h.reading u b m hu').2.1
    rw [hl] at this; exact hu (Option.some.inj this).symm
  · rw [hv] at h1; cases h1

/-! ## Runs -/

/-- The steps that lose nothing: a getblk that slept finds no other buffer with its block; a write that
ends well leaves every sector of the buffer on the disk or to another write; so does a failed one if
the buffer is clean by then, and a failed one of a dirty buffer is not the last holder's `brelse`. -/
def Kept (c : Config) (s : State S) (a : Act S) : Prop :=
  Fresh s a ∧ match a with
  | .finish t => match s.pc t with
    | .writing b _ _ => Covered c s t b
    | _ => True
  | .fail t => match s.pc t with
    | .writing b _ rel => ((s.buf b).dirty = false → Covered c s t b) ∧
      ((s.buf b).dirty = true → rel = true → (s.buf b).count ≠ 1)
    | _ => True
  | _ => True

theorem step_write {a : Act S} (hC : CacheInv none s) (h : WriteInv c none s) (hk : Kept c s a)
    (he : enabled c s a) (hs : step c s a = .ok s') : WriteInv c none s' := by
  cases a with
  | bread t k => exact bread_write hC h he hs
  | wake t =>
    simp only [step] at hs
    split at hs
    · rename_i k hp
      exact wake_write hC h hp hs
    · cases hs; exact h
  | lock t =>
    simp only [enabled] at he
    simp only [step] at hs
    split at hs
    · rename_i b hp
      rw [hp] at he
      cases hs
      exact lockAcquired_write h (hC.refsLt _ (hC.calls t b (by simp [hp, Pc.buffer]))) hp he
    · cases hs; exact h
  | transfer t =>
    simp only [enabled] at he
    cases hs
    split at he
    · rename_i b n hp
      exact transfer_read_write hC h hp
    · rename_i b n rel hp
      exact transfer_write_write hC h hp he
    · exact he.elim
  | finish t =>
    simp only [enabled] at he
    obtain ⟨-, hk⟩ := hk
    simp only at hk
    cases hp : s.pc t with
    | reading b n => rw [hp] at he; exact finish_read_write hC h hp he hs
    | writing b n rel =>
      rw [hp] at hk
      simp only [step, finish, hp] at hs
      exact written_write (d := false) hC h hp (by simp) (fun _ => hk) (by simp) hs
    | _ => rw [hp] at he; exact he.elim
  | fail t =>
    simp only [enabled] at he
    obtain ⟨-, hk⟩ := hk
    simp only at hk
    cases hp : s.pc t with
    | reading b n => exact fail_read_write hC h hp hs
    | writing b n rel =>
      rw [hp] at hk
      simp only [step, fail, hp] at hs
      refine written_write (d := (s.buf b).dirty) hC h hp id hk.1 hk.2 ?_
      have hx : ({ s.buf b with valid := true } : Buffer S) = s.buf b := by rw [← h.writing t b n rel hp]
      simp only [hx, setBuf_eta]; exact hs
    | _ => rw [hp] at he; exact he.elim
  | undo t =>
    simp only [step] at hs
    split at hs
    · rename_i b hp
      exact brelse_write hC h (hC.calls t b (by simp [hp, Pc.buffer])) (.inr hp) hs
    · cases hs; exact h
  | bwrite t b => cases hs; exact bwrite_write hC h he.2 he.1
  | brelse t b => exact brelse_write hC h he.2 (.inl he.1) hs
  | update t b data => cases hs; exact update_write hC h he.2 he.1

/-- A block nobody holds has on the disk what was last written into it, and no buffer of the idle list
is dirty. -/
def WrittenBack (c : Config) (s : State S) : Prop :=
  (∀ k, (∀ b, Hashed s b → (s.buf b).key = k → (s.buf b).count = 0) →
    ∀ i < c.sectors k, s.disk k i = s.last k i) ∧
  ∀ b ∈ s.idle, (s.buf b).dirty = false

theorem WriteInv.writtenBack (hC : CacheInv none s) (h : WriteInv c none s) : WrittenBack c s := by
  have hclean : ∀ b < s.nbuf, (s.buf b).count = 0 → (s.buf b).dirty = false := by
    intro b hb h0
    by_contra hd
    have := (h.dirty b hb (by simpa using hd)).2
    omega
  refine ⟨fun k hk => ?_, fun b hb => hclean b (hC.idleOk b hb).1 (hC.idleOk b hb).2⟩
  by_cases hv : ∃ b, Hashed s b ∧ (s.buf b).key = k ∧ (s.buf b).valid = true
  · obtain ⟨b, hb, rfl, hv⟩ := hv
    have h0 := hk b hb rfl
    intro i hi
    rcases h.backed b hb hv with h1 | h1
    · rw [hclean b (hC.hashedLt b hb) h0] at h1; cases h1
    · rcases h1 i hi with h2 | ⟨t, n, rel, ht, -⟩
      · exact h2
      · exact absurd rfl (noRefs hC (hC.hashedLt b hb) h0 _ (hC.calls t b (by simp [ht, Pc.buffer])))
  · exact h.absent k fun b hb hbk => by simpa using fun h1 => hv ⟨b, hb, hbk, h1⟩

theorem reach_write (h : (bufferCache S c).Reach (Kept c) s) : CacheInv none s ∧ WriteInv c none s := by
  refine h.inv (I := fun s => CacheInv none s ∧ WriteInv c none s) ?_ fun s a s' hi hk hs =>
    ⟨step_inv hi.1 hk.1 hs.1 hs.2, step_write hi.1 hi.2 hk hs.1 hs.2⟩
  rintro s ⟨mem, disk, rfl⟩
  exact ⟨bufferInit_inv mem disk, bufferInit_write mem disk⟩

def Act.plain : Act S → Bool
  | .wake _ => false
  | _ => true

theorem fresh_of_plain (s : State S) (a : Act S) (h : a.plain = true) : Fresh s a := by
  cases a with
  | wake t => cases h
  | _ => trivial

/-- A disk of zeros and the memory before the first `buffer_alloc`. -/
def zeros : State Nat := bufferInit (fun _ => ⟨fun _ => 0, ⟨0, 0⟩, 0, none, false, false⟩) fun _ _ => 0

theorem failed_write_idle : ∃ s, (bufferCache Nat ide).Reach Machine.Any s ∧ ∃ b ∈ s.idle, (s.buf b).dirty = true := by
  obtain ⟨s, h, hm, hd⟩ : ∃ s, (bufferCache Nat ide).trace (fun _ a => a.plain = true) zeros
      [.bread 1 ⟨3, 4⟩, .transfer 1, .transfer 1, .finish 1, .update 1 0 fun _ => 5, .brelse 1 0, .fail 1] = some s ∧
      s.idle = [0] ∧ (s.buf 0).dirty = true := by
    refine ⟨_, rfl, ?_, ?_⟩ <;> rfl
  have h0 : (bufferCache Nat ide).start zeros := ⟨_, _, rfl⟩
  exact ⟨s, (Machine.trace_reach h0 h).mono fun _ _ _ => trivial, 0, by rw [hm]; exact mem_cons_self .., hd⟩

end Onix.Cache
