/-
What holds of the heap between two calls, and what the calls for pages and the loops over the blocks of an arena do.
-/
import Onix.Heap.Model

namespace Onix.Heap

open List Onix.Lib

variable {s t : State} {a : Owned} {b : Block} {map : Bitmap} {d : Desc} {i k n p q : Nat}

/-! ## Blocks of an arena -/

def blockSize (i : Nat) : Nat := 16 <<< i

def totalBlock (i : Nat) : Nat := (PAGE_SIZE - HEADER) / blockSize i

def blockAt (i p k : Nat) : Nat := p * PAGE_SIZE + HEADER + k * blockSize i

theorem blockSize_pos (i : Nat) : 0 < blockSize i := by
  unfold blockSize
  rw [Nat.shiftLeft_eq]
  exact Nat.mul_pos (by decide) (Nat.two_pow_pos i)

theorem block_end (hk : k < totalBlock i) : HEADER + k * blockSize i + blockSize i ≤ PAGE_SIZE := by
  have h1 : (k + 1) * blockSize i ≤ PAGE_SIZE - HEADER :=
    (Nat.le_div_iff_mul_le (blockSize_pos i)).1 hk
  rw [Nat.succ_mul] at h1
  unfold PAGE_SIZE HEADER at *
  omega

theorem totalBlock_pos (hi : i < DESC_COUNT) : 0 < totalBlock i := by
  match i, hi with
  | 0, _ | 1, _ | 2, _ | 3, _ | 4, _ | 5, _ | 6, _ => decide

theorem blockAt_page (hk : k < totalBlock i) : blockAt i p k / PAGE_SIZE = p := by
  have h1 := block_end hk
  have h2 := blockSize_pos i
  unfold blockAt
  rw [Nat.add_assoc, Nat.add_comm, Nat.add_mul_div_right _ _ (by decide), Nat.div_eq_of_lt (by omega), Nat.zero_add]

theorem blockAt_inj {l : Nat} (h : blockAt i p k = blockAt i p l) : k = l :=
  Nat.eq_of_mul_eq_mul_right (blockSize_pos i) (Nat.add_left_cancel h)

def blocksOf (i p n : Nat) : List Nat := (List.range n).map (blockAt i p)

theorem mem_blocksOf {x : Nat} : x ∈ blocksOf i p n ↔ ∃ k < n, x = blockAt i p k := by
  unfold blocksOf
  rw [mem_map]
  constructor
  · rintro ⟨k, hk, rfl⟩
    exact ⟨k, mem_range.1 hk, rfl⟩
  · rintro ⟨k, hk, rfl⟩
    exact ⟨k, mem_range.2 hk, rfl⟩

theorem blocksOf_length : (blocksOf i p n).length = n := by
  unfold blocksOf
  rw [length_map, length_range]

/-! ## The invariant -/

structure MapOk (map : Bitmap) : Prop where
  length : map.length = 352
  offset : map.offset = 256
  room : map.length ≤ map.room

def freeOn (l : List Nat) (p : Nat) : Nat := l.countP fun x => x / PAGE_SIZE = p

def State.headerOf (s : State) (a : Owned) : Arena :=
  match a.desc with
  | some i => ⟨some i, freeOn (s.descs i).freeList a.page, 0, ONIX_MAGIC⟩
  | none => ⟨none, a.pages, 1, ONIX_MAGIC⟩

def Holds (a : Owned) (b : Block) : Prop :=
  match a.desc with
  | some i => b.size ≤ blockSize i ∧ ∃ k < totalBlock i, b.addr = blockAt i a.page k
  | none => b.size + HEADER ≤ a.pages * PAGE_SIZE ∧ b.addr = a.page * PAGE_SIZE + HEADER

def Apart (a b : Owned) : Prop := ∀ p, a.Has p → ¬ b.Has p

def FreeBlock (s : State) (i x : Nat) : Prop :=
  ∃ a ∈ s.arenas, a.desc = some i ∧ (∃ k < totalBlock i, x = blockAt i a.page k) ∧ ∀ b ∈ s.live, b.addr ≠ x

/-- The pages of the arenas are taken and each is of one arena. -/
structure Spans (map : Bitmap) (arenas : List Owned) : Prop where
  mapOk : MapOk map
  apart : arenas.Pairwise Apart
  taken : ∀ a ∈ arenas, ∀ p, a.Has p → PageTaken map p
  pos : ∀ a ∈ arenas, 0 < a.pages

structure Inv (s : State) : Prop extends Spans s.map s.arenas where
  desc : ∀ i < DESC_COUNT, (s.descs i).blockSize = blockSize i ∧ (s.descs i).totalBlock = totalBlock i
  pageCount : ∀ i < DESC_COUNT, (s.descs i).pageCount = s.arenas.countP fun a => a.desc = some i
  small : ∀ a ∈ s.arenas, ∀ i, a.desc = some i → i < DESC_COUNT ∧ a.pages = 1
  header : ∀ a ∈ s.arenas, s.arena a.page = s.headerOf a
  nodup : ∀ i < DESC_COUNT, (s.descs i).freeList.Nodup
  free : ∀ i < DESC_COUNT, ∀ x, x ∈ (s.descs i).freeList ↔ FreeBlock s i x
  addrs : (s.live.map Block.addr).Nodup
  live : ∀ b ∈ s.live, ∃ a ∈ s.arenas, Holds a b

/-! ## Kernel pages -/

theorem ofBitmap_ok {α : Type} {x : α} {r : Except BitmapFault α} (h : r = .ok x) : ofBitmap r = .ok x := by
  rw [h]
  rfl

/-- What `alloc_kpage` gives: pages that were free and are taken now, all others are as they were. -/
structure Allocated (map : Bitmap) (n p : Nat) (map' : Bitmap) : Prop where
  ok : MapOk map'
  free : ∀ q, p ≤ q → q < p + n → ¬ PageTaken map q
  taken : ∀ q, PageTaken map' q ↔ PageTaken map q ∨ (p ≤ q ∧ q < p + n)

def NoRoom (map : Bitmap) (n : Nat) : Prop := ∀ p, 256 ≤ p → p + n ≤ 3072 → ∃ q, p ≤ q ∧ q < p + n ∧ PageTaken map q

theorem allocKpage_spec (hm : MapOk map) (hn : 0 < n) :
    (∃ p map', allocKpage map n = .ok (p * PAGE_SIZE, map') ∧ Allocated map n p map') ∨
      (allocKpage map n = .error .panic ∧ NoRoom map n) := by
  obtain ⟨hl, ho, hr⟩ := hm
  unfold allocKpage scanPage assert
  rw [if_pos hn]
  rcases Bitmap.scan_spec hr hn with ⟨st, b, h1, h2, h3, h4⟩ | ⟨h1, h2⟩
  · left
    refine ⟨st + map.offset, { map with bits := b }, ?_, ⟨hl, ho, hr⟩, ?_, ?_⟩
    · rw [h4]
      rfl
    · rintro q hq1 hq2 ⟨-, -, hq⟩
      rw [h2 (q - map.offset) (by omega) (by omega)] at hq
      cases hq
    · intro q
      unfold PageTaken
      dsimp only
      rw [h3]
      by_cases hin : st ≤ q - map.offset ∧ q - map.offset < st + n
      · rw [if_pos hin]
        constructor
        · rintro ⟨h5, -, -⟩
          exact .inr (by omega)
        · rintro (⟨h5, h6, -⟩ | h5)
          · exact ⟨h5, h6, rfl⟩
          · exact ⟨by omega, by omega, rfl⟩
      · rw [if_neg hin]
        constructor
        · exact .inl
        · rintro (h5 | h5)
          · exact h5
          · omega
  · right
    refine ⟨?_, fun p hp1 hp2 => ?_⟩
    · rw [h2]
      rfl
    · obtain ⟨j, hj1, hj2, hj3⟩ := h1 (p - map.offset) (by omega)
      refine ⟨j + map.offset, by omega, by omega, by omega, ?_, ?_⟩
      · rw [Nat.add_sub_cancel]
        omega
      · rw [Nat.add_sub_cancel]
        exact hj3

theorem sat_ok {α : Type} {r : Except Fault α} {Q : α → Prop} (h : Sat (fun _ => True) r Q) : ∃ x, r = .ok x ∧ Q x := by
  cases r with
  | error e => exact absurd trivial h
  | ok x => exact ⟨x, rfl, h⟩

theorem assert_true {c : Prop} [Decidable c] (h : c) : assert c = .ok () := if_pos h

theorem reset_one (hm : MapOk map) (ht : PageTaken map p) :
    ofBitmap (map.test p) = .ok true ∧ ∃ map', ofBitmap (map.set p false) = .ok map' ∧ MapOk map' ∧
      ∀ q, PageTaken map' q ↔ PageTaken map q ∧ q ≠ p := by
  obtain ⟨hl, ho, hr⟩ := hm
  obtain ⟨h1, h2, h3⟩ := ht
  have hp : p = map.offset + (p - map.offset) := by omega
  refine ⟨?_, { map with bits := Bitmap.put map.bits (p - map.offset) false }, ?_, ⟨hl, ho, hr⟩, fun q => ?_⟩
  · apply ofBitmap_ok
    rw [hp, Bitmap.test_ok (by omega) (by omega), h3]
  · apply ofBitmap_ok
    rw [hp, Bitmap.set_ok false (by omega), ← hp]
  · unfold PageTaken
    dsimp only
    rw [Bitmap.bit_put]
    by_cases hq : q = p
    · subst hq
      rw [if_pos rfl]
      constructor
      · rintro ⟨-, -, h⟩
        cases h
      · rintro ⟨-, h⟩
        exact absurd rfl h
    · constructor
      · rintro ⟨h4, h5, h6⟩
        rw [if_neg (by omega)] at h6
        exact ⟨⟨h4, h5, h6⟩, hq⟩
      · rintro ⟨⟨h4, h5, h6⟩, -⟩
        refine ⟨h4, h5, ?_⟩
        rw [if_neg (by omega)]
        exact h6

theorem freeKpage_spec (hm : MapOk map) (hn : 0 < n) (ht : ∀ q, p ≤ q → q < p + n → PageTaken map q) :
    ∃ map', freeKpage map (p * PAGE_SIZE) n = .ok map' ∧ MapOk map' ∧ ∀ q, PageTaken map' q ↔ PageTaken map q ∧ ¬ (p ≤ q ∧ q < p + n) := by
  have hpage : p * PAGE_SIZE % PAGE_SIZE = 0 := Nat.mul_mod_left p PAGE_SIZE
  have hidx : p * PAGE_SIZE / PAGE_SIZE = p := Nat.mul_div_cancel p (by decide)
  unfold freeKpage resetPage
  rw [assert_true hpage, assert_true hn, hidx]
  apply sat_ok
  apply forRange_sat fun i m => MapOk m ∧ ∀ q, PageTaken m q ↔ PageTaken map q ∧ ¬ (p ≤ q ∧ q < p + i)
  · rintro i m hi ⟨hmi, hq⟩
    have hti : PageTaken m (p + i) := (hq _).2 ⟨ht _ (by omega) (by omega), by omega⟩
    obtain ⟨h1, m', h2, h3, h4⟩ := reset_one hmi hti
    rw [h1]
    rw [h2]
    refine ⟨h3, fun q => ?_⟩
    rw [h4, hq]
    constructor
    · rintro ⟨⟨h5, h6⟩, h7⟩
      exact ⟨h5, by omega⟩
    · rintro ⟨h5, h6⟩
      exact ⟨⟨h5, by omega⟩, by omega⟩
  · refine ⟨hm, fun q => ?_⟩
    constructor
    · intro h
      exact ⟨h, by omega⟩
    · exact And.left

/-! ## The loops over the blocks of an arena -/

theorem getArenaBlock_ok (hd : d.blockSize = blockSize i ∧ d.totalBlock = totalBlock i) (hk : k < totalBlock i) :
    getArenaBlock d (p * PAGE_SIZE) k = .ok (blockAt i p k) := by
  unfold getArenaBlock
  rw [assert_true (by rw [hd.2]; exact hk), hd.1]
  rfl

theorem blocksOf_succ : blocksOf i p (n + 1) = blocksOf i p n ++ [blockAt i p n] := by
  unfold blocksOf
  rw [range_succ, map_append, map_singleton]

theorem blocksOf_fresh : blockAt i p n ∉ blocksOf i p n := by
  rw [mem_blocksOf]
  rintro ⟨k, hk, h⟩
  exact absurd (blockAt_inj h) (by omega)

theorem pushBlocks_spec (hd : d.blockSize = blockSize i ∧ d.totalBlock = totalBlock i) (hfree : d.freeList = []) :
    pushBlocks d (p * PAGE_SIZE) = .ok (d.withFree (blocksOf i p d.totalBlock).reverse) := by
  obtain ⟨e, he, hq⟩ : ∃ e, pushBlocks d (p * PAGE_SIZE) = .ok e ∧ e = d.withFree (blocksOf i p d.totalBlock).reverse := by
    apply sat_ok
    apply forRange_sat fun k e => e = d.withFree (blocksOf i p k).reverse
    · rintro k e hk rfl
      have hfresh : blockAt i p k ∉ (blocksOf i p k).reverse := by
        rw [mem_reverse]
        exact blocksOf_fresh
      rw [getArenaBlock_ok hd (hd.2 ▸ hk)]
      change Sat _ (assert (blockAt i p k ∉ (blocksOf i p k).reverse) >>= fun _ => _) _
      rw [assert_true hfresh]
      change Sat _ (assert (blockAt i p k ∈ blockAt i p k :: (blocksOf i p k).reverse) >>= fun _ => _) _
      rw [assert_true mem_cons_self]
      rw [blocksOf_succ, reverse_append]
      rfl
    · cases d
      cases hfree
      rfl
  rw [he, hq]

theorem dropBlocks_spec (hd : d.blockSize = blockSize i ∧ d.totalBlock = totalBlock i) (hn : d.freeList.Nodup)
    (hall : ∀ k < totalBlock i, blockAt i p k ∈ d.freeList) :
    ∃ l, dropBlocks d (p * PAGE_SIZE) = .ok (d.withFree l) ∧ l.Nodup ∧
      ∀ x, x ∈ l ↔ x ∈ d.freeList ∧ x ∉ blocksOf i p d.totalBlock := by
  obtain ⟨e, he, l, rfl, hl⟩ : ∃ e, dropBlocks d (p * PAGE_SIZE) = .ok e ∧ ∃ l, e = d.withFree l ∧ l.Nodup ∧
      ∀ x, x ∈ l ↔ x ∈ d.freeList ∧ x ∉ blocksOf i p d.totalBlock := by
    apply sat_ok
    apply forRange_sat fun k e => ∃ l, e = d.withFree l ∧ l.Nodup ∧ ∀ x, x ∈ l ↔ x ∈ d.freeList ∧ x ∉ blocksOf i p k
    · rintro k e hk ⟨l, rfl, hln, hl⟩
      have hmem : blockAt i p k ∈ l := (hl _).2 ⟨hall k (hd.2 ▸ hk), blocksOf_fresh⟩
      rw [getArenaBlock_ok hd (hd.2 ▸ hk)]
      change Sat _ (assert (blockAt i p k ∈ l) >>= fun _ => _) _
      rw [assert_true hmem]
      change Sat _ (assert (blockAt i p k ∉ l.erase (blockAt i p k)) >>= fun _ => _) _
      rw [assert_true hln.not_mem_erase]
      refine ⟨l.erase (blockAt i p k), rfl, hln.erase _, fun x => ?_⟩
      rw [hln.mem_erase_iff, hl, blocksOf_succ, mem_append, mem_singleton, not_or]
      constructor
      · rintro ⟨h1, h2, h3⟩
        exact ⟨h2, h3, h1⟩
      · rintro ⟨h1, h2, h3⟩
        exact ⟨h3, h1, h2⟩
    · refine ⟨d.freeList, rfl, hn, fun x => ?_⟩
      constructor
      · intro h
        refine ⟨h, ?_⟩
        rw [mem_blocksOf]
        rintro ⟨k, hk, -⟩
        exact absurd hk (Nat.not_lt_zero k)
      · exact And.left
  exact ⟨l, he, hl⟩

end Onix.Heap
