/-
What the calls of the heap do to what holds between them.
-/
import Mathlib.Data.List.Pairwise
import Onix.Heap.Invariant

namespace Onix.Heap

open List Function Onix.Lib

variable {s t : State} {a a' : Owned} {b : Block} {map map' : Bitmap} {arenas : List Owned} {l : List Nat} {live : List Block}
  {i k n p q x : Nat}

/-! ## Arenas and their pages -/

theorem Apart.symm (h : Apart a a') : Apart a' a := fun p h1 h2 => h p h2 h1

instance : Std.Symm Apart := ⟨fun _ _ => Apart.symm⟩

theorem Spans.has_page (h : Spans map arenas) (ha : a ∈ arenas) : a.Has a.page :=
  ⟨le_refl _, Nat.lt_add_of_pos_right (h.pos a ha)⟩

theorem Spans.apart_of (h : Spans map arenas) (ha : a ∈ arenas) (ha' : a' ∈ arenas) (hne : a ≠ a') : Apart a a' :=
  h.apart.forall ha ha' hne

theorem Spans.eq_of_page (h : Spans map arenas) (ha : a ∈ arenas) (ha' : a' ∈ arenas) (hp : a.page = a'.page) : a = a' := by
  by_contra hne
  refine h.apart_of ha ha' hne a.page (h.has_page ha) ?_
  rw [hp]
  exact h.has_page ha'

theorem Spans.nodup_arenas (h : Spans map arenas) : arenas.Nodup := by
  refine h.apart.imp_of_mem ?_
  rintro a a' ha - hapart rfl
  exact hapart a.page (h.has_page ha) (h.has_page ha)

theorem Spans.fresh (h : Spans map arenas) (hp : Allocated map n p map') (ha : a ∈ arenas) (hq : a.Has q) : ¬ (p ≤ q ∧ q < p + n) := by
  rintro ⟨h1, h2⟩
  exact hp.free q h1 h2 (h.taken a ha q hq)

theorem Spans.add {desc : Option Nat} (h : Spans map arenas) (hp : Allocated map n p map') (hn : 0 < n) : Spans map' (⟨p, n, desc⟩ :: arenas) := by
  refine ⟨hp.ok, ?_, ?_, ?_⟩
  · refine pairwise_cons.2 ⟨fun a ha q hq1 hq2 => ?_, h.apart⟩
    exact h.fresh hp ha hq2 hq1
  · intro a ha q hq
    rw [hp.taken]
    rcases mem_cons.1 ha with rfl | ha
    · exact .inr hq
    · exact .inl (h.taken a ha q hq)
  · intro a ha
    rcases mem_cons.1 ha with rfl | ha
    · exact hn
    · exact h.pos a ha

theorem Spans.erase (h : Spans map arenas) (ha : a ∈ arenas) (hm : MapOk map')
    (ht : ∀ q, PageTaken map' q ↔ PageTaken map q ∧ ¬ (a.page ≤ q ∧ q < a.page + a.pages)) : Spans map' (arenas.erase a) := by
  refine ⟨hm, h.apart.sublist erase_sublist, ?_, ?_⟩
  · intro a' ha' q hq
    obtain ⟨hne, ha'⟩ := (h.nodup_arenas.mem_erase_iff).1 ha'
    rw [ht]
    exact ⟨h.taken a' ha' q hq, h.apart_of ha' ha hne q hq⟩
  · intro a' ha'
    exact h.pos a' (mem_of_mem_erase ha')

/-! ## Blocks and their arenas -/

theorem holds_small (hd : a.desc = some i) : Holds a b ↔ b.size ≤ blockSize i ∧ ∃ k < totalBlock i, b.addr = blockAt i a.page k := by
  unfold Holds
  rw [hd]

theorem holds_large (hd : a.desc = none) : Holds a b ↔ b.size + HEADER ≤ a.pages * PAGE_SIZE ∧ b.addr = a.page * PAGE_SIZE + HEADER := by
  unfold Holds
  rw [hd]

theorem header_small (hd : a.desc = some i) : s.headerOf a = ⟨some i, freeOn (s.descs i).freeList a.page, 0, ONIX_MAGIC⟩ := by
  unfold State.headerOf
  rw [hd]

theorem header_large (hd : a.desc = none) : s.headerOf a = ⟨none, a.pages, 1, ONIX_MAGIC⟩ := by
  unfold State.headerOf
  rw [hd]

theorem Holds.page (h : Holds a b) : b.addr / PAGE_SIZE = a.page := by
  cases hd : a.desc with
  | none =>
    obtain ⟨-, hb⟩ := (holds_large hd).1 h
    rw [hb, add_comm, Nat.add_mul_div_right _ _ (by decide), Nat.div_eq_of_lt (by decide), zero_add]
  | some i =>
    obtain ⟨-, k, hk, hb⟩ := (holds_small hd).1 h
    rw [hb]
    exact blockAt_page hk

theorem freeOn_cons (x : Nat) (l : List Nat) (p : Nat) : freeOn (x :: l) p = freeOn l p + if x / PAGE_SIZE = p then 1 else 0 := by
  unfold freeOn
  rw [countP_cons]
  simp

theorem freeOn_blocksOf (hn : n ≤ totalBlock i) : freeOn (blocksOf i p n).reverse q = if q = p then n else 0 := by
  have hpage : ∀ x ∈ blocksOf i p n, x / PAGE_SIZE = p := by
    intro x hx
    obtain ⟨k, hk, rfl⟩ := mem_blocksOf.1 hx
    exact blockAt_page (by omega)
  unfold freeOn
  rw [countP_reverse]
  by_cases hq : q = p
  · rw [if_pos hq, hq]
    refine (countP_eq_length.2 fun x hx => ?_).trans blocksOf_length
    exact decide_eq_true (hpage x hx)
  · rw [if_neg hq]
    refine countP_eq_zero.2 fun x hx => ?_
    rw [hpage x hx]
    simpa using fun h => hq h.symm

/-! ## One block -/

def State.reblock (s : State) (i p : Nat) (l : List Nat) (live : List Block) : State :=
  { (s.setDesc i ((s.descs i).withFree l)).setArena p ⟨some i, freeOn l p, 0, ONIX_MAGIC⟩ with live := live }

theorem reblock_desc (s : State) (i p : Nat) (l : List Nat) (live : List Block) (j : Nat) :
    (s.reblock i p l live).descs j = if j = i then (s.descs i).withFree l else s.descs j := by
  change update s.descs i _ j = _
  rw [update_apply]

theorem reblock_arena (s : State) (i p : Nat) (l : List Nat) (live : List Block) (q : Nat) :
    (s.reblock i p l live).arena q = if q = p then ⟨some i, freeOn l p, 0, ONIX_MAGIC⟩ else s.arena q := by
  change update s.arena p _ q = _
  rw [update_apply]

theorem Inv.reblock (h : Inv s) (l : List Nat) (live : List Block) (ha : a ∈ s.arenas) (hd : a.desc = some i) (hk : k < totalBlock i) (hx : x = blockAt i a.page k)
    (hl : l.Nodup) (hlx : x ∈ l ↔ ∀ b ∈ live, b.addr ≠ x) (hlo : ∀ y, y ≠ x → (y ∈ l ↔ y ∈ (s.descs i).freeList))
    (hcount : ∀ p, p ≠ a.page → freeOn l p = freeOn (s.descs i).freeList p)
    (hlive : ∀ y, y ≠ x → ((∀ b ∈ live, b.addr ≠ y) ↔ ∀ b ∈ s.live, b.addr ≠ y)) (haddrs : (live.map Block.addr).Nodup)
    (hb : ∀ b ∈ live, b ∈ s.live ∨ Holds a b) : Inv (s.reblock i a.page l live) := by
  have hpage : x / PAGE_SIZE = a.page := by
    rw [hx]
    exact blockAt_page hk
  refine ⟨h.toSpans, ?_, ?_, h.small, ?_, ?_, ?_, haddrs, ?_⟩
  · intro j hj
    rw [reblock_desc]
    split
    · rename_i hji
      rw [hji] at hj ⊢
      exact h.desc i hj
    · exact h.desc j hj
  · intro j hj
    rw [reblock_desc]
    split
    · rename_i hji
      rw [hji] at hj ⊢
      exact h.pageCount i hj
    · exact h.pageCount j hj
  · intro a' ha'
    rw [reblock_arena]
    split
    · rename_i hp
      obtain rfl := h.eq_of_page ha' ha hp
      rw [header_small hd, reblock_desc, if_pos rfl]
      rfl
    · rename_i hp
      rw [h.header a' ha']
      cases hd' : a'.desc with
      | none => rw [header_large hd', header_large hd']
      | some j =>
        rw [header_small hd', header_small hd', reblock_desc]
        split
        · rename_i hji
          rw [hji]
          congr 1
          exact (hcount _ hp).symm
        · rfl
  · intro j hj
    rw [reblock_desc]
    split
    · exact hl
    · exact h.nodup j hj
  · intro j hj y
    rw [reblock_desc]
    have hfree := h.free j hj y
    by_cases hy : y = x
    · subst hy
      -- the block is of this descriptor only
      have hother : j ≠ i → y ∉ (s.descs j).freeList ∧ ¬ FreeBlock (s.reblock i a.page l live) j y := by
        intro hji
        have hnot : ∀ u : State, u.arenas = s.arenas → ¬ FreeBlock u j y := by
          rintro u hu ⟨a', ha', hd', ⟨k', hk', rfl⟩, -⟩
          rw [hu] at ha'
          have : a' = a := h.eq_of_page ha' ha ((blockAt_page hk').symm.trans hpage)
          rw [this, hd] at hd'
          exact hji (Option.some.inj hd').symm
        exact ⟨fun hm => hnot s rfl (hfree.1 hm), hnot _ rfl⟩
      split
      · rename_i hji
        subst hji
        change y ∈ l ↔ _
        rw [hlx]
        constructor
        · intro hlive'
          exact ⟨a, ha, hd, ⟨k, hk, hx⟩, hlive'⟩
        · rintro ⟨a', -, -, -, hlive'⟩
          exact hlive'
      · rename_i hji
        exact ⟨fun hm => absurd hm (hother hji).1, fun hm => absurd hm (hother hji).2⟩
    · have hiff : FreeBlock (s.reblock i a.page l live) j y ↔ FreeBlock s j y := by
        constructor
        · rintro ⟨a', ha', hd', hk', hlive'⟩
          exact ⟨a', ha', hd', hk', (hlive y hy).1 hlive'⟩
        · rintro ⟨a', ha', hd', hk', hlive'⟩
          exact ⟨a', ha', hd', hk', (hlive y hy).2 hlive'⟩
      rw [hiff, ← hfree]
      split
      · rename_i hji
        subst hji
        exact hlo y hy
      · rfl
  · intro b hb'
    rcases hb b hb' with hb' | hb'
    · exact h.live b hb'
    · exact ⟨a, ha, hb'⟩

theorem Inv.count (h : Inv s) (ha : a ∈ s.arenas) (hd : a.desc = some i) :
    s.arena a.page = ⟨some i, freeOn (s.descs i).freeList a.page, 0, ONIX_MAGIC⟩ := by
  rw [h.header a ha, header_small hd]

theorem live_cons {y : Nat} (b : Block) (hy : y ≠ b.addr) : (∀ c ∈ b :: live, c.addr ≠ y) ↔ ∀ c ∈ live, c.addr ≠ y := by
  constructor
  · intro h c hc
    exact h c (mem_cons_of_mem b hc)
  · intro h c hc
    rcases mem_cons.1 hc with rfl | hc
    · exact hy.symm
    · exact h c hc

theorem live_filter {y : Nat} (hy : y ≠ x) :
    (∀ c ∈ live.filter fun c => c.addr ≠ x, c.addr ≠ y) ↔ ∀ c ∈ live, c.addr ≠ y := by
  constructor
  · intro h c hc heq
    refine h c (mem_filter.2 ⟨hc, ?_⟩) heq
    rw [heq]
    exact decide_eq_true hy
  · intro h c hc
    exact h c (mem_filter.1 hc).1

theorem Inv.popBlock (h : Inv s) (hi : i < DESC_COUNT) (hne : (s.descs i).freeList ≠ []) :
    ∃ x t, popBlock s i = .ok (x, t) ∧ t.arenas = s.arenas ∧ ∀ size ≤ blockSize i, Inv { t with live := ⟨x, size⟩ :: t.live } := by
  cases hl : (s.descs i).freeList with
  | nil => exact absurd hl hne
  | cons x rest =>
    have hx : x ∈ (s.descs i).freeList := by
      rw [hl]
      exact mem_cons_self
    have hnodup := h.nodup i hi
    rw [hl, nodup_cons] at hnodup
    obtain ⟨a, ha, hd, ⟨k, hk, hxk⟩, hlive⟩ := (h.free i hi x).1 hx
    have hpage : x / PAGE_SIZE = a.page := by
      rw [hxk]
      exact blockAt_page hk
    have hcount := h.count ha hd
    have hfree : freeOn (s.descs i).freeList a.page = freeOn rest a.page + 1 := by
      rw [hl, freeOn_cons, if_pos hpage]
    have harena : s.arena (getBlockArena x) = ⟨some i, freeOn rest a.page + 1, 0, ONIX_MAGIC⟩ := by
      rw [← hfree, ← hcount]
      exact congrArg s.arena hpage
    refine ⟨x, s.reblock i a.page rest s.live, ?_, rfl, fun size hsize => ?_⟩
    · unfold Heap.popBlock
      rw [hl]
      dsimp only
      rw [harena, assert_true ⟨rfl, rfl⟩]
      change Except.ok (x, (s.setDesc i ((s.descs i).withFree rest)).setArena (x / PAGE_SIZE) _) = _
      rw [hpage]
      rfl
    · refine h.reblock rest (⟨x, size⟩ :: s.live) ha hd hk hxk hnodup.2 ?_ ?_ ?_ ?_ ?_ ?_
      · constructor
        · intro hm
          exact absurd hm hnodup.1
        · intro hm
          exact absurd rfl (hm _ mem_cons_self)
      · intro y hy
        rw [hl, mem_cons]
        exact ⟨.inr, fun hm => hm.resolve_left hy⟩
      · intro p hp
        rw [hl, freeOn_cons, if_neg fun hxp => hp (hxp.symm.trans hpage), add_zero]
      · intro y hy
        exact live_cons ⟨x, size⟩ hy
      · rw [map_cons, nodup_cons]
        refine ⟨fun hm => ?_, h.addrs⟩
        obtain ⟨b, hb, hbx⟩ := mem_map.1 hm
        exact hlive b hb hbx
      · intro b hb
        rcases mem_cons.1 hb with rfl | hb
        · exact .inr ((holds_small hd).2 ⟨hsize, k, hk, hxk⟩)
        · exact .inl hb

def State.without (s : State) (x : Nat) : State := { s with live := s.live.filter fun c => c.addr ≠ x }

theorem Inv.pushBlock (h : Inv s) (hb : b ∈ s.live) (ha : a ∈ s.arenas) (hd : a.desc = some i) (hh : Holds a b) :
    ∃ t, pushBlock (s.without b.addr) i a.page b.addr = .ok t ∧ Inv t ∧ t.map = s.map ∧ t.arenas = s.arenas ∧
      t.live = (s.without b.addr).live := by
  obtain ⟨hi, -⟩ := h.small a ha i hd
  obtain ⟨-, k, hk, hx⟩ := (holds_small hd).1 hh
  have hnot : b.addr ∉ (s.descs i).freeList := by
    intro hm
    obtain ⟨-, -, -, -, hlive⟩ := (h.free i hi b.addr).1 hm
    exact hlive b hb rfl
  have hpage := hh.page
  have hcount := h.count ha hd
  have hfree : freeOn (b.addr :: (s.descs i).freeList) a.page = freeOn (s.descs i).freeList a.page + 1 := by
    rw [freeOn_cons, if_pos hpage]
  refine ⟨s.reblock i a.page (b.addr :: (s.descs i).freeList) (s.without b.addr).live, ?_, ?_, rfl, rfl, rfl⟩
  · unfold Heap.pushBlock
    dsimp only
    rw [assert_true (show b.addr ∉ ((s.without b.addr).descs i).freeList from hnot)]
    change Except.ok (((s.without b.addr).setDesc i _).setArena a.page
      { s.arena a.page with count := (s.arena a.page).count + 1 }) = _
    rw [hcount]
    unfold State.reblock
    rw [hfree]
    rfl
  · refine h.reblock (b.addr :: (s.descs i).freeList) (s.without b.addr).live ha hd hk hx (nodup_cons.2 ⟨hnot, h.nodup i hi⟩) ?_ ?_ ?_ ?_ ?_ ?_
    · refine ⟨fun _ c hc => ?_, fun _ => mem_cons_self⟩
      exact of_decide_eq_true (mem_filter.1 hc).2
    · intro y hy
      rw [mem_cons]
      exact ⟨fun hm => hm.resolve_left hy, .inr⟩
    · intro p hp
      rw [freeOn_cons, if_neg fun hxp => hp (hxp.symm.trans hpage), add_zero]
    · intro y hy
      exact live_filter hy
    · exact h.addrs.sublist (filter_sublist.map _)
    · intro c hc
      exact .inl (mem_filter.1 hc).1

/-! ## New arenas -/

theorem Inv.live_fresh (h : Inv s) (hp : Allocated s.map n p map') (hb : b ∈ s.live) : ¬ (p ≤ b.addr / PAGE_SIZE ∧ b.addr / PAGE_SIZE < p + n) := by
  obtain ⟨a, ha, hh⟩ := h.live b hb
  rw [hh.page]
  exact h.fresh hp ha (h.has_page ha)

theorem Inv.old_arena {x : Arena} (h : Inv s) (hp : Allocated s.map n p map') (hn : 0 < n) (ha : a ∈ s.arenas) :
    update (clearPages s.arena p n) p x a.page = s.arena a.page := by
  have hfresh := h.fresh hp ha (h.has_page ha)
  rw [update_of_ne (by omega)]
  unfold clearPages
  rw [if_neg hfresh]

def State.grown (s : State) (i p : Nat) (map' : Bitmap) : State :=
  { s with
    map := map'
    arena := Function.update (clearPages s.arena p 1) p ⟨some i, totalBlock i, 0, ONIX_MAGIC⟩
    arenas := ⟨p, 1, some i⟩ :: s.arenas
    descs := Function.update s.descs i
      ⟨totalBlock i, blockSize i, (s.descs i).pageCount + 1, (blocksOf i p (totalBlock i)).reverse⟩ }

theorem Inv.grown (h : Inv s) (hi : i < DESC_COUNT) (hl : (s.descs i).freeList = []) (hp : Allocated s.map 1 p map') :
    Inv (s.grown i p map') := by
  have hnone : ∀ y, ¬ FreeBlock s i y := by
    intro y hy
    have := (h.free i hi y).2 hy
    rw [hl] at this
    cases this
  have hdescs : ∀ j, j ≠ i → (s.grown i p map').descs j = s.descs j := fun j hj => update_of_ne hj _ _
  have hdesc : (s.grown i p map').descs i = ⟨totalBlock i, blockSize i, (s.descs i).pageCount + 1, (blocksOf i p (totalBlock i)).reverse⟩ :=
    update_self ..
  refine ⟨h.add hp Nat.one_pos, ?_, ?_, ?_, ?_, ?_, ?_, h.addrs, ?_⟩
  · intro j hj
    by_cases hji : j = i
    · rw [hji, hdesc]
      exact ⟨rfl, rfl⟩
    · rw [hdescs j hji]
      exact h.desc j hj
  · intro j hj
    change _ = countP _ (⟨p, 1, some i⟩ :: s.arenas)
    by_cases hji : j = i
    · subst hji
      rw [hdesc, h.pageCount j hj]
      simp
    · rw [hdescs j hji, h.pageCount j hj]
      simp [Ne.symm hji]
  · intro a ha j hj
    rcases mem_cons.1 ha with rfl | ha
    · cases hj
      exact ⟨hi, rfl⟩
    · exact h.small a ha j hj
  · intro a ha
    rcases mem_cons.1 ha with rfl | ha
    · change update _ p _ p = _
      rw [update_self, header_small rfl, hdesc]
      rw [freeOn_blocksOf (le_refl _), if_pos rfl]
    · have hpa : a.page ≠ p := by
        have := h.fresh hp ha (h.has_page ha)
        omega
      refine (h.old_arena hp Nat.one_pos ha).trans ((h.header a ha).trans ?_)
      cases hd : a.desc with
      | none => rw [header_large hd, header_large hd]
      | some j =>
        rw [header_small hd, header_small hd]
        by_cases hji : j = i
        · rw [hji, hdesc, hl, freeOn_blocksOf (le_refl _), if_neg hpa]
          rfl
        · rw [hdescs j hji]
  · intro j hj
    by_cases hji : j = i
    · rw [hji, hdesc]
      exact nodup_reverse.2 (nodup_range.map fun _ _ => blockAt_inj)
    · rw [hdescs j hji]
      exact h.nodup j hj
  · intro j hj y
    by_cases hji : j = i
    · subst hji
      rw [hdesc, mem_reverse, mem_blocksOf]
      constructor
      · rintro ⟨k, hk, rfl⟩
        refine ⟨⟨p, 1, some j⟩, mem_cons_self, rfl, ⟨k, hk, rfl⟩, fun b hb heq => ?_⟩
        apply h.live_fresh hp hb
        rw [heq, blockAt_page hk]
        omega
      · rintro ⟨a, ha, hd, hk, hlive⟩
        rcases mem_cons.1 ha with rfl | ha
        · exact hk
        · exact absurd ⟨a, ha, hd, hk, hlive⟩ (hnone y)
    · rw [hdescs j hji, h.free j hj y]
      constructor
      · rintro ⟨a, ha, hrest⟩
        exact ⟨a, .tail _ ha, hrest⟩
      · rintro ⟨a, ha, hd, hrest⟩
        rcases mem_cons.1 ha with rfl | ha
        · exact absurd (Option.some.inj hd).symm hji
        · exact ⟨a, ha, hd, hrest⟩
  · intro b hb
    obtain ⟨a, ha, hh⟩ := h.live b hb
    exact ⟨a, .tail _ ha, hh⟩

theorem Inv.newArena (h : Inv s) (hi : i < DESC_COUNT) (hl : (s.descs i).freeList = []) :
    (∃ p map', newArena s i = .ok (s.grown i p map') ∧ Allocated s.map 1 p map') ∨ (newArena s i = .error .panic ∧ NoRoom s.map 1) := by
  unfold Heap.newArena
  rcases allocKpage_spec h.mapOk Nat.one_pos with ⟨p, map', h1, h2⟩ | ⟨h1, h2⟩
  · left
    refine ⟨p, map', ?_, h2⟩
    obtain ⟨hbs, htb⟩ := h.desc i hi
    have hpush := pushBlocks_spec (p := p) (i := i) (d := { s.descs i with pageCount := (s.descs i).pageCount + 1 }) ⟨hbs, htb⟩ hl
    rw [h1]
    change (pushBlocks { s.descs i with pageCount := (s.descs i).pageCount + 1 } (p * PAGE_SIZE) >>= fun d => _) = _
    rw [hpush]
    change Except.ok (State.setDesc (State.setArena _ (p * PAGE_SIZE / PAGE_SIZE) _) i _) = _
    rw [Nat.mul_div_cancel p (by decide)]
    unfold State.grown State.setDesc State.setArena Desc.withFree
    rw [hbs, htb]
  · right
    refine ⟨?_, h2⟩
    rw [h1]
    rfl

def State.large (s : State) (p n size : Nat) (map' : Bitmap) : State :=
  { s with
    map := map'
    arena := Function.update (clearPages s.arena p n) p ⟨none, n, 1, ONIX_MAGIC⟩
    arenas := ⟨p, n, none⟩ :: s.arenas
    live := ⟨p * PAGE_SIZE + HEADER, size⟩ :: s.live }

theorem Inv.large {size : Nat} (h : Inv s) (hn : 0 < n) (hp : Allocated s.map n p map') (hsize : size + HEADER ≤ n * PAGE_SIZE) :
    Inv (s.large p n size map') := by
  have hnew : Holds ⟨p, n, none⟩ ⟨p * PAGE_SIZE + HEADER, size⟩ := ⟨hsize, rfl⟩
  have hfresh : ∀ b ∈ s.live, b.addr ≠ p * PAGE_SIZE + HEADER := by
    intro b hb heq
    apply h.live_fresh hp hb
    have := hnew.page
    rw [heq]
    dsimp only at this
    omega
  refine ⟨h.add hp hn, h.desc, ?_, ?_, ?_, h.nodup, ?_, ?_, ?_⟩
  · intro j hj
    change _ = countP _ (⟨p, n, none⟩ :: s.arenas)
    exact (h.pageCount j hj).trans (by simp)
  · intro a ha j hj
    rcases mem_cons.1 ha with rfl | ha
    · cases hj
    · exact h.small a ha j hj
  · intro a ha
    rcases mem_cons.1 ha with rfl | ha
    · exact update_self ..
    · exact (h.old_arena hp hn ha).trans (h.header a ha)
  · intro j hj y
    change y ∈ (s.descs j).freeList ↔ _
    rw [h.free j hj y]
    constructor
    · rintro ⟨a, ha, hd, ⟨k, hk, hy⟩, hlive⟩
      refine ⟨a, .tail _ ha, hd, ⟨k, hk, hy⟩, fun b hb => ?_⟩
      rcases mem_cons.1 hb with rfl | hb
      · rintro rfl
        -- the block lies in an old arena
        have hpage : a.page = p := (blockAt_page hk).symm.trans ((congrArg (· / PAGE_SIZE) hy.symm).trans hnew.page)
        exact h.fresh hp ha (h.has_page ha) (by omega)
      · exact hlive b hb
    · rintro ⟨a, ha, hd, hk, hlive⟩
      rcases mem_cons.1 ha with rfl | ha
      · cases hd
      · exact ⟨a, ha, hd, hk, fun b hb => hlive b (.tail _ hb)⟩
  · refine nodup_cons.2 ⟨fun hm => ?_, h.addrs⟩
    obtain ⟨b, hb, hba⟩ := mem_map.1 hm
    exact hfresh b hb hba
  · intro b hb
    rcases mem_cons.1 hb with rfl | hb
    · exact ⟨_, mem_cons_self, hnew⟩
    · obtain ⟨a, ha, hh⟩ := h.live b hb
      exact ⟨a, .tail _ ha, hh⟩

def pagesFor (size : Nat) : Nat := divRoundUp ((size + HEADER) % 2 ^ 32) PAGE_SIZE

theorem pagesFor_spec {size : Nat} (h : size < 2 ^ 31) : 0 < pagesFor size ∧ size + HEADER ≤ pagesFor size * PAGE_SIZE := by
  unfold pagesFor divRoundUp HEADER PAGE_SIZE
  omega

theorem Inv.kmallocLarge {size : Nat} (h : Inv s) (hsize : size < 2 ^ 31) :
    (∃ x t, kmallocLarge s size = .ok (x, t) ∧ (∀ a ∈ s.arenas, a ∈ t.arenas) ∧ Inv { t with live := ⟨x, size⟩ :: t.live }) ∨
      (kmallocLarge s size = .error .panic ∧ NoRoom s.map (pagesFor size)) := by
  obtain ⟨hpos, hle⟩ := pagesFor_spec hsize
  change (∃ x t, (allocKpage s.map (pagesFor size) >>= _) = _ ∧ _) ∨ (allocKpage s.map (pagesFor size) >>= _) = _ ∧ _
  rcases allocKpage_spec h.mapOk hpos with ⟨p, map', h1, h2⟩ | ⟨h1, h2⟩
  · left
    rw [h1]
    refine ⟨p * PAGE_SIZE + HEADER, { s.large p (pagesFor size) size map' with live := s.live }, ?_,
      fun _ => mem_cons_of_mem _, h.large hpos h2 hle⟩
    change Except.ok (_, State.setArena _ (p * PAGE_SIZE / PAGE_SIZE) _) = _
    rw [Nat.mul_div_cancel p (by decide)]
    rfl
  · right
    refine ⟨?_, h2⟩
    rw [h1]
    rfl

/-! ## Arenas that go -/

theorem Inv.full_iff (h : Inv s) (ha : a ∈ s.arenas) (hd : a.desc = some i) :
    freeOn (s.descs i).freeList a.page = totalBlock i ↔ ∀ k < totalBlock i, blockAt i a.page k ∈ (s.descs i).freeList := by
  obtain ⟨hi, -⟩ := h.small a ha i hd
  have hnodup := h.nodup i hi
  generalize hl : (s.descs i).freeList = l at *
  have hlen : freeOn l a.page = (l.filter fun x => decide (x / PAGE_SIZE = a.page)).length := countP_eq_length_filter
  have hsub : l.filter (fun x => decide (x / PAGE_SIZE = a.page)) ⊆ blocksOf i a.page (totalBlock i) := by
    intro x hx
    obtain ⟨hx, hp⟩ := mem_filter.1 hx
    rw [← hl] at hx
    obtain ⟨a', ha', -, ⟨k, hk, rfl⟩, -⟩ := (h.free i hi x).1 hx
    have hp := of_decide_eq_true hp
    rw [blockAt_page hk] at hp
    rw [mem_blocksOf, hp]
    exact ⟨k, hk, rfl⟩
  rw [hlen]
  have hsubperm := (hnodup.filter (fun x => decide (x / PAGE_SIZE = a.page))).subperm hsub
  constructor
  · intro heq k hk
    have hperm := hsubperm.perm_of_length_le (le_of_eq (by rw [blocksOf_length, heq]))
    exact (mem_filter.1 (hperm.mem_iff.2 (mem_blocksOf.2 ⟨k, hk, rfl⟩))).1
  · intro hall
    have hback : blocksOf i a.page (totalBlock i) ⊆ l.filter fun x => decide (x / PAGE_SIZE = a.page) := by
      intro x hx
      obtain ⟨k, hk, rfl⟩ := mem_blocksOf.1 hx
      exact mem_filter.2 ⟨hall k hk, decide_eq_true (blockAt_page hk)⟩
    have hn : (blocksOf i a.page (totalBlock i)).Nodup := nodup_range.map fun _ _ => blockAt_inj
    have h1 := hsubperm.length_le
    have h2 := (hn.subperm hback).length_le
    rw [blocksOf_length] at h1 h2
    omega

theorem freeOn_congr {l' : List Nat} (hl : l.Nodup) (hl' : l'.Nodup) (h : ∀ x, x / PAGE_SIZE = p → (x ∈ l ↔ x ∈ l')) :
    freeOn l p = freeOn l' p := by
  unfold freeOn
  rw [countP_eq_length_filter, countP_eq_length_filter]
  apply List.Perm.length_eq
  rw [perm_ext_iff_of_nodup (hl.filter _) (hl'.filter _)]
  intro x
  rw [mem_filter, mem_filter, decide_eq_true_iff]
  constructor
  · rintro ⟨h1, h2⟩
    exact ⟨(h x h2).1 h1, h2⟩
  · rintro ⟨h1, h2⟩
    exact ⟨(h x h2).2 h1, h2⟩

def State.shrunk (s : State) (a : Owned) (i : Nat) (l : List Nat) (map' : Bitmap) : State :=
  { s.setDesc i { (s.descs i).withFree l with pageCount := (s.descs i).pageCount - 1 } with map := map', arenas := s.arenas.erase a }

/-- What giving back the pages of an arena does to the bitmap. -/
structure GivenBack (map : Bitmap) (a : Owned) (map' : Bitmap) : Prop where
  ok : MapOk map'
  taken : ∀ q, PageTaken map' q ↔ PageTaken map q ∧ ¬ (a.page ≤ q ∧ q < a.page + a.pages)

theorem Inv.shrunk (h : Inv s) (ha : a ∈ s.arenas) (hd : a.desc = some i) (hfull : ∀ k < totalBlock i, blockAt i a.page k ∈ (s.descs i).freeList)
    (hm : GivenBack s.map a map') (hl : l.Nodup) (hmem : ∀ x, x ∈ l ↔ x ∈ (s.descs i).freeList ∧ x ∉ blocksOf i a.page (totalBlock i)) :
    Inv (s.shrunk a i l map') := by
  obtain ⟨hi, -⟩ := h.small a ha i hd
  have hdesc : (s.shrunk a i l map').descs i = { (s.descs i).withFree l with pageCount := (s.descs i).pageCount - 1 } :=
    update_self ..
  have hdescs : ∀ j, j ≠ i → (s.shrunk a i l map').descs j = s.descs j := fun j hj => update_of_ne hj _ _
  have herase : ∀ {a'}, a' ∈ s.arenas.erase a ↔ a' ≠ a ∧ a' ∈ s.arenas := h.nodup_arenas.mem_erase_iff
  have hother : ∀ {a' k}, a' ∈ s.arenas → a' ≠ a → k < totalBlock i → blockAt i a'.page k ∉ blocksOf i a.page (totalBlock i) := by
    intro a' k ha' hne hk hx
    obtain ⟨k', hk', hx⟩ := mem_blocksOf.1 hx
    apply hne
    apply h.eq_of_page ha' ha
    rw [← blockAt_page (i := i) (p := a'.page) hk, hx, blockAt_page hk']
  refine ⟨h.erase ha hm.ok hm.taken, ?_, ?_, ?_, ?_, ?_, ?_, h.addrs, ?_⟩
  · intro j hj
    by_cases hji : j = i
    · rw [hji, hdesc]
      exact h.desc i hi
    · rw [hdescs j hji]
      exact h.desc j hj
  · intro j hj
    change _ = countP _ (s.arenas.erase a)
    rw [countP_erase, ← h.pageCount j hj]
    by_cases hji : j = i
    · subst hji
      rw [hdesc, if_pos ⟨ha, decide_eq_true hd⟩]
    · rw [hdescs j hji, hd]
      simp [Ne.symm hji]
  · intro a' ha'
    exact h.small a' (herase.1 ha').2
  · intro a' ha'
    replace ⟨hne, ha'⟩ := herase.1 ha'
    refine (h.header a' ha').trans ?_
    cases hd' : a'.desc with
    | none => rw [header_large hd', header_large hd']
    | some j =>
      rw [header_small hd', header_small hd']
      by_cases hji : j = i
      · subst hji
        rw [hdesc]
        congr 1
        refine freeOn_congr (h.nodup j hi) hl fun x hx => ?_
        change _ ↔ x ∈ l
        rw [hmem]
        constructor
        · intro hxl
          refine ⟨hxl, fun hxa => hne ?_⟩
          obtain ⟨k, hk, rfl⟩ := mem_blocksOf.1 hxa
          exact (h.eq_of_page ha ha' ((blockAt_page hk).symm.trans hx)).symm
        · exact And.left
      · rw [hdescs j hji]
  · intro j hj
    by_cases hji : j = i
    · rw [hji, hdesc]
      exact hl
    · rw [hdescs j hji]
      exact h.nodup j hj
  · intro j hj y
    by_cases hji : j = i
    · subst hji
      rw [hdesc]
      change y ∈ l ↔ _
      rw [hmem, h.free j hj]
      constructor
      · rintro ⟨⟨a', ha', hd', ⟨k, hk, rfl⟩, hlive⟩, hnot⟩
        refine ⟨a', herase.2 ⟨?_, ha'⟩, hd', ⟨k, hk, rfl⟩, hlive⟩
        rintro rfl
        exact hnot (mem_blocksOf.2 ⟨k, hk, rfl⟩)
      · rintro ⟨a', ha', hd', ⟨k, hk, rfl⟩, hlive⟩
        obtain ⟨hne, ha'⟩ := herase.1 ha'
        exact ⟨⟨a', ha', hd', ⟨k, hk, rfl⟩, hlive⟩, hother ha' hne hk⟩
    · rw [hdescs j hji, h.free j hj]
      constructor
      · rintro ⟨a', ha', hd', hrest⟩
        refine ⟨a', herase.2 ⟨?_, ha'⟩, hd', hrest⟩
        rintro rfl
        exact hji (Option.some.inj (hd'.symm.trans hd))
      · rintro ⟨a', ha', hrest⟩
        exact ⟨a', (herase.1 ha').2, hrest⟩
  · intro b hb
    obtain ⟨a', ha', hh⟩ := h.live b hb
    refine ⟨a', herase.2 ⟨?_, ha'⟩, hh⟩
    rintro rfl
    obtain ⟨-, k, hk, hbk⟩ := (holds_small hd).1 hh
    obtain ⟨-, -, -, -, hlive⟩ := (h.free i hi _).1 (hfull k hk)
    exact hlive b hb hbk

def Releases (s : State) (a : Owned) (i : Nat) : Prop :=
  (∀ k < totalBlock i, blockAt i a.page k ∈ (s.descs i).freeList) ∧ BUF_COUNT < s.arenas.countP fun a => a.desc = some i

theorem Inv.releaseArena (h : Inv s) (ha : a ∈ s.arenas) (hd : a.desc = some i) :
    (Releases s a i ∧ ∃ l map', releaseArena s i a.page = .ok (s.shrunk a i l map') ∧ Inv (s.shrunk a i l map') ∧ GivenBack s.map a map') ∨
      (¬ Releases s a i ∧ releaseArena s i a.page = .ok s) := by
  obtain ⟨hi, hone⟩ := h.small a ha i hd
  obtain ⟨hbs, htb⟩ := h.desc i hi
  have hcond : ((s.arena a.page).count = (s.descs i).totalBlock ∧ BUF_COUNT < (s.descs i).pageCount) ↔ Releases s a i := by
    rw [h.count ha hd, htb, h.pageCount i hi, h.full_iff ha hd]
    rfl
  have hself : a = ⟨a.page, 1, some i⟩ := by
    rw [← hone, ← hd]
  unfold Heap.releaseArena
  by_cases hc : Releases s a i
  · left
    refine ⟨hc, ?_⟩
    rw [if_pos (hcond.2 hc)]
    obtain ⟨l, h1, h2, h3⟩ := dropBlocks_spec (p := a.page) (i := i) (d := s.descs i) ⟨hbs, htb⟩ (h.nodup i hi) hc.1
    rw [htb] at h3
    obtain ⟨map', h4, h5, h6⟩ := freeKpage_spec (p := a.page) (n := 1) h.mapOk Nat.one_pos fun q hq1 hq2 =>
      h.taken a ha q ⟨hq1, by rw [hone]; exact hq2⟩
    have hback : GivenBack s.map a map' := by
      refine ⟨h5, ?_⟩
      rw [hone]
      exact h6
    refine ⟨l, map', ?_, h.shrunk ha hd hc.1 hback h2 h3, hback⟩
    have hpc : BUF_COUNT ≤ (s.descs i).pageCount - 1 := Nat.le_sub_one_of_lt (hcond.2 hc).2
    rw [h1]
    change (assert (BUF_COUNT ≤ (s.descs i).pageCount - 1) >>= fun _ => _) = _
    rw [assert_true hpc]
    rw [h4, ← hself]
    rfl
  · right
    refine ⟨hc, ?_⟩
    rw [if_neg fun hh => hc (hcond.1 hh)]

end Onix.Heap
