/-
The heap over any run: what `kmalloc` and `kfree` do as a whole, and what holds of the blocks, the free lists and the pages in every state
that is reached.
-/
import Onix.Heap.Calls

namespace Onix.Heap

open List Onix.Lib

variable {s t : State} {a a' : Owned} {b c : Block} {i k n p x : Nat}

/-! ## The calls -/

theorem findDesc_spec {size : Nat} (h : ∀ i < DESC_COUNT, (s.descs i).blockSize = blockSize i) (hsize : size ≤ 1024) :
    ∀ n i, i + n = DESC_COUNT → 0 < n → findDesc s.descs size n i < DESC_COUNT ∧ size ≤ blockSize (findDesc s.descs size n i)
  | 0, _, _, h0 => absurd h0 (Nat.lt_irrefl 0)
  | n + 1, i, hi, _ => by
    unfold findDesc
    split
    · rename_i hle
      rw [h i (by omega)] at hle
      exact ⟨by omega, hle⟩
    · rename_i hle
      rcases Nat.eq_zero_or_pos n with rfl | hn
      · -- the last one holds 1024 bytes
        have h6 : i = 6 := by
          unfold DESC_COUNT at hi
          omega
        rw [h i (by omega), h6] at hle
        exact absurd hsize hle
      · exact findDesc_spec h hsize n (i + 1) (by omega) hn

def needs (size : Nat) : Nat := if 1024 < size then pagesFor size else 1

theorem Inv.kmalloc {size : Nat} (h : Inv s) (hsize : size < 2 ^ 31) :
    (∃ x t, kmalloc s size = .ok (x, t) ∧ (∀ a ∈ s.arenas, a ∈ t.arenas) ∧ Inv { t with live := ⟨x, size⟩ :: t.live }) ∨
      (kmalloc s size = .error .panic ∧ NoRoom s.map (needs size)) := by
  unfold Heap.kmalloc needs
  by_cases hbig : 1024 < size
  · rw [if_pos hbig, if_pos hbig]
    exact h.kmallocLarge hsize
  · rw [if_neg hbig, if_neg hbig]
    obtain ⟨hi, hle⟩ := findDesc_spec (fun i hi => (h.desc i hi).1) (Nat.le_of_not_lt hbig) DESC_COUNT 0 rfl (by decide)
    generalize findDesc s.descs size DESC_COUNT 0 = i at hi hle
    by_cases hl : (s.descs i).freeList = []
    · rw [if_pos hl]
      rcases h.newArena hi hl with ⟨p, map', h1, h2⟩ | ⟨h1, h2⟩
      · left
        have hgrown := h.grown hi hl h2
        have hne : ((s.grown i p map').descs i).freeList ≠ [] := by
          have hd : (s.grown i p map').descs i =
              ⟨totalBlock i, blockSize i, (s.descs i).pageCount + 1, (blocksOf i p (totalBlock i)).reverse⟩ := Function.update_self ..
          rw [hd]
          intro hnil
          have hlen := congrArg length hnil
          rw [length_reverse, blocksOf_length] at hlen
          exact absurd hlen (Nat.ne_of_gt (totalBlock_pos hi))
        obtain ⟨x, t, h3, h4, h5⟩ := hgrown.popBlock hi hne
        refine ⟨x, t, ?_, fun a ha => ?_, h5 size hle⟩
        · rw [h1]
          exact h3
        · rw [h4]
          exact mem_cons_of_mem _ ha
      · right
        refine ⟨?_, h2⟩
        rw [h1]
        rfl
    · rw [if_neg hl]
      left
      obtain ⟨x, t, h3, h4, h5⟩ := h.popBlock hi hl
      exact ⟨x, t, h3, fun a ha => h4 ▸ ha, h5 size hle⟩

def Frees (s : State) (live : List Block) (a : Owned) : Prop :=
  ∀ i, a.desc = some i → (∀ k < totalBlock i, ∀ c ∈ live, c.addr ≠ blockAt i a.page k) ∧ BUF_COUNT < s.arenas.countP fun a => a.desc = some i

/-- What `kfree` may do with the arena of the block. -/
structure Freed (s : State) (b : Block) (a : Owned) (t : State) : Prop where
  inv : Inv t
  live : t.live = (s.without b.addr).live
  arena : (Frees s t.live a ∧ t.arenas = s.arenas.erase a ∧ GivenBack s.map a t.map) ∨
    (¬ Frees s t.live a ∧ t.arenas = s.arenas ∧ t.map = s.map)

theorem Inv.free_here (h : Inv s) (ha : a ∈ s.arenas) (hd : a.desc = some i) (hk : k < totalBlock i) :
    blockAt i a.page k ∈ (s.descs i).freeList ↔ ∀ c ∈ s.live, c.addr ≠ blockAt i a.page k := by
  rw [h.free i (h.small a ha i hd).1]
  constructor
  · rintro ⟨-, -, -, -, hlive⟩
    exact hlive
  · intro hlive
    exact ⟨a, ha, hd, ⟨k, hk, rfl⟩, hlive⟩

theorem Inv.releases_iff (h : Inv s) (ha : a ∈ s.arenas) (hd : a.desc = some i) : Releases s a i ↔ Frees s s.live a := by
  constructor
  · rintro ⟨h1, h2⟩ j hj
    cases hd.symm.trans hj
    exact ⟨fun k hk => (h.free_here ha hd hk).1 (h1 k hk), h2⟩
  · intro hf
    obtain ⟨h1, h2⟩ := hf i hd
    exact ⟨fun k hk => (h.free_here ha hd hk).2 (h1 k hk), h2⟩

theorem Inv.shrunkLarge {map' : Bitmap} (h : Inv s) (ha : a ∈ s.arenas) (hd : a.desc = none) (hh : Holds a b)
    (hm : GivenBack s.map a map') : Inv { s.without b.addr with map := map', arenas := s.arenas.erase a } := by
  have herase : ∀ {a'}, a' ∈ s.arenas.erase a ↔ a' ≠ a ∧ a' ∈ s.arenas := h.nodup_arenas.mem_erase_iff
  have hne : ∀ {a' i}, a'.desc = some i → a' ≠ a := by
    rintro a' i hd' rfl
    rw [hd] at hd'
    cases hd'
  refine ⟨h.erase ha hm.ok hm.taken, h.desc, ?_, ?_, ?_, h.nodup, ?_, h.addrs.sublist (filter_sublist.map _), ?_⟩
  · intro j hj
    rw [countP_erase, hd, if_neg (fun h => by simp at h), Nat.sub_zero]
    exact h.pageCount j hj
  · intro a' ha'
    exact h.small a' (herase.1 ha').2
  · intro a' ha'
    exact h.header a' (herase.1 ha').2
  · intro j hj y
    change y ∈ (s.descs j).freeList ↔ _
    have hy : (∃ a' ∈ s.arenas, a'.desc = some j ∧ ∃ k < totalBlock j, y = blockAt j a'.page k) → y ≠ b.addr := by
      rintro ⟨a', ha', hd', k, hk, rfl⟩ heq
      apply hne hd'
      apply h.eq_of_page ha' ha
      rw [← hh.page, ← heq, blockAt_page hk]
    rw [h.free j hj]
    constructor
    · rintro ⟨a', ha', hd', hk, hlive⟩
      exact ⟨a', herase.2 ⟨hne hd', ha'⟩, hd', hk, (live_filter (hy ⟨a', ha', hd', hk⟩)).2 hlive⟩
    · rintro ⟨a', ha', hd', hk, hlive⟩
      exact ⟨a', (herase.1 ha').2, hd', hk, (live_filter (hy ⟨a', (herase.1 ha').2, hd', hk⟩)).1 hlive⟩
  · intro c hc
    obtain ⟨hc, hcb⟩ := mem_filter.1 hc
    obtain ⟨a', ha', hh'⟩ := h.live c hc
    refine ⟨a', herase.2 ⟨?_, ha'⟩, hh'⟩
    rintro rfl
    apply of_decide_eq_true hcb
    rw [((holds_large hd).1 hh').2, ((holds_large hd).1 hh).2]

theorem Holds.ne_zero (h : Holds a b) : b.addr ≠ 0 := by
  cases hd : a.desc with
  | none =>
    rw [((holds_large hd).1 h).2]
    exact Nat.succ_ne_zero _
  | some i =>
    obtain ⟨-, k, -, hb⟩ := (holds_small hd).1 h
    rw [hb]
    unfold blockAt HEADER
    omega

theorem Inv.kfree (h : Inv s) (hb : b ∈ s.live) : ∃ a ∈ s.arenas, Holds a b ∧ ∃ t, kfree (s.without b.addr) b.addr = .ok t ∧ Freed s b a t := by
  obtain ⟨a, ha, hh⟩ := h.live b hb
  refine ⟨a, ha, hh, ?_⟩
  have hpage : getBlockArena b.addr = a.page := hh.page
  have harena : (s.without b.addr).arena a.page = s.headerOf a := h.header a ha
  unfold Heap.kfree
  rw [assert_true hh.ne_zero, hpage]
  dsimp only
  rw [harena]
  cases hd : a.desc with
  | none =>
    rw [header_large hd]
    obtain ⟨map', h1, h2, h3⟩ := freeKpage_spec (p := a.page) h.mapOk (h.pos a ha) fun q hq1 hq2 => h.taken a ha q ⟨hq1, hq2⟩
    have hself : a = ⟨a.page, a.pages, none⟩ := by rw [← hd]
    refine ⟨{ s.without b.addr with map := map', arenas := s.arenas.erase a }, ?_, ?_, rfl, ?_⟩
    · rw [assert_true (.inl rfl)]
      change (freeKpage s.map (a.page * PAGE_SIZE) a.pages >>= fun map =>
        Except.ok { s.without b.addr with map := map, arenas := s.arenas.erase ⟨a.page, a.pages, none⟩ }) = _
      rw [h1, ← hself]
      rfl
    · exact h.shrunkLarge ha hd hh ⟨h2, h3⟩
    · left
      refine ⟨fun i hi => ?_, rfl, h2, h3⟩
      rw [hd] at hi
      cases hi
  | some i =>
    rw [header_small hd]
    obtain ⟨u, h1, h2, h3, h4, h5⟩ := h.pushBlock hb ha hd hh
    have hau : a ∈ u.arenas := by
      rw [h4]
      exact ha
    have hiff : Releases u a i ↔ Frees s u.live a := by
      rw [h2.releases_iff hau hd]
      unfold Frees
      rw [h4]
    change ∃ t, (Heap.pushBlock (s.without b.addr) i a.page b.addr >>= fun s => Heap.releaseArena s i a.page) = _ ∧ _
    rw [h1]
    rcases h2.releaseArena hau hd with ⟨h6, l, map', h7, h8, h9⟩ | ⟨h6, h7⟩
    · refine ⟨_, h7, h8, h5, .inl ⟨hiff.1 h6, ?_, ?_⟩⟩
      · change u.arenas.erase a = _
        rw [h4]
      · rw [← h3]
        exact h9
    · exact ⟨_, h7, h2, h5, .inr ⟨fun hf => h6 (hiff.2 hf), h4, h3⟩⟩

/-! ## Runs -/

theorem start_inv (h : Start s) : Inv s := by
  obtain ⟨h1, h2, h3, h4, h5, h6⟩ := h
  have hdesc : ∀ i, s.descs i = arenaInit i := fun i => by rw [h4]
  refine ⟨⟨⟨h1, h2, h3⟩, ?_, ?_, ?_⟩, ?_, ?_, ?_, ?_, ?_, ?_, ?_, ?_⟩
  · rw [h5]
    exact .nil
  · rw [h5]
    exact fun _ ha => nomatch ha
  · rw [h5]
    exact fun _ ha => nomatch ha
  · intro i _
    rw [hdesc]
    exact ⟨rfl, rfl⟩
  · intro i _
    rw [hdesc, h5]
    rfl
  · rw [h5]
    exact fun _ ha => nomatch ha
  · rw [h5]
    exact fun _ ha => nomatch ha
  · intro i _
    rw [hdesc]
    exact nodup_nil
  · intro i _ x
    rw [hdesc]
    constructor
    · exact fun hx => nomatch hx
    · rintro ⟨a, ha, -⟩
      rw [h5] at ha
      cases ha
  · rw [h6]
    exact nodup_nil
  · rw [h6]
    exact fun _ hb => nomatch hb

theorem Inv.other {map : Bitmap} {arena : Nat → Arena} (h : Inv s) (he : Enabled s (.other map arena)) :
    Inv { s with map := map, arena := arena } := by
  obtain ⟨h1, h2, h3, h4⟩ := he
  obtain ⟨hl, ho, hr⟩ := h.mapOk
  refine { h with
    mapOk := ⟨h1.trans hl, h2.trans ho, by rw [h1, h3]; exact hr⟩
    taken := fun a ha p hp => (h4 a ha p hp).1
    header := fun a ha => ?_ }
  exact (h4 a ha a.page (h.has_page ha)).2.trans (h.header a ha)

theorem step_inv {act : Act} (h : Inv s) (hs : machine.Steps s act t) : Inv t := by
  obtain ⟨he, hs⟩ := hs
  cases act with
  | kmalloc size =>
    obtain ⟨⟨x, u⟩, h1, h2⟩ := bind_ok hs
    cases h2
    rcases h.kmalloc he with ⟨x', u', h3, -, h4⟩ | ⟨h3, -⟩
    · cases h3.symm.trans h1
      exact h4
    · cases h3.symm.trans h1
  | kfree b =>
    obtain ⟨a, -, -, u, h1, h2⟩ := h.kfree he
    cases h1.symm.trans hs
    exact h2.inv
  | other map arena =>
    cases hs
    exact h.other he

theorem reach_inv {P : State → Act → Prop} (h : machine.Reach P s) : Inv s :=
  h.inv (fun _ => start_inv) fun _ _ _ hi _ hs => step_inv hi hs

/-! ## What holds of the blocks -/

def State.capacity (s : State) (b : Block) : Nat :=
  match (s.arena (b.addr / PAGE_SIZE)).desc with
  | some i => blockSize i
  | none => (s.arena (b.addr / PAGE_SIZE)).count * PAGE_SIZE - HEADER

/-- The blocks in use, the free lists and the headers fit each other. -/
structure HeapOk (s : State) : Prop where
  apart : s.live.Pairwise fun b c => b.addr + s.capacity b ≤ c.addr ∨ c.addr + s.capacity c ≤ b.addr
  fits : ∀ b ∈ s.live, b.size ≤ s.capacity b
  inside : ∀ b ∈ s.live, ∃ a ∈ s.arenas, a.page * PAGE_SIZE + HEADER ≤ b.addr ∧ b.addr + s.capacity b ≤ (a.page + a.pages) * PAGE_SIZE
  headers : ∀ b ∈ s.live, ∀ a ∈ s.arenas, b.addr + s.capacity b ≤ a.page * PAGE_SIZE ∨ a.page * PAGE_SIZE + HEADER ≤ b.addr
  pages : s.arenas.Pairwise Apart ∧ ∀ a ∈ s.arenas, ∀ p, a.Has p → PageTaken s.map p
  free : ∀ i < DESC_COUNT, (s.descs i).freeList.Nodup ∧ ∀ x, x ∈ (s.descs i).freeList ↔ FreeBlock s i x
  count : ∀ a ∈ s.arenas, s.arena a.page = s.headerOf a

theorem Holds.capacity (h : Inv s) (ha : a ∈ s.arenas) (hh : Holds a b) :
    b.size ≤ s.capacity b ∧ a.page * PAGE_SIZE + HEADER ≤ b.addr ∧ b.addr + s.capacity b ≤ (a.page + a.pages) * PAGE_SIZE := by
  unfold State.capacity
  rw [hh.page, h.header a ha]
  cases hd : a.desc with
  | none =>
    obtain ⟨h1, h2⟩ := (holds_large hd).1 hh
    rw [header_large hd, h2, Nat.add_mul]
    dsimp only
    omega
  | some i =>
    obtain ⟨h1, k, hk, h2⟩ := (holds_small hd).1 hh
    have hend := block_end hk
    rw [header_small hd, h2, (h.small a ha i hd).2, Nat.add_mul]
    unfold blockAt
    dsimp only
    omega

theorem Apart.before (h : Apart a a') (hp : 0 < a.pages) (hp' : 0 < a'.pages) : a.page + a.pages ≤ a'.page ∨ a'.page + a'.pages ≤ a.page := by
  by_contra hc
  have h1 := h a.page ⟨Nat.le_refl _, by omega⟩
  have h2 := h a'.page
  unfold Owned.Has at h1 h2
  omega

theorem Inv.blocks_apart (h : Inv s) (hb : b ∈ s.live) (hc : c ∈ s.live) (hne : b.addr ≠ c.addr) :
    b.addr + s.capacity b ≤ c.addr ∨ c.addr + s.capacity c ≤ b.addr := by
  obtain ⟨a, ha, hh⟩ := h.live b hb
  obtain ⟨a', ha', hh'⟩ := h.live c hc
  by_cases haa : a = a'
  · subst haa
    have hcap : s.capacity c = s.capacity b := by
      unfold State.capacity
      rw [hh.page, hh'.page]
    cases hd : a.desc with
    | none => exact absurd (((holds_large hd).1 hh).2.trans ((holds_large hd).1 hh').2.symm) hne
    | some i =>
      obtain ⟨-, k, -, h1⟩ := (holds_small hd).1 hh
      obtain ⟨-, l, -, h2⟩ := (holds_small hd).1 hh'
      have hsize : s.capacity b = blockSize i := by
        unfold State.capacity
        rw [hh.page, h.header a ha, header_small hd]
      rw [hcap, hsize, h1, h2]
      have hkl : k ≠ l := by
        rintro rfl
        exact hne (h1.trans h2.symm)
      unfold blockAt
      rcases Nat.lt_or_gt_of_ne hkl with hlt | hlt
      · have := Nat.mul_le_mul_right (blockSize i) hlt
        rw [Nat.succ_mul] at this
        omega
      · have := Nat.mul_le_mul_right (blockSize i) hlt
        rw [Nat.succ_mul] at this
        omega
  · obtain ⟨-, h1, h2⟩ := hh.capacity h ha
    obtain ⟨-, h3, h4⟩ := hh'.capacity h ha'
    rcases (h.apart_of ha ha' haa).before (h.pos a ha) (h.pos a' ha') with hlt | hlt
    · have := Nat.mul_le_mul_right PAGE_SIZE hlt
      omega
    · have := Nat.mul_le_mul_right PAGE_SIZE hlt
      omega

theorem Inv.ok (h : Inv s) : HeapOk s := by
  refine ⟨?_, ?_, ?_, ?_, ⟨h.apart, h.taken⟩, fun i hi => ⟨h.nodup i hi, h.free i hi⟩, h.header⟩
  · have haddrs := pairwise_map.1 h.addrs
    refine haddrs.imp_of_mem ?_
    intro b c hb hc hne
    exact h.blocks_apart hb hc hne
  · intro b hb
    obtain ⟨a, ha, hh⟩ := h.live b hb
    exact (hh.capacity h ha).1
  · intro b hb
    obtain ⟨a, ha, hh⟩ := h.live b hb
    exact ⟨a, ha, (hh.capacity h ha).2⟩
  · intro b hb a' ha'
    obtain ⟨a, ha, hh⟩ := h.live b hb
    obtain ⟨-, h1, h2⟩ := hh.capacity h ha
    by_cases haa : a = a'
    · exact .inr (haa ▸ h1)
    · rcases (h.apart_of ha ha' haa).before (h.pos a ha) (h.pos a' ha') with hlt | hlt
      · left
        have := Nat.mul_le_mul_right PAGE_SIZE hlt
        omega
      · right
        have := Nat.mul_le_mul_right PAGE_SIZE hlt
        rw [Nat.add_mul] at this
        omega

/-! ## The results -/

theorem step_error {act : Act} {e : Fault} (h : Inv s) (he : Enabled s act) (hs : step s act = .error e) :
    e = .panic ∧ ∃ size, act = .kmalloc size ∧ NoRoom s.map (needs size) := by
  cases act with
  | kmalloc size =>
    rcases h.kmalloc he with ⟨x, u, h1, -, -⟩ | ⟨h1, h2⟩
    · change (Heap.kmalloc s size >>= fun r => _) = _ at hs
      rw [h1] at hs
      cases hs
    · change (Heap.kmalloc s size >>= fun r => _) = _ at hs
      rw [h1] at hs
      cases hs
      exact ⟨rfl, size, rfl, h2⟩
  | kfree b =>
    obtain ⟨a, -, -, u, h1, -⟩ := h.kfree he
    cases h1.symm.trans hs
  | other map arena => cases hs

theorem Inv.page_taken (h : Inv s) (ha : a ∈ s.arenas) : PageTaken s.map a.page := h.taken a ha a.page (h.has_page ha)

theorem page_returned {act : Act} (h : Inv s) (hs : machine.Steps s act t) (ha : a ∈ s.arenas) :
    ¬ PageTaken t.map a.page ↔ (∃ b, act = .kfree b ∧ Holds a b) ∧ Frees s t.live a := by
  have ht := step_inv h hs
  obtain ⟨he, hs⟩ := hs
  cases act with
  | kmalloc size =>
    obtain ⟨⟨x, u⟩, h1, h2⟩ := bind_ok hs
    cases h2
    rcases h.kmalloc he with ⟨x', u', h3, h4, -⟩ | ⟨h3, -⟩
    · cases h3.symm.trans h1
      constructor
      · intro hn
        exact absurd (ht.page_taken (a := a) (h4 a ha)) hn
      · rintro ⟨⟨b, hb, -⟩, -⟩
        cases hb
    · cases h3.symm.trans h1
  | other map arena =>
    cases hs
    constructor
    · intro hn
      exact absurd (ht.page_taken (a := a) ha) hn
    · rintro ⟨⟨b, hb, -⟩, -⟩
      cases hb
  | kfree b =>
    obtain ⟨a', ha', hh', u, h1, h2⟩ := h.kfree he
    cases h1.symm.trans hs
    have hsame : Holds a b → a = a' := fun hh => h.eq_of_page ha ha' (hh.page.symm.trans hh'.page)
    constructor
    · intro hn
      rcases h2.arena with ⟨h3, h4, h5⟩ | ⟨-, h4, -⟩
      · by_cases haa : a = a'
        · subst haa
          exact ⟨⟨b, rfl, hh'⟩, h3⟩
        · refine absurd (ht.page_taken (a := a) ?_) hn
          rw [h4]
          exact (mem_erase_of_ne haa).2 ha
      · refine absurd (ht.page_taken (a := a) ?_) hn
        rw [h4]
        exact ha
    · rintro ⟨⟨b', hb', hh⟩, hf⟩
      cases hb'
      have haa := hsame hh
      subst haa
      rcases h2.arena with ⟨-, -, h5⟩ | ⟨h3, -, -⟩
      · intro hp
        exact ((h5.taken _).1 hp).2 (h.has_page ha)
      · exact absurd hf h3

theorem Inv.free_taken (h : Inv s) (hi : i < DESC_COUNT) (hx : x ∈ (s.descs i).freeList) : PageTaken s.map (x / PAGE_SIZE) := by
  obtain ⟨a, ha, -, ⟨k, hk, rfl⟩, -⟩ := (h.free i hi x).1 hx
  rw [blockAt_page hk]
  exact h.page_taken ha

/-- In every state the heap is sound; a call fails only where the pages are not there; the page of a small arena is given back exactly
when a free leaves no block of it in use and its descriptor has more than it keeps; and then none of its blocks is on a free list. -/
theorem heap_sound :
    (∀ s, machine.Reach Machine.Any s → HeapOk s) ∧
    (∀ s act e, machine.Reach Machine.Any s → Enabled s act → step s act = .error e →
      e = .panic ∧ ∃ size, act = .kmalloc size ∧ NoRoom s.map (needs size)) ∧
    (∀ s act t a, machine.Reach Machine.Any s → machine.Steps s act t → a ∈ s.arenas → a.desc ≠ none →
      (¬ PageTaken t.map a.page ↔ (∃ b, act = .kfree b ∧ Holds a b) ∧ Frees s t.live a) ∧
      (¬ PageTaken t.map a.page → ∀ i < DESC_COUNT, ∀ x ∈ (t.descs i).freeList, x / PAGE_SIZE ≠ a.page)) := by
  refine ⟨?_, ?_, ?_⟩
  · intro s h
    exact (reach_inv h).ok
  · intro s act e h he hs
    exact step_error (reach_inv h) he hs
  · intro s act t a h hs ha _
    refine ⟨page_returned (reach_inv h) hs ha, fun hn i hi x hx hp => hn ?_⟩
    rw [← hp]
    exact (step_inv (reach_inv h) hs).free_taken hi hx

def fresh : State := ⟨⟨fun _ => 0, 352, 256, 352⟩, arenaInit, fun _ => ⟨none, 0, 0, 0⟩, [], []⟩

/-- A first block is given. -/
theorem heap_sound_first : ∃ t, machine.Steps fresh (.kmalloc 100) t ∧ HeapOk t := by
  have hstart : machine.start fresh := ⟨rfl, rfl, Nat.le_refl _, rfl, rfl, rfl⟩
  have hsize : machine.enabled fresh (.kmalloc 100) := show 100 < 2 ^ 31 by decide
  obtain ⟨hok, herr, -⟩ := heap_sound
  have hreach : machine.Reach Machine.Any fresh := ⟨fresh, hstart, .refl _⟩
  cases hs : step fresh (.kmalloc 100) with
  | ok t => exact ⟨t, ⟨hsize, hs⟩, hok t (hreach.next (.kmalloc 100) trivial hsize hs)⟩
  | error e =>
    obtain ⟨-, size, hact, hroom⟩ := herr fresh (.kmalloc 100) e hreach hsize hs
    cases hact
    obtain ⟨q, -, -, -, -, hq⟩ := hroom 256 (Nat.le_refl _) (by decide)
    unfold Bitmap.bit fresh at hq
    simp at hq

end Onix.Heap
