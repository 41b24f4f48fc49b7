/-
Slots of the table of inodes: what a reference that is given back, taken from a path or made for a pipe or a socket does to the books.
-/
import Onix.Files.Books

namespace Onix.Files

open Option List Function Onix.Lib

variable {s t u : State} {debts : List Nat} {p q fd f i j n : Nat}
variable {x : Nat}

/-! ## What becomes of the slots -/

def Alike (x y : Inode) : Prop := y.type = x.type ∧ y.desc = x.desc ∧ y.buf = x.buf

def Frees (s t : State) : Prop := ∀ i, (t.inodes i).type = .none ∨ Alike (s.inodes i) (t.inodes i)

def Grows (s t : State) : Prop := ∀ i, (s.inodes i).type ≠ .none → Alike (s.inodes i) (t.inodes i)

def Keeps (s t : State) : Prop := ∀ i, Private (s.inodes i).type → Alike (s.inodes i) (t.inodes i)

/-- A slot in use stays what it is or is freed, and no pipe or socket is freed where slots are taken. -/
structure Moves (s t : State) : Prop where
  used : ∀ i, (s.inodes i).type ≠ .none → (t.inodes i).type = .none ∨ Alike (s.inodes i) (t.inodes i)
  own : Frees s t ∨ Keeps s t

theorem Alike.refl (x : Inode) : Alike x x := ⟨rfl, rfl, rfl⟩

theorem Alike.trans {x y z : Inode} (h1 : Alike x y) (h2 : Alike y z) : Alike x z :=
  ⟨h2.1.trans h1.1, h2.2.1.trans h1.2.1, h2.2.2.trans h1.2.2⟩

theorem Frees.refl (s : State) : Frees s s := fun _ => .inr (.refl _)

theorem Frees.trans (h1 : Frees s t) (h2 : Frees t u) : Frees s u := by
  intro i
  rcases h2 i with h | h
  · exact .inl h
  · rcases h1 i with h' | h'
    · exact .inl (h.1.trans h')
    · exact .inr (h'.trans h)

theorem Frees.moves (h : Frees s t) : Moves s t := ⟨fun i _ => h i, .inl h⟩

theorem Grows.trans (h1 : Grows s t) (h2 : Grows t u) : Grows s u := by
  intro i hi
  have h := h1 i hi
  refine h.trans (h2 i ?_)
  rw [h.1]
  exact hi

theorem Grows.keeps (h : Grows s t) : Keeps s t := fun i hi => h i (private_ne hi)

theorem Grows.moves (h : Grows s t) : Moves s t := ⟨fun i hi => .inr (h i hi), .inr h.keeps⟩

theorem Keeps.trans (h1 : Keeps s t) (h2 : Keeps t u) : Keeps s u := by
  intro i hi
  have h := h1 i hi
  refine h.trans (h2 i ?_)
  rw [h.1]
  exact hi

theorem Grows.frees (h1 : Grows s t) (h2 : Frees t u) (h3 : Keeps t u) : Moves s u := by
  refine ⟨fun i hi => ?_, .inr (h1.keeps.trans h3)⟩
  rcases h2 i with h | h
  · exact .inl h
  · exact .inr ((h1 i hi).trans h)

theorem OneSlot.grows (h : OneSlot s i t) (hi : (s.inodes i).type ≠ .none → Alike (s.inodes i) (t.inodes i)) : Grows s t := by
  intro j hj
  by_cases hji : j = i
  · rw [hji] at hj ⊢
    exact hi hj
  · rw [h.other j hji]
    exact .refl _

theorem OneSlot.frees (h : OneSlot s i t) (hi : (t.inodes i).type = .none ∨ Alike (s.inodes i) (t.inodes i)) : Frees s t := by
  intro j
  by_cases hji : j = i
  · rw [hji]
    exact hi
  · rw [h.other j hji]
    exact .inr (.refl _)

theorem OneSlot.keeps (h : OneSlot s i t) (hi : ¬ Private (s.inodes i).type) : Keeps s t := by
  intro j hj
  have hji : j ≠ i := by
    rintro rfl
    exact hi hj
  rw [h.other j hji]
  exact .refl _

/-! ## Free slots and slots in use -/

def Inode.empty : Inode := ⟨.none, 0, none, none, none, none, none, none⟩

theorem Books.free (h : Books debts s) (hi : i < INODE_NR) (ht : (s.inodes i).type = .none) : s.inodes i = Inode.empty := by
  have hs := h.slot i hi
  have hc := (h.used i hi).1 ht
  unfold SlotOk at hs
  dsimp only at hs
  rw [ht] at hs
  obtain ⟨h1, h2, h3, h4, h5, h6⟩ := hs
  generalize s.inodes i = x at *
  obtain ⟨type, count, buf, desc, super, op, rx, tx⟩ := x
  subst ht hc h1 h2 h3 h4 h5 h6
  rfl

theorem Books.op (h : Books debts s) (hi : i < INODE_NR) (ht : (s.inodes i).type ≠ .none) : (s.inodes i).op = some (s.inodes i).type := by
  have hs := h.slot i hi
  unfold SlotOk at hs
  dsimp only at hs
  cases hty : (s.inodes i).type <;> rw [hty] at hs ht <;> dsimp only at hs
  case none => exact absurd rfl ht
  case pipe => exact hs.2.2.2.1
  case socket => exact hs.2.2.2.1
  case minix => exact hs.1
  case iso9660 => exact hs.1

theorem Books.due (h : Books (i :: debts) s) (hi : i < INODE_NR) : 0 < (s.inodes i).count ∧ (s.inodes i).type ≠ .none := by
  have hc := h.inodeCount i hi
  rw [count_cons_self] at hc
  have hpos : 0 < (s.inodes i).count := by omega
  exact ⟨hpos, fun ht => absurd ((h.used i hi).1 ht) (by omega)⟩

theorem dec_pos (h : n ≠ 0) : dec n = n - 1 := if_neg h

theorem Books.notRoot (h : Books (i :: debts) s) (hi : i < INODE_NR) (hc : (s.inodes i).count = 1) : i ≠ 0 := by
  rintro rfl
  have := h.inodeCount 0 hi
  rw [count_cons_self] at this
  have := h.root.2
  omega

/-! ## `iput` -/

def State.drop (s : State) (i : Nat) : State := s.setInode i { s.inodes i with count := (s.inodes i).count - 1 }

theorem iput_pipe (h : (s.inodes i).op = some .pipe) : iput s (some i) = pipeClose s i := by
  unfold iput
  dsimp only
  rw [h]

theorem iput_socket (h : (s.inodes i).op = some .socket) : iput s (some i) = socketClose s i := by
  unfold iput
  dsimp only
  rw [h]

theorem iput_disk {x : FsType} (h : (s.inodes i).op = some x) (hx : Disk x) : iput s (some i) = diskClose s i := by
  unfold iput
  dsimp only
  rw [h]
  rcases hx with rfl | rfl <;> rfl

theorem close_more (hc : 2 ≤ (s.inodes i).count) :
    pipeClose s i = .ok (s.drop i) ∧ socketClose s i = .ok (s.drop i) ∧ diskClose s i = .ok (s.drop i) := by
  have hdec : dec (s.inodes i).count = (s.inodes i).count - 1 := dec_pos (by omega)
  have hne : (s.inodes i).count - 1 ≠ 0 := by omega
  unfold pipeClose socketClose diskClose State.drop
  rw [hdec]
  dsimp only
  rw [setInode_same, if_pos hne, if_pos hne, if_pos hne]
  exact ⟨rfl, rfl, rfl⟩

theorem iput_more (h : Books debts s) (hi : i < INODE_NR) (hc : 2 ≤ (s.inodes i).count) : iput s (some i) = .ok (s.drop i) := by
  have ht : (s.inodes i).type ≠ .none := fun ht => absurd ((h.used i hi).1 ht) (by omega)
  have hop := h.op hi ht
  obtain ⟨h1, h2, h3⟩ := close_more hc
  cases hty : (s.inodes i).type <;> rw [hty] at hop ht
  case none => exact absurd rfl ht
  case pipe => rw [iput_pipe hop, h1]
  case socket => rw [iput_socket hop, h2]
  case minix => rw [iput_disk hop (.inl rfl), h3]
  case iso9660 => rw [iput_disk hop (.inr rfl), h3]

@[simp] theorem setInode_setInode (s : State) (i : Nat) (x y : Inode) : (s.setInode i x).setInode i y = s.setInode i y := by
  unfold State.setInode
  rw [update_idem]

theorem assert_ok {P : Prop} [Decidable P] (h : P) : assert P = .ok () := if_pos h

theorem assert_error {P : Prop} [Decidable P] (h : ¬ P) : assert P = .error .assertion := if_neg h

theorem setInode_self (s : State) (i : Nat) : s.setInode i (s.inodes i) = s := by
  unfold State.setInode
  rw [update_eq_self]

theorem putFreeInode_clean (h0 : i ≠ 0) (hc : (s.inodes i).count = 0) (hx : (s.inodes i).Clean) :
    putFreeInode s i = .ok (s.setInode i { s.inodes i with type := .none }) := by
  unfold putFreeInode
  rw [assert_ok h0, assert_ok hc]
  dsimp only [bind, Except.bind]
  rw [assert_ok]
  rw [setInode_same]
  exact hx

theorem Books.waiters (h : Books debts s) (hi : i < INODE_NR) : (s.inodes i).rxwaiter = none ∧ (s.inodes i).txwaiter = none := by
  have hs := h.slot i hi
  unfold SlotOk at hs
  dsimp only at hs
  cases hty : (s.inodes i).type <;> rw [hty] at hs <;> dsimp only at hs
  case none => exact hs.2.2.2.2
  case pipe => exact hs.2.2.2.2
  case socket => exact hs.2.2.2.2
  case minix => exact hs.2
  case iso9660 => exact hs.2

theorem dec_one (hc : (s.inodes i).count = 1) : dec (s.inodes i).count = 0 := by
  rw [hc]
  rfl

theorem iput_lastDisk (h : Books (i :: debts) s) (hi : i < INODE_NR) (hc : (s.inodes i).count = 1) (hd : Disk (s.inodes i).type) :
    iput s (some i) = .ok (s.setInode i Inode.empty) := by
  obtain ⟨hr, ht⟩ := h.waiters hi
  rw [iput_disk (h.op hi (h.due hi).2) hd]
  unfold diskClose
  rw [dec_one hc]
  dsimp only
  rw [setInode_same, if_neg (not_not_intro rfl), setInode_setInode, putFreeInode_clean (h.notRoot hi hc) (by rw [setInode_same])
    (by rw [setInode_same]; exact ⟨rfl, rfl, rfl, rfl, hr, ht⟩), setInode_setInode, setInode_same]
  rw [hr, ht]
  rfl

def State.unheap (s : State) (x : Nat) : State := { s with heap := s.heap.erase x }

theorem kfree_setInode (h : x ∈ s.heap) (i : Nat) (y : Inode) :
    kfree (s.setInode i y) (some x) = .ok ((s.unheap x).setInode i y) := if_pos h

theorem freeKpage_setInode (h : x ∈ s.pages) (i : Nat) (y : Inode) :
    freeKpage (s.setInode i y) (some x) = .ok ({ s with pages := s.pages.erase x }.setInode i y) := if_pos h

theorem iput_lastSocket (h : Books (i :: debts) s) (hi : i < INODE_NR) (hc : (s.inodes i).count = 1) (hd : (s.inodes i).type = .socket) :
    ∃ x ∈ s.heap, (s.inodes i).desc = some x ∧ iput s (some i) = .ok ((s.unheap x).setInode i Inode.empty) := by
  obtain ⟨hr, ht⟩ := h.waiters hi
  have hs := h.slot i hi
  unfold SlotOk at hs
  dsimp only at hs
  rw [hd] at hs
  obtain ⟨⟨x, hx, hx'⟩, -⟩ := hs
  refine ⟨x, hx, hx', ?_⟩
  rw [iput_socket (hd ▸ h.op hi (h.due hi).2)]
  unfold socketClose
  rw [dec_one hc]
  dsimp only
  rw [setInode_same, if_neg (not_not_intro rfl), setInode_setInode, setInode_same, hx', assert_ok (by simp), kfree_setInode hx]
  dsimp only [bind, Except.bind]
  rw [setInode_setInode, setInode_same, putFreeInode_clean (h.notRoot hi hc) (by rw [setInode_same])
    (by rw [setInode_same]; exact ⟨rfl, rfl, rfl, rfl, hr, ht⟩), setInode_setInode, setInode_same]
  rw [hr, ht]
  rfl

theorem iput_lastPipe (h : Books (i :: debts) s) (hi : i < INODE_NR) (hc : (s.inodes i).count = 1) (hd : (s.inodes i).type = .pipe) :
    iput s (some i) = .error .assertion := by
  have hs := h.slot i hi
  unfold SlotOk at hs
  dsimp only at hs
  rw [hd] at hs
  obtain ⟨⟨x, hx, hx'⟩, ⟨y, hy, hy'⟩, -⟩ := hs
  rw [iput_pipe (hd ▸ h.op hi (h.due hi).2)]
  unfold pipeClose
  rw [dec_one hc]
  dsimp only
  rw [setInode_same, if_neg (not_not_intro rfl), setInode_setInode, setInode_same, hx', kfree_setInode hx]
  dsimp only [bind, Except.bind]
  rw [setInode_same, hy', freeKpage_setInode (show y ∈ (s.unheap x).pages from hy)]
  dsimp only
  unfold putFreeInode
  rw [assert_ok (h.notRoot hi hc), setInode_same, assert_ok rfl]
  dsimp only [bind, Except.bind]
  rw [setInode_same, assert_error]
  rintro ⟨h1, -⟩
  exact nomatch h1

/-! ## The books after a reference was given back -/

theorem Books.drop (h : Books (i :: debts) s) (hi : i < INODE_NR) (hc : 2 ≤ (s.inodes i).count) : Books debts (s.drop i) := by
  have hic := h.inodeCount i hi
  rw [count_cons_self] at hic
  refine h.recount hi (by omega) (fun j hj => (count_cons_of_ne (Ne.symm hj)).symm) (by omega) (by omega)

theorem Books.last (h : Books (i :: debts) s) (hi : i < INODE_NR) (hc : (s.inodes i).count = 1) :
    s.held i = 0 ∧ s.refs i = 0 ∧ debts.count i = 0 := by
  have hic := h.inodeCount i hi
  rw [count_cons_self] at hic
  refine ⟨?_, ?_, ?_⟩ <;> omega

theorem slotOk_empty (h : t.inodes i = Inode.empty) : SlotOk t i := by
  unfold SlotOk
  rw [h]
  exact ⟨rfl, rfl, rfl, rfl, rfl, rfl⟩

theorem Objects.apart {x : Inode} (h : Objects s) (h1 : ¬ Private (s.inodes i).type) (h2 : ¬ Private x.type) :
    Objects (s.setInode i x) := by
  have hne : ∀ j, Private ((s.setInode i x).inodes j).type → (s.setInode i x).inodes j = s.inodes j := by
    intro j hj
    by_cases hji : j = i
    · rw [hji, setInode_same] at hj
      exact absurd hj h2
    · exact (OneSlot.setInode s i x).other j hji
  have hsame : ∀ j, Private (s.inodes j).type → (s.setInode i x).inodes j = s.inodes j := by
    intro j hj
    refine (OneSlot.setInode s i x).other j ?_
    rintro rfl
    exact h1 hj
  refine ⟨h.heap, h.pages, h.heapLt, h.pagesLt, ?_, ?_, ?_, ?_⟩
  · intro y hy
    obtain ⟨j, hj, h3, h4⟩ := h.heapOf y hy
    refine ⟨j, hj, ?_⟩
    rw [hsame j h3]
    exact ⟨h3, h4⟩
  · intro y hy
    obtain ⟨j, hj, h3, h4⟩ := h.pagesOf y hy
    refine ⟨j, hj, ?_⟩
    rw [hsame j (.inl h3)]
    exact ⟨h3, h4⟩
  · intro j hj64 k hk64 y hj hk
    rw [hne j hj, hne k hk]
    exact h.descs j hj64 k hk64 y (hne j hj ▸ hj) (hne k hk ▸ hk)
  · intro j hj64 k hk64 y hj hk
    rw [hne j (.inl hj), hne k (.inl hk)]
    exact h.bufs j hj64 k hk64 y (hne j (.inl hj) ▸ hj) (hne k (.inl hk) ▸ hk)

theorem Books.freeDisk (h : Books (i :: debts) s) (hi : i < INODE_NR) (hc : (s.inodes i).count = 1) (hd : Disk (s.inodes i).type) :
    Books debts (s.setInode i Inode.empty) := by
  obtain ⟨h1, h2, h3⟩ := h.last hi hc
  have hx : ((s.setInode i Inode.empty).inodes i) = Inode.empty := setInode_same ..
  refine h.oneSlot (OneSlot.setInode s i _) ?_ (fun j hj => (count_cons_of_ne (Ne.symm hj)).symm) ?_ (slotOk_empty hx)
    (fun _ _ _ _ _ _ hx => hx) (fun _ _ _ _ _ _ hx => hx) ?_ (h.objects.apart (disk_not_private hd) ?_) ?_
  · rw [hx, h1, h2, h3]
    rfl
  · rw [hx]
    exact ⟨fun _ => rfl, fun _ => rfl⟩
  · rw [hx]
    intro hp
    exact absurd rfl (private_ne hp)
  · exact fun hp => absurd rfl (private_ne hp)
  · intro h0
    exact absurd h0 (h.notRoot hi hc)

theorem Books.freeSocket (h : Books (i :: debts) s) (hi : i < INODE_NR) (hc : (s.inodes i).count = 1)
    (hd : (s.inodes i).type = .socket) (hx : (s.inodes i).desc = some x) : Books debts ((s.unheap x).setInode i Inode.empty) := by
  obtain ⟨h1, h2, h3⟩ := h.last hi hc
  have hsame : (((s.unheap x).setInode i Inode.empty).inodes i) = Inode.empty := setInode_same ..
  have ho : OneSlot s i ((s.unheap x).setInode i Inode.empty) := ⟨fun _ hj => update_of_ne hj _ _, rfl, rfl, rfl, rfl⟩
  have hother : ∀ j, Private (((s.unheap x).setInode i Inode.empty).inodes j).type →
      j ≠ i ∧ ((s.unheap x).setInode i Inode.empty).inodes j = s.inodes j := by
    intro j hj
    have hji : j ≠ i := by
      rintro rfl
      rw [hsame] at hj
      exact private_ne hj rfl
    exact ⟨hji, ho.other j hji⟩
  refine h.oneSlot ho ?_ (fun j hj => (count_cons_of_ne (Ne.symm hj)).symm) ?_ (slotOk_empty hsame) ?_
    (fun _ _ _ _ _ _ hx => hx) ?_ ⟨h.objects.heap.erase x, h.objects.pages, ?_, h.objects.pagesLt, ?_, ?_, ?_, ?_⟩ ?_
  · rw [hsame, h1, h2, h3]
    rfl
  · rw [hsame]
    exact ⟨fun _ => rfl, fun _ => rfl⟩
  · intro j hj64 hj y hp hy hmem
    refine (mem_erase_of_ne ?_).2 hmem
    rintro rfl
    exact hj (h.objects.descs j hj64 i hi y hp (.inr hd) hy hx)
  · rw [hsame]
    intro hp
    exact absurd rfl (private_ne hp)
  · intro y hy
    exact h.objects.heapLt y (mem_of_mem_erase hy)
  · intro y hy
    obtain ⟨j, hj, h4, h5⟩ := h.objects.heapOf y (mem_of_mem_erase hy)
    have hji : j ≠ i := by
      rintro rfl
      rw [hx] at h5
      exact (h.objects.heap.mem_erase_iff.1 hy).1 (some.inj h5).symm
    refine ⟨j, hj, ?_⟩
    rw [ho.other j hji]
    exact ⟨h4, h5⟩
  · intro y hy
    obtain ⟨j, hj, h4, h5⟩ := h.objects.pagesOf y hy
    have hji : j ≠ i := by
      rintro rfl
      rw [hd] at h4
      cases h4
    refine ⟨j, hj, ?_⟩
    rw [ho.other j hji]
    exact ⟨h4, h5⟩
  · intro j hj64 k hk64 y hj hk
    rw [(hother j hj).2, (hother k hk).2]
    exact h.objects.descs j hj64 k hk64 y ((hother j hj).2 ▸ hj) ((hother k hk).2 ▸ hk)
  · intro j hj64 k hk64 y hj hk
    rw [(hother j (.inl hj)).2, (hother k (.inl hk)).2]
    exact h.objects.bufs j hj64 k hk64 y ((hother j (.inl hj)).2 ▸ hj) ((hother k (.inl hk)).2 ▸ hk)
  · intro h0
    exact absurd h0 (h.notRoot hi hc)

theorem iput_spec (h : Books (i :: debts) s) (hi : i < INODE_NR) (hp : (s.inodes i).type = .pipe → 2 ≤ (s.inodes i).count) :
    ∃ t, iput s (some i) = .ok t ∧ OneSlot s i t ∧ Frees s t ∧ Books debts t := by
  by_cases hc : 2 ≤ (s.inodes i).count
  · have ho : OneSlot s i (s.drop i) := OneSlot.setInode ..
    refine ⟨_, iput_more h hi hc, ho, ho.frees (.inr ?_), h.drop hi hc⟩
    unfold State.drop
    rw [setInode_same]
    exact ⟨rfl, rfl, rfl⟩
  · have hc1 : (s.inodes i).count = 1 := by
      have := (h.due hi).1
      omega
    cases hty : (s.inodes i).type
    case none => exact absurd hty (h.due hi).2
    case pipe => exact absurd (hp hty) hc
    case socket =>
      obtain ⟨x, -, hx, hs⟩ := iput_lastSocket h hi hc1 hty
      have ho : OneSlot s i ((s.unheap x).setInode i Inode.empty) := ⟨fun _ hj => update_of_ne hj _ _, rfl, rfl, rfl, rfl⟩
      refine ⟨_, hs, ho, ho.frees (.inl ?_), h.freeSocket hi hc1 hty hx⟩
      rw [setInode_same]
      rfl
    all_goals
      have hd : Disk (s.inodes i).type := by simp [Disk, hty]
      have ho : OneSlot s i (s.setInode i Inode.empty) := OneSlot.setInode ..
      refine ⟨_, iput_lastDisk h hi hc1 hd, ho, ho.frees (.inl ?_), h.freeDisk hi hc1 hd⟩
      rw [setInode_same]
      rfl

/-! ## References from a path -/

theorem Found.take_oneSlot (x : Found) (s : State) : OneSlot s x.slot (x.take s) := by
  unfold Found.take State.hold
  split
  · exact OneSlot.setInode ..
  · exact OneSlot.setInode ..

theorem Books.take {x : Found} (h : Books debts s) (hx : x.Ok s) : Books (x.slot :: debts) (x.take s) ∧ Grows s (x.take s) := by
  obtain ⟨hi, hx⟩ := hx
  have ho := x.take_oneSlot s
  unfold Found.take at ho ⊢
  cases hf : x.fresh with
  | none =>
    rw [hf] at hx ho
    have hne : (s.inodes x.slot).count ≠ 0 := by
      intro hc
      rw [(h.used _ hi).2 hc] at hx
      rcases hx with hx | hx <;> cases hx
    refine ⟨h.hold hi hne, ho.grows fun _ => ?_⟩
    unfold State.hold
    rw [setInode_same]
    exact ⟨rfl, rfl, rfl⟩
  | some y =>
    rw [hf] at hx ho
    obtain ⟨hfree, hd, hc, hop, hr, ht⟩ := hx
    have hnone : (s.inodes x.slot).type = .none := of_decide_eq_true (findFrom_some hfree).2.2
    have hic := h.inodeCount _ hi
    rw [(h.used _ hi).1 hnone] at hic
    have hy : (s.setInode x.slot y).inodes x.slot = y := setInode_same ..
    have hpriv : ¬ Private y.type := disk_not_private hd
    refine ⟨h.oneSlot ho ?_ (fun j hj => count_cons_of_ne (Ne.symm hj)) ?_ ?_ (fun _ _ _ _ _ _ hx => hx) (fun _ _ _ _ _ _ hx => hx) ?_
      (h.objects.apart ?_ hpriv) ?_, ho.grows fun hn => absurd hnone hn⟩
    · rw [hy, hc, count_cons_self]
      omega
    · rw [hy, hc]
      constructor
      · intro hn
        rw [hn] at hd
        rcases hd with hd | hd <;> cases hd
      · intro hn
        cases hn
    · unfold SlotOk
      rw [hy]
      dsimp only
      rcases hd with hd | hd <;> rw [hd] at hop ⊢ <;> exact ⟨hop, hr, ht⟩
    · rw [hy]
      intro hp
      exact absurd hp hpriv
    · rw [hnone]
      intro hp
      exact private_ne hp rfl
    · intro h0
      rw [← h0, hy]
      exact hd

theorem iput_take {x : Found} (h : Books debts s) (hx : x.Ok s) : iput (x.take s) (some x.slot) = .ok s := by
  have hb := (h.take hx).1
  obtain ⟨hi, hx⟩ := hx
  unfold Found.take at hb ⊢
  cases hf : x.fresh with
  | none =>
    rw [hf] at hx hb
    dsimp only at hx hb ⊢
    have hne : (s.inodes x.slot).count ≠ 0 := by
      intro hc
      rw [(h.used _ hi).2 hc] at hx
      rcases hx with hx | hx <;> cases hx
    have hcount : ((s.hold x.slot).inodes x.slot).count = (s.inodes x.slot).count + 1 := by
      unfold State.hold
      rw [setInode_same]
    rw [iput_more hb hi (by omega)]
    unfold State.drop State.hold
    rw [setInode_setInode, setInode_same]
    exact congrArg Except.ok (setInode_self s x.slot)
  | some y =>
    rw [hf] at hx hb
    obtain ⟨hfree, hd, hc, -⟩ := hx
    have hnone : (s.inodes x.slot).type = .none := of_decide_eq_true (findFrom_some hfree).2.2
    rw [iput_lastDisk hb hi (by rw [setInode_same]; exact hc) (by rw [setInode_same]; exact hd), setInode_setInode, ← h.free hi hnone,
      setInode_self]

/-! ## Inodes of pipes and sockets -/

theorem getFreeInode_spec (h : Books debts s) :
    getFreeInode s = .error .panic ∨ ∃ i < INODE_NR, (s.inodes i).type = .none ∧ getFreeInode s = .ok i := by
  unfold getFreeInode
  cases hf : findFrom (fun i => (s.inodes i).type = .none) INODE_NR 0 with
  | none => exact .inl rfl
  | some i =>
    obtain ⟨-, hi, ht⟩ := findFrom_some hf
    have ht : (s.inodes i).type = .none := of_decide_eq_true ht
    refine .inr ⟨i, hi, ht, ?_⟩
    dsimp only
    rw [assert_ok]
    · rfl
    · rw [h.free hi ht]
      exact ⟨rfl, rfl, rfl, rfl, rfl, rfl⟩

theorem Books.born {k : Nat} (h : Books debts s) (ho : OneSlot s i t) (hi : i < INODE_NR) (ht : (s.inodes i).type = .none)
    (hp : Private (t.inodes i).type) (hc : (t.inodes i).count = k + 1) (hslot : SlotOk t i) (hheap : ∀ x ∈ s.heap, x ∈ t.heap)
    (hpages : ∀ x ∈ s.pages, x ∈ t.pages) (hobjects : Objects t) :
    Books (replicate (k + 1) i ++ debts) t ∧ Grows s t := by
  have hic := h.inodeCount i hi
  rw [(h.used i hi).1 ht] at hic
  have hnone : ∀ x ∈ holders, s.holds x ≠ some i := fun x hx => tally_zero (show s.refs i = 0 by omega) hx
  refine ⟨h.oneSlot ho ?_ ?_ ?_ hslot (fun _ _ _ _ _ _ hx => hheap _ hx) (fun _ _ _ _ _ _ hx => hpages _ hx) ?_ hobjects ?_,
    ho.grows fun hn => absurd ht hn⟩
  · rw [hc, count_append, count_replicate_self]
    omega
  · intro j hj
    rw [count_append, count_replicate, if_neg (by simpa using Ne.symm hj), zero_add]
  · rw [hc]
    exact ⟨fun hn => absurd hn (private_ne hp), fun hn => absurd hn (Nat.succ_ne_zero k)⟩
  · intro _
    refine ⟨by omega, fun x hx hx' => absurd hx' (hnone x hx)⟩
  · rintro rfl
    have h0 := h.root.1
    rw [ht] at h0
    rcases h0 with h0 | h0 <;> cases h0

theorem SlotOk.desc (h : SlotOk s i) (hp : Private (s.inodes i).type) (hx : (s.inodes i).desc = some x) : x ∈ s.heap := by
  unfold SlotOk at h
  dsimp only at h
  rcases hp with hp | hp <;> rw [hp] at h <;> dsimp only at h <;> obtain ⟨⟨d, hd, hd'⟩, -⟩ := h <;> rw [hx] at hd' <;>
    exact some.inj hd' ▸ hd

theorem SlotOk.buf (h : SlotOk s i) (hp : (s.inodes i).type = .pipe) (hx : (s.inodes i).buf = some x) : x ∈ s.pages := by
  unfold SlotOk at h
  dsimp only at h
  rw [hp] at h
  obtain ⟨-, ⟨d, hd, hd'⟩, -⟩ := h
  rw [hx] at hd'
  exact some.inj hd' ▸ hd

theorem Objects.born {b : Option Nat} (h : Objects s) (hs : ∀ j < INODE_NR, SlotOk s j) (ho : OneSlot s i t) (hi : i < INODE_NR)
    (ht : (s.inodes i).type = .none) (hp : Private (t.inodes i).type) (hdesc : (t.inodes i).desc = some x) (hx : s.next ≤ x ∧ x < t.next)
    (hheap : t.heap = x :: s.heap) (hb : (t.inodes i).type = .pipe ∧ (t.inodes i).buf = b ∨ (t.inodes i).type ≠ .pipe ∧ b = none)
    (hb' : ∀ y, b = some y → s.next ≤ y ∧ y < t.next) (hpages : t.pages = b.toList ++ s.pages) : Objects t := by
  have hne : ∀ j, Private (s.inodes j).type → j ≠ i := by
    rintro j hj rfl
    rw [ht] at hj
    exact private_ne hj rfl
  have hfresh : x ∉ s.heap := fun hmem => absurd (h.heapLt x hmem) (Nat.not_lt.2 hx.1)
  have hfreshP : ∀ y, b = some y → y ∉ s.pages := fun y hy hmem => absurd (h.pagesLt y hmem) (Nat.not_lt.2 (hb' y hy).1)
  have hin : ∀ j < INODE_NR, j ≠ i → ∀ y, Private (t.inodes j).type → (t.inodes j).desc = some y → y ∈ s.heap := by
    intro j hj hji y
    rw [ho.other j hji]
    exact (hs j hj).desc
  have hinP : ∀ j < INODE_NR, j ≠ i → ∀ y, (t.inodes j).type = .pipe → (t.inodes j).buf = some y → y ∈ s.pages := by
    intro j hj hji y
    rw [ho.other j hji]
    exact (hs j hj).buf
  refine ⟨?_, ?_, ?_, ?_, ?_, ?_, ?_, ?_⟩
  · rw [hheap]
    exact nodup_cons.2 ⟨hfresh, h.heap⟩
  · rw [hpages]
    cases b with
    | none => exact h.pages
    | some y => exact nodup_cons.2 ⟨hfreshP y rfl, h.pages⟩
  · rw [hheap]
    intro y hy
    rcases mem_cons.1 hy with rfl | hy
    · exact hx.2
    · exact lt_trans (h.heapLt y hy) (lt_of_le_of_lt hx.1 hx.2)
  · rw [hpages]
    intro y hy
    rcases mem_append.1 hy with hy | hy
    · exact (hb' y (mem_toList.1 hy)).2
    · exact lt_trans (h.pagesLt y hy) (lt_of_le_of_lt hx.1 hx.2)
  · rw [hheap]
    intro y hy
    rcases mem_cons.1 hy with rfl | hy
    · exact ⟨i, hi, hp, hdesc⟩
    · obtain ⟨j, hj, h1, h2⟩ := h.heapOf y hy
      refine ⟨j, hj, ?_⟩
      rw [ho.other j (hne j h1)]
      exact ⟨h1, h2⟩
  · rw [hpages]
    intro y hy
    rcases mem_append.1 hy with hy | hy
    · have hy := mem_toList.1 hy
      rcases hb with ⟨h1, h2⟩ | ⟨-, h2⟩
      · exact ⟨i, hi, h1, h2.trans hy⟩
      · rw [h2] at hy
        cases hy
    · obtain ⟨j, hj, h1, h2⟩ := h.pagesOf y hy
      refine ⟨j, hj, ?_⟩
      rw [ho.other j (hne j (.inl h1))]
      exact ⟨h1, h2⟩
  · intro j hj k hk y hpj hpk hyj hyk
    by_cases hji : j = i <;> by_cases hki : k = i
    · rw [hji, hki]
    · rw [hji, hdesc] at hyj
      exact absurd (some.inj hyj ▸ hin k hk hki y hpk hyk) hfresh
    · rw [hki, hdesc] at hyk
      exact absurd (some.inj hyk ▸ hin j hj hji y hpj hyj) hfresh
    · rw [ho.other j hji] at hpj hyj
      rw [ho.other k hki] at hpk hyk
      exact h.descs j hj k hk y hpj hpk hyj hyk
  · intro j hj k hk y hpj hpk hyj hyk
    have hbuf : ∀ l, l = i → (t.inodes l).type = .pipe → (t.inodes l).buf = some y → y ∉ s.pages := by
      rintro l rfl h1 h2
      rcases hb with ⟨-, h3⟩ | ⟨h3, -⟩
      · exact hfreshP y (h3.symm.trans h2)
      · exact absurd h1 h3
    by_cases hji : j = i <;> by_cases hki : k = i
    · rw [hji, hki]
    · exact absurd (hinP k hk hki y hpk hyk) (hbuf j hji hpj hyj)
    · exact absurd (hinP j hj hji y hpj hyj) (hbuf k hki hpk hyk)
    · rw [ho.other j hji] at hpj hyj
      rw [ho.other k hki] at hpk hyk
      exact h.bufs j hj k hk y hpj hpk hyj hyk

def newSocket (desc : Nat) : Inode := ⟨.socket, 1, none, some desc, none, some .socket, none, none⟩

def newPipe (desc addr : Nat) : Inode := ⟨.pipe, 2, some addr, some desc, none, some .pipe, none, none⟩

theorem socketInode_spec (h : Books debts s) :
    socketInode (kmalloc s).2 s.next = .error .panic ∨
      ∃ i < INODE_NR, ∃ t, socketInode (kmalloc s).2 s.next = .ok (i, t) ∧ OneSlot s i t ∧ Grows s t ∧ Books (i :: debts) t := by
  rcases getFreeInode_spec h with he | ⟨i, hi, ht, he⟩
  · left
    unfold socketInode
    have he : getFreeInode (kmalloc s).2 = .error .panic := he
    rw [he]
    rfl
  · right
    have hx : (kmalloc s).2.inodes i = Inode.empty := h.free hi ht
    have he : getFreeInode (kmalloc s).2 = .ok i := he
    have ho : OneSlot s i ((kmalloc s).2.setInode i (newSocket s.next)) := ⟨fun _ hj => update_of_ne hj _ _, rfl, rfl, rfl, rfl⟩
    have hi' : ((kmalloc s).2.setInode i (newSocket s.next)).inodes i = newSocket s.next := setInode_same ..
    refine ⟨i, hi, _, ?_, ho, And.symm (h.born ho hi ht (k := 0) ?_ ?_ ?_ ?_ ?_ ?_)⟩
    · unfold socketInode
      rw [he]
      dsimp only [bind, Except.bind]
      rw [hx]
      rfl
    · rw [hi']
      exact .inr rfl
    · rw [hi']
      rfl
    · unfold SlotOk
      rw [hi']
      exact ⟨⟨s.next, .head _, rfl⟩, rfl, rfl, rfl, rfl, rfl⟩
    · exact fun y hy => .tail _ hy
    · exact fun y hy => hy
    · refine h.objects.born (b := none) h.slot ho hi ht ?_ ?_ ⟨le_refl _, Nat.lt_succ_self _⟩ rfl (.inr ⟨?_, rfl⟩) (fun y hy => nomatch hy) rfl
      · rw [hi']
        exact .inr rfl
      · rw [hi']
        rfl
      · rw [hi']
        exact fun hn => nomatch hn

theorem pipeOpen_spec (h : Books debts s) :
    pipeOpen s = .error .panic ∨
      ∃ i < INODE_NR, ∃ t, pipeOpen s = .ok (i, t) ∧ OneSlot s i t ∧ Grows s t ∧ Books (i :: i :: debts) t := by
  rcases getFreeInode_spec h with he | ⟨i, hi, ht, he⟩
  · left
    unfold pipeOpen
    rw [he]
    rfl
  · right
    have hx : (allocKpage (kmalloc s).2).2.inodes i = Inode.empty := h.free hi ht
    generalize hu : (allocKpage (kmalloc s).2).2.setInode i (newPipe s.next (s.next + 1)) = u
    have ho : OneSlot s i u := hu ▸ ⟨fun _ hj => update_of_ne hj _ _, rfl, rfl, rfl, rfl⟩
    have hi' : u.inodes i = newPipe s.next (s.next + 1) := hu ▸ setInode_same ..
    have hh : u.heap = s.next :: s.heap := hu ▸ rfl
    have hp : u.pages = (s.next + 1) :: s.pages := hu ▸ rfl
    have hn : u.next = s.next + 2 := hu ▸ rfl
    refine ⟨i, hi, u, ?_, ho, And.symm (h.born ho hi ht (k := 1) ?_ ?_ ?_ ?_ ?_ ?_)⟩
    · unfold pipeOpen
      rw [he, ← hu]
      dsimp only [bind, Except.bind]
      rw [hx]
      rfl
    · rw [hi']
      exact .inl rfl
    · rw [hi']
      rfl
    · unfold SlotOk
      rw [hi', hh, hp]
      exact ⟨⟨s.next, .head _, rfl⟩, ⟨s.next + 1, .head _, rfl⟩, rfl, rfl, rfl, rfl⟩
    · rw [hh]
      exact fun y hy => .tail _ hy
    · rw [hp]
      exact fun y hy => .tail _ hy
    · refine h.objects.born (b := some (s.next + 1)) h.slot ho hi ht ?_ ?_ ⟨le_refl _, by omega⟩ hh (.inl ⟨?_, ?_⟩) ?_ hp
      · rw [hi']
        exact .inl rfl
      · rw [hi']
        rfl
      · rw [hi']
        rfl
      · rw [hi']
        rfl
      · intro y hy
        cases hy
        omega

end Onix.Files
