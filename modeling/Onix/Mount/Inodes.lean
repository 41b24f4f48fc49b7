/-
References to inodes, taken by a path and given back by `iput`: what happens to the slot and to the books.
-/
import Onix.Mount.Books

namespace Onix.Mount

open Onix.Lib

variable {s t u : State} {ds : List Nat} {bs : List Buf} {i j k n : Nat} {b : Buf}

/-! ## What a slot keeps -/

/-- The same inode, up to its count; none turns into a block file. -/
structure Alike (x y : Inode) : Prop where
  type : y.type = x.type
  dev : y.dev = x.dev
  mount : y.mount = x.mount
  buf : y.buf = x.buf
  super : y.super = x.super
  kind : x.kind ≠ .block → y.kind ≠ .block

theorem Alike.refl (x : Inode) : Alike x x := ⟨rfl, rfl, rfl, rfl, rfl, id⟩

theorem Alike.trans {x y z : Inode} (h1 : Alike x y) (h2 : Alike y z) : Alike x z :=
  ⟨h2.type.trans h1.type, h2.dev.trans h1.dev, h2.mount.trans h1.mount, h2.buf.trans h1.buf, h2.super.trans h1.super, h2.kind ∘ h1.kind⟩

def Frees (s t : State) : Prop := ∀ i < INODE_NR, (t.inodes i).type = .none ∨ Alike (s.inodes i) (t.inodes i)

def Grows (s t : State) : Prop := ∀ i < INODE_NR, (s.inodes i).type ≠ .none → Alike (s.inodes i) (t.inodes i)

def Moves (s t : State) : Prop := ∀ i < INODE_NR, (s.inodes i).type ≠ .none → (t.inodes i).type = .none ∨ Alike (s.inodes i) (t.inodes i)

theorem Frees.refl (s : State) : Frees s s := fun _ _ => .inr (.refl _)

theorem Frees.trans (h1 : Frees s t) (h2 : Frees t u) : Frees s u := by
  intro i hi
  rcases h2 i hi with h | h
  · exact .inl h
  · rcases h1 i hi with h' | h'
    · exact .inl (h.type.trans h')
    · exact .inr (h'.trans h)

theorem Grows.refl (s : State) : Grows s s := fun _ _ _ => .refl _

theorem Grows.trans (h1 : Grows s t) (h2 : Grows t u) : Grows s u := by
  intro i hi hu
  have h := h1 i hi hu
  exact h.trans (h2 i hi (h.type ▸ hu))

theorem Grows.frees (h1 : Grows s t) (h2 : Frees t u) : Moves s u := by
  intro i hi hu
  have h := h1 i hi hu
  rcases h2 i hi with h' | h'
  · exact .inl h'
  · exact .inr (h.trans h')

theorem Moves.frees (h1 : Moves s t) (h2 : Frees t u) : Moves s u := by
  intro i hi hu
  rcases h2 i hi with h | h
  · exact .inl h
  · rcases h1 i hi hu with h' | h'
    · exact .inl (h.type.trans h')
    · exact .inr (h'.trans h)

/-- One slot is changed, and nothing of the superblocks and of the other holders. -/
structure OneSlot (s : State) (i : Nat) (t : State) : Prop extends Frame s t where
  other : ∀ j, j ≠ i → t.inodes j = s.inodes j

theorem OneSlot.setInode (s : State) (i : Nat) (x : Inode) : OneSlot s i (s.setInode i x) :=
  ⟨⟨rfl, rfl, rfl, rfl, rfl⟩, fun _ hj => setInode_other s x hj⟩

theorem OneSlot.frees (h : OneSlot s i t) (hi : (t.inodes i).type = .none ∨ Alike (s.inodes i) (t.inodes i)) : Frees s t := by
  intro j _
  by_cases hj : j = i
  · rw [hj]
    exact hi
  · rw [h.other j hj]
    exact .inr (.refl _)

theorem OneSlot.grows (h : OneSlot s i t) (hi : (s.inodes i).type ≠ .none → Alike (s.inodes i) (t.inodes i)) : Grows s t := by
  intro j _ hj
  by_cases hji : j = i
  · subst hji
    exact hi hj
  · rw [h.other j hji]
    exact .refl _

/-! ## `iput` -/

theorem Books.due (h : Books (i :: ds) bs s) (hi : i < INODE_NR) : 0 < (s.inodes i).count ∧ (s.inodes i).type ≠ .none := by
  have hc := h.count i hi
  rw [List.count_cons_self] at hc
  exact ⟨by omega, fun ht => by have := (h.inode i hi).free.1 ht; omega⟩

theorem Books.rootRefs (h : Books ds bs s) : 0 < s.refs 0 := by
  have h1 : 0 < tally superSlots s.roots 0 := tally_pos.2 ⟨0, mem_superSlots.2 (by decide), h.root⟩
  unfold State.refs
  omega

theorem Books.last (h : Books (i :: ds) bs s) (hi : i < INODE_NR) (hc : (s.inodes i).count = 1) :
    s.held i = 0 ∧ s.refs i = 0 ∧ ds.count i = 0 ∧ (s.inodes i).mount = 0 ∧ i ≠ 0 := by
  have hic := h.count i hi
  rw [List.count_cons_self] at hic
  have hr : s.refs i = 0 := by omega
  refine ⟨by omega, hr, by omega, ?_, ?_⟩
  · by_contra hm
    obtain ⟨k, hk, hk'⟩ := h.marked i hi hm
    have h1 : 0 < tally superSlots s.mounts i := tally_pos.2 ⟨k, mem_superSlots.2 hk, hk'⟩
    unfold State.refs at hr
    omega
  · rintro rfl
    have := h.rootRefs
    omega

theorem dec_pos (h : n ≠ 0) : dec n = n - 1 := if_neg h

def State.drop (s : State) (i : Nat) : State := s.setInode i { s.inodes i with count := (s.inodes i).count - 1 }

def Inode.blank (x : Inode) : Inode := { x with type := .none, count := 0, buf := none, super := none, op := none }

theorem close_more (hc : 2 ≤ (s.inodes i).count) : close s i = .ok (s.drop i) := by
  have hd : dec (s.inodes i).count = (s.inodes i).count - 1 := dec_pos (by omega)
  unfold close State.drop
  dsimp only
  rw [hd, setInode_same]
  dsimp only
  exact if_pos (by omega)

theorem putBuf_setInode (s : State) (i : Nat) (x : Inode) (b : Buf) : (s.setInode i x).putBuf b = (s.putBuf b).setInode i x := rfl

theorem close_last (hc : (s.inodes i).count = 1) (hb : (s.inodes i).buf = some b) (hpos : s.bufs b ≠ 0) (h0 : i ≠ 0) :
    close s i = .ok ((s.putBuf b).setInode i (s.inodes i).blank) := by
  have hd : dec (s.inodes i).count = 0 := by
    rw [hc]
    rfl
  unfold close
  dsimp only
  rw [hd, setInode_same]
  rw [if_neg (not_not_intro rfl), hb, brelse_ok (show (s.setInode i _).bufs b ≠ 0 from hpos), putBuf_setInode]
  dsimp only [bind, Except.bind]
  rw [setInode_same, setInode_setInode]
  unfold putFreeInode
  rw [assert_ok h0, setInode_same]
  dsimp only [bind, Except.bind]
  rw [setInode_setInode, setInode_same]
  rfl

theorem iput_eq_close (h : (s.inodes i).Sound) (hne : (s.inodes i).type ≠ .none) : iput s (some i) = close s i := by
  obtain ⟨hop, hbuf⟩ := h.used hne
  unfold iput
  dsimp only
  rw [hop]
  cases ht : (s.inodes i).type with
  | none => exact absurd ht hne
  | iso9660 => rfl
  | minix =>
    unfold minixClose
    rw [assert_ok ht]
    exact if_neg hbuf

theorem iput_apart (h : Books (i :: ds) bs s) (hi : i < INODE_NR) :
    ∃ t, (∀ k x, iput (s.setSuper k x) (some i) = .ok (t.setSuper k x)) ∧ OneSlot s i t ∧ Frees s t ∧ Books ds bs t := by
  obtain ⟨hpos, hne⟩ := h.due hi
  have hsound := h.inode i hi
  obtain ⟨hop, hbuf⟩ := hsound.used hne
  have heq : ∀ k x, iput (s.setSuper k x) (some i) = close (s.setSuper k x) i := fun k x =>
    iput_eq_close (s := s.setSuper k x) hsound hne
  have hother : ∀ j, j ≠ i → ds.count j = (i :: ds).count j := fun j hj => (List.count_cons_of_ne (Ne.symm hj)).symm
  have hic := h.count i hi
  rw [List.count_cons_self] at hic
  by_cases hc : 2 ≤ (s.inodes i).count
  · -- others hold it
    have ho : OneSlot s i (s.drop i) := .setInode ..
    refine ⟨s.drop i, fun k x => ?_, ho, ho.frees (.inr ?_), h.setInode hi ?_ hother (fun _ => rfl) ?_ (h.marked i hi)⟩
    · rw [heq, close_more (s := s.setSuper k x) hc]
      rfl
    · unfold State.drop
      rw [setInode_same]
      exact ⟨rfl, rfl, rfl, rfl, rfl, id⟩
    · dsimp only
      omega
    · exact ⟨⟨fun ht => absurd ht hne, fun h0 => by dsimp only at h0; omega⟩, fun ht => absurd ht hne, hsound.used⟩
  · -- it was the last one
    have hc1 : (s.inodes i).count = 1 := by omega
    obtain ⟨h1, h2, h3, h4, h5⟩ := h.last hi hc1
    obtain ⟨c, hc⟩ := Option.ne_none_iff_exists'.1 hbuf
    have hb : Books ds (c :: bs) (s.setInode i (s.inodes i).blank) := by
      refine h.setInode hi ?_ hother ?_ ?_ (fun hm => absurd h4 hm)
      · rw [h1, h2, h3]
        rfl
      · intro b
        have hblank : (s.inodes i).blank.buf = none := rfl
        rw [hblank, hc, count_cons_buf, if_neg (show ¬ (none : Option Buf) = some b from nofun), Nat.add_zero]
      · exact ⟨⟨fun _ => rfl, fun _ => rfl⟩, fun _ => ⟨rfl, rfl, rfl, h4⟩, fun hn => absurd rfl hn⟩
    have hpos' : s.bufs c ≠ 0 := by
      have hp := hb.bufs c
      rw [List.count_cons_self] at hp
      change s.bufs c = _ at hp
      omega
    have ho : OneSlot s i ((s.putBuf c).setInode i (s.inodes i).blank) :=
      ⟨⟨rfl, rfl, rfl, rfl, rfl⟩, fun _ hj => Function.update_of_ne hj ..⟩
    refine ⟨_, fun k x => ?_, ho, ho.frees (.inl ?_), ?_⟩
    · rw [heq, close_last (s := s.setSuper k x) hc1 hc hpos' h5]
      rfl
    · rw [setInode_same]
      rfl
    · rw [← putBuf_setInode]
      exact hb.putBuf

theorem iput_spec (h : Books (i :: ds) bs s) (hi : i < INODE_NR) :
    ∃ t, iput s (some i) = .ok t ∧ OneSlot s i t ∧ Frees s t ∧ Books ds bs t := by
  obtain ⟨t, ht, ho, hf, hb⟩ := iput_apart h hi
  refine ⟨t, ?_, ho, hf, hb⟩
  have h0 := ht 0 (s.supers 0)
  rw [setSuper_self, ← ho.supers, setSuper_self] at h0
  exact h0

end Onix.Mount
