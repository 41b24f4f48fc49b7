/-
The books of inodes and buffers: every count is the number of places that point there, where a superblock that is not in use points
nowhere. While a call is under way it may hold references that no place shows yet; they are listed as its debts.
-/
import Onix.Mount.Model

namespace Onix.Mount

open List Function Onix.Lib

variable {s t : State} {ds ds' : List Nat} {bs bs' : List Buf} {i j k : Nat} {b : Buf}

theorem assert_ok {P : Prop} [Decidable P] (h : P) : assert P = .ok () := if_pos h

theorem assert_error {P : Prop} [Decidable P] (h : ¬ P) : assert P = .error .assertion := if_neg h

/-! ## Single slots -/

@[simp] theorem setInode_same (s : State) (i : Nat) (x : Inode) : (s.setInode i x).inodes i = x := update_self ..

theorem setInode_other (s : State) (x : Inode) (h : j ≠ i) : (s.setInode i x).inodes j = s.inodes j := update_of_ne h ..

@[simp] theorem setInode_supers (s : State) (i : Nat) (x : Inode) : (s.setInode i x).supers = s.supers := rfl

@[simp] theorem setSuper_same (s : State) (k : Nat) (x : Super) : (s.setSuper k x).supers k = x := update_self ..

theorem setSuper_other (s : State) (x : Super) (h : j ≠ k) : (s.setSuper k x).supers j = s.supers j := update_of_ne h ..

@[simp] theorem setSuper_inodes (s : State) (k : Nat) (x : Super) : (s.setSuper k x).inodes = s.inodes := rfl

@[simp] theorem setSuper_setSuper (s : State) (k : Nat) (x y : Super) : (s.setSuper k x).setSuper k y = s.setSuper k y := by
  unfold State.setSuper
  rw [update_idem]

@[simp] theorem setInode_setInode (s : State) (i : Nat) (x y : Inode) : (s.setInode i x).setInode i y = s.setInode i y := by
  unfold State.setInode
  rw [update_idem]

theorem setSuper_self (s : State) (k : Nat) : s.setSuper k (s.supers k) = s := by
  unfold State.setSuper
  rw [update_eq_self]

/-! ## Who points where -/

@[irreducible] def inodeSlots : Finset Nat := Finset.range INODE_NR

@[irreducible] def superSlots : Finset Nat := Finset.range SUPER_NR

@[simp] theorem mem_inodeSlots : i ∈ inodeSlots ↔ i < INODE_NR := by
  unfold inodeSlots
  exact Finset.mem_range

@[simp] theorem mem_superSlots : k ∈ superSlots ↔ k < SUPER_NR := by
  unfold superSlots
  exact Finset.mem_range

def Super.live {α : Type} (x : Super) (p : Option α) : Option α := if x.type = .none then none else p

def State.roots (s : State) (k : Nat) : Option Nat := (s.supers k).live (s.supers k).iroot

def State.mounts (s : State) (k : Nat) : Option Nat := (s.supers k).live (s.supers k).imount

def State.superBufs (s : State) (k : Nat) : Option Buf := (s.supers k).live (s.supers k).buf

def State.inodeBufs (s : State) (i : Nat) : Option Buf := (s.inodes i).buf

def State.refs (s : State) (i : Nat) : Nat := tally superSlots s.roots i + tally superSlots s.mounts i

def State.bufRefs (s : State) (b : Buf) : Nat := tally inodeSlots s.inodeBufs b + tally superSlots s.superBufs b

/-- A slot of the table of inodes is as its type says. -/
structure Inode.Sound (x : Inode) : Prop where
  free : x.type = .none ↔ x.count = 0
  clean : x.type = .none → x.buf = none ∧ x.super = none ∧ x.op = none ∧ x.mount = 0
  used : x.type ≠ .none → x.op = some x.type ∧ x.buf ≠ none

structure Books (ds : List Nat) (bs : List Buf) (s : State) : Prop where
  count : ∀ i < INODE_NR, (s.inodes i).count = s.held i + s.refs i + ds.count i
  bufs : ∀ b, s.bufs b = s.heldBufs b + s.bufRefs b + bs.count b
  inode : ∀ i < INODE_NR, (s.inodes i).Sound
  range : ∀ k < SUPER_NR, ∀ i, s.roots k = some i ∨ s.mounts k = some i → i < INODE_NR
  marked : ∀ i < INODE_NR, (s.inodes i).mount ≠ 0 → ∃ k < SUPER_NR, s.mounts k = some i
  root : s.roots 0 = some 0

/-! ## One slot is changed -/

/-- What is equal where the slots of inodes and buffers are not. -/
structure Frame (s t : State) : Prop where
  supers : t.supers = s.supers
  disk : t.disk = s.disk
  blocks : t.blocks = s.blocks
  held : t.held = s.held
  heldBufs : t.heldBufs = s.heldBufs

theorem Frame.refl (s : State) : Frame s s := ⟨rfl, rfl, rfl, rfl, rfl⟩

theorem Frame.trans {u : State} (h1 : Frame s t) (h2 : Frame t u) : Frame s u :=
  ⟨h2.supers.trans h1.supers, h2.disk.trans h1.disk, h2.blocks.trans h1.blocks, h2.held.trans h1.held, h2.heldBufs.trans h1.heldBufs⟩

theorem refs_congr (h : t.supers = s.supers) (i : Nat) : t.refs i = s.refs i := by
  unfold State.refs State.roots State.mounts
  rw [h]

theorem Frame.refs (h : Frame s t) (i : Nat) : t.refs i = s.refs i := refs_congr h.supers i

theorem Books.setInode {x : Inode} (h : Books ds bs s) (hi : i < INODE_NR) (hcount : x.count = s.held i + s.refs i + ds'.count i)
    (hds : ∀ j, j ≠ i → ds'.count j = ds.count j)
    (hbs : ∀ b, bs'.count b + (if x.buf = some b then 1 else 0) = bs.count b + if (s.inodes i).buf = some b then 1 else 0)
    (hx : x.Sound) (hmark : x.mount ≠ 0 → ∃ k < SUPER_NR, s.mounts k = some i) : Books ds' bs' (s.setInode i x) := by
  refine ⟨?_, ?_, ?_, h.range, ?_, h.root⟩
  · intro j hj
    by_cases hji : j = i
    · subst hji
      rw [setInode_same]
      exact hcount
    · rw [setInode_other s x hji, hds j hji]
      exact h.count j hj
  · intro b
    have hb := h.bufs b
    have hupd : (s.setInode i x).inodeBufs = update s.inodeBufs i x.buf := by
      funext j
      by_cases hji : j = i
      · subst hji
        unfold State.inodeBufs
        rw [setInode_same, update_self]
      · unfold State.inodeBufs
        rw [setInode_other s x hji, update_of_ne hji]
    have ht := tally_update (S := inodeSlots) (g := s.inodeBufs) (v := x.buf) (a := b) (mem_inodeSlots.2 hi)
    have hsup : (s.setInode i x).superBufs = s.superBufs := rfl
    have h1 := hbs b
    unfold State.bufRefs at hb ⊢
    rw [hupd, hsup]
    change tally inodeSlots (update s.inodeBufs i x.buf) b + (if (s.inodes i).buf = some b then 1 else 0) = _ at ht
    change s.bufs b = s.heldBufs b + _ + _
    omega
  · intro j hj
    by_cases hji : j = i
    · subst hji
      rw [setInode_same]
      exact hx
    · rw [setInode_other s x hji]
      exact h.inode j hj
  · intro j hj
    by_cases hji : j = i
    · subst hji
      rw [setInode_same]
      exact hmark
    · rw [setInode_other s x hji]
      exact h.marked j hj

def Super.points (x : Super) (i : Nat) : Nat := (if x.live x.iroot = some i then 1 else 0) + if x.live x.imount = some i then 1 else 0

def Super.pointsBuf (x : Super) (b : Buf) : Nat := if x.live x.buf = some b then 1 else 0

theorem refs_setSuper (s : State) (x : Super) (hk : k < SUPER_NR) (i : Nat) :
    (s.setSuper k x).refs i + (s.supers k).points i = s.refs i + x.points i := by
  have hr : (s.setSuper k x).roots = update s.roots k (x.live x.iroot) := by
    funext j
    unfold State.roots
    by_cases hj : j = k
    · subst hj
      rw [setSuper_same, update_self]
    · rw [setSuper_other s x hj, update_of_ne hj]
  have hm : (s.setSuper k x).mounts = update s.mounts k (x.live x.imount) := by
    funext j
    unfold State.mounts
    by_cases hj : j = k
    · subst hj
      rw [setSuper_same, update_self]
    · rw [setSuper_other s x hj, update_of_ne hj]
  have h1 := tally_update (S := superSlots) (g := s.roots) (v := x.live x.iroot) (a := i) (mem_superSlots.2 hk)
  have h2 := tally_update (S := superSlots) (g := s.mounts) (v := x.live x.imount) (a := i) (mem_superSlots.2 hk)
  rw [← hr] at h1
  rw [← hm] at h2
  unfold State.refs Super.points
  change _ + (if (s.supers k).live (s.supers k).iroot = some i then 1 else 0) = _ at h1
  change _ + (if (s.supers k).live (s.supers k).imount = some i then 1 else 0) = _ at h2
  omega

theorem bufRefs_setSuper (s : State) (x : Super) (hk : k < SUPER_NR) (b : Buf) :
    (s.setSuper k x).bufRefs b + (s.supers k).pointsBuf b = s.bufRefs b + x.pointsBuf b := by
  have hr : (s.setSuper k x).superBufs = update s.superBufs k (x.live x.buf) := by
    funext j
    unfold State.superBufs
    by_cases hj : j = k
    · subst hj
      rw [setSuper_same, update_self]
    · rw [setSuper_other s x hj, update_of_ne hj]
  have h1 := tally_update (S := superSlots) (g := s.superBufs) (v := x.live x.buf) (a := b) (mem_superSlots.2 hk)
  rw [← hr] at h1
  unfold State.bufRefs Super.pointsBuf
  change _ + (if (s.supers k).live (s.supers k).buf = some b then 1 else 0) = _ at h1
  have h2 : (s.setSuper k x).inodeBufs = s.inodeBufs := rfl
  rw [h2]
  omega

theorem Books.setSuper {x : Super} (h : Books ds bs s) (hk : k < SUPER_NR)
    (hds : ∀ i, ds'.count i + x.points i = ds.count i + (s.supers k).points i)
    (hbs : ∀ b, bs'.count b + x.pointsBuf b = bs.count b + (s.supers k).pointsBuf b)
    (hrange : ∀ i, x.live x.iroot = some i ∨ x.live x.imount = some i → i < INODE_NR)
    (hmark : ∀ i < INODE_NR, (s.inodes i).mount ≠ 0 → s.mounts k = some i → x.live x.imount = some i)
    (hroot : k = 0 → x.live x.iroot = some 0) : Books ds' bs' (s.setSuper k x) := by
  refine ⟨?_, ?_, h.inode, ?_, ?_, ?_⟩
  · intro i hi
    have h1 := h.count i hi
    have h2 := refs_setSuper s x hk i
    have h3 := hds i
    change (s.inodes i).count = s.held i + _ + _
    omega
  · intro b
    have h1 := h.bufs b
    have h2 := bufRefs_setSuper s x hk b
    have h3 := hbs b
    change s.bufs b = s.heldBufs b + _ + _
    omega
  · intro j hj i
    unfold State.roots State.mounts
    by_cases hjk : j = k
    · subst hjk
      rw [setSuper_same]
      exact hrange i
    · rw [setSuper_other s x hjk]
      exact h.range j hj i
  · intro i hi hne
    obtain ⟨j, hj, hm⟩ := h.marked i hi hne
    refine ⟨j, hj, ?_⟩
    unfold State.mounts
    by_cases hjk : j = k
    · subst hjk
      rw [setSuper_same]
      exact hmark i hi hne hm
    · rw [setSuper_other s x hjk]
      exact hm
  · unfold State.roots
    by_cases h0 : 0 = k
    · subst h0
      exact hroot rfl
    · rw [setSuper_other s x h0]
      exact h.root

/-! ## Buffers -/

theorem bread_unreadable (h : s.disk b.dev = .unreadable) : bread s b = none := by
  unfold bread
  rw [h]

theorem bread_readable (h : s.disk b.dev ≠ .unreadable) : bread s b = some (s.getBuf b) := by
  unfold bread
  split
  · rename_i hu
    exact absurd hu h
  · rfl

theorem count_cons_buf (c : Buf) (bs : List Buf) (b : Buf) : (c :: bs).count b = bs.count b + if some c = some b then 1 else 0 := by
  rw [count_cons]
  by_cases h : c = b
  · rw [if_pos (beq_iff_eq.2 h), if_pos (congrArg some h)]
  · rw [if_neg fun he => h (beq_iff_eq.1 he), if_neg fun he => h (Option.some.inj he)]

theorem Books.getBuf (h : Books ds bs s) (b : Buf) : Books ds (b :: bs) (s.getBuf b) := by
  refine ⟨h.count, ?_, h.inode, h.range, h.marked, h.root⟩
  intro c
  have hc := h.bufs c
  have hr : (s.getBuf b).bufRefs c = s.bufRefs c := rfl
  rw [hr]
  unfold State.getBuf
  dsimp only
  by_cases hcb : c = b
  · subst hcb
    rw [update_self, count_cons_self]
    omega
  · rw [update_of_ne hcb, count_cons_of_ne (Ne.symm hcb)]
    exact hc

def State.putBuf (s : State) (b : Buf) : State := { s with bufs := Function.update s.bufs b (s.bufs b - 1) }

theorem brelse_ok (h : s.bufs b ≠ 0) : brelse s (some b) = .ok (s.putBuf b) := by
  unfold brelse
  dsimp only
  rw [assert_ok h]
  rfl

theorem Books.putBuf (h : Books ds (b :: bs) s) : Books ds bs (s.putBuf b) := by
  refine ⟨h.count, ?_, h.inode, h.range, h.marked, h.root⟩
  intro c
  have hc := h.bufs c
  have hr : (s.putBuf b).bufRefs c = s.bufRefs c := rfl
  rw [hr]
  unfold State.putBuf
  dsimp only
  by_cases hcb : c = b
  · subst hcb
    rw [count_cons_self] at hc
    rw [update_self]
    omega
  · rw [count_cons_of_ne (Ne.symm hcb)] at hc
    rw [update_of_ne hcb]
    exact hc

theorem Books.brelse (h : Books ds (b :: bs) s) : brelse s (some b) = .ok (s.putBuf b) ∧ Books ds bs (s.putBuf b) := by
  refine ⟨brelse_ok ?_, h.putBuf⟩
  have hb := h.bufs b
  rw [count_cons_self] at hb
  omega

@[simp] theorem putBuf_getBuf (s : State) (b : Buf) : (s.getBuf b).putBuf b = s := by
  unfold State.putBuf State.getBuf
  simp

theorem brelse_getBuf (s : State) (b : Buf) : Mount.brelse (s.getBuf b) (some b) = .ok s := by
  rw [brelse_ok, putBuf_getBuf]
  unfold State.getBuf
  simp

theorem Books.leak (h : Books ds bs s) (cs : List Buf) : Books ds bs (s.leak cs) := by
  refine ⟨h.count, ?_, h.inode, h.range, h.marked, h.root⟩
  intro b
  have hb := h.bufs b
  change s.bufs b + cs.count b = s.heldBufs b + cs.count b + s.bufRefs b + bs.count b
  omega

end Onix.Mount
