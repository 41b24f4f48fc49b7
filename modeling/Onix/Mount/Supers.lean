/-
The table of superblocks between the calls, and what is found through it: `get_super`, `iget` and `read_super`, which fill a slot that was
free, and `put_super`, which frees it. A slot that is being filled or freed stands over a state in which it is free.
-/
import Onix.Mount.Inodes

namespace Onix.Mount

open Onix.Lib

variable {s t u : State} {ds : List Nat} {bs : List Buf} {i j k n dev : Nat} {b : Buf} {y : Super}

def Bad (e : Stop) : Prop := e ≠ .panic

theorem sat_panic {α : Type} {Q : α → Prop} : Sat Bad (.error .panic : Except Stop α) Q := fun h => h rfl

/-! ## The table -/

/-- A superblock in use has a root of its own and is mounted on an inode of another. -/
structure Mounted (s : State) (k : Nat) : Prop where
  used : (s.supers k).type ≠ .none
  count : (s.supers k).count = 1
  root : ∃ r, (s.supers k).iroot = some r ∧ (s.inodes r).super = some k ∧ (s.inodes r).kind ≠ .block
  on : ∃ m, (s.supers k).imount = some m ∧ (s.inodes m).mount = (s.supers k).dev ∧ (k ≠ 0 → (s.inodes m).super ≠ some k)

structure Idle (x : Super) : Prop where
  type : x.type = .none
  count : x.count = 0
  imount : x.imount = none

structure Table (s : State) : Prop where
  slot : ∀ k < SUPER_NR, Idle (s.supers k) ∨ Mounted s k
  distinct : ∀ j < SUPER_NR, ∀ k < SUPER_NR, (s.supers j).type ≠ .none → (s.supers k).type ≠ .none → (s.supers j).dev = (s.supers k).dev → j = k
  inode : ∀ i < INODE_NR, (s.inodes i).type ≠ .none → ∃ k < SUPER_NR, (s.inodes i).super = some k ∧ (s.supers k).type ≠ .none ∧
    (s.inodes i).dev = (s.supers k).dev
  zero : (s.supers 0).imount = some 0

theorem Table.idle (h : Table s) (hk : k < SUPER_NR) (ht : (s.supers k).type = .none) : Idle (s.supers k) :=
  (h.slot k hk).resolve_right fun hm => hm.used ht

theorem Table.mounted (h : Table s) (hk : k < SUPER_NR) (ht : (s.supers k).type ≠ .none) : Mounted s k :=
  (h.slot k hk).resolve_left fun hi => ht hi.type

theorem roots_used (h : s.roots k = some i) : (s.supers k).type ≠ .none ∧ (s.supers k).iroot = some i := by
  unfold State.roots Super.live at h
  split at h
  · cases h
  · rename_i hne
    exact ⟨hne, h⟩

theorem mounts_used (h : s.mounts k = some i) : (s.supers k).type ≠ .none ∧ (s.supers k).imount = some i := by
  unfold State.mounts Super.live at h
  split at h
  · cases h
  · rename_i hne
    exact ⟨hne, h⟩

theorem roots_of (hne : (s.supers k).type ≠ .none) (h : (s.supers k).iroot = some i) : s.roots k = some i := by
  unfold State.roots Super.live
  rw [if_neg hne, h]

theorem mounts_of (hne : (s.supers k).type ≠ .none) (h : (s.supers k).imount = some i) : s.mounts k = some i := by
  unfold State.mounts Super.live
  rw [if_neg hne, h]

theorem Books.pointed (h : Books ds bs s) (hk : k < SUPER_NR) (hp : s.roots k = some i ∨ s.mounts k = some i) :
    i < INODE_NR ∧ 0 < s.refs i ∧ (s.inodes i).type ≠ .none := by
  have hi := h.range k hk i hp
  have hpos : 0 < s.refs i := by
    unfold State.refs
    rcases hp with hp | hp
    · have := tally_pos.2 ⟨k, mem_superSlots.2 hk, hp⟩
      omega
    · have := tally_pos.2 ⟨k, mem_superSlots.2 hk, hp⟩
      omega
  refine ⟨hi, hpos, fun ht => ?_⟩
  have h1 := (h.inode i hi).free.1 ht
  have h2 := h.count i hi
  omega

theorem Mounted.of (h : Mounted s k) (he : t.supers k = s.supers k)
    (hr : ∀ r, s.roots k = some r → (t.inodes r).super = (s.inodes r).super ∧ ((s.inodes r).kind ≠ .block → (t.inodes r).kind ≠ .block))
    (hm : ∀ m, s.mounts k = some m → (t.inodes m).mount = (s.inodes m).mount ∧ (t.inodes m).super = (s.inodes m).super) : Mounted t k := by
  obtain ⟨r, h1, h2, h3⟩ := h.root
  obtain ⟨m, h4, h5, h6⟩ := h.on
  obtain ⟨h7, h8⟩ := hr r (roots_of h.used h1)
  obtain ⟨h9, h10⟩ := hm m (mounts_of h.used h4)
  refine ⟨?_, ?_, ⟨r, ?_, h7.trans h2, h8 h3⟩, ⟨m, ?_, ?_, ?_⟩⟩
  · rw [he]
    exact h.used
  · rw [he]
    exact h.count
  · rw [he]
    exact h1
  · rw [he]
    exact h4
  · rw [he, h9]
    exact h5
  · rw [h10]
    exact h6

theorem Mounted.keep (h : Mounted s k) (hb : Books ds bs s) (hk : k < SUPER_NR) (he : t.supers k = s.supers k)
    (ha : ∀ i < INODE_NR, 0 < s.refs i → Alike (s.inodes i) (t.inodes i)) : Mounted t k := by
  refine h.of he (fun r hr => ?_) fun m hm => ?_
  · obtain ⟨h1, h2, -⟩ := hb.pointed hk (.inl hr)
    exact ⟨(ha r h1 h2).super, (ha r h1 h2).kind⟩
  · obtain ⟨h1, h2, -⟩ := hb.pointed hk (.inr hm)
    exact ⟨(ha m h1 h2).mount, (ha m h1 h2).super⟩

theorem Table.inodes (h : Table s) (hb : Books ds bs s) (hs : t.supers = s.supers) (hk : ∀ i < INODE_NR, 0 < s.refs i → Alike (s.inodes i) (t.inodes i))
    (hn : ∀ i < INODE_NR, (t.inodes i).type ≠ .none → Alike (s.inodes i) (t.inodes i) ∨
      ∃ k < SUPER_NR, (t.inodes i).super = some k ∧ (s.supers k).type ≠ .none ∧ (t.inodes i).dev = (s.supers k).dev) : Table t := by
  refine ⟨fun k hlt => ?_, ?_, fun i hi hne => ?_, ?_⟩
  · rcases h.slot k hlt with hidle | hm
    · left
      rw [hs]
      exact hidle
    · exact .inr (hm.keep hb hlt (congrFun hs k) hk)
  · rw [hs]
    exact h.distinct
  · rw [hs]
    rcases hn i hi hne with ha | hx
    · rw [ha.super, ha.dev]
      rw [ha.type] at hne
      exact h.inode i hi hne
    · exact hx
  · rw [hs]
    exact h.zero

theorem Table.frees (h : Table s) (hb : Books ds bs s) {ds' : List Nat} {bs' : List Buf} (hb' : Books ds' bs' t) (hf : Frame s t)
    (hfr : Frees s t) : Table t := by
  refine h.inodes hb hf.supers (fun i hi hpos => (hfr i hi).resolve_left fun ht => ?_) fun i hi hne => .inl ((hfr i hi).resolve_left hne)
  have h1 := (hb'.inode i hi).free.1 ht
  have h2 := hb'.count i hi
  rw [hf.refs] at h2
  omega

/-! ## `get_super` -/

theorem getSuper_some (h : getSuper s dev = some k) : k < SUPER_NR ∧ (s.supers k).type ≠ .none ∧ (s.supers k).dev = dev := by
  obtain ⟨-, hk, hp⟩ := findFrom_some h
  obtain ⟨h1, h2⟩ := of_decide_eq_true hp
  exact ⟨by omega, h1, h2⟩

theorem getSuper_none (h : getSuper s dev = none) (hk : k < SUPER_NR) (hne : (s.supers k).type ≠ .none) : (s.supers k).dev ≠ dev := by
  have hp := findFrom_none h (Nat.zero_le k) (by omega)
  exact fun hd => of_decide_eq_false hp ⟨hne, hd⟩

theorem getSuper_exists (hk : k < SUPER_NR) (hne : (s.supers k).type ≠ .none) : ∃ j, getSuper s (s.supers k).dev = some j :=
  findFrom_isSome (Nat.zero_le k) (by omega) (decide_eq_true ⟨hne, rfl⟩)

theorem getSuper_over (hy : y.type ≠ .none) (hk : k < SUPER_NR) :
    ∃ j, getSuper (s.setSuper k y) y.dev = some j ∧ (j = k ∨ j < SUPER_NR ∧ j ≠ k ∧ (s.supers j).type ≠ .none ∧ (s.supers j).dev = y.dev) := by
  obtain ⟨j, hj⟩ := getSuper_exists (s := s.setSuper k y) hk (by rw [setSuper_same]; exact hy)
  rw [setSuper_same] at hj
  refine ⟨j, hj, ?_⟩
  by_cases hjk : j = k
  · exact .inl hjk
  · obtain ⟨h1, h2, h3⟩ := getSuper_some hj
    rw [setSuper_other s y hjk] at h2 h3
    exact .inr ⟨h1, hjk, h2, h3⟩

/-! ## Inodes that are read -/

theorem Books.born {x : Inode} (h : Books ds bs s) (hi : i < INODE_NR) (ht : (s.inodes i).type = .none) (hx : x.type ≠ .none)
    (hop : x.op = some x.type) (hc : x.count = 1) (hm : x.mount = 0) (hb : x.buf = some b) :
    Books (i :: ds) bs ((s.getBuf b).setInode i x) ∧ Grows s ((s.getBuf b).setInode i x) := by
  have hcount := h.count i hi
  have hs := h.inode i hi
  rw [hs.free.1 ht] at hcount
  refine ⟨(h.getBuf b).setInode hi ?_ (fun j hj => List.count_cons_of_ne (Ne.symm hj)) ?_ ?_ (fun hne => absurd hm hne), ?_⟩
  · rw [hc, List.count_cons_self]
    change 1 = s.held i + s.refs i + _
    omega
  · intro c
    have hbuf : ((s.getBuf b).inodes i).buf = none := (hs.clean ht).1
    rw [hbuf, hb, count_cons_buf, if_neg (show ¬ (none : Option Buf) = some c from nofun), Nat.add_zero]
  · refine ⟨⟨fun h => absurd h hx, fun h => ?_⟩, fun h => absurd h hx, fun _ => ⟨hop, ?_⟩⟩
    · rw [hc] at h
      cases h
    · rw [hb]
      exact fun h => nomatch h
  · intro j _ hj
    have hji : j ≠ i := fun h => hj (h ▸ ht)
    rw [setInode_other _ x hji]
    exact .refl _

theorem Books.hold (h : Books ds bs s) (hi : i < INODE_NR) (hne : (s.inodes i).type ≠ .none) : Books (i :: ds) bs (s.hold i) := by
  have hs := h.inode i hi
  refine h.setInode hi ?_ (fun j hj => List.count_cons_of_ne (Ne.symm hj)) (fun _ => rfl) ?_ (h.marked i hi)
  · have := h.count i hi
    rw [List.count_cons_self]
    dsimp only
    omega
  · exact ⟨⟨fun ht => absurd ht hne, fun h0 => nomatch h0⟩, fun ht => absurd ht hne, hs.used⟩

theorem hold_grows (s : State) (i : Nat) : Grows s (s.hold i) := by
  refine (OneSlot.setInode s i _).grows fun _ => ?_
  rw [setInode_same]
  exact ⟨rfl, rfl, rfl, rfl, rfl, id⟩

theorem getFreeInode_spec (h : Books ds bs s) :
    getFreeInode s = .error .panic ∨ ∃ i < INODE_NR, (s.inodes i).type = .none ∧ getFreeInode s = .ok i := by
  unfold getFreeInode
  cases hf : findFrom (fun i => (s.inodes i).type = .none) INODE_NR 0 with
  | none => exact .inl rfl
  | some i =>
    obtain ⟨-, hi, ht⟩ := findFrom_some hf
    have ht : (s.inodes i).type = .none := of_decide_eq_true ht
    obtain ⟨h1, h2, h3, -⟩ := (h.inode i hi).clean ht
    refine .inr ⟨i, hi, ht, ?_⟩
    dsimp only
    rw [assert_ok ⟨h1, h2, h3⟩]
    rfl

/-! ## Paths -/

theorem Found.take_spec {x : Found} (h : Books ds bs s) (ht : Table s) (hx : x.Ok s) :
    Books (x.slot :: ds) bs (x.take s) ∧ Frame s (x.take s) ∧ Grows s (x.take s) ∧ Table (x.take s) := by
  obtain ⟨hi, hx⟩ := hx
  unfold Found.take
  cases hf : x.fresh with
  | none =>
    rw [hf] at hx
    have hg := hold_grows s x.slot
    refine ⟨h.hold hi hx, (OneSlot.setInode ..).toFrame, hg, ht.inodes h rfl (fun i hi hpos => ?_) fun i hi hne => .inl ?_⟩
    · refine hg i hi fun hn => ?_
      have h1 := (h.inode i hi).free.1 hn
      have h2 := h.count i hi
      omega
    · refine hg i hi fun hn => hne ?_
      by_cases hix : i = x.slot
      · exact absurd (hix ▸ hn) hx
      · unfold State.hold
        rw [setInode_other _ _ hix]
        exact hn
  | some inode =>
    rw [hf] at hx
    dsimp only at hx ⊢
    obtain ⟨hfree, hty, hop, hc, hm, hbuf, hsup⟩ := hx
    have hnone : (s.inodes x.slot).type = .none := of_decide_eq_true (findFrom_some hfree).2.2
    cases hb : inode.buf with
    | none => exact absurd hb hbuf
    | some b =>
      obtain ⟨h1, h2⟩ := h.born hi hnone hty hop hc hm hb
      have hother : ∀ i, i ≠ x.slot → ((s.getBuf b).setInode x.slot inode).inodes i = s.inodes i := fun i hix => setInode_other _ _ hix
      refine ⟨h1, ⟨rfl, rfl, rfl, rfl, rfl⟩, h2, ht.inodes h rfl (fun i hi hpos => h2 i hi fun hn => ?_) fun i _ hne => ?_⟩
      · have h3 := (h.inode i hi).free.1 hn
        have h4 := h.count i hi
        omega
      · by_cases hix : i = x.slot
        · subst hix
          right
          rw [setInode_same]
          cases hk : inode.super with
          | none =>
            rw [hk] at hsup
            exact hsup.elim
          | some k =>
            rw [hk] at hsup
            exact ⟨k, hsup.1, rfl, hsup.2.1, hsup.2.2.1⟩
        · left
          rw [hother i hix]
          exact .refl _

theorem Table.leak (h : Table s) (cs : List Buf) : Table (s.leak cs) :=
  ⟨fun k hk => (h.slot k hk).imp_right fun hm => ⟨hm.used, hm.count, hm.root, hm.on⟩, h.distinct, h.inode, h.zero⟩

def Path.slots (p : Path) : List Nat := (p.found.map Found.slot).toList

theorem Path.slots_none {p : Path} (h : p.found = none) : p.slots = [] := by
  unfold Path.slots
  rw [h]
  rfl

theorem Path.slots_some {p : Path} {x : Found} (h : p.found = some x) : p.slots = [x.slot] := by
  unfold Path.slots
  rw [h]
  rfl

theorem Path.walk_spec {p : Path} (h : Books ds bs s) (ht : Table s) (hp : p.Ok s) :
    Books (p.slots ++ ds) bs (p.walk s) ∧ Frame (s.leak p.leaks) (p.walk s) ∧ Grows s (p.walk s) ∧ Table (p.walk s) := by
  unfold Path.walk Path.slots
  unfold Path.Ok at hp
  cases hf : p.found with
  | none => exact ⟨h.leak _, .refl _, .refl _, ht.leak _⟩
  | some x =>
    rw [hf] at hp
    exact Found.take_spec (s := s.leak p.leaks) (h.leak _) (ht.leak _) hp

end Onix.Mount
