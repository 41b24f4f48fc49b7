/-
The ledger of a call: every count is what it was when the call began and what the call holds now. `Ledger B refs held` says it of a call
that began at `B` and holds the inodes `refs` and the buffers `held`; taking and giving back a reference moves it from one list to the next.
-/
import Onix.Lib.Tally
import Onix.Namei.Calls

namespace Onix.Namei

open Function Onix.Lib

/-! ## What is kept -/

/-- Where references are held outside of a call: the directories of the task, the roots and the mount points. -/
structure Roots where
  iroot : Ino
  ipwd : Ino
  superRoot : SuperId → Option Ino
  superMount : SuperId → Option Ino

/-- Which inode of a disk a slot holds, and the buffer it is in. -/
structure Ident where
  dev : Int
  nr : Nat
  buf : Option Buf
  super : Option SuperId

def State.roots (s : State) : Roots := ⟨s.task.iroot, s.task.ipwd, fun k => (s.super k).iroot, fun k => (s.super k).imount⟩

def Slot.ident (x : Slot) : Ident := ⟨x.dev, x.nr, x.buf, x.super⟩

def State.inodeBufs (s : State) (b : Buf) : Nat := tally Finset.univ (fun i => (s.slot i).buf) b

/-- What a call found: the counts of the inodes, those of the buffers without the references of inodes and lost ones, and the rest. -/
structure Base where
  count : Ino → Nat
  bufs : Buf → Int
  ident : Ino → Ident
  roots : Roots

structure Ledger (B : Base) (refs : List Ino) (held : List Buf) (s : State) : Prop where
  counts : ∀ i, (s.slot i).count = B.count i + refs.count i
  bufs : ∀ b, (s.bufs b : Int) = B.bufs b + s.inodeBufs b + held.count b + s.lost.count b
  free : ∀ i, (s.slot i).type = .none → (s.slot i).count = 0
  listed : ∀ k i, i ∈ (s.super k).inodeList → (s.slot i).type ≠ .none
  same : ∀ i, 0 < B.count i → (s.slot i).ident = B.ident i
  roots : s.roots = B.roots

/-- Everything that is held outside of the call has a reference. -/
structure Base.Rooted (B : Base) : Prop where
  iroot : 0 < B.count B.roots.iroot
  ipwd : 0 < B.count B.roots.ipwd
  superRoot : ∀ k i, B.roots.superRoot k = some i → 0 < B.count i
  superMount : ∀ k i, B.roots.superMount k = some i → 0 < B.count i

variable {B : Base} {refs refs' : List Ino} {held held' : List Buf} {s t : State} {i j : Ino} {b : Buf} {p : Ptr}

namespace Ledger

theorem perm (h : Ledger B refs held s) (hr : refs.Perm refs') (hb : held.Perm held') : Ledger B refs' held' s where
  counts := fun i => by rw [← hr.count_eq]; exact h.counts i
  bufs := fun b => by rw [← hb.count_eq]; exact h.bufs b
  free := h.free
  listed := h.listed
  same := h.same
  roots := h.roots

theorem swapHeld {b c : Buf} (h : Ledger B refs (b :: c :: held) s) : Ledger B refs (c :: b :: held) s :=
  h.perm (.refl _) (.swap _ _ _)

theorem swapRefs (h : Ledger B (i :: j :: refs) held s) : Ledger B (j :: i :: refs) held s :=
  h.perm (.swap _ _ _) (.refl _)

theorem used (h : Ledger B refs held s) (hi : 0 < B.count i) : (s.slot i).type ≠ .none := by
  intro hn
  have h0 := h.free i hn
  rw [h.counts i] at h0
  omega

theorem setData (h : Ledger B refs held s) (b : Buf) (x : Bytes) : Ledger B refs held (s.setData b x) where
  counts := h.counts
  bufs := h.bufs
  free := h.free
  listed := h.listed
  same := h.same
  roots := h.roots

theorem inodeBufs_setSlot (s : State) (i : Ino) (x : Slot) (b : Buf) :
    (s.setSlot i x).inodeBufs b + (if (s.slot i).buf = some b then 1 else 0) = s.inodeBufs b + if x.buf = some b then 1 else 0 := by
  have heq : (fun j => ((s.setSlot i x).slot j).buf) = update (fun j => (s.slot j).buf) i x.buf := by
    funext j
    unfold State.setSlot
    by_cases hj : j = i
    · subst hj
      simp
    · simp [hj]
  unfold State.inodeBufs
  rw [heq]
  exact tally_update (Finset.mem_univ i)

@[simp] theorem setSlot_self (s : State) (i : Ino) (x : Slot) : (s.setSlot i x).slot i = x := update_self ..

@[simp] theorem setSlot_setSlot (s : State) (i : Ino) (x y : Slot) : (s.setSlot i x).setSlot i y = s.setSlot i y := by
  unfold State.setSlot
  rw [update_idem]

theorem setSlot_ne (s : State) (x : Slot) (h : j ≠ i) : (s.setSlot i x).slot j = s.slot j := update_of_ne h _ _

theorem setSlot (h : Ledger B refs held s) (x : Slot) (hbuf : x.buf = (s.slot i).buf) (hcount : x.count = B.count i + refs'.count i)
    (hrefs : ∀ j, j ≠ i → refs'.count j = refs.count j) (htype : x.type ≠ .none) (hid : 0 < B.count i → x.ident = (s.slot i).ident) :
    Ledger B refs' held (s.setSlot i x) where
  counts j := by
    by_cases hj : j = i
    · subst hj
      rw [setSlot_self]
      exact hcount
    · rw [setSlot_ne s x hj, h.counts j, hrefs j hj]
  bufs b := by
    have htally := inodeBufs_setSlot s i x b
    rw [hbuf] at htally
    have hb := h.bufs b
    show (s.bufs b : Int) = _ + _ + _ + (s.lost.count b : Int)
    omega
  free j hj := by
    by_cases hji : j = i
    · subst hji
      rw [setSlot_self] at hj
      exact absurd hj htype
    · rw [setSlot_ne s x hji] at hj ⊢
      exact h.free j hj
  listed k j hj := by
    by_cases hji : j = i
    · subst hji
      rw [setSlot_self]
      exact htype
    · rw [setSlot_ne s x hji]
      exact h.listed k j hj
  same j hj := by
    by_cases hji : j = i
    · subst hji
      rw [setSlot_self, hid hj]
      exact h.same j hj
    · rw [setSlot_ne s x hji]
      exact h.same j hj
  roots := h.roots

end Ledger

/-! ## Data -/

theorem put_leads (h : Ledger B refs held s) (p : Ptr) (k : Nat) (l : List (BitVec 8)) :
    Leads (put p k l) s fun _ => Ledger B refs held :=
  Leads.modify (h.setData _ _)

theorem put8_leads (h : Ledger B refs held s) (p : Ptr) (k v : Nat) : Leads (put8 p k v) s fun _ => Ledger B refs held :=
  put_leads h p k _

theorem put16_leads (h : Ledger B refs held s) (p : Ptr) (k v : Nat) : Leads (put16 p k v) s fun _ => Ledger B refs held :=
  put_leads h p k _

theorem put32_leads (h : Ledger B refs held s) (p : Ptr) (k v : Nat) : Leads (put32 p k v) s fun _ => Ledger B refs held :=
  put_leads h p k _

theorem setInode_leads {f : Slot → Slot} (h : Ledger B (i :: refs) held s) (hf : ∀ x, (f x).buf = x.buf ∧ (f x).count = x.count ∧
    (f x).type = x.type) (hid : 0 < B.count i → (f (s.slot i)).ident = (s.slot i).ident) :
    Leads (setInode i f) s fun _ => Ledger B (i :: refs) held := by
  obtain ⟨hbuf, hcount, htype⟩ := hf (s.slot i)
  have hpos := h.counts i
  rw [List.count_cons_self] at hpos
  refine Leads.modify (h.setSlot _ hbuf (hcount.trans (h.counts i)) (fun _ _ => rfl) ?_ hid)
  rw [htype]
  intro hn
  have h0 := h.free i hn
  omega

/-! ## Buffers -/

theorem getBuf_leads (h : Ledger B refs held s) (b : Buf) : Leads (getBuf b) s fun _ => Ledger B refs (b :: held) := by
  refine Leads.modify { h with bufs := fun c => ?_ }
  have hc := h.bufs c
  show ((update s.bufs b (s.bufs b + 1) c : Nat) : Int) = B.bufs c + s.inodeBufs c + _ + s.lost.count c
  by_cases hcb : c = b
  · subst hcb
    rw [update_self, List.count_cons_self]
    omega
  · rw [update_of_ne hcb, List.count_cons_of_ne (Ne.symm hcb)]
    exact hc

theorem bread_leads (h : Ledger B refs held s) (dev : Int) (block size : Nat) :
    Leads (bread dev block size) s fun r t => Ledger B refs (r.toList ++ held) t := by
  have hr : Ledger B refs held { s with reads := s.reads + 1 } := { h with }
  refine Leads.get (Leads.bind (R := fun _ => Ledger B refs held) (Leads.set hr) fun _ t ht => ?_)
  refine Leads.ite (fun _ => Leads.pure ht) fun _ => ?_
  exact (getBuf_leads ht _).bind fun _ u hu => Leads.pure hu

theorem bread_slot (dev : Int) (block size : Nat) : Leads (bread dev block size) s fun _ t => t.slot = s.slot := by
  refine Leads.get (Leads.bind (R := fun _ t => t.slot = s.slot) (Leads.set rfl) fun _ t ht => ?_)
  refine Leads.ite (fun _ => Leads.pure ht) fun _ => ?_
  exact Leads.bind (R := fun _ u => u.slot = s.slot) (Leads.modify ht) fun _ u hu => Leads.pure hu

theorem breadSure_leads {α : Type} {e : Stop} {Q : α → State → Prop} {f : Buf → Prog α} {dev : Int} {block size : Nat}
    (h : Ledger B refs held s) (hf : ∀ b t, Ledger B refs (b :: held) t → Leads (f b) t Q) :
    Leads (bread dev block size >>= fun b => demand e b >>= f) s Q := by
  refine (bread_leads h dev block size).bind fun r t ht => Leads.demand fun b hb => ?_
  subst hb
  exact hf b t ht

theorem brelse_eq (b : Option Buf) : Leads (brelse b) s fun _ t =>
    (∀ c, b = some c → s.bufs c ≠ 0) ∧ t = { s with bufs := fun c => if b = some c then s.bufs c - 1 else s.bufs c } := by
  cases b with
  | none =>
    refine Leads.pure ⟨nofun, ?_⟩
    simp
  | some b =>
    refine Leads.get (Leads.ensure fun hb => Leads.set ⟨fun c hc => ?_, ?_⟩)
    · cases hc
      exact hb
    · congr 1
      funext c
      by_cases hc : c = b
      · subst hc
        simp
      · rw [update_of_ne hc, if_neg fun h => hc (Option.some.inj h).symm]

theorem count_toList_append (b : Option Buf) (c : Buf) : (b.toList ++ held).count c = (if b = some c then 1 else 0) + held.count c := by
  cases b with
  | none => simp
  | some b =>
    by_cases hc : b = c
    · subst hc
      simp [Nat.add_comm]
    · rw [Option.toList_some, List.singleton_append, List.count_cons_of_ne hc, if_neg fun h => hc (Option.some.inj h), Nat.zero_add]

theorem brelse_leads {b : Option Buf} (h : Ledger B refs (b.toList ++ held) s) : Leads (brelse b) s fun _ => Ledger B refs held := by
  refine (brelse_eq b).mono fun _ t ⟨hpos, ht⟩ => ?_
  subst ht
  refine { h with bufs := fun c => ?_ }
  have hc := h.bufs c
  rw [count_toList_append] at hc
  show ((if b = some c then s.bufs c - 1 else s.bufs c : Nat) : Int) = B.bufs c + s.inodeBufs c + _ + s.lost.count c
  split
  · rename_i hb
    have := hpos c hb
    rw [if_pos hb] at hc
    omega
  · rename_i hb
    rw [if_neg hb] at hc
    omega

theorem lose_leads {b : Option Buf} (h : Ledger B refs (b.toList ++ held) s) : Leads (lose b) s fun _ => Ledger B refs held := by
  refine Leads.modify { h with bufs := fun c => ?_ }
  have hc := h.bufs c
  rw [count_toList_append] at hc
  show (s.bufs c : Int) = B.bufs c + s.inodeBufs c + _ + ((b.toList ++ s.lost).count c : Nat)
  rw [count_toList_append]
  omega

end Onix.Namei
