/-
Taking and giving back inodes: what `hold`, `iput`, `fit_inode`, `iget` and `new_inode` do to the ledger.
-/
import Onix.Namei.Ledger

namespace Onix.Namei

open List Onix.Lib

variable {B : Base} {refs : List Ino} {held : List Buf} {s : State} {i j : Ino} {k : SuperId} {dev : Int} {nr : Nat}

/-! ## One reference more -/

theorem count_cons_ne (h : j ≠ i) : (i :: refs).count j = refs.count j := count_cons_of_ne (Ne.symm h)

theorem hold_leads (h : Ledger B refs held s) (hi : (s.slot i).type ≠ .none) : Leads (hold i) s fun _ => Ledger B (i :: refs) held := by
  refine Leads.modify (h.setSlot _ rfl ?_ (fun j hj => count_cons_ne hj) hi fun _ => rfl)
  show (s.slot i).count + 1 = _
  rw [h.counts i, count_cons_self, Nat.add_assoc]

/-! ## One reference less -/

theorem setInode_eq (i : Ino) (f : Slot → Slot) : Leads (setInode i f) s fun _ t => t = s.setSlot i (f (s.slot i)) :=
  Leads.modify rfl

def State.unlist (s : State) (i : Ino) : State :=
  { s with super := fun k => { s.super k with inodeList := (s.super k).inodeList.filter fun j => j ≠ i } }

theorem listRemove_eq (i : Ino) : Leads (listRemove i) s fun _ t => t = s.unlist i :=
  Leads.get (Leads.ensure fun _ => Leads.set rfl)

theorem putFreeInode_eq (i : Ino) : Leads (putFreeInode i) s fun _ t => t = s.setSlot i { s.slot i with type := .none } := by
  refine Leads.ensure fun _ => Leads.get (Leads.ensure fun _ => (setInode_eq i _).bind ?_)
  rintro _ _ rfl
  exact Leads.get (Leads.ensure_last fun _ => rfl)

theorem vacate_leads (h : Ledger B refs held s) (hz : (s.slot i).count = 0) :
    Leads (do
      brelse (s.slot i).buf
      listRemove i
      setInode i fun x => { x with buf := none, desc := none, super := none, op := none }
      putFreeInode i) s fun _ => Ledger B refs held := by
  have hB : B.count i = 0 := by
    have := h.counts i
    omega
  refine (brelse_eq _).bind ?_
  rintro _ _ ⟨hpos, rfl⟩
  refine (listRemove_eq i).bind ?_
  rintro _ _ rfl
  refine (setInode_eq i _).bind ?_
  rintro _ _ rfl
  refine (putFreeInode_eq i).mono ?_
  rintro _ _ rfl
  rw [Ledger.setSlot_self, Ledger.setSlot_setSlot]
  let v := State.unlist { s with bufs := fun c => if (s.slot i).buf = some c then s.bufs c - 1 else s.bufs c } i
  let x : Slot := { s.slot i with type := .none, buf := none, desc := none, super := none, op := none }
  show Ledger B refs held (v.setSlot i x)
  constructor
  case counts =>
    intro j
    by_cases hj : j = i
    · subst hj
      rw [Ledger.setSlot_self]
      exact h.counts j
    · rw [Ledger.setSlot_ne _ _ hj]
      exact h.counts j
  case bufs =>
    intro c
    have htally : (v.setSlot i x).inodeBufs c + (if (s.slot i).buf = some c then 1 else 0) = s.inodeBufs c + 0 :=
      Ledger.inodeBufs_setSlot v i x c
    have hb := h.bufs c
    show ((if (s.slot i).buf = some c then s.bufs c - 1 else s.bufs c : Nat) : Int) = _ + _ + _ + (s.lost.count c : Int)
    split
    · rename_i hc
      have := hpos c hc
      rw [if_pos hc] at htally
      omega
    · rename_i hc
      rw [if_neg hc] at htally
      omega
  case free =>
    intro j hj
    by_cases hji : j = i
    · subst hji
      rw [Ledger.setSlot_self]
      exact hz
    · rw [Ledger.setSlot_ne _ _ hji] at hj ⊢
      exact h.free j hj
  case listed =>
    intro k j hj
    obtain ⟨hmem, hne⟩ := mem_filter.1 hj
    have hji : j ≠ i := of_decide_eq_true hne
    rw [Ledger.setSlot_ne _ _ hji]
    exact h.listed k j hmem
  case same =>
    intro j hj
    have hji : j ≠ i := by
      rintro rfl
      omega
    rw [Ledger.setSlot_ne _ _ hji]
    exact h.same j hj
  case roots => exact h.roots

theorem close_leads (h : Ledger B (i :: refs) held s) : Leads (close i) s fun _ => Ledger B refs held := by
  have hc := h.counts i
  rw [count_cons_self] at hc
  have hused : (s.slot i).type ≠ .none := by
    intro hn
    have h0 := h.free i hn
    omega
  refine (setInode_eq i _).bind ?_
  rintro _ t rfl
  have ht : Ledger B refs held (s.setSlot i { s.slot i with count := if (s.slot i).count = 0 then 2 ^ 32 - 1 else (s.slot i).count - 1 }) := by
    refine h.setSlot _ rfl ?_ (fun j hj => (count_cons_ne hj).symm) hused fun _ => rfl
    show (if (s.slot i).count = 0 then 2 ^ 32 - 1 else (s.slot i).count - 1) = _
    rw [if_neg (by omega)]
    omega
  refine Leads.get (Leads.ite (fun _ => Leads.pure ht) fun hz => ?_)
  exact vacate_leads ht (not_not.1 hz)

theorem minixClose_leads (h : Ledger B (i :: refs) held s) : Leads (minixClose i) s fun _ => Ledger B refs held :=
  Leads.get (Leads.ensure fun _ => Leads.demand fun _ _ => close_leads h)

theorem iput_leads {x : Option Ino} (h : Ledger B (x.toList ++ refs) held s) : Leads (iput x) s fun _ => Ledger B refs held := by
  cases x with
  | none => exact Leads.pure h
  | some i =>
    refine Leads.get (Leads.demand fun op _ => ?_)
    cases op with
    | minix => exact minixClose_leads h
    | iso9660 => exact close_leads h
    | none => exact Leads.fail
    | pipe => exact Leads.fail
    | socket => exact Leads.fail

/-! ## `fit_inode` -/

namespace Ledger

theorem superRoot_used (hB : B.Rooted) (h : Ledger B refs held s) (hr : (s.super k).iroot = some i) : (s.slot i).type ≠ .none := by
  have heq : B.roots.superRoot k = some i := by rw [← h.roots]; exact hr
  exact h.used (hB.superRoot k i heq)

theorem superMount_used (hB : B.Rooted) (h : Ledger B refs held s) (hr : (s.super k).imount = some i) : (s.slot i).type ≠ .none := by
  have heq : B.roots.superMount k = some i := by rw [← h.roots]; exact hr
  exact h.used (hB.superMount k i heq)

end Ledger

theorem fitInode_leads (hB : B.Rooted) (h : Ledger B (i :: refs) held s) :
    Leads (fitInode i) s fun r t => Ledger B (r :: refs) held t := by
  refine Leads.get (Leads.ite (fun _ => Leads.pure h) fun _ => Leads.demand fun k _ => ?_)
  refine (iput_leads (x := some i) h).bind fun _ t ht => Leads.get (Leads.demand fun r hr => ?_)
  exact (hold_leads ht (ht.superRoot_used hB hr)).bind fun _ u hu => Leads.pure hu

/-! ## `iget` -/

theorem findInode_leads (h : Ledger B refs held s) : Leads (findInode dev nr) s fun r t =>
    Ledger B refs held t ∧ ∀ i, r = some i → (t.slot i).type ≠ .none := by
  refine Leads.get (Leads.demand fun k _ => Leads.pure ⟨h, fun i hi => ?_⟩)
  exact h.listed k i (mem_of_find?_eq_some hi)

theorem getFreeInode_leads (h : Ledger B refs held s) : Leads getFreeInode s fun i t =>
    Ledger B refs held t ∧ (t.slot i).type = .none ∧ (t.slot i).buf = none := by
  refine Leads.get (Leads.demand fun i hi => Leads.ensure fun hnone => Leads.pure ⟨h, ?_, hnone.1⟩)
  have := find?_some hi
  exact of_decide_eq_true this

theorem occupy_leads {f : Slot → Slot} {b : Buf} (h : Ledger B refs (b :: held) s) (htype : (s.slot i).type = .none) (hbuf : (s.slot i).buf = none)
    (hf : ∀ x, (f x).type ≠ .none ∧ (f x).count = x.count + 1 ∧ (f x).buf = some b) :
    Leads (setInode i f) s fun _ t => Ledger B (i :: refs) held t ∧ (t.slot i).type ≠ .none := by
  obtain ⟨hftype, hfcount, hfbuf⟩ := hf (s.slot i)
  have hzero := h.free i htype
  have hcounts := h.counts i
  refine Leads.modify ⟨?_, ?_⟩
  case refine_2 =>
    rw [Ledger.setSlot_self]
    exact hftype
  constructor
  case counts =>
    intro j
    by_cases hj : j = i
    · subst hj
      rw [Ledger.setSlot_self, hfcount, count_cons_self]
      omega
    · rw [Ledger.setSlot_ne _ _ hj, count_cons_ne hj]
      exact h.counts j
  case bufs =>
    intro c
    have htally := Ledger.inodeBufs_setSlot s i (f (s.slot i)) c
    rw [hbuf, hfbuf, if_neg nofun] at htally
    have hb := h.bufs c
    show (s.bufs c : Int) = _ + _ + _ + (s.lost.count c : Int)
    by_cases hc : b = c
    · subst hc
      rw [if_pos rfl] at htally
      rw [count_cons_self] at hb
      omega
    · rw [if_neg fun h => hc (Option.some.inj h)] at htally
      rw [count_cons_of_ne hc] at hb
      omega
  case free =>
    intro j hj
    by_cases hji : j = i
    · subst hji
      rw [Ledger.setSlot_self] at hj
      exact absurd hj hftype
    · rw [Ledger.setSlot_ne _ _ hji] at hj ⊢
      exact h.free j hj
  case listed =>
    intro l j hj
    by_cases hji : j = i
    · subst hji
      rw [Ledger.setSlot_self]
      exact hftype
    · rw [Ledger.setSlot_ne _ _ hji]
      exact h.listed l j hj
  case same =>
    intro j hj
    have hji : j ≠ i := by
      rintro rfl
      omega
    rw [Ledger.setSlot_ne _ _ hji]
    exact h.same j hj
  case roots => exact h.roots

theorem listPush_leads (h : Ledger B refs held s) (hi : (s.slot i).type ≠ .none) : Leads (listPush k i) s fun _ => Ledger B refs held := by
  refine Leads.get (Leads.ensure fun _ => Leads.set { h with listed := fun l j hj => ?_ })
  change j ∈ (if l = k then i :: (s.super l).inodeList else (s.super l).inodeList) at hj
  split at hj
  · rcases mem_cons.1 hj with rfl | hj
    · exact hi
    · exact h.listed l j hj
  · exact h.listed l j hj

theorem iget_leads (hB : B.Rooted) (h : Ledger B refs held s) : Leads (iget dev nr) s fun i t => Ledger B (i :: refs) held t := by
  refine (findInode_leads h).bind fun r t ⟨ht, hused⟩ => ?_
  cases r with
  | some i => exact (hold_leads ht (hused i rfl)).bind fun _ u hu => fitInode_leads hB hu
  | none =>
    refine Leads.get (Leads.demand fun k _ => Leads.demand fun desc _ => Leads.ensure fun _ => ?_)
    refine (getFreeInode_leads ht).bind fun i u ⟨hu, htype, hbuf⟩ => ?_
    refine ((bread_leads hu _ _ _).and (bread_slot _ _ _)).bind fun b v ⟨hv, hslot⟩ => Leads.demand fun b hb => ?_
    subst hb
    rw [← hslot] at htype hbuf
    refine Leads.get (Leads.bind (occupy_leads hv htype hbuf fun x => ⟨nofun, rfl, rfl⟩) fun _ w ⟨hw, hwi⟩ => ?_)
    exact (listPush_leads hw hwi).bind fun _ x hx => fitInode_leads hB hx

theorem newInode_leads (hB : B.Rooted) (h : Ledger B refs held s) : Leads (newInode dev nr) s fun i t => Ledger B (i :: refs) held t := by
  refine (iget_leads hB h).bind fun i t ht => Leads.get (Leads.demand fun _ _ => Leads.demand fun minode _ => ?_)
  refine (put_leads ht _ _ _).bind fun _ u hu => (put16_leads hu _ _ _).bind fun _ v hv => ?_
  refine Leads.bind (setInode_leads hv (fun _ => ⟨rfl, rfl, rfl⟩) fun _ => rfl) fun _ w hw => ?_
  refine (put16_leads hw _ _ _).bind fun _ x hx => (put8_leads hx _ _ _).bind fun _ y hy => ?_
  exact (put8_leads hy _ _ _).bind fun _ z hz => Leads.pure hz

/-! ## What is apart from inodes -/

/-- What depends neither on the inodes in memory nor on their lists and the counts of buffers. -/
structure Apart {α : Type} (f : State → α) : Prop where
  bufs : ∀ (s : State) (g : Buf → Nat), f { s with bufs := g } = f s
  slot : ∀ (s : State) (i : Ino) (x : Slot), f (s.setSlot i x) = f s
  super : ∀ (s : State) (g : SuperId → Super), f { s with super := g } = f s

variable {α : Type} {f : State → α}

theorem Apart.brelse (hf : Apart f) (b : Option Buf) : Leads (brelse b) s fun _ t => f t = f s := by
  refine (brelse_eq b).mono ?_
  rintro _ _ ⟨-, rfl⟩
  exact hf.bufs ..

theorem Apart.close (hf : Apart f) (i : Ino) : Leads (close i) s fun _ t => f t = f s := by
  refine (setInode_eq i _).bind ?_
  rintro _ _ rfl
  refine Leads.get (Leads.ite (fun _ => Leads.pure (hf.slot ..)) fun _ => ?_)
  refine (hf.brelse _).bind fun _ u hu => (listRemove_eq i).bind ?_
  rintro _ _ rfl
  refine (setInode_eq i _).bind ?_
  rintro _ _ rfl
  refine (putFreeInode_eq i).mono ?_
  rintro _ _ rfl
  rw [hf.slot, hf.slot]
  exact (hf.super u _).trans (hu.trans (hf.slot ..))

theorem Apart.iput (hf : Apart f) (x : Option Ino) : Leads (iput x) s fun _ t => f t = f s := by
  cases x with
  | none => exact Leads.pure rfl
  | some i =>
    refine Leads.get (Leads.demand fun op _ => ?_)
    cases op with
    | minix => exact Leads.get (Leads.ensure fun _ => Leads.demand fun _ _ => hf.close i)
    | iso9660 => exact hf.close i
    | none => exact Leads.fail
    | pipe => exact Leads.fail
    | socket => exact Leads.fail

theorem Apart.fitInode (hf : Apart f) (i : Ino) : Leads (fitInode i) s fun _ t => f t = f s := by
  refine Leads.get (Leads.ite (fun _ => Leads.pure rfl) fun _ => Leads.demand fun k _ => (hf.iput _).bind fun _ t ht => ?_)
  refine Leads.get (Leads.demand fun r _ => (setInode_eq r _).bind ?_)
  rintro _ _ rfl
  exact Leads.pure ((hf.slot ..).trans ht)

end Onix.Namei
