/-
`named` and `namei` end with one reference more, to what they return: a round of the loop takes the next directory and gives back the one
before it, also where a path leaves a filesystem through `..` or enters one that is mounted.
-/
import Onix.Namei.Entries

namespace Onix.Namei

open Onix.Lib

variable {B : Base} {refs : List Ino} {held : List Buf} {s : State} {dir : Ino} {name : List Char}

/-! ## ISO 9660 -/

theorem isoTurn_leads (h : Ledger B refs held s) (lba : Nat) :
    Leads (isoLoop.isoTurn dir lba) s fun r t => Ledger B refs (r.1.buf :: held) t :=
  Leads.get (breadSure_leads h fun _ _ ht => Leads.pure ht)

theorem isoSeek_leads (lba : Nat) (ptr : Option Ptr) (h : Ledger B refs ((ptr.map Ptr.buf).toList ++ held) s) :
    Leads (isoLoop.isoSeek dir lba ptr) s fun r t => Ledger B refs (r.1.buf :: held) t := by
  cases ptr with
  | none => exact isoTurn_leads h lba
  | some p =>
    refine Leads.ite (fun _ => Leads.pure h) fun _ => ?_
    exact (brelse_leads (b := some p.buf) h).bind fun _ t ht => isoTurn_leads ht lba

theorem isoLoop_leads (n : Nat) : ∀ (lba : Nat) (left : Int) (ptr : Option Ptr) (s : State),
    Ledger B refs ((ptr.map Ptr.buf).toList ++ held) s →
    Leads (isoLoop dir name n lba left ptr) s fun r t => Ledger B refs ((r.map Ptr.buf).toList ++ held) t := by
  induction n with
  | zero => exact fun _ _ _ _ _ => Leads.fail
  | succ n ih =>
    intro lba left ptr s h
    refine Leads.ite (fun _ => (brelse_leads h).bind fun _ t ht => Leads.pure ht) fun _ => ?_
    refine (isoSeek_leads lba ptr h).bind fun r t ht => Leads.get ?_
    refine Leads.ite (fun _ => ih _ _ (some ⟨r.1.buf, ISO_BLOCK_SIZE⟩) t ht) fun _ => Leads.ite (fun _ => Leads.pure ht) fun _ => ?_
    exact ih _ _ (some ⟨r.1.buf, r.1.off + t.isoLength r.1⟩) t ht

theorem isoFindEntry_leads (h : Ledger B refs held s) :
    Leads (isoFindEntry dir name) s fun r t => Ledger B refs ((r.map Ptr.buf).toList ++ held) t :=
  Leads.get (Leads.demand fun _ _ => isoLoop_leads _ _ _ none s h)

theorem isoMakeInode_leads {entry : Ptr} (h : Ledger B refs (entry.buf :: held) s) (super : SuperId) :
    Leads (isoMakeInode super entry) s fun i t => Ledger B (i :: refs) held t := by
  refine (getFreeInode_leads h).bind fun i t ⟨ht, htype, hbuf⟩ => Leads.get ?_
  refine Leads.bind (occupy_leads ht htype hbuf fun x => ⟨nofun, rfl, rfl⟩) fun _ u ⟨hu, hui⟩ => ?_
  exact (listPush_leads hu hui).bind fun _ v hv => Leads.pure hv

theorem isoNamei_leads (hB : B.Rooted) (h : Ledger B refs held s) :
    Leads (isoNamei dir name) s fun x t => Ledger B ((x.map Prod.fst).toList ++ refs) held t := by
  refine (isoFindEntry_leads h).bind fun r t ht => ?_
  cases r with
  | none => exact Leads.pure ht
  | some entry =>
    refine Leads.get ((findInode_leads ht).bind fun r u ⟨hu, hused⟩ => ?_)
    cases r with
    | some i =>
      refine (hold_leads hu (hused i rfl)).bind fun _ v hv => (fitInode_leads hB hv).bind fun i w hw => ?_
      exact (lose_leads (b := some entry.buf) hw).bind fun _ x hx => Leads.pure hx
    | none =>
      refine Leads.demand fun k _ => (isoMakeInode_leads hu k).bind fun i v hv => ?_
      exact (fitInode_leads hB hv).bind fun i w hw => Leads.pure hw

/-! ## The operations of a directory -/

theorem opNamei_leads (hB : B.Rooted) (h : Ledger B refs held s) :
    Leads (opNamei dir name) s fun x t => Ledger B ((x.map Prod.fst).toList ++ refs) held t := by
  refine Leads.get (Leads.demand fun op _ => ?_)
  cases op with
  | minix => exact minixNamei_leads hB h
  | iso9660 => exact isoNamei_leads hB h
  | none => exact Leads.fail
  | pipe => exact Leads.fail
  | socket => exact Leads.fail

theorem opMkdir_leads (hB : B.Rooted) (h : Ledger B refs held s) (mode : Nat) :
    Leads (opMkdir dir name mode) s fun _ => Ledger B refs held := by
  refine Leads.get (Leads.demand fun op _ => ?_)
  cases op with
  | minix => exact minixMkdir_leads hB h mode
  | iso9660 => exact Leads.pure h
  | none => exact Leads.fail
  | pipe => exact Leads.fail
  | socket => exact Leads.fail

theorem opLink_leads (hB : B.Rooted) (h : Ledger B refs held s) (odir : Ino) (oname : List Char) :
    Leads (opLink odir oname dir name) s fun _ => Ledger B refs held := by
  refine Leads.get (Leads.demand fun op _ => ?_)
  cases op with
  | minix => exact minixLink_leads hB h odir oname
  | iso9660 => exact Leads.pure h
  | none => exact Leads.fail
  | pipe => exact Leads.fail
  | socket => exact Leads.fail

/-! ## `named` -/

theorem leave_leads (hB : B.Rooted) (h : Ledger B (dir :: refs) held s) :
    Leads (leave dir name) s fun r t => Ledger B (r.1 :: refs) held t := by
  refine Leads.ite (fun _ => Leads.get (Leads.demand fun k _ => Leads.ite (fun _ => ?_) fun _ => Leads.pure h)) fun _ => Leads.pure h
  refine Leads.demand fun inode hmount => (hold_leads h (h.superMount_used hB hmount)).bind fun _ t ht => ?_
  exact (iput_leads (x := some dir) ht.swapRefs).bind fun _ u hu => Leads.pure hu

theorem namedLoop_leads (hB : B.Rooted) (right : List Char) (n : Nat) : ∀ (dir : Ino) (name : List Char) (s : State),
    Ledger B (dir :: refs) held s →
    Leads (namedLoop right n dir name) s fun x t => Ledger B ((x.map Prod.fst).toList ++ refs) held t := by
  induction n with
  | zero => exact fun _ _ _ _ => Leads.fail
  | succ n ih =>
    intro dir name s h
    refine (leave_leads hB h).bind fun r t ht => (opNamei_leads hB ht).bind fun x u hu => ?_
    cases x with
    | none => exact (iput_leads (x := some r.1) hu).bind fun _ v hv => Leads.pure hv
    | some x =>
      have hswap : Ledger B (r.1 :: x.1 :: refs) held u := hu.swapRefs
      refine (iput_leads (x := some r.1) hswap).bind fun _ v hv => Leads.get (Leads.ite (fun _ => ?_) fun _ => ?_)
      · exact (iput_leads (x := some x.1) hv).bind fun _ w hw => Leads.pure hw
      · refine (opPermission_leads hv _).bind fun ok w hw => Leads.ite (fun _ => ?_) fun _ => ?_
        · exact (iput_leads (x := some x.1) hw).bind fun _ y hy => Leads.pure hy
        · exact Leads.ite (fun _ => Leads.pure hw) fun _ => ih x.1 x.2 w hw

theorem origin_used (hB : B.Rooted) (h : Ledger B refs held s) {path : List Char} {x : Ino × List Char} (hx : s.task.origin path = some x) :
    (s.slot x.1).type ≠ .none := by
  have hroot : (s.slot s.task.iroot).type ≠ .none := h.used (by rw [show s.task.iroot = B.roots.iroot by rw [← h.roots]; rfl]; exact hB.iroot)
  have hpwd : (s.slot s.task.ipwd).type ≠ .none := h.used (by rw [show s.task.ipwd = B.roots.ipwd by rw [← h.roots]; rfl]; exact hB.ipwd)
  cases path with
  | nil => cases hx
  | cons c l =>
    change (if Walk.isSeparator c then some (s.task.iroot, l) else some (s.task.ipwd, c :: l)) = some x at hx
    by_cases hc : Walk.isSeparator c = true
    · rw [if_pos hc] at hx
      cases hx
      exact hroot
    · rw [if_neg hc] at hx
      cases hx
      exact hpwd

theorem named_leads (hB : B.Rooted) (h : Ledger B refs held s) (path : List Char) :
    Leads (named path) s fun x t => Ledger B ((x.map Prod.fst).toList ++ refs) held t := by
  refine Leads.get ?_
  cases ho : s.task.origin path with
  | none => exact Leads.pure h
  | some x =>
    refine Leads.ensure fun _ => (hold_leads h (origin_used hB h ho)).bind fun _ t ht => ?_
    cases hr : Walk.strrsep x.2 with
    | none => exact Leads.pure ht
    | some right => exact namedLoop_leads hB right.tail _ x.1 x.2 t ht

/-! ## `namei` -/

theorem namei_leads (hB : B.Rooted) (h : Ledger B refs held s) (path : List Char) :
    Leads (namei path) s fun x t => t.loose = true ∨ Ledger B (x.toList ++ refs) held t := by
  refine (named_leads hB h path).bind fun x t ht => ?_
  cases x with
  | none => exact Leads.pure (.inr ht)
  | some x =>
    refine Leads.ite (fun _ => Leads.pure (.inr ht)) fun _ => (leave_leads hB ht).bind fun r u hu => ?_
    refine (opNamei_leads hB hu).bind fun y v hv => ?_
    cases y with
    | some y =>
      have hswap : Ledger B (r.1 :: y.1 :: refs) held v := hv.swapRefs
      exact (iput_leads (x := some r.1) hswap).bind fun _ w hw => Leads.pure (.inr hw)
    | none =>
      refine (iput_leads (x := some r.1) hv).bind fun _ w hw => ?_
      refine Leads.bind (R := fun _ t => if r.2.isSome then t.loose = true else Ledger B refs held t)
        (Leads.onlyIf (fun hs => Leads.modify ?_) fun hs => ?_) fun _ y hy => ?_
      · rw [if_pos hs]
      · rw [if_neg hs]
        exact hw
      · cases hr : r.2 with
        | none =>
          rw [hr] at hy
          exact Leads.pure (.inr hy)
        | some i =>
          rw [hr] at hy
          exact Leads.pure (.inl hy)

end Onix.Namei
