/-
Doubly linked chains: nodes with a link in each direction, each of which may be missing. A node goes into a chain between two neighbours
and out of it again; chains without the nodes that change are kept.
-/
import Mathlib.Data.List.Chain
import Mathlib.Data.List.Nodup

namespace Onix.Lib

open List Function

variable {V : Type*}

structure Links (V : Type*) where
  next : V → Option V
  prev : V → Option V

def Linked (g : Links V) (l : List V) : Prop := l.IsChain fun a b => g.next a = some b ∧ g.prev b = some a

variable {g g' : Links V} {l A B : List V} {a p q x stop : V} {f : V → Option V}

theorem Linked.frame (h : Linked g l) (hn : ∀ a ∈ l.dropLast, g'.next a = g.next a) (hp : ∀ b ∈ l.tail, g'.prev b = g.prev b) :
    Linked g' l := by
  induction l with
  | nil => exact .nil
  | cons a l ih =>
    cases l with
    | nil => exact .singleton _
    | cons b l =>
      have h := isChain_cons_cons.1 h
      refine isChain_cons_cons.2 ⟨⟨?_, ?_⟩, ih h.2 (fun c hc => hn c (.tail _ hc)) fun c hc => hp c ?_⟩
      · exact (hn a mem_cons_self).trans h.1.1
      · exact (hp b mem_cons_self).trans h.1.2
      · exact .tail _ hc

theorem Linked.split : Linked g (A ++ p :: q :: B) ↔ Linked g (A ++ [p]) ∧ (g.next p = some q ∧ g.prev q = some p) ∧ Linked g (q :: B) :=
  isChain_append_cons_cons

/-! ## Walks -/

def walk [DecidableEq V] (f : V → Option V) (stop : V) : Nat → Option V → Option (List V)
  | 0, _ => none
  | _ + 1, none => none
  | fuel + 1, some p => if p = stop then some [] else (walk f stop fuel (f p)).map (p :: ·)

theorem walk_chain [DecidableEq V] : ∀ {l : List V} {a : V} {fuel : Nat}, (a :: (l ++ [stop])).IsChain (fun a b => f a = some b) →
    stop ∉ l → l.length < fuel → walk f stop fuel (f a) = some l
  | _, _, 0, _, _, hf => absurd hf (Nat.not_lt_zero _)
  | [], a, fuel + 1, h, _, _ => by
    rw [(isChain_cons_cons.1 h).1]
    exact if_pos rfl
  | b :: l, a, fuel + 1, h, hs, hf => by
    have h := isChain_cons_cons.1 h
    rw [h.1]
    refine (if_neg fun he : b = stop => hs (he ▸ mem_cons_self)).trans ?_
    rw [walk_chain h.2 (fun hm => hs (.tail _ hm)) (Nat.lt_of_succ_lt_succ hf)]
    rfl

theorem Linked.forward (h : Linked g (a :: (l ++ [stop]))) : (a :: (l ++ [stop])).IsChain fun a b => g.next a = some b :=
  List.IsChain.imp (fun _ _ h => h.1) h

theorem Linked.backward (h : Linked g (stop :: (l ++ [a]))) : (a :: (l.reverse ++ [stop])).IsChain fun a b => g.prev a = some b := by
  have h1 := isChain_reverse.2 (List.IsChain.imp (S := fun a b => g.prev b = some a) (fun _ _ h => h.2) h)
  rw [reverse_cons, reverse_append] at h1
  exact h1

/-! ## Changes -/

theorem neighbours (hd : (A ++ p :: q :: B).Nodup) : p ∉ A ∧ q ∉ A ∧ p ≠ q ∧ p ∉ B ∧ q ∉ B := by
  obtain ⟨_, h1, h2⟩ := nodup_append.1 hd
  obtain ⟨h3, h4⟩ := nodup_cons.1 h1
  refine ⟨fun h => h2 p h p mem_cons_self rfl, fun h => h2 q h q (.tail _ mem_cons_self) rfl,
    fun h => h3 (h ▸ mem_cons_self), fun h => h3 (.tail _ h), (nodup_cons.1 h4).1⟩

variable [DecidableEq V]

namespace Links

def setNext (g : Links V) (a : V) (b : Option V) : Links V := { g with next := Function.update g.next a b }
def setPrev (g : Links V) (a : V) (b : Option V) : Links V := { g with prev := Function.update g.prev a b }

def link (g : Links V) (p x q : V) : Links V where
  next := Function.update (Function.update g.next x (some q)) p (some x)
  prev := Function.update (Function.update g.prev x (some p)) q (some x)

def unlink (g : Links V) (p x q : V) : Links V where
  next := Function.update (Function.update g.next p (some q)) x none
  prev := Function.update (Function.update g.prev q (some p)) x none

theorem link_next (h1 : a ≠ p) (h2 : a ≠ x) : (g.link p x q).next a = g.next a :=
  (update_of_ne h1 ..).trans (update_of_ne h2 ..)

theorem link_prev (h1 : a ≠ q) (h2 : a ≠ x) : (g.link p x q).prev a = g.prev a :=
  (update_of_ne h1 ..).trans (update_of_ne h2 ..)

theorem unlink_next (h1 : a ≠ p) (h2 : a ≠ x) : (g.unlink p x q).next a = g.next a :=
  (update_of_ne h2 ..).trans (update_of_ne h1 ..)

theorem unlink_prev (h1 : a ≠ q) (h2 : a ≠ x) : (g.unlink p x q).prev a = g.prev a :=
  (update_of_ne h2 ..).trans (update_of_ne h1 ..)

end Links

theorem Linked.link_of_not_mem (h : Linked g l) (hp : p ∉ l) (hq : q ∉ l) (hx : x ∉ l) : Linked (g.link p x q) l :=
  h.frame (fun _ ha => Links.link_next (fun he => hp (he ▸ dropLast_subset _ ha)) fun he => hx (he ▸ dropLast_subset _ ha))
    fun _ hb => Links.link_prev (fun he => hq (he ▸ mem_of_mem_tail hb)) fun he => hx (he ▸ mem_of_mem_tail hb)

theorem Linked.unlink_of_not_mem (h : Linked g l) (hp : p ∉ l) (hq : q ∉ l) (hx : x ∉ l) : Linked (g.unlink p x q) l :=
  h.frame (fun _ ha => Links.unlink_next (fun he => hp (he ▸ dropLast_subset _ ha)) fun he => hx (he ▸ dropLast_subset _ ha))
    fun _ hb => Links.unlink_prev (fun he => hq (he ▸ mem_of_mem_tail hb)) fun he => hx (he ▸ mem_of_mem_tail hb)

theorem Linked.link (h : Linked g (A ++ p :: q :: B)) (hd : (A ++ p :: q :: B).Nodup) (hx : x ∉ A ++ p :: q :: B) :
    Linked (g.link p x q) (A ++ p :: x :: q :: B) := by
  obtain ⟨h1, _, h2⟩ := Linked.split.1 h
  obtain ⟨n1, n2, n3, n4, n5⟩ := neighbours hd
  simp only [mem_append, mem_cons, not_or] at hx
  obtain ⟨x1, x2, x3, x4⟩ := hx
  refine Linked.split.2 ⟨h1.frame (fun a ha => ?_) fun b hb => ?_, ⟨update_self .., ?_⟩,
    isChain_cons_cons.2 ⟨⟨?_, update_self ..⟩, h2.frame (fun a ha => ?_) fun b hb => ?_⟩⟩
  · rw [dropLast_concat] at ha
    exact Links.link_next (fun he => n1 (he ▸ ha)) fun he => x1 (he ▸ ha)
  · rcases mem_append.1 (mem_of_mem_tail hb) with hb | hb
    · exact Links.link_prev (fun he => n2 (he ▸ hb)) fun he => x1 (he ▸ hb)
    · rw [mem_singleton.1 hb]
      exact Links.link_prev n3 (Ne.symm x2)
  · exact (update_of_ne x3 ..).trans (update_self ..)
  · exact (update_of_ne x2 ..).trans (update_self ..)
  · rcases mem_cons.1 (dropLast_subset _ ha) with rfl | ha
    · exact Links.link_next (Ne.symm n3) (Ne.symm x3)
    · exact Links.link_next (fun he => n4 (he ▸ ha)) fun he => x4 (he ▸ ha)
  · exact Links.link_prev (fun he => n5 (he ▸ hb)) fun he => x4 (he ▸ hb)

theorem Linked.unlink (h : Linked g (A ++ p :: x :: q :: B)) (hd : (A ++ p :: x :: q :: B).Nodup) :
    Linked (g.unlink p x q) (A ++ p :: q :: B) := by
  obtain ⟨h1, _, h2⟩ := Linked.split.1 h
  have h3 : Linked g (q :: B) := (isChain_cons_cons.1 h2).2
  obtain ⟨n1, x1, n2, n3, x2⟩ := neighbours hd
  have hd' : (A ++ p :: q :: B).Nodup := hd.sublist ((List.Sublist.refl A).append ((sublist_cons_self x _).cons_cons p))
  obtain ⟨_, q1, n4, n5, q2⟩ := neighbours hd'
  rw [mem_cons, not_or] at x2
  refine Linked.split.2 ⟨h1.frame (fun a ha => ?_) fun b hb => ?_, ⟨?_, ?_⟩, h3.frame (fun a ha => ?_) fun b hb => ?_⟩
  · rw [dropLast_concat] at ha
    exact Links.unlink_next (fun he => n1 (he ▸ ha)) fun he => x1 (he ▸ ha)
  · rcases mem_append.1 (mem_of_mem_tail hb) with hb | hb
    · exact Links.unlink_prev (fun he => q1 (he ▸ hb)) fun he => x1 (he ▸ hb)
    · rw [mem_singleton.1 hb]
      exact Links.unlink_prev n4 n2
  · exact (update_of_ne n2 ..).trans (update_self ..)
  · exact (update_of_ne (Ne.symm x2.1) ..).trans (update_self ..)
  · rcases mem_cons.1 (dropLast_subset _ ha) with rfl | ha
    · exact Links.unlink_next (Ne.symm n4) (Ne.symm x2.1)
    · exact Links.unlink_next (fun he => n5 (he ▸ ha)) fun he => x2.2 (he ▸ ha)
  · exact Links.unlink_prev (fun he => q2 (he ▸ hb)) fun he => x2.2 (he ▸ hb)

end Onix.Lib
