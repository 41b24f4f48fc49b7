/-
Linked lists: `lib/list.c`. A list has a head and a tail of its own, and links in both directions; a node in no list may hold anything in
its links. Any number of lists share the nodes. What a run of operations makes of the links are the lists that the same operations make
of sequences.
-/
import Onix.Lib.Chain
import Onix.Lib.Loop
import Onix.List

namespace Onix.Node

open List Function Onix.Lib

/-- A pointer to a node, or to one end of a list. -/
inductive Ptr (L N : Type)
  | head (l : L)
  | tail (l : L)
  | node (n : N)
  deriving DecidableEq

abbrev Heap (L N : Type) := Links (Ptr L N)

inductive Fault
  | null
  | assertion
  | hang
  deriving DecidableEq

variable {L N : Type}

section Operations

variable [DecidableEq L] [DecidableEq N]

def deref (p : Option (Ptr L N)) : Except Fault (Ptr L N) :=
  match p with
  | none => .error .null
  | some p => .ok p

def listInit (l : L) (g : Heap L N) : Heap L N :=
  (((g.setPrev (.head l) none).setNext (.tail l) none).setNext (.head l) (some (.tail l))).setPrev (.tail l) (some (.head l))

def listInsertBefore (anchor node : Ptr L N) (g : Heap L N) : Except Fault (Heap L N) := do
  let g := (g.setPrev node (g.prev anchor)).setNext node (some anchor)
  let p ← deref (g.prev anchor)
  let g := g.setNext p (some node)
  pure (g.setPrev anchor (some node))

def listInsertAfter (anchor node : Ptr L N) (g : Heap L N) : Except Fault (Heap L N) := do
  let g := (g.setPrev node (some anchor)).setNext node (g.next anchor)
  let q ← deref (g.next anchor)
  let g := g.setPrev q (some node)
  pure (g.setNext anchor (some node))

def listRemove (node : Ptr L N) (g : Heap L N) : Except Fault (Heap L N) :=
  if g.prev node = none ∨ g.next node = none then .error .assertion
  else do
    let p ← deref (g.prev node)
    let g := g.setNext p (g.next node)
    let q ← deref (g.next node)
    let g := g.setPrev q (g.prev node)
    pure ((g.setNext node none).setPrev node none)

def listEmpty (l : L) (g : Heap L N) : Bool := g.next (.head l) = some (.tail l)

/-- The loop of `list_search` and of `list_insert_sort` from a link on: the first node with `c`, else the tail. -/
def listFind (l : L) (c : Ptr L N → Bool) (g : Heap L N) : Nat → Option (Ptr L N) → Except Fault (Ptr L N)
  | 0, _ => .error .hang
  | fuel + 1, ptr => do
    let p ← deref ptr
    if p = .tail l then pure (.tail l) else if c p then pure p else listFind l c g fuel (g.next p)

def listSearch (fuel : Nat) (l : L) (node : Ptr L N) (g : Heap L N) : Except Fault Bool := do
  let p ← listFind l (· = node) g fuel (g.next (.head l))
  pure (p ≠ .tail l)

def listPush (fuel : Nat) (l : L) (node : Ptr L N) (g : Heap L N) : Except Fault (Heap L N) := do
  if ← listSearch fuel l node g then .error .assertion else listInsertAfter (.head l) node g

def listPushback (fuel : Nat) (l : L) (node : Ptr L N) (g : Heap L N) : Except Fault (Heap L N) := do
  if ← listSearch fuel l node g then .error .assertion else listInsertBefore (.tail l) node g

def listTake (l : L) (link : Option (Ptr L N)) (g : Heap L N) : Except Fault (Ptr L N × Heap L N) :=
  if listEmpty l g then .error .assertion
  else do
    let node ← deref link
    let g ← listRemove node g
    pure (node, g)

def listPop (l : L) (g : Heap L N) : Except Fault (Ptr L N × Heap L N) := listTake l (g.next (.head l)) g

def listPopback (l : L) (g : Heap L N) : Except Fault (Ptr L N × Heap L N) := listTake l (g.prev (.tail l)) g

/-- `list_insert_sort`; `key` reads what is at the offset from a node. -/
def listInsertSort (fuel : Nat) (l : L) (key : Ptr L N → BitVec 32) (node : Ptr L N) (g : Heap L N) : Except Fault (Heap L N) := do
  let anchor ← listFind l (fun p => (key node).toInt < (key p).toInt) g fuel (g.next (.head l))
  if g.next node ≠ none ∨ g.prev node ≠ none then .error .assertion else listInsertBefore anchor node g

/-! ## Runs -/

inductive Op (L N : Type)
  | push (l : L) (n : N)
  | pop (l : L)
  | pushback (l : L) (n : N)
  | popback (l : L)
  | remove (n : N)
  | insertBefore (anchor : Ptr L N) (n : N)
  | insertAfter (anchor : Ptr L N) (n : N)
  | insertSort (l : L) (key : Ptr L N → BitVec 32) (n : N)

def Op.exec (fuel : Nat) (g : Heap L N) : Op L N → Except Fault (Option (Ptr L N) × Heap L N)
  | .push l n => do pure (none, ← listPush fuel l (.node n) g)
  | .pop l => do
    let r ← listPop l g
    pure (some r.1, r.2)
  | .pushback l n => do pure (none, ← listPushback fuel l (.node n) g)
  | .popback l => do
    let r ← listPopback l g
    pure (some r.1, r.2)
  | .remove n => do pure (none, ← listRemove (.node n) g)
  | .insertBefore anchor n => do pure (none, ← listInsertBefore anchor (.node n) g)
  | .insertAfter anchor n => do pure (none, ← listInsertAfter anchor (.node n) g)
  | .insertSort l key n => do pure (none, ← listInsertSort fuel l key (.node n) g)

def exec (fuel : Nat) : List (Op L N) → Heap L N → Except Fault (List (Option (Ptr L N)) × Heap L N)
  | [], g => .ok ([], g)
  | op :: ops, g => do
    let r ← op.exec fuel g
    let rs ← exec fuel ops r.2
    pure (r.1 :: rs.1, rs.2)

/-! ## Sequences -/

/-- The lists as sequences, and nodes in no list that have no links. -/
structure Lists (L N : Type) where
  seq : L → List N
  loose : N → Prop

namespace Lists

def Free (A : Lists L N) (n : N) : Prop := ∀ l, n ∉ A.seq l

def put (A : Lists L N) (l : L) (s : List N) (n : N) : Lists L N :=
  { seq := Function.update A.seq l s, loose := fun m => A.loose m ∧ m ≠ n }

def take (A : Lists L N) (l : L) (s : List N) (n : N) : Lists L N :=
  { seq := Function.update A.seq l s, loose := fun m => A.loose m ∨ m = n }

end Lists

inductive Acts : Op L N → Lists L N → Option (Ptr L N) → Lists L N → Prop
  | push {A l n} (hn : A.Free n) : Acts (.push l n) A none (A.put l (n :: A.seq l) n)
  | pop {A l n s} (hs : A.seq l = n :: s) : Acts (.pop l) A (some (.node n)) (A.take l s n)
  | pushback {A l n} (hn : A.Free n) : Acts (.pushback l n) A none (A.put l (A.seq l ++ [n]) n)
  | popback {A l n s} (hs : A.seq l = s ++ [n]) : Acts (.popback l) A (some (.node n)) (A.take l s n)
  | remove {A l n xs ys} (hs : A.seq l = xs ++ n :: ys) : Acts (.remove n) A none (A.take l (xs ++ ys) n)
  | before {A l n m xs ys} (hn : A.Free n) (hs : A.seq l = xs ++ m :: ys) :
    Acts (.insertBefore (.node m) n) A none (A.put l (xs ++ n :: m :: ys) n)
  | last {A l n} (hn : A.Free n) : Acts (.insertBefore (.tail l) n) A none (A.put l (A.seq l ++ [n]) n)
  | after {A l n m xs ys} (hn : A.Free n) (hs : A.seq l = xs ++ m :: ys) :
    Acts (.insertAfter (.node m) n) A none (A.put l (xs ++ m :: n :: ys) n)
  | first {A l n} (hn : A.Free n) : Acts (.insertAfter (.head l) n) A none (A.put l (n :: A.seq l) n)
  | sort {A l n key} (hn : A.Free n) (hl : A.loose n) :
    Acts (.insertSort l key n) A none (A.put l (Onix.listInsertSort (fun m => key (.node m)) n (A.seq l)) n)

inductive Runs : List (Op L N) → Lists L N → List (Option (Ptr L N)) → Lists L N → Prop
  | nil {A} : Runs [] A [] A
  | cons {op ops A B C r rs} (h : Acts op A r B) (hr : Runs ops B rs C) : Runs (op :: ops) A (r :: rs) C

end Operations

def path (l : L) (s : List N) : List (Ptr L N) := .head l :: (s.map .node ++ [.tail l])

/-- The links hold these lists, which have no node in common. -/
structure Holds (g : Heap L N) (A : Lists L N) : Prop where
  chain : ∀ l, Linked g (path l (A.seq l))
  nodup : ∀ l, (A.seq l).Nodup
  apart : ∀ l l' n, n ∈ A.seq l → n ∈ A.seq l' → l = l'
  loose : ∀ n, A.loose n → A.Free n ∧ g.next (.node n) = none ∧ g.prev (.node n) = none

/-! ## Paths -/

variable {g : Heap L N} {A B : Lists L N} {l l' : L} {n m : N} {s xs ys : List N} {p q : Ptr L N}

def lastOf (l : L) (xs : List N) : Ptr L N := (xs.map .node).getLastD (.head l)

def firstOf (l : L) (ys : List N) : Ptr L N := (ys.map .node).headD (.tail l)

theorem path_split (l : L) (xs ys : List N) : ∃ P Q, path l (xs ++ ys) = P ++ lastOf l xs :: firstOf l ys :: Q ∧
    ∀ n, path l (xs ++ n :: ys) = P ++ lastOf l xs :: .node n :: firstOf l ys :: Q := by
  have h1 : ∃ P, Ptr.head l :: xs.map .node = P ++ [lastOf l xs] := by
    rcases eq_nil_or_concat xs with rfl | ⟨xs, m, rfl⟩
    · exact ⟨[], rfl⟩
    · exact ⟨.head l :: xs.map .node, by simp [lastOf]⟩
  have h2 : ∃ Q, ys.map .node ++ [Ptr.tail l] = firstOf l ys :: Q := by
    cases ys with
    | nil => exact ⟨[], rfl⟩
    | cons m ys => exact ⟨ys.map .node ++ [.tail l], rfl⟩
  obtain ⟨P, hP⟩ := h1
  obtain ⟨Q, hQ⟩ := h2
  refine ⟨P, Q, ?_, fun n => ?_⟩
  · unfold path
    rw [map_append, append_assoc, ← cons_append, hP, hQ, append_assoc]
    rfl
  · unfold path
    rw [map_append, map_cons, append_assoc, ← cons_append, hP, cons_append, hQ, append_assoc]
    rfl

theorem mem_path : p ∈ path l s ↔ p = .head l ∨ p = .tail l ∨ ∃ n ∈ s, p = .node n := by
  unfold path
  simp only [mem_cons, mem_append, mem_map, not_mem_nil, or_false, eq_comm]
  exact or_congr_right or_comm

theorem node_mem_path : .node n ∈ path l s ↔ n ∈ s := by
  rw [mem_path]
  simp

theorem path_nodup (h : s.Nodup) : (path l s).Nodup := by
  refine nodup_cons.2 ⟨by simp, nodup_append.2 ⟨h.map fun _ _ he => Ptr.node.inj he, nodup_singleton _, ?_⟩⟩
  simp

theorem path_apart (hl : l ≠ l') (hs : ∀ n ∈ s, n ∉ xs) (hp : p ∈ path l s) : p ∉ path l' xs := by
  rcases mem_path.1 hp with rfl | rfl | ⟨n, hn, rfl⟩
  · simp [path, hl]
  · simp [path, hl]
  · exact fun h => hs n hn (node_mem_path.1 h)

namespace Holds

theorem disjoint (h : Holds g A) (hl : l ≠ l') (hp : p ∈ path l (A.seq l)) : p ∉ path l' (A.seq l') :=
  path_apart hl (fun n hn hn' => hl (h.apart l l' n hn hn')) hp

theorem links (h : Holds g A) (hs : A.seq l = xs ++ ys) :
    g.next (lastOf l xs) = some (firstOf l ys) ∧ g.prev (firstOf l ys) = some (lastOf l xs) := by
  obtain ⟨P, Q, h1, _⟩ := path_split l xs ys
  have hc := h.chain l
  rw [hs, h1] at hc
  exact (Linked.split.1 hc).2.1

theorem first (h : Holds g A) (l : L) : g.next (.head l) = some (firstOf l (A.seq l)) :=
  (h.links (show A.seq l = [] ++ A.seq l from rfl)).1

theorem last (h : Holds g A) (l : L) : g.prev (.tail l) = some (lastOf l (A.seq l)) :=
  (h.links (append_nil (A.seq l)).symm).2

variable [DecidableEq L]

theorem mem_put (hs : A.seq l = xs ++ ys) : m ∈ (A.put l (xs ++ n :: ys) n).seq l' ↔ m ∈ A.seq l' ∨ l' = l ∧ m = n := by
  show m ∈ update A.seq l _ l' ↔ _
  by_cases hl : l' = l
  · subst hl
    rw [update_self, hs]
    simp only [mem_append, mem_cons]
    tauto
  · rw [update_of_ne hl]
    simp [hl]

theorem mem_take (hs : A.seq l = xs ++ n :: ys) (hm : m ∈ (A.take l (xs ++ ys) n).seq l') : m ∈ A.seq l' := by
  change m ∈ update A.seq l _ l' at hm
  by_cases hl : l' = l
  · subst hl
    rw [update_self] at hm
    rw [hs]
    simp only [mem_append, mem_cons] at hm ⊢
    tauto
  · rw [update_of_ne hl] at hm
    exact hm

variable [DecidableEq N]

theorem put (h : Holds g A) (hs : A.seq l = xs ++ ys) (hn : A.Free n) : g.next (lastOf l xs) = some (firstOf l ys) ∧
    g.prev (firstOf l ys) = some (lastOf l xs) ∧ .node n ∉ path l (xs ++ ys) ∧ lastOf l xs ∈ path l (xs ++ ys) ∧
    firstOf l ys ∈ path l (xs ++ ys) ∧ Holds (g.link (lastOf l xs) (.node n) (firstOf l ys)) (A.put l (xs ++ n :: ys) n) := by
  obtain ⟨P, Q, h1, h2⟩ := path_split l xs ys
  have hc := h.chain l
  have hd := path_nodup (l := l) (h.nodup l)
  have hx : ∀ l', .node n ∉ path l' (A.seq l') := fun l' hm => hn l' (node_mem_path.1 hm)
  have hp : lastOf l xs ∈ path l (A.seq l) := by rw [hs, h1]; simp
  have hq : firstOf l ys ∈ path l (A.seq l) := by rw [hs, h1]; simp
  have hns := hn l
  have hnd := h.nodup l
  rw [hs] at hc hd hns hnd
  have hx' := hx l
  rw [hs] at hx'
  rw [h1] at hc hd
  have h3 := h.links hs
  refine ⟨h3.1, h3.2, hx', by rw [← hs]; exact hp, by rw [← hs]; exact hq,
    (Function.forall_update_iff A.seq fun l' s => Linked _ (path l' s)).2 ⟨?_, fun l' hl => ?_⟩,
    (Function.forall_update_iff A.seq fun _ s => s.Nodup).2 ⟨nodup_middle.2 (nodup_cons.2 ⟨hns, hnd⟩), fun l' _ => h.nodup l'⟩,
    fun l1 l2 m h4 h5 => ?_, fun m hm => ?_⟩
  · rw [h2]
    exact hc.link hd (by rw [← h1]; exact hx')
  · exact (h.chain l').link_of_not_mem (h.disjoint hl.symm hp) (h.disjoint hl.symm hq) (hx l')
  · rcases (mem_put hs).1 h4 with h6 | ⟨rfl, rfl⟩
    · rcases (mem_put hs).1 h5 with h7 | ⟨rfl, rfl⟩
      · exact h.apart l1 l2 m h6 h7
      · exact absurd h6 (hn l1)
    · rcases (mem_put hs).1 h5 with h7 | ⟨rfl, -⟩
      · exact absurd h7 (hn l2)
      · rfl
  · obtain ⟨h4, h5, h6⟩ := h.loose m hm.1
    have h7 : Ptr.node m ∉ path l (A.seq l) := fun hm => h4 l (node_mem_path.1 hm)
    have h8 : (Ptr.node m : Ptr L N) ≠ .node n := fun he => hm.2 (Ptr.node.inj he)
    refine ⟨fun l' hm' => ?_, ?_, ?_⟩
    · rcases (mem_put hs).1 hm' with hm' | ⟨rfl, rfl⟩
      · exact h4 l' hm'
      · exact hm.2 rfl
    · rw [Links.link_next (ne_of_mem_of_not_mem hp h7).symm h8, h5]
    · rw [Links.link_prev (ne_of_mem_of_not_mem hq h7).symm h8, h6]

theorem take (h : Holds g A) (hs : A.seq l = xs ++ n :: ys) : g.prev (.node n) = some (lastOf l xs) ∧
    g.next (.node n) = some (firstOf l ys) ∧ lastOf l xs ≠ .node n ∧ firstOf l ys ≠ .node n ∧ lastOf l xs ≠ firstOf l ys ∧
    Holds (g.unlink (lastOf l xs) (.node n) (firstOf l ys)) (A.take l (xs ++ ys) n) := by
  obtain ⟨P, Q, h1, h2⟩ := path_split l xs ys
  have hc := h.chain l
  have hd := path_nodup (l := l) (h.nodup l)
  have hnd := h.nodup l
  have hp : lastOf l xs ∈ path l (A.seq l) := by rw [hs, h2]; simp
  have hq : firstOf l ys ∈ path l (A.seq l) := by rw [hs, h2]; simp
  have hx : .node n ∈ path l (A.seq l) := by rw [hs, h2]; simp
  rw [hs] at hc hd hnd
  rw [h2] at hc hd
  obtain ⟨hns, hnd⟩ := nodup_cons.1 (nodup_middle.1 hnd)
  obtain ⟨-, -, n1, n2, n3⟩ := neighbours hd
  rw [mem_cons, not_or] at n2 n3
  have h3 := (Linked.split.1 hc).2
  have h4 := (isChain_cons_cons.1 h3.2).1
  refine ⟨h3.1.2, h4.1, n1, Ne.symm n3.1, n2.1, (Function.forall_update_iff A.seq fun l' s => Linked _ (path l' s)).2 ⟨?_, fun l' hl => ?_⟩,
    (Function.forall_update_iff A.seq fun _ s => s.Nodup).2 ⟨hnd, fun l' _ => h.nodup l'⟩, fun l1 l2 m h5 h6 => ?_, fun m hm => ?_⟩
  · rw [h1]
    exact hc.unlink hd
  · exact (h.chain l').unlink_of_not_mem (h.disjoint hl.symm hp) (h.disjoint hl.symm hq) (h.disjoint hl.symm hx)
  · exact h.apart l1 l2 m (mem_take hs h5) (mem_take hs h6)
  · rcases hm with hm | rfl
    · obtain ⟨h5, h6, h7⟩ := h.loose m hm
      have h8 : Ptr.node m ∉ path l (A.seq l) := fun hm => h5 l (node_mem_path.1 hm)
      have h9 : (Ptr.node m : Ptr L N) ≠ .node n := fun he => h8 (he ▸ hx)
      refine ⟨fun l' hm' => h5 l' (mem_take hs hm'), ?_, ?_⟩
      · rw [Links.unlink_next (ne_of_mem_of_not_mem hp h8).symm h9, h6]
      · rw [Links.unlink_prev (ne_of_mem_of_not_mem hq h8).symm h9, h7]
    · refine ⟨fun l' hm => ?_, update_self .., update_self ..⟩
      obtain rfl := h.apart l' l m (mem_take hs hm) (by rw [hs]; simp)
      change m ∈ update A.seq l' _ l' at hm
      rw [update_self] at hm
      exact hns hm

end Holds

/-! ## Operations -/

variable [DecidableEq L] [DecidableEq N]

theorem insertBefore_link {x : Ptr L N} (hp : g.prev q = some p) (h1 : q ≠ x) : listInsertBefore q x g = .ok (g.link p x q) := by
  unfold listInsertBefore
  have h3 : ((g.setPrev x (g.prev q)).setNext x (some q)).prev q = some p := (update_of_ne h1 ..).trans hp
  dsimp only
  rw [h3, hp]
  rfl

theorem insertAfter_link {x : Ptr L N} (hq : g.next p = some q) (h1 : p ≠ x) : listInsertAfter p x g = .ok (g.link p x q) := by
  unfold listInsertAfter
  have h3 : ((g.setPrev x (some p)).setNext x (g.next p)).next p = some q := (update_of_ne h1 ..).trans hq
  dsimp only
  rw [h3, hq]
  rfl

theorem remove_unlink {x : Ptr L N} (hp : g.prev x = some p) (hq : g.next x = some q) (h1 : p ≠ x) :
    listRemove x g = .ok (g.unlink p x q) := by
  unfold listRemove
  rw [if_neg (by rw [hp, hq]; simp)]
  have h3 : (g.setNext p (some q)).next x = some q := (update_of_ne (Ne.symm h1) ..).trans hq
  rw [hp]
  show (do
    let q ← deref ((g.setNext p (g.next x)).next x)
    let g := (g.setNext p (g.next x)).setPrev q ((g.setNext p (g.next x)).prev x)
    pure ((g.setNext x none).setPrev x none) : Except Fault (Heap L N)) = _
  rw [hq, h3]
  show Except.ok (((g.setNext p (some q)).setPrev q (g.prev x)).setNext x none |>.setPrev x none) = _
  rw [hp]
  rfl

theorem listFind_path {c : Ptr L N → Bool} : ∀ {s : List N} {a : Ptr L N} {fuel : Nat}, Linked g (a :: (s.map .node ++ [.tail l])) →
    s.length < fuel → listFind l c g fuel (g.next a) = .ok (((s.map .node).find? c).getD (.tail l))
  | _, _, 0, _, hf => absurd hf (Nat.not_lt_zero _)
  | [], a, fuel + 1, h, _ => by
    rw [(isChain_cons_cons.1 h).1.1]
    exact if_pos rfl
  | n :: s, a, fuel + 1, h, hf => by
    have h := isChain_cons_cons.1 h
    have ih := listFind_path (c := c) h.2 (Nat.lt_of_succ_lt_succ hf)
    rw [h.1.1]
    have h1 : (Ptr.node n : Ptr L N) ≠ .tail l := fun he => nomatch he
    show (if Ptr.node n = .tail l then pure (.tail l) else if c (.node n) then pure (.node n) else listFind l c g fuel (g.next (.node n)) : Except Fault (Ptr L N)) = _
    rw [if_neg h1, map_cons, find?_cons]
    cases hc : c (.node n) with
    | true => rfl
    | false => exact ih

namespace Holds

theorem search (h : Holds g A) (hn : A.Free n) {fuel : Nat} (hf : (A.seq l).length < fuel) : listSearch fuel l (.node n) g = .ok false := by
  unfold listSearch
  have h1 : ((A.seq l).map Ptr.node).find? (fun p => decide (p = (.node n : Ptr L N))) = none := by
    rw [find?_eq_none]
    intro p hp
    obtain ⟨m, hm, rfl⟩ := mem_map.1 hp
    simp only [Ptr.node.injEq, decide_eq_true_eq]
    exact fun he => hn l (he ▸ hm)
  rw [listFind_path (h.chain l) hf, h1]
  exact congrArg Except.ok (decide_eq_false fun h => h rfl)

theorem before (h : Holds g A) (hs : A.seq l = xs ++ ys) (hn : A.Free n) :
    ∃ g', listInsertBefore (firstOf l ys) (.node n) g = .ok g' ∧ Holds g' (A.put l (xs ++ n :: ys) n) := by
  obtain ⟨_, h2, h3, h4, h5, h6⟩ := h.put hs hn
  exact ⟨_, insertBefore_link h2 (ne_of_mem_of_not_mem h5 h3), h6⟩

theorem after (h : Holds g A) (hs : A.seq l = xs ++ ys) (hn : A.Free n) :
    ∃ g', listInsertAfter (lastOf l xs) (.node n) g = .ok g' ∧ Holds g' (A.put l (xs ++ n :: ys) n) := by
  obtain ⟨h1, _, h3, h4, _, h6⟩ := h.put hs hn
  exact ⟨_, insertAfter_link h1 (ne_of_mem_of_not_mem h4 h3), h6⟩

theorem removed (h : Holds g A) (hs : A.seq l = xs ++ n :: ys) :
    ∃ g', listRemove (.node n) g = .ok g' ∧ Holds g' (A.take l (xs ++ ys) n) := by
  obtain ⟨h1, h2, h3, _, _, h6⟩ := h.take hs
  exact ⟨_, remove_unlink h1 h2 h3, h6⟩

theorem taken (h : Holds g A) (hs : A.seq l = xs ++ n :: ys) {link : Option (Ptr L N)} (hl : link = some (.node n)) :
    ∃ g', listTake l link g = .ok (.node n, g') ∧ Holds g' (A.take l (xs ++ ys) n) := by
  obtain ⟨g', hg, h1⟩ := h.removed hs
  have h2 : listEmpty l g = false := by
    refine decide_eq_false fun he => ?_
    have h3 := (h.first l).symm.trans he
    rw [hs] at h3
    cases xs with
    | nil => cases h3
    | cons m xs => cases h3
  refine ⟨g', ?_, h1⟩
  unfold listTake
  rw [h2, hl]
  show (listRemove (.node n) g >>= fun g => pure (Ptr.node n, g)) = _
  rw [hg]
  rfl

theorem pop (h : Holds g A) (hs : A.seq l = n :: s) : ∃ g', listPop l g = .ok (.node n, g') ∧ Holds g' (A.take l s n) := by
  refine h.taken (show A.seq l = [] ++ n :: s from hs) ?_
  have h1 := h.first l
  rw [hs] at h1
  exact h1

theorem popback (h : Holds g A) (hs : A.seq l = s ++ [n]) : ∃ g', listPopback l g = .ok (.node n, g') ∧ Holds g' (A.take l s n) := by
  have h2 := h.taken (show A.seq l = s ++ n :: [] from hs) (show g.prev (.tail l) = _ from ?_)
  · rw [append_nil] at h2
    exact h2
  · have h1 := h.last l
    rw [hs] at h1
    unfold lastOf at h1
    rw [map_append, map_singleton, getLastD_concat] at h1
    exact h1

theorem push (h : Holds g A) (hn : A.Free n) {fuel : Nat} (hf : (A.seq l).length < fuel) :
    ∃ g', listPush fuel l (.node n) g = .ok g' ∧ Holds g' (A.put l (n :: A.seq l) n) := by
  obtain ⟨g', hg, h1⟩ := h.after (show A.seq l = [] ++ A.seq l from rfl) hn
  refine ⟨g', ?_, h1⟩
  unfold listPush
  rw [h.search hn hf]
  exact hg

theorem pushback (h : Holds g A) (hn : A.Free n) {fuel : Nat} (hf : (A.seq l).length < fuel) :
    ∃ g', listPushback fuel l (.node n) g = .ok g' ∧ Holds g' (A.put l (A.seq l ++ [n]) n) := by
  obtain ⟨g', hg, h1⟩ := h.before (append_nil (A.seq l)).symm hn
  refine ⟨g', ?_, h1⟩
  unfold listPushback
  rw [h.search hn hf]
  exact hg

theorem sort (h : Holds g A) (hn : A.Free n) (hl : A.loose n) (key : Ptr L N → BitVec 32) {fuel : Nat} (hf : (A.seq l).length < fuel) :
    ∃ g', listInsertSort fuel l key (.node n) g = .ok g' ∧
      Holds g' (A.put l (Onix.listInsertSort (fun m => key (.node m)) n (A.seq l)) n) := by
  obtain ⟨xs, ys, hs, hi, hx, hy⟩ := listInsertSort_split (fun m => key (.node m)) n (A.seq l)
  obtain ⟨g', hg, h1⟩ := h.before hs hn
  rw [hi]
  refine ⟨g', ?_, h1⟩
  have h2 : (((A.seq l).map Ptr.node).find? fun p => decide ((key (.node n)).toInt < (key p).toInt)).getD (.tail l) = firstOf l ys := by
    have h3 : (xs.map Ptr.node).find? (fun p => decide ((key (.node n)).toInt < (key p).toInt)) = none := by
      rw [find?_eq_none]
      intro p hp
      obtain ⟨m, hm, rfl⟩ := mem_map.1 hp
      simp only [decide_eq_true_eq, Int.not_lt]
      exact hx m hm
    rw [hs, map_append, find?_append, h3, Option.none_or]
    cases ys with
    | nil => rfl
    | cons m ys =>
      have h4 : (decide ((key (.node n)).toInt < (key (.node m)).toInt)) = true := decide_eq_true (hy m rfl)
      rw [map_cons, find?_cons, h4]
      rfl
  obtain ⟨-, h3, h4⟩ := h.loose n hl
  unfold listInsertSort
  rw [listFind_path (h.chain l) hf, h2]
  show (if g.next (.node n) ≠ none ∨ g.prev (.node n) ≠ none then _ else listInsertBefore (firstOf l ys) (.node n) g) = _
  rw [if_neg (by rw [h3, h4]; simp), hg]

end Holds

/-! ## Refinement -/

theorem Acts.exec {op : Op L N} {r : Option (Ptr L N)} (ha : Acts op A r B) :
    ∃ bound, ∀ fuel ≥ bound, ∀ g, Holds g A → ∃ g', op.exec fuel g = .ok (r, g') ∧ Holds g' B := by
  have hw : ∀ {x : Except Fault (Heap L N)} {C}, (∃ g', x = .ok g' ∧ Holds g' C) →
      ∃ g', (x >>= fun g => pure ((none : Option (Ptr L N)), g)) = .ok (none, g') ∧ Holds g' C := fun ⟨g', hx, hg⟩ => ⟨g', by rw [hx]; rfl, hg⟩
  have hr : ∀ {x : Except Fault (Ptr L N × Heap L N)} {p C}, (∃ g', x = .ok (p, g') ∧ Holds g' C) →
      ∃ g', (x >>= fun r => pure (some r.1, r.2)) = .ok (some p, g') ∧ Holds g' C := fun ⟨g', hx, hg⟩ => ⟨g', by rw [hx]; rfl, hg⟩
  cases ha with
  | @push _ l n hn => exact ⟨(A.seq l).length + 1, fun _ hf _ h => hw (h.push hn hf)⟩
  | pop hs => exact ⟨0, fun _ _ _ h => hr (h.pop hs)⟩
  | @pushback _ l n hn => exact ⟨(A.seq l).length + 1, fun _ hf _ h => hw (h.pushback hn hf)⟩
  | popback hs => exact ⟨0, fun _ _ _ h => hr (h.popback hs)⟩
  | remove hs => exact ⟨0, fun _ _ _ h => hw (h.removed hs)⟩
  | @before _ l n m xs ys hn hs => exact ⟨0, fun _ _ _ h => hw (h.before (show A.seq l = xs ++ m :: ys from hs) hn)⟩
  | last hn => exact ⟨0, fun _ _ _ h => hw (h.before (append_nil (A.seq _)).symm hn)⟩
  | @after _ l n m xs ys hn hs =>
    refine ⟨0, fun _ _ _ h => hw ?_⟩
    have h1 := h.after (hs.trans (append_cons xs m ys)) hn
    unfold lastOf at h1
    rw [map_append, map_singleton, getLastD_concat, append_assoc] at h1
    exact h1
  | @first _ l n hn => exact ⟨0, fun _ _ _ h => hw (h.after (show A.seq l = [] ++ A.seq l from rfl) hn)⟩
  | @sort _ l n key hn hl => exact ⟨(A.seq l).length + 1, fun _ hf _ h => hw (h.sort hn hl key hf)⟩

theorem Runs.exec {ops : List (Op L N)} {rs : List (Option (Ptr L N))} (hr : Runs ops A rs B) :
    ∃ bound, ∀ fuel ≥ bound, ∀ g, Holds g A → ∃ g', exec fuel ops g = .ok (rs, g') ∧ Holds g' B := by
  induction hr with
  | nil => exact ⟨0, fun _ _ g h => ⟨g, rfl, h⟩⟩
  | cons ha _ ih =>
    obtain ⟨b1, h1⟩ := ha.exec
    obtain ⟨b2, h2⟩ := ih
    refine ⟨max b1 b2, fun fuel hf g h => ?_⟩
    obtain ⟨g1, hg1, h3⟩ := h1 fuel (Nat.le_trans (Nat.le_max_left ..) hf) g h
    obtain ⟨g2, hg2, h4⟩ := h2 fuel (Nat.le_trans (Nat.le_max_right ..) hf) g1 h3
    refine ⟨g2, ?_, h4⟩
    unfold Node.exec
    rw [hg1]
    show (Node.exec fuel _ g1 >>= _) = _
    rw [hg2]
    rfl

def forward (fuel : Nat) (g : Heap L N) (l : L) : Option (List (Ptr L N)) := walk g.next (.tail l) fuel (g.next (.head l))
def backward (fuel : Nat) (g : Heap L N) (l : L) : Option (List (Ptr L N)) := walk g.prev (.head l) fuel (g.prev (.tail l))

theorem Holds.walks (h : Holds g A) (l : L) {fuel : Nat} (hf : (A.seq l).length < fuel) :
    forward fuel g l = some ((A.seq l).map .node) ∧ backward fuel g l = some ((A.seq l).map .node).reverse := by
  refine ⟨walk_chain (h.chain l).forward ?_ ?_, walk_chain (h.chain l).backward ?_ ?_⟩
  · simp
  · rw [length_map]
    exact hf
  · simp
  · rw [length_reverse, length_map]
    exact hf

/-- Lists refine sequences, over any run of operations; a node goes into a list that is sorted after the nodes with an equal key. -/
theorem lists_refine : (∀ (g : Heap L N) (A B : Lists L N) (ops : List (Op L N)) (rs : List (Option (Ptr L N))), Holds g A → Runs ops A rs B →
      ∃ bound, ∀ fuel ≥ bound, ∃ g', exec fuel ops g = .ok (rs, g') ∧ Holds g' B ∧
        (∀ l, ∀ fuel' > (B.seq l).length, forward fuel' g' l = some ((B.seq l).map .node) ∧
          backward fuel' g' l = some ((B.seq l).map .node).reverse) ∧
        ∀ n, B.loose n → g'.next (.node n) = none ∧ g'.prev (.node n) = none) ∧
    ∀ (key : N → BitVec 32) (n : N) (s : List N), IntSorted key s → IntSorted key (Onix.listInsertSort key n s) ∧
      ∃ xs ys, s = xs ++ ys ∧ Onix.listInsertSort key n s = xs ++ n :: ys ∧
        (∀ m ∈ xs, (key m).toInt ≤ (key n).toInt) ∧ ∀ m ∈ ys, (key n).toInt < (key m).toInt := by
  refine ⟨fun g A B ops rs h hr => ?_, fun key n s hs => ⟨listInsertSort_intSorted hs, ?_⟩⟩
  · obtain ⟨bound, h1⟩ := hr.exec
    refine ⟨bound, fun fuel hf => ?_⟩
    obtain ⟨g', hg, h2⟩ := h1 fuel hf g h
    exact ⟨g', hg, h2, fun l _ hf => h2.walks l hf, fun n hn => (h2.loose n hn).2⟩
  · obtain ⟨xs, ys, rfl, h1, h2, h3⟩ := listInsertSort_split key n s
    refine ⟨xs, ys, rfl, h1, h2, fun m hm => ?_⟩
    cases ys with
    | nil => cases hm
    | cons y ys =>
      have h4 := h3 y rfl
      rcases List.mem_cons.1 hm with rfl | hm
      · exact h4
      · have h5 := (List.pairwise_cons.1 (List.pairwise_append.1 hs).2.1).1 m hm
        omega

/-! ## A node that was not cleared -/

def stale : Heap Unit Unit := listInit () { next := fun _ => some (.head ()), prev := fun _ => none }

def nodeless : Lists Unit Unit := { seq := fun _ => [], loose := fun _ => False }

theorem stale_holds : Holds stale nodeless where
  chain _ := isChain_cons_cons.2 ⟨⟨rfl, rfl⟩, .singleton _⟩
  nodup _ := nodup_nil
  apart _ _ _ h := nomatch h
  loose _ h := h.elim

/-- `list_insert_sort` does not take it, where `list_push` does. -/
theorem stale_sort : Holds stale nodeless ∧ nodeless.Free () ∧ ∀ fuel g',
    (Op.insertSort () (fun _ => 0) ()).exec (fuel + 1) stale = .error .assertion ∧
      (Op.insertSort () (fun _ => 0) ()).exec (fuel + 1) stale ≠ .ok (none, g') :=
  ⟨stale_holds, nofun, fun _ _ => ⟨rfl, nofun⟩⟩

/-- After a push and a pop the node has no links, and may be sorted in. -/
theorem lists_refine_stale : ∃ bound, ∀ fuel ≥ bound, ∃ g', exec fuel [.push () (), .pop (), .insertSort () (fun _ => 0) ()] stale =
      .ok ([none, some (.node ()), none], g') ∧ forward 2 g' () = some [.node ()] := by
  have h1 : Runs [.push () (), .pop (), .insertSort () (fun _ => 0) ()] nodeless [none, some (.node ()), none] _ :=
    .cons (.push nofun) (.cons (.pop rfl) (.cons (.sort nofun (.inr rfl)) .nil))
  obtain ⟨bound, h⟩ := lists_refine.1 stale nodeless _ _ _ stale_holds h1
  refine ⟨bound, fun fuel hf => ?_⟩
  obtain ⟨g', hg, _, hw, _⟩ := h fuel hf
  exact ⟨g', hg, (hw () 2 (by decide)).1⟩

end Onix.Node
