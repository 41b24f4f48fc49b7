/-
The index path of a block of a minix file: `minix_bmap` and `minix_truncate` as they read and write the `zone` array of the inode and
the index blocks. A slot is known by the indices that lead to it; `minix_bmap` takes the path of its block, and `minix_truncate` visits
the slots on the paths that are there.
-/
import Onix.Namei.Minix

namespace Onix.Minix.Path

open List Function

open Namei (BLOCK_INDEXES DIRECT_BLOCK INDIRECT1_BLOCK INDIRECT2_BLOCK TOTAL_BLOCK)

abbrev Zone := BitVec 16

/-- The `zone` of the inode and the arrays in the blocks of the device. -/
structure Disk where
  zone : Nat → Zone
  block : Zone → Nat → Zone

inductive Arr
  | inode
  | block (z : Zone)
  deriving DecidableEq

namespace Disk

def get (d : Disk) : Arr → Nat → Zone
  | .inode, i => d.zone i
  | .block z, i => d.block z i

def put (d : Disk) : Arr → Nat → Zone → Disk
  | .inode, i, v => { d with zone := Function.update d.zone i v }
  | .block z, i, v => { d with block := Function.update d.block z (Function.update (d.block z) i v) }

end Disk

section Bmap

-- `minix_balloc`, with the state it works on
variable {σ : Type} (balloc : σ → Zone × σ)

/-- What `minix_bmap` returns, the indices it took, and what it leaves. -/
structure Found (σ : Type) where
  zone : Zone
  trace : List Nat
  disk : Disk
  state : σ

def fill (create : Bool) (a : Arr) (i : Nat) (d : Disk) (s : σ) : Disk × σ :=
  if d.get a i = 0 ∧ create = true then (d.put a i (balloc s).1, (balloc s).2) else (d, s)

def reckon (create : Bool) : Nat → Arr → Nat → Nat → Nat → Disk → σ → Found σ
  | 0, a, index, _, _, d, s =>
    let r := fill balloc create a index d s
    ⟨r.1.get a index, [index], r.1, r.2⟩
  | level + 1, a, index, block, divider, d, s =>
    let r := fill balloc create a index d s
    let z := r.1.get a index
    if z = 0 then ⟨z, [index], r.1, r.2⟩
    else
      let f := reckon create level (.block z) (block / divider % 2 ^ 16) (block % divider) (divider / BLOCK_INDEXES) r.1 r.2
      { f with trace := index :: f.trace }

def minixBmap (block : Nat) (create : Bool) (d : Disk) (s : σ) : Option (Found σ) :=
  if ¬ block < TOTAL_BLOCK then none
  else if block < DIRECT_BLOCK then some (reckon balloc create 0 .inode (block % 2 ^ 16) block 1 d s)
  else
    let block := block - DIRECT_BLOCK
    if block < INDIRECT1_BLOCK then some (reckon balloc create 1 .inode DIRECT_BLOCK block 1 d s)
    else
      let block := block - INDIRECT1_BLOCK
      if ¬ block < INDIRECT2_BLOCK then none
      else some (reckon balloc create 2 .inode (DIRECT_BLOCK + 1) block BLOCK_INDEXES d s)

end Bmap

/-- `inode_bfree`: the slots it is called for with what they hold, and the blocks it frees. -/
def inodeBfree (d : Disk) : Nat → Arr → Nat → List Nat → List (List Nat × Zone) × List Zone
  | 0, a, i, pre => ([(pre ++ [i], d.get a i)], if d.get a i = 0 then [] else [d.get a i])
  | level + 1, a, i, pre =>
    if d.get a i = 0 then ([(pre ++ [i], d.get a i)], [])
    else
      let below := (List.range BLOCK_INDEXES).map fun j => inodeBfree d level (.block (d.get a i)) j (pre ++ [i])
      ((pre ++ [i], d.get a i) :: below.flatMap Prod.fst, below.flatMap Prod.snd ++ [d.get a i])

/-- A call of `inode_bfree` for an entry of `zone`, which is cleared. -/
def dropZone (r : (List (List Nat × Zone) × List Zone) × Disk) (x : Nat × Nat) : (List (List Nat × Zone) × List Zone) × Disk :=
  let f := inodeBfree r.2 x.2 .inode x.1 []
  ((r.1.1 ++ f.1, r.1.2 ++ f.2), r.2.put .inode x.1 0)

/-- The entries of `zone` with their levels, in the order of `minix_truncate`. -/
def entries : List (Nat × Nat) := (List.range DIRECT_BLOCK).map (·, 0) ++ [(DIRECT_BLOCK, 1), (DIRECT_BLOCK + 1, 2)]

def minixTruncate (d : Disk) : (List (List Nat × Zone) × List Zone) × Disk := entries.foldl dropZone (([], []), d)

/-! ## Paths -/

def path (block : Nat) : List Nat :=
  if block < 7 then [block] else if block < 519 then [7, block - 7] else [8, (block - 519) / 512, (block - 519) % 512]

/-- The slots of blocks: an entry of `zone`, and as many more indices as its level says. -/
def Slot (p : List Nat) : Prop := ∃ x ∈ entries, ∃ q : List Nat, p = x.1 :: q ∧ q.length = x.2 ∧ ∀ j ∈ q, j < 512

theorem mem_entries {x : Nat × Nat} : x ∈ entries ↔ x.1 < 7 ∧ x.2 = 0 ∨ x = (7, 1) ∨ x = (8, 2) := by
  unfold entries
  rw [mem_append, mem_map, mem_cons, mem_singleton]
  refine or_congr_left ⟨?_, fun ⟨h1, h2⟩ => ⟨x.1, mem_range.2 h1, Prod.ext rfl h2.symm⟩⟩
  rintro ⟨i, hi, rfl⟩
  exact ⟨mem_range.1 hi, rfl⟩

theorem path_slot {b : Nat} (h : b < 262663) : Slot (path b) := by
  unfold path Slot
  split
  · exact ⟨(b, 0), mem_entries.2 (.inl ⟨‹_›, rfl⟩), [], rfl, rfl, nofun⟩
  split
  · refine ⟨(7, 1), mem_entries.2 (.inr (.inl rfl)), [b - 7], rfl, rfl, ?_⟩
    simp only [mem_singleton, forall_eq]
    omega
  · refine ⟨(8, 2), mem_entries.2 (.inr (.inr rfl)), _, rfl, rfl, ?_⟩
    simp only [mem_cons, not_mem_nil, or_false, forall_eq_or_imp, forall_eq]
    omega

theorem slot_path {p : List Nat} (h : Slot p) : ∃ b < 262663, path b = p := by
  obtain ⟨x, hx, q, rfl, hlen, hq⟩ := h
  rcases mem_entries.1 hx with ⟨h1, h2⟩ | rfl | rfl
  · rw [h2] at hlen
    rw [eq_nil_of_length_eq_zero hlen]
    exact ⟨x.1, by omega, if_pos h1⟩
  · obtain ⟨j, rfl⟩ := length_eq_one_iff.1 hlen
    have hj := hq j (mem_singleton_self j)
    refine ⟨7 + j, by omega, ?_⟩
    rw [path, if_neg (by omega), if_pos (by omega), Nat.add_sub_cancel_left]
  · obtain ⟨j, k, rfl⟩ := length_eq_two.1 hlen
    have hj := hq j (.head _)
    have hk := hq k (.tail _ (mem_singleton_self k))
    refine ⟨519 + (512 * j + k), by omega, ?_⟩
    rw [path, if_neg (by omega), if_neg (by omega), Nat.add_sub_cancel_left, show (512 * j + k) / 512 = j by omega,
      show (512 * j + k) % 512 = k by omega]

theorem path_injective {b c : Nat} (h : path b = path c) : b = c := by
  unfold path at h
  split_ifs at h <;> simp at h <;> omega

/-! ## What is followed -/

variable {d : Disk}

def follow (d : Disk) : Arr → List Nat → List Nat
  | _, [] => []
  | a, i :: p => i :: if d.get a i = 0 then [] else follow d (.block (d.get a i)) p

theorem follow_prefix (d : Disk) : ∀ (a : Arr) (p : List Nat), follow d a p <+: p
  | _, [] => prefix_rfl
  | a, i :: p => by
    unfold follow
    split
    · exact cons_prefix_cons.2 ⟨rfl, nil_prefix⟩
    · exact cons_prefix_cons.2 ⟨rfl, follow_prefix d _ p⟩

section Bmap

variable {σ : Type} {balloc : σ → Zone × σ} {create : Bool} {s : σ}

theorem fill_get {a : Arr} {i : Nat} (b : Arr) (j : Nat) (h : d.get b j ≠ 0) : (fill balloc create a i d s).1.get b j = d.get b j := by
  unfold fill
  split
  · rename_i hz
    have hne : ¬ (b = a ∧ j = i) := by
      rintro ⟨rfl, rfl⟩
      exact h hz.1
    cases a <;> cases b <;> simp only [Disk.get, Disk.put]
    · exact update_of_ne (fun e => hne ⟨rfl, e⟩) _ _
    · rename_i z w
      by_cases hw : w = z
      · subst hw
        rw [update_self, update_of_ne fun e => hne ⟨rfl, e⟩]
      · rw [update_of_ne hw]
  · rfl

theorem fill_ne_zero (hc : create = true) (hb : ∀ s, (balloc s).1 ≠ 0) (a : Arr) (i : Nat) : (fill balloc create a i d s).1.get a i ≠ 0 := by
  unfold fill
  by_cases h : d.get a i = 0
  · rw [if_pos ⟨h, hc⟩]
    cases a <;> simp only [Disk.get, Disk.put, update_self] <;> exact hb s
  · rwa [if_neg fun h' => h h'.1]

theorem fill_still {a : Arr} {i : Nat} (hc : create = false) : (fill balloc create a i d s).1 = d := by
  unfold fill
  rw [if_neg (by simp [hc])]

def pathFrom : Nat → Nat → Nat → Nat → List Nat
  | 0, index, _, _ => [index]
  | level + 1, index, block, divider => index :: pathFrom level (block / divider % 2 ^ 16) (block % divider) (divider / BLOCK_INDEXES)

theorem reckon_follow : ∀ (level : Nat) (a : Arr) (index block divider : Nat) (d : Disk) (s : σ),
    let f := reckon balloc create level a index block divider d s
    f.trace = follow f.disk a (pathFrom level index block divider) ∧ (∀ b j, d.get b j ≠ 0 → f.disk.get b j = d.get b j) ∧
      (f.zone ≠ 0 → f.trace = pathFrom level index block divider) ∧ (create = true → (∀ s, (balloc s).1 ≠ 0) → f.zone ≠ 0) ∧
      (create = false → f.disk = d)
  | 0, a, index, block, divider, d, s => by
    refine ⟨?_, fun b j h => fill_get b j h, fun _ => rfl, fun hc hb => fill_ne_zero hc hb a index, fill_still⟩
    unfold pathFrom follow follow reckon
    split <;> rfl
  | level + 1, a, index, block, divider, d, s => by
    unfold reckon pathFrom follow
    dsimp only
    by_cases hz : (fill balloc create a index d s).1.get a index = 0
    · rw [if_pos hz, if_pos hz]
      exact ⟨rfl, fun b j h => fill_get b j h, fun h => absurd hz h, fun hc hb => absurd hz (fill_ne_zero hc hb a index), fill_still⟩
    · rw [if_neg hz]
      obtain ⟨h1, h2, h3, h4, h5⟩ := reckon_follow level (.block ((fill balloc create a index d s).1.get a index)) (block / divider % 2 ^ 16)
        (block % divider) (divider / BLOCK_INDEXES) (fill balloc create a index d s).1 (fill balloc create a index d s).2
      refine ⟨?_, fun b j h => ?_, fun h => ?_, h4, fun hc => (h5 hc).trans (fill_still hc)⟩
      · rw [h2 a index hz, if_neg hz, ← h1]
      · have hf : (fill balloc create a index d s).1.get b j = d.get b j := fill_get b j h
        exact (h2 b j (by rwa [hf])).trans hf
      · rw [h3 h]

theorem minixBmap_eq {b : Nat} (hb : b < 262663) : ∃ level index block divider,
    minixBmap balloc b create d s = some (reckon balloc create level .inode index block divider d s) ∧
      pathFrom level index block divider = path b := by
  have hindexes : BLOCK_INDEXES = 512 := rfl
  have hmod : ∀ n, n < 512 → n % 2 ^ 16 = n := fun n h => Nat.mod_eq_of_lt (by omega)
  unfold minixBmap path
  rw [if_neg (not_not.2 (show b < TOTAL_BLOCK from hb))]
  by_cases h1 : b < 7
  · rw [if_pos (show b < DIRECT_BLOCK from h1), if_pos h1]
    exact ⟨_, _, _, _, rfl, by rw [pathFrom, hmod b (by omega)]⟩
  rw [if_neg (show ¬ b < DIRECT_BLOCK from h1), if_neg h1]
  by_cases h2 : b < 519
  · rw [if_pos h2, if_pos (show b - DIRECT_BLOCK < INDIRECT1_BLOCK by show b - 7 < 512; omega)]
    refine ⟨_, _, _, _, rfl, ?_⟩
    rw [pathFrom, pathFrom, Nat.div_one, hmod _ (show b - DIRECT_BLOCK < 512 by show b - 7 < 512; omega)]
    rfl
  · rw [if_neg h2, if_neg (show ¬ b - DIRECT_BLOCK < INDIRECT1_BLOCK by show ¬ b - 7 < 512; omega),
      if_neg (not_not.2 (show b - DIRECT_BLOCK - INDIRECT1_BLOCK < INDIRECT2_BLOCK by show b - 7 - 512 < 262144; omega))]
    refine ⟨_, _, _, _, rfl, ?_⟩
    have h3 : b - DIRECT_BLOCK - INDIRECT1_BLOCK = b - 519 := Nat.sub_sub b 7 512
    rw [pathFrom, pathFrom, pathFrom, h3, hindexes, show 512 / 512 = 1 from rfl, Nat.div_one, hmod _ (by omega), hmod _ (by omega)]
    rfl

end Bmap

/-! ## What is visited -/

theorem mem_inodeBfree : ∀ (level : Nat) (a : Arr) (i : Nat) (pre x : List Nat), x ∈ (inodeBfree d level a i pre).1.map Prod.fst ↔
    ∃ q : List Nat, q.length = level ∧ (∀ j ∈ q, j < 512) ∧ ∃ t ≠ [], t <+: follow d a (i :: q) ∧ x = pre ++ t
  | level, a, i, pre, x => by
    have hself : ∀ q t : List Nat, t ≠ [] → t <+: follow d a (i :: q) →
        t = [i] ∨ d.get a i ≠ 0 ∧ ∃ u ≠ [], t = i :: u ∧ u <+: follow d (.block (d.get a i)) q := by
      intro q t ht hp
      obtain ⟨j, u, rfl⟩ := exists_cons_of_ne_nil ht
      obtain ⟨rfl, hu⟩ := cons_prefix_cons.1 hp
      by_cases hnil : u = []
      · exact .inl (by rw [hnil])
      · by_cases hz : d.get a j = 0
        · rw [if_pos hz] at hu
          exact absurd (prefix_nil.1 hu) hnil
        · rw [if_neg hz] at hu
          exact .inr ⟨hz, u, hnil, rfl, hu⟩
    have hone : ∀ q, [i] <+: follow d a (i :: q) := fun q => cons_prefix_cons.2 ⟨rfl, nil_prefix⟩
    cases level with
    | zero =>
      show x ∈ [pre ++ [i]] ↔ _
      rw [mem_singleton]
      constructor
      · exact fun h => ⟨[], rfl, nofun, [i], cons_ne_nil _ _, hone [], h⟩
      · rintro ⟨q, hq, -, t, ht, hp, rfl⟩
        rw [eq_nil_of_length_eq_zero hq] at hp
        rcases hself [] t ht hp with rfl | ⟨-, u, hu, -, hp'⟩
        · rfl
        · exact absurd (prefix_nil.1 hp') hu
    | succ level =>
      unfold inodeBfree
      by_cases hz : d.get a i = 0
      · rw [if_pos hz]
        show x ∈ [pre ++ [i]] ↔ _
        rw [mem_singleton]
        constructor
        · refine fun h => ⟨replicate (level + 1) 0, length_replicate, fun j hj => ?_, [i], cons_ne_nil _ _, hone _, h⟩
          rw [eq_of_mem_replicate hj]
          decide
        · rintro ⟨q, -, -, t, ht, hp, rfl⟩
          rcases hself q t ht hp with rfl | ⟨h, -⟩
          · rfl
          · exact absurd hz h
      · rw [if_neg hz]
        rw [map_cons, mem_cons, map_flatMap, mem_flatMap]
        constructor
        · rintro (rfl | ⟨f, hf, hx⟩)
          · refine ⟨replicate (level + 1) 0, length_replicate, fun j hj => ?_, [i], cons_ne_nil _ _, hone _, rfl⟩
            rw [eq_of_mem_replicate hj]
            decide
          · obtain ⟨j, hj, rfl⟩ := mem_map.1 hf
            obtain ⟨q, hlen, hq, t, ht, hp, rfl⟩ := (mem_inodeBfree level _ j (pre ++ [i]) x).1 hx
            refine ⟨j :: q, by rw [length_cons, hlen], ?_, i :: t, cons_ne_nil _ _, ?_, append_assoc ..⟩
            · rintro k hk
              rcases mem_cons.1 hk with rfl | hk
              · exact mem_range.1 hj
              · exact hq k hk
            · refine cons_prefix_cons.2 ⟨rfl, ?_⟩
              rw [if_neg hz]
              exact hp
        · rintro ⟨q, hlen, hq, t, ht, hp, rfl⟩
          rcases hself q t ht hp with rfl | ⟨-, u, hu, rfl, hp'⟩
          · exact .inl rfl
          · obtain ⟨j, q, rfl⟩ := exists_cons_of_length_eq_add_one hlen
            refine .inr ⟨_, mem_map.2 ⟨j, mem_range.2 (hq j (.head _)), rfl⟩, ?_⟩
            exact (mem_inodeBfree level _ j (pre ++ [i]) _).2 ⟨q, by simpa using hlen, fun k hk => hq k (.tail _ hk), u, hu, hp',
              (append_assoc pre [i] u).symm⟩

theorem starts {level : Nat} {a : Arr} {i : Nat} {pre x : List Nat} (h : x ∈ (inodeBfree d level a i pre).1.map Prod.fst) :
    pre ++ [i] <+: x := by
  obtain ⟨q, -, -, t, ht, hp, rfl⟩ := (mem_inodeBfree level a i pre x).1 h
  obtain ⟨j, u, rfl⟩ := exists_cons_of_ne_nil ht
  obtain ⟨rfl, -⟩ := cons_prefix_cons.1 hp
  exact ⟨u, by rw [append_assoc]; rfl⟩

theorem index_unique {pre x : List Nat} {i j : Nat} (h1 : pre ++ [i] <+: x) (h2 : pre ++ [j] <+: x) : i = j := by
  have h := (prefix_of_prefix_length_le h1 h2 (by simp)).eq_of_length (by simp)
  simpa using h

theorem nodup_flatMap_range {pre : List Nat} {f : Nat → List (List Nat)} (h1 : ∀ j, (f j).Nodup) (h2 : ∀ j, ∀ x ∈ f j, pre ++ [j] <+: x) (l : List Nat)
    (hl : l.Nodup) : (l.flatMap f).Nodup := by
  refine nodup_flatMap.2 ⟨fun j _ => h1 j, hl.imp fun {i j} hne => ?_⟩
  exact fun x hi hj => hne (index_unique (h2 i x hi) (h2 j x hj))

theorem inodeBfree_nodup : ∀ (level : Nat) (a : Arr) (i : Nat) (pre : List Nat), ((inodeBfree d level a i pre).1.map Prod.fst).Nodup
  | 0, _, _, _ => nodup_singleton _
  | level + 1, a, i, pre => by
    unfold inodeBfree
    split
    · exact nodup_singleton _
    · dsimp only
      rw [map_cons, map_flatMap, flatMap_map]
      refine nodup_cons.2 ⟨fun h => ?_, ?_⟩
      · obtain ⟨j, -, hx⟩ := mem_flatMap.1 h
        have hlen := (starts hx).length_le
        simp at hlen
      · exact nodup_flatMap_range (fun j => inodeBfree_nodup level _ j _) (fun j x hx => starts hx) _ nodup_range

theorem inodeBfree_freed : ∀ (level : Nat) (a : Arr) (i : Nat) (pre : List Nat),
    (inodeBfree d level a i pre).2.Perm (((inodeBfree d level a i pre).1.map Prod.snd).filter (· ≠ 0))
  | 0, a, i, pre => by
    unfold inodeBfree
    by_cases hz : d.get a i = 0
    · simp [hz]
    · rw [if_neg hz, map_singleton, filter_singleton, decide_eq_true hz]
      exact .refl _
  | level + 1, a, i, pre => by
    unfold inodeBfree
    by_cases hz : d.get a i = 0
    · simp [hz]
    · rw [if_neg hz]
      dsimp only
      rw [map_cons, filter_cons_of_pos (by simpa using hz), flatMap_map, map_flatMap, flatMap_map, filter_flatMap]
      refine (perm_append_singleton _ _).trans (.cons _ (List.Perm.flatMap_left _ fun j _ => ?_))
      exact inodeBfree_freed level _ j (pre ++ [i])

/-! ## The whole file -/

theorem inodeBfree_zone {e : Disk} (h : e.block = d.block) {i : Nat} (hz : e.zone i = d.zone i) (level : Nat) (pre : List Nat) :
    inodeBfree e level .inode i pre = inodeBfree d level .inode i pre := by
  have hget : ∀ z j, e.get (.block z) j = d.get (.block z) j := fun z j => congrFun (congrFun h z) j
  have hinode : e.get .inode i = d.get .inode i := hz
  have hblock : ∀ (level : Nat) (z : Zone) (i : Nat) (pre : List Nat), inodeBfree e level (.block z) i pre = inodeBfree d level (.block z) i pre := by
    intro level
    induction level with
    | zero =>
      intro z i pre
      unfold inodeBfree
      rw [hget]
    | succ level ih =>
      intro z i pre
      unfold inodeBfree
      simp only [hget, ih]
  cases level with
  | zero =>
    unfold inodeBfree
    rw [hinode]
  | succ level =>
    unfold inodeBfree
    simp only [hinode, hblock]

theorem foldl_dropZone : ∀ (l : List (Nat × Nat)) (r : (List (List Nat × Zone) × List Zone) × Disk), (l.map Prod.fst).Nodup →
    r.2.block = d.block → (∀ x ∈ l, r.2.zone x.1 = d.zone x.1) →
    (l.foldl dropZone r).1 = (r.1.1 ++ l.flatMap (fun x => (inodeBfree d x.2 .inode x.1 []).1),
      r.1.2 ++ l.flatMap fun x => (inodeBfree d x.2 .inode x.1 []).2)
  | [], r, _, _, _ => by simp
  | x :: l, r, hn, hb, hz => by
    obtain ⟨hx, hl⟩ := nodup_cons.1 hn
    have hzl : ∀ y ∈ l, (dropZone r x).2.zone y.1 = d.zone y.1 := fun y hy =>
      (update_of_ne (fun e : y.1 = x.1 => hx (e ▸ mem_map_of_mem hy)) _ _).trans (hz y (.tail _ hy))
    rw [foldl_cons, foldl_dropZone l (dropZone r x) hl hb hzl]
    unfold dropZone
    rw [inodeBfree_zone hb (hz x (.head _)), append_assoc, append_assoc]
    rfl

theorem minixTruncate_eq (d : Disk) : (minixTruncate d).1 = (entries.flatMap (fun x => (inodeBfree d x.2 .inode x.1 []).1),
    entries.flatMap fun x => (inodeBfree d x.2 .inode x.1 []).2) :=
  foldl_dropZone entries (([], []), d) (by decide) rfl fun _ _ => rfl

def visited (d : Disk) : List (List Nat) := (minixTruncate d).1.1.map Prod.fst

theorem mem_visited {x : List Nat} : x ∈ visited d ↔ ∃ b < 262663, x ≠ [] ∧ x <+: follow d .inode (path b) := by
  unfold visited
  rw [minixTruncate_eq, map_flatMap, mem_flatMap]
  constructor
  · rintro ⟨e, he, hx⟩
    obtain ⟨q, hlen, hq, t, ht, hp, rfl⟩ := (mem_inodeBfree _ _ _ _ _).1 hx
    obtain ⟨b, hb, hpath⟩ := slot_path ⟨e, he, q, rfl, hlen, hq⟩
    exact ⟨b, hb, ht, by rw [hpath]; exact hp⟩
  · rintro ⟨b, hb, hne, hp⟩
    obtain ⟨e, he, q, hpath, hlen, hq⟩ := path_slot hb
    rw [hpath] at hp
    exact ⟨e, he, (mem_inodeBfree _ _ _ _ _).2 ⟨q, hlen, hq, x, hne, hp, rfl⟩⟩

theorem visited_nodup (d : Disk) : (visited d).Nodup := by
  unfold visited
  rw [minixTruncate_eq, map_flatMap]
  refine nodup_flatMap.2 ⟨fun x _ => inodeBfree_nodup _ _ _ _, ?_⟩
  have hfst : (entries.map Prod.fst).Nodup := by decide
  exact (pairwise_map.1 hfst).imp fun {x y} hne z hx hy => hne (index_unique (starts hx) (starts hy))

/-- For every block `minix_bmap` takes the path of the block as far as it is there, which is in range; paths and blocks are one to one;
and `minix_truncate` visits each slot that `minix_bmap` can come to, and thus fill, exactly once, and frees what they hold. -/
theorem index_paths {σ : Type} (balloc : σ → Zone × σ) :
    (∀ b < TOTAL_BLOCK, Slot (path b) ∧ (∀ c < TOTAL_BLOCK, path b = path c → b = c) ∧
      ∀ create d s, ∃ f, minixBmap balloc b create d s = some f ∧ f.trace <+: path b ∧ (f.zone ≠ 0 → f.trace = path b) ∧
        (create = true → (∀ s, (balloc s).1 ≠ 0) → f.zone ≠ 0) ∧ ∀ x ≠ [], x <+: f.trace → x ∈ visited f.disk) ∧
    (∀ p, Slot p → ∃ b < TOTAL_BLOCK, path b = p) ∧
    ∀ d s, (visited d).Nodup ∧
      (∀ x ∈ visited d, ∃ b < TOTAL_BLOCK, ∃ f, minixBmap balloc b false d s = some f ∧ x ≠ [] ∧ x <+: f.trace) ∧
      (minixTruncate d).1.2.Perm (((minixTruncate d).1.1.map Prod.snd).filter (· ≠ 0)) := by
  refine ⟨fun b hb => ⟨path_slot hb, fun c _ h => path_injective h, fun create d s => ?_⟩, fun p h => slot_path h, fun d s => ⟨visited_nodup d, ?_, ?_⟩⟩
  · obtain ⟨level, index, block, divider, hf, hp⟩ := @minixBmap_eq d _ balloc create s b hb
    obtain ⟨h1, -, h3, h4, -⟩ := @reckon_follow _ balloc create level .inode index block divider d s
    rw [hp] at h1 h3
    refine ⟨_, hf, ?_, h3, h4, fun x hx hpre => mem_visited.2 ⟨b, hb, hx, h1 ▸ hpre⟩⟩
    rw [h1]
    exact follow_prefix _ _ _
  · intro x hx
    obtain ⟨b, hb, hne, hpre⟩ := mem_visited.1 hx
    obtain ⟨level, index, block, divider, hf, hp⟩ := @minixBmap_eq d _ balloc false s b hb
    obtain ⟨h1, -, -, -, h5⟩ := @reckon_follow _ balloc false level .inode index block divider d s
    rw [hp] at h1
    refine ⟨b, hb, _, hf, hne, ?_⟩
    rw [h1, h5 rfl]
    exact hpre
  · rw [minixTruncate_eq]
    rw [List.map_flatMap, List.filter_flatMap]
    exact List.Perm.flatMap_left _ fun x _ => inodeBfree_freed _ _ _ _

end Onix.Minix.Path
