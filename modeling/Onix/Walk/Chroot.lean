/-
Confinement below a root over all calls of `chdir` and `chroot`: a task leaves the root exactly by asking for its parent.
-/
import Onix.Walk.Confine

namespace Onix.Walk

open List Relation Onix.Lib

variable {t : Tree} {x y z R dir inode : Node} {name next right path : List Char} {e : Entry} {n m : Nat} {s u : Task} {a : Act}

/-! ## The rounds of `named` are enough -/

theorem matched_nil {fs : FsType} (h : e.name = selfName fs ∨ e.name = parentName fs ∨ Named fs e.name) : e.matched [] fs = none := by
  have hne : Named fs e.name := by
    rcases h with h | h | h
    · rw [h]
      cases fs <;> simp [Named, selfName, isoNamelen]
    · rw [h]
      cases fs <;> simp [Named, parentName, isoNamelen]
    · exact h
  cases fs with
  | minix =>
    unfold Entry.matched
    cases hn : e.name with
    | nil => exact absurd hn hne
    | cons b r => rfl
  | iso9660 =>
    have hno : isoMatchName [] (namelen []).1 e.name = false := by
      unfold isoMatchName
      have hlen : (namelen []).1 ≠ isoNamelen e.name := Ne.symm hne
      rw [if_neg (by simp [matchName]), if_neg (by simp [matchName]), if_pos hlen]
    unfold Entry.matched
    rw [hno]
    rfl

theorem Hierarchy.opNamei_nil (H : Hierarchy t) (hx : t.isDir x = true) : t.opNamei x [] = none := by
  obtain ⟨rest, hr, hnamed⟩ := H.dots x hx
  have hfind : t.find x [] = none := by
    refine findSome?_eq_none_iff.2 fun e he => ?_
    rw [matched_nil, Option.map_none]
    rw [hr] at he
    rcases mem_cons.1 he with rfl | he
    · exact .inl rfl
    · rcases mem_cons.1 he with rfl | he
      · exact .inr (.inl rfl)
      · exact .inr (.inr (hnamed e he))
  unfold Tree.opNamei
  rw [hfind]
  rfl

/-- A path of `n` characters takes no more than `n + 1` rounds. -/
theorem Hierarchy.walk_enough (H : Hierarchy t) : ∀ {n m : Nat} {dir : Node} {name : List Char}, t.Below H.top dir → t.isDir dir = true →
    name.length < n → name.length < m → t.walk right n dir name = t.walk right m dir name
  | 0, _, _, _, _, _, hn, _ => absurd hn (Nat.not_lt_zero _)
  | _ + 1, 0, _, _, _, _, _, hm => absurd hm (Nat.not_lt_zero _)
  | n + 1, m + 1, dir, name, hb, hx, hn, hm => by
    have hstays : H.Stays H.top dir name := .inl rfl
    obtain ⟨-, hx'⟩ := H.turn_below .refl hb hx hstays
    unfold Tree.walk
    dsimp only
    cases ho : t.opNamei (t.turn dir name) name with
    | none => rfl
    | some y =>
      obtain ⟨inode, next⟩ := y
      have hne : name ≠ [] := by
        rintro rfl
        rw [H.opNamei_nil hx'] at ho
        cases ho
      have hlt := opNamei_shorter ho hne
      dsimp only
      by_cases hstop : (!t.isDir inode || !t.exec inode) = true
      · rw [if_pos hstop, if_pos hstop]
      · rw [if_neg hstop, if_neg hstop]
        have hi : t.isDir inode = true := by
          by_contra hno
          apply hstop
          rw [eq_false_of_ne_true hno]
          rfl
        rw [walk_enough H (H.opNamei_below .refl hb hx hstays ho) hi (by omega : next.length < n) (by omega : next.length < m)]

/-! ## Results are among what is reached -/

theorem walk_mem : ∀ {n : Nat} {dir : Node} {name : List Char}, (t.walk right n dir name).2 = some (x, next) →
    x ∈ (t.walk right n dir name).1
  | 0, _, _, h => nomatch h
  | n + 1, dir, name, h => by
    unfold Tree.walk at h ⊢
    dsimp only at h ⊢
    split at h
    · cases h
    · split at h
      · cases h
      · rename_i hstop
        rw [if_neg hstop]
        split at h
        · rename_i hend
          rw [if_pos hend]
          cases h
          simp
        · rename_i hend
          rw [if_neg hend]
          exact .tail _ (.tail _ (walk_mem h))

theorem named_mem (h : (t.named s path).2 = some (x, next)) : x ∈ (t.named s path).1 := by
  unfold Tree.named at h ⊢
  split at h
  · cases h
  · dsimp only at h ⊢
    split at h
    · cases h
      exact mem_singleton_self _
    · exact .tail _ (walk_mem h)

theorem namei_mem (h : (t.namei s path).2 = some x) : x ∈ (t.namei s path).1 := by
  have hn : ∀ d m, (t.named s path).2 = some (d, m) → d ∈ (t.named s path).1 := fun d m hd => named_mem hd
  unfold Tree.namei Tree.last at h ⊢
  generalize t.named s path = r at h hn ⊢
  obtain ⟨l, r⟩ := r
  cases r with
  | none => cases h
  | some p =>
    obtain ⟨d, m⟩ := p
    dsimp only at h ⊢
    split at h
    · rename_i hm
      rw [if_pos hm]
      cases h
      exact hn x m rfl
    · rename_i hm
      rw [if_neg hm]
      split at h
      · dsimp only at h
        split at h
        · cases h
          simp
        · cases h
      · cases h
        simp

theorem named_sub (h : x ∈ (t.named s path).1) : x ∈ (t.namei s path).1 := by
  unfold Tree.namei
  have heq := Hierarchy.last_reached (t := t) (r := (t.named s path).2) (t.named s path).1
  have hr : t.last (t.named s path) = t.last ((t.named s path).1, (t.named s path).2) := rfl
  rw [hr, heq]
  exact mem_append_left _ h

/-! ## Runs -/

/-- Everything `named` and `namei` reach and return is `R` or below it. -/
def Tree.Within (t : Tree) (R : Node) (s : Task) (path : List Char) : Prop :=
  (∀ x ∈ (t.named s path).1, t.Below R x) ∧ (∀ x next, (t.named s path).2 = some (x, next) → t.Below R x) ∧
    (∀ x ∈ (t.namei s path).1, t.Below R x) ∧ ∀ x, (t.namei s path).2 = some x → t.Below R x

/-- The calls of a task whose root is `R` and whose working directory is `R` or below it. -/
def confinement (t : Tree) (R : Node) : Machine Task Act Empty where
  start s := s.iroot = R ∧ t.Below R s.ipwd ∧ t.isDir s.ipwd = true
  enabled _ _ := True
  step s a := .ok (t.call s a)

theorem within_iff : t.Within R s path ↔ ∀ x ∈ (t.namei s path).1, t.Below R x := by
  constructor
  · exact fun h => h.2.2.1
  · intro h
    refine ⟨fun x hx => h x (named_sub hx), fun x next hx => h x (named_sub (named_mem hx)), h, fun x hx => h x (namei_mem hx)⟩

theorem Tree.Within.call (h : t.Within R s a.pathname) (hroot : t.Below R s.iroot ∧ t.isDir s.iroot = true)
    (hpwd : t.Below R s.ipwd ∧ t.isDir s.ipwd = true) : (t.Below R (t.call s a).iroot ∧ t.isDir (t.call s a).iroot = true) ∧
    t.Below R (t.call s a).ipwd ∧ t.isDir (t.call s a).ipwd = true := by
  obtain ⟨-, -, -, hres⟩ := h
  cases a with
  | chdir path =>
    unfold Tree.call Tree.sysChdir
    dsimp only
    split
    · exact ⟨hroot, hpwd⟩
    · rename_i inode hi
      split
      · exact ⟨hroot, hpwd⟩
      · split
        · exact ⟨hroot, hpwd⟩
        · rename_i hd
          exact ⟨hroot, hres inode hi, by simpa using hd⟩
  | chroot path =>
    unfold Tree.call Tree.sysChroot
    dsimp only
    split
    · exact ⟨hroot, hpwd⟩
    · rename_i inode hi
      split
      · exact ⟨hroot, hpwd⟩
      · rename_i hd
        rw [Bool.or_eq_true, not_or] at hd
        exact ⟨⟨hres inode hi, by simpa using hd.1⟩, hpwd⟩

/-- As long as no name asks for the parent of `R` while the task is there, the root and the working directory stay below `R`; and whatever
`named` and `namei` reach from there is below `R` if and only if no name of the path asks for it. -/
theorem chroot_confined (H : Hierarchy t) (htop : t.Below H.top R) (hR : t.isDir R = true)
    (h : (confinement t R).Reach (fun s a => H.Confined R s a.pathname) s) :
    t.Below R s.iroot ∧ t.Below R s.ipwd ∧ ∀ path, t.Within R s path ↔ H.Confined R s path := by
  have hinv : (t.Below R s.iroot ∧ t.isDir s.iroot = true) ∧ t.Below R s.ipwd ∧ t.isDir s.ipwd = true := by
    refine h.inv (I := fun s => (t.Below R s.iroot ∧ t.isDir s.iroot = true) ∧ t.Below R s.ipwd ∧ t.isDir s.ipwd = true) ?_ ?_
    · rintro s ⟨rfl, hpwd⟩
      exact ⟨⟨.refl, hR⟩, hpwd⟩
    · rintro s a u hs hc ⟨-, hstep⟩
      obtain rfl := Except.ok.inj hstep
      exact (within_iff.2 ((H.namei_iff htop hR hs.1 hs.2).2 hc)).call hs.1 hs.2
  exact ⟨hinv.1.1, hinv.2.1, fun path => within_iff.trans (H.namei_iff htop hR hinv.1 hinv.2)⟩

/-! ## A small tree -/

/-- A disk with the directories `/a`, `/a/b` and `/m`, and a CD on `/m`. -/
def small : Tree where
  fs dev := if dev = 2 then .iso9660 else .minix
  entries
    | ⟨1, 1⟩ => [⟨['.'], 1⟩, ⟨['.', '.'], 1⟩, ⟨['a'], 2⟩, ⟨['m'], 3⟩]
    | ⟨1, 2⟩ => [⟨['.'], 2⟩, ⟨['.', '.'], 1⟩, ⟨['b'], 4⟩]
    | ⟨1, 3⟩ => [⟨['.'], 3⟩, ⟨['.', '.'], 1⟩]
    | ⟨1, 4⟩ => [⟨['.'], 4⟩, ⟨['.', '.'], 2⟩]
    | ⟨2, 1⟩ => [⟨['\x00'], 1⟩, ⟨['\x01'], 1⟩]
    | _ => []
  isDir x := x ∈ ([⟨1, 1⟩, ⟨1, 2⟩, ⟨1, 3⟩, ⟨1, 4⟩, ⟨2, 1⟩] : List Node)
  exec _ := true
  mount x := if x = ⟨1, 1⟩ then some 1 else if x = ⟨1, 3⟩ then some 2 else none
  iroot dev := if dev = 2 then ⟨2, 1⟩ else ⟨1, 1⟩
  imount dev := if dev = 2 then ⟨1, 3⟩ else ⟨1, 1⟩

theorem small_cases (h : small.isDir x = true) : x = ⟨1, 1⟩ ∨ x = ⟨1, 2⟩ ∨ x = ⟨1, 3⟩ ∨ x = ⟨1, 4⟩ ∨ x = ⟨2, 1⟩ := by
  simpa [small] using h

def smallHierarchy : Hierarchy small where
  top := ⟨1, 1⟩
  up x := if x = ⟨1, 4⟩ then 2 else 1
  depth x := if x = ⟨1, 1⟩ then 0 else if x = ⟨1, 2⟩ ∨ x = ⟨1, 3⟩ then 1 else 2
  dots x hx := by
    rcases small_cases hx with rfl | rfl | rfl | rfl | rfl
    · exact ⟨_, rfl, by simp [Named, small]⟩
    · exact ⟨_, rfl, by simp [Named, small]⟩
    · exact ⟨_, rfl, by simp⟩
    · exact ⟨_, rfl, by simp⟩
    · exact ⟨_, rfl, by simp⟩
  numbers x hx := by
    rcases small_cases hx with rfl | rfl | rfl | rfl | rfl <;> decide
  child x hx e he hd := by
    rcases small_cases hx with rfl | rfl | rfl | rfl | rfl
    · have he : e = ⟨['a'], 2⟩ ∨ e = ⟨['m'], 3⟩ := by simpa [small] using he
      rcases he with rfl | rfl <;> decide
    · obtain rfl : e = ⟨['b'], 4⟩ := by simpa [small] using he
      decide
    all_goals exact nomatch he
  root x hx h := by
    rcases small_cases hx with rfl | rfl | rfl | rfl | rfl <;> first | rfl | (revert h; decide)
  topDir := by decide
  topRoot := rfl
  topMount := rfl
  mounted x d h := by
    unfold small at h
    dsimp only at h
    split at h
    · rename_i hx
      cases h
      subst hx
      decide
    · split at h
      · rename_i hx
        cases h
        subst hx
        decide
      · cases h

theorem small_below : small.Below smallHierarchy.top ⟨1, 2⟩ :=
  .single (.inl ⟨by decide, ⟨['a'], 2⟩, by decide, rfl⟩)

theorem walk_enough_small : small.walk ['b'] 4 ⟨1, 1⟩ ['a', '/', 'b'] = small.walk ['b'] 9 ⟨1, 1⟩ ['a', '/', 'b'] :=
  smallHierarchy.walk_enough .refl (by decide) (by decide) (by decide)

/-- A task whose root is `/a` goes to `b`. -/
theorem chroot_confined_small : (confinement small ⟨1, 2⟩).Reach (fun s a => smallHierarchy.Confined ⟨1, 2⟩ s a.pathname) ⟨⟨1, 2⟩, ⟨1, 4⟩⟩ ∧
    small.Below ⟨1, 2⟩ ⟨1, 4⟩ := by
  have hstart : (confinement small ⟨1, 2⟩).Reach (fun s a => smallHierarchy.Confined ⟨1, 2⟩ s a.pathname) ⟨⟨1, 2⟩, ⟨1, 2⟩⟩ :=
    ⟨⟨⟨1, 2⟩, ⟨1, 2⟩⟩, ⟨rfl, .refl, by decide⟩, .refl _⟩
  have hstep := hstart.next (.chdir ['b']) (fun _ => .inr (.inl (by simp [Tree.Ascends, Asks, DotDot, matchName, small]))) trivial rfl
  exact ⟨hstep, (chroot_confined smallHierarchy small_below (by decide) hstep).2.1⟩

/-- A task calls `chroot("/a")` and `chdir("/")`; then `..` is the root of the system. -/
theorem dotdot_escapes : small.call (small.call ⟨⟨1, 1⟩, ⟨1, 1⟩⟩ (.chroot ['/', 'a'])) (.chdir ['/']) = ⟨⟨1, 2⟩, ⟨1, 2⟩⟩ ∧
    (small.namei ⟨⟨1, 2⟩, ⟨1, 2⟩⟩ ['.', '.']).2 = some ⟨1, 1⟩ ∧ ¬ small.Below ⟨1, 2⟩ ⟨1, 1⟩ := by
  refine ⟨by decide +kernel, by decide +kernel, fun hb => ?_⟩
  rcases smallHierarchy.below_depth hb (by decide) with h | h
  · cases h
  · revert h
    decide

end Onix.Walk
