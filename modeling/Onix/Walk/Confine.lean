/-
A root below which a task stays: every inode a path reaches is the root or lies below it, exactly as long as no name asks for the parent
of the root.
-/
import Onix.Walk.Search

namespace Onix.Walk

open List Relation Onix.Lib

variable {t : Tree} {x y z R dir inode : Node} {name next right path : List Char} {e : Entry} {n : Nat} {s : Task}

/-! ## One name -/

/-- Whether a name asks for the parent of a directory that is not the root of its filesystem, or leaves the filesystem. -/
def Tree.Ascends (t : Tree) (dir : Node) (name : List Char) : Prop :=
  DotDot name ∨ Asks (t.fs dir.dev) name ∧ dir ≠ t.iroot dir.dev

variable (H : Hierarchy t)

/-- The parent of `R` is not asked for, unless `R` is the root of the system. -/
def Hierarchy.Stays (R dir : Node) (name : List Char) : Prop :=
  R = H.top ∨ ¬ t.Ascends dir name ∨ dir ≠ R ∧ t.turn dir name ≠ R

theorem leaves_iff : t.leaves dir name = true ↔ DotDot name ∧ dir = t.iroot dir.dev := by
  unfold Tree.leaves DotDot
  rw [Bool.and_eq_true, decide_eq_true_eq]

theorem turn_stays (h : ¬ t.leaves dir name = true) : t.turn dir name = dir := if_neg h

include H

namespace Hierarchy

theorem turn_leaves (h : t.leaves dir name = true) : t.turn dir name = H.above dir := by
  unfold Tree.turn above
  rw [if_pos h, if_pos (leaves_iff.1 h).2]

theorem above_below (htop : t.Below H.top R) (hb : t.Below R x) (hx : t.isDir x = true) (h : R = H.top ∨ x ≠ R) :
    t.Below R (H.above x) ∧ t.isDir (H.above x) = true := by
  by_cases hne : x = R
  · obtain rfl := h.resolve_right (not_not_intro hne)
    exact H.climb_top hb hx
  · exact H.climb hb hx hne

theorem turn_below (htop : t.Below H.top R) (hb : t.Below R dir) (hx : t.isDir dir = true) (h : H.Stays R dir name) :
    t.Below R (t.turn dir name) ∧ t.isDir (t.turn dir name) = true := by
  by_cases hl : t.leaves dir name = true
  · rw [H.turn_leaves hl]
    refine H.above_below htop hb hx ?_
    rcases h with h | h | ⟨h, -⟩
    · exact .inl h
    · exact absurd (.inl (leaves_iff.1 hl).1) h
    · exact .inr h
  · rw [turn_stays hl]
    exact ⟨hb, hx⟩

theorem opNamei_below (htop : t.Below H.top R) (hb : t.Below R dir) (hx : t.isDir dir = true) (h : H.Stays R dir name)
    (ho : t.opNamei (t.turn dir name) name = some (inode, next)) : t.Below R inode := by
  obtain ⟨hb', hx'⟩ := H.turn_below htop hb hx h
  obtain ⟨⟨e, m⟩, he, ho⟩ := Option.map_eq_some_iff.1 ho
  cases ho
  rcases H.find_cases hx' he with hn | ⟨hn, hasks⟩ | hmem
  · rw [hn]
    exact hb'.fit
  · rw [hn]
    by_cases hroot : t.turn dir name = t.iroot (t.turn dir name).dev
    · rw [H.root _ hx' hroot]
      exact hb'.fit
    · have habove : (⟨(t.turn dir name).dev, H.up (t.turn dir name)⟩ : Node) = H.above (t.turn dir name) := (if_neg hroot).symm
      rw [habove]
      refine (H.above_below htop hb' hx' ?_).1.fit
      rcases h with h | h | ⟨-, h⟩
      · exact .inl h
      · -- nothing is asked for, so the directory is the one that was searched
        exfalso
        have hl : ¬ t.leaves dir name = true := fun hl => h (.inl (leaves_iff.1 hl).1)
        rw [turn_stays hl] at hasks hroot
        exact h (.inr ⟨hasks, hroot⟩)
      · exact .inr h
  · have hedge : t.Edge (t.turn dir name) ⟨(t.turn dir name).dev, e.nr⟩ := .inl ⟨hx', e, hmem, rfl⟩
    exact Tree.Below.fit (hb'.tail hedge)

theorem opNamei_escapes (htop : t.Below H.top R) (hR : t.isDir R = true) (hne : R ≠ H.top) (hroot : R ≠ t.iroot R.dev)
    (hasks : Asks (t.fs R.dev) name) : ∃ inode next, t.opNamei R name = some (inode, next) ∧ ¬ t.Below R inode := by
  obtain ⟨e, next, he, hn⟩ := H.find_asks hR hasks
  refine ⟨t.fit ⟨R.dev, e.nr⟩, next, ?_, ?_⟩
  · unfold Tree.opNamei
    rw [he]
    rfl
  · have habove : (⟨R.dev, H.up R⟩ : Node) = H.above R := (if_neg hroot).symm
    rw [hn, habove]
    exact H.escape_fit htop hR hne hroot

theorem escapes (htop : t.Below H.top R) (hR : t.isDir R = true) (hb : t.Below R dir) (hx : t.isDir dir = true) (h : ¬ H.Stays R dir name) :
    ¬ t.Below R (t.turn dir name) ∨ ∃ inode next, t.opNamei (t.turn dir name) name = some (inode, next) ∧ ¬ t.Below R inode := by
  unfold Stays at h
  have hne : R ≠ H.top := fun he => h (.inl he)
  have hasc : t.Ascends dir name := by
    by_contra hno
    exact h (.inr (.inl hno))
  by_cases hl : t.leaves dir name = true
  · obtain ⟨hdd, hdir⟩ := leaves_iff.1 hl
    rw [H.turn_leaves hl]
    by_cases hdR : dir = R
    · left
      rw [hdR]
      exact H.escape htop hR hne
    · right
      have hturn : H.above dir = R := by
        by_contra hno
        exact h (.inr (.inr ⟨hdR, by rw [H.turn_leaves hl]; exact hno⟩))
      -- `R` is what a filesystem is mounted on
      have hroot : R ≠ t.iroot R.dev := by
        rcases ReflTransGen.cases_tail hb with heq | ⟨z, -, hz⟩
        · exact absurd heq hdR
        · obtain ⟨hzd, -⟩ := H.edge_above hz hx
          rw [hturn] at hzd
          subst hzd
          rcases hz with ⟨-, e, he, rfl⟩ | ⟨d, hd, hnd, hid⟩
          · exact absurd hdir (H.child _ hR e he hx).2.1
          · obtain ⟨-, -, -, h4⟩ := H.mounted _ d hd
            rcases h4 with ⟨h5, -⟩ | ⟨h5, -⟩
            · exact absurd h5 hne
            · exact h5
      rw [hturn]
      exact H.opNamei_escapes htop hR hne hroot (.inl hdd)
  · rw [turn_stays hl] at h ⊢
    have hdR : dir = R := by
      by_contra hno
      exact h (.inr (.inr ⟨hno, hno⟩))
    right
    rw [hdR] at hasc hl ⊢
    have hroot : Asks (t.fs R.dev) name ∧ R ≠ t.iroot R.dev := by
      rcases hasc with hd | hd
      · exact ⟨.inl hd, fun he => hl (leaves_iff.2 ⟨hd, he⟩)⟩
      · exact hd
    exact H.opNamei_escapes htop hR hne hroot.2 hroot.1

/-! ## One path -/

/-- The parent of `R` is not asked for by any name of a path, from a directory on: the names are looked up one by one up to the last, at
`right`. -/
def Keeps (H : Hierarchy t) (R : Node) (right : List Char) : Nat → Node → List Char → Prop
  | 0, _, _ => True
  | n + 1, dir, name => H.Stays R dir name ∧ ∀ inode next, t.opNamei (t.turn dir name) name = some (inode, next) → t.isDir inode = true →
      t.exec inode = true →
        if next.length = right.length then next ≠ [] → H.Stays R inode next else H.Keeps R right n inode next

def Confined (H : Hierarchy t) (R : Node) (s : Task) (path : List Char) : Prop :=
  match s.origin path with
  | none => True
  | some (dir, name) =>
    match strrsep name with
    | none => name ≠ [] → H.Stays R dir name
    | some last => H.Keeps R last.tail (name.length + 1) dir name

omit H in
theorem last_none (l : List Node) : t.last (l, none) = (l, none) := rfl

omit H in
theorem last_end (l : List Node) (dir : Node) : t.last (l, some (dir, [])) = (l, some dir) := rfl

omit H in
theorem last_reached {r : Option (Node × List Char)} (l : List Node) : (t.last (l, r)).1 = l ++ (t.last ([], r)).1 := by
  unfold Tree.last
  cases r with
  | none => simp
  | some r =>
    dsimp only
    split
    · simp
    · split <;> simp

theorem last_iff (htop : t.Below H.top R) (hR : t.isDir R = true) (hb : t.Below R dir) (hx : t.isDir dir = true) :
    (∀ x ∈ (t.last ([], some (dir, name))).1, t.Below R x) ↔ (name ≠ [] → H.Stays R dir name) := by
  by_cases hn : name = []
  · rw [hn, last_end]
    exact ⟨fun _ h => absurd rfl h, fun _ x hx => nomatch hx⟩
  · have heq : (t.last ([], some (dir, name))).1 =
        t.turn dir name :: ((t.opNamei (t.turn dir name) name).map fun x => x.1).toList := by
      unfold Tree.last
      dsimp only
      rw [if_neg hn]
      cases t.opNamei (t.turn dir name) name with
      | none => rfl
      | some x => rfl
    rw [heq]
    constructor
    · intro h _
      by_contra hs
      rcases H.escapes htop hR hb hx hs with he | ⟨inode, next, ho, he⟩
      · exact he (h _ (.head _))
      · refine he (h _ (.tail _ ?_))
        rw [ho]
        exact mem_singleton_self _
    · intro h x hmem
      have hs := h hn
      rcases mem_cons.1 hmem with rfl | hmem
      · exact (H.turn_below htop hb hx hs).1
      · cases ho : t.opNamei (t.turn dir name) name with
        | none =>
          rw [ho] at hmem
          cases hmem
        | some y =>
          obtain ⟨inode, next⟩ := y
          rw [ho] at hmem
          obtain rfl : x = inode := by simpa using hmem
          exact H.opNamei_below htop hb hx hs ho

theorem found_iff (htop : t.Below H.top R) (hR : t.isDir R = true) (hb : t.Below R dir) (hx : t.isDir dir = true)
    (ho : t.opNamei (t.turn dir name) name = some (inode, next)) :
    t.Below R (t.turn dir name) ∧ t.Below R inode ↔ H.Stays R dir name := by
  constructor
  · rintro ⟨h1, h2⟩
    by_contra hs
    rcases H.escapes htop hR hb hx hs with he | ⟨i, m, hi, he⟩
    · exact he h1
    · rw [ho] at hi
      cases hi
      exact he h2
  · intro hs
    exact ⟨(H.turn_below htop hb hx hs).1, H.opNamei_below htop hb hx hs ho⟩

omit H in
theorem last_append (l : List Node) (r : Reached (Node × List Char)) : (t.last (l ++ r.1, r.2)).1 = l ++ (t.last r).1 := by
  rw [last_reached, append_assoc]
  congr 1
  exact (last_reached r.1).symm

theorem walk_iff (htop : t.Below H.top R) (hR : t.isDir R = true) : ∀ (n : Nat) (dir : Node) (name : List Char), t.Below R dir →
    t.isDir dir = true → ((∀ x ∈ (t.last (t.walk right n dir name)).1, t.Below R x) ↔ H.Keeps R right n dir name)
  | 0, _, _, _, _ => ⟨fun _ => trivial, fun _ x hx => nomatch hx⟩
  | n + 1, dir, name, hb, hx => by
    unfold Tree.walk Keeps
    dsimp only
    cases ho : t.opNamei (t.turn dir name) name with
    | none =>
      constructor
      · intro h
        refine ⟨?_, fun _ _ hn => nomatch hn⟩
        by_contra hs
        rcases H.escapes htop hR hb hx hs with he | ⟨i, m, hi, -⟩
        · exact he (h _ (mem_singleton_self _))
        · rw [ho] at hi
          cases hi
      · rintro ⟨hs, -⟩ x hmem
        obtain rfl := mem_singleton.1 hmem
        exact (H.turn_below htop hb hx hs).1
    | some y =>
      obtain ⟨inode, next⟩ := y
      have hfound := H.found_iff htop hR hb hx ho
      have hpair : (∀ x ∈ [t.turn dir name, inode], t.Below R x) ↔ t.Below R (t.turn dir name) ∧ t.Below R inode := by
        constructor
        · intro h
          exact ⟨h _ (by simp), h _ (by simp)⟩
        · rintro ⟨h1, h2⟩ x hmem
          rcases mem_cons.1 hmem with rfl | hmem
          · exact h1
          · obtain rfl := mem_singleton.1 hmem
            exact h2
      dsimp only
      by_cases hgo : t.isDir inode = true ∧ t.exec inode = true
      · rw [if_neg (by simp [hgo.1, hgo.2])]
        -- what follows is reached from an inode that is below `R`
        have hsplit : ∀ (r : Reached (Node × List Char)) (P : Prop), (t.Below R inode → ((∀ x ∈ (t.last r).1, t.Below R x) ↔ P)) →
            ((∀ x ∈ (t.last ([t.turn dir name, inode] ++ r.1, r.2)).1, t.Below R x) ↔ H.Stays R dir name ∧ P) := by
          intro r P hP
          rw [last_append, ← hfound, ← hpair]
          constructor
          · intro h
            have h1 : ∀ x ∈ [t.turn dir name, inode], t.Below R x := fun x hx => h x (mem_append_left _ hx)
            exact ⟨h1, (hP (hpair.1 h1).2).1 fun x hx => h x (mem_append_right _ hx)⟩
          · rintro ⟨h1, h2⟩ x hmem
            rcases mem_append.1 hmem with hmem | hmem
            · exact h1 x hmem
            · exact (hP (hpair.1 h1).2).2 h2 x hmem
        by_cases hend : next.length = right.length
        · rw [if_pos hend]
          have h := hsplit ([], some (inode, next)) (next ≠ [] → H.Stays R inode next) fun hi => H.last_iff htop hR hi hgo.1
          refine h.trans (and_congr_right fun _ => ?_)
          constructor
          · rintro h1 i m him - -
            cases him
            rw [if_pos hend]
            exact h1
          · intro h1
            have h2 := h1 inode next rfl hgo.1 hgo.2
            rw [if_pos hend] at h2
            exact h2
        · rw [if_neg hend]
          have h := hsplit (t.walk right n inode next) (H.Keeps R right n inode next) fun hi => walk_iff htop hR n inode next hi hgo.1
          refine h.trans (and_congr_right fun _ => ?_)
          constructor
          · rintro h1 i m him - -
            cases him
            rw [if_neg hend]
            exact h1
          · intro h1
            have h2 := h1 inode next rfl hgo.1 hgo.2
            rw [if_neg hend] at h2
            exact h2
      · have hstop : (!t.isDir inode || !t.exec inode) = true := by
          by_contra hno
          apply hgo
          simpa using hno
        rw [if_pos hstop, last_none, hpair, hfound]
        constructor
        · intro hs
          refine ⟨hs, ?_⟩
          rintro i m him h1 h2
          cases him
          exact absurd ⟨h1, h2⟩ hgo
        · exact fun h => h.1

omit H in
theorem origin_mem {p : Node × List Char} (h : s.origin path = some p) : p.1 = s.iroot ∨ p.1 = s.ipwd := by
  unfold Task.origin at h
  split at h
  · cases h
  · split at h <;> cases h
    · exact .inl rfl
    · exact .inr rfl

theorem namei_iff (htop : t.Below H.top R) (hR : t.isDir R = true) (hroot : t.Below R s.iroot ∧ t.isDir s.iroot = true)
    (hpwd : t.Below R s.ipwd ∧ t.isDir s.ipwd = true) : (∀ x ∈ (t.namei s path).1, t.Below R x) ↔ H.Confined R s path := by
  unfold Tree.namei Tree.named Confined
  cases ho : s.origin path with
  | none => exact ⟨fun _ => trivial, fun _ x hx => nomatch hx⟩
  | some p =>
    obtain ⟨dir, name⟩ := p
    have hstart : t.Below R dir ∧ t.isDir dir = true := by
      rcases origin_mem ho with h | h
      · rw [show dir = s.iroot from h]
        exact hroot
      · rw [show dir = s.ipwd from h]
        exact hpwd
    have hcons : ∀ r : Reached (Node × List Char), (∀ x ∈ (t.last (dir :: r.1, r.2)).1, t.Below R x) ↔ ∀ x ∈ (t.last r).1, t.Below R x := by
      intro r
      have heq : (t.last (dir :: r.1, r.2)).1 = dir :: (t.last r).1 := last_append [dir] r
      rw [heq]
      constructor
      · exact fun h x hx => h x (.tail _ hx)
      · rintro h x hx
        rcases mem_cons.1 hx with rfl | hx
        · exact hstart.1
        · exact h x hx
    dsimp only
    cases strrsep name with
    | none => exact (hcons ([], some (dir, name))).trans (H.last_iff htop hR hstart.1 hstart.2)
    | some last => exact (hcons _).trans (H.walk_iff htop hR _ dir name hstart.1 hstart.2)

end Hierarchy

end Onix.Walk
