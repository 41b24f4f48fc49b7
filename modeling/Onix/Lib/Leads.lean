/-
Programs with a state that may fail, by what holds whenever they end: `Leads p s Q` says that the program, if it ends from `s` without a
failure, ends as `Q` says. One rule for each way programs are put together, to be used from the first step to the last.
-/
import Mathlib.Tactic.Common

namespace Onix.Lib

universe u

variable {σ ε α β : Type u} {s : σ}
variable {p : StateT σ (Except ε) α} {Q : β → σ → Prop}

def Leads (p : StateT σ (Except ε) α) (s : σ) (Q : α → σ → Prop) : Prop := ∀ a t, p s = .ok (a, t) → Q a t

theorem Leads.mono {Q R : α → σ → Prop} (h : Leads p s Q) (hQ : ∀ a t, Q a t → R a t) : Leads p s R :=
  fun a t hp => hQ a t (h a t hp)

theorem Leads.and {Q R : α → σ → Prop} (hQ : Leads p s Q) (hR : Leads p s R) :
    Leads p s fun a t => Q a t ∧ R a t :=
  fun a t hp => ⟨hQ a t hp, hR a t hp⟩

theorem Leads.pure {a : α} {Q : α → σ → Prop} (h : Q a s) : Leads (Pure.pure a : StateT σ (Except ε) α) s Q := by
  intro b t hp
  cases hp
  exact h

theorem Leads.bind {f : α → StateT σ (Except ε) β} {R : α → σ → Prop} (hp : Leads p s R)
    (hf : ∀ a t, R a t → Leads (f a) t Q) : Leads (p >>= f) s Q := by
  intro b u hb
  change (p s >>= fun x => f x.1 x.2 : Except ε (β × σ)) = _ at hb
  cases h : p s with
  | error e =>
    rw [h] at hb
    cases hb
  | ok x =>
    rw [h] at hb
    exact hf x.1 x.2 (hp x.1 x.2 h) b u hb

theorem Leads.get {f : σ → StateT σ (Except ε) β} (h : Leads (f s) s Q) :
    Leads ((MonadState.get : StateT σ (Except ε) σ) >>= f) s Q := h

theorem Leads.set {t : σ} {Q : PUnit → σ → Prop} (h : Q ⟨⟩ t) : Leads (MonadStateOf.set t : StateT σ (Except ε) PUnit) s Q := by
  intro a u hp
  cases hp
  exact h

theorem Leads.modify {g : σ → σ} {Q : PUnit → σ → Prop} (h : Q ⟨⟩ (g s)) : Leads (modify g : StateT σ (Except ε) PUnit) s Q := by
  intro a u hp
  cases hp
  exact h

theorem Leads.ite {c : Prop} [Decidable c] {p q : StateT σ (Except ε) α} {Q : α → σ → Prop} (h1 : c → Leads p s Q)
    (h2 : ¬ c → Leads q s Q) : Leads (if c then p else q) s Q := by
  by_cases h : c
  · rw [if_pos h]
    exact h1 h
  · rw [if_neg h]
    exact h2 h

def onlyIf (c : Prop) [Decidable c] (p : StateT σ (Except ε) PUnit) : StateT σ (Except ε) PUnit := if c then p else Pure.pure ⟨⟩

theorem Leads.onlyIf {c : Prop} [Decidable c] {p : StateT σ (Except ε) PUnit} {Q : PUnit → σ → Prop} (h1 : c → Leads p s Q)
    (h2 : ¬ c → Q ⟨⟩ s) : Leads (Lib.onlyIf c p) s Q :=
  Leads.ite h1 fun h => Leads.pure (h2 h)

/-! ## Failures -/

def fail (e : ε) : StateT σ (Except ε) α := fun _ => .error e

theorem Leads.fail {e : ε} {Q : α → σ → Prop} : Leads (fail e : StateT σ (Except ε) α) s Q := by
  intro a t hp
  cases hp

def ensure (e : ε) (c : Prop) [Decidable c] : StateT σ (Except ε) PUnit := if c then Pure.pure ⟨⟩ else Lib.fail e

theorem Leads.ensure_last {e : ε} {c : Prop} [Decidable c] {Q : PUnit → σ → Prop} (h : c → Q ⟨⟩ s) :
    Leads (Lib.ensure e c : StateT σ (Except ε) PUnit) s Q :=
  Leads.ite (fun hc => Leads.pure (h hc)) fun _ => Leads.fail

theorem Leads.ensure {e : ε} {c : Prop} [Decidable c] {f : PUnit → StateT σ (Except ε) β} (h : c → Leads (f ⟨⟩) s Q) :
    Leads (Lib.ensure e c >>= f) s Q :=
  Leads.bind (R := fun _ t => c ∧ t = s) (Leads.ensure_last fun hc => ⟨hc, rfl⟩) fun _ _ ⟨hc, ht⟩ => ht ▸ h hc

def demand (e : ε) : Option α → StateT σ (Except ε) α
  | some a => Pure.pure a
  | none => Lib.fail e

theorem Leads.demand {e : ε} {x : Option α} {f : α → StateT σ (Except ε) β} (h : ∀ a, x = some a → Leads (f a) s Q) :
    Leads (Lib.demand e x >>= f) s Q := by
  cases x with
  | none => exact Leads.bind (R := fun _ _ => False) Leads.fail fun _ _ => False.elim
  | some a => exact Leads.bind (R := fun b t => b = a ∧ t = s) (Leads.pure ⟨rfl, rfl⟩) fun _ _ ⟨hb, ht⟩ => hb ▸ ht ▸ h a rfl

/-! ## Loops -/

def repeatUpto (f : Nat → StateT σ (Except ε) PUnit) : Nat → StateT σ (Except ε) PUnit
  | 0 => Pure.pure ⟨⟩
  | n + 1 => do
    repeatUpto f n
    f n

theorem Leads.repeatUpto {f : Nat → StateT σ (Except ε) PUnit} {I : σ → Prop} (h : ∀ i s, I s → Leads (f i) s fun _ => I) (hs : I s) (n : Nat) :
    Leads (Lib.repeatUpto f n) s fun _ => I := by
  induction n with
  | zero => exact Leads.pure hs
  | succ n ih => exact ih.bind fun _ t ht => h n t ht

end Onix.Lib
