/-
Programs that may fail, with their rules: a result satisfies a postcondition when a value meets it
and a failure is not one of the forbidden ones; a loop over an index range keeps an invariant that
each round carries from one index to the next.
-/
import Mathlib.Tactic.Common

namespace Onix.Lib

universe u v w

variable {ε : Type u} {α : Type v} {β : Type v} {σ : Type w}
variable {r : Except ε α} {Q : α → Prop}

theorem bind_ok {x : Except ε α} {f : α → Except ε β} {r : β} (h : x >>= f = .ok r) :
    ∃ a, x = .ok a ∧ f a = .ok r := by
  cases x with
  | error e => cases h
  | ok a => exact ⟨a, rfl, h⟩

def Sat (bad : ε → Prop) (r : Except ε α) (Q : α → Prop) : Prop :=
  match r with
  | .ok a => Q a
  | .error e => ¬ bad e

variable {bad : ε → Prop}

theorem Sat.ok {a : α} (h : Q a) : Sat bad (.ok a) Q := h

theorem Sat.error {e : ε} (h : ¬ bad e) : Sat bad (.error e : Except ε α) Q := h

theorem Sat.mono {Q R : α → Prop} (h : Sat bad r Q) (hQ : ∀ a, Q a → R a) : Sat bad r R := by
  cases r with
  | error e => exact h
  | ok a => exact hQ a h

theorem Sat.imp {Q R : α → Prop} (h : Sat bad r Q) (hQ : ∀ a, r = .ok a → Q a → R a) : Sat bad r R := by
  cases r with
  | error e => exact h
  | ok a => exact hQ a rfl h

theorem Sat.bind {f : α → Except ε β} {R : β → Prop} (h : Sat bad r Q)
    (hf : ∀ a, r = .ok a → Q a → Sat bad (f a) R) : Sat bad (r >>= f) R := by
  cases r with
  | error e => exact h
  | ok a => exact hf a rfl h

theorem sat_ite {c : Prop} [Decidable c] {x y : Except ε α} (h1 : c → Sat bad x Q) (h2 : ¬ c → Sat bad y Q) :
    Sat bad (if c then x else y) Q := by
  split
  · rename_i h
    exact h1 h
  · rename_i h
    exact h2 h

theorem Sat.of_ok {a : α} (h : Sat bad r Q) (hr : r = .ok a) : Q a := by
  subst hr; exact h

theorem Sat.not_bad {e : ε} (h : Sat bad r Q) (hr : r = .error e) : ¬ bad e := by
  subst hr; exact h

theorem foldlM_sat {σ : Type v} {f : σ → β → Except ε σ} {I : σ → Prop} : ∀ (l : List β) (s : σ),
    (∀ s, ∀ x ∈ l, I s → Sat bad (f s x) I) → I s → Sat bad (l.foldlM f s) I
  | [], _, _, hs => Sat.ok hs
  | x :: l, s, hf, hs => by
    exact (hf s x (.head _) hs).bind fun t _ ht => foldlM_sat l t (fun u y hy => hf u y (.tail _ hy)) ht

def forRange {σ : Type v} (n : Nat) (f : Nat → σ → Except ε σ) (s : σ) : Except ε σ :=
  match n with
  | 0 => .ok s
  | n + 1 => forRange n f s >>= f n

theorem forRange_sat {σ : Type v} {f : Nat → σ → Except ε σ} (I : Nat → σ → Prop) {s : σ} :
    ∀ n, (∀ i s, i < n → I i s → Sat bad (f i s) (I (i + 1))) → I 0 s → Sat bad (forRange n f s) (I n)
  | 0, _, h0 => h0
  | n + 1, hstep, h0 =>
    (forRange_sat I n (fun i s hi => hstep i s (Nat.lt_succ_of_lt hi)) h0).bind fun t _ ht => hstep n t (Nat.lt_succ_self n) ht

end Onix.Lib
