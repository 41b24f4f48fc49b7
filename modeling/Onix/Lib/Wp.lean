/-
Programs with a state that may fail, read backwards: `Ends p s Q` is the weakest condition on the
state before under which the program ends without a failure in a result and a state that meet `Q`.
One rule for each way programs are put together turns a program into that condition.
-/
import Mathlib.Tactic.Common

namespace Onix.Lib

universe u

variable {σ ε α β : Type u}
variable {p : StateT σ (Except ε) α} {s : σ}

def Ends (p : StateT σ (Except ε) α) (s : σ) (Q : α → σ → Prop) : Prop :=
  match p s with
  | .ok (a, t) => Q a t
  | .error _ => False

@[simp] theorem ends_pure {a : α} {Q : α → σ → Prop} : Ends (pure a : StateT σ (Except ε) α) s Q ↔ Q a s := .rfl

@[simp] theorem ends_bind {f : α → StateT σ (Except ε) β} {Q : β → σ → Prop} :
    Ends (p >>= f) s Q ↔ Ends p s fun a t => Ends (f a) t Q := by
  unfold Ends
  show (match (p s >>= fun x => f x.1 x.2 : Except ε (β × σ)) with | .ok (a, t) => Q a t | .error _ => False) ↔ _
  cases p s with
  | error e => exact .rfl
  | ok x => exact .rfl

@[simp] theorem ends_get {Q : σ → σ → Prop} : Ends (get : StateT σ (Except ε) σ) s Q ↔ Q s s := .rfl

@[simp] theorem ends_modify {f : σ → σ} {Q : PUnit → σ → Prop} :
    Ends (modify f : StateT σ (Except ε) PUnit) s Q ↔ Q ⟨⟩ (f s) := .rfl

theorem ends_of_pos {c : Prop} [Decidable c] {p q : StateT σ (Except ε) α} {Q : α → σ → Prop} (h : c) :
    Ends (if c then p else q) s Q ↔ Ends p s Q := by
  rw [if_pos h]

theorem ends_of_neg {c : Prop} [Decidable c] {p q : StateT σ (Except ε) α} {Q : α → σ → Prop} (h : ¬ c) :
    Ends (if c then p else q) s Q ↔ Ends q s Q := by
  rw [if_neg h]

theorem Ends.mono {Q R : α → σ → Prop} (h : Ends p s Q) (hQ : ∀ a t, Q a t → R a t) :
    Ends p s R := by
  unfold Ends at h ⊢
  cases hp : p s with
  | error e => rw [hp] at h; exact h
  | ok x => rw [hp] at h; exact hQ _ _ h

theorem ends_congr {Q R : α → σ → Prop} (h : ∀ a t, Q a t ↔ R a t) :
    Ends p s Q ↔ Ends p s R :=
  ⟨fun hp => hp.mono fun a t => (h a t).1, fun hp => hp.mono fun a t => (h a t).2⟩

theorem Ends.isOk {Q : α → σ → Prop} (h : Ends p s Q) : (p s).isOk = true := by
  unfold Ends at h
  cases hp : p s with
  | error e => rw [hp] at h; exact h.elim
  | ok x => rfl

/-! ## Guarded accesses -/

/-- An access to a part of the state that is there when `ok` says so. -/
def guarded (ok : σ → Prop) [DecidablePred ok] (e : ε) (f : σ → α × σ) : StateT σ (Except ε) α := fun s =>
  if ok s then .ok (f s) else .error e

@[simp] theorem ends_guarded {ok : σ → Prop} [DecidablePred ok] {e : ε} {f : σ → α × σ} {Q : α → σ → Prop} :
    Ends (guarded ok e f) s Q ↔ ok s ∧ Q (f s).1 (f s).2 := by
  unfold Ends guarded
  by_cases h : ok s
  · rw [if_pos h]; exact ⟨fun hq => ⟨h, hq⟩, fun hq => hq.2⟩
  · rw [if_neg h]; exact ⟨False.elim, fun hq => h hq.1⟩

end Onix.Lib
