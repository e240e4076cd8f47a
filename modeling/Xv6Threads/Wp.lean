import Mathlib.Tactic.Common

namespace Xv6Threads

abbrev Prog (σ ε : Type) : Type → Type := StateT σ (Except ε)

variable {σ τ ε α β : Type}

def wp (c : Prog σ ε α) (Q : α → σ → Prop) (E : ε → Prop) (s : σ) : Prop :=
  match c s with
  | .ok (a, s') => Q a s'
  | .error e => E e

section
variable {Q Q' : α → σ → Prop} {R : β → σ → Prop} {E E' : ε → Prop} {s : σ}
  {c : Prog σ ε α}

theorem wp_pure {a : α} (h : Q a s) : wp (pure a) Q E s := h

theorem wp_throw {e : ε} (h : E e) : wp (throw e) Q E s := h

theorem wp_get {Q : σ → σ → Prop} (h : Q s s) : wp get Q E s := h

theorem wp_set {Q : Unit → σ → Prop} {t : σ} (h : Q () t) :
    wp (MonadState.set t : Prog σ ε Unit) Q E s := h

theorem wp_modify {Q : Unit → σ → Prop} {f : σ → σ} (h : Q () (f s)) : wp (modify f) Q E s := h

theorem wp_bind {f : α → Prog σ ε β} (h : wp c (fun a => wp (f a) R E) E s) :
    wp (c >>= f) R E s := by
  unfold wp at h ⊢
  rw [show (c >>= f) s = (c s >>= fun p => f p.1 p.2) from rfl]
  cases hc : c s with
  | error e | ok p => rw [hc] at h; exact h

theorem wp_mono (h : wp c Q E s) (hQ : ∀ a t, Q a t → Q' a t)
    (hE : ∀ e, E e → E' e) : wp c Q' E' s := by
  unfold wp at h ⊢
  cases hc : c s with
  | error e => rw [hc] at h; exact hE e h
  | ok p => rw [hc] at h; exact hQ p.1 p.2 h

/-- The rule for a call: its specification, then what follows from the specification. -/
theorem wp_call {f : α → Prog σ ε β} (h : wp c Q E s)
    (hf : ∀ a t, Q a t → wp (f a) R E t) : wp (c >>= f) R E s :=
  wp_bind (wp_mono h hf fun _ he => he)

theorem wp_call_seq {γ : Type} {d : Prog σ ε γ} {f : γ → Prog σ ε β}
    {Q : γ → σ → Prop} (h : wp (c >>= fun _ => d) Q E s)
    (hf : ∀ a t, Q a t → wp (f a) R E t) : wp (c >>= fun _ => d >>= f) R E s := by
  rw [← bind_assoc]
  exact wp_call h hf

theorem wp_conseq (h : wp c Q E s) (hQ : ∀ a t, Q a t → Q' a t) : wp c Q' E s :=
  wp_mono h hQ fun _ he => he

/-- A program that cannot stop keeps what holds of its results when it does not. -/
theorem wp_total (h : wp c Q E s) (h' : wp c Q' (fun _ => False) s) :
    wp c (fun a t => Q a t ∧ Q' a t) (fun _ => False) s := by
  unfold wp at h h' ⊢
  cases hc : c s with
  | error e => rw [hc] at h'; exact h'
  | ok p => rw [hc] at h h'; exact ⟨h, h'⟩

theorem wp_true (c : Prog σ ε α) (s : σ) : wp c (fun _ _ => True) (fun _ => True) s := by
  unfold wp
  split <;> trivial

theorem wp_ite {p : Prop} [Decidable p] {c d : Prog σ ε α} (hc : p → wp c Q E s)
    (hd : ¬p → wp d Q E s) : wp (if p then c else d) Q E s := by
  by_cases h : p
  · rw [if_pos h]
    exact hc h
  · rw [if_neg h]
    exact hd h

theorem wp_ok {a : α} {t : σ} (h : wp c Q E s) (hc : c s = .ok (a, t)) : Q a t := by
  unfold wp at h
  rw [hc] at h
  exact h

theorem exists_ok (h : wp c Q (fun _ => False) s) : ∃ a t, c s = .ok (a, t) ∧ Q a t := by
  unfold wp at h
  cases hc : c s with
  | error e => rw [hc] at h; exact h.elim
  | ok p => rw [hc] at h; exact ⟨p.1, p.2, rfl, h⟩

end

/-- `for (i = 0; i < n; i++) f(i)`. -/
def upto (f : ℕ → Prog σ ε Unit) : ℕ → Prog σ ε Unit
  | 0 => pure ()
  | n + 1 => do
    upto f n
    f n

/-- The invariant rule: `P k` holds when `k` turns are done. -/
theorem wp_upto {f : ℕ → Prog σ ε Unit} {n : ℕ} {E : ε → Prop} {s : σ} (P : ℕ → σ → Prop)
    (h0 : P 0 s) (hstep : ∀ k t, k < n → P k t → wp (f k) (fun _ => P (k + 1)) E t) :
    wp (upto f n) (fun _ => P n) E s := by
  induction n with
  | zero => exact wp_pure h0
  | succ n ih =>
    apply wp_call (ih fun k t hk => hstep k t (by omega))
    intro _ t ht
    exact hstep n t (by omega) ht

/-- Runs a program on the part of the state that `get` and `put` select. -/
def within (get : τ → σ) (put : τ → σ → τ) (c : Prog σ ε α) : Prog τ ε α := fun t =>
  match c (get t) with
  | .ok (a, s) => .ok (a, put t s)
  | .error e => .error e

theorem wp_within {get : τ → σ} {put : τ → σ → τ} {Q : α → τ → Prop} {E : ε → Prop} {t : τ}
    (h : wp c (fun a s => Q a (put t s)) E (get t)) : wp (within get put c) Q E t := by
  unfold wp within at *
  cases hc : c (get t) with
  | error e | ok p => rw [hc] at h; exact h

-- a goal about a program is taken apart by the rules above, never by running the program
attribute [irreducible] wp

end Xv6Threads
