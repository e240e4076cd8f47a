import Mathlib.Data.List.Induction

namespace Xv6Threads

open List

variable {σ α : Type*}

/-- `for (i = 0; i < n; i++) s = f(s, i)`. -/
def forLoop (f : σ → ℕ → σ) (s : σ) : ℕ → σ
  | 0 => s
  | n + 1 => f (forLoop f s n) n

/-- The invariant rule: `P k` holds when `k` iterations are done. -/
theorem forLoop_invariant {f : σ → ℕ → σ} {s : σ} {n : ℕ} (P : ℕ → σ → Prop) (h0 : P 0 s)
    (hstep : ∀ k t, k < n → P k t → P (k + 1) (f t k)) : P n (forLoop f s n) := by
  induction n with
  | zero => exact h0
  | succ n ih =>
    apply hstep n _ (by omega)
    exact ih fun k t hk ht => hstep k t (by omega) ht

/-- A loop over the entries of a table whose turn for `p` changes entry `p` as `Q` says and
every other entry at most by a relation `R` that `Q` does not notice. -/
theorem foldl_table {ι β : Type*} (body : (ι → β) → ι → ι → β) (R : β → β → Prop)
    (Q : ι → β → β → Prop) (hrefl : ∀ b, R b b) (htrans : ∀ a b c, R a b → R b c → R a c)
    (hother : ∀ t p q, q ≠ p → R (t q) (body t p q))
    (hself : ∀ t p b, R b (t p) → Q p b (body t p p)) (hkeep : ∀ p a b c, Q p a b → R b c → Q p a c)
    (t : ι → β) (l : List ι) (hl : l.Nodup) (q : ι) : (q ∈ l → Q q (t q) (l.foldl body t q)) ∧
    (q ∉ l → R (t q) (l.foldl body t q)) := by
  induction l using List.reverseRecOn with
  | nil => exact ⟨fun h => absurd h (by simp), fun _ => hrefl _⟩
  | append_singleton l p ih =>
    rw [nodup_append] at hl
    obtain ⟨hq, hq'⟩ := ih hl.1
    have hp : p ∉ l := fun h => hl.2.2 p h p (by simp) rfl
    simp only [foldl_append, foldl_cons, foldl_nil, mem_append, mem_singleton, not_or]
    refine ⟨fun h => ?_, fun h => htrans _ _ _ (hq' h.1) (hother _ p q h.2)⟩
    by_cases hqp : q = p
    · subst hqp
      exact hself _ q _ (hq' hp)
    · exact hkeep _ _ _ _ (hq (h.resolve_right hqp)) (hother _ p q hqp)

/-- The states reached from `init` by steps `step s a s'` whose action satisfies `ok s a`. -/
inductive Reach (init : σ → Prop) (ok : σ → α → Prop) (step : σ → α → σ → Prop) : σ → Prop
  | start {s : σ} : init s → Reach init ok step s
  | step {s s' : σ} {a : α} : Reach init ok step s → ok s a → step s a s' → Reach init ok step s'

variable {init : σ → Prop} {ok ok' : σ → α → Prop} {step : σ → α → σ → Prop}

/-- What holds initially and is kept by every permitted step holds in every state reached. -/
theorem Reach.invariant {P : σ → Prop} (hinit : ∀ s, init s → P s)
    (hstep : ∀ s a s', P s → ok s a → step s a s' → P s') {s : σ}
    (h : Reach init ok step s) : P s := by
  induction h with
  | start hs => exact hinit _ hs
  | step _ ha hs ih => exact hstep _ _ _ ih ha hs

/-- Executes a list of actions of a step function, giving up at one that is not permitted. -/
def execs (ok : σ → α → Bool) (step : σ → α → Option σ) : σ → List α → Option σ
  | s, [] => some s
  | s, a :: as => if ok s a then (step s a).bind fun s' => execs ok step s' as else none

/-- The next state, when a step is possible and does not stop. -/
def reached {ε : Type*} : Option (Except ε σ) → Option σ
  | some (.ok s) => some s
  | _ => none

theorem eq_of_reached {ε : Type*} {r : Option (Except ε σ)} {s : σ} (h : reached r = some s) :
    r = some (.ok s) := by
  unfold reached at h
  split at h
  · rw [Option.some.inj h]
  · cases h

theorem Reach.execs {okb : σ → α → Bool} {f : σ → α → Option σ}
    (hok : ∀ s a, okb s a = true → ok s a)
    (hf : ∀ s a s', f s a = some s' → step s a s') {s s' : σ} {as : List α}
    (h : Reach init ok step s) (hrun : execs okb f s as = some s') : Reach init ok step s' := by
  induction as generalizing s with
  | nil =>
    obtain rfl := Option.some.inj hrun
    exact h
  | cons a as ih =>
    simp only [Xv6Threads.execs] at hrun
    split_ifs at hrun with ha
    obtain ⟨t, ht, hrest⟩ := Option.bind_eq_some_iff.mp hrun
    exact ih (.step h (hok s a ha) (hf s a t ht)) hrest

/-- A concrete run that ends in a state passing the test `p`. -/
theorem Reach.exists_of_execs (okb : σ → α → Bool) (f : σ → α → Option σ) (p : σ → Bool)
    (hok : ∀ s a, okb s a = true → ok s a) (hf : ∀ s a s', f s a = some s' → step s a s') {s : σ}
    (as : List α) (h : Reach init ok step s) (hrun : (Xv6Threads.execs okb f s as).any p = true) :
    ∃ s', Reach init ok step s' ∧ p s' = true := by
  obtain ⟨s', hs', hp⟩ := (Option.any_eq_true p _).mp hrun
  exact ⟨s', h.execs hok hf hs', hp⟩

end Xv6Threads
