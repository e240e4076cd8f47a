import Mathlib.Data.Fintype.Card

namespace Xv6Threads.LinkedQueue

open Function List

variable {B : Type*}

/-- The nodes from `head` on are those of the list. -/
def Chain (next : B → Option B) : Option B → List B → Prop
  | head, [] => head = none
  | head, b :: q => head = some b ∧ Chain next (next b) q

/-- The last node from `b` on; `none` if it is not reached in `fuel` turns. -/
def last (next : B → Option B) : ℕ → B → Option B
  | 0, _ => none
  | fuel + 1, b =>
    match next b with
    | none => some b
    | some c => last next fuel c

variable {next : B → Option B} {head : Option B} {q : List B} {b : B}

theorem Chain.head_eq (h : Chain next head q) : head = q.head? := by
  cases q with
  | nil => exact h
  | cons b q => exact h.1

theorem Chain.unique {q' : List B} (h : Chain next head q) (h' : Chain next head q') : q = q' := by
  induction q generalizing head q' with
  | nil =>
    cases q' with
    | nil => rfl
    | cons c q' => exact absurd (h.symm.trans h'.1) (Option.some_ne_none c).symm
  | cons b q ih =>
    cases q' with
    | nil => exact absurd (h'.symm.trans h.1) (Option.some_ne_none b).symm
    | cons c q' =>
      obtain rfl := Option.some.inj (h.1.symm.trans h'.1)
      rw [ih h.2 h'.2]

theorem Chain.last (h : Chain next (some b) (b :: q)) {fuel : ℕ} (hfuel : q.length < fuel) :
    last next fuel b = some ((b :: q).getLast (cons_ne_nil b q)) := by
  induction fuel generalizing b q with
  | zero => omega
  | succ fuel ih =>
    unfold LinkedQueue.last
    cases q with
    | nil => rw [show next b = none from h.2, getLast_singleton]
    | cons c q =>
      rw [h.2.1, getLast_cons_cons]
      exact ih ⟨rfl, h.2.2⟩ (by simpa using hfuel)

theorem Chain.congr {next' : B → Option B} (h : Chain next head q)
    (heq : ∀ b ∈ q, next' b = next b) :
    Chain next' head q := by
  induction q generalizing head with
  | nil => exact h
  | cons b q ih =>
    refine ⟨h.1, ?_⟩
    rw [heq b mem_cons_self]
    exact ih h.2 fun c hc => heq c (mem_cons_of_mem b hc)

variable [DecidableEq B]

theorem Chain.update (h : Chain next head q) {c : B} (hc : c ∉ q) (x : Option B) :
    Chain (Function.update next c x) head q := by
  apply h.congr
  intro b hb
  exact update_of_ne (ne_of_mem_of_not_mem hb hc) ..

theorem Chain.append (h : Chain next (some b) (b :: q)) (hnodup : (b :: q).Nodup) {c : B}
    (hc : c ∉ b :: q) (hnone : next c = none) :
    Chain (Function.update next ((b :: q).getLast (cons_ne_nil b q)) (some c)) (some b)
      (b :: q ++ [c]) := by
  induction q generalizing b with
  | nil =>
    have hbc : c ≠ b := fun hcb => hc (by simp [hcb])
    refine ⟨rfl, ?_⟩
    rw [getLast_singleton, update_self]
    exact ⟨rfl, (update_of_ne hbc _ _).trans hnone⟩
  | cons d q ih =>
    have hlast : (d :: q).getLast (cons_ne_nil d q) ∈ d :: q := getLast_mem _
    have hb : b ≠ (d :: q).getLast (cons_ne_nil d q) := by
      intro hb
      exact (nodup_cons.mp hnodup).1 (hb ▸ hlast)
    refine ⟨rfl, ?_⟩
    rw [getLast_cons_cons, update_of_ne hb, h.2.1]
    exact ih ⟨rfl, h.2.2⟩ (nodup_cons.mp hnodup).2 fun hcd => hc (mem_cons_of_mem b hcd)

end Xv6Threads.LinkedQueue
