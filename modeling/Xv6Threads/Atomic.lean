import Mathlib.Algebra.BigOperators.Group.Finset.Basic
import Xv6Threads.Loop

namespace Xv6Threads.Atomic

open Function Finset

variable {σ χ α β R T C : Type}

/-- Atomic operations on a state `σ`. A value of type `χ` is what the environment decides. An
operation that has to wait has no result. -/
structure Ops (σ χ : Type) where
  Op : Type
  Res : Op → Type
  exec : (o : Op) → χ → σ → Option (Res o × σ)

variable {O : Ops σ χ}

inductive Code (O : Ops σ χ) (α : Type)
  | done (a : α)
  | panic (msg : String)
  | act (o : O.Op) (k : O.Res o → Code O α)

namespace Code

def bind (f : α → Code O β) : Code O α → Code O β
  | done a => f a
  | panic msg => panic msg
  | act o k => act o fun b => (k b).bind f

instance : Monad (Code O) where
  pure := done
  bind c f := c.bind f

def perform (o : O.Op) : Code O (O.Res o) := act o done

@[simp] theorem pure_bind (a : α) (f : α → Code O β) : (pure a >>= f) = f a := rfl

end Code

/-- `inv` relates the state to the resources of all processes. `view` is what a process has to own
when an operation is its next one, and `panics` are the messages with which a program may end. -/
structure Logic (O : Ops σ χ) (R : Type) where
  inv : σ → R → Prop
  view : O.Op → R → Prop
  panics : String → Prop

variable [AddCommMonoid R] {L : Logic O R}

/-- Run with the resources `r`, the program keeps the invariant, and ends with a result and
resources that satisfy `Q`. -/
def Safe (L : Logic O R) (Q : α → R → Prop) : Code O α → R → Prop
  | .done a, r => Q a r
  | .panic msg, _ => L.panics msg
  | .act o k, r => L.view o r ∧ ∀ f s x b t, L.inv s (r + f) → O.exec o x s = some (b, t) →
    ∃ r', L.inv t (r' + f) ∧ Safe L Q (k b) r'

section
variable {Q Q' : α → R → Prop} {P : β → R → Prop} {c : Code O α} {r : R}

theorem Safe.mono (h : Safe L Q c r) (hQ : ∀ a r, Q a r → Q' a r) : Safe L Q' c r := by
  induction c generalizing r with
  | done a => exact hQ a r h
  | panic msg => exact h
  | act o k ih =>
    refine ⟨h.1, fun f s x b t hs hx => ?_⟩
    obtain ⟨r', ht, hk⟩ := h.2 f s x b t hs hx
    exact ⟨r', ht, ih b hk⟩

/-- The rule for a call: its specification, then what follows from it. -/
theorem Safe.bind {g : α → Code O β} (h : Safe L Q c r) (hg : ∀ a r, Q a r → Safe L P (g a) r) :
    Safe L P (c >>= g) r := by
  induction c generalizing r with
  | done a => exact hg a r h
  | panic msg => exact h
  | act o k ih =>
    refine ⟨h.1, fun f s x b t hs hx => ?_⟩
    obtain ⟨r', ht, hk⟩ := h.2 f s x b t hs hx
    exact ⟨r', ht, ih b hk⟩

theorem Safe.perform {o : O.Op} {Q : O.Res o → R → Prop} (hview : L.view o r)
    (h : ∀ f s x b t, L.inv s (r + f) → O.exec o x s = some (b, t) →
      ∃ r', L.inv t (r' + f) ∧ Q b r') : Safe L Q (Code.perform o) r := ⟨hview, h⟩

theorem Safe.frame (hmono : ∀ o r g, L.view o r → L.view o (r + g)) (h : Safe L Q c r) (g : R) :
    Safe L (fun a r => ∃ q, Q a q ∧ r = q + g) c (r + g) := by
  induction c generalizing r with
  | done a => exact ⟨r, h, rfl⟩
  | panic msg => exact h
  | act o k ih =>
    refine ⟨hmono _ _ _ h.1, fun f s x b t hs hx => ?_⟩
    rw [add_assoc] at hs
    obtain ⟨r', ht, hk⟩ := h.2 (g + f) s x b t hs hx
    rw [← add_assoc] at ht
    exact ⟨r' + g, ht, ih b hk⟩

theorem Safe.call (hmono : ∀ o r g, L.view o r → L.view o (r + g)) {k : α → Code O β} {g : R}
    (h : Safe L Q c r) (hk : ∀ a q, Q a q → Safe L P (k a) (q + g)) :
    Safe L P (c >>= k) (r + g) := by
  refine (h.frame hmono g).bind fun a q hq => ?_
  obtain ⟨q', hq', rfl⟩ := hq
  exact hk a q' hq'

theorem Safe.foldlM {g : α → β → Code O α} {J : List β → α → R → Prop}
    (hstep : ∀ b l a r, J (b :: l) a r → Safe L (J l) (g a b) r) (l : List β) (a : α)
    (h : J l a r) : Safe L (J []) (l.foldlM g a) r := by
  induction l generalizing a r with
  | nil => exact h
  | cons b l ih =>
    rw [List.foldlM_cons]
    exact (hstep b l a r h).bind fun a' r' h' => ih a' h'

end

/-- Run from the state, the program does not wait and does not panic, and it ends with a result and
a state that satisfy `Q`, whatever the environment decides, as long as the results of the operations
satisfy `ok`. -/
def Alone (ok : (o : O.Op) → O.Res o → Prop) (Q : α → σ → Prop) : Code O α → σ → Prop
  | .done a, s => Q a s
  | .panic _, _ => False
  | .act o k, s => ∀ x, ∃ b t, O.exec o x s = some (b, t) ∧ (ok o b → Alone ok Q (k b) t)

def Code.run : Code O α → List χ → σ → Option (α × σ)
  | .done a, _, s => some (a, s)
  | .panic _, _, _ => none
  | .act _ _, [], _ => none
  | .act o k, x :: xs, s => (O.exec o x s).bind fun r => (k r.1).run xs r.2

section
variable {ok : (o : O.Op) → O.Res o → Prop} {Q Q' : α → σ → Prop} {P : β → σ → Prop} {c : Code O α}
  {s : σ}

theorem Alone.mono (h : Alone ok Q c s) (hQ : ∀ a t, Q a t → Q' a t) : Alone ok Q' c s := by
  induction c generalizing s with
  | done a => exact hQ a s h
  | panic msg => exact h
  | act o k ih =>
    intro x
    obtain ⟨b, t, hx, hk⟩ := h x
    exact ⟨b, t, hx, fun hb => ih b (hk hb)⟩

theorem Alone.bind {g : α → Code O β} (h : Alone ok Q c s)
    (hg : ∀ a t, Q a t → Alone ok P (g a) t) :
    Alone ok P (c >>= g) s := by
  induction c generalizing s with
  | done a => exact hg a s h
  | panic msg => exact h.elim
  | act o k ih =>
    intro x
    obtain ⟨b, t, hx, hk⟩ := h x
    exact ⟨b, t, hx, fun hb => ih b (hk hb)⟩

theorem Alone.and (h : Alone ok Q c s) (h' : Alone ok Q' c s) :
    Alone ok (fun a t => Q a t ∧ Q' a t) c s := by
  induction c generalizing s with
  | done a => exact ⟨h, h'⟩
  | panic msg => exact h
  | act o k ih =>
    intro x
    obtain ⟨b, t, hx, hk⟩ := h x
    obtain ⟨b', t', hx', hk'⟩ := h' x
    obtain ⟨rfl, rfl⟩ := Prod.mk.inj (Option.some.inj (hx.symm.trans hx'))
    exact ⟨b, t, hx, fun hb => ih b (hk hb) (hk' hb)⟩

/-- All operations of the program satisfy `p`. -/
def Code.All (p : O.Op → Prop) : Code O α → Prop
  | .done _ => True
  | .panic _ => True
  | .act o k => p o ∧ ∀ b, (k b).All p

theorem Code.All.bind {p : O.Op → Prop} {g : α → Code O β} (h : c.All p) (hg : ∀ a, (g a).All p) :
    (c >>= g).All p := by
  induction c with
  | done a => exact hg a
  | panic msg => trivial
  | act o k ih => exact ⟨h.1, fun b => ih b (h.2 b)⟩

/-- If no result of an operation is excluded, the program has a run. -/
theorem Alone.exists_end [Nonempty χ] {p : O.Op → Prop} (hp : ∀ o, p o → ∀ b, ok o b)
    (hc : c.All p) (h : Alone ok Q c s) : ∃ a t, Q a t := by
  induction c generalizing s with
  | done a => exact ⟨a, s, h⟩
  | panic msg => exact h.elim
  | act o k ih =>
    obtain ⟨b, t, -, hk⟩ := h (Classical.arbitrary χ)
    exact ih b (hc.2 b) (hk (hp o hc.1 b))

theorem Alone.run (h : Alone (fun _ _ => True) Q c s) {xs : List χ} {a : α} {t : σ}
    (hrun : c.run xs s = some (a, t)) : Q a t := by
  induction c generalizing s xs with
  | done b =>
    cases hrun
    exact h
  | panic msg => cases hrun
  | act o k ih =>
    cases xs with
    | nil => cases hrun
    | cons x xs =>
      obtain ⟨b, t', hx, hk⟩ := h x
      rw [Code.run, hx] at hrun
      exact ih b (hk trivial) hrun

end

/-- `code` is what a process in a call has left to do. -/
structure Sys (O : Ops σ χ) (T : Type) where
  shared : σ
  code : T → Option (Code O Unit)

inductive Act (T C χ : Type)
  | call (t : T) (c : C)
  /-- the process does its next operation -/
  | go (t : T) (x : χ)
  | ret (t : T)

section
variable [DecidableEq T]

/-- One step. `can` says which processes are there to make a call. -/
def step (body : T → C → Code O Unit) (can : σ → T → Bool) (s : Sys O T) :
    Act T C χ → Option (Sys O T)
  | .call t c =>
    match s.code t with
    | none =>
      if can s.shared t then some { s with code := update s.code t (some (body t c)) }
      else none
    | some _ => none
  | .go t x =>
    match s.code t with
    | some (.act o k) => (O.exec o x s.shared).map fun (b, s') =>
      ⟨s', update s.code t (some (k b))⟩
    | _ => none
  | .ret t =>
    match s.code t with
    | some (.done _) => some { s with code := update s.code t none }
    | _ => none

end

theorem sum_change {M : Type} [AddCommMonoid M] [Fintype T] [DecidableEq T] (g g' : T → M) (t : T)
    (h : ∀ u ≠ t, g' u = g u) : ∑ u, g' u + g t = ∑ u, g u + g' t := by
  have hrest : ∑ u ∈ Finset.univ.erase t, g' u = ∑ u ∈ Finset.univ.erase t, g u :=
    sum_congr rfl fun u hu => h u (ne_of_mem_erase hu)
  rw [← add_sum_erase _ g' (mem_univ t), ← add_sum_erase _ g (mem_univ t),
    hrest, add_right_comm, add_comm (g' t), add_right_comm]

def Owning (L : Logic O R) (r : R) : Option (Code O Unit) → Prop
  | none => r = 0
  | some c => Safe L (fun _ r => r = 0) c r

variable [Fintype T]

def Inv (L : Logic O R) (s : Sys O T) : Prop :=
  ∃ own : T → R, L.inv s.shared (∑ t, own t) ∧ ∀ t, Owning L (own t) (s.code t)

variable {s s' : Sys O T} {body : T → C → Code O Unit} {can : σ → T → Bool}

theorem Inv.quiet (h : Inv L s) (hquiet : ∀ t, s.code t = none) : L.inv s.shared 0 := by
  obtain ⟨own, hinv, hown⟩ := h
  have hzero : ∀ t, own t = 0 := fun t => by
    have ht := hown t
    rwa [hquiet t] at ht
  rwa [sum_eq_zero fun t _ => hzero t] at hinv

theorem Inv.panics (h : Inv L s) {t : T} {msg : String} (ht : s.code t = some (.panic msg)) :
    L.panics msg := by
  obtain ⟨own, -, hown⟩ := h
  have hsafe := hown t
  rw [ht] at hsafe
  exact hsafe

variable [DecidableEq T]

omit [Fintype T] in
theorem owning_update {own : T → R} (hown : ∀ t, Owning L (own t) (s.code t)) {t : T} {r : R}
    {c : Option (Code O Unit)} (hr : Owning L r c) :
    ∀ u, Owning L (update own t r u) (update s.code t c u) := by
  intro u
  by_cases hu : u = t
  · rw [hu, update_self, update_self]
    exact hr
  · rw [update_of_ne hu, update_of_ne hu]
    exact hown u

theorem Inv.step {a : Act T C χ} (hbody : ∀ t c, Safe L (fun _ r => r = 0) (body t c) 0)
    (h : Inv L s) (hstep : step body can s a = some s') : Inv L s' := by
  obtain ⟨own, hinv, hown⟩ := h
  cases a with simp only [Atomic.step] at hstep
  | call t c =>
    split at hstep
    · rename_i hcode
      split_ifs at hstep
      cases hstep
      have ht := hown t
      rw [hcode] at ht
      refine ⟨own, hinv, fun u => ?_⟩
      have hu := owning_update hown (t := t) (r := own t) (c := some (body t c))
        (show Safe L _ _ _ by rw [show own t = 0 from ht]; exact hbody t c) u
      rwa [update_eq_self] at hu
    · cases hstep
  | go t x =>
    split at hstep
    · rename_i o k hcode
      obtain ⟨⟨b, s₁⟩, hx, rfl⟩ := Option.map_eq_some_iff.mp hstep
      have hsafe := hown t
      rw [hcode] at hsafe
      rw [← add_sum_erase _ own (mem_univ t)] at hinv
      obtain ⟨r', hinv', hk⟩ := hsafe.2 _ _ _ _ _ hinv hx
      refine ⟨update own t r', ?_, owning_update hown hk⟩
      have hrest : ∑ u ∈ Finset.univ.erase t, update own t r' u =
          ∑ u ∈ Finset.univ.erase t, own u :=
        sum_congr rfl fun u hu => update_of_ne (ne_of_mem_erase hu) ..
      rw [← add_sum_erase _ _ (mem_univ t), update_self, hrest]
      exact hinv'
    · cases hstep
  | ret t =>
    split at hstep
    · rename_i hcode
      cases hstep
      have ht := hown t
      rw [hcode] at ht
      refine ⟨own, hinv, fun u => ?_⟩
      have hu := owning_update hown (t := t) (r := own t) (c := none) ht u
      rwa [update_eq_self] at hu
    · cases hstep

theorem Inv.of_reach {init : Sys O T → Prop} {ok : Sys O T → Act T C χ → Prop}
    (hbody : ∀ t c, Safe L (fun _ r => r = 0) (body t c) 0)
    (hinit : ∀ s, init s → L.inv s.shared 0 ∧ ∀ t, s.code t = none)
    (h : Reach init ok (fun s a s' => Atomic.step body can s a = some s') s) : Inv L s := by
  apply h.invariant
  · intro s hs
    obtain ⟨hinv, hcode⟩ := hinit s hs
    refine ⟨fun _ => 0, ?_, fun t => ?_⟩
    · rwa [sum_const_zero]
    · rw [hcode t]
      rfl
  · intro s a s' hs _ hstep
    exact hs.step hbody hstep

end Xv6Threads.Atomic
