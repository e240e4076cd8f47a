import Xv6Threads.Atomic

namespace Xv6Threads.Locals

open Function
open Atomic (Ops Code Act)

variable {σ τ χ α β T C : Type} {O : Ops (τ × σ) χ}

/-- `inv` is the invariant, `rule` the protocol, and `panics` the messages with which a program
may end. -/
structure Protocol (O : Ops (τ × σ) χ) (T : Type) where
  inv : σ → (T → τ) → Prop
  rule : O.Op → τ → Prop
  panics : String → Prop

/-- Started with the state `l` of its process, the program follows the protocol, and ends with a
result and a state that satisfy `Q`. -/
def Follows (P : Protocol O T) (t : T) (Q : α → τ → Prop) : Code O α → τ → Prop
  | .done a, l => Q a l
  | .panic msg, _ => P.panics msg
  | .act o k, l => P.rule o l ∧ ∀ s loc x b l' s', P.inv s loc → loc t = l →
    O.exec o x (l, s) = some (b, (l', s')) → Follows P t Q (k b) l'

section
variable {P : Protocol O T} {t : T} {Q Q' : α → τ → Prop} {c : Code O α} {l : τ}

/-- The rule for a call: its specification, then what follows from it. -/
theorem Follows.bind {R : β → τ → Prop} {g : α → Code O β} (h : Follows P t Q c l)
    (hg : ∀ a l, Q a l → Follows P t R (g a) l) : Follows P t R (c >>= g) l := by
  induction c generalizing l with
  | done a => exact hg a l h
  | panic msg => exact h
  | act o k ih =>
    refine ⟨h.1, fun s loc x b l' s' hs hl hx => ?_⟩
    exact ih b (h.2 s loc x b l' s' hs hl hx)

theorem Follows.perform {o : O.Op} {Q : O.Res o → τ → Prop} (hrule : P.rule o l)
    (h : ∀ s loc x b l' s', P.inv s loc → loc t = l → O.exec o x (l, s) = some (b, (l', s')) →
      Q b l') : Follows P t Q (Code.perform o) l := ⟨hrule, h⟩

end

structure Sys (O : Ops (τ × σ) χ) (T : Type) where
  shared : σ
  loc : T → τ
  code : T → Option (Code O Unit)

def step [DecidableEq T] (body : C → Code O Unit) (s : Sys O T) : Act T C χ → Option (Sys O T)
  | .call t c =>
    match s.code t with
    | none => some { s with code := update s.code t (some (body c)) }
    | some _ => none
  | .go t x =>
    match s.code t with
    | some (.act o k) => (O.exec o x (s.loc t, s.shared)).map fun (b, (l, s')) =>
      ⟨s', update s.loc t l, update s.code t (some (k b))⟩
    | _ => none
  | .ret t =>
    match s.code t with
    | some (.done _) => some { s with code := update s.code t none }
    | _ => none

/-- Where a process is, given what holds of its state between calls. -/
def At (P : Protocol O T) (idle : τ → Prop) (t : T) (l : τ) : Option (Code O Unit) → Prop
  | none => idle l
  | some c => Follows P t (fun _ => idle) c l

structure Inv (P : Protocol O T) (idle : τ → Prop) (s : Sys O T) : Prop where
  inv : P.inv s.shared s.loc
  procs : ∀ t, At P idle t (s.loc t) (s.code t)

section
variable {P : Protocol O T} {idle : τ → Prop} {s s' : Sys O T} {body : C → Code O Unit}
variable {may : τ → C → Prop}

theorem Inv.panics (h : Inv P idle s) {t : T} {msg : String} (ht : s.code t = some (.panic msg)) :
    P.panics msg := by
  have hat := h.procs t
  rw [ht] at hat
  exact hat

theorem Inv.rule (h : Inv P idle s) {t : T} {o : O.Op} {k : O.Res o → Code O Unit}
    (ht : s.code t = some (.act o k)) : P.rule o (s.loc t) := by
  have hat := h.procs t
  rw [ht] at hat
  exact hat.1

variable [DecidableEq T]

theorem Inv.at_update (h : Inv P idle s) {t : T} {l : τ} {c : Option (Code O Unit)}
    (ht : At P idle t l c) (u : T) : At P idle u (update s.loc t l u) (update s.code t c u) := by
  by_cases hu : u = t
  · subst hu
    rw [update_self, update_self]
    exact ht
  · rw [update_of_ne hu, update_of_ne hu]
    exact h.procs u

theorem Inv.step (hkeeps : ∀ t o s loc x b l' s', P.inv s loc → P.rule o (loc t) →
      O.exec o x (loc t, s) = some (b, (l', s')) → P.inv s' (update loc t l'))
    (hbody : ∀ t c l, idle l → may l c → Follows P t (fun _ => idle) (body c) l)
    {a : Act T C χ} (hmay : ∀ t c, a = .call t c → may (s.loc t) c)
    (h : Inv P idle s) (hstep : step body s a = some s') : Inv P idle s' := by
  cases a with simp only [Locals.step] at hstep
  | call t c =>
    split at hstep
    · rename_i hcode
      cases hstep
      have hidle := h.procs t
      rw [hcode] at hidle
      refine ⟨h.inv, fun u => ?_⟩
      have hu := h.at_update (c := some (body c)) (hbody t c _ hidle (hmay t c rfl)) u
      rwa [update_eq_self] at hu
    · cases hstep
  | go t x =>
    split at hstep
    · rename_i o k hcode
      obtain ⟨⟨b, l, s₁⟩, hx, rfl⟩ := Option.map_eq_some_iff.mp hstep
      have hat := h.procs t
      rw [hcode] at hat
      exact ⟨hkeeps t o _ _ x b l s₁ h.inv hat.1 hx, h.at_update (hat.2 _ _ x b l s₁ h.inv rfl hx)⟩
    · cases hstep
  | ret t =>
    split at hstep
    · rename_i hcode
      cases hstep
      have hat := h.procs t
      rw [hcode] at hat
      refine ⟨h.inv, fun u => ?_⟩
      have hu := h.at_update (t := t) (c := none) hat u
      rwa [update_eq_self] at hu
    · cases hstep

end

end Xv6Threads.Locals
