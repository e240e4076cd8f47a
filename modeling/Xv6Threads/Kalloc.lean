import Xv6Threads.LinkedQueue
import Xv6Threads.Loop
import Xv6Threads.Vm

namespace Xv6Threads.Kalloc

open Function LinkedQueue Option List
open Vm (PGSIZE KERNBASE PHYSTOP Link w32 pgroundup smallKernel)

structure Kmem where
  freelist : Option ℕ
  next : ℕ → Option ℕ
  numfreepages : ℤ

/-- `none` is a panic. -/
def kfree (L : Link) (v : ℕ) (s : Kmem) : Option Kmem :=
  if v % PGSIZE ≠ 0 ∨ v < L.kend ∨ PHYSTOP ≤ v - KERNBASE then none
  else some ⟨some v, update s.next v s.freelist, s.numfreepages + 1⟩

def freeLoop (L : Link) (vend : ℕ) : ℕ → ℕ → Kmem → Option Kmem
  | 0, _, s => some s
  | fuel + 1, p, s =>
    if w32 (p + PGSIZE) ≤ vend then
      (kfree L p s).bind fun s => freeLoop L vend fuel (w32 (p + PGSIZE)) s
    else some s

def freerange (L : Link) (vstart vend : ℕ) (s : Kmem) : Option Kmem :=
  freeLoop L vend (vend / PGSIZE + 1) (pgroundup vstart) s

/-- The counter goes down also when there is no page. -/
def kalloc (s : Kmem) : Option ℕ × Kmem :=
  (s.freelist, { s with
    freelist := s.freelist.bind s.next, numfreepages := s.numfreepages - 1 })

def freemem (s : Kmem) : ℤ := s.numfreepages

/-- `out` are the pages handed out since they were last freed; `empty` counts the calls of `kalloc`
that found no page. -/
structure Sys where
  kmem : Kmem
  out : ℕ → Bool
  empty : ℕ

inductive Act
  | kalloc
  | kfree (v : ℕ)
  | freerange (vstart vend : ℕ)
  /-- pages that are not free are written to -/
  | write (next : ℕ → Option ℕ)

def Free (s : Kmem) (v : ℕ) : Prop := ∃ q, Chain s.next s.freelist q ∧ v ∈ q

def Allowed (s : Sys) : Act → Prop
  | .kalloc => True
  | .kfree v => ¬ Free s.kmem v
  | .freerange vstart vend => ∀ v, pgroundup vstart ≤ v → v + PGSIZE ≤ vend → ¬ Free s.kmem v
  | .write next => ∀ v, Free s.kmem v → next v = s.kmem.next v

def step (L : Link) (s : Sys) : Act → Option Sys
  | .kalloc =>
    match kalloc s.kmem with
    | (some v, k) => some { s with kmem := k, out := update s.out v true }
    | (none, k) => some { s with kmem := k, empty := s.empty + 1 }
  | .kfree v => (kfree L v s.kmem).map fun k => { s with kmem := k, out := update s.out v false }
  | .freerange vstart vend => (freerange L vstart vend s.kmem).map fun k =>
    { s with
      kmem := k
      out := fun v => if pgroundup vstart ≤ v ∧ v + PGSIZE ≤ vend then false else s.out v }
  | .write next => some { s with kmem := { s.kmem with next := next } }

def Start (s : Sys) : Prop :=
  s.kmem.freelist = none ∧ s.kmem.numfreepages = 0 ∧ (∀ v, s.out v = false) ∧ s.empty = 0

abbrev Reachable (L : Link) : Sys → Prop := Reach Start Allowed fun s a t => step L s a = some t

/-- The free pages are `q`, and the counter is off by `c`. -/
structure Listed (s : Kmem) (c : ℤ) (q : List ℕ) : Prop where
  chain : Chain s.next s.freelist q
  nodup : q.Nodup
  count : s.numfreepages + c = q.length

variable {L : Link} {s t : Kmem} {c : ℤ} {q : List ℕ} {v : ℕ}

theorem kfree_eq (hk : kfree L v s = some t) :
    t = ⟨some v, update s.next v s.freelist, s.numfreepages + 1⟩ ∧ v % 4096 = 0 ∧
      v + 4096 < 2 ^ 32 := by
  unfold kfree at hk
  split_ifs at hk with hbad
  simp only [PGSIZE, KERNBASE, PHYSTOP] at hbad
  exact ⟨(some.inj hk).symm, by omega, by omega⟩

theorem Listed.kfree (h : Listed s c q) (hv : v ∉ q) (hk : kfree L v s = some t) :
    Listed t c (v :: q) := by
  obtain ⟨rfl, -⟩ := kfree_eq hk
  refine ⟨⟨rfl, ?_⟩, nodup_cons.mpr ⟨hv, h.nodup⟩, ?_⟩
  · dsimp only
    rw [update_self]
    exact h.chain.update hv s.freelist
  · have hcount := h.count
    rw [length_cons]
    push_cast
    omega

theorem Listed.freeLoop {vend : ℕ} (fuel : ℕ) : ∀ {p s q}, Listed s c q →
    (∀ v, p ≤ v → v + PGSIZE ≤ vend → v ∉ q) → freeLoop L vend fuel p s = some t →
    ∃ q', Listed t c q' ∧ ∀ v ∈ q', v ∈ q ∨ p ≤ v ∧ v + PGSIZE ≤ vend := by
  induction fuel with
  | zero =>
    intro p s q h _ hrun
    obtain rfl := some.inj hrun
    exact ⟨q, h, fun v => .inl⟩
  | succ fuel ih =>
    intro p s q h hfree hrun
    unfold Kalloc.freeLoop at hrun
    split_ifs at hrun with hp
    · obtain ⟨u, hu, hrun⟩ := bind_eq_some_iff.mp hrun
      rw [w32, Nat.mod_eq_of_lt (kfree_eq hu).2.2] at hp hrun
      have hlist := h.kfree (hfree p le_rfl hp) hu
      have hpos : 0 < PGSIZE := by decide
      have hlate : ∀ v, p + PGSIZE ≤ v → v + PGSIZE ≤ vend → v ∉ p :: q := by
        intro v hv hend hmem
        rcases mem_cons.mp hmem with hvp | hmem
        · omega
        · exact hfree v (by omega) hend hmem
      obtain ⟨q', hq', hin⟩ := ih hlist hlate hrun
      refine ⟨q', hq', fun v hv => ?_⟩
      rcases hin v hv with hmem | ⟨hle, hend⟩
      · rcases mem_cons.mp hmem with rfl | hmem
        · exact .inr ⟨le_rfl, hp⟩
        · exact .inl hmem
      · exact .inr ⟨by omega, hend⟩
    · obtain rfl := some.inj hrun
      exact ⟨q, h, fun v => .inl⟩

def Inv (s : Sys) : Prop := ∃ q, Listed s.kmem s.empty q ∧ ∀ v ∈ q, s.out v = false

theorem Inv.step {s t : Sys} {a : Act} (h : Inv s) (ha : Allowed s a) (hs : step L s a = some t) :
    Inv t := by
  obtain ⟨q, hq, hout⟩ := h
  have hnot : ∀ {v}, ¬ Free s.kmem v → v ∉ q := fun hfree hmem => hfree ⟨q, hq.chain, hmem⟩
  cases a with
  | kalloc =>
    have hcount := hq.count
    have hchain := hq.chain
    unfold Kalloc.step Kalloc.kalloc at hs
    cases q with
    | nil =>
      rw [show s.kmem.freelist = none from hchain] at hs
      obtain rfl := some.inj hs
      refine ⟨[], ⟨rfl, nodup_nil, ?_⟩, nofun⟩
      push_cast
      simp only [length_nil] at hcount ⊢
      omega
    | cons v q =>
      rw [hchain.1] at hs
      obtain rfl := some.inj hs
      obtain ⟨hv, hnodup⟩ := nodup_cons.mp hq.nodup
      refine ⟨q, ⟨hchain.2, hnodup, ?_⟩, fun w hw => ?_⟩
      · rw [length_cons] at hcount
        push_cast at hcount
        dsimp only
        omega
      · have hne : w ≠ v := by
          rintro rfl
          exact hv hw
        exact (update_of_ne hne ..).trans (hout w (mem_cons_of_mem v hw))
  | kfree v =>
    obtain ⟨k, hk, rfl⟩ := map_eq_some_iff.mp hs
    refine ⟨v :: q, hq.kfree (hnot ha) hk, fun w hw => ?_⟩
    by_cases hwv : w = v
    · rw [hwv]
      exact update_self ..
    · exact (update_of_ne hwv ..).trans (hout w (mem_of_ne_of_mem hwv hw))
  | freerange vstart vend =>
    unfold Kalloc.step at hs
    obtain ⟨k, hk, rfl⟩ := map_eq_some_iff.mp hs
    obtain ⟨q', hq', hin⟩ := hq.freeLoop _ (fun v hv hend => hnot (ha v hv hend)) hk
    refine ⟨q', hq', fun v hv => ?_⟩
    dsimp only
    split_ifs with hrange
    · rfl
    · exact hout v ((hin v hv).resolve_right hrange)
  | write next =>
    obtain rfl := some.inj hs
    refine ⟨q, ⟨hq.chain.congr fun v hv => ha v ⟨q, hq.chain, hv⟩, hq.nodup, hq.count⟩, hout⟩

/-- In every run the list is one of distinct pages that are not handed out, and the counter lacks
one for each call of `kalloc` that found it empty. -/
theorem list_accounts {s : Sys} (h : Reachable L s) :
    ∃ q, Chain s.kmem.next s.kmem.freelist q ∧ q.Nodup ∧ ((kalloc s.kmem).1 = none ↔ q = []) ∧
      (∀ v, (kalloc s.kmem).1 = some v → s.out v = false) ∧
      freemem s.kmem + s.empty = q.length := by
  have hinv : Inv s := by
    apply Reach.invariant _ (fun _ _ _ hs ha hstep => hs.step ha hstep) h
    rintro s ⟨hlist, hcount, hout, hempty⟩
    refine ⟨[], ⟨hlist, nodup_nil, ?_⟩, nofun⟩
    rw [hcount, hempty]
    rfl
  obtain ⟨q, hq, hout⟩ := hinv
  have hhead : (kalloc s.kmem).1 = q.head? := hq.chain.head_eq
  rw [hhead]
  refine ⟨q, hq.chain, hq.nodup, List.head?_eq_none_iff, fun v hv => ?_, hq.count⟩
  exact hout v (mem_of_mem_head? hv)

theorem not_free {k : Kmem} (h : Chain k.next k.freelist q) (hv : v ∉ q) : ¬ Free k v := by
  rintro ⟨q', hq', hmem⟩
  rw [hq'.unique h] at hmem
  exact hv hmem

def start : Sys := ⟨⟨none, fun _ => none, 0⟩, fun _ => false, 0⟩

theorem start_reachable : Reachable smallKernel start := .start ⟨rfl, rfl, fun _ => rfl, rfl⟩

/-- Two pages are given to the allocator. One is taken and comes back, then both are taken, a call
finds none, and one comes back. -/
theorem list_accounts_recovered : ∃ s q, Reachable smallKernel s ∧
    Chain s.kmem.next s.kmem.freelist q ∧ q = [0x80200000] ∧ s.empty = 1 ∧
    freemem s.kmem + 1 = q.length := by
  have h1 : Reachable smallKernel _ := .step (a := .freerange 0x80200000 0x80202000) start_reachable
    (fun _ _ _ => not_free (q := []) rfl List.not_mem_nil) rfl
  have h2 : Reachable smallKernel _ := .step (a := .kalloc) h1 trivial rfl
  have h3 : Reachable smallKernel _ := .step (a := .kfree 0x80201000) h2
    (not_free (q := [0x80200000]) ⟨rfl, rfl⟩ (by decide)) rfl
  have h4 : Reachable smallKernel _ := .step (a := .kalloc) h3 trivial rfl
  have h5 : Reachable smallKernel _ := .step (a := .kalloc) h4 trivial rfl
  have h6 : Reachable smallKernel _ := .step (a := .kalloc) h5 trivial rfl
  have h7 : Reachable smallKernel _ := .step (a := .kfree 0x80200000) h6
    (not_free (q := []) rfl List.not_mem_nil) rfl
  obtain ⟨q, hq, -, -, -, hcount⟩ := list_accounts h7
  exact ⟨_, q, h7, hq, hq.unique ⟨rfl, rfl⟩, rfl, hcount⟩

/-- A page is freed after `kalloc` has found none: one page is free, and none is counted. -/
theorem kalloc_miscounts : ∃ s, Reachable smallKernel s ∧
    Chain s.kmem.next s.kmem.freelist [0x80200000] ∧ freemem s.kmem = 0 := by
  have hempty : Reachable smallKernel _ := .step (a := .kalloc) start_reachable trivial rfl
  exact ⟨_, .step (a := .kfree 0x80200000) hempty
    (not_free (q := []) rfl List.not_mem_nil) rfl, ⟨rfl, rfl⟩, rfl⟩

end Xv6Threads.Kalloc
