import Xv6Threads.Atomic
import Xv6Threads.Param
import Xv6Threads.Vm

namespace Xv6Threads.Kmem

open Atomic Function
open Code (perform)
open Vm (PGSIZE NPDENTRIES NPTENTRIES KERNBASE PHYSTOP UPAGES Link Pte w32 pdx ptx pgroundup
  pgrounddown)

abbrev Slot := Fin NPROC

structure Pgtab where
  page : ℕ
  pte : ℕ → Option Pte

inductive Use
  | tab | user

/-- `pgdir` is 0 if there is no directory. -/
structure Proc where
  pgdir : ℕ
  sz : ℕ

/-- A table is kept with the entry that refers to it, and the bytes of a page apart from the
entries that it holds as a directory. -/
structure Store where
  freelist : List ℕ
  byte : ℕ → ℕ → BitVec 8
  pgdir : ℕ → ℕ → Option Pgtab
  proc : Slot → Proc

inductive Op
  | kalloc (use : Use)
  | kfree (p : ℕ)
  /-- `memset(p, 0, PGSIZE)` -/
  | memset (p : ℕ)
  | getPde (d i : ℕ)
  | setPde (d i p : ℕ)
  | getPte (d va : ℕ)
  | setPte (d va : ℕ) (x : Option Pte)
  | getProc (i : Slot)
  | setSz (i : Slot) (sz : ℕ)

abbrev Res : Op → Type
  | .kalloc _ => Option ℕ
  | .getPde _ _ => Option ℕ
  | .getPte _ _ => Option Pte
  | .getProc _ => Proc
  | _ => Unit

namespace Store

def setByte (s : Store) (p : ℕ) (f : ℕ → BitVec 8) : Store :=
  { s with byte := update s.byte p f }

def setDir (s : Store) (d : ℕ) (f : ℕ → Option Pgtab) : Store :=
  { s with pgdir := update s.pgdir d f }

def setTab (s : Store) (d i : ℕ) (t : Pgtab) : Store :=
  s.setDir d (update (s.pgdir d) i (some t))

def pteAt (s : Store) (d va : ℕ) : Option Pte :=
  (s.pgdir d (pdx va)).bind fun t => t.pte (ptx va)

def setPte (s : Store) (d va : ℕ) (x : Option Pte) : Store :=
  match s.pgdir d (pdx va) with
  | none => s
  | some t => s.setTab d (pdx va) { t with pte := update t.pte (ptx va) x }

end Store

/-- `fails` is decided by the environment: other processes have taken all pages for a while. -/
def exec : (o : Op) → Bool → Store → Option (Res o × Store)
  | .kalloc _, fails, s =>
    match s.freelist with
    | p :: l => if fails then some (none, s) else some (some p, { s with freelist := l })
    | [] => some (none, s)
  | .kfree p, _, s => some ((), { s.setByte p fun _ => 1 with freelist := p :: s.freelist })
  | .memset p, _, s => some ((), (s.setByte p fun _ => 0).setDir p fun _ => none)
  | .getPde d i, _, s => some ((s.pgdir d i).map Pgtab.page, s)
  | .setPde d i p, _, s => some ((), s.setTab d i ⟨p, fun _ => none⟩)
  | .getPte d va, _, s => some (s.pteAt d va, s)
  | .setPte d va x, _, s => some ((), s.setPte d va x)
  | .getProc i, _, s => some (s.proc i, s)
  | .setSz i sz, _, s =>
    some ((), { s with proc := update s.proc i { s.proc i with sz := sz } })

abbrev ops : Ops Store Bool := ⟨Op, Res, exec⟩

abbrev C := Code ops

def op (o : Op) : C (Res o) := perform (O := ops) o

def kfree (L : Link) (p : ℕ) : C Unit :=
  if KERNBASE + p * PGSIZE < L.kend ∨ PHYSTOP ≤ p * PGSIZE then Code.panic "kfree"
  else op (.kfree p)

/-- `walkpgdir`: whether there is a table for `va`. -/
def walkpgdir (d va : ℕ) (alloc : Bool) : C Bool := do
  match ← op (.getPde d (pdx va)) with
  | some _ => pure true
  | none =>
    if alloc then
      match ← op (.kalloc .tab) with
      | none => pure false
      | some p =>
        op (.memset p)
        op (.setPde d (pdx va) p)
        pure true
    else pure false

/-- One turn of the loop of `mappages`. An entry that is present is not 0, so that the first of
the two tests catches it. -/
def mapPage (d a page : ℕ) (w u : Bool) : C Bool := do
  if ← walkpgdir d a true then
    match ← op (.getPte d a) with
    | some _ => Code.panic "*pte is 0"
    | none =>
      op (.setPte d a (some ⟨page, w, u⟩))
      pure true
  else pure false

/-- The loop of `mappages` with `n` more pages after this one. -/
def mapLoop (d : ℕ) (w u : Bool) : ℕ → ℕ → ℕ → C Bool
  | 0, a, page => mapPage d a page w u
  | n + 1, a, page => do
    if ← mapPage d a page w u then mapLoop d w u n (w32 (a + PGSIZE)) (page + 1) else pure false

def mappages (d va size page : ℕ) (w u : Bool) : C Bool :=
  let a := pgrounddown va
  let last := pgrounddown (w32 (va + size - 1))
  mapLoop d w u (w32 (last + 2 ^ 32 - a) / PGSIZE) a page

/-- One turn of the loop of `deallocuvm`; the address from which the next one goes on. -/
def deallocTurn (L : Link) (d a : ℕ) : C ℕ := do
  if ← walkpgdir d a false then
    match ← op (.getPte d a) with
    | none => pure a
    | some pte =>
      if pte.page = 0 then Code.panic "kfree"
      else
        kfree L pte.page
        op (.setPte d a none)
        pure a
  else pure (w32 (a + (NPTENTRIES - 1) * PGSIZE))

def deallocLoop (L : Link) (d oldsz : ℕ) : ℕ → ℕ → C Unit
  | 0, _ => pure ()
  | fuel + 1, a =>
    if a < oldsz then do
      let a ← deallocTurn L d a
      deallocLoop L d oldsz fuel (w32 (a + PGSIZE))
    else pure ()

def deallocuvm (L : Link) (d oldsz newsz : ℕ) : C ℕ :=
  if oldsz ≤ newsz then pure oldsz
  else do
    deallocLoop L d oldsz (oldsz / PGSIZE + 1) (pgroundup newsz)
    pure newsz

/-- One turn of the loop of `allocuvm`. The result of `mappages` is not looked at. -/
def allocTurn (d a : ℕ) : C Bool := do
  match ← op (.kalloc .user) with
  | none => pure false
  | some p =>
    op (.memset p)
    let _ ← mappages d a PGSIZE p true true
    pure true

def allocLoop (L : Link) (d oldsz newsz : ℕ) : ℕ → ℕ → C ℕ
  | 0, _ => pure newsz
  | fuel + 1, a =>
    if a < newsz then do
      if ← allocTurn d a then allocLoop L d oldsz newsz fuel (w32 (a + PGSIZE))
      else
        let _ ← deallocuvm L d newsz oldsz
        pure 0
    else pure newsz

def allocuvm (L : Link) (d oldsz newsz : ℕ) : C ℕ :=
  if KERNBASE ≤ newsz then pure 0
  else if newsz < oldsz then pure oldsz
  else allocLoop L d oldsz newsz (newsz / PGSIZE + 1) (pgroundup oldsz)

def switchuvm (d : ℕ) : C Unit :=
  if d = 0 then Code.panic "switchuvm: no pgdir" else pure ()

/-- `sz + n` as an unsigned integer. -/
def newSize (sz : ℕ) (n : ℤ) : ℕ := ((sz + n) % 2 ^ 32).toNat

def growproc (L : Link) (i : Slot) (n : ℤ) : C ℤ := do
  let p ← op (.getProc i)
  let sz ←
    if 0 < n then allocuvm L p.pgdir p.sz (newSize p.sz n)
    else if n < 0 then deallocuvm L p.pgdir p.sz (newSize p.sz n)
    else pure p.sz
  if n ≠ 0 ∧ sz = 0 then pure (-1)
  else
    op (.setSz i sz)
    switchuvm p.pgdir
    pure 0

namespace Store

/-- The entry of the page with the number `n`. -/
def entry (s : Store) (d n : ℕ) : Option Pte :=
  (s.pgdir d (n / NPTENTRIES)).bind fun t => t.pte (n % NPTENTRIES)

end Store

inductive Place
  | free | dir
  | tab (i : ℕ)
  | user (n : ℕ)

def Holds (s : Store) (d p : ℕ) : Place → Prop
  | .free => p ∈ s.freelist
  | .dir => p = d
  | .tab i => i < NPDENTRIES ∧ ∃ t, s.pgdir d i = some t ∧ t.page = p
  | .user n => n < UPAGES ∧ ∃ e, s.entry d n = some e ∧ e.page = p

/-- The pages `X` are free or belong to the address space, and each of them is in one place. -/
structure Sep (L : Link) (s : Store) (d : ℕ) (X : Set ℕ) : Prop where
  nodup : s.freelist.Nodup
  one : ∀ p x y, Holds s d p x → Holds s d p y → x = y
  all : ∀ p, (∃ x, Holds s d p x) ↔ p ∈ X
  usable : ∀ p ∈ X, L.Usable p

section
variable {L : Link} {s : Store} {d : ℕ} {X : Set ℕ} {p : ℕ}

theorem pteAt_eq (s : Store) (d : ℕ) {va : ℕ} (h : va < 2 ^ 32) :
    s.pteAt d va = s.entry d (va / PGSIZE) := by
  rw [Store.pteAt, Store.entry, Vm.pdx_eq h, Vm.ptx_eq]

theorem entry_setPte {va : ℕ} {t : Pgtab} (h : va < 2 ^ 32) (ht : s.pgdir d (pdx va) = some t)
    (x : Option Pte) (n : ℕ) :
    (s.setPte d va x).entry d n = if n = va / PGSIZE then x else s.entry d n := by
  have hn : n = va / PGSIZE ↔ n / NPTENTRIES = pdx va ∧ n % NPTENTRIES = ptx va := by
    rw [Vm.pdx_eq h, Vm.ptx_eq]
    unfold NPTENTRIES
    omega
  simp only [Store.setPte, ht, Store.setTab, Store.setDir, Store.entry, update_self, hn]
  by_cases hd : n / NPTENTRIES = pdx va
  · rw [hd, update_self, ht]
    simp only [Option.bind_some, update_apply, true_and]
  · simp only [update_of_ne hd, hd, false_and, if_false]

end

end Xv6Threads.Kmem
