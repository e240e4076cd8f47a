import Mathlib.Algebra.Group.Nat.Defs
import Mathlib.Order.Nat
import Xv6Threads.Wp

namespace Xv6Threads.Vm

open Function List

abbrev PGSIZE : ℕ := 4096
abbrev NPDENTRIES : ℕ := 1024
abbrev NPTENTRIES : ℕ := 1024
abbrev EXTMEM : ℕ := 0x100000
abbrev PHYSTOP : ℕ := 0xE000000
abbrev KERNBASE : ℕ := 0x80000000
abbrev KERNLINK : ℕ := KERNBASE + EXTMEM

def w32 (x : ℕ) : ℕ := x % 2 ^ 32

def pdx (va : ℕ) : ℕ := va / 2 ^ 22 % 2 ^ 10
def ptx (va : ℕ) : ℕ := va / 2 ^ 12 % 2 ^ 10
def pgroundup (sz : ℕ) : ℕ := w32 (sz + PGSIZE - 1) / PGSIZE * PGSIZE
def pgrounddown (a : ℕ) : ℕ := a / PGSIZE * PGSIZE

/-- Where `kernel.ld` puts the data segment and the first free address. -/
structure Link where
  data : ℕ
  kend : ℕ
  text : KERNLINK < data
  data_le : data ≤ kend

/-- The physical page `p` passes the tests of `kfree`. -/
def Link.Usable (L : Link) (p : ℕ) : Prop := L.kend ≤ KERNBASE + p * PGSIZE ∧ p * PGSIZE < PHYSTOP

abbrev Frame (L : Link) := { p : ℕ // L.Usable p }

/-- A page table entry other than 0, which then has `PTE_P`. -/
structure Pte where
  page : ℕ
  w : Bool
  u : Bool

/-- A page table; `none` is the entry 0. -/
structure Pgtab (L : Link) where
  page : Frame L
  pte : ℕ → Option Pte

/-- What the calls of `kalloc` return: for the table that the address needs, and for the user page
at the address. -/
structure Kalloc (L : Link) where
  tab : ℕ → Option (Frame L)
  mem : ℕ → Option (Frame L)

/-- The page directory being worked on. -/
structure Image (L : Link) where
  pde : ℕ → Option (Pgtab L)

inductive Stop
  | panic (msg : String)
  deriving DecidableEq

abbrev M (L : Link) := Prog (Image L) Stop

variable {L : Link}

def panic {α : Type} (msg : String) : M L α := throw (.panic msg)

def Image.pteAt (s : Image L) (va : ℕ) : Option Pte := (s.pde (pdx va)).bind fun t => t.pte (ptx va)

def setPte (s : Image L) (va : ℕ) (x : Option Pte) : Image L :=
  match s.pde (pdx va) with
  | none => s
  | some t =>
    let t := { t with pte := update t.pte (ptx va) x }
    { s with pde := update s.pde (pdx va) (some t) }

def kfree (p : ℕ) : M L Unit :=
  if KERNBASE + p * PGSIZE < L.kend ∨ PHYSTOP ≤ p * PGSIZE then panic "kfree" else pure ()

section
variable (K : Kalloc L)

/-- `walkpgdir`: whether there is a table for `va`. -/
def walkpgdir (va : ℕ) (alloc : Bool) : M L Bool := do
  let s ← get
  match s.pde (pdx va) with
  | some _ => pure true
  | none =>
    if alloc then
      match K.tab va with
      | none => pure false
      | some p =>
        set { s with pde := update s.pde (pdx va) (some ⟨p, fun _ => none⟩) }
        pure true
    else pure false

/-- One turn of the loop of `mappages`. An entry that is present is not 0, so that the first of
the two tests catches it. -/
def mapPage (a page : ℕ) (w u : Bool) : M L Bool := do
  if ← walkpgdir K a true then
    let s ← get
    match s.pteAt a with
    | some _ => panic "*pte is 0"
    | none =>
      set (setPte s a (some ⟨page, w, u⟩))
      pure true
  else pure false

/-- The loop of `mappages` with `n` more pages after this one. -/
def mapLoop (w u : Bool) : ℕ → ℕ → ℕ → M L Bool
  | 0, a, page => mapPage K a page w u
  | n + 1, a, page => do
    if ← mapPage K a page w u then mapLoop w u n (w32 (a + PGSIZE)) (page + 1) else pure false

def mappages (va size page : ℕ) (w u : Bool) : M L Bool :=
  let a := pgrounddown va
  let last := pgrounddown (w32 (va + size - 1))
  mapLoop K w u (w32 (last + 2 ^ 32 - a) / PGSIZE) a page

end

section
variable (K : Kalloc L)

/-- One turn of the loop of `deallocuvm`; the address from which the next one goes on. -/
def deallocTurn (a : ℕ) : M L ℕ := do
  if ← walkpgdir K a false then
    let s ← get
    match s.pteAt a with
    | none => pure a
    | some pte =>
      if pte.page = 0 then panic "kfree"
      else
        kfree pte.page
        set (setPte s a none)
        pure a
  else pure (w32 (a + (NPTENTRIES - 1) * PGSIZE))

/-- One turn of the loop of `allocuvm`. The result of `mappages` is not looked at. -/
def allocTurn (a : ℕ) : M L Bool := do
  match K.mem a with
  | none => pure false
  | some p =>
    let _ ← mappages K a PGSIZE p true true
    pure true

end

abbrev UPAGES : ℕ := KERNBASE / PGSIZE

/-- The entry of the page with the number `n`. -/
def Image.entry (s : Image L) (n : ℕ) : Option Pte :=
  (s.pde (n / NPTENTRIES)).bind fun t => t.pte (n % NPTENTRIES)

theorem pdx_eq {va : ℕ} (h : va < 2 ^ 32) : pdx va = va / PGSIZE / NPTENTRIES := by
  unfold pdx PGSIZE NPTENTRIES
  omega

theorem ptx_eq (va : ℕ) : ptx va = va / PGSIZE % NPTENTRIES := rfl

theorem pteAt_eq (s : Image L) {va : ℕ} (h : va < 2 ^ 32) : s.pteAt va = s.entry (va / PGSIZE) := by
  rw [Image.pteAt, Image.entry, pdx_eq h, ptx_eq]

theorem entry_setPte {s : Image L} {va : ℕ} {t : Pgtab L} (h : va < 2 ^ 32)
    (ht : s.pde (pdx va) = some t) (x : Option Pte) (n : ℕ) :
    (setPte s va x).entry n = if n = va / PGSIZE then x else s.entry n := by
  have hn : n = va / PGSIZE ↔ n / NPTENTRIES = pdx va ∧ n % NPTENTRIES = ptx va := by
    rw [pdx_eq h, ptx_eq]
    unfold NPTENTRIES
    omega
  simp only [setPte, ht, Image.entry, hn]
  by_cases hd : n / NPTENTRIES = pdx va
  · rw [hd, update_self, ht]
    simp only [Option.bind_some, update_apply, true_and]
  · simp only [update_of_ne hd, hd, false_and, if_false]

section
variable {K : Kalloc L} {s : Image L} {E : Stop → Prop}

theorem walkpgdir_spec (va : ℕ) :
    wp (walkpgdir K va true) (fun ok s' => (∀ n, s'.entry n = s.entry n) ∧
      (ok = true → ∃ t, s'.pde (pdx va) = some t) ∧
      (ok = false → s.pde (pdx va) = none ∧ K.tab va = none)) E s := by
  apply wp_bind
  apply wp_get
  cases hs : s.pde (pdx va) with
  | some t => exact wp_pure ⟨fun _ => rfl, fun _ => ⟨t, hs⟩, nofun⟩
  | none =>
    rw [if_pos rfl]
    cases hK : K.tab va with
    | none => exact wp_pure ⟨fun _ => rfl, nofun, fun _ => ⟨rfl, rfl⟩⟩
    | some p =>
      apply wp_bind
      apply wp_set
      refine wp_pure ⟨?_, fun _ => ⟨_, update_self _ _ _⟩, nofun⟩
      intro n
      simp only [Image.entry]
      by_cases hn : n / NPTENTRIES = pdx va
      · rw [hn, update_self, hs]
        rfl
      · rw [update_of_ne hn]

/-- An entry that is 0 is filled, unless there is no page for its table. -/
theorem mapPage_spec {a : ℕ} (page : ℕ) (w u : Bool) (ha : a < 2 ^ 32)
    (hnone : s.entry (a / PGSIZE) = none) :
    wp (mapPage K a page w u) (fun ok s' => (∀ n ≠ a / PGSIZE, s'.entry n = s.entry n) ∧
      (ok = true → s'.entry (a / PGSIZE) = some ⟨page, w, u⟩) ∧
      (ok = false → s'.entry (a / PGSIZE) = none ∧ s.pde (pdx a) = none ∧ K.tab a = none)) E s := by
  apply wp_call (walkpgdir_spec a)
  rintro ok t ⟨hframe, hsome, htab⟩
  have hentry := hframe (a / PGSIZE)
  cases ok with
  | false =>
    exact wp_pure ⟨fun n _ => hframe n, nofun, fun _ => ⟨hentry.trans hnone, htab rfl⟩⟩
  | true =>
    obtain ⟨tab, htab'⟩ := hsome rfl
    apply wp_bind
    apply wp_get
    rw [pteAt_eq t ha, hentry, hnone]
    apply wp_bind
    apply wp_set
    have hset := entry_setPte ha htab' (some ⟨page, w, u⟩)
    refine wp_pure ⟨?_, fun _ => ?_, nofun⟩
    · intro n hn
      rw [hset, if_neg hn]
      exact hframe n
    · rw [hset, if_pos rfl]

/-- Where `mappages` starts and how far it goes for `n + 1` whole pages. -/
theorem mappages_range {va n : ℕ} (hal : va % PGSIZE = 0) (hva : va + n * PGSIZE < 2 ^ 32) :
    pgrounddown va = va ∧
      w32 (pgrounddown (w32 (va + (n + 1) * PGSIZE - 1)) + 2 ^ 32 - va) / PGSIZE = n := by
  have hlast : pgrounddown (w32 (va + (n + 1) * PGSIZE - 1)) = va + n * PGSIZE := by
    simp only [pgrounddown, w32, PGSIZE] at hal hva ⊢
    omega
  rw [hlast]
  simp only [pgrounddown, w32, PGSIZE] at hal hva ⊢
  omega

theorem mappages_eq {va n : ℕ} (page : ℕ) (w u : Bool) (hal : va % PGSIZE = 0)
    (hva : va + n * PGSIZE < 2 ^ 32) :
    mappages K va ((n + 1) * PGSIZE) page w u = mapLoop K w u n va page := by
  obtain ⟨ha, hn⟩ := mappages_range hal hva
  simp only [mappages, ha, hn]

theorem addr_lt {n : ℕ} (hn : n < UPAGES) : n * PGSIZE < 2 ^ 32 := by
  simp only [UPAGES, KERNBASE, PGSIZE] at hn ⊢
  omega

theorem addr_div (n : ℕ) : n * PGSIZE / PGSIZE = n := Nat.mul_div_cancel n (by decide)

/-- One page is added at `n`, or there is no page for its table and nothing is mapped. -/
theorem allocTurn_spec {n : ℕ} (hn : n < UPAGES) (hnone : s.entry n = none) :
    wp (allocTurn K (n * PGSIZE)) (fun ok s' => (ok = false → s' = s ∧ K.mem (n * PGSIZE) = none) ∧
      (ok = true → ∃ p : Frame L, K.mem (n * PGSIZE) = some p ∧
        (∀ m ≠ n, s'.entry m = s.entry m) ∧ (s'.entry n = some ⟨p, true, true⟩ ∨
          s'.entry n = none ∧ s.pde (pdx (n * PGSIZE)) = none ∧
            K.tab (n * PGSIZE) = none))) E s := by
  unfold allocTurn
  cases hmem : K.mem (n * PGSIZE) with
  | none => exact wp_pure ⟨fun _ => ⟨rfl, rfl⟩, nofun⟩
  | some p =>
    have hone : mappages K (n * PGSIZE) ((0 + 1) * PGSIZE) p true true =
        mapPage K (n * PGSIZE) p true true :=
      mappages_eq _ _ _ (Nat.mul_mod_left n PGSIZE) (by simpa using addr_lt hn)
    rw [Nat.zero_add, Nat.one_mul] at hone
    dsimp only
    rw [hone]
    refine wp_call (mapPage_spec p true true (addr_lt hn) ?_) ?_
    · rw [addr_div]
      exact hnone
    rintro ok t ⟨hframe, hok, hfail⟩
    rw [addr_div] at hframe hok hfail
    refine wp_pure ⟨nofun, fun _ => ⟨p, rfl, hframe, ?_⟩⟩
    cases ok with
    | true => exact .inl (hok rfl)
    | false => exact .inr (hfail rfl)

theorem Link.Usable.ne_zero {p : ℕ} (h : L.Usable p) : p ≠ 0 := by
  rintro rfl
  have hkend := h.1
  have htext := L.text
  have hdata := L.data_le
  simp only [KERNLINK, EXTMEM] at htext
  omega

theorem kfree_spec {p : ℕ} (h : L.Usable p) {Q : Unit → Image L → Prop} (hQ : Q () s) :
    wp (kfree p) Q E s := by
  unfold kfree
  rw [if_neg (by have := h.1; have := h.2; omega)]
  exact wp_pure hQ

/-- The entry of page `n` is 0 afterwards. When there is no table for it, the next 1023 pages
are passed over. -/
theorem deallocTurn_spec {n : ℕ} (hn : n < UPAGES)
    (hclean : ∀ e, s.entry n = some e → L.Usable e.page) :
    wp (deallocTurn K (n * PGSIZE)) (fun a s' =>
      (∀ m, s'.entry m = if m = n then none else s.entry m) ∧ (a = n * PGSIZE ∨
        a = (n + (NPTENTRIES - 1)) * PGSIZE ∧ ∀ m, m / NPTENTRIES = n / NPTENTRIES →
          s.entry m = none))
      E s := by
  have hpdx : pdx (n * PGSIZE) = n / NPTENTRIES := by rw [pdx_eq (addr_lt hn), addr_div]
  have hpte := pteAt_eq s (addr_lt hn)
  rw [addr_div] at hpte
  have hsame : s.entry n = none → ∀ m, s.entry m = if m = n then none else s.entry m := by
    intro hnone m
    split_ifs with hm
    · rw [hm, hnone]
    · rfl
  apply wp_bind
  apply wp_bind
  apply wp_get
  cases hs : s.pde (pdx (n * PGSIZE)) with
  | none =>
    have hno : ∀ m, m / NPTENTRIES = n / NPTENTRIES → s.entry m = none := by
      intro m hm
      rw [Image.entry, hm, ← hpdx, hs]
      rfl
    refine wp_pure (wp_pure ⟨hsame (hno n rfl), .inr ⟨?_, hno⟩⟩)
    simp only [w32, UPAGES, KERNBASE, PGSIZE, NPTENTRIES] at hn ⊢
    omega
  | some t =>
    apply wp_pure
    rw [if_pos rfl]
    apply wp_bind
    apply wp_get
    rw [hpte]
    cases he : s.entry n with
    | none => exact wp_pure ⟨hsame he, .inl rfl⟩
    | some e =>
      have husable := hclean e he
      simp only [if_neg husable.ne_zero]
      refine wp_call (kfree_spec husable (Q := fun _ t => t = s) rfl) ?_
      rintro _ _ rfl
      apply wp_bind
      apply wp_set
      have hset := entry_setPte (addr_lt hn) hs none
      rw [addr_div] at hset
      exact wp_pure ⟨hset, .inl rfl⟩

def SamePage (va va' : ℕ) : Prop := pdx va = pdx va' ∧ ptx va = ptx va'

theorem pteAt_setPte (s : Image L) (va : ℕ) (x : Option Pte) {va' : ℕ} (h : ¬SamePage va' va) :
    (setPte s va x).pteAt va' = s.pteAt va' := by
  unfold setPte
  split
  · rfl
  · next t ht =>
    simp only [Image.pteAt]
    by_cases hd : pdx va' = pdx va
    · have hx : ptx va' ≠ ptx va := fun hx => h ⟨hd, hx⟩
      rw [hd, update_self, ht]
      simp only [Option.bind_some, update_of_ne hx]
    · rw [update_of_ne hd]

/-- What is mapped in `s` is mapped in `s'`, to the same page. -/
def Image.Extends (s s' : Image L) : Prop := ∀ va, s.pteAt va ≠ none → s'.pteAt va = s.pteAt va

theorem Image.Extends.trans {s' s'' : Image L} (h : s.Extends s') (h' : s'.Extends s'') :
    s.Extends s'' := by
  intro va hva
  rw [h' va (by rwa [h va hva]), h va hva]

theorem walkpgdir_extends (va : ℕ) (alloc : Bool) :
    wp (walkpgdir K va alloc) (fun _ s' => s.Extends s') E s := by
  apply wp_bind
  apply wp_get
  cases hs : s.pde (pdx va) with
  | some t => exact wp_pure fun _ _ => rfl
  | none =>
    apply wp_ite
    · intro _
      cases K.tab va with
      | none => exact wp_pure fun _ _ => rfl
      | some p =>
        apply wp_bind
        apply wp_set
        apply wp_pure
        intro va' hva'
        have hne : pdx va' ≠ pdx va := by
          intro heq
          rw [Image.pteAt, heq, hs] at hva'
          exact hva' rfl
        simp only [Image.pteAt, update_of_ne hne]
    · exact fun _ => wp_pure fun _ _ => rfl

theorem mapPage_extends (a page : ℕ) (w u : Bool) :
    wp (mapPage K a page w u) (fun _ s' => s.Extends s') (fun _ => True) s := by
  apply wp_call (walkpgdir_extends a true)
  intro ok t ht
  apply wp_ite
  · intro _
    apply wp_bind
    apply wp_get
    cases hnone : t.pteAt a with
    | some _ => exact wp_throw trivial
    | none =>
      apply wp_bind
      apply wp_set
      refine wp_pure (ht.trans ?_)
      intro va hva
      apply pteAt_setPte
      intro hsame
      rw [Image.pteAt, hsame.1, hsame.2] at hva
      exact hva hnone
  · exact fun _ => wp_pure ht

theorem mapLoop_extends (w u : Bool) (n a page : ℕ) :
    wp (mapLoop K w u n a page) (fun _ s' => s.Extends s') (fun _ => True) s := by
  induction n generalizing a page s with
  | zero => exact mapPage_extends a page w u
  | succ n ih =>
    apply wp_call (mapPage_extends a page w u)
    intro ok t ht
    apply wp_ite
    · intro _
      exact wp_conseq (ih _ _) fun _ t' ht' => ht.trans ht'
    · exact fun _ => wp_pure ht

theorem allocTurn_extends (a : ℕ) :
    wp (allocTurn K a) (fun _ s' => s.Extends s') (fun _ => True) s := by
  unfold allocTurn
  cases K.mem a with
  | none => exact wp_pure fun _ _ => rfl
  | some p => exact wp_call (mapLoop_extends true true _ _ _) fun _ t ht => wp_pure ht

theorem deallocTurn_keeps (a : ℕ) :
    wp (deallocTurn K a) (fun _ s' => ∀ va, ¬SamePage va a → s'.pteAt va = s.pteAt va)
      (fun _ => True) s := by
  apply wp_bind
  apply wp_bind
  apply wp_get
  cases s.pde (pdx a) with
  | none => exact wp_pure (wp_pure fun _ _ => rfl)
  | some t =>
    apply wp_pure
    rw [if_pos rfl]
    apply wp_bind
    apply wp_get
    cases s.pteAt a with
    | none => exact wp_pure fun _ _ => rfl
    | some pte =>
      apply wp_ite
      · exact fun _ => wp_throw trivial
      · intro _
        have hkfree : wp (kfree pte.page) (fun _ t => t = s) (fun _ => True) s :=
          wp_ite (fun _ => wp_throw trivial) fun _ => wp_pure rfl
        apply wp_call hkfree
        rintro _ _ rfl
        apply wp_bind
        apply wp_set
        exact wp_pure fun va hva => pteAt_setPte _ a none hva

/-- The number of pages that hold `sz` bytes. -/
def pages (sz : ℕ) : ℕ := (sz + PGSIZE - 1) / PGSIZE

theorem pgroundup_eq {sz : ℕ} (h : sz ≤ KERNBASE) : pgroundup sz = pages sz * PGSIZE := by
  simp only [pgroundup, pages, w32, KERNBASE, PGSIZE] at h ⊢
  omega

theorem lt_pages {n sz : ℕ} : n < pages sz ↔ n * PGSIZE < sz := by
  simp only [pages, PGSIZE]
  omega

theorem pages_le {sz : ℕ} (h : sz ≤ KERNBASE) : pages sz ≤ UPAGES := by
  simp only [pages, UPAGES, KERNBASE, PGSIZE] at h ⊢
  omega

theorem pages_fuel {oldsz newsz : ℕ} (hle : oldsz ≤ newsz) : pages oldsz ≤ pages newsz ∧
    pages newsz ≤ pages oldsz + (newsz / PGSIZE + 1) := by
  simp only [pages, PGSIZE]
  omega

end

def smallKernel : Link where
  data := 0x80110000
  kend := 0x80120000
  text := by decide
  data_le := by decide

def frame (p : ℕ) : Frame smallKernel :=
  ⟨0x200 + p % 0x1000, by
    simp only [Link.Usable, smallKernel, KERNBASE, PHYSTOP, PGSIZE]
    omega⟩

end Xv6Threads.Vm
