import Xv6Threads.Vm

namespace Xv6Threads.PageMap

open Function List Vm

abbrev PTE_P : ℕ := 1
abbrev PTE_W : ℕ := 2
abbrev PTE_U : ℕ := 4

abbrev Ix : Type := Fin NPTENTRIES

theorem pdx_lt (va : ℕ) : Vm.pdx va < NPTENTRIES := Nat.mod_lt _ (by decide)
theorem ptx_lt (va : ℕ) : Vm.ptx va < NPTENTRIES := Nat.mod_lt _ (by decide)

def pdx (va : ℕ) : Ix := ⟨Vm.pdx va, pdx_lt va⟩
def ptx (va : ℕ) : Ix := ⟨Vm.ptx va, ptx_lt va⟩

/-- `*pde & PTE_P` -/
def present (e : ℕ) : Bool := e % 2 = PTE_P

/-- The page that `PTE_ADDR` names. -/
def page (e : ℕ) : ℕ := e / PGSIZE

structure State where
  mem : ℕ → Ix → ℕ
  free : List ℕ

def store (s : State) (p : ℕ) (i : Ix) (w : ℕ) : State :=
  { s with mem := update s.mem p (update (s.mem p) i w) }

/-- `v2p(pgtab) | PTE_P | PTE_W | PTE_U` -/
def pde (p : ℕ) : ℕ := p * PGSIZE ||| PTE_P ||| PTE_W ||| PTE_U

/-- The entry by the page of its table and its index. -/
def walkpgdir (s : State) (dir va : ℕ) (alloc : Bool) : Option (ℕ × Ix) × State :=
  if present (s.mem dir (pdx va)) then (some (page (s.mem dir (pdx va)), ptx va), s)
  else if alloc then
    match s.free with
    | [] => (none, s)
    | p :: free =>
      let s : State := ⟨update s.mem p fun _ => 0, free⟩
      (some (p, ptx va), store s dir (pdx va) (pde p))
  else (none, s)

inductive Outcome
  | running
  | panic
  | ret (ok : Bool) (s : State)

/-- At most `n` turns of the loop. An entry that is present is not 0, so that the first of the two
tests catches it. -/
def mapLoop (dir last perm : ℕ) : ℕ → ℕ → ℕ → State → Outcome
  | 0, _, _, _ => .running
  | n + 1, a, pa, s =>
    match walkpgdir s dir a true with
    | (none, s) => .ret false s
    | (some (t, i), s) =>
      if s.mem t i ≠ 0 then .panic
      else
        let s := store s t i (pa ||| perm ||| PTE_P)
        if a = last then .ret true s
        else mapLoop dir last perm n (w32 (a + PGSIZE)) (w32 (pa + PGSIZE)) s

def mappages (s : State) (dir va size pa perm n : ℕ) : Outcome :=
  mapLoop dir (pgrounddown (w32 (va + size - 1))) perm n (pgrounddown va) pa s

/-- The map: the entry for `va`, or 0. -/
def entry (s : State) (dir va : ℕ) : ℕ :=
  if present (s.mem dir (pdx va)) then s.mem (page (s.mem dir (pdx va))) (ptx va) else 0

/-- The page is the directory or one of its tables. -/
def Uses (s : State) (dir p : ℕ) : Prop :=
  p = dir ∨ ∃ i, present (s.mem dir i) ∧ p = page (s.mem dir i)

/-- What the kernel can make of `dir`: a zeroed page that `kalloc` returned, in which `mappages`
maps. Meanwhile entries in the tables are changed (`deallocuvm`, `clearpteu`), other pages are
written, and `kalloc` and `kfree` take and give pages, but none that the directory uses. -/
inductive Made (dir : ℕ) : State → Prop
  | zeroed {s : State} : (∀ i, s.mem dir i = 0) → (dir :: s.free).Nodup → Made dir s
  | mappages {s t : State} {va size pa perm n : ℕ} {ok : Bool} : Made dir s →
      mappages s dir va size pa perm n = .ret ok t → Made dir t
  | other {s t : State} : Made dir s → t.mem dir = s.mem dir → t.free.Nodup →
      (∀ p ∈ t.free, ¬ Uses s dir p) → Made dir t

/-- The directory has its tables for itself, each once, and `kalloc` returns pages not in use. -/
structure Own (s : State) (dir : ℕ) : Prop where
  one : ∀ i j, present (s.mem dir i) → present (s.mem dir j) →
    page (s.mem dir i) = page (s.mem dir j) → i = j
  apart : ∀ i, present (s.mem dir i) → page (s.mem dir i) ∉ dir :: s.free
  nodup : (dir :: s.free).Nodup

variable {s : State} {dir a b : ℕ}

theorem store_self (s : State) (p : ℕ) (i : Ix) (w : ℕ) :
    (store s p i w).mem p = update (s.mem p) i w := update_self ..

theorem store_of_ne (s : State) {p q : ℕ} (i : Ix) (w : ℕ) (h : q ≠ p) :
    (store s p i w).mem q = s.mem q := update_of_ne h ..

theorem pde_eq (p : ℕ) : pde p = p * 2 ^ 12 + 7 := by
  have hor : pde p = p * 2 ^ 12 ||| 7 := by
    rw [pde, Nat.or_assoc, Nat.or_assoc]
    rfl
  rw [hor, Nat.mul_comm, Nat.two_pow_add_eq_or_of_lt (by decide)]

/-- The first walk to a table makes it, and it is empty: the map stays as it is. -/
theorem Own.walkpgdir (h : Own s dir) (a : ℕ) : walkpgdir s dir a true = (none, s) ∨
    ∃ s', PageMap.walkpgdir s dir a true = (some (page (s'.mem dir (pdx a)), ptx a), s') ∧
      Own s' dir ∧ present (s'.mem dir (pdx a)) ∧ ∀ b, entry s' dir b = entry s dir b := by
  unfold PageMap.walkpgdir
  rw [if_pos rfl]
  split_ifs with hp
  · exact .inr ⟨s, rfl, h, hp, fun _ => rfl⟩
  have hapart := h.apart
  have hnodup := h.nodup
  cases hfree : s.free with
  | nil => exact .inl rfl
  | cons p free =>
    rw [hfree] at hapart hnodup
    have hdp : dir ≠ p := ne_of_not_mem_cons (nodup_cons.mp hnodup).1
    have hsub : dir :: free ⊆ dir :: p :: free := cons_subset_cons dir (subset_cons_self p free)
    have hpage : page (pde p) = p := by rw [pde_eq, page, PGSIZE]; omega
    have hpres : present (pde p) := by rw [pde_eq, present, PTE_P, decide_eq_true_eq]; omega
    have hnew : ∀ i, present (s.mem dir i) → page (s.mem dir i) ≠ p := fun i hi heq =>
      hapart i hi (heq ▸ mem_cons_of_mem dir mem_cons_self)
    generalize hs' : store ⟨update s.mem p fun _ => 0, free⟩ dir (pdx a) (pde p) = s'
    have hself : s'.mem dir (pdx a) = pde p := by rw [← hs', store_self, update_self]
    -- the other tables are those that were there
    have hold : ∀ i ≠ pdx a, s'.mem dir i = s.mem dir i := fun i hi => by
      rw [← hs', store_self, update_of_ne hi]
      exact congrFun (update_of_ne hdp ..) i
    have htab : ∀ q ≠ dir, s'.mem q = update s.mem p (fun _ => 0) q := fun q hq => by
      rw [← hs', store_of_ne _ _ _ hq]
    have hfree' : s'.free = free := by rw [← hs']; rfl
    refine .inr ⟨s', by rw [hself, hpage, ← hs'], ⟨fun i j hi hj hij => ?_, fun i hi => ?_, ?_⟩,
      hself ▸ hpres, fun b => ?_⟩
    · by_cases hia : i = pdx a <;> by_cases hja : j = pdx a
      · rw [hia, hja]
      · rw [hold j hja] at hj hij
        rw [hia, hself, hpage] at hij
        exact absurd hij.symm (hnew j hj)
      · rw [hold i hia] at hi hij
        rw [hja, hself, hpage] at hij
        exact absurd hij (hnew i hi)
      · rw [hold i hia] at hi hij
        rw [hold j hja] at hj hij
        exact h.one i j hi hj hij
    · rw [hfree']
      by_cases hia : i = pdx a
      · rw [hia, hself, hpage]
        exact (nodup_cons.mp ((Perm.swap p dir free).nodup_iff.mp hnodup)).1
      · rw [hold i hia] at hi ⊢
        exact fun hmem => hapart i hi (hsub hmem)
    · rw [hfree']
      exact hnodup.sublist ((sublist_cons_self p free).cons_cons dir)
    · unfold entry
      by_cases hba : pdx b = pdx a
      · rw [hba, if_neg hp, hself, if_pos hpres, hpage, htab p hdp.symm, update_self]
      · rw [hold _ hba]
        split_ifs with hb
        · rw [htab _ (ne_of_not_mem_cons (hapart _ hb)), update_of_ne (hnew _ hb)]
        · rfl

theorem Own.store {w : ℕ} (h : Own s dir) (hp : present (s.mem dir (pdx a))) :
    Own (store s (page (s.mem dir (pdx a))) (ptx a) w) dir ∧
    ∀ b, entry (PageMap.store s (page (s.mem dir (pdx a))) (ptx a) w) dir b =
      if pdx b = pdx a ∧ ptx b = ptx a then w else entry s dir b := by
  have hdir := store_of_ne s (ptx a) w (ne_of_not_mem_cons (h.apart _ hp)).symm
  refine ⟨⟨by rw [hdir]; exact h.one, by rw [hdir]; exact h.apart, h.nodup⟩, fun b => ?_⟩
  unfold entry
  rw [hdir]
  by_cases hba : pdx b = pdx a
  · rw [hba, if_pos hp, if_pos hp, store_self, update_apply]
    simp only [true_and]
  · rw [if_neg (c := pdx b = pdx a ∧ ptx b = ptx a) fun hb => hba hb.1]
    split_ifs with hb
    · rw [store_of_ne _ _ _ fun heq => hba (h.one _ _ hb hp heq)]
    · rfl

theorem Own.mapLoop_own {last perm : ℕ} {ok : Bool} {t : State} (n : ℕ) : ∀ {a pa : ℕ} {s : State},
    Own s dir → mapLoop dir last perm n a pa s = .ret ok t → Own t dir := by
  induction n with
  | zero =>
    intro a pa s _ hrun
    cases hrun
  | succ n ih =>
    intro a pa s h hrun
    rw [PageMap.mapLoop] at hrun
    obtain hnone | ⟨s', hsome, hs', hp, -⟩ := h.walkpgdir a
    · rw [hnone] at hrun
      obtain ⟨-, rfl⟩ := Outcome.ret.inj hrun
      exact h
    · rw [hsome] at hrun
      dsimp only at hrun
      have hstore := (hs'.store (w := pa ||| perm ||| PTE_P) hp).1
      split_ifs at hrun
      · obtain ⟨-, rfl⟩ := Outcome.ret.inj hrun
        exact hstore
      · exact ih hstore hrun

/-- Every directory has its tables for itself, since `walkpgdir` takes each from `kalloc`. -/
theorem Made.own (h : Made dir s) : Own s dir := by
  induction h with
  | zeroed hzero hnodup =>
    refine ⟨fun i j hi => ?_, fun i hi => ?_, hnodup⟩ <;>
    · rw [hzero i] at hi
      cases hi
  | mappages _ hrun ih => exact ih.mapLoop_own _ hrun
  | @other s t _ hdir hnodup hfree ih =>
    have hnot : dir ∉ t.free := fun hmem => hfree dir hmem (.inl rfl)
    refine ⟨by rw [hdir]; exact ih.one, fun i hi hmem => ?_, nodup_cons.mpr ⟨hnot, hnodup⟩⟩
    rw [hdir] at hi hmem
    obtain heq | hmem := mem_cons.mp hmem
    · exact ih.apart i hi (by rw [heq]; exact mem_cons_self)
    · exact hfree _ hmem (.inr ⟨i, hi, rfl⟩)

theorem index_eq_iff (ha : a < 2 ^ 32) (hb : b < 2 ^ 32) :
    pdx b = pdx a ∧ ptx b = ptx a ↔ b / 4096 = a / 4096 := by
  simp only [pdx, ptx, Vm.pdx, Vm.ptx, Fin.mk.injEq]
  omega

theorem Own.turn (last perm pa : ℕ) (ha : a < 2 ^ 32) (h : Own s dir) (h0 : entry s dir a = 0) :
    (∀ m, mapLoop dir last perm (m + 1) a pa s = .ret false s) ∨ ∃ s', Own s' dir ∧
      (∀ b < 2 ^ 32, entry s' dir b = if b / 4096 = a / 4096 then pa ||| perm ||| PTE_P
        else entry s dir b) ∧
      ∀ m, mapLoop dir last perm (m + 1) a pa s = if a = last then .ret true s'
        else mapLoop dir last perm m (w32 (a + PGSIZE)) (w32 (pa + PGSIZE)) s' := by
  obtain hnone | ⟨t, hsome, ht, hp, hentry⟩ := h.walkpgdir a
  · exact .inl fun m => by rw [mapLoop, hnone]
  · have hzero : t.mem (page (t.mem dir (pdx a))) (ptx a) = 0 := by
      rw [← hentry a, entry, if_pos hp] at h0
      exact h0
    obtain ⟨hown, hstore⟩ := ht.store (w := pa ||| perm ||| PTE_P) hp
    refine .inr ⟨_, hown, fun b hb => ?_, fun m => ?_⟩
    · simp only [hstore, hentry, index_eq_iff ha hb]
    · rw [mapLoop, hsome]
      exact if_neg fun hne => hne hzero

theorem Own.mapLoop (perm : ℕ) {l : ℕ} (hl : l < 2 ^ 20) (n : ℕ) : ∀ s f pa, Own s dir → f + n = l →
    pa < 2 ^ 32 → (∀ b < 2 ^ 32, f ≤ b / 4096 ∧ b / 4096 ≤ l → entry s dir b = 0) →
    ∃ ok s', (∀ m, mapLoop dir (l * 4096) perm (m + n + 1) (f * 4096) pa s = .ret ok s') ∧
      (ok = true → ∀ b < 2 ^ 32, f ≤ b / 4096 ∧ b / 4096 ≤ l →
        entry s' dir b = w32 (pa + (b / 4096 - f) * 4096) ||| perm ||| PTE_P) ∧
      ∀ b < 2 ^ 32, ¬ (f ≤ b / 4096 ∧ b / 4096 ≤ l) → entry s' dir b = entry s dir b := by
  induction n with
  | zero =>
    rintro s f pa h rfl hpa hzero
    obtain hfail | ⟨s', -, hentry, hrun⟩ :=
      h.turn (f * 4096) perm pa (by omega) (hzero (f * 4096) (by omega) (by omega))
    · exact ⟨false, s, hfail, by simp, fun _ _ _ => rfl⟩
    refine ⟨true, s', fun m => (hrun m).trans (if_pos rfl), fun _ b hb hin => ?_,
      fun b hb hout => ?_⟩
    · rw [hentry b hb, if_pos (by omega), show b / 4096 - f = 0 by omega, w32, Nat.zero_mul,
        Nat.add_zero, Nat.mod_eq_of_lt hpa]
    · rw [hentry b hb, if_neg (by omega)]
  | succ n ih =>
    intro s f pa h hn hpa hzero
    obtain hfail | ⟨t, ht, hentry, hrun⟩ :=
      h.turn (l * 4096) perm pa (by omega) (hzero (f * 4096) (by omega) (by omega))
    · exact ⟨false, s, fun m => hfail _, by simp, fun _ _ _ => rfl⟩
    have hnext : w32 (f * 4096 + PGSIZE) = (f + 1) * 4096 := by
      rw [w32, PGSIZE]
      omega
    obtain ⟨ok, s', hloop, hmapped, hkeep⟩ := ih t (f + 1) (w32 (pa + 4096)) ht (by omega)
      (Nat.mod_lt _ (by decide)) fun b hb hin => by
        rw [hentry b hb, if_neg (by omega)]
        exact hzero b hb (by omega)
    refine ⟨ok, s', fun m => ?_, fun hok b hb hin => ?_, fun b hb hout => ?_⟩
    · rw [← Nat.add_assoc, hrun, if_neg (by omega), hnext]
      exact hloop m
    · by_cases hf : b / 4096 = f
      · rw [hkeep b hb (by omega), hentry b hb, if_pos (by omega), hf, Nat.sub_self, w32,
          Nat.zero_mul, Nat.add_zero, Nat.mod_eq_of_lt hpa]
      · rw [hmapped hok b hb (by omega), w32, w32, w32, Nat.mod_add_mod,
          show pa + 4096 + (b / 4096 - (f + 1)) * 4096 = pa + (b / 4096 - f) * 4096 by omega]
    · rw [hkeep b hb (by omega), hentry b hb, if_neg (by omega)]

/-- `b` is in a page that `mappages` is to map. -/
def InRange (va size b : ℕ) : Prop :=
  va / PGSIZE ≤ b / PGSIZE ∧ b / PGSIZE ≤ (va + size - 1) / PGSIZE

/-- `mappages` ends. If it does not fail, each page of the range is mapped where it should be; all
others are as before, and a walk that may not allocate changes nothing. -/
theorem mappages_maps (s : State) (dir va size pa perm : ℕ) (h : Made dir s) (hsize : 0 < size)
    (hva : va + size ≤ 2 ^ 32) (hpa : pa < 2 ^ 32)
    (hzero : ∀ b < 2 ^ 32, InRange va size b → entry s dir b = 0) :
    (∃ ok s', (∀ m ≥ 2 ^ 20, mappages s dir va size pa perm m = .ret ok s') ∧
      (ok = true → ∀ b < 2 ^ 32, InRange va size b → entry s' dir b =
        w32 (pa + (b / PGSIZE - va / PGSIZE) * PGSIZE) ||| perm ||| PTE_P) ∧
      ∀ b < 2 ^ 32, ¬ InRange va size b → entry s' dir b = entry s dir b) ∧
    ∀ b, (walkpgdir s dir b false).2 = s := by
  have hw : w32 (va + size - 1) = va + size - 1 := Nat.mod_eq_of_lt (by omega)
  constructor
  · obtain ⟨ok, s', hloop, hrest⟩ := Own.mapLoop perm (l := (va + size - 1) / 4096) (by omega)
      ((va + size - 1) / 4096 - va / 4096) s (va / 4096) pa h.own (by omega) hpa hzero
    refine ⟨ok, s', fun m hm => ?_, hrest⟩
    rw [mappages, hw, ← hloop (m - ((va + size - 1) / 4096 - va / 4096) - 1)]
    congr
    omega
  · intro b
    rw [walkpgdir, if_neg Bool.false_ne_true]
    split_ifs <;> rfl

/-- Page 0 is mapped first, and then the last page of its table and the first of the next one. -/
theorem mappages_maps_second : ∃ s s',
    mappages ⟨fun _ _ => 0, [1, 2]⟩ 0 0 4096 0 2 (2 ^ 20) = .ret true s ∧
    mappages s 0 0x3FF000 0x2000 0x5000 4 (2 ^ 20) = .ret true s' ∧
    entry s' 0 0 = 3 ∧ entry s' 0 0x3FF000 = 0x5005 ∧ entry s' 0 0x400000 = 0x6005 := by
  have hzeroed : Made 0 ⟨fun _ _ => 0, [1, 2]⟩ := .zeroed (fun _ => rfl) (by decide)
  obtain ⟨⟨ok, s, hfirst, hmapped, hkept⟩, -⟩ := mappages_maps ⟨fun _ _ => 0, [1, 2]⟩ 0 0 4096 0 2
    hzeroed (by decide) (by decide) (by decide) fun _ _ _ => rfl
  have hok : Outcome.ret true _ = .ret ok s := hfirst (2 ^ 20) le_rfl
  obtain ⟨rfl, hs⟩ := Outcome.ret.inj hok
  obtain ⟨⟨ok, s', hrun, hmapped', hkept'⟩, -⟩ := mappages_maps s 0 0x3FF000 0x2000 0x5000 4
    (.mappages hzeroed (hfirst _ le_rfl)) (by decide) (by decide) (by decide) fun b hb hin => by
      refine hkept b hb fun hin' => ?_
      simp only [InRange, PGSIZE] at hin hin'
      omega
  have hlast := hrun (2 ^ 20) le_rfl
  rw [← hs] at hlast
  have hok : Outcome.ret true _ = .ret ok s' := hlast
  obtain ⟨rfl, -⟩ := Outcome.ret.inj hok
  refine ⟨s, s', hfirst _ le_rfl, hrun _ le_rfl, ?_, ?_, ?_⟩
  · rw [hkept' 0 (by decide) (by unfold InRange; decide)]
    exact hmapped rfl 0 (by decide) (by unfold InRange; decide)
  · exact hmapped' rfl _ (by decide) (by unfold InRange; decide)
  · exact hmapped' rfl _ (by decide) (by unfold InRange; decide)

end Xv6Threads.PageMap
