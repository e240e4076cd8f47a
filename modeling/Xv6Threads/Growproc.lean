import Xv6Threads.KmemSpace

namespace Xv6Threads.Kmem

open Atomic Function Option
open Vm (PGSIZE KERNBASE UPAGES Link Pte pages smallKernel)

/-- The process `i` with its size and its directory: exactly the pages of `[0, sz)` are mapped, and
no page is in two places. -/
structure InOrder (L : Link) (s : Store) (i : Slot) (X : Set ℕ) : Prop where
  sep : Sep L s (s.proc i).pgdir X
  size : (s.proc i).sz < KERNBASE
  mapped : ∀ m < UPAGES, s.entry (s.proc i).pgdir m ≠ none ↔ m * PGSIZE < (s.proc i).sz

/-- What `growproc(n)` promises when it returns 0. -/
structure Resized (s t : Store) (i : Slot) (n : ℤ) : Prop where
  range : 0 ≤ (s.proc i).sz + n ∧ (s.proc i).sz + n < KERNBASE
  pgdir : (t.proc i).pgdir = (s.proc i).pgdir
  size : ((t.proc i).sz : ℤ) = (s.proc i).sz + n
  mapped : ∀ m < UPAGES, t.entry (s.proc i).pgdir m ≠ none ↔ (m * PGSIZE : ℤ) < (s.proc i).sz + n
  kept : ∀ m < UPAGES, ∀ e, s.entry (s.proc i).pgdir m = some e →
    (m * PGSIZE : ℤ) < (s.proc i).sz + n →
      t.entry (s.proc i).pgdir m = some e ∧ t.byte e.page = s.byte e.page
  added : ∀ m < UPAGES, ∀ e, s.entry (s.proc i).pgdir m = none →
    t.entry (s.proc i).pgdir m = some e → t.byte e.page = fun _ => 0

structure Unresized (s t : Store) (i : Slot) : Prop where
  proc : t.proc i = s.proc i
  mapped : ∀ m < UPAGES, t.entry (s.proc i).pgdir m = s.entry (s.proc i).pgdir m
  kept : ∀ m < UPAGES, ∀ e, s.entry (s.proc i).pgdir m = some e → t.byte e.page = s.byte e.page

def Promised (s : Store) (i : Slot) (n r : ℤ) (t : Store) : Prop :=
  r = 0 ∧ Resized s t i n ∨ r = -1 ∧ Unresized s t i

section
variable {L : Link} {s t : Store} {i : Slot} {X : Set ℕ} {n : ℤ}

theorem InOrder.lt_pages (h : InOrder L s i X) : ∀ m < UPAGES,
    (s.entry (s.proc i).pgdir m ≠ none ↔ m < pages (s.proc i).sz) := by
  intro m hm
  rw [h.mapped m hm, Vm.lt_pages]

theorem InOrder.unresized (h : InOrder L s i X) (hproc : t.proc = s.proc)
    (hkeeps : Keeps s t (s.proc i).pgdir (pages (s.proc i).sz))
    (hnone : ∀ m < UPAGES, pages (s.proc i).sz ≤ m → t.entry (s.proc i).pgdir m = none) :
    Unresized s t i where
  proc := by rw [hproc]
  mapped m hm := by
    by_cases hlt : m < pages (s.proc i).sz
    · exact (hkeeps m hlt).1
    · rw [hnone m hm (by omega)]
      exact (not_not.mp (mt (h.lt_pages m hm).mp hlt)).symm
  kept m hm e he := by
    have hlt := (h.lt_pages m hm).mp (by rw [he]; exact some_ne_none e)
    exact (hkeeps m hlt).2 e he

theorem Unresized.refl (s : Store) (i : Slot) : Unresized s s i :=
  ⟨rfl, fun _ _ => rfl, fun _ _ _ _ => rfl⟩

theorem finish_spec {sz : ℕ} {Q : ℤ → Store → Prop} {d : ℕ} (hd : d ≠ 0)
    (hQ : Q 0 { s with proc := update s.proc i { s.proc i with sz := sz } }) :
    Alone TablesFound Q (do op (.setSz i sz); switchuvm d; pure 0) s := by
  refine alone_op (fun _ => rfl) ?_
  rw [switchuvm, if_neg hd]
  exact alone_pure hQ

theorem newSize_of_nonneg {sz : ℕ} (hsz : sz < KERNBASE) (hn : n < 2 ^ 31) (h : 0 ≤ sz + n) :
    (newSize sz n : ℤ) = sz + n := by
  have hlt : (sz : ℤ) < 2 ^ 31 := by exact_mod_cast hsz
  unfold newSize
  omega

theorem growproc_up (h : InOrder L s i X) (hn : 0 < n) (hn' : n < 2 ^ 31) :
    Alone TablesFound (Promised s i n) (growproc L i n) s := by
  have hd : (s.proc i).pgdir ≠ 0 := (h.sep.usable _ h.sep.dir_mem).ne_zero
  have hnew := newSize_of_nonneg h.size hn' (by omega)
  have hsize := h.size
  refine alone_op (fun _ => rfl) ?_
  rw [if_pos hn]
  by_cases hbig : KERNBASE ≤ newSize (s.proc i).sz n
  · -- allocuvm refuses at once
    rw [allocuvm, if_pos hbig, Code.pure_bind]
    beta_reduce
    rw [if_pos ⟨hn.ne', rfl⟩]
    exact alone_pure (.inr ⟨rfl, .refl s i⟩)
  refine (allocuvm_spec (by omega) (Nat.lt_of_not_le hbig) h.sep h.lt_pages).bind ?_
  rintro r t ⟨-, hproc, ⟨rfl, hkeeps, hadded⟩ | ⟨rfl, hkeeps, hnone⟩⟩
  · beta_reduce
    rw [if_neg (by omega)]
    refine finish_spec hd (.inl ⟨rfl, ?_⟩)
    have hmap : ∀ m < UPAGES, t.entry (s.proc i).pgdir m ≠ none ↔
        m < pages (newSize (s.proc i).sz n) := by
      intro m hm
      by_cases hold : m < pages (s.proc i).sz
      · have hlt := Vm.lt_pages.mp hold
        rw [(hkeeps m hold).1, h.lt_pages m hm, Vm.lt_pages, Vm.lt_pages]
        constructor <;> intro <;> omega
      · have hm' := hadded m hm (by omega)
        split_ifs at hm' with hlt
        · obtain ⟨e, he, -⟩ := hm'
          simp only [he, ne_eq, reduceCtorEq, not_false_eq_true, hlt]
        · simp only [hm', ne_eq, not_true_eq_false, hlt]
    constructor
    · exact ⟨by omega, by rw [← hnew]; exact_mod_cast Nat.lt_of_not_le hbig⟩
    · simp only [update_self, hproc]
    · simp only [update_self, hnew]
    · intro m hm
      change t.entry _ m ≠ none ↔ _
      rw [hmap m hm, Vm.lt_pages, ← hnew]
      norm_cast
    · intro m hm e he _
      have hlt := (h.lt_pages m hm).mp (by rw [he]; exact some_ne_none e)
      exact ⟨(hkeeps m hlt).1.trans he, (hkeeps m hlt).2 e he⟩
    · intro m hm e hnone he
      have hge : ¬m < pages (s.proc i).sz := fun hlt => (h.lt_pages m hm).mpr hlt hnone
      have hm' := hadded m hm (by omega)
      have hlt := (hmap m hm).mp (by rw [show t.entry _ m = some e from he]; exact some_ne_none e)
      rw [if_pos hlt] at hm'
      obtain ⟨e', he', hzero⟩ := hm'
      rw [show t.entry _ m = some e from he] at he'
      rw [some.inj he']
      exact hzero
  · beta_reduce
    rw [if_pos ⟨hn.ne', rfl⟩]
    exact alone_pure (.inr ⟨rfl, h.unresized hproc hkeeps hnone⟩)

theorem growproc_down (h : InOrder L s i X) (hn : n < 0) (hpos : 0 < (s.proc i).sz + n) :
    Alone TablesFound (Promised s i n) (growproc L i n) s := by
  have hd : (s.proc i).pgdir ≠ 0 := (h.sep.usable _ h.sep.dir_mem).ne_zero
  have hnew := newSize_of_nonneg h.size (by omega) hpos.le
  have hsize := h.size
  refine alone_op (fun _ => rfl) ?_
  rw [if_neg (by omega), if_pos hn]
  refine (deallocuvm_spec hsize.le (by omega) h.sep h.lt_pages le_rfl).bind ?_
  rintro r t ⟨rfl, -, hproc, hkeeps, hnone⟩
  beta_reduce
  rw [if_neg (by omega)]
  refine finish_spec hd (.inl ⟨rfl, ?_⟩)
  have hlt : ∀ m : ℕ, (m * PGSIZE : ℤ) < (s.proc i).sz + n ↔
      m < pages (newSize (s.proc i).sz n) := by
    intro m
    rw [Vm.lt_pages, ← hnew]
    norm_cast
  constructor
  · exact ⟨hpos.le, by omega⟩
  · simp only [update_self, hproc]
  · simp only [update_self, hnew]
  · intro m hm
    change t.entry _ m ≠ none ↔ _
    rw [hlt]
    by_cases hm' : m < pages (newSize (s.proc i).sz n)
    · rw [(hkeeps m hm').1, h.mapped m hm]
      have := Vm.lt_pages.mp hm'
      simp only [hm', iff_true]
      omega
    · simp only [hnone m hm (by omega), ne_eq, not_true_eq_false, hm']
  · intro m hm e he hm'
    exact ⟨(hkeeps m ((hlt m).mp hm')).1.trans he, (hkeeps m ((hlt m).mp hm')).2 e he⟩
  · intro m hm e hnone' he
    change t.entry _ m = some e at he
    by_cases hm' : m < pages (newSize (s.proc i).sz n)
    · rw [(hkeeps m hm').1, hnone'] at he
      cases he
    · rw [hnone m hm (by omega)] at he
      cases he

theorem growproc_zero (h : InOrder L s i X) :
    Alone TablesFound (Promised s i 0) (growproc L i 0) s := by
  have hd : (s.proc i).pgdir ≠ 0 := (h.sep.usable _ h.sep.dir_mem).ne_zero
  have hsize := h.size
  refine alone_op (fun _ => rfl) ?_
  rw [if_neg (lt_irrefl 0), if_neg (lt_irrefl 0), Code.pure_bind]
  beta_reduce
  rw [if_neg fun hz => hz.1 rfl]
  refine finish_spec hd (.inl ⟨rfl, ?_⟩)
  constructor
  · exact ⟨by omega, by rw [add_zero]; exact_mod_cast hsize⟩
  · simp only [update_self]
  · simp only [update_self, add_zero]
  · intro m hm
    rw [add_zero]
    refine (h.mapped m hm).trans ?_
    norm_cast
  · exact fun m _ e he _ => ⟨he, rfl⟩
  · intro m _ e hnone he
    cases hnone.symm.trans he

theorem growproc_empty (hn : n < 0) (hsz : (s.proc i).sz = 0) :
    Alone TablesFound (Promised s i n) (growproc L i n) s := by
  refine alone_op (fun _ => rfl) ?_
  rw [if_neg (by omega), if_pos hn, deallocuvm, if_pos (by rw [hsz]; exact Nat.zero_le _),
    Code.pure_bind]
  beta_reduce
  rw [if_pos ⟨hn.ne, hsz⟩]
  exact alone_pure (.inr ⟨rfl, .refl s i⟩)

/-- The operation is not `kalloc` for a table. -/
def NotTable (o : Op) : Prop := o ≠ .kalloc .tab

theorem tablesFound_of_notTable {o : Op} (h : NotTable o) (b : Res o) : TablesFound o b := by
  cases o with
  | kalloc use =>
    cases use with
    | tab => exact absurd rfl h
    | _ => trivial
  | _ => trivial

theorem op_all {o : Op} (h : NotTable o) : (op o).All NotTable := ⟨h, fun _ => trivial⟩

theorem kfree_all (L : Link) (p : ℕ) : (kfree L p).All NotTable := by
  unfold kfree
  split_ifs
  · trivial
  · exact op_all (by simp [NotTable])

theorem deallocLoop_all (L : Link) (d oldsz fuel : ℕ) :
    ∀ a, (deallocLoop L d oldsz fuel a).All NotTable := by
  induction fuel with
  | zero => exact fun _ => trivial
  | succ fuel ih =>
    intro a
    rw [deallocLoop]
    split_ifs
    · refine Code.All.bind ?_ fun a => ih _
      refine Code.All.bind ?_ fun b => ?_
      · refine Code.All.bind (op_all (by simp [NotTable])) fun b => ?_
        cases b <;> trivial
      · split_ifs
        · refine Code.All.bind (op_all (by simp [NotTable])) fun e => ?_
          cases e with
          | none => trivial
          | some pte =>
            dsimp only
            split_ifs
            · trivial
            · exact (kfree_all L _).bind fun _ => (op_all (by simp [NotTable])).bind fun _ =>
                trivial
        · trivial
    · trivial

theorem growproc_all (L : Link) (i : Slot) (hn : n < 0) : (growproc L i n).All NotTable := by
  refine Code.All.bind (op_all (by simp [NotTable])) fun p => ?_
  rw [if_neg (by omega), if_pos hn]
  refine Code.All.bind ?_ fun sz => ?_
  · unfold deallocuvm
    split_ifs
    · trivial
    · exact (deallocLoop_all L _ _ _ _).bind fun _ => trivial
  · beta_reduce
    split_ifs
    · trivial
    · refine (op_all (by simp [NotTable])).bind fun _ => Code.All.bind ?_ fun _ => trivial
      unfold switchuvm
      split_ifs <;> trivial

/-- A process that is to shrink to nothing loses its pages, and `growproc` fails. -/
theorem growproc_to_zero (h : InOrder L s i X) (hn : n < 0) (hzero : (s.proc i).sz + n = 0) :
    Alone TablesFound (fun r t => r = -1 ∧ t.entry (s.proc i).pgdir 0 = none)
      (growproc L i n) s := by
  have hsize := h.size
  have hnew : newSize (s.proc i).sz n = 0 := by rw [newSize, hzero]; rfl
  refine alone_op (fun _ => rfl) ?_
  rw [if_neg (by omega), if_pos hn, hnew]
  refine (deallocuvm_spec hsize.le (by omega) h.sep h.lt_pages le_rfl).bind ?_
  rintro r t ⟨rfl, -, -, -, hnone⟩
  beta_reduce
  rw [if_pos ⟨hn.ne, rfl⟩]
  exact alone_pure ⟨rfl, hnone 0 (by decide) (by decide)⟩

/-- A process that is to shrink to less than nothing stays as it is, and `growproc` succeeds. -/
theorem growproc_below_zero (h : InOrder L s i X) (hlo : -2 ^ 31 ≤ n) (hsz : (s.proc i).sz ≠ 0)
    (hneg : (s.proc i).sz + n < 0) :
    Alone TablesFound (fun r _ => r = 0) (growproc L i n) s := by
  have hd : (s.proc i).pgdir ≠ 0 := (h.sep.usable _ h.sep.dir_mem).ne_zero
  have hlt : ((s.proc i).sz : ℤ) < 2 ^ 31 := by exact_mod_cast h.size
  have hnew : (s.proc i).sz ≤ newSize (s.proc i).sz n := by
    unfold newSize
    omega
  refine alone_op (fun _ => rfl) ?_
  rw [if_neg (by omega), if_pos (by omega), deallocuvm, if_pos hnew, Code.pure_bind]
  beta_reduce
  rw [if_neg fun hz => hsz hz.2]
  exact finish_spec hd rfl

/-- If `kalloc` has a page whenever one is wanted for a table, `growproc` does what it promises
exactly if the process is not to shrink to nothing or to less than nothing. -/
theorem growproc_exact (h : InOrder L s i X) (hlo : -2 ^ 31 ≤ n) (hhi : n < 2 ^ 31) :
    Alone TablesFound (Promised s i n) (growproc L i n) s ↔
      (n < 0 → (s.proc i).sz ≠ 0 → 0 < (s.proc i).sz + n) := by
  constructor
  · intro hall hn hsz
    have hend := fun {Q} (hQ : Alone TablesFound Q (growproc L i n) s) =>
      (hall.and hQ).exists_end (p := NotTable) (fun o ho b => tablesFound_of_notTable ho b)
        (growproc_all L i hn)
    by_contra hle
    rcases (Int.not_lt.mp hle).lt_or_eq with hneg | hzero
    · obtain ⟨r, t, ⟨-, hnew⟩ | ⟨rfl, -⟩, hr⟩ := hend (growproc_below_zero h hlo hsz hneg)
      · exact absurd hnew.range.1 (by omega)
      · cases hr
    · obtain ⟨r, t, ⟨rfl, -⟩ | ⟨-, hsame⟩, hr, hnone⟩ := hend (growproc_to_zero h hn hzero)
      · cases hr
      · rw [hsame.mapped 0 (by decide)] at hnone
        exact (h.mapped 0 (by decide)).mpr
          (by rw [Nat.zero_mul]; exact Nat.pos_of_ne_zero hsz) hnone
  · intro hpos
    rcases lt_trichotomy n 0 with hn | rfl | hn
    · by_cases hsz : (s.proc i).sz = 0
      · exact growproc_empty hn hsz
      · exact growproc_down h hn (hpos hn hsz)
    · exact growproc_zero h
    · exact growproc_up h hn hhi

end

/-- A process of `k` pages with one table, and two free pages. -/
def image (k : ℕ) : Store where
  freelist := [0x1000, 0x1001]
  byte _ _ := 7
  pgdir d i :=
    if d = 0x200 ∧ i = 0 then some ⟨0x201, fun j => if j < k then some
      ⟨0x300 + j, true, true⟩ else none⟩
    else none
  proc _ := ⟨0x200, k * PGSIZE⟩

theorem image_entry {k : ℕ} (hk : k ≤ 1024) (m : ℕ) :
    (image k).entry 0x200 m = if m < k then some ⟨0x300 + m, true, true⟩ else none := by
  simp only [Store.entry, image, true_and, Vm.NPTENTRIES]
  by_cases hm : m / 1024 = 0
  · rw [if_pos hm, bind_some, Nat.mod_eq_of_lt (by omega)]
  · rw [if_neg hm, if_neg (by omega)]
    rfl

theorem image_inOrder {k : ℕ} (hk : k ≤ 1024) (i : Slot) :
    InOrder smallKernel (image k) i ({0x200, 0x201, 0x1000, 0x1001} ∪
      {p | 0x300 ≤ p ∧ p < 0x300 + k}) := by
  have hfree : ∀ p, Holds (image k) 0x200 p .free ↔ p = 0x1000 ∨ p = 0x1001 := by
    intro p
    simp [Holds, image]
  have hdir : ∀ p, Holds (image k) 0x200 p .dir ↔ p = 0x200 := fun _ => Iff.rfl
  have htab : ∀ p j, Holds (image k) 0x200 p (.tab j) ↔ j = 0 ∧ p = 0x201 := by
    intro p j
    simp only [Holds, image, true_and]
    by_cases hj : j = 0
    · simp [hj, eq_comm]
    · simp [hj]
  have huser : ∀ p n, Holds (image k) 0x200 p (.user n) ↔ n < k ∧ p = 0x300 + n := by
    intro p n
    simp only [Holds, image_entry hk]
    by_cases hn : n < k
    · have hu : n < UPAGES := hn.trans_le (hk.trans (by decide))
      simp [hn, hu, eq_comm]
    · simp [hn]
  refine ⟨⟨(by decide : [0x1000, 0x1001].Nodup), ?_, ?_, ?_⟩, ?_, ?_⟩
  · intro p x y hx hy
    change Holds (image k) 0x200 p x at hx
    change Holds (image k) 0x200 p y at hy
    cases x <;> cases y <;> simp only [hfree, hdir, htab, huser, reduceCtorEq, Place.tab.injEq,
      Place.user.injEq] at hx hy ⊢ <;> omega
  · intro p
    change (∃ x, Holds (image k) 0x200 p x) ↔ _
    simp only [Set.mem_union, Set.mem_insert_iff, Set.mem_singleton_iff, Set.mem_ofPred_eq]
    constructor
    · rintro ⟨x, hx⟩
      cases x <;> simp only [hfree, hdir, htab, huser] at hx <;> omega
    · rintro ((hp | hp | hp | hp) | hp)
      · exact ⟨.dir, hp⟩
      · exact ⟨.tab 0, (htab p 0).mpr ⟨rfl, hp⟩⟩
      · exact ⟨.free, (hfree p).mpr (.inl hp)⟩
      · exact ⟨.free, (hfree p).mpr (.inr hp)⟩
      · exact ⟨.user (p - 0x300), (huser p _).mpr ⟨by omega, by omega⟩⟩
  · intro p hp
    simp only [Set.mem_union, Set.mem_insert_iff, Set.mem_singleton_iff, Set.mem_ofPred_eq] at hp
    simp only [Link.Usable, smallKernel, KERNBASE, PGSIZE, Vm.PHYSTOP]
    omega
  · change k * PGSIZE < KERNBASE
    simp only [KERNBASE, PGSIZE]
    omega
  · intro m _
    change (image k).entry 0x200 m ≠ none ↔ m * PGSIZE < k * PGSIZE
    rw [image_entry hk]
    split_ifs with hm
    · simp only [ne_eq, reduceCtorEq, not_false_eq_true, PGSIZE, true_iff]
      omega
    · simp only [ne_eq, not_true_eq_false, PGSIZE, false_iff]
      omega

theorem growproc_exact_one :
    Alone TablesFound (Promised (image 1) 0 4096) (growproc smallKernel 0 4096) (image 1) ∧
    Alone TablesFound (Promised (image 2) 0 (-4096)) (growproc smallKernel 0 (-4096)) (image 2) :=
  ⟨(growproc_exact (image_inOrder (by decide) 0) (by decide) (by decide)).mpr (by decide),
    (growproc_exact (image_inOrder (by decide) 0) (by decide) (by decide)).mpr (by decide)⟩

/-- A run that can be computed, with what is to be known of the state at its end. -/
theorem exists_run {α : Type} (c : C α) (xs : List Bool) (s : Store) (r : α) (f : Store → Bool)
    (h : (c.run xs s).map (fun x => (x.1, f x.2)) = some (r, true)) :
    ∃ t, c.run xs s = some (r, t) ∧ f t = true := by
  obtain ⟨⟨r', t⟩, hrun, heq⟩ := map_eq_some_iff.mp h
  obtain ⟨rfl, hf⟩ := Prod.mk.inj heq
  exact ⟨t, hrun, hf⟩

/-- `sbrk(-sz)` frees all pages and returns -1. `sbrk` of less than `-sz` returns 0 and does
nothing. When there is a page for the user but none for a table, `sbrk` returns 0 and the page is
not mapped. -/
theorem growproc_inexact :
    (∃ X, InOrder smallKernel (image 1) 0 X) ∧ (∃ X, InOrder smallKernel (image 1024) 0 X) ∧
    ¬Alone (fun _ _ => True) (Promised (image 1) 0 (-4096)) (growproc smallKernel 0 (-4096))
      (image 1) ∧
    ¬Alone (fun _ _ => True) (Promised (image 1) 0 (-4097)) (growproc smallKernel 0 (-4097))
      (image 1) ∧
    ¬Alone (fun _ _ => True) (Promised (image 1024) 0 4096) (growproc smallKernel 0 4096)
      (image 1024) := by
  refine ⟨⟨_, image_inOrder (by decide) 0⟩, ⟨_, image_inOrder le_rfl 0⟩, ?_, ?_, ?_⟩
  · intro h
    obtain ⟨t, hrun, hnone⟩ := exists_run (growproc smallKernel 0 (-4096)) (List.replicate 8 false)
      (image 1) (-1) (fun t => (t.entry 0x200 0).isNone) (by decide +kernel)
    rcases h.run hrun with ⟨hr, -⟩ | ⟨-, hsame⟩
    · exact absurd hr (by decide)
    · have hentry := hsame.mapped 0 (by decide)
      rw [show ((image 1).proc 0).pgdir = 0x200 from rfl, isNone_iff_eq_none.mp hnone,
        image_entry (by decide)] at hentry
      cases hentry
  · intro h
    obtain ⟨t, hrun, -⟩ := exists_run (growproc smallKernel 0 (-4097)) (List.replicate 8 false)
      (image 1) 0 (fun t => (t.proc 0).sz == 4096) (by decide +kernel)
    rcases h.run hrun with ⟨-, hnew⟩ | ⟨hr, -⟩
    · exact absurd hnew.range.1 (by decide)
    · exact absurd hr (by decide)
  · intro h
    obtain ⟨t, hrun, hnone⟩ := exists_run (growproc smallKernel 0 4096)
      [false, false, false, false, true, false] (image 1024) 0
      (fun t => (t.entry 0x200 1024).isNone) (by decide +kernel)
    rcases h.run hrun with ⟨-, hnew⟩ | ⟨hr, -⟩
    · exact (hnew.mapped 1024 (by decide)).mpr (by decide) (isNone_iff_eq_none.mp hnone)
    · exact absurd hr (by decide)

end Xv6Threads.Kmem
