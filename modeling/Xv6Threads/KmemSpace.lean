import Xv6Threads.Kmem

namespace Xv6Threads.Kmem

open Atomic Function List Option Store
open Vm (PGSIZE NPDENTRIES NPTENTRIES KERNBASE PHYSTOP UPAGES Link Pte w32 pdx ptx
  pgroundup pgrounddown pages)

section
variable {L : Link} {s t : Store} {d : ℕ} {X : Set ℕ} {p : ℕ}

section
variable (h : Sep L s d X)
include h

theorem Sep.dir_mem : d ∈ X := (h.all d).mp ⟨.dir, rfl⟩

theorem Sep.free_mem (hp : p ∈ s.freelist) : p ∈ X := (h.all p).mp ⟨.free, hp⟩

theorem Sep.dir_not_free : d ∉ s.freelist :=
  fun hd => Place.noConfusion (h.one d .free .dir hd rfl)

theorem Sep.same (hfree : t.freelist.Nodup)
    (ht : ∀ q x, Holds t d q x ↔ Holds s d q x) : Sep L t d X where
  nodup := hfree
  one q x y hx hy := h.one q x y ((ht q x).mp hx) ((ht q y).mp hy)
  all q := by simp only [ht, h.all]
  usable := h.usable

theorem Sep.take (hfree : t.freelist.Nodup)
    (ht : ∀ q x, Holds t d q x ↔ Holds s d q x ∧ q ≠ p) : Sep L t d (X \ {p}) where
  nodup := hfree
  one q x y hx hy := h.one q x y ((ht q x).mp hx).1 ((ht q y).mp hy).1
  all q := by
    simp only [ht, exists_and_right, h.all]
    rfl
  usable q hq := h.usable q hq.1

theorem Sep.put (hfree : t.freelist.Nodup) (hp : p ∉ X) (husable : L.Usable p) (x₀ : Place)
    (ht : ∀ q x, Holds t d q x ↔ Holds s d q x ∨ q = p ∧ x = x₀) : Sep L t d (insert p X) where
  nodup := hfree
  one q x y hx hy := by
    rcases (ht q x).mp hx with hx | ⟨rfl, rfl⟩
    · rcases (ht q y).mp hy with hy | ⟨rfl, rfl⟩
      · exact h.one q x y hx hy
      · exact absurd ((h.all q).mp ⟨x, hx⟩) hp
    · rcases (ht q y).mp hy with hy | ⟨-, rfl⟩
      · exact absurd ((h.all q).mp ⟨y, hy⟩) hp
      · rfl
  all q := by
    constructor
    · rintro ⟨x, hx⟩
      rcases (ht q x).mp hx with hx | ⟨rfl, rfl⟩
      · exact Set.mem_insert_of_mem p ((h.all q).mp ⟨x, hx⟩)
      · exact Set.mem_insert q X
    · intro hq
      rcases Set.mem_insert_iff.mp hq with rfl | hq
      · exact ⟨x₀, (ht q x₀).mpr (.inr ⟨rfl, rfl⟩)⟩
      · obtain ⟨x, hx⟩ := (h.all q).mpr hq
        exact ⟨x, (ht q x).mpr (.inl hx)⟩
  usable q hq := by
    rcases Set.mem_insert_iff.mp hq with rfl | hq
    · exact husable
    · exact h.usable q hq

theorem Sep.kalloc {l : List ℕ} (hl : s.freelist = p :: l) :
    Sep L { s with freelist := l } d (X \ {p}) := by
  have hnodup := h.nodup
  rw [hl, nodup_cons] at hnodup
  have hfree : Holds s d p .free := by
    rw [Holds, hl]
    exact mem_cons_self
  refine h.take hnodup.2 fun q x => ?_
  cases x with
  | free =>
    simp only [Holds, hl, mem_cons]
    constructor
    · intro hq
      exact ⟨.inr hq, fun he => hnodup.1 (he ▸ hq)⟩
    · rintro ⟨rfl | hq, hne⟩
      · exact absurd rfl hne
      · exact hq
  | dir =>
    refine ⟨fun hq => ⟨hq, ?_⟩, And.left⟩
    rintro rfl
    exact Place.noConfusion (h.one q .free .dir hfree hq)
  | tab i =>
    refine ⟨fun hq => ⟨hq, ?_⟩, And.left⟩
    rintro rfl
    exact Place.noConfusion (h.one q .free (.tab i) hfree hq)
  | user n =>
    refine ⟨fun hq => ⟨hq, ?_⟩, And.left⟩
    rintro rfl
    exact Place.noConfusion (h.one q .free (.user n) hfree hq)

theorem Sep.memset (hp : p ∉ X) : Sep L ((s.setByte p fun _ => 0).setDir p fun _ => none) d X := by
  have hd : d ≠ p := fun he => hp (he ▸ h.dir_mem)
  refine h.same h.nodup fun q x => ?_
  cases x <;> simp only [Holds, setByte, setDir, entry, update_of_ne hd]

end

theorem entry_setTab {i : ℕ} (hnone : s.pgdir d i = none) (n : ℕ) :
    (s.setTab d i ⟨p, fun _ => none⟩).entry d n = s.entry d n := by
  simp only [setTab, setDir, entry, update_self]
  by_cases hn : n / NPTENTRIES = i
  · rw [hn, update_self, hnone]
    rfl
  · rw [update_of_ne hn]

theorem Sep.setPde (h : Sep L s d X) (hp : p ∉ X) (husable : L.Usable p) {i : ℕ}
    (hi : i < NPDENTRIES)
    (hnone : s.pgdir d i = none) : Sep L (s.setTab d i ⟨p, fun _ => none⟩) d (insert p X) := by
  refine h.put h.nodup hp husable (.tab i) fun q x => ?_
  cases x with
  | free => simp only [Holds, setTab, setDir, reduceCtorEq, and_false, or_false]
  | dir => simp only [Holds, reduceCtorEq, and_false, or_false]
  | tab j =>
    simp only [Holds, setTab, setDir, update_self, Place.tab.injEq]
    by_cases hj : j = i
    · subst hj
      simp only [update_self, hnone, some.injEq, exists_eq_left', reduceCtorEq,
        false_and, exists_false, and_false, false_or, and_true, hi, true_and]
      exact eq_comm
    · simp only [update_of_ne hj, hj, and_false, or_false]
  | user n => simp only [Holds, entry_setTab hnone, reduceCtorEq, and_false, or_false]

/-- The tables stay where they are when an entry of one is changed. -/
theorem holds_tab_setPte {va : ℕ} (x : Option Pte) (q i : ℕ) :
    Holds (s.setPte d va x) d q (.tab i) ↔ Holds s d q (.tab i) := by
  unfold setPte
  split
  · rfl
  · rename_i tab htab
    simp only [Holds, setTab, setDir, update_self]
    by_cases hi : i = pdx va
    · subst hi
      simp only [update_self, htab, some.injEq, exists_eq_left']
    · simp only [update_of_ne hi]

theorem freelist_setPte {va : ℕ} (x : Option Pte) : (s.setPte d va x).freelist = s.freelist := by
  unfold setPte
  split <;> rfl

theorem Sep.setPte_some (h : Sep L s d X) (hp : p ∉ X) (husable : L.Usable p) {n : ℕ} {w u : Bool}
    {tab : Pgtab} (hn : n < UPAGES) (htab : s.pgdir d (pdx (n * PGSIZE)) = some tab)
    (hnone : s.entry d n = none) :
    Sep L (s.setPte d (n * PGSIZE) (some ⟨p, w, u⟩)) d (insert p X) := by
  have hentry := entry_setPte (Vm.addr_lt hn) htab (some ⟨p, w, u⟩)
  rw [Vm.addr_div] at hentry
  refine h.put (by rw [freelist_setPte]; exact h.nodup) hp husable (.user n) fun q x => ?_
  cases x with
  | free => simp only [Holds, freelist_setPte, reduceCtorEq, and_false, or_false]
  | dir => simp only [Holds, reduceCtorEq, and_false, or_false]
  | tab j => simp only [holds_tab_setPte, reduceCtorEq, and_false, or_false]
  | user m =>
    simp only [Holds, hentry, Place.user.injEq]
    by_cases hm : m = n
    · subst hm
      simp only [if_pos, some.injEq, exists_eq_left', hnone, reduceCtorEq, false_and,
        exists_false, and_false, false_or, and_true, hn, true_and]
      exact eq_comm
    · simp only [hm, if_false, and_false, or_false]

/-- The state after a user page has been freed and its entry cleared. -/
def freed (s : Store) (d n p : ℕ) : Store :=
  setPte { s.setByte p fun _ => 1 with freelist := p :: s.freelist } d (n * PGSIZE) none

theorem Sep.freed (h : Sep L s d X) {n : ℕ} {e : Pte} (hn : n < UPAGES)
    (he : s.entry d n = some e) :
    Sep L (freed s d n e.page) d X := by
  have huser : Holds s d e.page (.user n) := ⟨hn, e, he, rfl⟩
  obtain ⟨tab, htab, -⟩ := bind_eq_some_iff.mp he
  have htab' : s.pgdir d (pdx (n * PGSIZE)) = some tab := by
    rw [Vm.pdx_eq (Vm.addr_lt hn), Vm.addr_div]
    exact htab
  have hentry := entry_setPte (s := { s.setByte e.page fun _ => 1 with
    freelist := e.page :: s.freelist }) (Vm.addr_lt hn) htab' none
  rw [Vm.addr_div] at hentry
  have hmem : e.page ∈ X := (h.all _).mp ⟨_, huser⟩
  have hnotfree : e.page ∉ s.freelist := fun hf =>
    Place.noConfusion (h.one _ .free _ hf huser)
  -- the page is in the free list now, and every other page is where it was
  have hholds : ∀ q x, Holds (Kmem.freed s d n e.page) d q x ↔
      if q = e.page then x = .free else Holds s d q x := by
    intro q x
    have hmove : ∀ y, Holds s d q y → y ≠ .user n → q ≠ e.page := by
      rintro y hy hne rfl
      exact hne (h.one _ _ _ hy huser)
    cases x with
    | free =>
      simp only [Holds, Kmem.freed, freelist_setPte, mem_cons]
      split_ifs with hq
      · simp only [hq, true_or]
      · simp only [hq, false_or]
    | dir =>
      simp only [Holds]
      split_ifs with hq
      · simp only [iff_false]
        exact fun hd => hmove .dir hd Place.noConfusion hq
      · rfl
    | tab i =>
      rw [Kmem.freed, holds_tab_setPte]
      change Holds s d q (.tab i) ↔ _
      split_ifs with hq
      · simp only [iff_false]
        exact fun hd => hmove (.tab i) hd Place.noConfusion hq
      · rfl
    | user m =>
      have hm : Holds (Kmem.freed s d n e.page) d q (.user m) ↔ m ≠ n ∧ Holds s d q (.user m) := by
        simp only [Holds, Kmem.freed, hentry]
        by_cases hmn : m = n
        · simp only [hmn, if_true, reduceCtorEq, false_and, exists_false, and_false, ne_eq,
            not_true_eq_false]
        · simp only [hmn, if_false, ne_eq, not_false_eq_true, true_and]
          rfl
      rw [hm]
      split_ifs with hq
      · simp only [iff_false, not_and]
        intro hne hd
        exact hmove (.user m) hd (fun he => hne (Place.user.inj he)) hq
      · refine ⟨And.right, fun hd => ⟨?_, hd⟩⟩
        rintro rfl
        obtain ⟨-, e', he', rfl⟩ := hd
        rw [he] at he'
        exact hq (by rw [some.inj he'])
  constructor
  · rw [Kmem.freed, freelist_setPte]
    exact nodup_cons.mpr ⟨hnotfree, h.nodup⟩
  · intro q x y hx hy
    rw [hholds] at hx hy
    split_ifs at hx hy with hq
    · rw [hx, hy]
    · exact h.one q x y hx hy
  · intro q
    simp only [hholds]
    split_ifs with hq
    · simp only [exists_eq, hq, hmem]
    · exact h.all q
  · exact h.usable

end

/-- Whenever a page is wanted for a table, `kalloc` has one. -/
def TablesFound : (o : Op) → Res o → Prop
  | .kalloc .tab, b => b ≠ none
  | _, _ => True

/-- Only pages that were free have been written, and `d` apart no directory has changed. -/
structure Took (s t : Store) (d : ℕ) : Prop where
  free : t.freelist ⊆ s.freelist
  byte : ∀ p ∉ s.freelist, t.byte p = s.byte p
  dirs : ∀ p ∉ s.freelist, p ≠ d → t.pgdir p = s.pgdir p
  proc : t.proc = s.proc

/-- Only pages that are free now have been written, and `d` apart no directory has changed. -/
structure Gave (s t : Store) (d : ℕ) : Prop where
  free : s.freelist ⊆ t.freelist
  byte : ∀ p ∉ t.freelist, t.byte p = s.byte p
  dirs : ∀ p, p ≠ d → t.pgdir p = s.pgdir p
  proc : t.proc = s.proc

section
variable {L : Link} {s t u : Store} {d : ℕ} {X : Set ℕ} {p : ℕ} {α : Type} {Q : α → Store → Prop}

theorem Took.refl (s : Store) (d : ℕ) : Took s s d :=
  ⟨fun _ h => h, fun _ _ => rfl, fun _ _ _ => rfl, rfl⟩

theorem Took.trans (h : Took s t d) (h' : Took t u d) : Took s u d where
  free := fun _ hp => h.free (h'.free hp)
  byte p hp := (h'.byte p fun hf => hp (h.free hf)).trans (h.byte p hp)
  dirs p hp hd := (h'.dirs p (fun hf => hp (h.free hf)) hd).trans (h.dirs p hp hd)
  proc := h'.proc.trans h.proc

theorem Gave.refl (s : Store) (d : ℕ) : Gave s s d :=
  ⟨fun _ h => h, fun _ _ => rfl, fun _ _ => rfl, rfl⟩

theorem Gave.trans (h : Gave s t d) (h' : Gave t u d) : Gave s u d where
  free := fun _ hp => h'.free (h.free hp)
  byte p hp := (h'.byte p hp).trans (h.byte p fun hf => hp (h'.free hf))
  dirs p hd := (h'.dirs p hd).trans (h.dirs p hd)
  proc := h'.proc.trans h.proc

theorem alone_pure {a : α} (h : Q a s) : Alone TablesFound Q (pure a : C α) s := h

theorem alone_op {o : Op} {b : Res o} {k : Res o → C α} (hx : ∀ x, exec o x s = some (b, t))
    (hk : Alone TablesFound Q (k b) t) : Alone TablesFound Q (op o >>= k) s :=
  fun x => ⟨b, t, hx x, fun _ => hk⟩

theorem alone_kalloc {use : Use} {k : Option ℕ → C α}
    (hnone : use ≠ .tab → Alone TablesFound Q (k none) s)
    (hsome : ∀ p l, s.freelist = p :: l → Alone TablesFound Q (k (some p))
      { s with freelist := l }) :
    Alone TablesFound Q (op (.kalloc use) >>= k) s := by
  have hfail : TablesFound (.kalloc use) none → Alone TablesFound Q (k none) s := by
    intro hfound
    refine hnone ?_
    rintro rfl
    exact hfound rfl
  intro x
  cases hl : s.freelist with
  | nil => exact ⟨none, s, by simp only [ops, exec, hl], hfail⟩
  | cons p l =>
    cases x with
    | true => exact ⟨none, s, by simp only [ops, exec, hl, if_true], hfail⟩
    | false =>
      refine ⟨some p, { s with freelist := l }, ?_, fun _ => hsome p l hl⟩
      simp only [ops, exec, hl, Bool.false_eq_true, if_false]

section
variable {va : ℕ} {x : Option Pte}

theorem setPte_dirs {q : ℕ} (hq : q ≠ d) : (s.setPte d va x).pgdir q = s.pgdir q := by
  unfold setPte
  split
  · rfl
  · exact update_of_ne hq ..

theorem setPte_byte : (s.setPte d va x).byte = s.byte := by
  unfold setPte
  split <;> rfl

theorem setPte_proc : (s.setPte d va x).proc = s.proc := by
  unfold setPte
  split <;> rfl

theorem Took.setPte : Took s (s.setPte d va x) d where
  free := by rw [freelist_setPte]; exact fun _ h => h
  byte p _ := by rw [setPte_byte]
  dirs p _ hp := setPte_dirs hp
  proc := setPte_proc

end

theorem Took.kalloc {l : List ℕ} (hl : s.freelist = p :: l) :
    Took s ((setByte { s with freelist := l } p fun _ => 0).setDir p fun _ => none) d := by
  have hp : ∀ q ∉ s.freelist, q ≠ p := by
    rintro q hq rfl
    rw [hl] at hq
    exact hq mem_cons_self
  constructor
  · rw [hl]
    exact subset_cons_self p l
  · exact fun q hq => update_of_ne (hp q hq) ..
  · exact fun q hq _ => update_of_ne (hp q hq) ..
  · rfl

/-- The state in which the first free page has been taken and filled with zeros. -/
structure Fresh (L : Link) (s u : Store) (d p : ℕ) (X : Set ℕ) : Prop where
  mem : p ∈ s.freelist
  fresh : p ∉ X \ {p}
  back : insert p (X \ {p}) = X
  usable : L.Usable p
  sep : Sep L u d (X \ {p})
  took : Took s u d
  dir : u.pgdir d = s.pgdir d
  byte : u.byte p = fun _ => 0

theorem Sep.fresh (h : Sep L s d X) {l : List ℕ} (hl : s.freelist = p :: l) :
    Fresh L s ((setByte { s with freelist := l } p fun _ => 0).setDir p fun _ => none) d p X := by
  have hfree : p ∈ s.freelist := by
    rw [hl]
    exact mem_cons_self
  have hp : p ∈ X := h.free_mem hfree
  have hfresh : p ∉ X \ {p} := fun hm => hm.2 rfl
  have hd : d ≠ p := fun he => h.dir_not_free (he ▸ hfree)
  exact ⟨hfree, hfresh, by rw [Set.insert_sdiff_singleton, Set.insert_eq_of_mem hp], h.usable p hp,
    (h.kalloc hl).memset hfresh, Took.kalloc hl, update_of_ne hd .., update_self ..⟩

/-- What a function that takes pages for tables leaves as it was. -/
structure Walked (L : Link) (s t : Store) (d : ℕ) (X : Set ℕ) : Prop where
  sep : Sep L t d X
  took : Took s t d
  entry : ∀ n, t.entry d n = s.entry d n

theorem walkpgdir_spec (h : Sep L s d X) (va : ℕ) :
    Alone TablesFound (fun b t => b = true ∧ Walked L s t d X ∧
      ∃ tab, t.pgdir d (pdx va) = some tab) (walkpgdir d va true) s := by
  unfold walkpgdir
  refine alone_op (fun _ => rfl) ?_
  cases htab : s.pgdir d (pdx va) with
  | some tab => exact alone_pure ⟨rfl, ⟨h, .refl s d, fun _ => rfl⟩, tab, htab⟩
  | none =>
    refine alone_kalloc (fun hne => absurd rfl hne) fun p l hl => ?_
    refine alone_op (fun _ => rfl) ?_
    have hu := h.fresh hl
    generalize (setByte { s with freelist := l } p fun _ => 0).setDir p (fun _ => none) = u at hu
    rw [← hu.dir] at htab
    refine alone_op (fun _ => rfl) ?_
    have hi : pdx va < NPDENTRIES := Nat.mod_lt _ (by decide)
    refine alone_pure ⟨rfl, ⟨?_, ?_, fun n => ?_⟩, ?_⟩
    · have hput := hu.sep.setPde hu.fresh hu.usable hi htab
      rwa [hu.back] at hput
    · refine hu.took.trans ⟨fun _ hq => hq, fun _ _ => rfl, fun q _ hq => ?_, rfl⟩
      exact update_of_ne hq ..
    · rw [entry_setTab htab, entry, entry, hu.dir]
    · exact ⟨⟨p, fun _ => none⟩, by simp only [setTab, setDir, update_self]⟩

theorem mapPage_spec (h : Sep L s d X) (hp : p ∉ X) (husable : L.Usable p) {n : ℕ} (hn : n < UPAGES)
    (hnone : s.entry d n = none) (w u : Bool) :
    Alone TablesFound (fun b t => b = true ∧ Sep L t d (insert p X) ∧ Took s t d ∧
        ∀ m, t.entry d m = if m = n then some ⟨p, w, u⟩ else s.entry d m)
      (mapPage d (n * PGSIZE) p w u) s := by
  unfold mapPage
  refine (walkpgdir_spec h (n * PGSIZE)).bind ?_
  rintro b t ⟨rfl, hw, tab, htab⟩
  rw [if_pos rfl]
  refine alone_op (fun _ => rfl) ?_
  have hnone' : t.entry d n = none := (hw.entry n).trans hnone
  rw [pteAt_eq t d (Vm.addr_lt hn), Vm.addr_div, hnone']
  refine alone_op (fun _ => rfl) ?_
  have hentry := entry_setPte (Vm.addr_lt hn) htab (some ⟨p, w, u⟩)
  rw [Vm.addr_div] at hentry
  refine alone_pure ⟨rfl, hw.sep.setPte_some hp husable hn htab hnone', hw.took.trans .setPte, ?_⟩
  intro m
  rw [hentry, hw.entry]

theorem mappages_eq {va n : ℕ} (page : ℕ) (w u : Bool) (hal : va % PGSIZE = 0)
    (hva : va + n * PGSIZE < 2 ^ 32) :
    mappages d va ((n + 1) * PGSIZE) page w u = mapLoop d w u n va page := by
  obtain ⟨ha, hn⟩ := Vm.mappages_range hal hva
  simp only [mappages, ha, hn]

theorem allocTurn_spec (h : Sep L s d X) {n : ℕ} (hn : n < UPAGES) (hnone : s.entry d n = none) :
    Alone TablesFound (fun b t => b = false ∧ t = s ∨ b = true ∧ Sep L t d X ∧ Took s t d ∧
        ∃ p ∈ s.freelist, t.byte p = (fun _ => 0) ∧
          ∀ m, t.entry d m = if m = n then some ⟨p, true, true⟩ else s.entry d m)
      (allocTurn d (n * PGSIZE)) s := by
  unfold allocTurn
  refine alone_kalloc (fun _ => alone_pure (.inl ⟨rfl, rfl⟩)) fun p l hl => ?_
  refine alone_op (fun _ => rfl) ?_
  have hu := h.fresh hl
  generalize (setByte { s with freelist := l } p fun _ => 0).setDir p (fun _ => none) = u at hu
  have hentry : ∀ m, u.entry d m = s.entry d m := by
    intro m
    rw [entry, entry, hu.dir]
  have hone : mappages d (n * PGSIZE) ((0 + 1) * PGSIZE) p true true =
      mapPage d (n * PGSIZE) p true true :=
    mappages_eq _ _ _ (Nat.mul_mod_left n PGSIZE) (by simpa using Vm.addr_lt hn)
  rw [Nat.zero_add, Nat.one_mul] at hone
  rw [hone]
  refine (mapPage_spec hu.sep hu.fresh hu.usable hn ((hentry n).trans hnone) true true).bind ?_
  rintro b t ⟨rfl, hsep', htook', hentry'⟩
  rw [hu.back] at hsep'
  refine alone_pure (.inr ⟨rfl, hsep', hu.took.trans htook', p, hu.mem, ?_, fun m => ?_⟩)
  · rw [htook'.byte p fun hm => hu.fresh (hu.sep.free_mem hm), hu.byte]
  · rw [hentry', hentry]

theorem kfree_eq (h : L.Usable p) : kfree L p = op (.kfree p) := by
  unfold kfree
  rw [if_neg]
  have hlo := h.1
  have hhi := h.2
  omega

theorem Gave.freed {n : ℕ} : Gave s (freed s d n p) d where
  free q hq := by
    rw [Kmem.freed, freelist_setPte]
    exact mem_cons_of_mem p hq
  byte q hq := by
    rw [Kmem.freed, freelist_setPte] at hq
    rw [Kmem.freed, setPte_byte]
    exact update_of_ne (ne_of_not_mem_cons hq) ..
  dirs q hq := setPte_dirs hq
  proc := setPte_proc

theorem entry_freed {n : ℕ} {e : Pte} (hn : n < UPAGES) (he : s.entry d n = some e) (m : ℕ) :
    (freed s d n p).entry d m = if m = n then none else s.entry d m := by
  obtain ⟨tab, htab, -⟩ := bind_eq_some_iff.mp he
  have htab' : s.pgdir d (pdx (n * PGSIZE)) = some tab := by
    rw [Vm.pdx_eq (Vm.addr_lt hn), Vm.addr_div]
    exact htab
  have hentry := entry_setPte (s := { s.setByte p fun _ => 1 with freelist := p :: s.freelist })
    (Vm.addr_lt hn) htab' none m
  rw [Vm.addr_div] at hentry
  exact hentry

/-- The entry of page `n` is 0 afterwards. When there is no table for it, the next 1023 pages are
passed over. -/
theorem deallocTurn_spec (h : Sep L s d X) {n : ℕ} (hn : n < UPAGES) :
    Alone TablesFound (fun a t => Sep L t d X ∧ Gave s t d ∧
        (∀ m, t.entry d m = if m = n then none else s.entry d m) ∧
        (a = n * PGSIZE ∨ a = (n + (NPTENTRIES - 1)) * PGSIZE ∧ s.entry d n = none))
      (deallocTurn L d (n * PGSIZE)) s := by
  have hpdx : pdx (n * PGSIZE) = n / NPTENTRIES := by rw [Vm.pdx_eq (Vm.addr_lt hn), Vm.addr_div]
  have hsame : s.entry d n = none → ∀ m, s.entry d m = if m = n then none else s.entry d m := by
    intro hnone m
    split_ifs with hm
    · rw [hm, hnone]
    · rfl
  unfold deallocTurn walkpgdir
  refine Alone.bind (Q := fun b t => s = t ∧ b = (s.pgdir d (pdx (n * PGSIZE))).isSome) ?_ ?_
  · refine alone_op (fun _ => rfl) ?_
    cases s.pgdir d (pdx (n * PGSIZE)) <;> exact alone_pure ⟨rfl, rfl⟩
  rintro b _ ⟨rfl, rfl⟩
  cases htab : s.pgdir d (pdx (n * PGSIZE)) with
  | none =>
    have hnone : s.entry d n = none := by
      rw [entry, ← hpdx, htab]
      rfl
    refine alone_pure ⟨h, .refl s d, hsame hnone, .inr ⟨?_, hnone⟩⟩
    simp only [w32, UPAGES, KERNBASE, PGSIZE, NPTENTRIES] at hn ⊢
    omega
  | some tab =>
    rw [isSome_some, if_pos rfl]
    refine alone_op (fun _ => rfl) ?_
    rw [pteAt_eq s d (Vm.addr_lt hn), Vm.addr_div]
    cases he : s.entry d n with
    | none => exact alone_pure ⟨h, .refl s d, hsame he, .inl rfl⟩
    | some e =>
      have husable := h.usable e.page ((h.all _).mp ⟨.user n, hn, e, he, rfl⟩)
      simp only [if_neg husable.ne_zero]
      rw [kfree_eq husable]
      refine alone_op (fun _ => rfl) (alone_op (fun _ => rfl) ?_)
      exact alone_pure ⟨h.freed hn he, .freed, entry_freed hn he, .inl rfl⟩

/-- The first `k` pages are mapped as before and hold what they held. -/
def Keeps (s t : Store) (d k : ℕ) : Prop :=
  ∀ m < k, t.entry d m = s.entry d m ∧ ∀ e, s.entry d m = some e → t.byte e.page = s.byte e.page

theorem Keeps.refl (s : Store) (d k : ℕ) : Keeps s s d k := fun _ _ => ⟨rfl, fun _ _ => rfl⟩

theorem Keeps.mono {j k : ℕ} (h : Keeps s t d k) (hjk : j ≤ k) : Keeps s t d j :=
  fun m hm => h m (hm.trans_le hjk)

theorem Keeps.trans {k : ℕ} (h : Keeps s t d k) (h' : Keeps t u d k) : Keeps s u d k := by
  intro m hm
  refine ⟨(h' m hm).1.trans (h m hm).1, fun e he => ?_⟩
  rw [(h' m hm).2 e ((h m hm).1.trans he), (h m hm).2 e he]

theorem Took.keeps {k : ℕ} (h : Took s t d) (hsep : Sep L s d X) (hk : k ≤ UPAGES)
    (hentry : ∀ m < k, t.entry d m = s.entry d m) : Keeps s t d k := by
  intro m hm
  refine ⟨hentry m hm, fun e he => h.byte _ fun hfree => ?_⟩
  exact Place.noConfusion (hsep.one e.page .free (.user m) hfree ⟨hm.trans_le hk, e, he, rfl⟩)

theorem Gave.keeps {k : ℕ} (h : Gave s t d) (hsep : Sep L t d X) (hk : k ≤ UPAGES)
    (hentry : ∀ m < k, t.entry d m = s.entry d m) : Keeps s t d k := by
  intro m hm
  refine ⟨hentry m hm, fun e he => h.byte _ fun hfree => ?_⟩
  have hm' : t.entry d m = some e := (hentry m hm).trans he
  exact Place.noConfusion (hsep.one e.page .free (.user m) hfree ⟨hm.trans_le hk, e, hm', rfl⟩)

theorem next_addr {n : ℕ} (hn : n < UPAGES + NPTENTRIES) :
    w32 (n * PGSIZE + PGSIZE) = (n + 1) * PGSIZE := by
  simp only [w32, UPAGES, KERNBASE, PGSIZE, NPTENTRIES] at hn ⊢
  omega

/-- From `n` on the pages up to `k` are mapped, and none of them afterwards. -/
theorem deallocLoop_spec {oldsz fuel n k : ℕ} (hold : oldsz ≤ KERNBASE) (h : Sep L s d X)
    (hmap : ∀ m < UPAGES, n ≤ m → (s.entry d m ≠ none ↔ m < k)) (hk : k ≤ pages oldsz)
    (hfuel : pages oldsz ≤ n + fuel) : Alone TablesFound (fun _ t => Sep L t d X ∧ Gave s t d ∧
        ∀ m < UPAGES, t.entry d m = if n ≤ m then none else s.entry d m)
      (deallocLoop L d oldsz fuel (n * PGSIZE)) s := by
  have hpages := Vm.pages_le hold
  have hdone : k ≤ n → ∀ m < UPAGES, s.entry d m = if n ≤ m then none else s.entry d m := by
    intro hkn m hm
    split_ifs with hnm
    · exact not_not.mp (mt (hmap m hm hnm).mp (by omega))
    · rfl
  induction fuel generalizing n s with
  | zero => exact alone_pure ⟨h, .refl s d, hdone (by omega)⟩
  | succ fuel ih =>
    unfold deallocLoop
    by_cases ha : n * PGSIZE < oldsz
    · rw [if_pos ha]
      have hlt : n < pages oldsz := Vm.lt_pages.mpr ha
      have hn : n < UPAGES := hlt.trans_le hpages
      refine (deallocTurn_spec h hn).bind ?_
      rintro a t ⟨hsep, hgave, hentry, hnext⟩
      -- when a table is missing, there are no more pages to pass over
      obtain ⟨j, hj, hnj, hjk⟩ : ∃ j, w32 (a + PGSIZE) = j * PGSIZE ∧ n + 1 ≤ j ∧
          (j = n + 1 ∨ k ≤ n) := by
        rcases hnext with rfl | ⟨rfl, hnone⟩
        · exact ⟨n + 1, next_addr (by omega), le_rfl, .inl rfl⟩
        · refine ⟨n + (NPTENTRIES - 1) + 1, next_addr ?_, by omega, .inr ?_⟩
          · simp only [NPTENTRIES]
            omega
          · exact Nat.le_of_not_lt fun hnk => (hmap n hn le_rfl).mpr hnk hnone
      rw [hj]
      have hother : ∀ m, n < m → t.entry d m = s.entry d m := by
        intro m hm
        rw [hentry, if_neg (by omega)]
      have hmap' : ∀ m < UPAGES, j ≤ m → (t.entry d m ≠ none ↔ m < k) := by
        intro m hm hjm
        rw [hother m (by omega)]
        exact hmap m hm (by omega)
      refine (ih hsep hmap' (by omega) ?_).mono ?_
      · intro hkj m hm
        split_ifs with hjm
        · exact not_not.mp (mt (hmap' m hm hjm).mp (by omega))
        · rfl
      rintro _ u ⟨hsep', hgave', hentry'⟩
      refine ⟨hsep', hgave.trans hgave', fun m hm => ?_⟩
      rw [hentry' m hm, hentry]
      by_cases hnm : n ≤ m
      · rw [if_pos hnm]
        split_ifs with hjm hmn
        · rfl
        · rfl
        · exact not_not.mp (mt (hmap m hm hnm).mp (by omega))
      · rw [if_neg hnm, if_neg (by omega), if_neg (by omega)]
    · rw [if_neg ha]
      have := mt Vm.lt_pages.mp ha
      exact alone_pure ⟨h, .refl s d, hdone (by omega)⟩

theorem deallocuvm_spec {oldsz newsz k : ℕ} (hold : oldsz ≤ KERNBASE) (hlt : newsz < oldsz)
    (h : Sep L s d X) (hmap : ∀ m < UPAGES, (s.entry d m ≠ none ↔ m < k)) (hk : k ≤ pages oldsz) :
    Alone TablesFound (fun r t => r = newsz ∧ Sep L t d X ∧ t.proc = s.proc ∧
        Keeps s t d (pages newsz) ∧ ∀ m < UPAGES, pages newsz ≤ m → t.entry d m = none)
      (deallocuvm L d oldsz newsz) s := by
  have hpages : pages newsz ≤ UPAGES := Vm.pages_le (by omega)
  unfold deallocuvm
  rw [if_neg (by omega), Vm.pgroundup_eq (by omega)]
  have hfuel : pages oldsz ≤ pages newsz + (oldsz / PGSIZE + 1) := by
    simp only [pages, PGSIZE]
    omega
  refine (deallocLoop_spec hold h (fun m hm _ => hmap m hm) hk hfuel).bind ?_
  rintro _ t ⟨hsep, hgave, hentry⟩
  refine alone_pure ⟨rfl, hsep, hgave.proc, hgave.keeps hsep hpages fun m hm => ?_, fun m hm hnm =>
    ?_⟩
  · rw [hentry m (by omega), if_neg (by omega)]
  · rw [hentry m hm, if_pos hnm]

/-- Zeros from page `n` up to page `k`, and nothing after it. -/
def Added (t : Store) (d n k : ℕ) : Prop :=
  ∀ m < UPAGES, n ≤ m → if m < k then ∃ e, t.entry d m = some e ∧ t.byte e.page = fun _ => 0
    else t.entry d m = none

theorem allocLoop_spec {oldsz newsz fuel n : ℕ} (hle : oldsz ≤ newsz) (hnew : newsz < KERNBASE)
    (h : Sep L s d X) (hmap : ∀ m < UPAGES, (s.entry d m ≠ none ↔ m < n)) (hold : pages oldsz ≤ n)
    (hn : n ≤ pages newsz) (hfuel : pages newsz ≤ n + fuel) :
    Alone TablesFound (fun r t => Sep L t d X ∧ t.proc = s.proc ∧
        (r = newsz ∧ Keeps s t d n ∧ Added t d n (pages newsz) ∨
          r = 0 ∧ Keeps s t d (pages oldsz) ∧ ∀ m < UPAGES, pages oldsz ≤ m → t.entry d m = none))
      (allocLoop L d oldsz newsz fuel (n * PGSIZE)) s := by
  have hpages := Vm.pages_le hnew.le
  have hdone : pages newsz ≤ n → Added s d n (pages newsz) := by
    intro hkn m hm hnm
    rw [if_neg (by omega)]
    exact not_not.mp (mt (hmap m hm).mp (by omega))
  induction fuel generalizing n s with
  | zero => exact alone_pure ⟨h, rfl, .inl ⟨rfl, .refl s d n, hdone (by omega)⟩⟩
  | succ fuel ih =>
    unfold allocLoop
    by_cases ha : n * PGSIZE < newsz
    · rw [if_pos ha]
      have hlt : n < pages newsz := Vm.lt_pages.mpr ha
      have huser : n < UPAGES := hlt.trans_le hpages
      have hnone : s.entry d n = none := not_not.mp (mt (hmap n huser).mp (lt_irrefl n))
      refine (allocTurn_spec h huser hnone).bind ?_
      rintro b t (⟨rfl, rfl⟩ | ⟨rfl, hsep, htook, p, hp, hzero, hentry⟩)
      · -- no page: the ones that were added go back
        have hlt' : oldsz < newsz := by
          have := Vm.lt_pages.mp hlt
          have hoff : ¬n * PGSIZE < oldsz := mt Vm.lt_pages.mpr (by omega)
          omega
        refine (deallocuvm_spec hnew.le hlt' h hmap hn).bind ?_
        rintro _ t ⟨-, hsep, hproc, hkeeps, hnone'⟩
        exact alone_pure ⟨hsep, hproc, .inr ⟨rfl, hkeeps, hnone'⟩⟩
      · rw [if_pos rfl, next_addr (by omega)]
        have hmap' : ∀ m < UPAGES, (t.entry d m ≠ none ↔ m < n + 1) := by
          intro m hm
          rw [hentry]
          split_ifs with hmn
          · simp only [ne_eq, reduceCtorEq, not_false_eq_true, true_iff]
            omega
          · rw [hmap m hm]
            omega
        have hkeep : Keeps s t d n := htook.keeps h huser.le fun m hm => by
          rw [hentry, if_neg (by omega)]
        refine (ih hsep hmap' (by omega) hlt (by omega) ?_).mono ?_
        · intro hkn m hm hnm
          rw [if_neg (by omega)]
          exact not_not.mp (mt (hmap' m hm).mp (by omega))
        rintro r u ⟨hsep', hproc', hr⟩
        refine ⟨hsep', hproc'.trans htook.proc, ?_⟩
        rcases hr with ⟨rfl, hkeep', hadded⟩ | ⟨rfl, hkeep', hnone'⟩
        · refine .inl ⟨rfl, hkeep.trans (hkeep'.mono (by omega)), fun m hm hnm => ?_⟩
          by_cases hmn : m = n
          · subst hmn
            rw [if_pos hlt]
            have hm' : t.entry d m = some ⟨p, true, true⟩ := by rw [hentry, if_pos rfl]
            have hsame := hkeep' m (by omega)
            exact ⟨⟨p, true, true⟩, hsame.1.trans hm', (hsame.2 _ hm').trans hzero⟩
          · exact hadded m hm (by omega)
        · exact .inr ⟨rfl, (hkeep.mono hold).trans hkeep', hnone'⟩
    · rw [if_neg ha]
      have := mt Vm.lt_pages.mp ha
      exact alone_pure ⟨h, rfl, .inl ⟨rfl, .refl s d n, hdone (by omega)⟩⟩

theorem allocuvm_spec {oldsz newsz : ℕ} (hle : oldsz ≤ newsz) (hnew : newsz < KERNBASE)
    (h : Sep L s d X) (hmap : ∀ m < UPAGES, (s.entry d m ≠ none ↔ m < pages oldsz)) :
    Alone TablesFound (fun r t => Sep L t d X ∧ t.proc = s.proc ∧
        (r = newsz ∧ Keeps s t d (pages oldsz) ∧ Added t d (pages oldsz) (pages newsz) ∨
          r = 0 ∧ Keeps s t d (pages oldsz) ∧ ∀ m < UPAGES, pages oldsz ≤ m → t.entry d m = none))
      (allocuvm L d oldsz newsz) s := by
  unfold allocuvm
  rw [if_neg (by omega), if_neg (by omega), Vm.pgroundup_eq (by omega)]
  obtain ⟨hpages, hfuel⟩ := Vm.pages_fuel hle
  exact allocLoop_spec hle hnew h hmap le_rfl hpages hfuel

end

end Xv6Threads.Kmem
