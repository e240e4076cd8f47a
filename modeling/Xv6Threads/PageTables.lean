import Xv6Threads.Kalloc
import Xv6Threads.Kmem
import Xv6Threads.PageMap

namespace Xv6Threads.Kmem

open Atomic Function List
open Vm (PGSIZE KERNBASE PHYSTOP Link Pte)
open PageMap (State Ix Own present page PTE_P PTE_W PTE_U pdx ptx store store_self store_of_ne pde
  pde_eq)

variable {α β : Type} {L : Link} {dir va a : ℕ} {w u : Bool} {s : State} {t : Store}

/-- A call while nobody else takes pages; `none` is a panic. -/
def eval : C α → Store → Option (α × Store)
  | .done a, t => some (a, t)
  | .panic _, _ => none
  | .act o k, t => (exec o false t).bind fun r => eval (k r.1) r.2

theorem eval_bind (c : C α) (f : α → C β) (t : Store) :
    eval (c >>= f) t = (eval c t).bind fun r => eval (f r.1) r.2 := by
  induction c generalizing t with
  | done a => rfl
  | panic msg => rfl
  | act o k ih =>
    show (exec o false t).bind (fun r => eval (k r.1 >>= f) r.2) = _
    simp only [ih, eval, Option.bind_assoc]

/-- One operation. The unifier does not see through `Res`, so `simp` cannot use this. -/
theorem eval_op {o : Op} {f : Res o → C α} {b : Res o} {t' : Store}
    (h : exec o false t = some (b, t')) : eval (op o >>= f) t = eval (f b) t' := by
  show (exec o false t).bind (fun r => eval (f r.1) r.2) = _
  rw [h]
  rfl

/-- The flags of an entry. -/
def perm (w u : Bool) : ℕ := (if w then PTE_W else 0) ||| (if u then PTE_U else 0)

/-- The word of an entry. -/
def word (e : Pte) : ℕ := e.page * PGSIZE ||| perm e.w e.u ||| PTE_P

/-- The directory `dir` of the store is the one that its words and those of its tables make. -/
structure Shows (dir : ℕ) (s : State) (t : Store) : Prop where
  pages : ∀ i : Ix, (t.pgdir dir i).map Pgtab.page =
    if present (s.mem dir i) then some (page (s.mem dir i)) else none
  words : ∀ (i : Ix) tab, t.pgdir dir i = some tab →
    ∀ j : Ix, s.mem tab.page j = (tab.pte j).elim 0 word
  free : t.freelist = s.free

theorem Shows.page_eq {i : Ix} {tab : Pgtab} (hs : Shows dir s t)
    (htab : t.pgdir dir i = some tab) :
    present (s.mem dir i) = true ∧ tab.page = page (s.mem dir i) := by
  have hpde := hs.pages i
  rw [htab] at hpde
  split_ifs at hpde with hp
  · exact ⟨hp, Option.some.inj hpde⟩
  · cases hpde

/-- The store with a new table for `va` in the free page `p`. -/
def addTable (t : Store) (dir va p : ℕ) (l : List ℕ) : Store :=
  ((({ t with freelist := l }).setByte p fun _ => 0).setDir p fun _ => none).setTab dir (Vm.pdx va)
    ⟨p, fun _ => none⟩

theorem Shows.table {p : ℕ} {l : List ℕ} (h : Own s dir) (hs : Shows dir s t)
    (hfree : s.free = p :: l) :
    Shows dir (store ⟨update s.mem p fun _ => 0, l⟩ dir (pdx va) (pde p))
      (addTable t dir va p l) := by
  have hapart := h.apart
  have hnodup := h.nodup
  rw [hfree] at hapart hnodup
  have hdp : dir ≠ p := ne_of_not_mem_cons (nodup_cons.mp hnodup).1
  have hdir : (addTable t dir va p l).pgdir dir =
      update (t.pgdir dir) (Vm.pdx va) (some ⟨p, fun _ => none⟩) := by
    simp [addTable, Store.setTab, Store.setDir, Store.setByte, hdp]
  generalize hs' : store ⟨update s.mem p fun _ => 0, l⟩ dir (pdx va) (pde p) = s'
  have hmem : ∀ q ≠ dir, s'.mem q = update s.mem p (fun _ => 0) q := fun q hq => by
    rw [← hs', store_of_ne _ _ _ hq]
  have hself : s'.mem dir = update (s.mem dir) (pdx va) (pde p) := by
    rw [← hs', store_self, show (⟨update s.mem p fun _ => 0, l⟩ : State).mem dir = s.mem dir from
      update_of_ne hdp ..]
  refine ⟨fun i => ?_, fun i tab htab j => ?_, by rw [← hs']; rfl⟩
  · rw [hdir, hself]
    by_cases hi : i = pdx va
    · have hpage : page (pde p) = p := by
        rw [pde_eq, page, PGSIZE]
        omega
      have hpres : present (pde p) = true := by
        rw [pde_eq, present, PTE_P, decide_eq_true_eq]
        omega
      rw [hi, update_self, hpres, if_pos rfl, hpage, pdx, update_self]
      rfl
    · have hi' : (i : ℕ) ≠ Vm.pdx va := fun heq => hi (Fin.ext heq)
      rw [update_of_ne hi', update_of_ne hi]
      exact hs.pages i
  · rw [hdir] at htab
    by_cases hi : i = pdx va
    · rw [hi, pdx, update_self] at htab
      obtain rfl := Option.some.inj htab
      rw [hmem p hdp.symm, update_self]
      rfl
    · have hi' : (i : ℕ) ≠ Vm.pdx va := fun heq => hi (Fin.ext heq)
      rw [update_of_ne hi'] at htab
      obtain ⟨hp, hpage⟩ := hs.page_eq htab
      have hnot := hapart i hp
      rw [← hpage] at hnot
      rw [hmem _ (ne_of_not_mem_cons hnot),
        update_of_ne (ne_of_not_mem_cons (not_mem_of_not_mem_cons hnot))]
      exact hs.words i tab htab j

theorem eval_walkpgdir_some {tab : Pgtab} (h : t.pgdir dir (Vm.pdx va) = some tab) (alloc : Bool) :
    eval (walkpgdir dir va alloc) t = some (true, t) := by
  refine (eval_op (b := some tab.page) ?_).trans rfl
  show some ((t.pgdir dir (Vm.pdx va)).map Pgtab.page, t) = _
  rw [h]
  rfl

theorem eval_walkpgdir_none (h : t.pgdir dir (Vm.pdx va) = none) (alloc : Bool) :
    eval (walkpgdir dir va alloc) t =
      if alloc then
        match t.freelist with
        | [] => some (false, t)
        | p :: l => some (true, addTable t dir va p l)
      else some (false, t) := by
  have hpde : exec (.getPde dir (Vm.pdx va)) false t = some (none, t) := by
    show some ((t.pgdir dir (Vm.pdx va)).map Pgtab.page, t) = _
    rw [h]
    rfl
  refine (eval_op hpde).trans ?_
  cases alloc with
  | false => rfl
  | true =>
    cases hfree : t.freelist with
    | nil =>
      have hx : exec (.kalloc .tab) false t = some (none, t) := by simp only [exec, hfree]
      exact (eval_op hx).trans rfl
    | cons p l =>
      have hx : exec (.kalloc .tab) false t = some (some p, { t with freelist := l }) := by
        simp [exec, hfree]
      exact (eval_op hx).trans rfl

/-- Both models of `walkpgdir` find and make the same tables. -/
theorem walkpgdir_shows (h : Own s dir) (hs : Shows dir s t) (va : ℕ) (alloc : Bool) :
    ∃ t', eval (walkpgdir dir va alloc) t =
        some ((PageMap.walkpgdir s dir va alloc).1.isSome, t') ∧
      Shows dir (PageMap.walkpgdir s dir va alloc).2 t' := by
  have hpde := hs.pages (pdx va)
  unfold PageMap.walkpgdir
  by_cases hp : present (s.mem dir (pdx va)) = true
  · rw [if_pos hp] at hpde ⊢
    obtain ⟨tab, htab, -⟩ := Option.map_eq_some_iff.mp hpde
    exact ⟨t, eval_walkpgdir_some htab alloc, hs⟩
  · rw [if_neg hp] at hpde ⊢
    rw [eval_walkpgdir_none (Option.map_eq_none_iff.mp hpde)]
    cases alloc with
    | false => exact ⟨t, rfl, hs⟩
    | true =>
      rw [hs.free]
      cases hfree : s.free with
      | nil => exact ⟨t, rfl, hs⟩
      | cons p l => exact ⟨_, rfl, hs.table h hfree⟩

theorem word_ne_zero (e : Pte) : word e ≠ 0 := by
  intro h
  exact absurd (Nat.or_eq_zero_iff.mp h).2 (by decide)

theorem Shows.setPte {tab : Pgtab} (h : Own s dir) (hs : Shows dir s t)
    (htab : t.pgdir dir (Vm.pdx va) = some tab) (e : Pte) :
    Shows dir (store s tab.page (ptx va) (word e)) (t.setPte dir va (some e)) := by
  obtain ⟨hp, hpage⟩ := hs.page_eq (i := pdx va) htab
  have hne : dir ≠ tab.page := by
    rw [hpage]
    exact (ne_of_not_mem_cons (h.apart _ hp)).symm
  have hdir : (t.setPte dir va (some e)).pgdir dir = update (t.pgdir dir) (Vm.pdx va)
      (some { tab with pte := update tab.pte (Vm.ptx va) (some e) }) := by
    simp [Store.setPte, htab, Store.setTab, Store.setDir]
  refine ⟨fun i => ?_, fun i tab' htab' j => ?_, ?_⟩
  · rw [hdir, store_of_ne _ _ _ hne, ← hs.pages i]
    by_cases hi : (i : ℕ) = Vm.pdx va
    · rw [hi, update_self, htab]
      rfl
    · rw [update_of_ne hi]
  · rw [hdir] at htab'
    by_cases hi : (i : ℕ) = Vm.pdx va
    · rw [hi, update_self] at htab'
      obtain rfl := Option.some.inj htab'
      rw [store_self]
      dsimp only
      by_cases hj : j = ptx va
      · rw [hj, update_self, ptx, update_self]
        rfl
      · have hj' : (j : ℕ) ≠ Vm.ptx va := fun heq => hj (Fin.ext heq)
        rw [update_of_ne hj, update_of_ne hj']
        exact hs.words (pdx va) tab htab j
    · rw [update_of_ne hi] at htab'
      obtain ⟨hp', hpage'⟩ := hs.page_eq htab'
      have hother : tab'.page ≠ tab.page := by
        intro heq
        apply hi
        exact congrArg Fin.val (h.one i (pdx va) hp' hp (by rw [← hpage', ← hpage, heq]))
      rw [store_of_ne _ _ _ hother]
      exact hs.words i tab' htab' j
  · simp only [Store.setPte, htab]
    exact hs.free

theorem eval_mapPage {ok : Bool} {t' : Store}
    (hw : eval (walkpgdir dir a true) t = some (ok, t')) (p : ℕ) :
    eval (mapPage dir a p w u) t =
      if ok then
        if (t'.pteAt dir a).isSome then none else some (true, t'.setPte dir a (some ⟨p, w, u⟩))
      else some (false, t') := by
  rw [mapPage, eval_bind, hw]
  cases ok with
  | false => rfl
  | true =>
    have hpte : exec (.getPte dir a) false t' = some (t'.pteAt dir a, t') := rfl
    refine (eval_op hpte).trans ?_
    cases t'.pteAt dir a <;> rfl

/-- One turn of the loop: there is no table, the entry is in use, or it is stored. -/
theorem turn_agree (h : Own s dir) (hs : Shows dir s t) (a p : ℕ) (w u : Bool) :
    (∃ t', PageMap.walkpgdir s dir a true = (none, s) ∧ Shows dir s t' ∧
      eval (mapPage dir a p w u) t = some (false, t')) ∨
    ∃ s' tab, PageMap.walkpgdir s dir a true = (some (tab, ptx a), s') ∧
      (s'.mem tab (ptx a) ≠ 0 ∧ eval (mapPage dir a p w u) t = none ∨
      s'.mem tab (ptx a) = 0 ∧ ∃ t', eval (mapPage dir a p w u) t = some (true, t') ∧
        Own (store s' tab (ptx a) (word ⟨p, w, u⟩)) dir ∧
        Shows dir (store s' tab (ptx a) (word ⟨p, w, u⟩)) t') := by
  obtain ⟨t', hw, hs'⟩ := walkpgdir_shows h hs a true
  rcases h.walkpgdir a with hwalk | ⟨s', hwalk, hown, hp, -⟩
  · rw [hwalk] at hw hs'
    exact .inl ⟨t', hwalk, hs', eval_mapPage hw p⟩
  · rw [hwalk] at hw hs'
    have hpde := hs'.pages (pdx a)
    rw [if_pos hp] at hpde
    obtain ⟨tab, htab, hpage⟩ := Option.map_eq_some_iff.mp hpde
    have hentry : s'.mem tab.page (ptx a) = (t'.pteAt dir a).elim 0 word := by
      have hat : t'.pteAt dir a = tab.pte (Vm.ptx a) := by
        rw [Store.pteAt, show t'.pgdir dir (Vm.pdx a) = some tab from htab]
        rfl
      rw [hat]
      exact hs'.words (pdx a) tab htab (ptx a)
    refine .inr ⟨s', tab.page, by rw [hpage]; exact hwalk, ?_⟩
    rw [eval_mapPage hw, hentry]
    cases t'.pteAt dir a with
    | some e => exact .inl ⟨word_ne_zero e, rfl⟩
    | none =>
      refine .inr ⟨rfl, _, rfl, ?_, hs'.setPte hown htab _⟩
      rw [hpage]
      exact (hown.store hp).1

/-- The address of a page in the kernel. -/
def addr (p : ℕ) : ℕ := KERNBASE + p * PGSIZE

/-- The links of `kalloc.c` run through the pages of the list. -/
def Links (k : Kalloc.Kmem) (t : Store) : Prop :=
  LinkedQueue.Chain k.next k.freelist (t.freelist.map addr)

theorem kalloc_links {k : Kalloc.Kmem} (h : Links k t) (use : Use) : ∃ r t',
    exec (.kalloc use) false t = some (r, t') ∧ (Kalloc.kalloc k).1 = r.map addr ∧
      Links (Kalloc.kalloc k).2 t' := by
  unfold Links at h
  cases hfree : t.freelist with
  | nil =>
    rw [hfree] at h
    have hhead : k.freelist = none := h
    refine ⟨none, t, by simp only [exec, hfree], hhead, ?_⟩
    rw [Links, hfree, Kalloc.kalloc, hhead]
    rfl
  | cons p l =>
    rw [hfree] at h
    refine ⟨some p, { t with freelist := l }, by simp [exec, hfree], h.1, ?_⟩
    rw [Links, Kalloc.kalloc, h.1]
    exact h.2

theorem kfree_links {k k' : Kalloc.Kmem} {p : ℕ} (h : Links k t) (hp : p ∉ t.freelist)
    (hk : Kalloc.kfree L (addr p) k = some k') :
    ∃ t', eval (kfree L p) t = some ((), t') ∧ Links k' t' := by
  have hnot : addr p ∉ t.freelist.map addr := by
    intro hmem
    obtain ⟨q, hq, heq⟩ := mem_map.mp hmem
    have hqp : q = p := by
      unfold addr PGSIZE at heq
      omega
    exact hp (hqp ▸ hq)
  unfold Kalloc.kfree at hk
  split_ifs at hk with hbad
  obtain rfl := Option.some.inj hk
  have hgood : ¬(KERNBASE + p * PGSIZE < L.kend ∨ PHYSTOP ≤ p * PGSIZE) := by
    unfold addr at hbad
    omega
  refine ⟨{ t.setByte p fun _ => 1 with freelist := p :: t.freelist }, ?_, rfl, ?_⟩
  · rw [kfree, if_neg hgood]
    rfl
  · show LinkedQueue.Chain _ (update k.next (addr p) k.freelist (addr p)) _
    rw [update_self]
    exact h.update hnot _

end Xv6Threads.Kmem
