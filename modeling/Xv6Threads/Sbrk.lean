import Mathlib.Algebra.Group.Int.Defs
import Xv6Threads.Loop
import Xv6Threads.Param
import Xv6Threads.Vm

namespace Xv6Threads.Sbrk

open Vm Function Option Except

inductive Owner
  | free | ours | other
  deriving DecidableEq

inductive Pos
  | idle
  /-- in the loop of `allocuvm(pgdir, oldsz, newsz)`, at the address `a` -/
  | grow (oldsz newsz a : ℕ)
  /-- in the loop of `deallocuvm(pgdir, oldsz, newsz)`, which `allocuvm` calls if `undo` -/
  | shrink (oldsz newsz a : ℕ) (undo : Bool)
  deriving DecidableEq

structure Sys (L : Link) (T : Type) where
  img : Image L
  own : ℕ → Owner
  /-- the threads that have the directory -/
  member : T → Bool
  sz : T → ℕ
  pos : T → Pos

inductive Act (L : Link) (T : Type)
  | sbrk (i : T) (n : ℤ)
  /-- the next turn of thread `i`, with what `kalloc` returns -/
  | turn (i : T) (K : Kalloc L)
  | clone (i j : T)
  | leave (j : T)
  /-- another process allocates or frees a page -/
  | other (p : ℕ) (o : Owner)

variable {L : Link} {T : Type} [DecidableEq T]

def setPos (s : Sys L T) (i : T) (x : Pos) : Sys L T := { s with pos := update s.pos i x }

def setSz (s : Sys L T) (i : T) (sz : ℕ) : Sys L T := { s with sz := update s.sz i sz }

/-- `sz + n`. -/
def newSize (s : Sys L T) (i : T) (n : ℤ) : ℕ := ((s.sz i + n) % 2 ^ 32).toNat

/-- `growproc(n)` up to a loop. `allocuvm` fails at `KERNBASE`; with the larger size second,
`allocuvm` and `deallocuvm` return the size there is. -/
def sbrk (s : Sys L T) (i : T) (n : ℤ) : Sys L T :=
  if 0 < n then
    if KERNBASE ≤ newSize s i n ∨ newSize s i n < s.sz i then s
    else setPos s i (.grow (s.sz i) (newSize s i n) (pgroundup (s.sz i)))
  else if n < 0 then
    if s.sz i ≤ newSize s i n then s
    else setPos s i (.shrink (s.sz i) (newSize s i n) (pgroundup (newSize s i n)) false)
  else s

/-- The pages a turn of `allocuvm` at `a` takes: one for the memory, one for a missing table. -/
def taken (s : Sys L T) (K : Kalloc L) (a : ℕ) : ℕ → Owner := fun x =>
  if (K.mem a).any (·.val = x) ∨
      ((K.mem a).isSome ∧ (s.img.pde (pdx a)).isNone ∧ (K.tab a).any (·.val = x)) then .ours
  else s.own x

/-- The page a turn of `deallocuvm` at `a` gives back. -/
def given (s : Sys L T) (a : ℕ) : ℕ → Owner := fun x =>
  if (s.img.pteAt a).any (·.page = x) then .free else s.own x

/-- `kalloc` only returns free pages. -/
def Fresh (s : Sys L T) (K : Kalloc L) (a : ℕ) : Prop :=
  (∀ p ∈ K.mem a, s.own p.val = .free) ∧
  ((s.img.pde (pdx a)).isNone →
    ∀ q ∈ K.tab a, s.own q.val = .free ∧ ∀ p ∈ K.mem a, p.val ≠ q.val)

instance (s : Sys L T) (K : Kalloc L) (a : ℕ) : Decidable (Fresh s K a) :=
  inferInstanceAs (Decidable (_ ∧ _))

def Pos.addr : Pos → ℕ
  | .idle => 0
  | .grow _ _ a => a
  | .shrink _ _ a _ => a

/-- One turn of the loop of `i`, or what follows the loop. A result 0 of `allocuvm` or
`deallocuvm` makes `growproc` fail before it stores the size. -/
def turn (s : Sys L T) (i : T) (K : Kalloc L) : Except Stop (Sys L T) :=
  match s.pos i with
  | .idle => .ok s
  | .grow oldsz newsz a =>
    if a < newsz then
      match allocTurn K a s.img with
      | .error e => .error e
      | .ok (true, img) =>
        .ok (setPos { s with img := img, own := taken s K a } i
          (.grow oldsz newsz (w32 (a + PGSIZE))))
      | .ok (false, img) =>
        .ok (setPos { s with img := img } i
          (if newsz ≤ oldsz then .idle else .shrink newsz oldsz (pgroundup oldsz) true))
    else .ok (setPos (if newsz = 0 then s else setSz s i newsz) i .idle)
  | .shrink oldsz newsz a undo =>
    if a < oldsz then
      match deallocTurn K a s.img with
      | .error e => .error e
      | .ok (a', img) =>
        .ok (setPos { s with img := img, own := given s a } i
          (.shrink oldsz newsz (w32 (a' + PGSIZE)) undo))
    else .ok (setPos (if undo ∨ newsz = 0 then s else setSz s i newsz) i .idle)

/-- `growproc` takes no lock, so a step is its beginning, one turn of a loop of `allocuvm` or
`deallocuvm`, or its end. -/
def step (s : Sys L T) : Act L T → Option (Except Stop (Sys L T))
  | .sbrk i n => if s.member i ∧ s.pos i = .idle then some (.ok (sbrk s i n)) else none
  | .turn i K =>
    if s.pos i ≠ .idle ∧ Fresh s K (s.pos i).addr then some (turn s i K) else none
  | .clone i j =>
    if s.member i ∧ s.pos i = .idle ∧ s.member j = false then
      some (.ok { setSz (setPos s j .idle) j (s.sz i) with member := update s.member j true })
    else none
  | .leave j =>
    if s.member j ∧ s.pos j = .idle then
      some (.ok { s with member := update s.member j false })
    else none
  | .other p o =>
    if s.own p ≠ .ours ∧ o ≠ .ours then some (.ok { s with own := update s.own p o })
    else none

/-- The user pages for which `P` holds are mapped, each to a physical page of its own. -/
structure Layout (img : Image L) (own : ℕ → Owner) (P : ℕ → Prop) : Prop where
  mapped : ∀ m < UPAGES, (∃ e, img.entry m = some e) ↔ P m
  page : ∀ m < UPAGES, ∀ e, img.entry m = some e → L.Usable e.page ∧ own e.page = .ours
  once : ∀ m < UPAGES, ∀ m' < UPAGES, ∀ e e', img.entry m = some e → img.entry m' = some e' →
    e.page = e'.page → m = m'

/-- No call is in progress, the threads agree on `sz`, and exactly its pages are mapped. -/
structure Uniform (s : Sys L T) : Prop where
  idle : ∀ i, s.pos i = .idle
  same : ∀ i j, s.member i = true → s.member j = true → s.sz i = s.sz j
  lt : ∀ i, s.member i = true → s.sz i < KERNBASE
  layout : ∀ i, s.member i = true → Layout s.img s.own (· < pages (s.sz i))

/-- `growproc(n)` changes nothing: `n` is 0, or the new size is out of range. -/
def Refused (s : Sys L T) (i : T) (n : ℤ) : Prop :=
  n = 0 ∨ 0 < n ∧ (KERNBASE ≤ newSize s i n ∨ newSize s i n < s.sz i) ∨
    n < 0 ∧ s.sz i ≤ newSize s i n

/-- `sbrk` only changes the size while the caller has the directory for itself, and not to 0; and
`kalloc` finds a page for the page table when it has found one for the memory. -/
def OneThread (s : Sys L T) : Act L T → Prop
  | .sbrk i n => Refused s i n ∨ (∀ j, s.member j = true → j = i) ∧ newSize s i n ≠ 0
  | .turn i K => K.mem (s.pos i).addr ≠ none → s.img.pde (pdx (s.pos i).addr) = none →
      K.tab (s.pos i).addr ≠ none
  | _ => True

abbrev Reachable (ok : Sys L T → Act L T → Prop) : Sys L T → Prop :=
  Reach Uniform ok fun s a s' => step s a = some (.ok s')

section
variable {img img' : Image L} {own own' : ℕ → Owner} {P Q : ℕ → Prop} {n : ℕ}

theorem Layout.congr (h : Layout img own P) (hPQ : ∀ m < UPAGES, P m ↔ Q m) : Layout img own Q :=
  ⟨fun m hm => (h.mapped m hm).trans (hPQ m hm), h.page, h.once⟩

theorem Layout.frame (h : Layout img own P) (hown : ∀ x, own x = .ours → own' x = .ours) :
    Layout img own' P :=
  ⟨h.mapped, fun m hm e he => ⟨(h.page m hm e he).1, hown _ (h.page m hm e he).2⟩, h.once⟩

theorem Layout.add {p : Frame L} (h : Layout img own P)
    (hother : ∀ m ≠ n, img'.entry m = img.entry m)
    (hn : img'.entry n = some ⟨p, true, true⟩) (hfree : own p.val = .free)
    (hp : own' p.val = .ours) (hown : ∀ x, own x = .ours → own' x = .ours) :
    Layout img' own' fun m => P m ∨ m = n := by
  have hne : ∀ m < UPAGES, m ≠ n → ∀ e, img'.entry m = some e → e.page ≠ p.val := by
    intro m hm hmn e he heq
    rw [hother m hmn] at he
    have hours := (h.page m hm e he).2
    rw [heq, hfree] at hours
    cases hours
  refine ⟨?_, ?_, ?_⟩
  · intro m hm
    by_cases hmn : m = n
    · rw [hmn, hn]
      exact iff_of_true ⟨_, rfl⟩ (.inr rfl)
    · rw [hother m hmn, h.mapped m hm]
      simp only [hmn, or_false]
  · intro m hm e he
    by_cases hmn : m = n
    · rw [hmn, hn] at he
      obtain rfl := some.inj he
      exact ⟨p.property, hp⟩
    · rw [hother m hmn] at he
      exact ⟨(h.page m hm e he).1, hown _ (h.page m hm e he).2⟩
  · intro m hm m' hm' e e' he he' heq
    by_cases hmn : m = n <;> by_cases hmn' : m' = n
    · rw [hmn, hmn']
    · rw [hmn, hn] at he
      obtain rfl := some.inj he
      exact absurd heq.symm (hne m' hm' hmn' e' he')
    · rw [hmn', hn] at he'
      obtain rfl := some.inj he'
      exact absurd heq (hne m hm hmn e he)
    · rw [hother m hmn] at he
      rw [hother m' hmn'] at he'
      exact h.once m hm m' hm' e e' he he' heq

theorem Layout.drop (h : Layout img own P) (hn : n < UPAGES)
    (hentry : ∀ m, img'.entry m = if m = n then none else img.entry m)
    (hown : ∀ x, own x = .ours → (∀ e, img.entry n = some e → e.page ≠ x) → own' x = .ours) :
    Layout img' own' fun m => P m ∧ m ≠ n := by
  have hkeep : ∀ m e, img'.entry m = some e → m ≠ n ∧ img.entry m = some e := by
    intro m e he
    rw [hentry] at he
    split_ifs at he with hmn
    exact ⟨hmn, he⟩
  refine ⟨?_, ?_, ?_⟩
  · intro m hm
    rw [← h.mapped m hm, hentry]
    by_cases hmn : m = n <;> simp [hmn]
  · intro m hm e he
    obtain ⟨hmn, he⟩ := hkeep m e he
    refine ⟨(h.page m hm e he).1, hown _ (h.page m hm e he).2 ?_⟩
    exact fun e' he' heq => hmn (h.once m hm n hn e e' he he' heq.symm)
  · intro m hm m' hm' e e' he he' heq
    exact h.once m hm m' hm' e e' (hkeep m e he).2 (hkeep m' e' he').2 heq

end

/-- What holds in the middle of a call of `i`: the pages below the address are mapped, or those
from the new size up to the address are not. -/
def InCall (s : Sys L T) (i : T) : Pos → Prop
  | .idle => False
  | .grow oldsz newsz a => ∃ k, a = k * PGSIZE ∧ s.sz i = oldsz ∧ oldsz ≤ newsz ∧ newsz ≠ 0 ∧
      newsz < KERNBASE ∧ pages oldsz ≤ k ∧ k ≤ pages newsz ∧ Layout s.img s.own (· < k)
  | .shrink oldsz newsz a undo => ∃ k b, a = k * PGSIZE ∧ newsz < oldsz ∧ oldsz < KERNBASE ∧
      pages newsz ≤ k ∧ b ≤ pages oldsz ∧ (undo = true → s.sz i = newsz) ∧
      (undo = false → newsz ≠ 0) ∧
      Layout s.img s.own fun m => m < pages newsz ∨ k ≤ m ∧ m < b

omit [DecidableEq T] in
theorem InCall.frame {s : Sys L T} {i : T} {x : Pos} {own : ℕ → Owner} (h : InCall s i x)
    (hown : ∀ p, s.own p = .ours → own p = .ours) : InCall { s with own := own } i x := by
  cases x with
  | idle => exact h
  | grow oldsz newsz a =>
    obtain ⟨k, h1, h2, h3, h4, h5, h6, h7, hlayout⟩ := h
    exact ⟨k, h1, h2, h3, h4, h5, h6, h7, hlayout.frame hown⟩
  | shrink oldsz newsz a undo =>
    obtain ⟨k, b, h1, h2, h3, h4, h5, h6, h7, hlayout⟩ := h
    exact ⟨k, b, h1, h2, h3, h4, h5, h6, h7, hlayout.frame hown⟩

/-- `i` is in a call and has the directory for itself. -/
structure Busy (s : Sys L T) (i : T) : Prop where
  member : s.member i = true
  alone : ∀ j, s.member j = true → j = i
  idle : ∀ j, j ≠ i → s.pos j = .idle
  call : InCall s i (s.pos i)

section
variable {s : Sys L T} {i : T}

omit [DecidableEq T] in
theorem Busy.pos_ne_idle (h : Busy s i) : s.pos i ≠ .idle := by
  intro hpos
  have hcall := h.call
  rw [hpos] at hcall
  exact hcall

theorem Busy.done (h : Busy s i) {sz : ℕ} {s' : Sys L T} (hpos : s'.pos = update s.pos i .idle)
    (hmember : s'.member = s.member) (hsz : s'.sz i = sz) (hlt : sz < KERNBASE)
    (hlayout : Layout s'.img s'.own (· < pages sz)) : Uniform s' := by
  have honly : ∀ j, s'.member j = true → j = i := by
    intro j hj
    rw [hmember] at hj
    exact h.alone j hj
  refine ⟨?_, ?_, ?_, ?_⟩
  · intro j
    rw [hpos]
    by_cases hj : j = i
    · rw [hj, update_self]
    · rw [update_of_ne hj]
      exact h.idle j hj
  · intro j j' hj hj'
    rw [honly j hj, honly j' hj']
  · intro j hj
    rw [honly j hj, hsz]
    exact hlt
  · intro j hj
    rw [honly j hj, hsz]
    exact hlayout

theorem Busy.next (h : Busy s i) {x : Pos} {s' : Sys L T} (hpos : s'.pos = update s.pos i x)
    (hmember : s'.member = s.member) (hcall : InCall s' i x) : Busy s' i := by
  refine ⟨by rw [hmember]; exact h.member, ?_, ?_, ?_⟩
  · intro j hj
    rw [hmember] at hj
    exact h.alone j hj
  · intro j hj
    rw [hpos, update_of_ne hj]
    exact h.idle j hj
  · rw [hpos, update_self]
    exact hcall

def Inv (s : Sys L T) : Prop := Uniform s ∨ ∃ i, Busy s i

omit [DecidableEq T] in
theorem taken_ours (s : Sys L T) (K : Kalloc L) (a : ℕ) {x : ℕ} (hx : s.own x = .ours) :
    taken s K a x = .ours := by
  unfold taken
  split_ifs
  · rfl
  · exact hx

theorem Busy.grow (h : Busy s i) {K : Kalloc L} {oldsz newsz a : ℕ}
    (hpos : s.pos i = .grow oldsz newsz a) (hfresh : Fresh s K a)
    (hK : K.mem a ≠ none → s.img.pde (pdx a) = none → K.tab a ≠ none) :
    ∃ s', turn s i K = .ok s' ∧ Inv s' := by
  have hcall := h.call
  rw [hpos] at hcall
  obtain ⟨k, rfl, hsz, hle, hnew0, hnew, hlo, hhi, hlayout⟩ := hcall
  unfold turn
  rw [hpos]
  dsimp only
  by_cases ha : k * PGSIZE < newsz
  · rw [if_pos ha]
    have hlt := lt_pages.mpr ha
    have huser : k < UPAGES := Nat.lt_of_lt_of_le hlt (pages_le hnew.le)
    have hnone : s.img.entry k = none := by
      by_contra hsome
      exact Nat.lt_irrefl k ((hlayout.mapped k huser).mp (ne_none_iff_exists'.mp hsome))
    obtain ⟨ok, img, hrun, hfail, hok⟩ :=
      exists_ok (allocTurn_spec (K := K) (E := fun _ => False) huser hnone)
    rw [hrun]
    cases ok with
    | true =>
      obtain ⟨p, hmem, hother, hmap⟩ := hok rfl
      have hmapped := hmap.resolve_right fun hno => hK (by simp [hmem]) hno.2.1 hno.2.2
      have hnext : w32 (k * PGSIZE + PGSIZE) = (k + 1) * PGSIZE := by
        simp only [w32, UPAGES, KERNBASE, PGSIZE] at huser ⊢
        omega
      have hours : taken s K (k * PGSIZE) p.val = .ours := by
        unfold taken
        rw [if_pos (.inl (by simp [hmem]))]
      refine ⟨_, rfl, .inr ⟨i, h.next rfl rfl ?_⟩⟩
      refine ⟨k + 1, hnext, hsz, hle, hnew0, hnew, by omega, hlt, ?_⟩
      apply (hlayout.add hother hmapped (hfresh.1 p hmem) hours
        fun _ => taken_ours s K (k * PGSIZE)).congr
      intro m _
      omega
    | false =>
      obtain ⟨rfl, -⟩ := hfail rfl
      have hne : ¬newsz ≤ oldsz := by
        intro hge
        obtain rfl : newsz = oldsz := by omega
        omega
      rw [if_neg hne]
      refine ⟨_, rfl, .inr ⟨i, h.next rfl rfl ?_⟩⟩
      refine ⟨pages oldsz, k, pgroundup_eq (by omega), by omega, hnew, le_rfl, hhi, fun _ => hsz,
        by simp, ?_⟩
      apply hlayout.congr
      intro m _
      omega
  · rw [if_neg ha, if_neg hnew0]
    have hk : k = pages newsz := by
      have := mt lt_pages.mp ha
      omega
    rw [hk] at hlayout
    exact ⟨_, rfl, .inl (h.done rfl rfl (update_self _ _ _) hnew hlayout)⟩

/-- A turn of `deallocuvm`. It passes over pages only when nothing is mapped any more from the
address on. -/
theorem Busy.shrink (h : Busy s i) {K : Kalloc L} {oldsz newsz a : ℕ} {undo : Bool}
    (hpos : s.pos i = .shrink oldsz newsz a undo) : ∃ s', turn s i K = .ok s' ∧ Inv s' := by
  have hcall := h.call
  rw [hpos] at hcall
  obtain ⟨k, b, rfl, hlt, hold, hlo, hhi, hundo, hnew0, hlayout⟩ := hcall
  unfold turn
  rw [hpos]
  dsimp only
  by_cases ha : k * PGSIZE < oldsz
  · rw [if_pos ha]
    have huser : k < UPAGES := Nat.lt_of_lt_of_le (lt_pages.mpr ha) (pages_le hold.le)
    have hclean := fun e he => (hlayout.page k huser e he).1
    obtain ⟨a', img, hrun, hentry, hnext⟩ :=
      exists_ok (deallocTurn_spec (K := K) (E := fun _ => False) huser hclean)
    rw [hrun]
    have hgiven : ∀ x, s.own x = .ours → (∀ e, s.img.entry k = some e → e.page ≠ x) →
        given s (k * PGSIZE) x = .ours := by
      intro x hx hne
      unfold given
      rw [pteAt_eq s.img (addr_lt huser), addr_div, if_neg ?_]
      · exact hx
      · cases he : s.img.entry k with
        | none => simp
        | some e => simpa using hne e he
    have hdrop := hlayout.drop huser hentry hgiven
    refine ⟨_, rfl, .inr ⟨i, h.next rfl rfl ?_⟩⟩
    rcases hnext with rfl | ⟨rfl, hno⟩
    · refine ⟨k + 1, b, ?_, hlt, hold, by omega, hhi, hundo, hnew0, ?_⟩
      · simp only [w32, UPAGES, KERNBASE, PGSIZE] at huser ⊢
        omega
      · apply hdrop.congr
        intro m _
        omega
    · have hb : b ≤ k := by
        by_contra hkb
        obtain ⟨e, he⟩ := (hlayout.mapped k huser).mpr (.inr ⟨le_rfl, by omega⟩)
        rw [hno k rfl] at he
        cases he
      refine ⟨k + NPTENTRIES, b, ?_, hlt, hold, by omega, hhi, hundo, hnew0, ?_⟩
      · simp only [w32, UPAGES, KERNBASE, PGSIZE, NPTENTRIES] at huser ⊢
        omega
      · apply hdrop.congr
        intro m _
        omega
  · rw [if_neg ha]
    have hk := mt lt_pages.mp ha
    have hlayout' : Layout s.img s.own (· < pages newsz) := by
      apply hlayout.congr
      intro m _
      omega
    cases undo with
    | true =>
      rw [if_pos (.inl rfl)]
      exact ⟨_, rfl, .inl (h.done rfl rfl (hundo rfl) (by omega) hlayout')⟩
    | false =>
      rw [if_neg (by simpa using hnew0 rfl)]
      exact ⟨_, rfl, .inl (h.done rfl rfl (update_self _ _ _) (by omega) hlayout')⟩

theorem Uniform.sbrk (h : Uniform s) {n : ℤ} (hi : s.member i = true)
    (hok : OneThread s (.sbrk i n)) : Inv (sbrk s i n) := by
  have hlt := h.lt i hi
  have hlayout := h.layout i hi
  have busy : ∀ x, (∀ j, s.member j = true → j = i) → InCall (setPos s i x) i x →
      Inv (setPos s i x) := by
    intro x halone hcall
    refine .inr ⟨i, hi, halone, fun j hj => ?_, ?_⟩
    · exact (update_of_ne hj _ _).trans (h.idle j)
    · simpa only [setPos, update_self] using hcall
  unfold Sbrk.sbrk
  split_ifs with hpos hrange hneg hrange
  · exact .inl h
  · obtain ⟨halone, hne⟩ := hok.resolve_left (by unfold Refused; omega)
    apply busy _ halone
    refine ⟨pages (s.sz i), pgroundup_eq hlt.le, rfl, by omega, hne, by omega, le_rfl, ?_, hlayout⟩
    have hle : s.sz i ≤ newSize s i n := by omega
    simp only [pages, PGSIZE]
    omega
  · exact .inl h
  · obtain ⟨halone, hne⟩ := hok.resolve_left (by unfold Refused; omega)
    apply busy _ halone
    refine ⟨pages (newSize s i n), pages (s.sz i), pgroundup_eq (by omega), by omega, hlt, le_rfl,
      le_rfl, by simp, fun _ => hne, ?_⟩
    have hle : newSize s i n ≤ s.sz i := by omega
    have hpages : pages (newSize s i n) ≤ pages (s.sz i) := by
      simp only [pages, PGSIZE]
      omega
    apply hlayout.congr
    intro m _
    omega
  · exact .inl h

theorem Inv.step {a : Act L T} {r : Except Stop (Sys L T)} (h : Inv s) (hok : OneThread s a)
    (hs : step s a = some r) : ∃ s', r = .ok s' ∧ Inv s' := by
  -- in the middle of a call only the caller is a thread of the directory
  have huniform : ∀ i, s.member i = true → s.pos i = .idle → Uniform s := by
    intro i hi hidle
    rcases h with h | ⟨j, h⟩
    · exact h
    · rw [h.alone i hi] at hidle
      exact absurd hidle h.pos_ne_idle
  cases a with simp only [Sbrk.step] at hs
  | sbrk i n =>
    split_ifs at hs with hi
    exact ⟨_, (some.inj hs).symm, (huniform i hi.1 hi.2).sbrk hi.1 hok⟩
  | turn i K =>
    split_ifs at hs with hi
    rcases h with h | ⟨j, h⟩
    · exact absurd (h.idle i) hi.1
    obtain rfl : i = j := by
      by_contra hij
      exact hi.1 (h.idle i hij)
    rw [← some.inj hs]
    obtain ⟨hidle, hfresh⟩ := hi
    cases hpos : s.pos i with
    | idle => exact absurd hpos hidle
    | grow oldsz newsz a =>
      simp only [OneThread, hpos] at hok hfresh
      exact h.grow hpos hfresh hok
    | shrink oldsz newsz a undo => exact h.shrink hpos
  | clone i j =>
    split_ifs at hs with hi
    have hu := huniform i hi.1 hi.2.1
    refine ⟨_, (some.inj hs).symm, .inl ?_⟩
    have hmember : ∀ q, update s.member j true q = true → q = j ∨ q ≠ j ∧ s.member q = true := by
      intro q hq
      by_cases hqj : q = j
      · exact .inl hqj
      · rw [update_of_ne hqj] at hq
        exact .inr ⟨hqj, hq⟩
    have hsz : ∀ q, update s.member j true q = true →
        update s.sz j (s.sz i) q = s.sz i := by
      intro q hq
      rcases hmember q hq with rfl | ⟨hqj, hq⟩
      · rw [update_self]
      · rw [update_of_ne hqj]
        exact hu.same q i hq hi.1
    refine ⟨?_, ?_, ?_, ?_⟩
    · intro q
      by_cases hqj : q = j
      · rw [hqj]
        exact update_self _ _ _
      · exact (update_of_ne hqj _ _).trans (hu.idle q)
    · intro q q' hq hq'
      exact (hsz q hq).trans (hsz q' hq').symm
    · intro q hq
      exact (hsz q hq).trans_lt (hu.lt i hi.1)
    · intro q hq
      simp only [setSz, setPos, hsz q hq]
      exact hu.layout i hi.1
  | leave j =>
    split_ifs at hs with hj
    have hu := huniform j hj.1 hj.2
    have hmember : ∀ q, update s.member j false q = true → s.member q = true := by
      intro q hq
      by_cases hqj : q = j
      · rw [hqj, update_self] at hq
        cases hq
      · rwa [update_of_ne hqj] at hq
    refine ⟨_, (some.inj hs).symm, .inl ⟨hu.idle, ?_, ?_, ?_⟩⟩
    · exact fun q q' hq hq' => hu.same q q' (hmember q hq) (hmember q' hq')
    · exact fun q hq => hu.lt q (hmember q hq)
    · exact fun q hq => hu.layout q (hmember q hq)
  | other p o =>
    split_ifs at hs with hp
    have hown : ∀ x, s.own x = .ours → update s.own p o x = .ours := by
      intro x hx
      rw [update_of_ne]
      · exact hx
      · rintro rfl
        exact hp.1 hx
    refine ⟨_, (some.inj hs).symm, ?_⟩
    rcases h with h | ⟨i, h⟩
    · exact .inl ⟨h.idle, h.same, h.lt, fun i hi => (h.layout i hi).frame hown⟩
    · refine .inr ⟨i, h.member, h.alone, h.idle, ?_⟩
      exact h.call.frame hown

end

theorem reachable_inv {s : Sys L T} (h : Reachable OneThread s) : Inv s := by
  apply Reach.invariant (P := Inv) _ _ h
  · exact fun s hs => .inl hs
  · intro s a s' hs hok hstep
    obtain ⟨t, ht, hinv⟩ := hs.step hok hstep
    rw [ok.inj ht]
    exact hinv

/-- While a thread only changes the size when it has the page directory for itself, not to 0, and
with memory for the page tables: whenever no `sbrk` is in progress the threads agree on `sz` and
exactly its pages are mapped, each once; and `mappages` does not panic. -/
theorem one_thread_keeps_sz {s : Sys L T} (h : Reachable OneThread s) :
    ((∀ i, s.pos i = .idle) → Uniform s) ∧
    ∀ a e, OneThread s a → step s a ≠ some (.error e) := by
  have hinv := reachable_inv h
  refine ⟨?_, ?_⟩
  · intro hidle
    rcases hinv with hu | ⟨i, hb⟩
    · exact hu
    · exact absurd (hidle i) hb.pos_ne_idle
  · intro a e hok hs
    obtain ⟨s', hs', -⟩ := hinv.step hok hs
    cases hs'

/-- The step is one of thread `me`. -/
def Act.By (me : T) : Act L T → Prop
  | .sbrk i _ | .turn i _ | .clone i _ | .leave i => i = me
  | .other _ _ => False

instance (me : T) (a : Act L T) : Decidable (a.By me) := by
  cases a <;> unfold Act.By <;> infer_instance

/-- The step is a turn of `deallocuvm` at the page of `x`. -/
def Unmaps (s : Sys L T) (x : ℕ) : Act L T → Prop
  | .turn i _ =>
    ∃ oldsz newsz a undo, s.pos i = .shrink oldsz newsz a undo ∧ a < oldsz ∧ SamePage x a
  | _ => False

section
variable {s s' : Sys L T} {a : Act L T}

/-- What a turn does to the page directory and to the other threads. -/
theorem turn_cases {i : T} {K : Kalloc L} (hstep : turn s i K = .ok s') :
    (s'.img = s.img ∨ (∃ a ok, allocTurn K a s.img = .ok (ok, s'.img)) ∨
      ∃ oldsz newsz a undo a', s.pos i = .shrink oldsz newsz a undo ∧ a < oldsz ∧
        deallocTurn K a s.img = .ok (a', s'.img)) ∧
    s'.member = s.member ∧ ∀ j ≠ i, s'.sz j = s.sz j := by
  unfold turn at hstep
  split at hstep
  · rw [← ok.inj hstep]
    exact ⟨.inl rfl, rfl, fun _ _ => rfl⟩
  · next oldsz newsz a _ =>
    by_cases ha : a < newsz
    · rw [if_pos ha] at hstep
      split at hstep
      · cases hstep
      all_goals
        next hrun =>
          rw [← ok.inj hstep]
          exact ⟨.inr (.inl ⟨a, _, hrun⟩), rfl, fun _ _ => rfl⟩
    · rw [if_neg ha] at hstep
      rw [← ok.inj hstep]
      split_ifs
      · exact ⟨.inl rfl, rfl, fun _ _ => rfl⟩
      · exact ⟨.inl rfl, rfl, fun j hj => update_of_ne hj _ _⟩
  · next oldsz newsz a undo hpos =>
    by_cases ha : a < oldsz
    · rw [if_pos ha] at hstep
      split at hstep
      · cases hstep
      · next a' img hrun =>
        rw [← ok.inj hstep]
        exact ⟨.inr (.inr ⟨oldsz, newsz, a, undo, a', hpos, ha, hrun⟩), rfl, fun _ _ => rfl⟩
    · rw [if_neg ha] at hstep
      rw [← ok.inj hstep]
      split_ifs
      · exact ⟨.inl rfl, rfl, fun _ _ => rfl⟩
      · exact ⟨.inl rfl, rfl, fun j hj => update_of_ne hj _ _⟩

theorem mapped_of_step {x : ℕ} (hstep : step s a = some (.ok s')) (hx : s.img.pteAt x ≠ none)
    (hno : ¬Unmaps s x a) : s'.img.pteAt x ≠ none := by
  cases a with simp only [step] at hstep
  | turn i K =>
    split_ifs at hstep
    obtain ⟨himg, -, -⟩ := turn_cases (some.inj hstep)
    rcases himg with himg | ⟨a, ok, hrun⟩ | ⟨oldsz, newsz, a, undo, a', hpos, ha, hrun⟩
    · rwa [himg]
    · rwa [wp_ok (allocTurn_extends (K := K) a) hrun x hx]
    · have hsame : ¬SamePage x a := fun hsame => hno ⟨oldsz, newsz, a, undo, hpos, ha, hsame⟩
      rwa [wp_ok (deallocTurn_keeps (K := K) a) hrun x hsame]
  | sbrk i n =>
    split_ifs at hstep
    rw [← ok.inj (some.inj hstep)]
    unfold sbrk
    split_ifs <;> exact hx
  | clone i j | leave j | other p o =>
    split_ifs at hstep
    rw [← ok.inj (some.inj hstep)]
    exact hx

/-- The others change neither the size of a thread nor that it has the directory. -/
theorem others_of_step {me : T} (hstep : step s a = some (.ok s')) (hme : s.member me = true)
    (hby : ¬a.By me) : s'.sz me = s.sz me ∧ s'.member me = true := by
  cases a with simp only [step] at hstep
  | sbrk i n =>
    split_ifs at hstep
    rw [← ok.inj (some.inj hstep)]
    unfold sbrk
    split_ifs <;> exact ⟨rfl, hme⟩
  | turn i K =>
    split_ifs at hstep
    obtain ⟨-, hmember, hsz⟩ := turn_cases (some.inj hstep)
    exact ⟨hsz me fun h => hby h.symm, (congrFun hmember me).trans hme⟩
  | clone i j =>
    split_ifs at hstep with hi
    have hj : me ≠ j := by
      rintro rfl
      rw [hme] at hi
      cases hi.2.2
    rw [← ok.inj (some.inj hstep)]
    exact ⟨update_of_ne hj _ _, (update_of_ne hj _ _).trans hme⟩
  | leave j =>
    split_ifs at hstep
    have hj : me ≠ j := fun h => hby h.symm
    rw [← ok.inj (some.inj hstep)]
    exact ⟨rfl, (update_of_ne hj _ _).trans hme⟩
  | other p o =>
    split_ifs at hstep
    rw [← ok.inj (some.inj hstep)]
    exact ⟨rfl, hme⟩

end

/-- One page is mapped, at address 0; thread 0 has the directory, thread 1 if `two`. -/
def onePage (two : Bool) : Sys smallKernel (Fin 2) where
  img := { pde := fun j => if j = 0 then some ⟨frame 0, fun n => if n = 0 then
             some ⟨frame 1, true, true⟩ else none⟩ else none }
  own := fun p => if p = 0x200 ∨ p = 0x201 then .ours else .free
  member := fun i => i = 0 || two
  sz := fun _ => 4096
  pos := fun _ => .idle

theorem onePage_entry (two : Bool) (m : ℕ) : (onePage two).img.entry m =
    if m = 0 then some ⟨frame 1, true, true⟩ else none := by
  by_cases hm : m / NPTENTRIES = 0
  · have hiff : m % NPTENTRIES = 0 ↔ m = 0 := by
      simp only [NPTENTRIES] at hm ⊢
      omega
    simp only [Image.entry, onePage, hm, if_true, bind_some, hiff]
  · have hne : m ≠ 0 := by
      rintro rfl
      exact hm rfl
    simp only [Image.entry, onePage, hm, if_false, bind_none, hne]

theorem onePage_uniform (two : Bool) : Uniform (onePage two) := by
  refine ⟨fun _ => rfl, fun _ _ _ _ => rfl, fun _ _ => by simp [onePage, KERNBASE], fun i _ => ?_⟩
  have hpages : pages ((onePage two).sz i) = 1 := by simp [onePage, pages, PGSIZE]
  rw [hpages]
  refine ⟨?_, ?_, ?_⟩
  · intro m _
    rw [onePage_entry]
    split_ifs with hm
    · exact iff_of_true ⟨_, rfl⟩ (by omega)
    · exact iff_of_false (by simp) (by omega)
  · intro m _ e he
    rw [onePage_entry] at he
    split_ifs at he
    obtain rfl := some.inj he
    exact ⟨(frame 1).property, rfl⟩
  · intro m _ m' _ e e' he he' _
    rw [onePage_entry] at he he'
    split_ifs at he he' with hm hm'
    rw [hm, hm']

/-- `kalloc` returns `p`. -/
def page (p : Option (Frame smallKernel)) : Kalloc smallKernel := ⟨fun _ => p, fun _ => p⟩

/-- Thread `i` grows by one page, for which `kalloc` returns `frame p`. -/
def grows (i : Fin 2) (p : ℕ) : List (Act smallKernel (Fin 2)) :=
  [.sbrk i 4096, .turn i (page (some (frame p))), .turn i (page none)]

theorem exists_run {ok : Sys smallKernel (Fin 2) → Act smallKernel (Fin 2) → Prop}
    (okb : Sys smallKernel (Fin 2) → Act smallKernel (Fin 2) → Bool)
    (hok : ∀ s a, okb s a = true → ok s a) (two : Bool) (p : Sys smallKernel (Fin 2) → Bool)
    (as : List (Act smallKernel (Fin 2)))
    (h : (execs okb (fun s a => reached (step s a)) (onePage two) as).any p = true) :
    ∃ s, Reachable ok s ∧ p s = true := by
  have hstart : Reachable ok (onePage two) := .start (onePage_uniform two)
  exact Reach.exists_of_execs okb _ p hok (fun _ _ _ => eq_of_reached) as hstart h

/-- A test that implies `OneThread`. -/
def oneThread (s : Sys smallKernel (Fin 2)) : Act smallKernel (Fin 2) → Bool
  | .sbrk i n => decide ((∀ j, s.member j = true → j = i) ∧ newSize s i n ≠ 0)
  | .turn i K => (s.img.pde (pdx (s.pos i).addr)).isSome || (K.tab (s.pos i).addr).isSome
  | _ => true

theorem oneThread_ok (s : Sys smallKernel (Fin 2)) (a : Act smallKernel (Fin 2))
    (h : oneThread s a = true) : OneThread s a := by
  cases a with
  | sbrk i n => exact .inr (of_decide_eq_true h)
  | turn i K =>
    intro _ hpde
    rw [oneThread, hpde] at h
    exact isSome_iff_ne_none.mp (by simpa using h)
  | clone | leave | other => trivial

/-- A thread by itself grows by a page and creates another; that one goes on alone, grows by a page
and creates the first one again. -/
theorem one_thread_keeps_sz_of_two :
    ∃ s : Sys smallKernel (Fin 2), Reachable OneThread s ∧ s.member 0 = true ∧ s.member 1 = true ∧
      s.sz 0 = 12288 ∧ s.sz 1 = 12288 ∧ Uniform s := by
  have hrun := exists_run oneThread oneThread_ok false
    (fun s => decide ((s.member 0 = true ∧ s.member 1 = true ∧ s.sz 0 = 12288 ∧ s.sz 1 = 12288) ∧
      ∀ i, s.pos i = .idle))
    (grows 0 2 ++ [.clone 0 1, .leave 0] ++ grows 1 3 ++ [.clone 1 0]) (by decide +kernel)
  obtain ⟨s, hs, hcheck⟩ := hrun
  obtain ⟨⟨hmem, hmem', hsz, hsz'⟩, hidle⟩ := of_decide_eq_true hcheck
  exact ⟨s, hs, hmem, hmem', hsz, hsz', (one_thread_keeps_sz hs).1 hidle⟩

/-- Thread 0 grows; afterwards thread 1 has another `sz`, and when it grows `mappages` panics. -/
theorem second_thread_panics :
    (∃ s : Sys smallKernel (Fin 2), Reachable (fun _ _ => True) s ∧ (∀ i, s.pos i = .idle) ∧
      s.member 0 = true ∧ s.member 1 = true ∧ s.sz 0 ≠ s.sz 1) ∧
    ∃ s : Sys smallKernel (Fin 2), Reachable (fun _ _ => True) s ∧
      ∃ a, step s a = some (.error (.panic "*pte is 0")) := by
  have hrun := @exists_run (fun _ _ => True) (fun _ _ => true) (fun _ _ _ => trivial) true
    (fun s => decide ((∀ i, s.pos i = .idle) ∧ s.member 0 = true ∧ s.member 1 = true ∧
      s.sz 0 ≠ s.sz 1)) (grows 0 2) (by decide +kernel)
  have hrun' := @exists_run (fun _ _ => True) (fun _ _ => true) (fun _ _ _ => trivial) true
    (fun s => (step s (.turn 1 (page (some (frame 3))))).any fun r =>
      r.casesOn (fun e => decide (e = .panic "*pte is 0")) fun _ => false)
        (grows 0 2 ++ [.sbrk 1 4096]) (by decide +kernel)
  obtain ⟨s, hs, hcheck⟩ := hrun
  obtain ⟨s', hs', hcheck'⟩ := hrun'
  refine ⟨⟨s, hs, of_decide_eq_true hcheck⟩, s', hs', .turn 1 (page (some (frame 3))), ?_⟩
  rcases hstep : step s' (.turn 1 (page (some (frame 3)))) with _ | e | t <;> rw [hstep] at hcheck'
  · cases hcheck'
  · rw [of_decide_eq_true hcheck']
  · cases hcheck'

end Xv6Threads.Sbrk
