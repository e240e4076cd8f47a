import Xv6Threads.ThreadCount

namespace Xv6Threads.ProcTable

open View

/-- The kernel with a number for the process each slot belongs to. -/
structure Lineage where
  k : Kernel
  family : Slot → ℕ
  next : ℕ

/-- The slot that `np->pid = proc->pid` of `i` ties to the process of `i`. -/
def tiedBy (k : Kernel) : Act → Option (Slot × Slot)
  | .clonePid i =>
    match k.pc i with
    | .cloneAlloc np _ _ _ => some (i, np)
    | _ => none
  | _ => none

/-- A slot fresh from `allocproc` gets a new number, one tied by `clone` that of its creator. -/
def Lineage.follow (l : Lineage) (a : Act) (k' : Kernel) : Lineage where
  k := k'
  family q :=
    if (l.k.proc q).state = .UNUSED ∧ (k'.proc q).state = .EMBRYO then l.next
    else
      match tiedBy l.k a with
      | some (i, np) => if q = np then l.family i else l.family q
      | none => l.family q
  next := l.next + 1

def Lineage.boot : Lineage := ⟨ProcTable.boot, fun _ => 0, 1⟩

abbrev LineageReachable (ok : Kernel → Act → Prop) : Lineage → Prop :=
  Reach (fun l => l = .boot) (fun l a => ok l.k a)
    fun l a l' => ∃ k' es, step l.k a = some (k', es) ∧ l' = l.follow a k'

/-- `allocproc` is only called while no running process is in `clone` between its own
`allocproc` and `nextpid--`. -/
def PidsInTurn (k : Kernel) (a : Act) : Prop :=
  a.starts = true → ∀ j, (k.proc j).state.Runs → (k.pc j).pidTaken = false

instance (k : Kernel) (a : Act) : Decidable (PidsInTurn k a) :=
  inferInstanceAs (Decidable (_ → _))

/-- Slots with one pid belong to one process. -/
structure Families (v : View) (family : Slot → ℕ) : Prop where
  pids : Pids v
  same : ∀ p q, (v.node p).pid = (v.node q).pid → (v.node p).pid ≠ 0 → family p = family q

variable {v v' : View} {family family' : Slot → ℕ} {i p np : Slot}

/-- No slot but `p` gets another pid or another number; `p` gets the next pid or none. -/
theorem Families.frame (h : Families v family) (hpids : Pids v') (p : Slot)
    (hpid : ∀ q ≠ p, (v'.node q).pid = (v.node q).pid ∧ family' q = family q)
    (hp : (v'.node p).pid = v.nextpid ∨ (v'.node p).pid = 0 ∨
      (v'.node p).pid = (v.node p).pid ∧ family' p = family p) : Families v' family' := by
  -- a new pid is above all others
  have hnew : ∀ q ≠ p, (v'.node p).pid = (v'.node q).pid → (v'.node p).pid ≠ 0 →
      family' p = family' q := by
    intro q hq heq h0
    rw [(hpid q hq).1] at heq
    rcases hp with hp | hp | ⟨hp, hf⟩
    · have hbound := h.pids.bound q
      omega
    · exact absurd hp h0
    · rw [hp] at heq h0
      rw [hf, (hpid q hq).2]
      exact h.same p q heq h0
  refine ⟨hpids, ?_⟩
  intro x y hxy h0
  by_cases hx : x = p <;> by_cases hy : y = p
  · rw [hx, hy]
  · subst hx
    exact hnew y hy hxy h0
  · subst hy
    exact (hnew x hx hxy.symm (hxy ▸ h0)).symm
  · rw [(hpid x hx).2, (hpid y hy).2]
    rw [(hpid x hx).1, (hpid y hy).1] at hxy
    rw [(hpid x hx).1] at h0
    exact h.same x y hxy h0

theorem Families.tie (h : Families v family) (hpids : Pids (v.clonePid i np))
    (hf : ∀ q, family' q = if q = np then family i else family q) :
    Families (v.clonePid i np) family' := by
  have hnode : ∀ q, ((v.clonePid i np).node q).pid =
      if q = np then (v.node i).pid else (v.node q).pid := by
    intro q
    by_cases hq : q = np <;> simp [View.clonePid, hq]
  refine ⟨hpids, ?_⟩
  intro x y hxy h0
  rw [hnode x, hnode y] at hxy
  rw [hnode x] at h0
  rw [hf, hf]
  split_ifs at hxy h0 ⊢ with hx hy hy
  · rfl
  · exact h.same i y hxy h0
  · exact h.same x i hxy h0
  · exact h.same x y hxy h0

/-- In every other move only a slot fresh from `allocproc` gets a number. -/
theorem Families.move {a : Act} (h : Families v family) (hm : Move v a v') (hpids : Pids v')
    (ha : ∀ i, a ≠ .clonePid i)
    (hf : ∀ q, (v.node q).phase ≠ .unused ∨ (v'.node q).phase ≠ .embryo → family' q = family q) :
    Families v' family' := by
  -- what the other slots keep
  have hsame : ∀ q, (v'.node q).phase = (v.node q).phase ∨ (v'.node q).phase ≠ .embryo →
      family' q = family q := by
    intro q hq
    apply hf
    rcases hq with hq | hq
    · by_cases hu : (v.node q).phase = .unused
      · exact .inr (by rw [hq, hu]; decide)
      · exact .inl hu
    · exact .inr hq
  have hkeep : (∀ q, (v'.node q).pid = (v.node q).pid ∧
      ((v'.node q).phase = (v.node q).phase ∨ (v'.node q).phase ≠ .embryo)) →
      Families v' family' := by
    intro hall
    apply h.frame hpids v.init
    · exact fun q _ => ⟨(hall q).1, hsame q (hall q).2⟩
    · exact .inr (.inr ⟨(hall _).1, hsame _ (hall _).2⟩)
  cases id hm with
  | quiet | cloneNext => exact hkeep fun q => ⟨rfl, .inl rfl⟩
  | @forkNoStack _ p | @cloneNoStack _ p | @fork _ p | @clone _ p =>
    apply h.frame hpids p
    · intro q hq
      refine ⟨?_, hsame q (.inl ?_)⟩
      · simp [alloc, v.fresh_node_of_ne p _ hq]
      · simp [alloc, v.fresh_node_of_ne p _ hq]
    · exact .inl (by simp [alloc, v.fresh_node_self])
  | clonePid hi hold => exact absurd rfl (ha _)
  | @forkFail _ np | @forkDone _ np | @cloneDone _ np | @cloneLost _ np =>
    apply hkeep
    intro q
    by_cases hq : q = np <;> simp [forkFail, forkDone, start, hq]
  | @exitThreads i hi hidle hinit ht =>
    apply hkeep
    intro q
    rw [v.die_endAll_node]
    split_ifs <;> simp
  | @exitMain i hi hidle hinit ht | @threadExit i _ hi hidle hinit =>
    apply hkeep
    intro q
    rw [v.die_reparent_node i _ (h.pids.named.sane.noSelf i)]
    split_ifs with hq hparent
    · simp [hq]
    · rw [Node.passOn_pid, Node.passOn_phase]
      split_ifs <;> simp
    · exact ⟨rfl, .inl rfl⟩
  | @reap _ z | @join _ z =>
    apply h.frame hpids z
    · intro q hq
      refine ⟨?_, hsame q (.inl ?_)⟩
      · simp [reap, View.join, hq]
      · simp [reap, View.join, hq]
    · exact .inr (.inl (by simp [reap, View.join]))
  | @exec i g _ _ _ _ hi hidle hg =>
    apply hkeep
    intro q
    rw [v.exec_node]
    exact ⟨rfl, .inl rfl⟩

theorem clonePid_cases {k k' : Kernel} {es : List Event}
    (h : step k (.clonePid i) = some (k', es)) :
    ∃ np, tiedBy k (.clonePid i) = some (i, np) ∧ k'.view = k.view.clonePid i np := by
  cases stepped_of_step h with
  | @clonePid _ np _ _ _ _ hpc =>
    refine ⟨np, by simp only [tiedBy, hpc], ?_⟩
    rw [view_setPc, clonePid, view_setProc]
    rfl

theorem tiedBy_cases {k k' : Kernel} {a : Act} {es : List Event}
    (h : step k a = some (k', es)) (htied : tiedBy k a = some (i, np)) :
    a = .clonePid i ∧ running k i = true ∧ k.view.hold i = some (.alloc, np) ∧
      k'.view.hold i = some (.named, np) := by
  unfold tiedBy at htied
  split at htied
  · rename_i j
    split at htied
    · rename_i mp f arg st hpc
      obtain ⟨rfl, rfl⟩ := some_pair.mp htied
      simp only [step, hpc] at h
      split_ifs at h with hi
      rw [some_pair] at h
      refine ⟨rfl, hi, by rw [view_hold, hpc]; rfl, ?_⟩
      rw [← h.1]
      simp [view_hold, Pc.hold, setPc]
    · cases htied
  · cases htied

theorem tiedBy_clonePid {k : Kernel} (hold : k.view.hold i = some (.alloc, np)) :
    tiedBy k (.clonePid i) = some (i, np) := by
  rw [view_hold] at hold
  unfold tiedBy
  cases hpc : k.pc i <;> rw [hpc] at hold <;> simp_all [Pc.hold]

theorem Families.next {l : Lineage} {a : Act} {k' : Kernel} {es : List Event}
    (h : Families l.k.view l.family) (hok : PidsInTurn l.k a) (hs : step l.k a = some (k', es)) :
    Families k'.view (l.follow a k').family := by
  have hpids : Pids k'.view := h.pids.move (step_move hs) fun ha => clear_view (hok ha)
  have hphase : ∀ q, (l.k.view.node q).phase ≠ .unused ∨ (k'.view.node q).phase ≠ .embryo →
      ¬((l.k.proc q).state = .UNUSED ∧ (k'.proc q).state = .EMBRYO) := by
    rintro q hq ⟨hu, he⟩
    simp [hu, he, ProcState.phase] at hq
  by_cases ha : ∃ i, a = .clonePid i
  · obtain ⟨i, rfl⟩ := ha
    obtain ⟨np, htied, hview⟩ := clonePid_cases hs
    rw [hview] at hpids hphase ⊢
    apply h.tie hpids
    intro q
    have hq : (l.k.view.node q).phase ≠ .unused ∨
        ((l.k.view.clonePid i np).node q).phase ≠ .embryo := by
      by_cases hq : q = np <;> by_cases hu : (l.k.view.node q).phase = .unused <;>
        simp_all [View.clonePid]
    simp only [Lineage.follow, if_neg (hphase q hq), htied]
  · push Not at ha
    apply h.move (step_move hs) hpids ha
    intro q hq
    have htied : tiedBy l.k a = none := by
      cases a with
      | clonePid i => exact absurd rfl (ha i)
      | _ => rfl
    simp only [Lineage.follow, if_neg (hphase q hq), htied]

theorem reachable_families {l : Lineage} (h : LineageReachable PidsInTurn l) :
    Families l.k.view l.family := by
  apply Reach.invariant (P := fun l : Lineage => Families l.k.view l.family) _ _ h
  · intro l hl
    rw [hl]
    exact ⟨pids_boot, fun _ _ _ _ => rfl⟩
  · rintro l a l' hl hok ⟨k', es, hs, rfl⟩
    exact hl.next hok hs

/-- While no pid is taken between another process's `allocproc` and its `nextpid--`, slots in use
that have the same pid belong to one process: `clone` tied them together. -/
theorem same_pid_same_process {l : Lineage} (h : LineageReachable PidsInTurn l) (p q : Slot)
    (hp : (l.k.proc p).state ≠ .UNUSED) (hpid : (l.k.proc p).pid = (l.k.proc q).pid) :
    l.family p = l.family q := by
  have hfam := reachable_families h
  have hpos := hfam.pids.named.pos p (by simpa [phase_unused] using hp)
  apply hfam.same p q hpid
  omega

def Lineage.exec1 (l : Lineage) (a : Act) : Option Lineage :=
  (step l.k a).map fun r => l.follow a r.1

theorem exists_lineage (ok : Kernel → Act → Prop) [∀ k a, Decidable (ok k a)] (p : Lineage → Bool)
    (as : List Act) (h : (execs (fun l a => ok l.k a) Lineage.exec1 .boot as).any p = true) :
    ∃ l, LineageReachable ok l ∧ p l = true := by
  have hboot : LineageReachable ok .boot := .start rfl
  apply Reach.exists_of_execs _ Lineage.exec1 p _ _ as hboot h
  · intro l a ha
    exact of_decide_eq_true ha
  · intro l a l' hs
    obtain ⟨⟨k', es⟩, hk, rfl⟩ := Option.map_eq_some_iff.mp hs
    exact ⟨k', es, hk, rfl⟩

/-- A process and its thread. -/
theorem same_pid_same_process_thread :
    ∃ l, LineageReachable PidsInTurn l ∧ (l.k.proc 1).state ≠ .UNUSED ∧
      (l.k.proc 1).pid = (l.k.proc 2).pid ∧ l.family 1 = l.family 2 := by
  have hrun := exists_lineage PidsInTurn
    (fun l => decide ((l.k.proc 1).state ≠ .UNUSED ∧ (l.k.proc 1).pid = (l.k.proc 2).pid))
    oneThread (by decide +kernel)
  obtain ⟨l, hl, hcheck⟩ := hrun
  obtain ⟨hused, hpid⟩ := of_decide_eq_true hcheck
  exact ⟨l, hl, hused, hpid, same_pid_same_process hl 1 2 hused hpid⟩

/-- Slot 1 clones; before it steps `nextpid` back, init forks slot 3, and afterwards slot 4. -/
def forkInClone : List Act :=
  .dispatch 0 :: forks 0 2 ++
    [.dispatch 1, .clone 1 0 0 4096 true] ++ forks 0 3 ++ [.clonePid 1, .cloneNext 1] ++ forks 0 4

/-- The children of two forks have the same pid. -/
theorem forks_share_pid :
    ∃ l, LineageReachable (fun _ _ => True) l ∧ (l.k.proc 3).state = .RUNNABLE ∧
      (l.k.proc 4).state = .RUNNABLE ∧ (l.k.proc 3).pid = (l.k.proc 4).pid ∧
      l.family 3 ≠ l.family 4 := by
  have hrun := exists_lineage (fun _ _ => True)
    (fun l => decide ((l.k.proc 3).state = .RUNNABLE ∧ (l.k.proc 4).state = .RUNNABLE ∧
      (l.k.proc 3).pid = (l.k.proc 4).pid ∧ l.family 3 ≠ l.family 4))
    forkInClone (by decide +kernel)
  obtain ⟨l, hl, hcheck⟩ := hrun
  exact ⟨l, hl, of_decide_eq_true hcheck⟩

end Xv6Threads.ProcTable
