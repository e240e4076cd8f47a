import Xv6Threads.Survival
import Xv6Threads.Sleepers

namespace Xv6Threads.ProcTable

open Function Option View Fin

variable {k k' : Kernel} {a : Act} {es : List Event} {i p q z : Slot} {t t' : Table}

/-- Whoever runs in `t'` ran in `t`. -/
def RunOn (t t' : Table) : Prop := ∀ q, (t' q).state = .RUNNING → (t q).state = .RUNNING

theorem RunOn.refl (t : Table) : RunOn t t := fun _ hq => hq

theorem RunOn.trans {t'' : Table} (h : RunOn t t') (h' : RunOn t' t'') : RunOn t t'' :=
  fun q hq => h q (h' q hq)

theorem update_runOn (t : Table) (p : Slot) (x : Proc)
    (hx : x.state = .RUNNING → (t p).state = .RUNNING) : RunOn t (update t p x) := by
  intro q hq
  by_cases hqp : q = p
  · subst hqp
    rw [update_self] at hq
    exact hx hq
  · rwa [update_of_ne hqp] at hq

theorem setState_runOn (k : Kernel) (i : Slot) {s : ProcState} (hs : s ≠ .RUNNING) :
    RunOn k.proc (setState k i s).proc :=
  update_runOn k.proc i { k.proc i with state := s } fun h => absurd h hs

theorem wakeup1_runOn (t : Table) (c : Option Chan) : RunOn t (wakeup1 t c) := by
  intro q hq
  unfold wakeup1 at hq
  split_ifs at hq
  exact hq

theorem foldl_runOn (body : Table → Slot → Table) (h : ∀ t p, RunOn t (body t p))
    (l : List Slot) (t : Table) : RunOn t (l.foldl body t) := by
  induction l generalizing t with
  | nil => exact .refl t
  | cons p l ih => exact (h t p).trans (ih _)

theorem exitThreads_runOn (t : Table) (pid : ℤ) : RunOn t (exitThreads t pid) := by
  apply foldl_runOn
  intro t p
  split_ifs
  · exact (update_runOn t p _ fun h => by cases h).trans (wakeup1_runOn _ _)
  · exact update_runOn t p _ nofun
  · exact .refl t

theorem reparent_runOn (t : Table) (init i : Slot) (keep : Proc → Bool) :
    RunOn t (reparent t init i keep) := by
  rw [reparent_eq]
  apply foldl_runOn
  intro t p
  have hpass := update_runOn t p { t p with parent := some init } id
  unfold passOn
  dsimp only
  split_ifs
  · exact hpass.trans (wakeup1_runOn _ _)
  · exact hpass
  · exact update_runOn t p _ nofun
  · exact .refl t

theorem allocproc_runOn (k : Kernel) (kalloc : Bool) :
    RunOn k.proc (allocproc k kalloc).1.proc := by
  unfold allocproc
  split
  · exact .refl _
  · cases kalloc <;> exact update_runOn k.proc _ _ nofun

theorem exit_runOn (k : Kernel) (i : Slot) : RunOn k.proc (exit k i).proc := by
  have hfiles := update_runOn k.proc i { k.proc i with ofile := fun _ => none, cwd := none } id
  have hwake := hfiles.trans (wakeup1_runOn _ (slotChan (k.proc i).parent))
  unfold exit
  dsimp only
  rw [setPc_proc]
  refine RunOn.trans ?_ (setState_runOn _ i (by decide))
  dsimp only
  split_ifs
  · exact hwake.trans (exitThreads_runOn _ _)
  · exact hwake.trans (reparent_runOn _ _ _ _)

theorem exitThread_runOn (k : Kernel) (i : Slot) (r : Word) :
    RunOn k.proc (exitThread k i r).proc := by
  have hstatus := update_runOn k.proc i { k.proc i with exitStatus := r } id
  have hwake := hstatus.trans (wakeup1_runOn _ (slotChan (k.proc i).parent))
  unfold exitThread
  rw [setPc_proc]
  refine RunOn.trans ?_ (setState_runOn _ i (by decide))
  dsimp only
  exact hwake.trans (reparent_runOn _ _ _ _)

theorem runs_of_step (h : step k a = some (k', es)) (hq : (k'.proc q).state = .RUNNING) :
    (k.proc q).state = .RUNNING ∨ a = .dispatch q := by
  by_cases ha : a = .dispatch q
  · exact .inr ha
  left
  revert hq
  cases a with
  | fork i kalloc | clone i f arg s kalloc =>
    have halloc := allocproc_runOn k kalloc
    cases stepped_of_step h <;> try exact id
    all_goals
      rename_i hk
      rw [hk] at halloc
      exact halloc q
  | wakeup c =>
    cases stepped_of_step h
    exact wakeup1_runOn k.proc _ q
  | exit i =>
    cases stepped_of_step h
    exact exit_runOn k i q
  | threadExit i r =>
    cases stepped_of_step h
    exact exitThread_runOn k i r q
  | dispatch i =>
    cases stepped_of_step h
    have hqi : q ≠ i := fun hqi => ha (congrArg Act.dispatch hqi.symm)
    rw [setProc_proc, if_neg hqi]
    exact id
  | yield i | sleep i c | sbrk i sz | kill i pid | forkCopy i pg ok | clonePid i | cloneNext i
  | cloneDone i | wait i | threadJoin i tid r | lockAcquire i | waitThread i
  | lockRelease i | exec i pg ok sz entry sp =>
    simp only [step, kill, forkCopy, clonePid, cloneDone, wait, waitThread, joinReturn, exec,
      sleepSelf, setState, freevm] at h
    repeat' split at h
    all_goals cases h
    all_goals intro hq
    all_goals try simp only [setPc_proc, setProc_proc, update_apply] at hq
    all_goals try split_ifs at hq
    all_goals first | exact hq | cases hq | simp_all

/-- A RUNNABLE slot that is not ended by the step of another slot is RUNNABLE after it. -/
theorem runnable_of_step (h : step k a = some (k', es)) (hq : (k.proc q).state = .RUNNABLE)
    (ha : a.slot ≠ some q) (hlive : k'.view.Live q) : (k'.proc q).state = .RUNNABLE := by
  rcases phase_live.mp hlive with hs | hs | hs
  · rcases sleeps_of_step h hs with ⟨hs, -⟩ | ⟨c, rfl, -⟩ | ⟨rfl, -⟩ | ⟨_, _, rfl, -⟩
    · rw [hq] at hs
      cases hs
    all_goals exact absurd rfl ha
  · exact hs
  · rcases runs_of_step h hs with hs | rfl
    · rw [hq] at hs
      cases hs
    · exact absurd rfl ha

/-- A slot that stays alive keeps its pid, and its parent unless that leaves. -/
theorem kin_of_move {v v' : View} (h : Sane v) (hm : Move v a v') (hq : v.Live q)
    (hq' : v'.Live q) : (v'.node q).pid = (v.node q).pid ∧
      ((v'.node q).parent = (v.node q).parent ∨ ∃ r, (v.node q).parent = some r ∧
        a.slot = some r) := by
  cases hm with
  | quiet | cloneNext => exact ⟨rfl, .inl rfl⟩
  | @forkNoStack _ p _ _ hp | @cloneNoStack _ p _ _ _ _ _ hp | @fork _ p _ _ hp
  | @clone _ p _ _ _ _ _ hp =>
    simp [alloc, v.fresh_node_of_ne p _ (hq.ne_unused hp)]
  | forkFail hi hold | forkDone hi hold | clonePid hi hold | cloneDone hi hold
  | cloneLost hi hold =>
    have hne := ((h.held _ _ _ hi hold).ne_live hq).symm
    simp [forkFail, forkDone, View.clonePid, start, hne]
  | @exitThreads i hi hidle hinit ht =>
    rw [v.die_endAll_node, if_neg (live_of_endAll hq').2]
    exact ⟨rfl, .inl rfl⟩
  | @exitMain i hi hidle hinit ht | @threadExit i r hi hidle hinit =>
    have hqi := (live_of_reparent (h.noSelf i) hq').2.1
    rw [v.die_reparent_node i _ (h.noSelf i), if_neg hqi]
    split_ifs with hparent
    · exact ⟨Node.passOn_pid .., .inr ⟨i, hparent, rfl⟩⟩
    · exact ⟨rfl, .inl rfl⟩
  | @reap i z hi hidle hz hzombie =>
    have hqz : q ≠ z := by
      rintro rfl
      exact absurd (hq.symm.trans hzombie) (by decide)
    simp [reap, hqz]
  | @join i z hi hidle hz ht hzombie =>
    have hqz : q ≠ z := by
      rintro rfl
      exact absurd (hq.symm.trans hzombie) (by decide)
    rw [v.join_node_of_ne i z hqz]
    exact ⟨rfl, .inl rfl⟩
  | exec hi hidle hg =>
    rw [exec_node]
    exact ⟨rfl, .inl rfl⟩

/-- The table and the scheduler. `p` is the loop variable of `scheduler` as an index, `NPROC` at the
end of the table; `proc` is the process that has the processor. -/
structure Sched where
  k : Kernel
  p : ℕ
  proc : Option Slot

inductive SchedAct
  /-- the scheduler looks at the next slot, or begins again -/
  | scan
  /-- a step of the process that runs -/
  | run (a : Act)
  /-- the process that runs, or an interrupt, wakes who sleeps on `c` -/
  | wakeup (c : ℕ)

/-- The slot that the scheduler dispatches next, when it looks at one that is RUNNABLE. -/
def Sched.next (s : Sched) : Option Slot :=
  if h : s.proc = none ∧ s.p < NPROC then
    if (s.k.proc ⟨s.p, h.2⟩).state = .RUNNABLE then some ⟨s.p, h.2⟩ else none
  else none

/-- After a step of process `i`. When it is not RUNNING any more, the loop of the scheduler goes on
to the next slot. -/
def Sched.ran (s : Sched) (k : Kernel) (i : Slot) : Sched :=
  if (k.proc i).state = .RUNNING then { s with k := k } else ⟨k, s.p + 1, none⟩

/-- Between two passes over the table the scheduler lets interrupts in. -/
def Sched.step (s : Sched) : SchedAct → Option Sched
  | .scan =>
    match s.proc, s.next with
    | some _, _ => none
    | none, some q =>
      (ProcTable.step s.k (.dispatch q)).map fun r => { s with k := r.1, proc := some q }
    | none, none => some { s with p := if s.p < NPROC then s.p + 1 else 0 }
  | .run a =>
    match s.proc with
    | some i => if a.slot = some i then (ProcTable.step s.k a).map fun r => s.ran r.1 i else none
    | none => none
  | .wakeup c =>
    if s.proc.isSome ∨ s.p = NPROC then
      (ProcTable.step s.k (.wakeup c)).map fun r => { s with k := r.1 }
    else none

abbrev SchedReachable : Sched → Prop :=
  Reach (· = ⟨boot, 0, none⟩) (fun _ _ => True) fun s a s' => s.step a = some s'

/-- A step in which neither `i` nor `j` is dispatched and nobody but the scheduler changes the
state of `j`. -/
def Passes (i j : Slot) (s s' : Sched) : Prop :=
  ∃ a, s.step a = some s' ∧ (a = .scan → s.next ≠ some i ∧ s.next ≠ some j) ∧
    (a ≠ .scan → (s'.k.proc j).state = (s.k.proc j).state)

/-- A step in which neither `i` nor `np` is dispatched and after which `i` is still to run. -/
def Awaits (i np : Slot) (s s' : Sched) : Prop :=
  ∃ a, s.step a = some s' ∧ (a = .scan → s.next ≠ some i ∧ s.next ≠ some np) ∧
    (s'.k.proc i).state = .RUNNABLE

/-- The process that has the processor is the one at the loop variable. -/
structure Sched.Inv (s : Sched) : Prop where
  reachable : Reachable (fun _ _ => True) s.k
  here : ∀ i, s.proc = some i → s.p = i.val
  runs : ∀ i, s.proc = some i → (s.k.proc i).state = .RUNNING
  le : s.p ≤ NPROC

section
variable {s s' : Sched} {j : Slot}

theorem Sched.next_eq_some (h : s.next = some q) :
    s.proc = none ∧ s.p = q.val ∧ (s.k.proc q).state = .RUNNABLE := by
  unfold Sched.next at h
  split_ifs at h with hp hs
  obtain rfl := some.inj h
  exact ⟨hp.1, rfl, hs⟩

theorem Sched.next_eq_none (h : s.next = none) (hproc : s.proc = none) (hp : s.p = q.val) :
    (s.k.proc q).state ≠ .RUNNABLE := by
  intro hq
  have hlt : s.p < NPROC := hp ▸ q.isLt
  obtain rfl : q = ⟨s.p, hlt⟩ := Fin.ext hp.symm
  unfold Sched.next at h
  rw [dif_pos ⟨hproc, hlt⟩, if_pos hq] at h
  cases h

variable {b : SchedAct}

/-- What each step of the machine is: the scheduler dispatches a slot or goes past one, a process
takes a step and keeps the processor or gives it up, or there is a wakeup. -/
theorem Sched.step_cases (h : s.step b = some s') :
    (∃ q k es, b = .scan ∧ s.next = some q ∧ ProcTable.step s.k (.dispatch q) = some (k, es) ∧
      s' = ⟨k, s.p, some q⟩) ∨ (b = .scan ∧ s.proc = none ∧ s.next = none ∧
      s' = ⟨s.k, if s.p < NPROC then s.p + 1 else 0, none⟩) ∨
    (∃ a i k es, b = .run a ∧ s.proc = some i ∧ a.slot = some i ∧
      ProcTable.step s.k a = some (k, es) ∧ s' = s.ran k i) ∨
    (∃ c k es, b = .wakeup c ∧ ProcTable.step s.k (.wakeup c) = some (k, es) ∧
      s' = ⟨k, s.p, s.proc⟩) := by
  cases b with
  | scan =>
    unfold Sched.step at h
    cases hproc : s.proc with
    | some i => rw [hproc] at h; cases h
    | none =>
      cases hnext : s.next with
      | some q =>
        rw [hproc, hnext] at h
        obtain ⟨⟨k, es⟩, hk, rfl⟩ := map_eq_some_iff.mp h
        exact .inl ⟨q, k, es, rfl, rfl, hk, rfl⟩
      | none =>
        rw [hproc, hnext] at h
        obtain rfl := some.inj h
        exact .inr (.inl ⟨rfl, rfl, rfl, rfl⟩)
  | run a =>
    unfold Sched.step at h
    cases hproc : s.proc with
    | none => rw [hproc] at h; cases h
    | some i =>
      rw [hproc] at h
      dsimp only at h
      split_ifs at h with ha
      obtain ⟨⟨k, es⟩, hk, rfl⟩ := map_eq_some_iff.mp h
      exact .inr (.inr (.inl ⟨a, i, k, es, rfl, rfl, ha, hk, rfl⟩))
  | wakeup c =>
    simp only [Sched.step] at h
    split_ifs at h
    obtain ⟨⟨k, es⟩, hk, rfl⟩ := map_eq_some_iff.mp h
    exact .inr (.inr (.inr ⟨c, k, es, rfl, hk, rfl⟩))

theorem Sched.ran_cases (s : Sched) (k : Kernel) (i : Slot) :
    ((k.proc i).state = .RUNNING ∧ s.ran k i = ⟨k, s.p, s.proc⟩) ∨
    ((k.proc i).state ≠ .RUNNING ∧ s.ran k i = ⟨k, s.p + 1, none⟩) := by
  unfold Sched.ran
  split_ifs with hrun
  · exact .inl ⟨hrun, rfl⟩
  · exact .inr ⟨hrun, rfl⟩

theorem Sched.Inv.next (h : s.Inv) (hstep : s.step b = some s') : s'.Inv := by
  rcases Sched.step_cases hstep with ⟨q, k, es, -, hq, hk, rfl⟩ | ⟨-, hproc, hnext, rfl⟩ |
    ⟨a, i, k, es, -, hi, ha, hk, rfl⟩ | ⟨c, k, es, -, hk, rfl⟩
  · refine ⟨.step h.reachable trivial ⟨es, hk⟩, ?_, ?_, h.le⟩
    · intro i hi
      obtain rfl := some.inj hi
      exact (Sched.next_eq_some hq).2.1
    · intro i hi
      obtain rfl := some.inj hi
      simp only [ProcTable.step] at hk
      split_ifs at hk
      cases hk
      simp [setProc]
  · refine ⟨h.reachable, by simp, by simp, ?_⟩
    dsimp only
    split_ifs <;> omega
  · have hreach := h.reachable.step trivial ⟨es, hk⟩
    rcases s.ran_cases k i with ⟨hrun, heq⟩ | ⟨-, heq⟩
    · rw [heq]
      refine ⟨hreach, h.here, ?_, h.le⟩
      intro j hj
      obtain rfl : i = j := some.inj (hi.symm.trans hj)
      exact hrun
    · rw [heq]
      refine ⟨hreach, by simp, by simp, ?_⟩
      rw [h.here i hi]
      exact i.isLt
  · refine ⟨.step h.reachable trivial ⟨es, hk⟩, h.here, ?_, h.le⟩
    intro i hi
    have hrun := h.runs i hi
    cases hk
    simp [wakeup1, hrun]

theorem SchedReachable.inv (h : SchedReachable s) : s.Inv := by
  refine Reach.invariant (P := Sched.Inv) ?_ (fun _ _ _ hs _ hstep => hs.next hstep) h
  rintro _ rfl
  exact ⟨.start rfl, by simp, by simp, Nat.zero_le _⟩

/-- `j` waits, and the scan comes to `j` before it comes to `i`. -/
structure Before (i j : Slot) (s : Sched) : Prop where
  waits : (s.k.proc j).state = .RUNNABLE
  order : (s.p ≤ j.val ∧ j < i) ∨ (j < i ∧ i.val < s.p) ∨ (i.val < s.p ∧ s.p ≤ j.val)
  others : ∀ r, s.proc = some r → r ≠ i ∧ r ≠ j

theorem Before.next_ne (h : Before i j s) : s.next ≠ some i := by
  intro hi
  obtain ⟨-, hp, -⟩ := Sched.next_eq_some hi
  have horder := h.order
  rw [lt_def] at horder
  omega

/-- When `i` gives up the processor, the scan has every other slot before it. -/
theorem before_of_end (h : s.Inv) (hi : s.proc = some i) (hstep : s.step b = some s')
    (hend : s'.proc = none) (hj : j ≠ i) (hwaits : (s'.k.proc j).state = .RUNNABLE) :
    Before i j s' := by
  have hne : j.val ≠ i.val := fun heq => hj (Fin.ext heq)
  rcases Sched.step_cases hstep with ⟨q, k, es, -, -, -, rfl⟩ | ⟨-, hproc, -, rfl⟩ |
    ⟨a, r, k, es, -, hr, -, -, rfl⟩ | ⟨c, k, es, -, -, rfl⟩
  · cases hend
  · rw [hi] at hproc
    cases hproc
  · rcases s.ran_cases k r with ⟨-, heq⟩ | ⟨-, heq⟩
    · rw [heq] at hend
      cases hr.symm.trans hend
    · rw [heq] at hwaits ⊢
      refine ⟨hwaits, ?_, by simp⟩
      have hp := h.here i hi
      rw [lt_def]
      dsimp only
      omega
  · cases hi.symm.trans hend

/-- One step of the scan, or of another process, leaves `j` before `i`. -/
theorem Before.next (h : Before i j s) (hinv : s.Inv) (hpass : Passes i j s s') :
    Before i j s' := by
  obtain ⟨b, hstep, hscan, hother⟩ := hpass
  have horder := h.order
  rw [lt_def] at horder
  rcases Sched.step_cases hstep with ⟨q, k, es, rfl, hq, hk, rfl⟩ | ⟨rfl, hproc, hnext, rfl⟩ |
    ⟨a, r, k, es, rfl, hr, -, -, rfl⟩ | ⟨c, k, es, rfl, -, rfl⟩
  · have hne := hscan rfl
    rw [hq] at hne
    have hqi : q ≠ i := fun heq => hne.1 (congrArg some heq)
    have hqj : q ≠ j := fun heq => hne.2 (congrArg some heq)
    refine ⟨?_, h.order, ?_⟩
    · simp only [ProcTable.step] at hk
      split_ifs at hk
      cases hk
      simp [setProc, hqj.symm, h.waits]
    · intro r hr
      obtain rfl := some.inj hr
      exact ⟨hqi, hqj⟩
  · refine ⟨h.waits, ?_, by simp⟩
    have hpj : s.p ≠ j.val := fun hp => Sched.next_eq_none hnext hproc hp h.waits
    have hj := j.isLt
    rw [lt_def]
    dsimp only
    split_ifs <;> omega
  · have hwaits := (hother (by intro hb; cases hb)).trans h.waits
    rcases s.ran_cases k r with ⟨-, heq⟩ | ⟨-, heq⟩
    · rw [heq] at hwaits ⊢
      exact ⟨hwaits, h.order, h.others⟩
    · rw [heq] at hwaits ⊢
      refine ⟨hwaits, ?_, by simp⟩
      have hp := hinv.here r hr
      have hri : r.val ≠ i.val := fun heq => (h.others r hr).1 (Fin.ext heq)
      have hrj : r.val ≠ j.val := fun heq => (h.others r hr).2 (Fin.ext heq)
      rw [lt_def]
      dsimp only
      omega
  · exact ⟨(hother (by intro hb; cases hb)).trans h.waits, h.order, h.others⟩

theorem Passes.inv (h : s.Inv) (hpass : Passes i j s s') : s'.Inv :=
  h.next hpass.choose_spec.1

theorem before_of_passes {s₁ s₂ : Sched} (h : Before i j s₁) (hinv : s₁.Inv)
    (hrun : Relation.ReflTransGen (Passes i j) s₁ s₂) : Before i j s₂ := by
  suffices Before i j s₂ ∧ s₂.Inv from this.1
  induction hrun with
  | refl => exact ⟨h, hinv⟩
  | tail _ hpass ih => exact ⟨ih.1.next ih.2 hpass, hpass.inv ih.2⟩

/-- The new slot `np` of `clone` is a child of the caller, in its process. -/
structure Kin (i np : Slot) (k : Kernel) : Prop where
  caller : (k.proc i).state = .RUNNABLE
  thread : (k.proc np).state = .RUNNABLE
  pid : (k.proc np).pid = (k.proc i).pid
  parent : (k.proc np).parent = some i

variable {np : Slot}

/-- What another slot does cannot end `np` without ending `i`. -/
theorem Kin.next (h : Kin i np k) (hsane : Sane k.view)
    (hstep : step k a = some (k', es)) (hi : a.slot ≠ some i) (hnp : a.slot ≠ some np)
    (hcaller : (k'.proc i).state = .RUNNABLE) : Kin i np k' := by
  have hlive : k.view.Live np := phase_live.mpr (.inr (.inl h.thread))
  have hilive : k.view.Live i := phase_live.mpr (.inr (.inl h.caller))
  have hilive' : k'.view.Live i := phase_live.mpr (.inr (.inl hcaller))
  have hlive' : k'.view.Live np := by
    by_cases hexit : ∃ r, a = .exit r
    · obtain ⟨r, rfl⟩ := hexit
      simp only [step] at hstep
      split_ifs at hstep
      cases hstep
      have hri : i ≠ r := fun heq => hi (congrArg some heq.symm)
      have hrnp : np ≠ r := fun heq => hnp (congrArg some heq.symm)
      refine (phase_exit hsane hlive).2 hrnp ?_
      intro hends
      unfold Ends at hends
      split_ifs at hends with ht
      · have hendsi : Ends k r i := by
          unfold Ends
          rw [if_pos ht, ← h.pid]
          exact hends
        have hzombie := (phase_exit hsane hilive).1 (.inr hendsi)
        exact absurd (hilive'.symm.trans hzombie) (by decide)
      · exact hri (some.inj (h.parent.symm.trans hends.1))
    · refine live_of_move hsane (step_move hstep) (fun r hr => hexit ⟨r, hr⟩) ?_ hlive
      rintro r rfl
      exact hnp rfl
  obtain ⟨hpid, hparent⟩ := kin_of_move hsane (step_move hstep) hlive hlive'
  obtain ⟨hipid, -⟩ := kin_of_move hsane (step_move hstep) hilive hilive'
  refine ⟨hcaller, runnable_of_step hstep h.thread hnp hlive', ?_, ?_⟩
  · exact hpid.trans (h.pid.trans hipid.symm)
  · rcases hparent with hparent | ⟨r, hr, har⟩
    · exact hparent.trans h.parent
    · have hrs : some i = some r := h.parent.symm.trans hr
      exact absurd (har.trans hrs.symm) hi

theorem kin_of_cloneDone {f x st : Word} (hsane : Sane k.view)
    (hrun : (k.proc i).state = .RUNNING) (hpc : k.pc i = .cloneNext np f x st) :
    np ≠ i ∧ Kin i np (cloneDone k i np f x st).1 := by
  have hlive : k.view.Live i := phase_live.mpr (.inr (.inr hrun))
  have hhold : k.view.hold i = some (.counted, np) := congrArg Pc.hold hpc
  have hheld := hsane.held i .counted np hlive hhold
  have hne : np ≠ i := (hheld.ne_live hlive)
  obtain ⟨hparent, -, hpid, -⟩ := hheld.tied rfl
  have hmain : ∀ (m q : Slot) (n : ℤ),
      (update k.proc m { k.proc m with numOfThread := n } q).pid = (k.proc q).pid ∧
      (update k.proc m { k.proc m with numOfThread := n } q).parent = (k.proc q).parent := by
    intro m q n
    by_cases hq : q = m
    · subst hq
      rw [update_self]
      exact ⟨rfl, rfl⟩
    · rw [update_of_ne hq]
      exact ⟨rfl, rfl⟩
  refine ⟨hne, ?_⟩
  unfold cloneDone
  cases mainSlot k.proc (k.proc i).pid with
  | none =>
    refine ⟨?_, ?_, ?_, ?_⟩
    all_goals simp [setState, setProc, hne, hne.symm]
    · exact hpid
    · exact hparent
  | some m =>
    refine ⟨?_, ?_, ?_, ?_⟩
    all_goals simp [setState, setProc, hne, hne.symm]
    · rw [(hmain m np _).1, (hmain m i _).1]
      exact hpid
    · rw [(hmain m np _).2]
      exact hparent

/-- A step of the machine in which neither slot is dispatched is a step of another process, a
wakeup, or the dispatch of another slot. -/
theorem Kin.awaits (h : Kin i np s.k) (hinv : s.Inv) (hb : Before i np s)
    (hstep : Awaits i np s s') : Kin i np s'.k ∧ Passes i np s s' := by
  obtain ⟨b, hstep, hscan, hcaller⟩ := hstep
  have hsane := reachable_sane hinv.reachable
  have hkin : Kin i np s'.k := by
    rcases Sched.step_cases hstep with ⟨q, k, es, rfl, hq, hk, rfl⟩ | ⟨-, -, -, rfl⟩ |
      ⟨a, r, k, es, -, hr, ha, hk, rfl⟩ | ⟨c, k, es, -, hk, rfl⟩
    · have hne := hscan rfl
      rw [hq] at hne
      exact h.next hsane hk hne.1 hne.2 hcaller
    · exact h
    · have hran : (s.ran k r).k = k := by
        rcases s.ran_cases k r with ⟨-, heq⟩ | ⟨-, heq⟩
        · rw [heq]
        · rw [heq]
      obtain ⟨hri, hrnp⟩ := hb.others r hr
      rw [hran] at hcaller ⊢
      refine h.next hsane hk ?_ ?_ hcaller
      · rw [ha]
        exact fun heq => hri (some.inj heq)
      · rw [ha]
        exact fun heq => hrnp (some.inj heq)
    · exact h.next hsane hk (by intro hc; cases hc) (by intro hc; cases hc) hcaller
  exact ⟨hkin, b, hstep, hscan, fun _ => hkin.thread.trans h.thread.symm⟩

theorem before_of_awaits {s₁ s₂ : Sched} (hkin : Kin i np s₁.k) (h : Before i np s₁)
    (hinv : s₁.Inv) (hrun : Relation.ReflTransGen (Awaits i np) s₁ s₂) : Before i np s₂ := by
  suffices Before i np s₂ ∧ Kin i np s₂.k ∧ s₂.Inv from this.1
  induction hrun with
  | refl => exact ⟨h, hkin, hinv⟩
  | tail _ hstep ih =>
    obtain ⟨hb, hkin, hinv⟩ := ih
    obtain ⟨hkin', hpass⟩ := hkin.awaits hinv hb hstep
    exact ⟨hb.next hinv hpass, hkin', hpass.inv hinv⟩

/-- `cloneDone` gives up the processor with both slots RUNNABLE. -/
theorem end_of_cloneDone {f x st : Word} (h : s.Inv) (hi : s.proc = some i)
    (hpc : s.k.pc i = .cloneNext np f x st) (hstep : s.step (.run (.cloneDone i)) = some s') :
    s'.proc = none ∧ np ≠ i ∧ Kin i np s'.k := by
  rcases Sched.step_cases hstep with ⟨_, _, _, hb, -⟩ | ⟨hb, -⟩ |
    ⟨a, r, k, es, hb, hr, -, hk, rfl⟩ | ⟨_, _, _, hb, -⟩
  · cases hb
  · cases hb
  · cases hb
    obtain rfl : i = r := some.inj (hi.symm.trans hr)
    have hsane := reachable_sane h.reachable
    have hrun := h.runs i hi
    obtain ⟨hne, hkin⟩ := kin_of_cloneDone hsane hrun hpc
    have hk' : (cloneDone s.k i np f x st).1 = k := by
      simp only [step, hpc, running, hrun] at hk
      exact congrArg Prod.fst (some.inj hk)
    rw [hk'] at hkin
    rcases s.ran_cases k i with ⟨hrun', -⟩ | ⟨-, heq⟩
    · cases hkin.caller.symm.trans hrun'
    · rw [heq]
      exact ⟨rfl, hne, hkin⟩
  · cases hb

end

/-- Round robin. Slot `i` has the processor in `s` and the step to `s₁` gives it up. As long as a
slot `j` that is RUNNABLE then, and whose state only the scheduler changes, is not dispatched, the
scheduler does not come back to `i`. The slot that `clone` makes is such a slot as long as its
creator is still there to run. -/
theorem round_robin {s s₁ s₂ : Sched} {i : Slot} {b : SchedAct} (h : SchedReachable s)
    (hi : s.proc = some i) (hstep : s.step b = some s₁) :
    (∀ j, j ≠ i → s₁.proc = none → (s₁.k.proc j).state = .RUNNABLE →
      Relation.ReflTransGen (Passes i j) s₁ s₂ → s₂.next ≠ some i) ∧
    (∀ np f x st, b = .run (.cloneDone i) → s.k.pc i = .cloneNext np f x st →
      Relation.ReflTransGen (Awaits i np) s₁ s₂ → s₂.next ≠ some i) := by
  have hinv := SchedReachable.inv h
  have hinv₁ := hinv.next hstep
  constructor
  · intro j hj hend hwaits hrun
    have hbefore := before_of_end hinv hi hstep hend hj hwaits
    exact (before_of_passes hbefore hinv₁ hrun).next_ne
  · rintro np f x st rfl hpc hrun
    obtain ⟨hend, hne, hkin⟩ := end_of_cloneDone hinv hi hpc hstep
    have hbefore := before_of_end hinv hi hstep hend hne hkin.thread
    exact (before_of_awaits hkin hbefore hinv₁ hrun).next_ne

/-- Slot 0 forks slot 1 and makes the thread in slot 2, which waits while slot 1 is dispatched. -/
theorem round_robin_clone : ∃ s s₁ s₂ : Sched, SchedReachable s ∧ s.proc = some 0 ∧
    s.step (.run (.cloneDone 0)) = some s₁ ∧ s₁.proc = none ∧
    (s₁.k.proc 2).state = .RUNNABLE ∧ s₁.step .scan = some s₂ ∧ s₂.proc = some 1 ∧
    Passes 0 2 s₁ s₂ ∧ Awaits 0 2 s₁ s₂ ∧ s₂.next ≠ some 0 := by
  have hboot : SchedReachable ⟨boot, 0, none⟩ := .start rfl
  obtain ⟨s, hs, hp⟩ := Reach.exists_of_execs (fun _ _ => true) Sched.step
    (fun s => s.proc = some 0 ∧ s.k.pc 0 = .cloneNext 2 0 0 4096 ∧
      (s.step (.run (.cloneDone 0))).any fun s₁ => s₁.proc = none ∧ s₁.next = some 1 ∧
        (s₁.k.proc 2).state = .RUNNABLE ∧
        (s₁.step .scan).any fun s₂ => s₂.proc = some 1 ∧ (s₂.k.proc 0).state = .RUNNABLE)
    (fun _ _ _ => trivial) (fun _ _ _ h => h)
    ([.scan, .run (.fork 0 true), .run (.forkCopy 0 (some 2) true),
      .run (.clone 0 0 0 4096 true), .run (.clonePid 0), .run (.cloneNext 0)] : List SchedAct)
    hboot (by decide +kernel)
  simp only [decide_eq_true_eq, any_eq_true] at hp
  obtain ⟨hproc, hpc, s₁, hs₁, hend, hnext, hwaits, s₂, hs₂, hone, hzero⟩ := hp
  have hne : s₁.next ≠ some 0 ∧ s₁.next ≠ some 2 := by
    rw [hnext]
    decide
  have hpass : Passes 0 2 s₁ s₂ := ⟨.scan, hs₂, fun _ => hne, fun h => absurd rfl h⟩
  have hawait : Awaits 0 2 s₁ s₂ := ⟨.scan, hs₂, fun _ => hne, hzero⟩
  refine ⟨s, s₁, s₂, hs, hproc, hs₁, hend, hwaits, hs₂, hone, hpass, hawait, ?_⟩
  exact (round_robin hs hproc hs₁).2 2 0 0 4096 rfl hpc (.single hawait)

end Xv6Threads.ProcTable
