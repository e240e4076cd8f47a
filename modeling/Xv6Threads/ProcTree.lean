import Mathlib.Data.Fintype.Card
import Xv6Threads.Creation

namespace Xv6Threads.ProcTable

open View Node

theorem exit_step {k k' : Kernel} {i : Slot} {es : List Event}
    (h : step k (.exit i) = some (k', es)) :
    running k i = true ∧ k.pc i = .user ∧ i ≠ k.initproc ∧ k' = exit k i := by
  cases stepped_of_step h with
  | exit hi => exact ⟨hi.1, hi.2.1, hi.2.2, rfl⟩

def Node.Over (n : Node) : Prop := n.phase = .zombie ∨ n.phase = .unused

theorem over_iff (p : Proc) : p.node.Over ↔ p.state = .ZOMBIE ∨ p.state = .UNUSED := by
  rw [Node.Over, node_phase, phase_zombie, phase_unused]

theorem endAll_over (v : View) (i q : Slot)
    (hq : (((v.endAll (v.node i).pid).die i).node q).pid = (v.node i).pid) :
    (((v.endAll (v.node i).pid).die i).node q).Over := by
  rw [v.die_endAll_node] at hq ⊢
  split_ifs at hq ⊢ with hpid
  · exact .inl (ended_phase _)
  · exact absurd hq hpid

/-- The loop of a main thread's `exit` reaches its own children that share its directory. -/
theorem reparent_over_iff {v : View} {i : Slot} (h : Sane v) :
    (∀ q, (((v.reparent i fun n => n.pgdir != (v.node i).pgdir).die i).node q).pid =
        (v.node i).pid →
      (((v.reparent i fun n => n.pgdir != (v.node i).pgdir).die i).node q).Over) ↔
    ∀ q ≠ i, (v.node q).pid = (v.node i).pid → ¬(v.node q).Over →
      (v.node q).parent = some i ∧ (v.node q).pgdir = (v.node i).pgdir := by
  have hn := v.die_reparent_node i (fun n => n.pgdir != (v.node i).pgdir) (h.noSelf i)
  constructor
  · intro hall q hqi hpid hover
    have hq := hall q
    rw [hn, if_neg hqi] at hq
    split_ifs at hq with hparent
    · refine ⟨hparent, ?_⟩
      by_contra hpg
      have hkeep : ((v.node q).pgdir != (v.node i).pgdir) = true := by simpa using hpg
      rw [passOn_pid, Node.Over, passOn_phase, hkeep, if_pos rfl] at hq
      exact hover (hq hpid)
    · exact absurd (hq hpid) hover
  · intro hall q
    rw [hn]
    split_ifs with hqi hparent
    · exact fun _ => .inl rfl
    · rw [passOn_pid, Node.Over, passOn_phase]
      intro hpid
      split_ifs with hkeep
      · by_contra hover
        have hpg := (hall q hqi hpid hover).2
        simp [hpg] at hkeep
      · exact .inl rfl
    · intro hpid
      by_contra hover
      exact hparent (hall q hqi hpid hover).1

/-- `exit` leaves nothing running of the caller's process exactly when the caller is a thread,
or is the main thread and created every other thread itself. -/
theorem exit_ends_process_iff {k k' : Kernel} {i : Slot} {es : List Event}
    (hk : Reachable (fun _ _ => True) k) (h : step k (.exit i) = some (k', es)) :
    (∀ q, (k'.proc q).pid = (k.proc i).pid →
        (k'.proc q).state = .ZOMBIE ∨ (k'.proc q).state = .UNUSED) ↔
      (k.proc i).isThread = true ∨
      ∀ q, q ≠ i → (k.proc q).pid = (k.proc i).pid →
        ¬((k.proc q).state = .ZOMBIE ∨ (k.proc q).state = .UNUSED) →
        (k.proc q).parent = some i ∧ (k.proc q).pgdir = (k.proc i).pgdir := by
  obtain ⟨-, -, -, rfl⟩ := exit_step h
  simp only [← over_iff, ← node_pid, ← node_pgdir, ← node_parent, ← view_node]
  cases ht : (k.proc i).isThread with
  | true =>
    rw [view_exit_thread k i ht]
    exact ⟨fun _ => .inl rfl, fun _ => endAll_over k.view i⟩
  | false =>
    rw [view_exit_main k i ht]
    simpa using reparent_over_iff (reachable_sane hk)

/-- The thread in slot 2 creates the thread in slot 3, and slot 1 is running again. -/
def nestedThread : List Act := oneThread ++ .dispatch 2 :: creates 2 ++ [.dispatch 1]

theorem exit_leaves_nested_thread :
    ∃ k k' es, Reachable (fun _ _ => True) k ∧ step k (.exit 1) = some (k', es) ∧
      (k'.proc 3).pid = (k.proc 1).pid ∧ (k'.proc 3).state = .RUNNABLE := by
  obtain ⟨k, hk, hp⟩ := exists_run (fun k => (step k (.exit 1)).any fun r =>
      (r.1.proc 3).pid = (k.proc 1).pid ∧ (r.1.proc 3).state = .RUNNABLE)
    nestedThread (by decide +kernel)
  obtain ⟨⟨k', es⟩, hstep, hq⟩ := (Option.any_eq_true _ _).mp hp
  exact ⟨k, k', es, hk, hstep, of_decide_eq_true hq⟩

theorem exit_ends_process_iff_one_thread :
    ∃ k k' es, Reachable (fun _ _ => True) k ∧ step k (.exit 1) = some (k', es) ∧
      ∀ q, (k'.proc q).pid = (k.proc 1).pid →
        (k'.proc q).state = .ZOMBIE ∨ (k'.proc q).state = .UNUSED := by
  obtain ⟨k, hk, hp⟩ := exists_run
    (fun k => (step k (.exit 1)).isSome && decide (∀ q, q ≠ 1 → (k.proc q).pid = (k.proc 1).pid →
        ¬((k.proc q).state = .ZOMBIE ∨ (k.proc q).state = .UNUSED) →
        (k.proc q).parent = some 1 ∧ (k.proc q).pgdir = (k.proc 1).pgdir))
    (oneThread ++ [.dispatch 1]) (by decide +kernel)
  rw [Bool.and_eq_true, Option.isSome_iff_exists, decide_eq_true_eq] at hp
  obtain ⟨⟨⟨k', es⟩, hstep⟩, hcond⟩ := hp
  exact ⟨k, k', es, hk, hstep, (exit_ends_process_iff hk hstep).mpr (.inr hcond)⟩

/-- The process that calls `exit`. -/
def Act.exits : Act → Option Slot
  | .exit i => some i
  | _ => none

/-- Only main threads call `exit`, and only without a child in their own page directory, that
is after joining the threads they created. -/
def JoinedFirst (k : Kernel) (a : Act) : Prop :=
  ∀ i ∈ a.exits, (k.proc i).isThread = false ∧
    ∀ q, (k.proc q).parent = some i → (k.proc q).pgdir ≠ (k.proc i).pgdir

/-- Every slot but init's that is neither UNUSED nor EMBRYO has a parent that is neither UNUSED
nor ZOMBIE. -/
def Rooted (k : Kernel) : Prop :=
  ∀ q, q ≠ k.initproc → (k.proc q).state ≠ .UNUSED → (k.proc q).state ≠ .EMBRYO →
    ∃ p, (k.proc q).parent = some p ∧ (k.proc p).state ≠ .UNUSED ∧ (k.proc p).state ≠ .ZOMBIE

structure Tree (v : View) : Prop where
  sane : Sane v
  init : v.Live v.init
  parent : ∀ q, q ≠ v.init → (v.node q).phase = .live ∨ (v.node q).phase = .zombie →
    ∃ p, (v.node q).parent = some p ∧ v.Live p

variable {v v' : View} {i p np z : Slot}

theorem Tree.frame (h : Tree v) (hsane : Sane v') (hinit : v'.init = v.init)
    (hlive : ∀ q, v.Live q → v'.Live q)
    (hstay : ∀ q, (v'.node q).phase = .live ∨ (v'.node q).phase = .zombie →
      ((v.node q).phase = .live ∨ (v.node q).phase = .zombie) ∧
          (v'.node q).parent = (v.node q).parent ∨
        ∃ p, (v'.node q).parent = some p ∧ v'.Live p) : Tree v' where
  sane := hsane
  init := hinit ▸ hlive _ h.init
  parent q hq hphase := by
    rcases hstay q hphase with ⟨hold, hparent⟩ | hnew
    · obtain ⟨p, hp, hpl⟩ := h.parent q (hinit ▸ hq) hold
      exact ⟨p, hparent.trans hp, hlive p hpl⟩
    · exact hnew

theorem Tree.update (h : Tree v) (hsane : Sane v') (hinit : v'.init = v.init)
    (hp : ¬v.Live p) (hn : ∀ q ≠ p, (v'.node q).phase = (v.node q).phase ∧
      (v'.node q).parent = (v.node q).parent)
    (hnew : (v'.node p).phase = .live ∨ (v'.node p).phase = .zombie →
      ((v.node p).phase = .live ∨ (v.node p).phase = .zombie) ∧
          (v'.node p).parent = (v.node p).parent ∨
        ∃ i, (v'.node p).parent = some i ∧ v.Live i) : Tree v' := by
  have hlive : ∀ q, v.Live q → v'.Live q := by
    intro q hq
    have hqp : q ≠ p := fun hqp => hp (hqp ▸ hq)
    rw [View.Live, (hn q hqp).1]
    exact hq
  apply h.frame hsane hinit hlive
  intro q hq
  by_cases hqp : q = p
  · subst hqp
    rcases hnew hq with hold | ⟨i, hi, hil⟩
    · exact .inl hold
    · exact .inr ⟨i, hi, hlive i hil⟩
  · rw [(hn q hqp).1] at hq
    exact .inl ⟨hq, (hn q hqp).2⟩

theorem Tree.leave (h : Tree v) (hi : v.Live i) (hinit : i ≠ v.init) (keep : Node → Bool)
    (hkeep : ∀ q, (v.node q).parent = some i → keep (v.node q) = true)
    (hsane : Sane ((v.reparent i keep).die i)) : Tree ((v.reparent i keep).die i) := by
  have hn := v.die_reparent_node i keep (h.sane.noSelf i)
  have hlive : ∀ q ≠ i, v.Live q → ((v.reparent i keep).die i).Live q := by
    intro q hqi hq
    rw [View.Live, hn, if_neg hqi]
    split_ifs with hparent
    · rw [passOn_phase, hkeep q hparent]
      exact hq
    · exact hq
  refine ⟨hsane, hlive _ hinit.symm h.init, ?_⟩
  intro q hq hphase
  rw [show ((v.reparent i keep).die i).init = v.init from rfl] at hq
  rw [hn] at hphase ⊢
  split_ifs at hphase ⊢ with hqi hparent
  · obtain ⟨p, hp, hpl⟩ := h.parent i hinit (.inl hi)
    refine ⟨p, hp, hlive p ?_ hpl⟩
    intro hpi
    exact h.sane.noSelf i (hpi ▸ hp)
  · rw [passOn_parent, hkeep q hparent]
    exact ⟨v.init, rfl, hlive _ hinit.symm h.init⟩
  · obtain ⟨p, hp, hpl⟩ := h.parent q hq hphase
    refine ⟨p, hp, hlive p ?_ hpl⟩
    intro hpi
    exact hparent (hpi ▸ hp)

theorem Tree.move {a : Act} (h : Tree v) (hm : Move v a v')
    (hok : ∀ i ∈ a.exits, (v.node i).isThread = false ∧
      ∀ q, (v.node q).parent = some i → (v.node q).pgdir ≠ (v.node i).pgdir) : Tree v' := by
  have hsane := h.sane.move hm
  -- a slot somebody is creating is not running
  have held : ∀ {i s np}, v.Live i → v.hold i = some (s, np) → ¬v.Live np := fun hi hold hnp =>
    (h.sane.held _ _ _ hi hold).ne_live hnp rfl
  have unused : ∀ {p}, (v.node p).phase = .unused → ¬v.Live p := fun hp hpl =>
    hpl.ne_unused hp rfl
  cases hm with
  | quiet => exact h
  | forkNoStack _ _ hp | cloneNoStack _ _ hp | fork _ _ hp | clone _ _ hp =>
    apply h.update hsane rfl (unused hp)
    · intro q hq
      simp [alloc, v.fresh_node_of_ne _ _ hq]
    · simp [alloc, v.fresh_node_self]
  | forkFail hi hold =>
    apply h.update hsane rfl (held hi hold)
    · intro q hq
      simp [forkFail, hq]
    · simp [forkFail]
  | forkDone hi hold | clonePid hi hold =>
    apply h.update hsane rfl (held hi hold)
    · intro q hq
      simp [forkDone, View.clonePid, hq]
    · exact fun _ => .inr ⟨_, by simp [forkDone, View.clonePid], hi⟩
  | cloneNext hi hold => exact h.frame hsane rfl (fun _ hq => hq) fun _ hq => .inl ⟨hq, rfl⟩
  | cloneDone hi hold | cloneLost hi hold =>
    have hparent := ((h.sane.held _ _ _ hi hold).tied rfl).1
    apply h.update hsane rfl (held hi hold)
    · intro q hq
      simp [start, hq]
    · exact fun _ => .inr ⟨_, by simpa [start] using hparent, hi⟩
  | exitThreads hi hidle hinit ht =>
    have := (hok _ rfl).1
    rw [ht] at this
    cases this
  | exitMain hi hidle hinit ht =>
    apply h.leave hi hinit _ _ hsane
    intro q hq
    simpa using (hok _ rfl).2 q hq
  | threadExit hi hidle hinit => exact h.leave hi hinit _ (fun _ _ => rfl) hsane
  | reap hi hidle hz hzombie =>
    apply h.update (p := _) hsane rfl
    · rw [View.Live, hzombie]
      simp
    · intro q hq
      simp [reap, hq]
    · simp [reap]
  | join hi hidle hz ht hzombie =>
    apply h.update hsane rfl
    · rw [View.Live, hzombie]
      simp
    · intro q hq
      simp [join, hq]
    · simp [join]
  | exec hi hidle hg =>
    have hn := v.exec_node
    refine h.frame hsane rfl ?_ ?_
    · intro q
      simp [View.Live, hn]
    · intro q
      rw [hn]
      exact fun hq => .inl ⟨hq, rfl⟩

theorem reachable_tree {k : Kernel} (h : Reachable JoinedFirst k) : Tree k.view := by
  apply Reach.invariant (P := fun k => Tree k.view) _ _ h
  · intro k hk
    subst hk
    refine ⟨sane_boot, rfl, fun q hq hphase => ?_⟩
    have hq : q ≠ 0 := hq
    simp [boot, hq, unused, ProcState.phase] at hphase
  · intro k a k' hk hok hstep
    obtain ⟨es, hstep⟩ := hstep
    exact hk.move (step_move hstep) hok

theorem Tree.rooted {k : Kernel} (h : Tree k.view) : Rooted k := by
  intro q hq hunused hembryo
  have hphase : (k.view.node q).phase = .live ∨ (k.view.node q).phase = .zombie := by
    simp only [view_node, node_phase]
    cases hs : (k.proc q).state <;> simp_all [ProcState.phase]
  obtain ⟨p, hp, hpl⟩ := h.parent q hq hphase
  refine ⟨p, hp, ?_, ?_⟩ <;> intro hs <;> simp [View.Live, hs, ProcState.phase] at hpl

/-- The children of `p` that `wait` can free. -/
def zombies (k : Kernel) (p : Slot) : Finset Slot :=
  {q | (k.proc q).parent = some p ∧ (k.proc q).state = .ZOMBIE}

/-- A scan of `wait` frees one zombie child and touches no other slot. -/
theorem wait_frees {k : Kernel} {p : Slot} (h : (zombies k p).Nonempty) :
    ∃ y ∈ zombies k p, ((wait k p).1.proc y).state = .UNUSED ∧
      ∀ q ≠ y, (wait k p).1.proc q = k.proc q := by
  unfold wait
  split
  · rename_i y hy
    refine ⟨y, by simpa [zombies] using List.find?_some hy, ?_, ?_⟩
    · simp [setPc, setProc, freevm]
    · intro q hq
      simp [setPc, setProc, freevm, hq]
  · rename_i hnone
    obtain ⟨q, hq⟩ := h
    rw [List.find?_eq_none] at hnone
    exact absurd (by simpa [zombies] using hq) (hnone q (List.mem_finRange q))

theorem waits_reap {k : Kernel} {p z : Slot} (hz : z ∈ zombies k p) :
    ∃ n, (((fun k => (wait k p).1)^[n] k).proc z).state = .UNUSED := by
  induction hn : (zombies k p).card generalizing k with
  | zero =>
    rw [Finset.card_eq_zero] at hn
    rw [hn] at hz
    cases hz
  | succ m ih =>
    obtain ⟨y, hy, hfreed, hother⟩ := wait_frees ⟨z, hz⟩
    by_cases hzy : z = y
    · exact ⟨1, hzy ▸ hfreed⟩
    · have herase : zombies (wait k p).1 p = (zombies k p).erase y := by
        ext q
        by_cases hq : q = y
        · subst hq
          simp [zombies, hfreed]
        · simp [zombies, hother q hq, hq]
      obtain ⟨n, hn'⟩ := ih (k := (wait k p).1)
        (by rw [herase]; exact Finset.mem_erase.mpr ⟨hzy, hz⟩)
        (by rw [herase, Finset.card_erase_of_mem hy, hn]; rfl)
      exact ⟨n + 1, hn'⟩

theorem Tree.exit_rooted {k k' : Kernel} {i : Slot} {es : List Event} (h : Tree k.view)
    (hstep : step k (.exit i) = some (k', es)) (hroot : Rooted k') : JoinedFirst k (.exit i) := by
  obtain ⟨hi, hpc, hinit, rfl⟩ := exit_step hstep
  -- a zombie without a parent would break `Rooted`
  have key : ∀ q ≠ k.initproc, ((exit k i).view.node q).phase = .zombie →
      ((exit k i).view.node q).parent ≠ none := by
    intro q hq hphase hnone
    have hs : ((exit k i).proc q).state = .ZOMBIE := phase_zombie.mp hphase
    obtain ⟨p, hp, -⟩ := hroot q hq (by rw [hs]; simp) (by rw [hs]; simp)
    rw [view_node, node_parent, hp] at hnone
    cases hnone
  intro j hj
  cases hj
  cases ht : (k.proc i).isThread with
  | true =>
    rw [view_exit_thread k i ht] at key
    have hn : ((k.view.endAll (k.proc i).pid).die i).node i = (k.view.node i).ended :=
      (k.view.die_endAll_node i i).trans (if_pos rfl)
    have hnone := key i hinit (by rw [hn, ended_phase])
    rw [hn, ended_parent] at hnone
    exact absurd (if_pos ht) hnone
  | false =>
    rw [view_exit_main k i ht] at key
    have hn := k.view.die_reparent_node i (fun n => n.pgdir != (k.view.node i).pgdir)
      (h.sane.noSelf i)
    refine ⟨rfl, fun q hq hpg => ?_⟩
    have hqi : q ≠ i := fun hqi => h.sane.noSelf i (hqi ▸ hq)
    have hqr : q ≠ k.initproc := by
      intro hqr
      have hroot := h.sane.root.1
      rw [view_init, ← hqr, view_node, node_parent, hq] at hroot
      cases hroot
    have hkeep : ((k.view.node q).pgdir != (k.view.node i).pgdir) = false := by simpa using hpg
    have hq' := hn q
    rw [if_neg hqi, if_pos (show (k.view.node q).parent = some i from hq), hkeep] at hq'
    exact key q hqr (by rw [hq', passOn_phase]; rfl) (by rw [hq', passOn_parent]; rfl)

/-- In every run in which only main threads exit, each after joining its threads: every
process has a running parent, every zombie is freed by scans of its parent's `wait`, a free
slot is nobody's parent; and the condition on `exit` cannot be weakened. -/
theorem processes_keep_running_parents {k : Kernel} (h : Reachable JoinedFirst k) :
    Rooted k ∧
    (∀ z, z ≠ k.initproc → (k.proc z).state = .ZOMBIE → ∃ p n, (k.proc z).parent = some p ∧
      (((fun k => (wait k p).1)^[n] k).proc z).state = .UNUSED) ∧
    (∀ p q, (k.proc p).state = .UNUSED → (k.proc q).state ≠ .UNUSED →
      (k.proc q).state ≠ .EMBRYO → (k.proc q).parent ≠ some p) ∧
    ∀ i k' es, step k (.exit i) = some (k', es) → (Rooted k' ↔ JoinedFirst k (.exit i)) := by
  have htree := reachable_tree h
  refine ⟨htree.rooted, ?_, ?_, ?_⟩
  · intro z hz hs
    obtain ⟨p, hp, -⟩ := htree.rooted z hz (by rw [hs]; simp) (by rw [hs]; simp)
    obtain ⟨n, hn⟩ := waits_reap (k := k) (p := p) (z := z) (by simp [zombies, hp, hs])
    exact ⟨p, n, hp, hn⟩
  · intro p q hp hunused hembryo hparent
    by_cases hq : q = k.initproc
    · subst hq
      have hnone : (k.proc k.initproc).parent = none := htree.sane.root.1
      rw [hnone] at hparent
      cases hparent
    · obtain ⟨p', hp', hused, -⟩ := htree.rooted q hq hunused hembryo
      rw [hparent] at hp'
      obtain rfl := Option.some.inj hp'
      exact hused hp
  · intro i k' es hstep
    refine ⟨htree.exit_rooted hstep, fun hok => ?_⟩
    exact (htree.move (step_move hstep) hok).rooted

theorem exit_orphans_zombie_thread :
    ∃ k, Reachable (fun _ _ => True) k ∧ k.initproc = 0 ∧
      (k.proc 2).state = .ZOMBIE ∧ (k.proc 2).parent = none := by
  obtain ⟨k, hk, hp⟩ := exists_run
    (fun k => k.initproc = 0 ∧ (k.proc 2).state = .ZOMBIE ∧ (k.proc 2).parent = none)
    (oneThread ++ [.dispatch 1, .exit 1]) (by decide +kernel)
  exact ⟨k, hk, of_decide_eq_true hp⟩

instance (k : Kernel) (a : Act) : Decidable (JoinedFirst k a) :=
  inferInstanceAs (Decidable (∀ i ∈ a.exits, _))

theorem processes_keep_running_parents_after_join :
    ∃ k, Reachable JoinedFirst k ∧ (k.proc 1).state = .ZOMBIE ∧ Rooted k := by
  obtain ⟨k, hk, hp⟩ := exists_reachable (fun k a => decide (JoinedFirst k a))
    (fun _ _ => of_decide_eq_true) (fun k => (k.proc 1).state = .ZOMBIE)
    (oneThread ++ [.dispatch 2, .threadExit 2 0, .dispatch 1, .threadJoin 1 1 0, .lockAcquire 1,
      .waitThread 1, .lockRelease 1, .exit 1]) (by decide +kernel)
  exact ⟨k, hk, of_decide_eq_true hp, (processes_keep_running_parents hk).1⟩

end Xv6Threads.ProcTable
