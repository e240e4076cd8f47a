import Xv6Threads.PageDirs
import Xv6Threads.SlotSteps

namespace Xv6Threads.ProcTable

variable {k k' : Kernel} {a : Act} {es : List Event} {i p q : Slot}

/-- A `fork` or `clone` under way is creating `p`. -/
def Awaited (k : Kernel) (p : Slot) : Prop :=
  ∃ i, (k.proc i).state.Runs ∧ (k.pc i).hold.map Prod.snd = some p

/-- The slot `kill` takes, if there is one, is neither UNUSED nor still being created. -/
def KillsStarted (k : Kernel) : Act → Prop
  | .kill _ pid => ∀ p ∈ slots.find? fun p => (k.proc p).pid = pid,
      (k.proc p).state ≠ .UNUSED ∧ ¬Awaited k p
  | _ => True

theorem killed_of_step (h : step k a = some (k', es)) (hq : (k'.proc q).killed = true) :
    (k.proc q).killed = true ∨ ∃ i pid, a = .kill i pid ∧
      q ∈ slots.find? fun p => (k.proc p).pid = pid := by
  have hbody : ∀ {b : Body}, (k'.proc q).body = b → b.killed = true :=
    fun h => (congrArg Body.killed h).symm.trans hq
  cases step_change h q with
  | stir hs => exact .inl (hbody hs.body)
  | kill hfind hx hs => exact .inr ⟨_, _, rfl, hfind⟩
  | alloc kalloc hunused hx hs | forkFail hpc hi hx hs | forkDone hpc hi hx hs
  | clonePid hpc hi hx hs | exit hx hs | threadExit hx hs => exact .inl (hbody hx)
  | reap hparent hzombie hx hs | join hparent hzombie hx hs => cases hbody hx

/-- A slot becomes UNUSED when it is reaped, or when its `fork` fails. -/
theorem unused_of_step (h : step k a = some (k', es)) (hq : (k'.proc q).state = .UNUSED) :
    (k.proc q).state = .UNUSED ∨ (∃ i, running k i = true ∧ k.pc i = .fork q) ∨
      (k'.proc q).killed = false := by
  cases step_change h q with
  | stir hs => exact .inl ((hs.unborn (.inl hq)).trans hq)
  | kill hfind hx hs => exact .inl ((hs (.inl hq)).trans hq)
  | alloc kalloc hunused hx hs => exact .inl hunused
  | forkFail hpc hi hx hs | forkDone hpc hi hx hs => exact .inr (.inl ⟨_, hi, hpc⟩)
  | clonePid hpc hi hx hs => exact .inl (hs.symm.trans hq)
  | exit hx hs | threadExit hx hs =>
    rw [hq] at hs
    cases hs
  | reap hparent hzombie hx hs | join hparent hzombie hx hs =>
    exact .inr (.inr (congrArg Body.killed hx))

structure Unmarked (k : Kernel) : Prop where
  sane : Sane k.view
  unused : ∀ q, (k.proc q).state = .UNUSED → (k.proc q).killed = false
  awaited : ∀ q, Awaited k q → (k.proc q).killed = false

theorem awaited_of_step (hk : Sane k.view) (h : step k a = some (k', es)) (hq : Awaited k' q) :
    Awaited k q ∨ (k.proc q).state = .UNUSED := by
  obtain ⟨i, hi, hmap⟩ := hq
  obtain ⟨⟨s, p⟩, hold, rfl⟩ := Option.map_eq_some_iff.mp hmap
  rcases hk.held_of_move (step_move h) ((runs_iff k' i).mp hi) hold with ⟨hlive, u, hu⟩ | hp
  · refine .inl ⟨i, (runs_iff k i).mpr hlive, ?_⟩
    rw [← view_hold, hu]
    rfl
  · exact .inr (phase_unused.mp hp)

theorem Unmarked.step (h : Unmarked k) (hstep : step k a = some (k', es))
    (hok : KillsStarted k a) : Unmarked k' := by
  -- a mark that was not there is made by `kill`
  have hmark : ∀ q, (k.proc q).state = .UNUSED ∨ Awaited k q → (k'.proc q).killed = false := by
    intro q hq
    by_contra hkilled
    rcases killed_of_step hstep (Bool.eq_true_of_not_eq_false hkilled) with hold | ⟨i, pid, rfl, hp⟩
    · rw [hq.elim (h.unused q) (h.awaited q)] at hold
      cases hold
    · exact hq.elim (hok q hp).1 (hok q hp).2
  refine ⟨h.sane.move (step_move hstep), ?_, ?_⟩
  · intro q hq
    rcases unused_of_step hstep hq with hunused | ⟨i, hi, hpc⟩ | hkilled
    · exact hmark q (.inl hunused)
    · refine hmark q (.inr ⟨i, .inr (.inr (by simpa [running] using hi)), ?_⟩)
      rw [hpc]
      rfl
    · exact hkilled
  · intro q hq
    exact hmark q (awaited_of_step h.sane hstep hq).symm

theorem reachable_unmarked (h : Reachable KillsStarted k) : Unmarked k := by
  apply Reach.invariant (P := Unmarked) _ _ h
  · rintro k rfl
    have hboot : ∀ q, (boot.proc q).killed = false := by
      intro q
      by_cases hq : q = 0 <;> simp [boot, hq, ProcTable.unused]
    exact ⟨sane_boot, fun q _ => hboot q, fun q _ => hboot q⟩
  · rintro k a k' hk hok ⟨es, hstep⟩
    exact hk.step hstep hok

theorem kill_step {pid : ℤ} (h : step k (.kill i pid) = some (k', es)) :
    running k i = true ∧ kill k i pid = (k', es) := by
  cases stepped_of_step h with
  | kill hi => exact ⟨hi.1, rfl⟩

/-- What `kill` answers and what it changes, when the slot it takes has a process. -/
theorem kill_started {pid : ℤ} (hok : KillsStarted k (.kill i pid)) (h : kill k i pid = (k', es)) :
    (es = [.ret i 0] ∧ (∃ q, (k.proc q).state ≠ .UNUSED ∧ (k.proc q).pid = pid) ∨
      es = [.ret i (-1)] ∧ ¬∃ q, (k.proc q).state ≠ .UNUSED ∧ (k.proc q).pid = pid) ∧
    ∀ q, k'.proc q ≠ k.proc q → (k.proc q).state ≠ .UNUSED ∧ (k.proc q).pid = pid := by
  unfold kill at h
  split at h
  · rename_i p hp
    have hpid : (k.proc p).pid = pid := by simpa using List.find?_some hp
    have hused := (hok p hp).1
    obtain ⟨rfl, rfl⟩ := Prod.mk.inj h
    refine ⟨.inl ⟨rfl, p, hused, hpid⟩, fun q hq => ?_⟩
    have hqp : q = p := by
      by_contra hqp
      exact hq (by rw [setProc_proc, if_neg hqp])
    rw [hqp]
    exact ⟨hused, hpid⟩
  · rename_i hnone
    obtain ⟨rfl, rfl⟩ := Prod.mk.inj h
    refine ⟨.inr ⟨rfl, ?_⟩, fun q hq => absurd rfl hq⟩
    rintro ⟨q, -, hpid⟩
    rw [List.find?_eq_none] at hnone
    exact hnone q (List.mem_finRange q) (by simpa using hpid)

theorem cloneDone_starts {np : Slot} {f arg s : Word} (hpc : k.pc i = .cloneNext np f arg s)
    (h : step k (.cloneDone i) = some (k', es)) :
    running k i = true ∧ (k'.proc np).state = .RUNNABLE := by
  simp only [step, hpc] at h
  split_ifs at h with hi
  refine ⟨hi, ?_⟩
  have hk := (some_pair.mp h).1
  rw [← hk, setPc_proc, setState, setProc_proc]
  split_ifs
  · rfl
  · simp

/-- In every run whose kills all take a slot with a process or find no slot: an UNUSED slot is
not marked, `kill` returns 0 exactly when a slot in use has the pid and changes only such slots,
and what `fork` and `clone` start is not marked. -/
theorem kill_hits_started {k : Kernel} (h : Reachable KillsStarted k) :
    (∀ q, (k.proc q).state = .UNUSED → (k.proc q).killed = false) ∧
    (∀ i pid k' es, KillsStarted k (.kill i pid) → step k (.kill i pid) = some (k', es) →
      (es = [.ret i 0] ∧ (∃ q, (k.proc q).state ≠ .UNUSED ∧ (k.proc q).pid = pid) ∨
        es = [.ret i (-1)] ∧ ¬∃ q, (k.proc q).state ≠ .UNUSED ∧ (k.proc q).pid = pid) ∧
      ∀ q, k'.proc q ≠ k.proc q → (k.proc q).state ≠ .UNUSED ∧ (k.proc q).pid = pid) ∧
    (∀ i g k' es np, k.pc i = .fork np → step k (.forkCopy i (some g) true) = some (k', es) →
      (k'.proc np).state = .RUNNABLE ∧ (k'.proc np).killed = false) ∧
    ∀ i k' es np f arg s, k.pc i = .cloneNext np f arg s →
      step k (.cloneDone i) = some (k', es) →
      (k'.proc np).state = .RUNNABLE ∧ (k'.proc np).killed = false := by
  have hk := reachable_unmarked h
  -- neither of the two last steps of a creation is a `kill`
  have hkeep : ∀ {a k' es i s np}, running k i = true → (k.pc i).hold = some (s, np) →
      step k a = some (k', es) → (∀ j pid, a ≠ .kill j pid) → (k'.proc np).killed = false := by
    intro a k' es i s np hi hold hstep ha
    by_contra hkilled
    rcases killed_of_step hstep (Bool.eq_true_of_not_eq_false hkilled) with hold' | ⟨j, pid, hj, -⟩
    · rw [hk.awaited np ⟨i, .inr (.inr (by simpa [running] using hi)), by rw [hold]; rfl⟩] at hold'
      cases hold'
    · exact ha j pid hj
  refine ⟨hk.unused, ?_, ?_, ?_⟩
  · intro i pid k' es hok hstep
    exact kill_started hok (kill_step hstep).2
  · intro i g k' es np hpc hstep
    obtain ⟨hi, hs, -⟩ := forkDone_child hpc hstep
    exact ⟨hs, hkeep hi (by rw [hpc]; rfl) hstep (by simp)⟩
  · intro i k' es np f arg s hpc hstep
    obtain ⟨hi, hs⟩ := cloneDone_starts hpc hstep
    exact ⟨hs, hkeep hi (by rw [hpc]; rfl) hstep (by simp)⟩

/-- From boot, `kill(0)` returns 0 and marks slot 1, although no slot in use has pid 0; the
process that is forked into slot 1 then starts killed. -/
theorem kill_marks_unused :
    (∃ k k', Reachable (fun _ _ => True) k ∧ (¬∃ q, (k.proc q).state ≠ .UNUSED ∧
      (k.proc q).pid = 0) ∧
      step k (.kill 0 0) = some (k', [.ret 0 0]) ∧ (k'.proc 1).state = .UNUSED ∧
      (k'.proc 1).killed = true) ∧
    ∃ k, Reachable (fun _ _ => True) k ∧ (k.proc 1).state = .RUNNABLE ∧
      (k.proc 1).killed = true := by
  constructor
  · obtain ⟨k, hk, hp⟩ := exists_run
      (fun k => decide ((¬∃ q, (k.proc q).state ≠ .UNUSED ∧ (k.proc q).pid = 0) ∧
        (running k 0 = true ∧ k.pc 0 = .user) ∧
        (slots.find? fun p => (k.proc p).pid = 0) = some 1 ∧ (k.proc 1).state = .UNUSED))
      [.dispatch 0] (by decide +kernel)
    obtain ⟨hnone, hi, hfind, hs⟩ := of_decide_eq_true hp
    refine ⟨k, setProc k 1 { k.proc 1 with killed := true }, hk, hnone, ?_, ?_, ?_⟩
    · simp [step, kill, hi, hfind, hs]
    · simp [hs]
    · simp
  · obtain ⟨k, hk, hp⟩ := exists_run
      (fun k => decide ((k.proc 1).state = .RUNNABLE ∧ (k.proc 1).killed = true))
      (.dispatch 0 :: .kill 0 0 :: forks 0 2) (by decide +kernel)
    exact ⟨k, hk, of_decide_eq_true hp⟩

instance (k : Kernel) (p : Slot) : Decidable (Awaited k p) :=
  inferInstanceAs (Decidable (∃ _, _ ∧ _))

instance (k : Kernel) (a : Act) : Decidable (KillsStarted k a) := by
  apply Act.casesOn (motive := fun a => Decidable (KillsStarted k a)) a <;> intros <;>
    dsimp only [KillsStarted] <;> infer_instance

/-- init kills its child, the only slot with pid 2, and the next `fork` starts unmarked. -/
theorem kill_hits_started_child :
    (∃ k k', Reachable KillsStarted k ∧ step k (.kill 0 2) = some (k', [.ret 0 0]) ∧
      ∀ q, k'.proc q ≠ k.proc q → (k.proc q).pid = 2) ∧
    ∃ k k' es, Reachable KillsStarted k ∧ (k.proc 1).killed = true ∧
      step k (.forkCopy 0 (some 3) true) = some (k', es) ∧ (k'.proc 2).killed = false := by
  constructor
  · obtain ⟨k, hk, hp⟩ := exists_reachable (fun k a => decide (KillsStarted k a))
      (fun _ _ => of_decide_eq_true)
      (fun k => decide (KillsStarted k (.kill 0 2) ∧ (running k 0 = true ∧ k.pc 0 = .user) ∧
        (slots.find? fun p => (k.proc p).pid = 2) = some 1))
      (.dispatch 0 :: forks 0 2) (by decide +kernel)
    obtain ⟨hok, hi, hfind⟩ := of_decide_eq_true hp
    obtain ⟨k', hstep⟩ : ∃ k', step k (.kill 0 2) = some (k', [.ret 0 0]) := by
      simp only [step, kill, if_pos hi, hfind]
      exact ⟨_, rfl⟩
    exact ⟨k, k', hk, hstep, fun q hq => (((kill_hits_started hk).2.1 _ _ _ _ hok hstep).2 q hq).2⟩
  · obtain ⟨k, hk, hp⟩ := exists_reachable (fun k a => decide (KillsStarted k a))
      (fun _ _ => of_decide_eq_true)
      (fun k => decide (k.pc 0 = .fork 2 ∧ (k.proc 1).killed = true) &&
        (step k (.forkCopy 0 (some 3) true)).isSome)
      (.dispatch 0 :: forks 0 2 ++ [.kill 0 2, .fork 0 true]) (by decide +kernel)
    obtain ⟨hp, hsome⟩ := Bool.and_eq_true_iff.mp hp
    obtain ⟨hpc, hkilled⟩ := of_decide_eq_true hp
    obtain ⟨⟨k', es⟩, hstep⟩ := Option.isSome_iff_exists.mp hsome
    exact ⟨k, k', es, hk, hkilled, hstep, ((kill_hits_started hk).2.2.1 _ _ _ _ _ hpc hstep).2⟩

end Xv6Threads.ProcTable
