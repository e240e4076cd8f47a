import Xv6Threads.Survival

namespace Xv6Threads.ProcTable

open Option Bool

variable {k k' : Kernel} {a : Act} {es : List Event} {i p q : Slot}

/-- Between `lock_acquire` and `lock_release` of `thread_join`. -/
def Pc.HoldsLock (c : Pc) : Prop := (∃ tid r, c = .join tid r) ∨ c = .release

def HoldsJoin (k : Kernel) (p : Slot) : Prop := (k.proc p).state.Runs ∧ (k.pc p).HoldsLock

/-- `p` has called `thread_join` and the call has not returned. -/
def Joining (k : Kernel) (p : Slot) : Prop :=
  HoldsJoin k p ∨ (k.proc p).state.Runs ∧ ∃ tid r, k.pc p = .spin tid r

/-- A slot that `wait_thread(tid)` of `i` looks for. -/
def JoinTarget (k : Kernel) (i : Slot) (tid : ℤ) (p : Slot) : Prop :=
  (k.proc p).parent = some i ∧ (k.proc p).tid = tid ∧ (k.proc p).isThread = true

/-- A scan of `wait_thread` finds a thread of the caller with that tid, a zombie if the caller
was killed, and the tid is not negative; and `exit` ends nobody who holds the lock. -/
def JoinsFound (k : Kernel) : Act → Prop
  | .waitThread i => ∀ tid r, k.pc i = .join tid r → 0 ≤ tid ∧
      ∃ p, JoinTarget k i tid p ∧ ((k.proc p).state = .ZOMBIE ∨ (k.proc i).killed = false)
  | .exit i => ∀ j, HoldsJoin k j → ¬Ends k i j
  | _ => True

instance (k : Kernel) (i : Slot) (tid : ℤ) (p : Slot) : Decidable (JoinTarget k i tid p) :=
  inferInstanceAs (Decidable (_ ∧ _))

/-- What a scan of `wait_thread` comes to when it finds the thread. -/
theorem waitThread_found {tid : ℤ} {r : Word} (hi : running k i = true) (htid : 0 ≤ tid)
    (hp : JoinTarget k i tid p) (hend : (k.proc p).state = .ZOMBIE ∨ (k.proc i).killed = false) :
    ((waitThread k i tid r).1.pc i = .release ∧
      ((waitThread k i tid r).1.proc i).state = .RUNNING ∧
      ∀ v, .ret i v ∉ (waitThread k i tid r).2) ∨
    waitThread k i tid r = (sleepSelf k i, []) := by
  have hrun : (k.proc i).state = .RUNNING := by simpa [running] using hi
  unfold waitThread
  dsimp only
  split
  · rename_i z hz
    left
    have hz := List.find?_some hz
    simp only [decide_eq_true_eq, and_eq_true, decide_and] at hz
    have hzi : z ≠ i := by
      rintro rfl
      rw [hrun] at hz
      exact absurd hz.2 (by decide)
    rw [setProc_proc, if_neg hzi, hz.1.2.1, joinReturn, if_neg (by omega)]
    simp [hzi.symm, hrun]
  · rename_i hnone
    right
    rw [List.find?_eq_none] at hnone
    have hall : ¬(slots.all fun q => !decide (JoinTarget k i tid q)) = true := by
      rw [List.all_eq_true]
      intro hall
      have hnot := hall p (List.mem_finRange p)
      rw [decide_eq_true hp] at hnot
      cases hnot
    have hlive : (k.proc p).state ≠ .ZOMBIE := by
      intro hs
      apply hnone p (List.mem_finRange p)
      simpa [hs] using (show _ ∧ _ ∧ _ from hp)
    rw [if_neg]
    rintro (h | h)
    · exact hall h
    · rw [hend.resolve_left hlive] at h
      cases h

theorem holdsJoin_live (h : HoldsJoin k p) : k.view.Live p := (runs_iff k p).mp h.1

theorem holdsJoin_used (h : HoldsJoin k p) : (k.proc p).state ≠ .UNUSED := by
  rcases h.1 with hs | hs | hs <;> rw [hs] <;> simp

theorem lockAcquire_cases (h : step k (.lockAcquire i) = some (k', es)) :
    running k i = true ∧ ∃ tid r, k.pc i = .spin tid r ∧
      (k.lock = true ∧ k' = setPc { k with lock := false } i (.join tid r) ∨
        k.lock = false ∧ k' = k) := by
  cases stepped_of_step h with
  | lockTaken hi hpc hlock => exact ⟨hi, _, _, hpc, .inl ⟨hlock, rfl⟩⟩
  | lockBusy hi hpc hlock => exact ⟨hi, _, _, hpc, .inr ⟨eq_false_of_not_eq_true hlock, rfl⟩⟩

theorem waitThread_cases (h : step k (.waitThread i) = some (k', es)) :
    running k i = true ∧ ∃ tid r, k.pc i = .join tid r ∧ waitThread k i tid r = (k', es) := by
  cases stepped_of_step h with
  | waitThread hi hpc => exact ⟨hi, _, _, hpc, rfl⟩

theorem lockRelease_cases (h : step k (.lockRelease i) = some (k', es)) :
    k.pc i = .release ∧ k'.lock = true ∧ es = [.ret i 0] := by
  cases stepped_of_step h with
  | lockRelease hi => exact ⟨hi.2, rfl, rfl⟩

/-- The lock is only taken by `lock_acquire`, which goes on into `wait_thread`. -/
theorem lock_taken (h : step k a = some (k', es)) (hlock : k.lock = true)
    (hlock' : k'.lock = false) : ∃ p, HoldsJoin k' p := by
  by_cases hacquire : ∃ i, a = .lockAcquire i
  · obtain ⟨i, rfl⟩ := hacquire
    obtain ⟨hi, tid, r, hpc, ⟨-, rfl⟩ | ⟨hfalse, -⟩⟩ := lockAcquire_cases h
    · have hrun : (k.proc i).state = .RUNNING := by simpa [running] using hi
      exact ⟨i, .inr (.inr hrun), .inl ⟨tid, r, by simp⟩⟩
    · rw [hlock] at hfalse
      cases hfalse
  · by_cases hrelease : ∃ i, a = .lockRelease i
    · obtain ⟨i, rfl⟩ := hrelease
      rw [(lockRelease_cases h).2.1] at hlock'
      cases hlock'
    · rw [lock_of_step h (not_exists.mp hacquire) (not_exists.mp hrelease), hlock] at hlock'
      cases hlock'

/-- Whoever holds the lock gives it back with `lock_release`, and goes on holding it before. -/
theorem HoldsJoin.step_self (hp : HoldsJoin k p) (h : step k a = some (k', es))
    (hok : JoinsFound k a) (ha : a.slot = some p) : k'.lock = true ∨ HoldsJoin k' p := by
  obtain ⟨hruns, hplace⟩ := hp
  cases a with
  | wakeup c => cases ha
  | waitThread i =>
    obtain rfl := some.inj ha
    right
    obtain ⟨hi, tid, r, hpc, hk⟩ := waitThread_cases h
    obtain ⟨htid, q, hq, hend⟩ := hok tid r hpc
    rcases waitThread_found (r := r) hi htid hq hend with ⟨hpc', hrun, -⟩ | hsleep
    · rw [hk] at hpc' hrun
      exact ⟨.inr (.inr hrun), .inr hpc'⟩
    · rw [hk] at hsleep
      rw [(Prod.mk.inj hsleep).1]
      exact ⟨.inl (by simp [sleepSelf]), .inl ⟨tid, r, hpc⟩⟩
  | lockRelease i =>
    obtain rfl := some.inj ha
    exact .inl (lockRelease_cases h).2.1
  | dispatch i =>
    obtain rfl := some.inj ha
    right
    cases stepped_of_step h
    exact ⟨.inr (.inr (by simp)), hplace⟩
  | yield i =>
    obtain rfl := some.inj ha
    right
    cases stepped_of_step h
    exact ⟨.inr (.inl (by simp [setState])), hplace⟩
  | _ =>
    -- every other call starts from another place
    obtain rfl := some.inj ha
    obtain ⟨tid, r, hpc⟩ | hpc := hplace <;> simp [step, hpc] at h

/-- Whoever holds the lock goes on holding it while others take steps. -/
theorem HoldsJoin.step_other (hk : Sane k.view) (hp : HoldsJoin k p) (h : step k a = some (k', es))
    (hok : JoinsFound k a) (ha : a.slot ≠ some p) : HoldsJoin k' p := by
  have hlive : k'.view.Live p := by
    by_cases hexit : ∃ i, a = .exit i
    · obtain ⟨i, rfl⟩ := hexit
      have hpi : p ≠ i := fun hpi => ha (congrArg some hpi.symm)
      obtain ⟨-, -, -, rfl⟩ := exit_step h
      exact (phase_exit hk (holdsJoin_live hp)).2 hpi (hok p hp)
    · apply live_of_move hk (step_move h) (not_exists.mp hexit) _ (holdsJoin_live hp)
      rintro r rfl
      exact ha rfl
  refine ⟨(runs_iff k' p).mpr hlive, ?_⟩
  rw [pc_of_step h (holdsJoin_used hp) ha]
  exact hp.2

/-- While the lock is taken there is somebody who will give it back. -/
def LockHeld (k : Kernel) : Prop := k.lock = false → ∃ p, HoldsJoin k p

theorem LockHeld.step (hlock : LockHeld k) (hk : Sane k.view) (h : step k a = some (k', es))
    (hok : JoinsFound k a) : LockHeld k' := by
  intro hlock'
  cases hfree : k.lock with
  | true => exact lock_taken h hfree hlock'
  | false =>
    obtain ⟨p, hp⟩ := hlock hfree
    by_cases ha : a.slot = some p
    · rcases hp.step_self h hok ha with htrue | hp'
      · rw [hlock'] at htrue
        cases htrue
      · exact ⟨p, hp'⟩
    · exact ⟨p, hp.step_other hk h hok ha⟩

theorem reachable_lockHeld (h : Reachable JoinsFound k) : Sane k.view ∧ LockHeld k := by
  apply Reach.invariant (P := fun k => Sane k.view ∧ LockHeld k) _ _ h
  · rintro k rfl
    refine ⟨sane_boot, ?_⟩
    intro hlock
    cases hlock
  · rintro k a k' ⟨hk, hlock⟩ hok ⟨es, hstep⟩
    exact ⟨hk.move (step_move hstep), hlock.step hk hstep hok⟩

/-- In every run whose joins all find their thread and in which no `exit` ends a slot between
`lock_acquire` and `lock_release`: the lock is free whenever no `thread_join` is in progress,
whoever spins waits for a call that goes on to `lock_release`, and a call that completes returns 0
and leaves the lock free. -/
theorem join_lock_given_back {k : Kernel} (h : Reachable JoinsFound k) :
    ((∀ p, ¬Joining k p) → k.lock = true) ∧
    (k.lock = false → ∃ p, HoldsJoin k p) ∧
    ∀ i a k' es v, a = .waitThread i ∨ a = .lockRelease i → JoinsFound k a →
      step k a = some (k', es) → .ret i v ∈ es → v = 0 ∧ k'.lock = true := by
  have hheld := (reachable_lockHeld h).2
  refine ⟨?_, hheld, ?_⟩
  · intro hnone
    by_contra hlock
    obtain ⟨p, hp⟩ := hheld (eq_false_of_not_eq_true hlock)
    exact hnone p (.inl hp)
  · rintro i a k' es v (rfl | rfl) hok hstep hret
    · obtain ⟨hi, tid, r, hpc, hk⟩ := waitThread_cases hstep
      obtain ⟨htid, q, hq, hend⟩ := hok tid r hpc
      rcases waitThread_found (r := r) hi htid hq hend with ⟨-, -, hno⟩ | hsleep
      · rw [hk] at hno
        exact absurd hret (hno v)
      · rw [hk] at hsleep
        rw [(Prod.mk.inj hsleep).2] at hret
        cases hret
    · obtain ⟨-, hlock, rfl⟩ := lockRelease_cases hstep
      obtain ⟨-, rfl⟩ : i = i ∧ v = 0 := by simpa using hret
      exact ⟨rfl, hlock⟩

theorem not_joining_of_user (h : ∀ p, k.pc p = .user) (p : Slot) : ¬Joining k p := by
  rintro (⟨-, ⟨tid, r, hpc⟩ | hpc⟩ | ⟨-, tid, r, hpc⟩) <;> rw [h p] at hpc <;> cases hpc

/-- `thread_join` of a tid that never existed returns -1 and keeps the lock. -/
theorem join_keeps_lock :
    ∃ k, Reachable (fun _ _ => True) k ∧ (∀ p, ¬Joining k p) ∧ k.lock = false := by
  obtain ⟨k, hk, hp⟩ := exists_run (fun k => decide (∀ p, k.pc p = .user) && !k.lock)
    [.dispatch 0, .threadJoin 0 1 0, .lockAcquire 0, .waitThread 0] (by decide +kernel)
  simp only [and_eq_true, decide_eq_true_eq, not_eq_true_eq_eq_false] at hp
  exact ⟨k, hk, not_joining_of_user hp.1, hp.2⟩

def joinsFound (k : Kernel) : Act → Bool
  | .waitThread i => match k.pc i with
    | .join tid _ => decide (0 ≤ tid ∧ ∃ p, JoinTarget k i tid p ∧
        ((k.proc p).state = .ZOMBIE ∨ (k.proc i).killed = false))
    | _ => true
  | .exit _ => false
  | _ => true

theorem joinsFound_sound (k : Kernel) (a : Act) (h : joinsFound k a = true) : JoinsFound k a := by
  cases a with
  | waitThread i =>
    intro tid r hpc
    simpa [joinsFound, hpc] using h
  | exit i => cases h
  | _ => trivial

/-- The thread in slot 2 exits and is joined. -/
theorem join_lock_given_back_one_thread :
    ∃ k, Reachable JoinsFound k ∧ (k.proc 2).state = .UNUSED ∧ (∀ p, ¬Joining k p) ∧
      k.lock = true := by
  obtain ⟨k, hk, hp⟩ := exists_reachable joinsFound joinsFound_sound
    (fun k => decide ((∀ p, k.pc p = .user) ∧ (k.proc 2).state = .UNUSED))
    (oneThread ++ [.dispatch 1, .threadJoin 1 1 0, .lockAcquire 1, .waitThread 1, .dispatch 2,
      .threadExit 2 7, .dispatch 1, .waitThread 1, .lockRelease 1]) (by decide +kernel)
  obtain ⟨huser, hfree⟩ := of_decide_eq_true hp
  have hnone := not_joining_of_user huser
  exact ⟨k, hk, hfree, hnone, (join_lock_given_back hk).1 hnone⟩

end Xv6Threads.ProcTable
