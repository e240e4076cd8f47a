import Xv6Threads.Lineage
import Xv6Threads.SlotSteps

namespace Xv6Threads.ProcTable

open View Node

variable {v v' : View} {i p q m np z : Slot} {s : Stage}

def ProcState.Born (s : ProcState) : Prop := s ≠ .UNUSED ∧ s ≠ .EMBRYO

/-- Only main threads fork, `allocproc` is not called inside another `clone`, and `wait` takes a
main thread only when no other slot in use has its pid. -/
def MainsKept (k : Kernel) (a : Act) : Prop :=
  PidsInTurn k a ∧
  match a with
  | .forkCopy i (some _) true => (k.proc i).isThread = false
  | .wait i => ∀ z, (k.proc z).parent = some i → (k.proc z).state = .ZOMBIE →
      (k.proc z).isThread = false →
      ∀ q, q ≠ z → (k.proc q).state ≠ .UNUSED → (k.proc q).pid ≠ (k.proc z).pid
  | _ => True

/-- A main thread of the process `pid`. -/
structure Node.Heads (n : Node) (pid : ℤ) : Prop where
  born : n.phase = .live ∨ n.phase = .zombie
  main : n.isThread = false
  pid : n.pid = pid

/-- Every slot with a process, and every thread in creation, has a main thread. -/
structure Headed (v : View) : Prop where
  pids : Pids v
  head : ∀ q, ¬(v.node q).Blank → ∃ m, (v.node m).Heads (v.node q).pid

theorem Node.not_blank_of_born {n : Node} (h : n.phase = .live ∨ n.phase = .zombie) : ¬n.Blank := by
  rintro (hu | ⟨he, -⟩)
  · rcases h with h | h <;> rw [h] at hu <;> cases hu
  · rcases h with h | h <;> rw [h] at he <;> cases he

theorem Node.Heads.not_blank {n : Node} {pid : ℤ} (h : n.Heads pid) : ¬n.Blank :=
  not_blank_of_born h.born

theorem View.Live.not_blank (hi : v.Live i) : ¬(v.node i).Blank := not_blank_of_born (.inl hi)

theorem Headed.frame (h : Headed v) (hpids : Pids v')
    (hkeep : ∀ q m, ¬(v'.node q).Blank → (v.node m).Heads (v'.node q).pid →
      (v'.node m).Heads (v'.node q).pid) (hnew : ∀ q, ¬(v'.node q).Blank → ∃ p, ¬(v.node p).Blank ∧
      (v.node p).pid = (v'.node q).pid) : Headed v' := by
  refine ⟨hpids, fun q hq => ?_⟩
  obtain ⟨p, hp, hpid⟩ := hnew q hq
  obtain ⟨m, hm⟩ := h.head p hp
  rw [hpid] at hm
  exact ⟨m, hkeep q m hq hm⟩

/-- A move that changes only the slot `p`, which heads no process but its own. -/
theorem Headed.update (h : Headed v) (p : Slot) (hpids : Pids v')
    (hn : ∀ q ≠ p, (v'.node q).phase = (v.node q).phase ∧
      (v'.node q).isThread = (v.node q).isThread ∧ (v'.node q).pid = (v.node q).pid)
    (hp : ¬(v'.node p).Blank → (v'.node p).Heads (v'.node p).pid ∨
      ∃ q ≠ p, ¬(v.node q).Blank ∧ (v.node q).pid = (v'.node p).pid)
    (hlone : ∀ q ≠ p, ¬(v.node q).Blank → ¬(v.node p).Heads (v.node q).pid) : Headed v' := by
  have hblank : ∀ q ≠ p, ((v'.node q).Blank ↔ (v.node q).Blank) := by
    intro q hq
    rw [Node.Blank, Node.Blank, (hn q hq).1, (hn q hq).2.1]
  -- whoever had a main thread other than `p` still has it
  have hold : ∀ q ≠ p, ¬(v.node q).Blank → ∃ m, (v'.node m).Heads (v.node q).pid := by
    intro q hq hb
    obtain ⟨m, hm⟩ := h.head q hb
    have hmp : m ≠ p := by
      rintro rfl
      exact hlone q hq hb hm
    obtain ⟨hphase, hthread, hpid⟩ := hn m hmp
    exact ⟨m, by rw [hphase]; exact hm.born, hthread.trans hm.main, hpid.trans hm.pid⟩
  refine ⟨hpids, fun q hb => ?_⟩
  by_cases hq : q = p
  · subst hq
    rcases hp hb with hself | ⟨r, hr, hrb, hrpid⟩
    · exact ⟨q, hself⟩
    · rw [← hrpid]
      exact hold r hr hrb
  · rw [(hn q hq).2.2]
    exact hold q hq fun hb' => hb ((hblank q hq).mpr hb')

/-- A slot that `fork` or `clone` has not named yet heads no other. -/
theorem Headed.lone (h : Headed v) (hi : v.Live i) (hold : v.hold i = some (s, np))
    (ht : s.tied = false) (q : Slot) (hq : q ≠ np) : ¬(v.node np).Heads (v.node q).pid :=
  fun hheads => hq (h.pids.lone i s np hi hold ht q hheads.pid.symm)

theorem Headed.leave (h : Headed v) (hi : v.Live i) (keep : Node → Bool)
    (hpids : Pids ((v.reparent i keep).die i)) : Headed ((v.reparent i keep).die i) := by
  have hsane := h.pids.named.sane
  have hn := v.die_reparent_node i keep (hsane.noSelf i)
  have hname := fun q => h.pids.named.leave_name hi keep q
  apply h.frame hpids
  · intro q m _ hm
    refine ⟨?_, (hname m).2.2.2.1.trans hm.main, (hname m).2.1.trans hm.pid⟩
    rw [hn]
    split_ifs
    · exact .inr rfl
    · rw [passOn_phase]
      split_ifs
      · exact hm.born
      · exact .inr rfl
    · exact hm.born
  · intro q hq
    refine ⟨q, fun hb => hq ?_, (hname q).2.1.symm⟩
    -- a slot without a process is nobody's child
    have hqi : q ≠ i := fun hqi => (View.Live.not_blank hi) (hqi ▸ hb)
    have hparent : (v.node q).parent ≠ some i := by
      rw [hsane.free q hb]
      simp
    rw [hn, if_neg hqi, if_neg hparent]
    exact hb

theorem Headed.move {k : Kernel} {a : Act} (h : Headed k.view) (hm : Move k.view a v')
    (hok : MainsKept k a) : Headed v' := by
  have hpids := h.pids.move hm fun ha => clear_view (hok.1 ha)
  have hsane := h.pids.named.sane
  cases id hm with
  | quiet => exact h
  | @forkNoStack _ p _ _ hp | @cloneNoStack _ p _ _ _ _ _ hp | @fork _ p _ _ hp
  | @clone _ p _ _ _ _ _ hp =>
    apply h.update p hpids
    · intro q hq
      simp [alloc, fresh_node_of_ne _ p _ hq]
    · intro hb
      refine absurd ?_ hb
      simp [Node.Blank, alloc, fresh_node_self]
    · intro q hq hb hheads
      exact hheads.not_blank (.inl hp)
  | @forkFail i np _ _ hi hold =>
    apply h.update np hpids
    · intro q hq
      simp [forkFail, hq]
    · intro hb
      exact absurd (.inl (by simp [forkFail])) hb
    · intro q hq _
      exact h.lone hi hold rfl q hq
  | @forkDone i np g hi hold hg =>
    apply h.update np hpids
    · intro q hq
      simp [forkDone, hq]
    · intro _
      refine .inl ⟨.inl ?_, ?_, rfl⟩
      · simp [forkDone]
      · simpa [forkDone] using hok.2
    · intro q hq _
      exact h.lone hi hold rfl q hq
  | @clonePid i np hi hold =>
    apply h.update np hpids
    · intro q hq
      simp [View.clonePid, hq]
    · intro _
      refine .inr ⟨i, ((hsane.held i _ np hi hold).ne_live hi).symm, (View.Live.not_blank hi), ?_⟩
      simp [View.clonePid]
    · intro q hq _
      exact h.lone hi hold rfl q hq
  | cloneNext hi hold => exact ⟨hpids, h.head⟩
  | @cloneDone i np m hi hold hm' | @cloneLost i np hi hold hm' =>
    have hheld := hsane.held i _ np hi hold
    obtain ⟨-, -, hpid, ht⟩ := hheld.tied rfl
    apply h.update np hpids
    · intro q hq
      simp [start, count_node, hq]
    · intro _
      refine .inr ⟨i, (hheld.ne_live hi).symm, (View.Live.not_blank hi), ?_⟩
      simpa [start] using hpid.symm
    · intro q _ _ hheads
      rw [hheads.main] at ht
      cases ht
  | @exitThreads i hi hidle hinit ht =>
    have hname := h.pids.named.endAll_name hi
    apply h.frame hpids
    · intro q m _ hm
      refine ⟨?_, (hname m).2.2.2.1.trans hm.main, (hname m).2.1.trans hm.pid⟩
      rw [die_endAll_node]
      split_ifs
      · exact .inr (ended_phase _)
      · exact hm.born
    · intro q hq
      rw [die_endAll_node] at hq ⊢
      split_ifs at hq ⊢ with hpid
      · exact ⟨i, (View.Live.not_blank hi), by rw [ended_pid, hpid]⟩
      · exact ⟨q, hq, rfl⟩
  | exitMain hi hidle hinit ht | threadExit hi hidle hinit => exact h.leave hi _ hpids
  | @reap i z hi hidle hz hzombie =>
    apply h.update z hpids
    · intro q hq
      simp [reap, hq]
    · intro hb
      exact absurd (.inl (by simp [reap])) hb
    · intro q hq hb hheads
      apply hok.2 z hz (phase_zombie.mp hzombie) hheads.main q hq _ hheads.pid.symm
      intro hs
      exact hb (.inl (phase_unused.mpr hs))
  | @join i z hi hidle hz ht hzombie =>
    apply h.update z hpids
    · intro q hq
      rw [join_node_of_ne _ i z hq]
      exact ⟨rfl, rfl, rfl⟩
    · intro hb
      exact absurd (.inl (by simp [join])) hb
    · intro q _ _ hheads
      rw [hheads.main] at ht
      cases ht
  | @exec i g _ _ _ _ hi hidle hg =>
    apply h.frame hpids
    · intro q m _ hm
      rw [exec_node] at hm ⊢
      rw [exec_node]
      exact ⟨hm.born, hm.main, hm.pid⟩
    · intro q hq
      rw [exec_node] at hq ⊢
      exact ⟨q, hq, rfl⟩

theorem reachable_headed {k : Kernel} (h : Reachable MainsKept k) : Headed k.view := by
  apply Reach.invariant (P := fun k => Headed k.view) _ _ h
  · rintro k rfl
    refine ⟨pids_boot, fun q hq => ⟨0, ?_⟩⟩
    have hq : q = 0 := by
      by_contra hne
      exact hq (.inl (by simp [boot, hne, unused, ProcState.phase]))
    subst hq
    exact ⟨.inl rfl, rfl, rfl⟩
  · rintro k a k' hk hok ⟨es, hstep⟩
    exact hk.move (step_move hstep) hok

theorem born_iff {s : ProcState} : s.Born ↔ s.phase = .live ∨ s.phase = .zombie := by
  cases s <;> simp [ProcState.Born, ProcState.phase]

/-- In every run in which only main threads fork, no pid is taken inside another `clone` and no
main thread is reaped before its threads: every pid in use has exactly one main thread, and the
child of a `fork` is one. -/
theorem one_main_thread {k : Kernel} (h : Reachable MainsKept k) :
    (∀ q, (k.proc q).state.Born → ∃! m, (k.proc m).state.Born ∧
      (k.proc m).pid = (k.proc q).pid ∧ (k.proc m).isThread = false) ∧
    ∀ i g k' es np, MainsKept k (.forkCopy i (some g) true) → k.pc i = .fork np →
      step k (.forkCopy i (some g) true) = some (k', es) →
      (k'.proc np).isThread = false ∧ (k'.proc np).parent = some i := by
  have hk := reachable_headed h
  constructor
  · intro q hq
    obtain ⟨m, hm⟩ := hk.head q (not_blank_of_born (born_iff.mp hq))
    refine ⟨m, ⟨born_iff.mpr hm.born, hm.pid, hm.main⟩, ?_⟩
    rintro m' ⟨-, hpid', hmain'⟩
    have hpos := hk.pids.named.pos q fun hu => hq.1 (phase_unused.mp hu)
    apply hk.pids.mains m' m hmain' hm.main (hpid'.trans hm.pid.symm)
    rw [view_node, node_pid, hpid']
    exact hpos.ne'
  · intro i g k' es np hok hpc hstep
    obtain ⟨-, -, hthread, hparent⟩ := forkDone_child hpc hstep
    exact ⟨hthread.trans hok.2, hparent⟩

/-- The thread in slot 2 forks: slot 3 is the only slot with its pid, and it is a thread. -/
theorem fork_by_thread_has_no_main :
    ∃ k, Reachable (fun _ _ => True) k ∧ (k.proc 3).state = .RUNNABLE ∧
      ∀ m, (k.proc m).pid = (k.proc 3).pid → (k.proc m).isThread = true := by
  obtain ⟨k, hk, hp⟩ := exists_run (fun k => decide ((k.proc 3).state = .RUNNABLE ∧
      ∀ m, (k.proc m).pid = (k.proc 3).pid → (k.proc m).isThread = true))
    (oneThread ++ .dispatch 2 :: forks 2 3) (by decide +kernel)
  exact ⟨k, hk, of_decide_eq_true hp⟩

instance (s : ProcState) : Decidable s.Born := inferInstanceAs (Decidable (_ ∧ _))

instance (k : Kernel) (a : Act) : Decidable (MainsKept k a) := by
  apply Act.casesOn (motive := fun a => Decidable (MainsKept k a)) a
  case forkCopy =>
    exact fun i pg ok => match pg, ok with
      | none, _ | some _, true | some _, false => by dsimp only [MainsKept]; infer_instance
  all_goals
    intros
    dsimp only [MainsKept]
    infer_instance

/-- Slot 1 has a thread in slot 2 and is forking a child. -/
theorem one_main_thread_forks :
    ∃ k k' es, Reachable MainsKept k ∧ (k.proc 2).isThread = true ∧
      (∃! m, (k.proc m).state.Born ∧ (k.proc m).pid = (k.proc 2).pid ∧
        (k.proc m).isThread = false) ∧
      step k (.forkCopy 1 (some 3) true) = some (k', es) ∧ (k'.proc 3).isThread = false := by
  obtain ⟨k, hk, hp⟩ := exists_reachable (fun k a => decide (MainsKept k a))
    (fun _ _ => of_decide_eq_true)
    (fun k => decide (((k.proc 2).isThread = true ∧ (k.proc 2).state.Born) ∧ k.pc 1 = .fork 3 ∧
      MainsKept k (.forkCopy 1 (some 3) true)) && (step k (.forkCopy 1 (some 3) true)).isSome)
    (oneThread ++ [.dispatch 1, .fork 1 true]) (by decide +kernel)
  obtain ⟨hp, hsome⟩ := Bool.and_eq_true_iff.mp hp
  obtain ⟨⟨hthread, hborn⟩, hpc, hok⟩ := of_decide_eq_true hp
  obtain ⟨⟨k', es⟩, hstep⟩ := Option.isSome_iff_exists.mp hsome
  have hmain := one_main_thread hk
  exact ⟨k, k', es, hk, hthread, hmain.1 2 hborn, hstep, (hmain.2 1 3 k' es 3 hok hpc hstep).1⟩

end Xv6Threads.ProcTable
