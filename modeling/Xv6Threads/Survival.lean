import Xv6Threads.ProcTree
import Xv6Threads.SlotSteps
import Xv6Threads.ThreadCount

namespace Xv6Threads.ProcTable

open View

section
variable {v v' : View} {i q : Slot}

theorem live_endAll (hq : v.Live q) (hpid : (v.node q).pid ≠ (v.node i).pid) :
    ((v.endAll (v.node i).pid).die i).Live q := by
  rw [View.Live, v.die_endAll_node, if_neg hpid]
  exact hq

theorem live_reparent {keep : Node → Bool} (hself : (v.node i).parent ≠ some i)
    (hq : v.Live q) (hqi : q ≠ i) (hkeep : (v.node q).parent = some i → keep (v.node q) = true) :
    ((v.reparent i keep).die i).Live q := by
  rw [View.Live, v.die_reparent_node i keep hself, if_neg hqi]
  split_ifs with hparent
  · rw [Node.passOn_phase, hkeep hparent, if_pos rfl]
    exact hq
  · exact hq

theorem live_of_move {a : Act} (h : Sane v) (hm : Move v a v') (hexit : ∀ i, a ≠ .exit i)
    (hthread : ∀ r, a ≠ .threadExit q r) (hq : v.Live q) : v'.Live q := by
  cases hm with
  | quiet => exact hq
  | @forkNoStack _ p _ _ hp | @cloneNoStack _ p _ _ _ _ _ hp | @fork _ p _ _ hp
  | @clone _ p _ _ _ _ _ hp =>
    simpa [View.Live, alloc, v.fresh_node_of_ne p _ (hq.ne_unused hp)] using hq
  | forkFail hi hold | forkDone hi hold =>
    have hne := ((h.held _ _ _ hi hold).ne_live hq).symm
    simpa [View.Live, forkFail, forkDone, hne] using hq
  | @clonePid i np hi hold =>
    by_cases hqn : q = np <;> simpa [View.Live, View.clonePid, hqn] using hq
  | cloneNext hi hold => exact hq
  | @cloneDone i np m hi hold hm | @cloneLost i np hi hold hm =>
    by_cases hqn : q = np
    · simp [View.Live, start, hqn]
    · simpa [View.Live, start, hqn] using hq
  | exitThreads | exitMain => exact absurd rfl (hexit _)
  | @threadExit i r hi hidle hinit =>
    have hqi : q ≠ i := by
      rintro rfl
      exact hthread r rfl
    exact live_reparent (h.noSelf i) hq hqi fun _ => rfl
  | @reap i z hi hidle hz hzombie | @join i z hi hidle hz _ hzombie =>
    have hqz : q ≠ z := by
      rintro rfl
      exact absurd (hq.symm.trans hzombie) (by decide)
    simpa [View.Live, reap, View.join, hqz] using hq
  | exec hi hidle hg =>
    rw [View.Live, v.exec_node]
    exact hq

theorem live_cases {a : Act} (h : Sane v) (hm : Move v a v') (hq : v'.Live q) :
    v.Live q ∨ ∃ i s, v.Live i ∧ v.hold i = some (s, q) ∧
      (s = .fork ∨ s = .counted ∧ v'.Live i) := by
  cases hm with
  | quiet => exact .inl hq
  | @forkNoStack i p hi hidle hp | @cloneNoStack i p _ _ _ hi hidle hp hn
  | @fork i p hi hidle hp | @clone i p _ _ _ hi hidle hp hn =>
    by_cases hqp : q = p
    · simp [View.Live, alloc, hqp, fresh_node_self] at hq
    · left
      simpa [View.Live, alloc, fresh_node_of_ne _ _ _ hqp] using hq
  | @forkFail _ z | @reap _ z | @join _ z =>
    by_cases hqz : q = z
    · simp [View.Live, forkFail, reap, View.join, hqz] at hq
    · left
      simpa [View.Live, forkFail, reap, View.join, hqz] using hq
  | @forkDone i np g hi hold hg =>
    by_cases hqn : q = np
    · exact .inr ⟨i, .fork, hi, hqn ▸ hold, .inl rfl⟩
    · left
      simpa [View.Live, forkDone, hqn] using hq
  | @clonePid i np hi hold =>
    left
    by_cases hqn : q = np <;> simpa [View.Live, View.clonePid, hqn] using hq
  | cloneNext hi hold => exact .inl hq
  | @cloneDone i np m hi hold hm | @cloneLost i np hi hold hm =>
    by_cases hqn : q = np
    · have hne : i ≠ np := ((h.held _ _ _ hi hold).ne_live hi).symm
      refine .inr ⟨i, .counted, hi, hqn ▸ hold, .inr ⟨rfl, ?_⟩⟩
      simpa [View.Live, start, hne] using hi
    · left
      simpa [View.Live, start, hqn] using hq
  | exitThreads hi hidle hinit ht => exact .inl (live_of_endAll hq).1
  | exitMain hi hidle hinit ht | threadExit hi hidle hinit =>
    exact .inl (live_of_reparent (h.noSelf _) hq).1
  | exec hi hidle hg =>
    left
    rwa [View.Live, exec_node] at hq

end

/-- An `exit` by `i` makes zombies of its own slot and of those it ends. -/
theorem phase_exit {k : Kernel} (h : Sane k.view) {i q : Slot} (hq : k.view.Live q) :
    ((q = i ∨ Ends k i q) → ((exit k i).view.node q).phase = .zombie) ∧
    (q ≠ i → ¬Ends k i q → (exit k i).view.Live q) := by
  unfold Ends
  cases ht : (k.proc i).isThread with
  | true =>
    rw [if_pos rfl, view_exit_thread k i ht]
    refine ⟨?_, fun _ hpid => live_endAll hq hpid⟩
    intro hends
    have hpid : (k.view.node q).pid = (k.view.node i).pid := by
      rcases hends with rfl | hpid
      · rfl
      · exact hpid
    have hnode := k.view.die_endAll_node i q
    rw [if_pos hpid] at hnode
    exact (congrArg Node.phase hnode).trans (Node.ended_phase _)
  | false =>
    rw [if_neg Bool.false_ne_true, view_exit_main k i ht]
    constructor
    · intro hends
      rw [k.view.die_reparent_node i _ (h.noSelf i)]
      split_ifs with hqi hparent
      · rfl
      · have hpg : (k.view.node q).pgdir = (k.view.node i).pgdir := (hends.resolve_left hqi).2
        rw [Node.passOn_phase, hpg, bne_self_eq_false, if_neg Bool.false_ne_true]
      · exact absurd (hends.resolve_left hqi).1 hparent
    · intro hqi hends
      apply live_reparent (h.noSelf i) hq hqi
      intro hparent
      rw [bne_iff_ne]
      exact fun hpg => hends ⟨hparent, hpg⟩

end Xv6Threads.ProcTable
