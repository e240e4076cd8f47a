import Xv6Threads.ThreadIds
import Xv6Threads.PageDirs

namespace Xv6Threads.ProcTable

open Finset Option View

variable {v v' : View} {i p np z : Slot} {s : Stage}

structure Pids (v : View) : Prop where
  named : Named v
  bound : ∀ q, (v.node q).pid < v.nextpid
  mains : ∀ p q, (v.node p).isThread = false → (v.node q).isThread = false →
    (v.node p).pid = (v.node q).pid → (v.node p).pid ≠ 0 → p = q
  window : ∀ i s np, v.Live i → v.hold i = some (s, np) → s.window = true →
    ∀ q, (q = np → s.tied = true) → (v.node q).pid < v.nextpid - 1
  single : ∀ i j s t np mp, v.Live i → v.Live j → v.hold i = some (s, np) →
    v.hold j = some (t, mp) → s.window = true → t.window = true → i = j
  lone : ∀ i s np, v.Live i → v.hold i = some (s, np) → s.tied = false →
    ∀ q, (v.node q).pid = (v.node np).pid → q = np

theorem Pids.frame (h : Pids v) (hnamed : Named v') (hnext : v'.nextpid = v.nextpid)
    (hhold : ∀ q s np, v'.Live q → v'.hold q = some (s, np) →
      v.Live q ∧ v.hold q = some (s, np))
    (hn : ∀ q, ((v'.node q).pid = (v.node q).pid ∧
      ((v'.node q).isThread = false → (v.node q).isThread = false)) ∨ (v'.node q).pid = 0) :
    Pids v' where
  named := hnamed
  bound q := by
    have hpos := h.named.nextpid_pos
    have hq := h.bound q
    rcases hn q with hn | hn <;> omega
  mains p q hp hq hpq h0 := by
    rcases hn p with ⟨hpp, hpt⟩ | hpp
    · rcases hn q with ⟨hqp, hqt⟩ | hqp
      · rw [hpp, hqp] at hpq
        rw [hpp] at h0
        exact h.mains p q (hpt hp) (hqt hq) hpq h0
      · exact absurd (hpq.trans hqp) h0
    · exact absurd hpp h0
  window i s np hi hs hw q hq := by
    obtain ⟨hi, hs⟩ := hhold i s np hi hs
    have hwin := h.window i s np hi hs hw q hq
    have hcard : 0 < v.window.card := by
      apply card_pos.mpr
      exact ⟨i, mem_window.mpr ⟨hi, by simp [inWindow, hs, hw]⟩⟩
    have hnext' := h.named.next
    rcases hn q with hn | hn <;> omega
  single i j s t np mp hi hj hs ht := by
    obtain ⟨hi, hs⟩ := hhold i s np hi hs
    obtain ⟨hj, ht⟩ := hhold j t mp hj ht
    exact h.single i j s t np mp hi hj hs ht
  lone i s np hi hs ht q hq := by
    have hheld := hnamed.sane.held i s np hi hs
    have hpos := hnamed.pos np fun hu => hheld.ne_unused hu rfl
    obtain ⟨hi, hs⟩ := hhold i s np hi hs
    rcases hn np with ⟨hnp, -⟩ | hnp
    · rcases hn q with ⟨hqp, -⟩ | hqp
      · exact h.lone i s np hi hs ht q (by rw [← hqp, hq, hnp])
      · omega
    · omega

/-- Nobody is in the part of `clone` between taking a pid and giving it back. -/
def View.Clear (v : View) : Prop := ∀ j, v.Live j → v.inWindow j = false

theorem View.Clear.not_window (h : v.Clear) (hi : v.Live i) (hs : v.hold i = some (s, np)) :
    s.window = false := by
  simpa [inWindow, hs] using h i hi

/-- `allocproc` takes the next pid for the slot `p`, outside of any window. -/
theorem Pids.take (h : Pids v) (p : Slot) (hclear : v.Clear) (hnamed : Named v')
    (hnext : v'.nextpid = v.nextpid + 1) (hp : (v'.node p).pid = v.nextpid)
    (hn : ∀ q ≠ p, v'.node q = v.node q) (hhold : ∀ q s np, v'.Live q → v'.hold q = some (s, np) →
      np = p ∧ s.tied = false ∧ q = i ∨ np ≠ p ∧ v.Live q ∧ v.hold q = some (s, np)) : Pids v' := by
  have hbound : ∀ q ≠ p, (v'.node q).pid < v.nextpid := by
    intro q hq
    rw [hn q hq]
    exact h.bound q
  refine ⟨hnamed, ?_, ?_, ?_, ?_, ?_⟩
  · intro q
    by_cases hq : q = p
    · rw [hq, hp, hnext]
      omega
    · have := hbound q hq
      omega
  · intro x y hx hy hxy h0
    by_cases hxp : x = p <;> by_cases hyp : y = p
    · rw [hxp, hyp]
    · have := hbound y hyp
      rw [hxp, hp] at hxy
      omega
    · have := hbound x hxp
      rw [hyp, hp] at hxy
      omega
    · rw [hn x hxp] at hx hxy h0
      rw [hn y hyp] at hy hxy
      exact h.mains x y hx hy hxy h0
  · intro j s np hj hs hw q hq
    rcases hhold j s np hj hs with ⟨rfl, ht, -⟩ | ⟨-, hj, hs⟩
    · have hqp : q ≠ np := by
        intro hqp
        rw [hq hqp] at ht
        cases ht
      have := hbound q hqp
      omega
    · rw [hclear.not_window hj hs] at hw
      cases hw
  · intro j l s t np mp hj hl hs ht hws hwt
    rcases hhold j s np hj hs with ⟨-, -, rfl⟩ | ⟨-, hj, hs⟩
    · rcases hhold l t mp hl ht with ⟨-, -, rfl⟩ | ⟨-, hl, ht⟩
      · rfl
      · rw [hclear.not_window hl ht] at hwt
        cases hwt
    · rw [hclear.not_window hj hs] at hws
      cases hws
  · intro j s np hj hs ht q hq
    rcases hhold j s np hj hs with ⟨rfl, -, -⟩ | ⟨hnp, hj, hs⟩
    · by_contra hqp
      have := hbound q hqp
      rw [hp] at hq
      omega
    · by_cases hqp : q = p
      · have := hbound np hnp
        rw [hqp, hp] at hq
        omega
      · rw [hn q hqp, hn np hnp] at hq
        exact h.lone j s np hj hs ht q hq

theorem Pids.clonePid (h : Pids v) (hi : v.Live i) (hold : v.hold i = some (.alloc, np))
    (hnamed : Named (v.clonePid i np)) : Pids (v.clonePid i np) := by
  have hheld := h.named.sane.held i _ np hi hold
  have hini : i ≠ np := fun hin => hheld.ne_live hi hin.symm
  have hn : ∀ q ≠ np, (v.clonePid i np).node q = v.node q := by
    intro q hq
    simp [View.clonePid, hq]
  have hnp : ((v.clonePid i np).node np).pid = (v.node i).pid ∧
      ((v.clonePid i np).node np).isThread = true := by simp [View.clonePid]
  have hlive : ∀ q, (v.clonePid i np).Live q → v.Live q := by
    intro q hq
    by_cases hqn : q = np
    · rw [hqn] at hq ⊢
      simpa [View.Live, View.clonePid] using hq
    · rwa [View.Live, hn q hqn] at hq
  have hhold : ∀ q s mp, (v.clonePid i np).Live q → (v.clonePid i np).hold q = some (s, mp) →
      q = i ∧ s = .named ∧ mp = np ∨ q ≠ i ∧ mp ≠ np ∧ v.hold q = some (s, mp) := by
    intro q s mp hq hs
    by_cases hqi : q = i
    · rw [hqi] at hs
      simp only [View.clonePid, View.setHold_hold, if_true, some.injEq, Prod.mk.injEq] at hs
      exact .inl ⟨hqi, hs.1.symm, hs.2.symm⟩
    · simp only [View.clonePid, View.setHold_hold, hqi, if_false] at hs
      refine .inr ⟨hqi, ?_, hs⟩
      intro hmp
      rw [hmp] at hs
      exact hqi (h.named.sane.unique q i s .alloc np (hlive q hq) hi hs hold)
  -- everybody is below the pid that was taken, the new slot through its creator
  have hwindow : ∀ q, ((v.clonePid i np).node q).pid < v.nextpid - 1 := by
    intro q
    by_cases hqn : q = np
    · rw [hqn, hnp.1]
      exact h.window i _ np hi hold rfl i fun hin => absurd hin hini
    · rw [hn q hqn]
      exact h.window i _ np hi hold rfl q fun hq => absurd hq hqn
  refine ⟨hnamed, ?_, ?_, ?_, ?_, ?_⟩
  · intro q
    have := hwindow q
    have hnext : (v.clonePid i np).nextpid = v.nextpid := rfl
    omega
  · intro x y hx hy
    have hxn : x ≠ np := by
      intro hxn
      rw [hxn, hnp.2] at hx
      cases hx
    have hyn : y ≠ np := by
      intro hyn
      rw [hyn, hnp.2] at hy
      cases hy
    rw [hn x hxn] at hx ⊢
    rw [hn y hyn] at hy ⊢
    exact h.mains x y hx hy
  · intro j s mp _ _ _ q _
    exact hwindow q
  · intro j l s t mp mp' hj hl hs ht hws hwt
    have hwin : ∀ q s mp, (v.clonePid i np).Live q → (v.clonePid i np).hold q = some (s, mp) →
        s.window = true → q = i := by
      intro q s mp hq hs hw
      rcases hhold q s mp hq hs with ⟨rfl, -, -⟩ | ⟨-, -, hs⟩
      · rfl
      · exact h.single q i s .alloc mp np (hlive q hq) hi hs hold hw rfl
    rw [hwin j s mp hj hs hws, hwin l t mp' hl ht hwt]
  · intro j s mp hj hs ht q hq
    rcases hhold j s mp hj hs with ⟨-, rfl, -⟩ | ⟨hji, hmp, hs⟩
    · cases ht
    · rw [hn mp hmp] at hq
      by_cases hqn : q = np
      · rw [hqn, hnp.1] at hq
        have himp := h.lone j s mp (hlive j hj) hs ht i hq
        exact absurd himp.symm ((h.named.sane.held j s mp (hlive j hj) hs).ne_live hi)
      · rw [hn q hqn] at hq
        exact h.lone j s mp (hlive j hj) hs ht q hq

theorem Pids.cloneNext (h : Pids v) (hi : v.Live i) (hold : v.hold i = some (.named, np))
    (hnamed : Named (v.cloneNext i np)) : Pids (v.cloneNext i np) := by
  have hhold : ∀ q s mp, v.Live q → (v.cloneNext i np).hold q = some (s, mp) →
      s = .counted ∨ v.hold q = some (s, mp) ∧ s.window = false := by
    intro q s mp hq hs
    by_cases hqi : q = i
    · rw [hqi] at hs
      simp only [View.cloneNext, View.setHold_hold, if_true, some.injEq, Prod.mk.injEq] at hs
      exact .inl hs.1.symm
    · simp only [View.cloneNext, View.setHold_hold, hqi, if_false] at hs
      refine .inr ⟨hs, ?_⟩
      by_contra hw
      exact hqi (h.single q i s .named mp np hq hi hs hold (by simpa using hw) rfl)
  refine ⟨hnamed, ?_, h.mains, ?_, ?_, ?_⟩
  · intro q
    exact h.window i _ np hi hold rfl q fun _ => rfl
  · intro j s mp hj hs hw
    rcases hhold j s mp hj hs with rfl | ⟨-, hw'⟩
    · cases hw
    · rw [hw'] at hw
      cases hw
  · intro j l s t mp mp' hj hl hs ht hws
    rcases hhold j s mp hj hs with rfl | ⟨-, hw'⟩
    · cases hws
    · rw [hw'] at hws
      cases hws
  · intro j s mp hj hs ht
    rcases hhold j s mp hj hs with rfl | ⟨hs, -⟩
    · cases ht
    · exact h.lone j s mp hj hs ht

theorem Pids.move {a : Act} (h : Pids v) (hm : Move v a v') (hok : a.starts = true → v.Clear) :
    Pids v' := by
  have hnamed := h.named.move hm
  cases id hm with
  | quiet => exact h
  | @forkNoStack i p hi hidle hp | @cloneNoStack i p _ _ _ hi hidle hp hn =>
    apply h.take (i := i) p (hok rfl) hnamed rfl
    · rw [v.fresh_node_self]
    · exact fun q => v.fresh_node_of_ne p _
    · intro q s np hq hs
      have hqp : q ≠ p := by
        intro hqp
        rw [View.Live, hqp, v.fresh_node_self] at hq
        cases hq
      rw [View.Live, v.fresh_node_of_ne p _ hqp] at hq
      exact .inr ⟨(h.named.sane.held q s np hq hs).ne_unused hp, hq, hs⟩
  | @fork i p hi hidle hp | @clone i p _ _ _ hi hidle hp hn =>
    apply h.take (i := i) p (hok rfl) hnamed rfl
    · simp [alloc, v.fresh_node_self]
    · intro q hq
      simp [alloc, v.fresh_node_of_ne p _ hq]
    · intro q s np hq hs
      have hqp : q ≠ p := by
        intro hqp
        simp [View.Live, alloc, hqp, v.fresh_node_self] at hq
      by_cases hqi : q = i
      · simp only [alloc, setHold_hold, hqi, if_true, some.injEq, Prod.mk.injEq] at hs
        exact .inl ⟨hs.2.symm, hs.1 ▸ rfl, hqi⟩
      · simp only [View.Live, alloc, setHold_node, v.fresh_node_of_ne p _ hqp] at hq
        simp only [alloc, setHold_hold, hqi, hqp, if_false, fresh_hold] at hs
        exact .inr ⟨(h.named.sane.held q s np hq hs).ne_unused hp, hq, hs⟩
  | clonePid hi hold => exact h.clonePid hi hold hnamed
  | cloneNext hi hold => exact h.cloneNext hi hold hnamed
  | @forkFail _ z | @cloneDone _ z | @cloneLost _ z | @reap _ z | @join _ z =>
    apply h.frame hnamed rfl (h.named.sane.hold_of_move hm rfl)
    intro q
    by_cases hq : q = z <;> simp [forkFail, start, reap, View.join, hq]
  | @forkDone i np g hi hold hg =>
    have ht := ((h.named.sane.held _ _ _ hi hold).bare rfl).2
    apply h.frame hnamed rfl (h.named.sane.hold_of_move hm rfl)
    intro q
    by_cases hq : q = np <;> simp [forkDone, hq, ht]
  | exitThreads hi hidle hinit ht =>
    apply h.frame hnamed rfl (h.named.sane.hold_of_move hm rfl)
    intro q
    obtain ⟨-, hpid, -, hthread, -⟩ := h.named.endAll_name hi q
    exact .inl ⟨hpid, fun hf => hthread ▸ hf⟩
  | exitMain hi hidle hinit ht | threadExit hi hidle hinit =>
    apply h.frame hnamed rfl (h.named.sane.hold_of_move hm rfl)
    intro q
    obtain ⟨-, hpid, -, hthread, -⟩ := h.named.leave_name hi _ q
    exact .inl ⟨hpid, fun hf => hthread ▸ hf⟩
  | exec hi hidle hg =>
    apply h.frame hnamed rfl (h.named.sane.hold_of_move hm rfl)
    intro q
    simp [v.exec_node]

def View.threads (v : View) (pid : ℤ) : Finset Slot :=
  {q | (v.node q).phase ≠ .unused ∧ (v.node q).isThread = true ∧ (v.node q).pid = pid ∧
    (v.node q).tid ≠ 0}

theorem View.mem_threads {pid : ℤ} {q : Slot} : q ∈ v.threads pid ↔
    (v.node q).IsThread ∧ (v.node q).pid = pid ∧ (v.node q).tid ≠ 0 := by
  simp only [threads, mem_filter_univ, Node.IsThread, and_assoc]

def View.cloning (v : View) (i : Slot) : Bool := (v.hold i).any fun h => h.1 ≠ .fork

theorem View.cloning_iff : v.cloning i = true ↔ ∃ s np, v.hold i = some (s, np) ∧ s ≠ .fork := by
  simp only [cloning, any_eq_true, Prod.exists, decide_eq_true_eq]

/-- Each main slot counts the threads of its process, `clone` is only under way where there is
room for one more, and a thread without an id is being created. -/
structure Counts (v : View) : Prop where
  pids : Pids v
  zero : ∀ q, (v.node q).IsThread → (v.node q).numOfThread = 0
  count : ∀ m, (v.node m).isThread = false → (v.node m).pid ≠ 0 →
    (v.node m).numOfThread = (v.threads (v.node m).pid).card
  cap : ∀ pid, (v.threads pid).card ≤ 7
  room : ∀ i, v.Live i → v.cloning i = true → (v.threads (v.node i).pid).card ≤ 6
  solo : ∀ i j, v.Live i → v.Live j → v.cloning i = true → v.cloning j = true →
    (v.node i).pid = (v.node j).pid → i = j
  pending : ∀ q, (v.node q).IsThread → (v.node q).tid = 0 →
    ∃ i s, v.Live i ∧ v.hold i = some (s, q)

theorem Counts.of_card (h : Counts v) (hpids : Pids v')
    (hcard : ∀ pid, (v'.threads pid).card ≤ (v.threads pid).card ∨
      (v'.threads pid).card ≤ 7 ∧ ∀ q, v'.Live q → v'.cloning q = true → (v'.node q).pid ≠ pid)
    (hclone : ∀ q, v'.Live q → v'.cloning q = true →
      v.Live q ∧ v.cloning q = true ∧ (v'.node q).pid = (v.node q).pid)
    (hzero : ∀ q, (v'.node q).IsThread → (v'.node q).numOfThread = 0)
    (hcount : ∀ m, (v'.node m).isThread = false → (v'.node m).pid ≠ 0 →
      (v'.node m).numOfThread = (v'.threads (v'.node m).pid).card)
    (hpending : ∀ q, (v'.node q).IsThread → (v'.node q).tid = 0 →
      ∃ i s, v'.Live i ∧ v'.hold i = some (s, q)) : Counts v' where
  pids := hpids
  zero := hzero
  count := hcount
  cap pid := by
    rcases hcard pid with hle | ⟨hle, -⟩
    · exact hle.trans (h.cap pid)
    · exact hle
  room i hi hc := by
    obtain ⟨hi', hc', hpid⟩ := hclone i hi hc
    rcases hcard (v'.node i).pid with hle | ⟨-, hne⟩
    · rw [hpid] at hle ⊢
      exact hle.trans (h.room i hi' hc')
    · exact absurd rfl (hne i hi hc)
  solo i j hi hj hci hcj hij := by
    obtain ⟨hi, hci, hpi⟩ := hclone i hi hci
    obtain ⟨hj, hcj, hpj⟩ := hclone j hj hcj
    rw [hpi, hpj] at hij
    exact h.solo i j hi hj hci hcj hij
  pending := hpending

theorem View.threads_congr (h : ∀ q, (v.node q).SameName (v'.node q)) (pid : ℤ) :
    v'.threads pid = v.threads pid := by
  ext q
  obtain ⟨hthread, hpid, htid, -⟩ := h q
  rw [mem_threads, mem_threads, hthread, hpid, htid]

/-- One slot changes that is no thread with an id, neither before nor afterwards. -/
theorem View.threads_update (p : Slot) (h : ∀ q ≠ p, (v.node q).SameName (v'.node q))
    (hp : (v.node p).IsThread → (v.node p).tid = 0)
    (hp' : (v'.node p).IsThread → (v'.node p).tid = 0) (pid : ℤ) :
    v'.threads pid = v.threads pid := by
  ext q
  rw [mem_threads, mem_threads]
  by_cases hq : q = p
  · rw [hq]
    exact ⟨fun hm => absurd (hp' hm.1) hm.2.2, fun hm => absurd (hp hm.1) hm.2.2⟩
  · obtain ⟨hthread, hpid, htid, -⟩ := h q hq
    rw [hthread, hpid, htid]

/-- What has to hold of a slot that changes: a new main slot counts the threads of its pid, a
new thread is held by its creator. -/
structure Changed (v v' : View) (q : Slot) : Prop where
  zero : (v'.node q).IsThread → (v'.node q).numOfThread = 0
  count : (v'.node q).isThread = false → (v'.node q).pid ≠ 0 →
    (v'.node q).numOfThread = (v.threads (v'.node q).pid).card
  pending : (v'.node q).IsThread → (v'.node q).tid = 0 →
    ∃ i s, v'.Live i ∧ v'.hold i = some (s, q)

theorem Counts.frame (h : Counts v) (hpids : Pids v')
    (hthreads : ∀ pid, v'.threads pid = v.threads pid)
    (hclone : ∀ q, v'.Live q → v'.cloning q = true →
      v.Live q ∧ v.cloning q = true ∧ (v'.node q).pid = (v.node q).pid)
    (hkeep : ∀ i s q, v.Live i → v.hold i = some (s, q) → (v.node q).IsThread →
      ∃ t, v'.Live i ∧ v'.hold i = some (t, q))
    (hslot : ∀ q, (v.node q).SameName (v'.node q) ∨ Changed v v' q) : Counts v' := by
  apply h.of_card hpids (fun pid => .inl (by rw [hthreads])) hclone
  · intro q hq
    rcases hslot q with ⟨hthread, -, -, -, hnum⟩ | hnew
    · rw [hnum]
      exact h.zero q (hthread.mp hq)
    · exact hnew.zero hq
  · intro m hm h0
    rcases hslot m with ⟨-, hpid, -, hthread, hnum⟩ | hnew
    · rw [hpid] at h0
      rw [hthread] at hm
      rw [hthreads, hpid, hnum]
      exact h.count m hm h0
    · rw [hthreads]
      exact hnew.count hm h0
  · intro q hq htid
    rcases hslot q with ⟨hthread, hpid, htid', -⟩ | hnew
    · have hq' := hthread.mp hq
      rw [htid'] at htid
      obtain ⟨i, s, hi, hs⟩ := h.pending q hq' htid
      obtain ⟨t, hi', ht⟩ := hkeep i s q hi hs hq'
      exact ⟨i, t, hi', ht⟩
    · exact hnew.pending hq htid

theorem Counts.threads_lone (h : Counts v) (hi : v.Live i) (hold : v.hold i = some (s, np))
    (hs : s.tied = false) : v.threads (v.node np).pid = ∅ := by
  rw [eq_empty_iff_forall_notMem]
  intro q hq
  rw [mem_threads] at hq
  obtain rfl := h.pids.lone i s np hi hold hs q hq.2.1
  have hbare := ((h.pids.named.sane.held i s q hi hold).bare hs).2
  rw [Node.IsThread, hbare] at hq
  cases hq.1.2

theorem Counts.threads_next (h : Counts v) : v.threads v.nextpid = ∅ := by
  rw [eq_empty_iff_forall_notMem]
  intro q hq
  rw [mem_threads] at hq
  have := h.pids.bound q
  omega

/-- The main slot that `clone` finds counts the threads of the process. -/
theorem Counts.main (h : Counts v) {m : Slot} (hi : v.Live i)
    (hm : v.mainSlot (v.node i).pid = some m) : (v.node m).isThread = false ∧
    (v.node m).pid = (v.node i).pid ∧ (v.node m).numOfThread = (v.threads (v.node i).pid).card := by
  obtain ⟨hpid, ht⟩ : _ ∧ _ := by simpa using List.find?_some hm
  have hpos := h.pids.named.pos i fun hu => hi.ne_unused hu rfl
  refine ⟨ht, hpid, ?_⟩
  rw [h.count m ht (by omega), hpid]

theorem Node.SameName.of_eq {n n' : Node} (h : n' = n) : n.SameName n' := by
  subst h
  exact ⟨.rfl, rfl, rfl, rfl, rfl⟩

theorem Counts.fresh (h : Counts v) (hp : (v.node p).phase = .unused)
    (hpids : Pids (v.fresh p .unused)) : Counts (v.fresh p .unused) := by
  have hn : ∀ q ≠ p, (v.node q).SameName ((v.fresh p .unused).node q) :=
    fun q hq => .of_eq (v.fresh_node_of_ne p _ hq)
  have hpp := v.fresh_node_self p .unused
  have hlive : ∀ q ≠ p, ((v.fresh p .unused).Live q ↔ v.Live q) := by
    intro q hq
    rw [View.Live, View.Live, v.fresh_node_of_ne p _ hq]
  apply h.frame hpids
  · apply threads_update p hn
    · exact fun ht => absurd hp ht.1
    · rw [hpp]
      exact fun ht => absurd rfl ht.1
  · intro q hq hc
    have hqp : q ≠ p := by
      intro hqp
      rw [View.Live, hqp, hpp] at hq
      cases hq
    exact ⟨(hlive q hqp).mp hq, hc, (hn q hqp).2.1⟩
  · intro i s q hi hs _
    exact ⟨s, (hlive i (hi.ne_unused hp)).mpr hi, hs⟩
  · intro q
    by_cases hq : q = p
    · rw [hq]
      refine .inr ⟨?_, ?_, ?_⟩ <;> rw [hpp]
      · exact fun ht => absurd rfl ht.1
      · intro _ _
        simp [h.threads_next]
      · exact fun ht => absurd rfl ht.1
    · exact .inl (hn q hq)

/-- `allocproc` in `fork` or `clone`; the latter needs room for another thread. -/
theorem Counts.alloc (h : Counts v) (hi : v.Live i) (hidle : v.hold i = none)
    (hp : (v.node p).phase = .unused) (hpids : Pids (v.alloc i p s))
    (hroom : s ≠ .fork → (v.threads (v.node i).pid).card ≤ 6 ∧
      ∀ j, v.Live j → (v.node j).pid = (v.node i).pid → v.cloning j = false) :
    Counts (v.alloc i p s) := by
  have hip := hi.ne_unused hp
  have hn : ∀ q ≠ p, (v.alloc i p s).node q = v.node q := fun q => v.fresh_node_of_ne p _
  have hpp : (v.alloc i p s).node p = _ := v.fresh_node_self p .embryo
  have hthreads : ∀ pid, (v.alloc i p s).threads pid = v.threads pid := by
    apply threads_update p fun q hq => .of_eq (hn q hq)
    · exact fun ht => absurd hp ht.1
    · rw [hpp]
      rintro ⟨-, ht⟩
      cases ht
  have hclone : ∀ q, (v.alloc i p s).Live q → (v.alloc i p s).cloning q = true →
      q ≠ p ∧ v.Live q ∧ (q = i ∧ s ≠ .fork ∨ v.cloning q = true) := by
    intro q hq hc
    have hqp : q ≠ p := by
      intro hqp
      rw [View.Live, hqp, hpp] at hq
      cases hq
    rw [View.Live, hn q hqp] at hq
    refine ⟨hqp, hq, ?_⟩
    by_cases hqi : q = i
    · rw [hqi] at hc
      exact .inl ⟨hqi, by simpa [View.cloning, View.alloc] using hc⟩
    · exact .inr (by simpa [View.cloning, View.alloc, hqi, hqp] using hc)
  -- a process that clones already is not the caller's
  have hother : ∀ q, v.Live q → v.cloning q = true → s ≠ .fork →
      (v.node q).pid ≠ (v.node i).pid := by
    intro q hq hc hs hpid
    rw [(hroom hs).2 q hq hpid] at hc
    cases hc
  refine ⟨hpids, ?_, ?_, ?_, ?_, ?_, ?_⟩
  · intro q hq
    by_cases hqp : q = p
    · rw [hqp, hpp] at hq
      cases hq.2
    · rw [hn q hqp] at hq ⊢
      exact h.zero q hq
  · intro m hm h0
    rw [hthreads]
    by_cases hmp : m = p
    · rw [hmp, hpp]
      simp [h.threads_next]
    · rw [hn m hmp] at hm h0 ⊢
      exact h.count m hm h0
  · intro pid
    rw [hthreads]
    exact h.cap pid
  · intro q hq hc
    obtain ⟨hqp, hq, hc⟩ := hclone q hq hc
    rw [hthreads, hn q hqp]
    rcases hc with ⟨rfl, hs⟩ | hc
    · exact (hroom hs).1
    · exact h.room q hq hc
  · intro x y hx hy hcx hcy hxy
    obtain ⟨hxp, hx', hx''⟩ := hclone x hx hcx
    obtain ⟨hyp, hy', hy''⟩ := hclone y hy hcy
    rw [hn x hxp, hn y hyp] at hxy
    rcases hx'' with ⟨rfl, hs⟩ | hcx' <;> rcases hy'' with ⟨rfl, hs'⟩ | hcy'
    · rfl
    · exact absurd hxy.symm (hother y hy' hcy' hs)
    · exact absurd hxy (hother x hx' hcx' hs')
    · exact h.solo x y hx' hy' hcx' hcy' hxy
  · intro q hq htid
    have hqp : q ≠ p := by
      intro hqp
      rw [hqp, hpp] at hq
      cases hq.2
    rw [hn q hqp] at hq htid
    obtain ⟨j, t, hj, ht⟩ := h.pending q hq htid
    have hji : j ≠ i := by
      intro hji
      rw [hji, hidle] at ht
      cases ht
    have hjp := hj.ne_unused hp
    refine ⟨j, t, ?_, ?_⟩
    · rw [View.Live, hn j hjp]
      exact hj
    · simpa [View.alloc, hji, hjp] using ht

/-- Letting go of a slot does not disturb those who hold another one. -/
theorem Held.finish_keep (h : Held v i s np) (hold : v.hold i = some (s, np))
    (hhold : ∀ q, v'.hold q = if q = i then none else v.hold q)
    (hphase : ∀ q ≠ np, (v'.node q).phase = (v.node q).phase) {j q : Slot} {t : Stage}
    (hj : v.Live j) (ht : v.hold j = some (t, q)) (hq : q ≠ np) :
    v'.Live j ∧ v'.hold j = some (t, q) := by
  have hji : j ≠ i := by
    intro hji
    rw [hji, hold] at ht
    cases ht
    exact hq rfl
  refine ⟨?_, ?_⟩
  · rw [View.Live, hphase j fun hjn => h.ne_live hj hjn.symm]
    exact hj
  · rw [hhold, if_neg hji]
    exact ht

/-- A step that leaves all holders of threads alone and changes no names. -/
theorem Counts.same (h : Counts v) (hpids : Pids v') (hn : ∀ q, (v.node q).SameName (v'.node q))
    (hhold : ∀ q s np, v'.Live q → v'.hold q = some (s, np) → v.Live q ∧ v.hold q = some (s, np))
    (hkeep : ∀ i s q, v.Live i → v.hold i = some (s, q) → (v.node q).IsThread →
      ∃ t, v'.Live i ∧ v'.hold i = some (t, q)) : Counts v' := by
  apply h.frame hpids (threads_congr hn) _ hkeep fun q => .inl (hn q)
  intro q hq hc
  obtain ⟨s, np, hs, ht⟩ := cloning_iff.mp hc
  obtain ⟨hq, hs⟩ := hhold q s np hq hs
  exact ⟨hq, cloning_iff.mpr ⟨s, np, hs, ht⟩, (hn q).2.1⟩

theorem Sane.cloning_of_thread {q : Slot} (h : Sane v) (hi : v.Live i)
    (hs : v.hold i = some (s, q)) (hq : (v.node q).IsThread) : v.cloning i = true := by
  refine cloning_iff.mpr ⟨s, q, hs, fun hf => ?_⟩
  subst hf
  have hbare := ((h.held i .fork q hi hs).bare rfl).2
  rw [Node.IsThread, hbare] at hq
  cases hq.2

theorem Counts.forkEnd (h : Counts v) (hi : v.Live i) (hold : v.hold i = some (.fork, np))
    (hpids : Pids v') (hhold : ∀ q, v'.hold q = if q = i then none else v.hold q)
    (hn : ∀ q ≠ np, v'.node q = v.node q)
    (hnp : (v'.node np).pid = (v.node np).pid ∧ (v'.node np).tid = (v.node np).tid ∧
      (v'.node np).numOfThread = (v.node np).numOfThread)
    (ht : (v'.node np).isThread = false) : Counts v' := by
  have hheld := h.pids.named.sane.held i .fork np hi hold
  have hbare := (hheld.bare rfl).2
  have hphase : ∀ q ≠ np, (v'.node q).phase = (v.node q).phase := fun q hq => by rw [hn q hq]
  apply h.same hpids
  · intro q
    by_cases hq : q = np
    · rw [hq]
      refine ⟨?_, hnp.1, hnp.2.1, ht.trans hbare.symm, hnp.2.2⟩
      rw [Node.IsThread, Node.IsThread, ht, hbare]
      simp
    · exact .of_eq (hn q hq)
  · intro q t mp hq hs
    exact (hheld.finish_hold hhold hphase q t mp hq hs).2.2
  · intro j t q hj hs hq
    refine ⟨t, hheld.finish_keep hold hhold hphase hj hs fun hqn => ?_⟩
    rw [hqn, Node.IsThread, hbare] at hq
    cases hq.2

/-- The new thread gets its id and the main slots of the process count it. -/
theorem Counts.born (h : Counts v) (hi : v.Live i) (hold : v.hold i = some (.counted, np))
    (hpids : Pids v') (hhold : ∀ q, v'.hold q = if q = i then none else v.hold q)
    (hphase : ∀ q ≠ np, (v'.node q).phase = (v.node q).phase)
    (hpid : ∀ q, (v'.node q).pid = (v.node q).pid)
    (hthread : ∀ q, (v'.node q).isThread = (v.node q).isThread)
    (htid : ∀ q ≠ np, (v'.node q).tid = (v.node q).tid)
    (hnp : (v'.node np).phase = .live ∧ (v'.node np).tid ≠ 0)
    (hnum : ∀ q, (v'.node q).numOfThread = (v.node q).numOfThread + if (v.node q).isThread = false ∧
      (v.node q).pid = (v.node i).pid then 1 else 0) :
    Counts v' := by
  have hheld := h.pids.named.sane.held i _ np hi hold
  obtain ⟨-, -, hnpid, hnthread⟩ := hheld.tied rfl
  have hused : (v.node np).phase ≠ .unused := fun hu => hheld.ne_unused hu rfl
  have hnp' : (v'.node np).IsThread := ⟨by simp [hnp.1], (hthread np).trans hnthread⟩
  have hthreads : ∀ pid, v'.threads pid =
      if pid = (v.node i).pid then insert np (v.threads pid) else v.threads pid := by
    intro pid
    ext q
    have hq : q ∈ v'.threads pid ↔ q = np ∧ pid = (v.node i).pid ∨ q ∈ v.threads pid := by
      rw [mem_threads, mem_threads, hpid]
      by_cases hqn : q = np
      · rw [hqn, hnpid, hheld.tid]
        simp [hnp', hnp.2, eq_comm]
      · rw [htid q hqn, Node.IsThread, hphase q hqn, hthread]
        simp [hqn, Node.IsThread]
    rw [hq]
    split_ifs with hpi <;> simp [hpi]
  have hnotin : ∀ pid, np ∉ v.threads pid := fun pid hm => (mem_threads.mp hm).2.2 hheld.tid
  have hfinish := hheld.finish_hold hhold hphase
  have hclone : ∀ q, v'.Live q → v'.cloning q = true → q ≠ i ∧ v.Live q ∧ v.cloning q = true := by
    intro q hq hc
    obtain ⟨t, mp, hs, ht⟩ := cloning_iff.mp hc
    obtain ⟨hqi, -, hq, hs⟩ := hfinish q t mp hq hs
    exact ⟨hqi, hq, cloning_iff.mpr ⟨t, mp, hs, ht⟩⟩
  have hci : v.cloning i = true := cloning_iff.mpr ⟨_, np, hold, by simp⟩
  apply h.of_card hpids
  · intro pid
    rw [hthreads]
    split_ifs with hpi
    · subst hpi
      right
      refine ⟨?_, fun q hq hc hqi => ?_⟩
      · rw [card_insert_of_notMem (hnotin _)]
        have := h.room i hi hci
        omega
      · obtain ⟨hne, hq, hc⟩ := hclone q hq hc
        rw [hpid] at hqi
        exact hne (h.solo q i hq hi hc hci hqi)
    · exact .inl le_rfl
  · intro q hq hc
    exact ⟨(hclone q hq hc).2.1, (hclone q hq hc).2.2, hpid q⟩
  · intro q hq
    rw [hnum, if_neg, Int.add_zero]
    · by_cases hqn : q = np
      · rw [hqn]
        exact h.zero np ⟨hused, hnthread⟩
      · rw [Node.IsThread, hphase q hqn, hthread] at hq
        exact h.zero q hq
    · intro hf
      rw [Node.IsThread, hthread, hf.1] at hq
      cases hq.2
  · intro m hm h0
    rw [hthread] at hm
    rw [hpid] at h0
    rw [hnum, hthreads, hpid, h.count m hm h0]
    by_cases hmi : (v.node m).pid = (v.node i).pid
    · rw [if_pos ⟨hm, hmi⟩, if_pos hmi, card_insert_of_notMem (hnotin _)]
      omega
    · rw [if_neg fun hf => hmi hf.2, if_neg hmi, Int.add_zero]
  · intro q hq htid0
    have hqn : q ≠ np := by
      intro hqn
      rw [hqn] at htid0
      exact hnp.2 htid0
    rw [Node.IsThread, hphase q hqn, hthread] at hq
    rw [htid q hqn] at htid0
    obtain ⟨j, t, hj, ht⟩ := h.pending q hq htid0
    exact ⟨j, t, hheld.finish_keep hold hhold hphase hj ht hqn⟩

theorem Counts.cloneDone {m : Slot} (h : Counts v) (hi : v.Live i)
    (hold : v.hold i = some (.counted, np)) (hm : v.mainSlot (v.node i).pid = some m)
    (hpids : Pids ((v.count m ((v.node m).numOfThread + 1)).start i np
      ((v.node m).numOfThread + 1))) :
    Counts ((v.count m ((v.node m).numOfThread + 1)).start i np ((v.node m).numOfThread + 1)) := by
  obtain ⟨hmt, hmpid, hcount⟩ := h.main hi hm
  have hpos := h.pids.named.pos i fun hu => hi.ne_unused hu rfl
  have hnpt := ((h.pids.named.sane.held i _ np hi hold).tied rfl).2.2.2
  apply h.born hi hold hpids
  · intro q
    simp [View.start, View.count]
  · intro q hq
    simp [start, hq]
  · intro q
    by_cases hq : q = np <;> simp [start, hq]
  · intro q
    by_cases hq : q = np <;> simp [start, hq]
  · intro q hq
    simp [start, hq]
  · refine ⟨by simp [start], ?_⟩
    simp only [start, setHold_node, setNode_node, if_true]
    omega
  · intro q
    have hqm : q = m ↔ (v.node q).isThread = false ∧ (v.node q).pid = (v.node i).pid := by
      refine ⟨fun hqm => hqm ▸ ⟨hmt, hmpid⟩, fun hq => ?_⟩
      exact h.pids.mains q m hq.1 hmt (hq.2.trans hmpid.symm) (by omega)
    simp only [← hqm]
    have hnum : ((v.count m ((v.node m).numOfThread + 1)).node q).numOfThread =
        (v.node q).numOfThread + if q = m then 1 else 0 := by
      rw [v.count_node]
      split_ifs with hq
      · rw [hq]
      · rw [Int.add_zero]
    rw [← hnum]
    by_cases hq : q = np <;> simp [start, hq]

section
variable (h : Counts v)
include h

/-- Without a main slot there is nobody to count the new thread. -/
theorem Counts.cloneLost (hi : v.Live i) (hold : v.hold i = some (.counted, np))
    (hm : v.mainSlot (v.node i).pid = none) (hpids : Pids (v.start i np (v.node i).tid)) :
    Counts (v.start i np (v.node i).tid) := by
  have hsane := h.pids.named.sane
  have hnone : ∀ q, (v.node q).pid = (v.node i).pid → (v.node q).isThread = true := by
    intro q hq
    have := List.find?_eq_none.mp hm q (List.mem_finRange q)
    simpa [hq] using this
  apply h.born hi hold hpids
  · intro q
    simp [start]
  · intro q hq
    simp [start, hq]
  · intro q
    by_cases hq : q = np <;> simp [start, hq]
  · intro q
    by_cases hq : q = np <;> simp [start, hq]
  · intro q hq
    simp [start, hq]
  · -- the caller is a thread itself, and nobody holds it
    have hthread : (v.node i).IsThread := ⟨fun hu => hi.ne_unused hu rfl, hnone i rfl⟩
    have htid : (v.node i).tid ≠ 0 := by
      intro htid
      obtain ⟨j, t, hj, ht⟩ := h.pending i hthread htid
      exact (hsane.held j t i hj ht).ne_live hi rfl
    simpa [start] using htid
  · intro q
    rw [if_neg, Int.add_zero]
    · by_cases hq : q = np <;> simp [start, hq]
    · intro hq
      rw [hnone q hq.2] at hq
      cases hq.1

theorem Counts.clonePid (hi : v.Live i) (hold : v.hold i = some (.alloc, np))
    (hpids : Pids (v.clonePid i np)) : Counts (v.clonePid i np) := by
  have hheld := h.pids.named.sane.held i _ np hi hold
  have hbare := (hheld.bare rfl).2
  have hpos := h.pids.named.pos np fun hu => hheld.ne_unused hu rfl
  have hn : ∀ q ≠ np, (v.node q).SameName ((v.clonePid i np).node q) :=
    fun q hq => .of_eq (by simp [View.clonePid, hq])
  have hphase : ∀ q, ((v.clonePid i np).node q).phase = (v.node q).phase := by
    intro q
    by_cases hq : q = np <;> simp [View.clonePid, hq]
  have hold' : (v.clonePid i np).hold i = some (.named, np) := by simp [View.clonePid]
  have hholdne : ∀ q ≠ i, (v.clonePid i np).hold q = v.hold q := by
    intro q hq
    simp [View.clonePid, hq]
  apply h.frame hpids
  · apply threads_update np hn
    · intro ht
      rw [Node.IsThread, hbare] at ht
      cases ht.2
    · intro _
      simpa [View.clonePid] using hheld.tid
  · intro q hq hc
    rw [View.Live, hphase] at hq
    refine ⟨hq, ?_, (hn q fun hqn => hheld.ne_live hq hqn.symm).2.1⟩
    by_cases hqi : q = i
    · rw [hqi, cloning, hold]
      rfl
    · rwa [cloning, hholdne q hqi] at hc
  · intro j t q hj hs hq
    have hji : j ≠ i := by
      intro hji
      rw [hji, hold] at hs
      cases hs
      rw [Node.IsThread, hbare] at hq
      cases hq.2
    exact ⟨t, by rwa [View.Live, hphase], by rwa [hholdne j hji]⟩
  · intro q
    by_cases hq : q = np
    · rw [hq]
      refine .inr ⟨fun _ => ?_, fun hf _ => ?_, fun _ _ => ?_⟩
      · have hcount := h.count np hbare (by omega)
        rw [h.threads_lone hi hold rfl] at hcount
        simpa [View.clonePid] using hcount
      · simp [View.clonePid] at hf
      · exact ⟨i, .named, by rwa [View.Live, hphase], hold'⟩
    · exact .inl (hn q hq)

theorem Counts.cloneNext (hold : v.hold i = some (.named, np))
    (hpids : Pids (v.cloneNext i np)) : Counts (v.cloneNext i np) := by
  have hold' : (v.cloneNext i np).hold i = some (.counted, np) := by simp [View.cloneNext]
  have hholdne : ∀ q ≠ i, (v.cloneNext i np).hold q = v.hold q := by
    intro q hq
    simp [View.cloneNext, hq]
  apply h.frame hpids
  · intro pid
    rfl
  · intro q hq hc
    refine ⟨hq, ?_, rfl⟩
    by_cases hqi : q = i
    · rw [hqi, cloning, hold]
      rfl
    · rwa [cloning, hholdne q hqi] at hc
  · intro j t q hj hs _
    by_cases hji : j = i
    · rw [hji, hold] at hs
      cases hs
      exact ⟨.counted, hj, hji ▸ hold'⟩
    · exact ⟨t, hj, by rwa [hholdne j hji]⟩
  · exact fun q => .inl (.of_eq rfl)

/-- A thread ends its process, in which nobody is in `clone`. -/
theorem Counts.endAll (hi : v.Live i) (hidle : v.hold i = none)
    (hpids : Pids ((v.endAll (v.node i).pid).die i))
    (hfree : ∀ j, v.Live j → v.cloning j = true → (v.node j).pid ≠ (v.node i).pid) :
    Counts ((v.endAll (v.node i).pid).die i) := by
  have hhold : ((v.endAll (v.node i).pid).die i).hold = v.hold := setHold_none_hold hidle
  apply h.same hpids (h.pids.named.endAll_name hi)
  · intro q s np hq hs
    exact ⟨(live_of_endAll hq).1, by rwa [hhold] at hs⟩
  · intro j s q hj hs hq
    have hpid := hfree j hj (h.pids.named.sane.cloning_of_thread hj hs hq)
    refine ⟨s, ?_, by rwa [hhold]⟩
    rwa [View.Live, v.die_endAll_node, if_neg hpid]

/-- A process leaves; the children it takes along are not in `clone`. -/
theorem Counts.leave (hi : v.Live i) (hidle : v.hold i = none) (keep : Node → Bool)
    (hpids : Pids ((v.reparent i keep).die i))
    (hfree : ∀ j, v.Live j → v.cloning j = true → (v.node j).parent = some i →
      keep (v.node j) = true) : Counts ((v.reparent i keep).die i) := by
  have hself := h.pids.named.sane.noSelf i
  have hhold : ((v.reparent i keep).die i).hold = v.hold := setHold_none_hold hidle
  apply h.same hpids (h.pids.named.leave_name hi keep)
  · intro q s np hq hs
    exact ⟨(live_of_reparent hself hq).1, by rwa [hhold] at hs⟩
  · intro j s q hj hs hq
    have hji : j ≠ i := by
      intro hji
      rw [hji, hidle] at hs
      cases hs
    refine ⟨s, ?_, by rwa [hhold]⟩
    rw [View.Live, v.die_reparent_node i keep hself, if_neg hji]
    split_ifs with hparent
    · rw [Node.passOn_phase, if_pos]
      · exact hj
      · exact hfree j hj (h.pids.named.sane.cloning_of_thread hj hs hq) hparent
    · exact hj

theorem Counts.reap (hidle : v.hold i = none) (hzombie : (v.node z).phase = .zombie)
    (hz : (v.node z).isThread = false) (hpids : Pids (v.reap i z)) : Counts (v.reap i z) := by
  have hn : ∀ q ≠ z, (v.reap i z).node q = v.node q := by
    intro q hq
    simp [View.reap, hq]
  have hzz : ((v.reap i z).node z).phase = .unused ∧ ((v.reap i z).node z).pid = 0 := by
    simp [View.reap]
  have hhold : (v.reap i z).hold = v.hold := setHold_none_hold hidle
  apply h.frame hpids
  · apply threads_update z fun q hq => .of_eq (hn q hq)
    · intro ht
      rw [Node.IsThread, hz] at ht
      cases ht.2
    · exact fun ht => absurd hzz.1 ht.1
  · intro q hq hc
    have hqz : q ≠ z := by
      intro hqz
      rw [View.Live, hqz, hzz.1] at hq
      cases hq
    rw [View.Live, hn q hqz] at hq
    rw [cloning, hhold] at hc
    exact ⟨hq, hc, by rw [hn q hqz]⟩
  · intro j s q hj hs _
    refine ⟨s, ?_, by rwa [hhold]⟩
    rwa [View.Live, hn]
    intro hjz
    rw [View.Live, hjz, hzombie] at hj
    cases hj
  · intro q
    by_cases hq : q = z
    · rw [hq]
      exact .inr ⟨fun ht => absurd hzz.1 ht.1, fun _ h0 => absurd hzz.2 h0,
        fun ht => absurd hzz.1 ht.1⟩
    · exact .inl (.of_eq (hn q hq))

theorem Counts.exec {g : ℕ} (hpids : Pids (v.exec i g)) : Counts (v.exec i g) := by
  have hn := v.exec_node i g
  have hlive : ∀ q, (v.exec i g).Live q ↔ v.Live q := by
    intro q
    rw [View.Live, View.Live, hn]
  apply h.same hpids
  · intro q
    rw [hn]
    exact ⟨.rfl, rfl, rfl, rfl, rfl⟩
  · intro q s np hq hs
    exact ⟨(hlive q).mp hq, hs⟩
  · intro j s q hj hs _
    exact ⟨s, (hlive j).mpr hj, hs⟩

theorem Counts.join (hidle : v.hold i = none)
    (hparent : (v.node z).parent = some i) (ht : (v.node z).isThread = true)
    (hzombie : (v.node z).phase = .zombie) (hpids : Pids (v.join i z))
    (hmain : (v.node i).isThread = false)
    (hpid : (v.node z).pid = (v.node i).pid) : Counts (v.join i z) := by
  have hn : ∀ q ≠ z, (v.join i z).node q = _ := fun q => v.join_node_of_ne i z
  have hz : ((v.join i z).node z).phase = .unused ∧ ((v.join i z).node z).pid = 0 := by
    simp [View.join]
  have hiz : i ≠ z := by
    intro hiz
    rw [hiz, ht] at hmain
    cases hmain
  have hhold : (v.join i z).hold = v.hold := setHold_none_hold hidle
  have hlive : ∀ q, (v.join i z).Live q → q ≠ z ∧ v.Live q := by
    intro q hq
    have hqz : q ≠ z := by
      intro hqz
      rw [View.Live, hqz, hz.1] at hq
      cases hq
    rw [View.Live, hn q hqz] at hq
    exact ⟨hqz, hq⟩
  have hzt : (v.node z).IsThread := ⟨by rw [hzombie]; simp, ht⟩
  -- a child of `i` is not held by anybody else, so `z` has its id
  have hmem : z ∈ v.threads (v.node i).pid := by
    refine mem_threads.mpr ⟨hzt, hpid, fun htid => ?_⟩
    obtain ⟨j, s, hj, hs⟩ := h.pending z hzt htid
    exact (h.pids.named.sane.held j s z hj hs).parent_ne hs hidle hparent
  have hthreads : ∀ pid, (v.join i z).threads pid = (v.threads pid).erase z := by
    intro pid
    ext q
    rw [mem_erase, mem_threads, mem_threads]
    by_cases hqz : q = z
    · rw [hqz, Node.IsThread, hz.1]
      simp
    · rw [hn q hqz]
      simp [hqz, Node.IsThread]
  apply h.of_card hpids
  · intro pid
    rw [hthreads]
    exact .inl (card_le_card (erase_subset z _))
  · intro q hq hc
    obtain ⟨hqz, hq⟩ := hlive q hq
    rw [cloning, hhold] at hc
    exact ⟨hq, hc, by rw [hn q hqz]⟩
  · intro q hq
    have hqz : q ≠ z := by
      intro hqz
      rw [hqz] at hq
      exact hq.1 hz.1
    have hqi : q ≠ i := by
      intro hqi
      rw [hqi, hn i hiz] at hq
      rw [Node.IsThread, hmain] at hq
      cases hq.2
    rw [hn q hqz] at hq ⊢
    simpa [hqi] using h.zero q hq
  · intro m hm h0
    have hmz : m ≠ z := by
      intro hmz
      rw [hmz] at h0
      exact h0 hz.2
    rw [hn m hmz] at hm h0 ⊢
    dsimp only at hm h0 ⊢
    have hcount := h.count m hm h0
    rw [hthreads]
    by_cases hmi : m = i
    · rw [hmi] at hcount ⊢
      have hcard := card_erase_add_one hmem
      rw [if_pos rfl]
      omega
    · have hne : (v.node m).pid ≠ (v.node i).pid := fun he => hmi (h.pids.mains m i hm hmain he h0)
      rw [if_neg hmi, hcount, erase_eq_of_notMem]
      intro hzm
      exact hne ((mem_threads.mp hzm).2.1.symm.trans hpid)
  · intro q hq htid
    have hqz : q ≠ z := by
      intro hqz
      rw [hqz] at hq
      exact hq.1 hz.1
    rw [hn q hqz] at hq htid
    obtain ⟨j, t, hj, ht'⟩ := h.pending q hq htid
    have hjz : j ≠ z := by
      intro hjz
      rw [View.Live, hjz, hzombie] at hj
      cases hj
    refine ⟨j, t, ?_, by rw [hhold]; exact ht'⟩
    rw [View.Live, hn j hjz]
    exact hj

end

/-- `clone` has taken a pid and not given it back. -/
def Pc.pidTaken : Pc → Bool
  | .cloneAlloc _ _ _ _ | .clonePid _ _ _ _ => true
  | _ => false

def Pc.cloning : Pc → Bool
  | .cloneAlloc _ _ _ _ | .clonePid _ _ _ _ | .cloneNext _ _ _ _ => true
  | _ => false

/-- No `thread_create` is under way in the process. -/
def Settled (k : Kernel) (pid : ℤ) : Prop :=
  ∀ j, (k.proc j).state.Runs → (k.proc j).pid = pid → (k.pc j).cloning = false

/-- The slots an `exit` by `i` makes zombies. -/
def Ends (k : Kernel) (i j : Slot) : Prop :=
  if (k.proc i).isThread then (k.proc j).pid = (k.proc i).pid
  else (k.proc j).parent = some i ∧ (k.proc j).pgdir = (k.proc i).pgdir

/-- A pid is only taken while no `clone` is about to step `nextpid` back, only main threads
fork and join, each of them only joins threads of its own process and does so before it waits.
`clone` finds a main slot whose counter is below the limit even when the caller is another one,
no other `thread_create` of the process is under way, and `exit` does not end one. -/
def Accounted (k : Kernel) : Act → Prop
  | .fork _ _ => ∀ j, (k.proc j).state.Runs → (k.pc j).pidTaken = false
  | .forkCopy i _ _ => (k.proc i).isThread = false
  | .clone i _ _ _ _ => (∀ j, (k.proc j).state.Runs → (k.pc j).pidTaken = false) ∧
      Settled k (k.proc i).pid ∧
      ∃ m ∈ mainSlot k.proc (k.proc i).pid, m ≠ i → (k.proc m).numOfThread ≠ 7
  | .exit i => ∀ j, (k.proc j).state.Runs → (k.pc j).cloning = true → ¬Ends k i j
  | .wait i => ∀ z, (k.proc z).parent = some i → (k.proc z).state = .ZOMBIE →
      (k.proc z).isThread = false
  | .waitThread i => (k.proc i).isThread = false ∧
      ∀ z, (k.proc z).parent = some i → (k.proc z).state = .ZOMBIE →
        (k.proc z).isThread = true → (k.proc z).pid = (k.proc i).pid
  | _ => True

theorem inWindow_view (k : Kernel) (j : Slot) : k.view.inWindow j = (k.pc j).pidTaken := by
  rw [inWindow, view_hold]
  cases k.pc j <;> rfl

theorem cloning_view (k : Kernel) (j : Slot) : k.view.cloning j = (k.pc j).cloning := by
  rw [cloning, view_hold]
  cases k.pc j <;> rfl

variable {k : Kernel}

theorem clear_view (h : ∀ j, (k.proc j).state.Runs → (k.pc j).pidTaken = false) : k.view.Clear := by
  intro j hj
  rw [inWindow_view]
  exact h j ((runs_iff k j).mpr hj)

theorem Counts.move {a : Act} (h : Counts k.view) (hm : Move k.view a v')
    (hok : Accounted k a) : Counts v' := by
  have hpids : Pids v' := by
    apply h.pids.move hm
    intro ha
    cases a with
    | fork => exact clear_view hok
    | clone => exact clear_view hok.1
    | _ => cases ha
  have hsane := h.pids.named.sane
  cases id hm with
  | quiet => exact h
  | forkNoStack hi hidle hp | cloneNoStack hi hidle hp hn => exact h.fresh hp hpids
  | fork hi hidle hp => exact h.alloc hi hidle hp hpids fun hs => absurd rfl hs
  | @clone i p f a s hi hidle hp hn =>
    apply h.alloc hi hidle hp hpids
    intro _
    obtain ⟨-, hsettled, m, hm', hlimit⟩ := hok
    refine ⟨?_, ?_⟩
    · obtain ⟨-, -, hcount⟩ := h.main hi hm'
      have hcap := h.cap (k.view.node i).pid
      have h7 : (k.view.node m).numOfThread ≠ 7 := by
        by_cases hmi : m = i
        · rw [hmi]
          exact hn
        · exact hlimit hmi
      omega
    · intro j hj hpid
      rw [cloning_view]
      exact hsettled j ((runs_iff k j).mpr hj) hpid
  | @forkFail i np _ _ hi hold =>
    have hbare := ((hsane.held i .fork np hi hold).bare rfl).2
    apply h.forkEnd hi hold hpids
    · intro q
      simp [forkFail]
    · intro q hq
      simp [forkFail, hq]
    · simp [forkFail]
    · simpa [forkFail] using hbare
  | @forkDone i np g hi hold hg =>
    apply h.forkEnd hi hold hpids
    · intro q
      simp [forkDone]
    · intro q hq
      simp [forkDone, hq]
    · simp [forkDone]
    · simpa [forkDone] using show (k.proc i).isThread = false from hok
  | clonePid hi hold => exact h.clonePid hi hold hpids
  | cloneNext hi hold => exact h.cloneNext hold hpids
  | cloneDone hi hold hm' => exact h.cloneDone hi hold hm' hpids
  | cloneLost hi hold hm' => exact h.cloneLost hi hold hm' hpids
  | @exitThreads i hi hidle hinit ht =>
    apply h.endAll hi hidle hpids
    intro j hj hc hpid
    rw [cloning_view] at hc
    have hthread : (k.proc i).isThread = true := ht
    apply hok j ((runs_iff k j).mpr hj) hc
    rw [Ends, if_pos hthread]
    exact hpid
  | @exitMain i hi hidle hinit ht =>
    apply h.leave hi hidle _ hpids
    intro j hj hc hparent
    rw [cloning_view] at hc
    have hmain : (k.proc i).isThread = false := ht
    have hends := hok j ((runs_iff k j).mpr hj) hc
    rw [Ends, if_neg (ne_true_of_eq_false hmain)] at hends
    rw [bne_iff_ne]
    exact fun hpg => hends ⟨hparent, hpg⟩
  | threadExit hi hidle hinit => exact h.leave hi hidle _ hpids fun _ _ _ _ => rfl
  | @reap i z hi hidle hz hzombie =>
    exact h.reap hidle hzombie (hok z hz (phase_zombie.mp hzombie)) hpids
  | @join i z hi hidle hz ht hzombie =>
    exact h.join hidle hz ht hzombie hpids hok.1 (hok.2 z hz (phase_zombie.mp hzombie) ht)
  | exec hi hidle hg => exact h.exec hpids

theorem pids_boot : Pids boot.view where
  named := named_boot
  bound q := by
    by_cases h0 : q = 0
    · subst h0
      decide
    · simp [boot, h0, unused]
  mains p q _ _ hpq hp := by
    have hzero : ∀ q, (boot.view.node q).pid ≠ 0 → q = 0 := by
      intro q hq
      by_contra h0
      simp [boot, h0, unused] at hq
    rw [hzero p hp, hzero q (hpq ▸ hp)]
  window i s np _ hs := by cases hs
  single i j s t np mp _ _ hs := by cases hs
  lone i s np _ hs := by cases hs

theorem not_isThread_boot (q : Slot) : (boot.view.node q).isThread = false := by
  by_cases h0 : q = 0
  · subst h0
    rfl
  · simp [boot, h0, unused]

theorem threads_boot (pid : ℤ) : boot.view.threads pid = ∅ := by
  rw [eq_empty_iff_forall_notMem]
  intro q hq
  rw [mem_threads, Node.IsThread, not_isThread_boot] at hq
  cases hq.1.2

theorem counts_boot : Counts boot.view where
  pids := pids_boot
  zero q hq := by
    rw [Node.IsThread, not_isThread_boot] at hq
    cases hq.2
  count m _ _ := by
    rw [threads_boot]
    by_cases h0 : m = 0
    · subst h0
      rfl
    · simp [boot, h0, unused]
  cap pid := by simp [threads_boot]
  room i _ _ := by simp [threads_boot]
  solo i j _ _ hc := by cases hc
  pending q hq := by
    rw [Node.IsThread, not_isThread_boot] at hq
    cases hq.2

theorem reachable_counts (h : Reachable Accounted k) : Counts k.view := by
  apply Reach.invariant (P := fun k => Counts k.view) _ _ h
  · intro k hk
    rw [hk]
    exact counts_boot
  · intro k a k' hk hok hstep
    obtain ⟨es, hstep⟩ := hstep
    exact hk.move (step_move hstep) hok

def threadsOf (k : Kernel) (pid : ℤ) : Finset Slot := {q | ThreadOf k pid q}

/-- A thread without its id is held by a process that is in `clone`. -/
theorem Counts.creator (h : Counts k.view) {pid : ℤ} {q : Slot}
    (hq : q ∈ threadsOf k pid) : q ∈ k.view.threads pid ∨
    ∃ i s, k.view.Live i ∧ k.view.hold i = some (s, q) ∧ k.view.cloning i = true ∧
      (k.view.node i).pid = pid := by
  rw [threadsOf, mem_filter_univ, threadOf_iff] at hq
  by_cases htid : (k.view.node q).tid = 0
  · obtain ⟨i, s, hi, hs⟩ := h.pending q hq.1 htid
    have hheld := h.pids.named.sane.held i s q hi hs
    refine .inr ⟨i, s, hi, hs, h.pids.named.sane.cloning_of_thread hi hs hq.1, ?_⟩
    cases ht : s.tied with
    | true =>
      obtain ⟨-, -, hpid, -⟩ := hheld.tied ht
      exact hpid.symm.trans hq.2
    | false =>
      rw [Node.IsThread, (hheld.bare ht).2] at hq
      cases hq.1.2
  · exact .inl (mem_threads.mpr ⟨hq.1, hq.2, htid⟩)

theorem threads_subset (k : Kernel) (pid : ℤ) : k.view.threads pid ⊆ threadsOf k pid := by
  intro q hq
  rw [mem_threads] at hq
  rw [threadsOf, mem_filter_univ, threadOf_iff]
  exact ⟨hq.1, hq.2.1⟩

theorem Counts.threadsOf_settled (h : Counts k.view) {pid : ℤ}
    (hset : Settled k pid) : threadsOf k pid = k.view.threads pid := by
  apply Finset.Subset.antisymm _ (threads_subset k pid)
  intro q hq
  rcases h.creator hq with hq | ⟨i, s, hi, -, hc, hpid⟩
  · exact hq
  · rw [cloning_view, hset i ((runs_iff k i).mpr hi) hpid] at hc
    cases hc

/-- One thread of a process is being created at most, and only while there is room. -/
theorem Counts.card_threadsOf_le (h : Counts k.view) (pid : ℤ) : (threadsOf k pid).card ≤ 7 := by
  by_cases hset : Settled k pid
  · rw [h.threadsOf_settled hset]
    exact h.cap pid
  · rw [Settled] at hset
    push Not at hset
    obtain ⟨j, hj, hpid, hc⟩ := hset
    rw [runs_iff] at hj
    rw [← cloning_view, Bool.ne_false_iff, cloning_iff] at hc
    obtain ⟨t, np, hold, ht⟩ := hc
    have hcj : k.view.cloning j = true := cloning_iff.mpr ⟨t, np, hold, ht⟩
    have hsub : threadsOf k pid ⊆ insert np (k.view.threads pid) := by
      intro q hq
      rw [mem_insert]
      rcases h.creator hq with hq | ⟨i, s, hi, hs, hci, hpi⟩
      · exact .inr hq
      · obtain rfl := h.solo i j hi hj hci hcj (hpi.trans hpid.symm)
        cases hs.symm.trans hold
        exact .inl rfl
    have hroom := h.room j hj hcj
    rw [show (k.view.node j).pid = pid from hpid] at hroom
    have := (card_le_card hsub).trans (card_insert_le np _)
    omega

/-- With a free slot and a page for the stack, `clone` only fails at the limit. -/
theorem clone_fails_iff {i : Slot} {f a s : Word} (hi : running k i = true)
    (hpc : k.pc i = .user) (hfree : ∃ p, (k.proc p).state = .UNUSED) :
    (∃ k', step k (.clone i f a s true) = some (k', [.ret i (-1)])) ↔
      (k.proc i).numOfThread = 7 := by
  simp only [step, hi, hpc, and_self, if_true, clone, some.injEq]
  split_ifs with h7
  · simp [h7]
  · obtain ⟨p, hp⟩ := hfree
    have hsome : (slots.find? fun p => decide ((k.proc p).state = .UNUSED)).isSome := by
      rw [List.find?_isSome]
      exact ⟨p, List.mem_finRange p, by simpa using hp⟩
    obtain ⟨q, hq⟩ := isSome_iff_exists.mp hsome
    simp [allocproc, hq, h7]

/-- init creates a thread, the thread creates another, and joins it when it has left. -/
def joinNested : List Act :=
  .dispatch 0 :: creates 0 ++ .dispatch 1 :: creates 1 ++
    [.dispatch 2, .threadExit 2 0, .dispatch 1, .threadJoin 1 2 0, .lockAcquire 1, .waitThread 1,
      .lockRelease 1]

instance (s : ProcState) : Decidable s.Runs := inferInstanceAs (Decidable (_ ∨ _))

instance (k : Kernel) (pid : ℤ) : Decidable (Settled k pid) :=
  inferInstanceAs (Decidable (∀ _, _))

instance (k : Kernel) (i j : Slot) : Decidable (Ends k i j) := by
  dsimp only [Ends]
  infer_instance

instance (k : Kernel) (a : Act) : Decidable (Accounted k a) := by
  apply Act.casesOn (motive := fun a => Decidable (Accounted k a)) a <;> intros <;>
    dsimp only [Accounted] <;> infer_instance

end Xv6Threads.ProcTable
