import Mathlib.Data.Fintype.Card
import Xv6Threads.Creation

namespace Xv6Threads.ProcTable

open Finset Node View

variable {v v' : View} {i p np z : Slot} {s : Stage}

instance (v : View) (q : Slot) : Decidable (v.Live q) := inferInstanceAs (Decidable (_ = _))

/-- `clone` has taken a pid and not given it back. -/
def Stage.window : Stage → Bool
  | .alloc | .named => true
  | .fork | .counted => false

def View.inWindow (v : View) (i : Slot) : Bool := (v.hold i).any fun h => h.1.window

/-- The processes in that part of `clone`. -/
def View.window (v : View) : Finset Slot := {i | v.Live i ∧ v.inWindow i = true}

@[simp] theorem View.mem_window : i ∈ v.window ↔ v.Live i ∧ v.inWindow i = true := by
  simp only [window, mem_filter_univ]

structure Named (v : View) : Prop where
  sane : Sane v
  next : (v.window.card : ℤ) + 2 ≤ v.nextpid
  pos : ∀ q, (v.node q).phase ≠ .unused → 0 < (v.node q).pid
  stale : ∀ q, (v.node q).phase = .unused → (v.node q).isThread = true → (v.node q).pid = 0

theorem Named.nextpid_pos (h : Named v) : 0 < v.nextpid := by
  have := h.next
  omega

theorem window_card_le (hlive : ∀ q, v'.Live q → v'.inWindow q = true →
    v.Live q ∧ v.inWindow q = true) : v'.window.card ≤ v.window.card := by
  apply card_le_card
  intro q hq
  rw [mem_window] at hq ⊢
  exact hlive q hq.1 hq.2

/-- A move that changes one slot and leaves the counter alone or counts up. -/
theorem Named.update (h : Named v) (p : Slot) (hsane : Sane v') (hnext : v.nextpid ≤ v'.nextpid)
    (hwindow : ∀ q, v'.Live q → v'.inWindow q = true → v.Live q ∧ v.inWindow q = true)
    (hn : ∀ q ≠ p, (v'.node q).phase = (v.node q).phase ∧
      (v'.node q).pid = (v.node q).pid ∧ (v'.node q).isThread = (v.node q).isThread)
    (hp : ((v'.node p).phase ≠ .unused → 0 < (v'.node p).pid) ∧
      ((v'.node p).phase = .unused → (v'.node p).isThread = true → (v'.node p).pid = 0)) :
    Named v' := by
  have hcard := window_card_le hwindow
  refine ⟨hsane, by have := h.next; omega, ?_, ?_⟩
  · intro q hq
    by_cases hqp : q = p
    · subst hqp
      exact hp.1 hq
    · rw [(hn q hqp).1] at hq
      rw [(hn q hqp).2.1]
      exact h.pos q hq
  · intro q hq ht
    by_cases hqp : q = p
    · subst hqp
      exact hp.2 hq ht
    · rw [(hn q hqp).1] at hq
      rw [(hn q hqp).2.2] at ht
      rw [(hn q hqp).2.1]
      exact h.stale q hq ht

theorem View.inWindow_congr {q : Slot} (h : v'.hold q = v.hold q) :
    v'.inWindow q = v.inWindow q := by
  rw [inWindow, inWindow, h]

section

variable (h : Named v)
include h

theorem Named.shrink (hsane : Sane v') (hnext : v'.nextpid = v.nextpid)
    (hhold : v'.hold = v.hold) (hlive : ∀ q, v'.Live q → v.Live q)
    (hn : ∀ q, (v'.node q).pid = (v.node q).pid ∧ (v'.node q).isThread = (v.node q).isThread ∧
      ((v'.node q).phase = .unused → (v.node q).phase = .unused) ∧
      ((v.node q).phase = .unused → (v'.node q).phase ≠ .unused → 0 < (v.node q).pid)) :
    Named v' := by
  have hcard : v'.window.card ≤ v.window.card := by
    apply window_card_le
    intro q hq hw
    rw [inWindow_congr (congrFun hhold q)] at hw
    exact ⟨hlive q hq, hw⟩
  refine ⟨hsane, by have := h.next; omega, ?_, ?_⟩
  · intro q hq
    rw [(hn q).1]
    by_cases hu : (v.node q).phase = .unused
    · exact (hn q).2.2.2 hu hq
    · exact h.pos q hu
  · intro q hq ht
    rw [(hn q).2.1] at ht
    rw [(hn q).1]
    exact h.stale q ((hn q).2.2.1 hq) ht

theorem Named.endAll (hi : v.Live i) (hidle : v.hold i = none)
    (hsane : Sane ((v.endAll (v.node i).pid).die i)) : Named ((v.endAll (v.node i).pid).die i) := by
  have hn := v.die_endAll_node i
  have hpos : 0 < (v.node i).pid := h.pos i (by rw [show (v.node i).phase = .live from hi]; simp)
  apply h.shrink hsane rfl (setHold_none_hold hidle)
  · exact fun q hq => (live_of_endAll hq).1
  · intro q
    rw [hn]
    split_ifs with hpid
    · exact ⟨by simp, by simp, by simp, fun _ _ => hpid ▸ hpos⟩
    · exact ⟨rfl, rfl, id, fun hu hu' => absurd hu hu'⟩

theorem Named.leave (hi : v.Live i) (hidle : v.hold i = none) (keep : Node → Bool)
    (hsane : Sane ((v.reparent i keep).die i)) : Named ((v.reparent i keep).die i) := by
  have hn := v.die_reparent_node i keep (h.sane.noSelf i)
  apply h.shrink hsane rfl (setHold_none_hold hidle)
  · exact fun q hq => (live_of_reparent (h.sane.noSelf i) hq).1
  · intro q
    rw [hn]
    split_ifs with hqi hparent
    · subst hqi
      refine ⟨rfl, rfl, by simp, fun hu => ?_⟩
      exact absurd rfl (hi.ne_unused hu)
    · refine ⟨by simp, by simp, ?_, fun hu => ?_⟩
      · rw [passOn_phase]
        split_ifs <;> simp
      · rw [h.sane.free q (.inl hu)] at hparent
        cases hparent
    · exact ⟨rfl, rfl, id, fun hu hu' => absurd hu hu'⟩

theorem Named.finish (hi : v.Live i) (hold : v.hold i = some (s, np))
    (hsane : Sane v') (hnext : v'.nextpid = v.nextpid)
    (hhold : ∀ q, v'.hold q = if q = i then none else v.hold q)
    (hn : ∀ q ≠ np, (v'.node q).phase = (v.node q).phase ∧
      (v'.node q).pid = (v.node q).pid ∧ (v'.node q).isThread = (v.node q).isThread)
    (hpid : (v'.node np).pid = (v.node np).pid)
    (hunused : (v'.node np).phase = .unused → (v'.node np).isThread = false) : Named v' := by
  have hheld := h.sane.held i s np hi hold
  apply h.update np hsane hnext.ge _ hn
  · refine ⟨fun _ => ?_, fun hu ht => ?_⟩
    · rw [hpid]
      exact h.pos np fun hu => hheld.ne_unused hu rfl
    · rw [hunused hu] at ht
      cases ht
  · intro q hq hw
    obtain ⟨⟨t, mp⟩, hs, ht⟩ := (Option.any_eq_true _ _).mp hw
    obtain ⟨-, -, hq, hs⟩ := hheld.finish_hold hhold (fun q hq => (hn q hq).1) q t mp hq hs
    exact ⟨hq, by rw [inWindow, hs]; exact ht⟩

theorem Named.fresh (hsane : Sane (v.fresh p .unused)) : Named (v.fresh p .unused) := by
  apply h.update p hsane
  · rw [v.fresh_nextpid]
    omega
  · intro q hq hw
    have hqp : q ≠ p := by
      intro hqp
      rw [Live, hqp, v.fresh_node_self] at hq
      cases hq
    rw [Live, v.fresh_node_of_ne p _ hqp] at hq
    exact ⟨hq, hw⟩
  · intro q hq
    rw [v.fresh_node_of_ne p _ hq]
    exact ⟨rfl, rfl, rfl⟩
  · rw [v.fresh_node_self]
    simp

theorem Named.alloc (hsane : Sane (v.alloc i p s)) : Named (v.alloc i p s) := by
  have hn : ∀ q ≠ p, (v.alloc i p s).node q = v.node q := fun q => v.fresh_node_of_ne p _
  have hpp : (v.alloc i p s).node p = _ := v.fresh_node_self p .embryo
  have hcard : (v.alloc i p s).window.card ≤ v.window.card + 1 := by
    refine (card_le_card ?_).trans (card_insert_le i v.window)
    intro q hq
    rw [mem_insert, mem_window]
    rw [mem_window] at hq
    by_cases hqi : q = i
    · exact .inl hqi
    · have hqp : q ≠ p := by
        intro hqp
        rw [Live, hqp, hpp] at hq
        cases hq.1
      rw [View.Live, hn q hqp] at hq
      refine .inr ⟨hq.1, ?_⟩
      have hhold : (v.alloc i p s).hold q = v.hold q := by simp [View.alloc, hqi, hqp]
      rw [← View.inWindow_congr hhold]
      exact hq.2
  refine ⟨hsane, ?_, ?_, ?_⟩
  · have hnext : (v.alloc i p s).nextpid = v.nextpid + 1 := rfl
    have := h.next
    omega
  · intro q hq
    by_cases hqp : q = p
    · rw [hqp, hpp]
      exact h.nextpid_pos
    · rw [hn q hqp] at hq ⊢
      exact h.pos q hq
  · intro q hq
    by_cases hqp : q = p
    · rw [hqp, hpp] at hq
      cases hq
    · rw [hn q hqp] at hq ⊢
      exact h.stale q hq

theorem Named.cloneNext (hi : v.Live i) (hold : v.hold i = some (.named, np))
    (hsane : Sane (v.cloneNext i np)) : Named (v.cloneNext i np) := by
  have hmem : i ∈ v.window := by simp [inWindow, hold, hi, Stage.window]
  have hcard : (v.cloneNext i np).window.card + 1 ≤ v.window.card := by
    rw [← card_erase_add_one hmem, Nat.add_le_add_iff_right]
    apply card_le_card
    intro q hq
    rw [mem_erase, mem_window]
    rw [View.mem_window] at hq
    by_cases hqi : q = i
    · rw [View.inWindow, hqi] at hq
      simp [View.cloneNext, Stage.window] at hq
    · rw [View.inWindow, View.cloneNext, View.setHold_hold, if_neg hqi] at hq
      exact ⟨hqi, hq⟩
  refine ⟨hsane, ?_, h.pos, h.stale⟩
  have hnext : (v.cloneNext i np).nextpid = v.nextpid - 1 := rfl
  have := h.next
  omega

theorem Named.move {a : Act} (hm : Move v a v') : Named v' := by
  have hsane := h.sane.move hm
  cases hm with
  | quiet => exact h
  | forkNoStack hi hidle hp | cloneNoStack hi hidle hp hn => exact h.fresh hsane
  | fork hi hidle hp | clone hi hidle hp hn => exact h.alloc hsane
  | forkFail hi hold =>
    apply h.finish hi hold hsane rfl
    · intro q
      simp [forkFail]
    · intro q hq
      simp [forkFail, hq]
    · simp [forkFail]
    · have ht := ((h.sane.held _ _ _ hi hold).bare rfl).2
      simp [forkFail, ht]
  | forkDone hi hold _ | cloneDone hi hold _ | cloneLost hi hold _ =>
    apply h.finish hi hold hsane rfl
    · intro q
      simp [forkDone, start, count]
    · intro q hq
      simp [forkDone, start, hq]
    · simp [forkDone, start]
    · simp [forkDone, start]
  | @clonePid i np hi hold =>
    have hheld := h.sane.held _ _ _ hi hold
    apply h.update np hsane le_rfl
    · intro q hq hw
      have hqn : q ≠ np := by
        intro hqn
        have hlive : v.Live np := by simpa [View.Live, View.clonePid, hqn] using hq
        exact hheld.ne_live hlive rfl
      have hq' : v.Live q := by simpa [View.Live, View.clonePid, hqn] using hq
      refine ⟨hq', ?_⟩
      by_cases hqi : q = i
      · simp [View.inWindow, hqi, hold, Stage.window]
      · simpa [View.inWindow, View.clonePid, hqi] using hw
    · intro q hq
      simp [View.clonePid, hq]
    · have hpos : 0 < (v.node i).pid := h.pos i fun hu => View.Live.ne_unused hi hu rfl
      have hused : (v.node np).phase ≠ .unused := fun hu => hheld.ne_unused hu rfl
      simp [View.clonePid, hpos, hused]
  | cloneNext hi hold => exact h.cloneNext hi hold hsane
  | exitThreads hi hidle hinit ht => exact h.endAll hi hidle hsane
  | exitMain hi hidle hinit ht | threadExit hi hidle hinit => exact h.leave hi hidle _ hsane
  | @reap i z hi hidle hz hzombie | @join i z hi hidle hz _ hzombie =>
    apply h.update z hsane le_rfl
    · intro q hq hw
      have hqz : q ≠ z := by
        intro hqz
        simp [Live, reap, join, hqz] at hq
      have hhold := congrFun (setHold_none_hold hidle) q
      exact ⟨by simpa [Live, reap, join, hqz] using hq,
        (inWindow_congr hhold).symm.trans hw⟩
    · intro q hq
      simp [reap, join, hq]
    · simp [reap, join]
  | exec hi hidle hg =>
    have hn := v.exec_node
    refine h.shrink hsane rfl rfl ?_ ?_
    · intro q
      simp [Live, hn]
    · intro q
      rw [hn]
      exact ⟨rfl, rfl, id, fun hu hu' => absurd hu hu'⟩

end

theorem named_boot : Named boot.view where
  sane := sane_boot
  next := by decide
  pos q hq := by
    by_cases h0 : q = 0
    · subst h0
      decide
    · simp [boot, h0, unused, ProcState.phase] at hq
  stale q _ ht := by
    by_cases h0 : q = 0
    · subst h0
      cases ht
    · simp [boot, h0, unused] at ht

/-- A slot in use for a thread of the process `pid`. -/
def ThreadOf (k : Kernel) (pid : ℤ) (q : Slot) : Prop :=
  (k.proc q).state ≠ .UNUSED ∧ (k.proc q).isThread = true ∧ (k.proc q).pid = pid

def UniqueTids (k : Kernel) : Prop :=
  ∀ pid p q, p ≠ q → ThreadOf k pid p → ThreadOf k pid q → (k.proc p).tid ≠ (k.proc q).tid

/-- Threads do not fork, a process creates one thread at a time, and when a thread gets its id,
the process has a main thread and no unjoined thread has an id above its counter: threads are
joined in the reverse order of their creation, or all of them before the next is created. -/
def InOrder (k : Kernel) : Act → Prop
  | .forkCopy i _ _ => (k.proc i).isThread = false
  | .clonePid i => ∀ q, ThreadOf k (k.proc i).pid q → (k.proc q).tid ≠ 0
  | .cloneDone i => ∃ m ∈ mainSlot k.proc (k.proc i).pid,
      ∀ q, ThreadOf k (k.proc i).pid q → (k.proc q).tid ≤ (k.proc m).numOfThread
  | _ => True

def Node.IsThread (n : Node) : Prop := n.phase ≠ .unused ∧ n.isThread = true

theorem threadOf_iff (k : Kernel) (pid : ℤ) (q : Slot) :
    ThreadOf k pid q ↔ (k.view.node q).IsThread ∧ (k.view.node q).pid = pid := by
  simp [ThreadOf, Node.IsThread, phase_unused, and_assoc]

def Node.SameName (n n' : Node) : Prop :=
  (n'.IsThread ↔ n.IsThread) ∧ n'.pid = n.pid ∧ n'.tid = n.tid ∧ n'.isThread = n.isThread ∧
    n'.numOfThread = n.numOfThread

theorem Named.endAll_name (h : Named v) (hi : v.Live i) (q : Slot) :
    (v.node q).SameName (((v.endAll (v.node i).pid).die i).node q) := by
  have hpos : 0 < (v.node i).pid := h.pos i fun hu => hi.ne_unused hu rfl
  rw [v.die_endAll_node]
  split_ifs with hpid
  · refine ⟨?_, by simp, by simp, by simp, by simp⟩
    simp only [Node.IsThread, ended_phase, ended_isThread]
    refine ⟨fun ht => ⟨fun hu => ?_, ht.2⟩, fun ht => ⟨by simp, ht.2⟩⟩
    -- an unused thread slot has pid 0
    have := h.stale q hu ht.2
    omega
  · exact ⟨.rfl, rfl, rfl, rfl, rfl⟩

theorem Named.leave_name (h : Named v) (hi : v.Live i) (keep : Node → Bool) (q : Slot) :
    (v.node q).SameName (((v.reparent i keep).die i).node q) := by
  rw [v.die_reparent_node i keep (h.sane.noSelf i)]
  split_ifs with hqi hparent
  · subst hqi
    refine ⟨?_, rfl, rfl, rfl, rfl⟩
    simp [Node.IsThread, show (v.node q).phase = .live from hi]
  · have hused : (v.node q).phase ≠ .unused := by
      intro hu
      rw [h.sane.free q (.inl hu)] at hparent
      cases hparent
    refine ⟨?_, by simp, by simp, by simp, by simp⟩
    rw [Node.IsThread, Node.IsThread, passOn_phase, passOn_isThread]
    split_ifs <;> simp [hused]
  · exact ⟨.rfl, rfl, rfl, rfl, rfl⟩

structure Tids (v : View) : Prop where
  named : Named v
  unique : ∀ p q, (v.node p).IsThread → (v.node q).IsThread → (v.node p).pid = (v.node q).pid →
    (v.node p).tid = (v.node q).tid → p = q

theorem Tids.frame (h : Tids v) (hnamed : Named v')
    (hn : ∀ q, (v'.node q).IsThread → (v.node q).IsThread ∧ (v'.node q).pid = (v.node q).pid ∧
      (v'.node q).tid = (v.node q).tid) : Tids v' where
  named := hnamed
  unique p q hp hq := by
    obtain ⟨hp', hppid, hptid⟩ := hn p hp
    obtain ⟨hq', hqpid, hqtid⟩ := hn q hq
    rw [hppid, hptid, hqpid, hqtid]
    exact h.unique p q hp' hq'

theorem Tids.update (h : Tids v) (p : Slot) (hnamed : Named v')
    (hn : ∀ q ≠ p, (v'.node q).phase = (v.node q).phase ∧
      (v'.node q).isThread = (v.node q).isThread ∧ (v'.node q).pid = (v.node q).pid ∧
      (v'.node q).tid = (v.node q).tid) (hp : ¬(v'.node p).IsThread) : Tids v' := by
  apply h.frame hnamed
  intro q hq
  have hqp : q ≠ p := fun hqp => hp (hqp ▸ hq)
  obtain ⟨hphase, ht, hpid, htid⟩ := hn q hqp
  rw [Node.IsThread, hphase, ht] at hq
  exact ⟨hq, hpid, htid⟩

/-- One slot becomes a thread, or gets its id, and nobody else in its process has that id. -/
theorem Tids.assign (h : Tids v) (p : Slot) (hnamed : Named v')
    (hn : ∀ q ≠ p, (v'.node q).phase = (v.node q).phase ∧
      (v'.node q).isThread = (v.node q).isThread ∧ (v'.node q).pid = (v.node q).pid ∧
      (v'.node q).tid = (v.node q).tid)
    (hp : ∀ q ≠ p, (v.node q).IsThread → (v.node q).pid = (v'.node p).pid →
      (v.node q).tid ≠ (v'.node p).tid) : Tids v' := by
  have hold : ∀ q ≠ p, (v'.node q).IsThread → (v.node q).IsThread := by
    intro q hqp hq
    rwa [Node.IsThread, (hn q hqp).1, (hn q hqp).2.1] at hq
  refine ⟨hnamed, fun x y hx hy hpid htid => ?_⟩
  by_cases hxp : x = p <;> by_cases hyp : y = p
  · rw [hxp, hyp]
  · rw [hxp, (hn y hyp).2.2.1] at hpid
    rw [hxp, (hn y hyp).2.2.2] at htid
    exact absurd htid.symm (hp y hyp (hold y hyp hy) hpid.symm)
  · rw [hyp, (hn x hxp).2.2.1] at hpid
    rw [hyp, (hn x hxp).2.2.2] at htid
    exact absurd htid (hp x hxp (hold x hxp hx) hpid)
  · rw [(hn x hxp).2.2.1, (hn y hyp).2.2.1] at hpid
    rw [(hn x hxp).2.2.2, (hn y hyp).2.2.2] at htid
    exact h.unique x y (hold x hxp hx) (hold y hyp hy) hpid htid

theorem Tids.move {k : Kernel} {a : Act} (h : Tids k.view) (hm : Move k.view a v')
    (hok : InOrder k a) : Tids v' := by
  have hnamed := h.named.move hm
  cases hm with
  | quiet => exact h
  | @forkNoStack _ p | @cloneNoStack _ p | @fork _ p | @clone _ p =>
    apply h.update p hnamed
    · intro q hq
      simp [alloc, fresh_node_of_ne _ _ _ hq]
    · simp [Node.IsThread, alloc, fresh_node_self]
  | @forkFail _ z | @reap _ z | @join _ z =>
    apply h.update z hnamed
    · intro q hq
      simp [forkFail, reap, join, hq]
    · simp [Node.IsThread, forkFail, reap, join]
  | @forkDone i np g hi hold hg =>
    apply h.update np hnamed
    · intro q hq
      simp [forkDone, hq]
    · have ht : (k.proc i).isThread = false := hok
      simp [Node.IsThread, forkDone, ht]
  | @clonePid i np hi hold =>
    have htid := (h.named.sane.held _ _ _ hi hold).tid
    apply h.assign np hnamed
    · intro q hq
      simp [View.clonePid, hq]
    · intro q hq hqt hpid
      rw [show ((k.view.clonePid i np).node np).tid = 0 by simpa [View.clonePid] using htid]
      apply hok q
      rw [threadOf_iff]
      exact ⟨hqt, by simpa [View.clonePid] using hpid⟩
  | cloneNext hi hold => exact ⟨hnamed, h.unique⟩
  | @cloneDone i np m hi hold hm =>
    obtain ⟨m', hm', hle⟩ := hok
    obtain rfl : m' = m := Option.some.inj (hm'.symm.trans hm)
    have hpidnp := ((h.named.sane.held _ _ _ hi hold).tied rfl).2.2.1
    apply h.assign np hnamed
    · intro q hq
      simp [start, hq]
    · intro q hq hqt hpid
      have hpid' : (k.view.node q).pid = (k.proc i).pid := by
        rw [hpid]
        simpa [start] using hpidnp
      have := hle q ((threadOf_iff k _ q).mpr ⟨hqt, hpid'⟩)
      simp [start]
      omega
  | cloneLost hi hold hm =>
    obtain ⟨m', hm', -⟩ := hok
    cases hm.symm.trans hm'
  | exitThreads hi hidle hinit ht =>
    apply h.frame hnamed
    intro q hq
    obtain ⟨hthread, hpid, htid, -⟩ := h.named.endAll_name hi q
    exact ⟨hthread.mp hq, hpid, htid⟩
  | exitMain hi hidle hinit ht | threadExit hi hidle hinit =>
    apply h.frame hnamed
    intro q hq
    obtain ⟨hthread, hpid, htid, -⟩ := h.named.leave_name hi _ q
    exact ⟨hthread.mp hq, hpid, htid⟩
  | exec hi hidle hg =>
    apply h.frame hnamed
    intro q
    rw [exec_node]
    exact fun hq => ⟨hq, rfl, rfl⟩

theorem reachable_tids {k : Kernel} (h : Reachable InOrder k) : Tids k.view := by
  apply Reach.invariant (P := fun k => Tids k.view) _ _ h
  · intro k hk
    subst hk
    refine ⟨named_boot, fun p q hp => ?_⟩
    by_cases h0 : p = 0
    · subst h0
      cases hp.2
    · exact absurd (show ((boot.proc p).state.phase =
        .unused) by simp [boot, h0, unused, ProcState.phase]) hp.1
  · intro k a k' hk hok hstep
    obtain ⟨es, hstep⟩ := hstep
    exact hk.move (step_move hstep) hok

theorem Tids.uniqueTids {k : Kernel} (h : Tids k.view) : UniqueTids k := by
  intro pid p q hpq hp hq htid
  rw [threadOf_iff] at hp hq
  exact hpq (h.unique p q hp.1 hq.1 (hp.2.trans hq.2.symm) htid)

theorem cloneDone_ret {k k' : Kernel} {i : Slot} {es : List Event} {r : ℤ} (hk : Sane k.view)
    (h : step k (.cloneDone i) = some (k', es)) (hr : Event.ret i r ∈ es) :
    ∃ np, ThreadOf k' (k.proc i).pid np ∧ (k'.proc np).tid = r := by
  simp only [step] at h
  split_ifs at h with hi
  split at h
  · rename_i np f a s hpc
    have hlive := running_live hi
    obtain ⟨-, -, hpid, ht⟩ := (hk.held i .counted np hlive (by rw [view_hold, hpc]; rfl)).tied rfl
    have h := Option.some.inj h
    have hr : r = nextTid k i := by
      have hes := cloneDone_events k i np f a s
      rw [h] at hes
      simpa [show es = _ from hes] using hr
    have hv : k'.view = _ := h ▸ cloneDone_view np f a s hlive
    have hnode : (k'.view.node np).phase = .live ∧ (k'.view.node np).isThread = true ∧
        (k'.view.node np).pid = (k.proc i).pid ∧ (k'.view.node np).tid = r := by
      rw [hv, hr]
      cases mainSlot k.proc (k.proc i).pid
      · simpa [start] using ⟨ht, hpid⟩
      · simpa [start] using ⟨ht, hpid⟩
    refine ⟨np, (threadOf_iff k' _ np).mpr ⟨⟨?_, hnode.2.1⟩, hnode.2.2.1⟩, hnode.2.2.2⟩
    rw [hnode.1]
    simp
  · cases h

/-- init creates two threads; the one in slot `q` with the id `tid` leaves and is joined, and a
third is created. -/
def joinBetween (q : Slot) (tid : ℤ) : List Act :=
  .dispatch 0 :: creates 0 ++ .dispatch 0 :: creates 0 ++
    [.dispatch q, .threadExit q 0, .dispatch 0, .threadJoin 0 tid 0, .lockAcquire 0, .waitThread 0,
      .lockRelease 0] ++ creates 0

instance (k : Kernel) (pid : ℤ) (q : Slot) : Decidable (ThreadOf k pid q) :=
  inferInstanceAs (Decidable (_ ∧ _))

instance (k : Kernel) (a : Act) : Decidable (InOrder k a) := by
  apply Act.casesOn (motive := fun a => Decidable (InOrder k a)) a <;> intros <;>
    dsimp only [InOrder] <;> infer_instance

end Xv6Threads.ProcTable
