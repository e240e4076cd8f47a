import Xv6Threads.Creation

namespace Xv6Threads.ProcTable

open List View Event

/-- A call of `freevm` is the end of a failed copy or load, or comes from `wait` or `exec`. -/
theorem freevm_cases {k k' kf : Kernel} {a : Act} {es : List Event} {g : ℕ}
    (h : step k a = some (k', es)) (he : Event.freevm kf g ∈ es) :
    (k.pgLive g = false ∧ kf.view = k.view.setPg g true) ∨
    (∃ i z, a = .wait i ∧ kf = k ∧ (k.proc z).parent = some i ∧ (k.proc z).state = .ZOMBIE ∧
      g = (k.proc z).pgdir) ∨
    ∃ i g' sz entry sp, a = .exec i (some g') true sz entry sp ∧ k.view.Live i ∧
      k.view.hold i = none ∧
      k.pgLive g' = false ∧ g = (k.proc i).pgdir ∧
      kf.view = (k.view.setPg g' true).setNode i { k.view.node i with pgdir := g' } := by
  cases stepped_of_step h with
  | @wait i =>
    unfold wait at he
    split at he
    · rename_i z hz
      have hz := List.find?_some hz
      rw [decide_eq_true_eq] at hz
      simp only [mem_cons, freevm.injEq, reduceCtorEq, not_mem_nil, or_false] at he
      exact .inr (.inl ⟨i, z, rfl, he.1, hz.1, hz.2, he.2⟩)
    · split_ifs at he <;> simp at he
  | @forkCopy i np pg ok _ _ _ _ hcopy =>
    unfold forkCopy at hcopy
    cases pg with
    | none =>
      cases hcopy
      simp at he
    | some g' =>
      dsimp only at hcopy
      split_ifs at hcopy with hg hok <;> cases hcopy
      · simp at he
      · simp only [mem_cons, freevm.injEq, reduceCtorEq, not_mem_nil, or_false] at he
        obtain ⟨rfl, rfl⟩ := he
        exact .inl ⟨by simpa using (not_or.mp hg).2, rfl⟩
  | @exec i pg ok sz entry sp _ _ hi hexec =>
    unfold exec at hexec
    cases pg with
    | none =>
      cases hexec
      simp at he
    | some g' =>
      dsimp only at hexec
      split_ifs at hexec with hg hok <;> cases hexec <;>
        simp only [mem_cons, freevm.injEq, reduceCtorEq, not_mem_nil, or_false] at he <;>
        obtain ⟨rfl, rfl⟩ := he
      · subst hok
        refine .inr (.inr ⟨i, g', sz, entry, sp, rfl, running_live hi.1, idle_of_user hi.2,
          by simpa using (not_or.mp hg).2, rfl, ?_⟩)
        rw [view_setProc]
        rfl
      · exact .inl ⟨by simpa using (not_or.mp hg).2, rfl⟩
  | kill | cloneDone | waitThread =>
    simp only [kill, cloneDone, waitThread, joinReturn] at he
    repeat' split at he
    all_goals simp at he
  | _ => simp at he

def ProcState.Runs (s : ProcState) : Prop := s = .SLEEPING ∨ s = .RUNNABLE ∨ s = .RUNNING

/-- At a call of `freevm`: the directory is allocated and no process that can run has it. -/
def FreeSafe (k : Kernel) (g : ℕ) : Prop :=
  k.pgLive g = true ∧ ∀ q, (k.proc q).state.Runs → (k.proc q).pgdir ≠ g

/-- `wait` has no thread among the zombies it may take, and whoever gives up a directory (by
`exec`, or as a main thread by `exit` or `thread_exit`) has no thread left in it: `exit` takes
the caller's own children along. -/
def OneOwner (k : Kernel) : Act → Prop
  | .wait i => ∀ q, (k.proc q).parent = some i → (k.proc q).state = .ZOMBIE →
      (k.proc q).isThread = false
  | .exec i _ _ _ _ _ => ∀ q, q ≠ i → (k.proc q).state.Runs → (k.proc q).pid ≠ (k.proc i).pid
  | .exit i => (k.proc i).isThread = true ∨
      ∀ q, q ≠ i → (k.proc q).state.Runs → (k.proc q).pid = (k.proc i).pid →
        (k.proc q).parent = some i
  | .threadExit i _ => (k.proc i).isThread = true ∨
      ∀ q, q ≠ i → (k.proc q).state.Runs → (k.proc q).pid ≠ (k.proc i).pid
  | _ => True

/-- A main thread's zombie that its parent's `wait` will free. -/
def Node.Waited (n : Node) : Prop := n.phase = .zombie ∧ n.isThread = false ∧ n.parent ≠ none

def Node.Owns (n : Node) : Prop :=
  n.isThread = false ∧ (n.phase = .live ∨ n.phase = .zombie ∧ n.parent ≠ none)

theorem Node.Waited.owns {n : Node} (h : n.Waited) : n.Owns := ⟨h.2.1, .inr ⟨h.1, h.2.2⟩⟩

structure Unfreed (v : View) : Prop where
  sane : Sane v
  alive : ∀ q, v.Live q → v.pgLive (v.node q).pgdir = true
  waited : ∀ z, (v.node z).Waited → v.pgLive (v.node z).pgdir = true ∧
    ∀ q, v.Live q → (v.node q).pgdir ≠ (v.node z).pgdir
  family : ∀ p q, v.Live p → v.Live q → (v.node p).pgdir = (v.node q).pgdir →
    (v.node p).pid = (v.node q).pid
  owner : ∀ p q, (v.node p).Owns → (v.node q).Owns → (v.node p).pgdir = (v.node q).pgdir → p = q

variable {v v' : View} {i p np z : Slot} {s : Stage} {g : ℕ}

theorem Unfreed.owns_alive (h : Unfreed v) {q : Slot} (hq : (v.node q).Owns) :
    v.pgLive (v.node q).pgdir = true := by
  rcases hq.2 with hl | ⟨hz, hp⟩
  · exact h.alive q hl
  · exact (h.waited q ⟨hz, hq.1, hp⟩).1

theorem Unfreed.frame (h : Unfreed v) (hsane : Sane v') (hpg : v'.pgLive = v.pgLive)
    (hlive : ∀ q, v'.Live q → v.Live q ∧ (v'.node q).pgdir = (v.node q).pgdir ∧
      (v'.node q).pid = (v.node q).pid)
    (hown : ∀ q, (v'.node q).Owns → (v.node q).Owns ∧ (v'.node q).pgdir = (v.node q).pgdir)
    (hwaited : ∀ z, (v'.node z).Waited → (v.node z).Waited ∨
      ∀ q, v'.Live q → (v.node q).pgdir ≠ (v.node z).pgdir) : Unfreed v' where
  sane := hsane
  alive q hq := by
    rw [hpg, (hlive q hq).2.1]
    exact h.alive q (hlive q hq).1
  waited z hz := by
    obtain ⟨hown', hpgz⟩ := hown z hz.owns
    rw [hpg, hpgz]
    refine ⟨h.owns_alive hown', fun q hq => ?_⟩
    rw [(hlive q hq).2.1]
    rcases hwaited z hz with hz' | hz'
    · exact (h.waited z hz').2 q (hlive q hq).1
    · exact hz' q hq
  family p q hp hq := by
    rw [(hlive p hp).2.1, (hlive p hp).2.2, (hlive q hq).2.1, (hlive q hq).2.2]
    exact h.family p q (hlive p hp).1 (hlive q hq).1
  owner p q hp hq := by
    rw [(hown p hp).2, (hown q hq).2]
    exact h.owner p q (hown p hp).1 (hown q hq).1

/-- One slot changes and neither runs nor owns a directory afterwards. -/
theorem Unfreed.update (h : Unfreed v) (p : Slot) (hsane : Sane v') (hpg : v'.pgLive = v.pgLive)
    (hn : ∀ q ≠ p, (v'.node q).phase = (v.node q).phase ∧
      (v'.node q).pgdir = (v.node q).pgdir ∧ (v'.node q).pid = (v.node q).pid ∧
      (v'.node q).isThread = (v.node q).isThread ∧ (v'.node q).parent = (v.node q).parent)
    (hp : ¬v'.Live p ∧ ¬(v'.node p).Owns) : Unfreed v' := by
  apply h.frame hsane hpg
  · intro q hq
    have hqp : q ≠ p := fun hqp => hp.1 (hqp ▸ hq)
    obtain ⟨hphase, hpgdir, hpid, -, -⟩ := hn q hqp
    rw [View.Live, hphase] at hq
    exact ⟨hq, hpgdir, hpid⟩
  · intro q hq
    have hqp : q ≠ p := fun hqp => hp.2 (hqp ▸ hq)
    obtain ⟨hphase, hpgdir, -, hthread, hparent⟩ := hn q hqp
    rw [Node.Owns, hphase, hthread, hparent] at hq
    exact ⟨hq, hpgdir⟩
  · intro q hq
    have hqp : q ≠ p := fun hqp => hp.2 (hqp ▸ hq.owns)
    obtain ⟨hphase, -, -, hthread, hparent⟩ := hn q hqp
    rw [Node.Waited, hphase, hthread, hparent] at hq
    exact .inl hq

/-- A slot that is not blank is running, a zombie or a thread under creation. -/
theorem Sane.owns_of_parent (h : Sane v) (ht : (v.node p).isThread = false)
    (hp : (v.node p).parent ≠ none) : (v.node p).Owns := by
  refine ⟨ht, ?_⟩
  cases hphase : (v.node p).phase with
  | unused => exact absurd (h.free p (.inl hphase)) hp
  | embryo => exact absurd (h.free p (.inr ⟨hphase, ht⟩)) hp
  | live => exact .inl rfl
  | zombie => exact .inr ⟨rfl, hp⟩

section
variable (h : Unfreed v)
include h

theorem Unfreed.endAll (hsane : Sane ((v.endAll (v.node i).pid).die i)) :
    Unfreed ((v.endAll (v.node i).pid).die i) := by
  have hn := v.die_endAll_node i
  have hlive : ∀ q, ((v.endAll (v.node i).pid).die i).Live q → _ := fun q => live_of_endAll
  have hown : ∀ q, (((v.endAll (v.node i).pid).die i).node q).Owns → (v.node q).Owns := by
    intro q hq
    rw [hn] at hq
    split_ifs at hq with hpid
    · have ht : (v.node q).isThread = false := by simpa using hq.1
      apply h.sane.owns_of_parent ht
      simpa [Node.Owns, Node.ended_parent, ht] using hq.2
    · exact hq
  apply h.frame hsane rfl
  · intro q hq
    rw [hn, if_neg (hlive q hq).2]
    exact ⟨(hlive q hq).1, rfl, rfl⟩
  · intro q hq
    refine ⟨hown q hq, ?_⟩
    rw [hn]
    split_ifs <;> simp
  · intro z hz
    rcases (hown z hz.owns).2 with hzl | hzz
    · -- it ran until now, so whoever shares its directory has the same pid and ends too
      right
      intro q hq hpg
      have hpid := h.family q z (hlive q hq).1 hzl hpg
      rw [hn] at hz
      split_ifs at hz with hzpid
      · exact (hlive q hq).2 (hpid.trans hzpid)
      · rw [Node.Waited, show (v.node z).phase = .live from hzl] at hz
        cases hz.1
    · exact .inl ⟨hzz.1, (hown z hz.owns).1, hzz.2⟩

/-- A process leaves; if it is a main thread, no thread stays behind in its directory. -/
theorem Unfreed.leave (hi : v.Live i) (keep : Node → Bool)
    (hsane : Sane ((v.reparent i keep).die i))
    (halone : (v.node i).isThread = true ∨ ∀ q ≠ i, v.Live q →
      ((v.node q).parent = some i → keep (v.node q) = true) →
      (v.node q).pgdir ≠ (v.node i).pgdir) : Unfreed ((v.reparent i keep).die i) := by
  have hn := v.die_reparent_node i keep (h.sane.noSelf i)
  have hfields : ∀ q, (((v.reparent i keep).die i).node q).pgdir = (v.node q).pgdir ∧
      (((v.reparent i keep).die i).node q).pid = (v.node q).pid ∧
      (((v.reparent i keep).die i).node q).isThread = (v.node q).isThread := by
    intro q
    rw [hn]
    split_ifs with hqi <;> simp [hqi]
  have hlive : ∀ q, ((v.reparent i keep).die i).Live q → _ :=
    fun q => live_of_reparent (h.sane.noSelf i)
  have hown : ∀ q, (((v.reparent i keep).die i).node q).Owns → (v.node q).Owns := by
    intro q hq
    have ht : (v.node q).isThread = false := (hfields q).2.2.symm.trans hq.1
    rw [hn] at hq
    split_ifs at hq with hqi hparent
    · exact ⟨ht, .inl (hqi ▸ hi)⟩
    · exact h.sane.owns_of_parent ht (by rw [hparent]; simp)
    · exact hq
  apply h.frame hsane rfl
  · intro q hq
    exact ⟨(hlive q hq).1, (hfields q).1, (hfields q).2.1⟩
  · intro q hq
    exact ⟨hown q hq, (hfields q).1⟩
  · intro z hz
    rw [hn] at hz
    split_ifs at hz with hzi hparent
    · right
      intro q hq hpg
      rcases halone with ht | halone
      · rw [Node.Waited, ht] at hz
        cases hz.2.1
      · obtain ⟨hql, hqi, hkeep⟩ := hlive q hq
        exact halone q hqi hql hkeep (hzi ▸ hpg)
    · left
      rw [Node.Waited, Node.passOn_phase, Node.passOn_parent, Node.passOn_isThread] at hz
      split_ifs at hz
      · exact ⟨hz.1, hz.2.1, by rw [hparent]; simp⟩
      · exact absurd rfl hz.2.2
    · exact .inl hz

theorem Unfreed.free (hlive : ∀ q, v.Live q → (v.node q).pgdir ≠ g)
    (hown : ∀ q, (v.node q).Owns → (v.node q).pgdir ≠ g) (hsane : Sane (v.setPg g false)) :
    Unfreed (v.setPg g false) where
  sane := hsane
  alive q hq := by
    rw [setPg_pgLive, setPg_node, if_neg (hlive q hq)]
    exact h.alive q hq
  waited z hz := by
    rw [setPg_pgLive, setPg_node, if_neg (hown z hz.owns)]
    exact h.waited z hz
  family := h.family
  owner := h.owner

theorem Unfreed.renew (p : Slot) (hg : v.pgLive g = false) (hsane : Sane v')
    (hpg : ∀ x, v'.pgLive x = if x = g then true else v.pgLive x)
    (hn : ∀ q ≠ p, v'.node q = v.node q) (hp : v'.Live p) (hpgdir : (v'.node p).pgdir = g) :
    Unfreed v' := by
  have hnew : ∀ x, v.pgLive x = true → x ≠ g := by
    intro x hx hxg
    rw [hxg, hg] at hx
    cases hx
  have hlive : ∀ q ≠ p, v'.Live q → v.Live q ∧ (v.node q).pgdir ≠ g := by
    intro q hqp hq
    rw [View.Live, hn q hqp] at hq
    exact ⟨hq, hnew _ (h.alive q hq)⟩
  have hown : ∀ q ≠ p, (v'.node q).Owns → (v.node q).Owns ∧ (v.node q).pgdir ≠ g := by
    intro q hqp hq
    rw [hn q hqp] at hq
    exact ⟨hq, hnew _ (h.owns_alive hq)⟩
  refine ⟨hsane, ?_, ?_, ?_, ?_⟩
  · intro q hq
    by_cases hqp : q = p
    · rw [hqp, hpgdir, hpg, if_pos rfl]
    · obtain ⟨hq, hne⟩ := hlive q hqp hq
      rw [hn q hqp, hpg, if_neg hne]
      exact h.alive q hq
  · intro z hz
    have hzp : z ≠ p := by
      intro hzp
      rw [hzp, Node.Waited, show (v'.node p).phase = .live from hp] at hz
      cases hz.1
    obtain ⟨-, hne⟩ := hown z hzp hz.owns
    rw [hn z hzp] at hz ⊢
    rw [hpg, if_neg hne]
    refine ⟨(h.waited z hz).1, fun q hq => ?_⟩
    by_cases hqp : q = p
    · rw [hqp, hpgdir]
      exact hne.symm
    · rw [hn q hqp]
      exact (h.waited z hz).2 q (hlive q hqp hq).1
  · intro x y hx hy hxy
    by_cases hxp : x = p <;> by_cases hyp : y = p
    · rw [hxp, hyp]
    · rw [hxp, hpgdir, hn y hyp] at hxy
      exact absurd hxy.symm (hlive y hyp hy).2
    · rw [hyp, hpgdir, hn x hxp] at hxy
      exact absurd hxy (hlive x hxp hx).2
    · rw [hn x hxp, hn y hyp] at hxy ⊢
      exact h.family x y (hlive x hxp hx).1 (hlive y hyp hy).1 hxy
  · intro x y hx hy hxy
    by_cases hxp : x = p <;> by_cases hyp : y = p
    · rw [hxp, hyp]
    · rw [hxp, hpgdir, hn y hyp] at hxy
      exact absurd hxy.symm (hown y hyp hy).2
    · rw [hyp, hpgdir, hn x hxp] at hxy
      exact absurd hxy (hown x hxp hx).2
    · rw [hn x hxp, hn y hyp] at hxy
      exact h.owner x y (hown x hxp hx).1 (hown y hyp hy).1 hxy

theorem Unfreed.start (hi : v.Live i) (hold : v.hold i = some (s, np)) (hs : s.tied = true)
    (tid : ℤ)
    (hsane : Sane (v.start i np tid)) : Unfreed (v.start i np tid) := by
  obtain ⟨-, hpgdir, hpid, ht⟩ := (h.sane.held i s np hi hold).tied hs
  have hn : ∀ q ≠ np, (v.start i np tid).node q = v.node q := by
    intro q hq
    simp [View.start, hq]
  have hnp : (v.start i np tid).node np = { v.node np with phase := .live, tid := tid } := by
    simp [View.start]
  -- in place of the new thread one can look at its creator
  have hlike : ∀ q, (v.start i np tid).Live q → ∃ q', v.Live q' ∧
      ((v.start i np tid).node q).pgdir = (v.node q').pgdir ∧
      ((v.start i np tid).node q).pid = (v.node q').pid := by
    intro q hq
    by_cases hqn : q = np
    · rw [hqn, hnp]
      exact ⟨i, hi, hpgdir, hpid⟩
    · rw [View.Live, hn q hqn] at hq
      rw [hn q hqn]
      exact ⟨q, hq, rfl, rfl⟩
  have hown : ∀ q, ((v.start i np tid).node q).Owns → (v.start i np tid).node q = v.node q := by
    intro q hq
    apply hn q
    intro hqn
    rw [hqn, hnp, Node.Owns, ht] at hq
    cases hq.1
  refine ⟨hsane, ?_, ?_, ?_, ?_⟩
  · intro q hq
    obtain ⟨q', hq', hpg, -⟩ := hlike q hq
    rw [hpg]
    exact h.alive q' hq'
  · intro z hz
    have hzn := hown z hz.owns
    rw [hzn] at hz ⊢
    refine ⟨(h.waited z hz).1, fun q hq => ?_⟩
    obtain ⟨q', hq', hpg, -⟩ := hlike q hq
    rw [hpg]
    exact (h.waited z hz).2 q' hq'
  · intro x y hx hy
    obtain ⟨x', hx', hxpg, hxpid⟩ := hlike x hx
    obtain ⟨y', hy', hypg, hypid⟩ := hlike y hy
    rw [hxpg, hypg, hxpid, hypid]
    exact h.family x' y' hx' hy'
  · intro x y hx hy
    have hxn := hown x hx
    have hyn := hown y hy
    rw [hxn] at hx ⊢
    rw [hyn] at hy ⊢
    exact h.owner x y hx hy

theorem Unfreed.count (m : Slot) (n : ℤ) : Unfreed (v.count m n) := by
  apply h.frame (h.sane.count m n) rfl
  · intro q hq
    simpa [View.Live] using hq
  · intro q hq
    simpa [Node.Owns] using hq
  · intro z hz
    left
    simpa [Node.Waited] using hz

theorem Unfreed.reap (hz : (v.node z).parent = some i) (hzombie : (v.node z).phase = .zombie)
    (ht : (v.node z).isThread = false) (hsane : Sane (v.reap i z)) : Unfreed (v.reap i z) := by
  have hzw : (v.node z).Waited := ⟨hzombie, ht, by rw [hz]; simp⟩
  set w := (v.setNode z { v.node z with phase := .unused, pid := 0, parent := none }).setHold i none
  have hw : Unfreed w := by
    have hsw : Sane w := hsane.congr_pg rfl rfl rfl
    apply h.update z hsw rfl
    · intro q hq
      simp [w, hq]
    · simp [w, View.Live, Node.Owns]
  have hne : ∀ q, (w.node q).phase ≠ .unused → q ≠ z := by
    intro q hq hqz
    simp [w, hqz] at hq
  apply hw.free
  · intro q hq
    have hqz := hne q (by rw [show (w.node q).phase = .live from hq]; simp)
    simp only [View.Live, w, setHold_node, setNode_node, hqz, if_false] at hq ⊢
    exact (h.waited z hzw).2 q hq
  · intro q hq
    have hqz := hne q (by rcases hq.2 with hq | hq <;> simp [hq])
    simp only [w, setHold_node, setNode_node, hqz, if_false] at hq ⊢
    exact fun hpg => hqz (h.owner q z hq hzw.owns hpg)
  · exact hsane

theorem Unfreed.exec (hi : v.Live i) (hg : v.pgLive g = false) (hsane : Sane (v.exec i g))
    (halone : ∀ q ≠ i, v.Live q → (v.node q).pid ≠ (v.node i).pid) : Unfreed (v.exec i g) := by
  set w := (v.setPg g true).setNode i { v.node i with pgdir := g }
  have hn : ∀ q ≠ i, w.node q = v.node q := by
    intro q hq
    simp [w, hq]
  have hw : Unfreed w := by
    have hsw : Sane w := hsane.congr_pg rfl rfl rfl
    apply h.renew i hg hsw
    · intro x
      simp [w]
    · exact hn
    · simpa [w, View.Live] using hi
    · simp [w]
  have hi' : (w.node i).pgdir ≠ (v.node i).pgdir := by
    have halive := h.alive i hi
    intro hpg
    simp only [w, setNode_node, if_true] at hpg
    rw [← hpg, hg] at halive
    cases halive
  have hold : ∀ q ≠ i, v.Live q → (v.node q).pgdir ≠ (v.node i).pgdir :=
    fun q hqi hq hpg => halone q hqi hq (h.family q i hq hi hpg)
  apply hw.free
  · intro q hq
    by_cases hqi : q = i
    · exact hqi ▸ hi'
    · rw [View.Live, hn q hqi] at hq
      rw [hn q hqi]
      exact hold q hqi hq
  · intro q hq
    by_cases hqi : q = i
    · exact hqi ▸ hi'
    · rw [hn q hqi] at hq ⊢
      rcases hq.2 with hql | hqz
      · exact hold q hqi hql
      · exact fun hpg => (h.waited q ⟨hqz.1, hq.1, hqz.2⟩).2 i hi hpg.symm
  · exact hsane

end

theorem runs_iff (k : Kernel) (q : Slot) : (k.proc q).state.Runs ↔ k.view.Live q := by
  rw [View.Live, view_node, node_phase, phase_live, ProcState.Runs]

theorem Unfreed.move {k : Kernel} {a : Act} (h : Unfreed k.view) (hm : Move k.view a v')
    (hok : OneOwner k a) : Unfreed v' := by
  have hsane := h.sane.move hm
  cases hm with
  | quiet => exact h
  | @forkNoStack _ p | @cloneNoStack _ p | @fork _ p | @clone _ p =>
    apply h.update p hsane rfl
    · intro q hq
      simp [alloc, fresh_node_of_ne _ _ _ hq]
    · simp [View.Live, Node.Owns, alloc, fresh_node_self]
  | @forkFail _ z | @join _ z =>
    apply h.update z hsane rfl
    · intro q hq
      simp [forkFail, View.join, hq]
    · simp [View.Live, Node.Owns, forkFail, View.join]
  | @forkDone i np g hi hold hg =>
    apply h.renew np hg hsane
    · intro x
      simp [forkDone]
    · intro q hq
      simp [forkDone, hq]
    · simp [forkDone, View.Live]
    · simp [forkDone]
  | @clonePid i np hi hold =>
    have hlive : ¬k.view.Live np := fun hnp => (h.sane.held _ _ _ hi hold).ne_live hnp rfl
    apply h.update np hsane rfl
    · intro q hq
      simp [View.clonePid, hq]
    · simpa [View.clonePid, View.Live, Node.Owns] using hlive
  | cloneNext hi hold => exact ⟨hsane, h.alive, h.waited, h.family, h.owner⟩
  | @cloneDone i np m hi hold hm =>
    have hcount := h.count m ((k.view.node m).numOfThread + 1)
    exact hcount.start (by simpa [View.Live] using hi) hold rfl _ hsane
  | cloneLost hi hold hm => exact h.start hi hold rfl _ hsane
  | exitThreads hi hidle hinit ht => exact h.endAll hsane
  | @exitMain i hi hidle hinit ht =>
    apply h.leave hi _ hsane
    -- whoever shares the directory has the pid, so it is a child of the caller and ends with it
    right
    intro q hqi hq hkeep hpg
    rcases hok with ht' | hchild
    · rw [view_node, node_isThread, ht'] at ht
      cases ht
    · have hpid := h.family q i hq hi hpg
      have hparent := hchild q hqi ((runs_iff k q).mpr hq) hpid
      exact bne_iff_ne.mp (hkeep hparent) hpg
  | @threadExit i r hi hidle hinit =>
    apply h.leave hi _ hsane
    rcases hok with ht | halone
    · exact .inl ht
    · right
      intro q hqi hq _ hpg
      exact halone q hqi ((runs_iff k q).mpr hq) (h.family q i hq hi hpg)
  | reap hi hidle hz hzombie => exact h.reap hz hzombie (hok _ hz (phase_zombie.mp hzombie)) hsane
  | exec hi hidle hg =>
    apply h.exec hi hg hsane
    intro q hq hql
    exact hok q hq ((runs_iff k q).mpr hql)

theorem reachable_unfreed {k : Kernel} (h : Reachable OneOwner k) : Unfreed k.view := by
  apply Reach.invariant (P := fun k => Unfreed k.view) _ _ h
  · intro k hk
    subst hk
    have hlive : ∀ q, boot.view.Live q → q = 0 := by
      intro q hq
      by_contra hq0
      simp [View.Live, boot, hq0, unused, ProcState.phase] at hq
    have hown : ∀ q, (boot.view.node q).Owns → q = 0 := by
      intro q hq
      by_contra hq0
      simp [Node.Owns, boot, hq0, unused, ProcState.phase] at hq
    refine ⟨sane_boot, ?_, ?_, ?_, ?_⟩
    · intro q hq
      rw [hlive q hq]
      rfl
    · intro z hz
      exact absurd (boot_parent z) hz.2.2
    · intro p q hp hq _
      rw [hlive p hp, hlive q hq]
    · intro p q hp hq _
      rw [hown p hp, hown q hq]
  · intro k a k' hk hok hstep
    obtain ⟨es, hstep⟩ := hstep
    exact hk.move (step_move hstep) hok

/-- `freevm` is the first thing a step shows. -/
def Event.freed : List Event → Option ℕ
  | .freevm _ g :: _ => some g
  | _ => none

theorem Event.mem_of_freed {es : List Event} {g : ℕ} (h : Event.freed es = some g) :
    ∃ kf, freevm kf g ∈ es := by
  unfold freed at h
  split at h
  · cases h
    exact ⟨_, mem_cons_self⟩
  · cases h

instance (s : ProcState) : Decidable s.Runs := inferInstanceAs (Decidable (_ ∨ _))

instance (k : Kernel) (a : Act) : Decidable (OneOwner k a) := by
  cases a <;> dsimp only [OneOwner] <;> infer_instance

end Xv6Threads.ProcTable
