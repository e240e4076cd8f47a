import Xv6Threads.Creation

namespace Xv6Threads.ProcTable

open View Node

variable {v v' : View} {i p q z : Slot} {a : Act}

def Threadless (v : View) (p : Slot) : Prop :=
  ∀ q, (v.node q).parent = some p → (v.node q).isThread = false

/-- A thread under `p` has the pid of `p`, unless `p` is a thread itself (whose `fork` makes
threads) or init. -/
structure Kindred (v : View) : Prop where
  sane : Sane v
  kin : ∀ p q, p ≠ v.init → (v.node q).parent = some p → (v.node q).isThread = true →
    (v.node p).isThread = true ∨ (v.node q).pid = (v.node p).pid
  unborn : ∀ p, p ≠ v.init → (v.node p).phase = .unused ∨ (v.node p).phase = .embryo →
    Threadless v p
  gone : ∀ p, p ≠ v.init → (v.node p).phase = .zombie → (v.node p).parent ≠ none → Threadless v p
  held : ∀ i s np, v.Live i → v.hold i = some (s, np) → Threadless v np

/-- The child was there before, or it is a new one of a running process. -/
def Begot (v v' : View) (p q : Slot) : Prop :=
  ((v.node q).parent = some p ∧ (v.node q).isThread = true ∧
    (v'.node q).pid = (v.node q).pid) ∨
  v'.Live p ∧ ((v'.node p).isThread = true ∨ (v'.node q).pid = (v'.node p).pid)

section
variable (h : Kindred v) (hm : Move v a v') (hinit : v'.init = v.init)
include h hm hinit

theorem Kindred.frame
    (hchild : ∀ p q, p ≠ v.init → (v'.node q).parent = some p → (v'.node q).isThread = true →
      Begot v v' p q) (hname : ∀ p ≠ v.init, ¬Threadless v p →
      (v'.node p).isThread = (v.node p).isThread ∧ (v'.node p).pid = (v.node p).pid)
    (hunborn : ∀ p ≠ v.init, (v'.node p).phase = .unused ∨ (v'.node p).phase = .embryo →
      (v.node p).phase = .unused ∨ (v.node p).phase = .embryo ∨ Threadless v p)
    (hgone : ∀ p ≠ v.init, (v'.node p).phase = .zombie → (v'.node p).parent ≠ none →
      ((v.node p).phase = .zombie ∧ (v.node p).parent ≠ none) ∨ Threadless v' p) : Kindred v' := by
  have hsane := h.sane.move hm
  -- a slot without threads gets none while it is not running
  have hnone : ∀ p ≠ v.init, ¬v'.Live p → Threadless v p → Threadless v' p := by
    intro p hp hlive hless q hparent
    by_contra hthread
    rcases hchild p q hp hparent (by simpa using hthread) with ⟨hq, ht, -⟩ | ⟨hl, -⟩
    · rw [hless q hq] at ht
      cases ht
    · exact hlive hl
  refine ⟨hsane, ?_, ?_, ?_, ?_⟩
  · intro p q hp hparent ht
    rw [hinit] at hp
    rcases hchild p q hp hparent ht with ⟨hq, htq, hpid⟩ | ⟨-, hkin⟩
    · obtain ⟨hthread, hpid'⟩ := hname p hp fun hless => by
        rw [hless q hq] at htq
        cases htq
      rw [hthread, hpid, hpid']
      exact h.kin p q hp hq htq
    · exact hkin
  · intro p hp hphase
    rw [hinit] at hp
    have hlive : ¬v'.Live p := by
      intro hl
      rcases hphase with hu | hu <;> rw [View.Live, hu] at hl <;> cases hl
    apply hnone p hp hlive
    rcases hunborn p hp hphase with hu | hu | hless
    · exact h.unborn p hp (.inl hu)
    · exact h.unborn p hp (.inr hu)
    · exact hless
  · intro p hp hphase hparent
    rw [hinit] at hp
    rcases hgone p hp hphase hparent with ⟨hz, hparent⟩ | hless
    · apply hnone p hp _ (h.gone p hp hz hparent)
      intro hl
      rw [View.Live, hphase] at hl
      cases hl
    · exact hless
  · intro i s np hi hold
    have hheld := hsane.held i s np hi hold
    have hnp : np ≠ v.init := hinit ▸ hheld.notInit
    have hlive : ¬v'.Live np := fun hl => hheld.ne_live hl rfl
    apply hnone np hnp hlive
    rcases h.sane.held_of_move hm hi hold with ⟨hlive, u, hu⟩ | hunused
    · exact h.held i u np hlive hu
    · exact h.unborn np hnp (.inl hunused)

theorem Kindred.release (hz : (v.node z).parent = some i) (hzombie : (v.node z).phase = .zombie)
    (hz' : (v'.node z).phase = .unused ∧ (v'.node z).parent = none)
    (hother : ∀ q ≠ z, ∃ n, v'.node q = { v.node q with numOfThread := n }) : Kindred v' := by
  have hzi : z ≠ v.init := by
    intro hzi
    rw [hzi, h.sane.root.1] at hz
    cases hz
  have hless : Threadless v z := h.gone z hzi hzombie (by rw [hz]; simp)
  apply h.frame hm hinit
  · intro p q _ hparent ht
    by_cases hq : q = z
    · rw [hq, hz'.2] at hparent
      cases hparent
    · obtain ⟨n, hn⟩ := hother q hq
      rw [hn] at hparent ht
      exact .inl ⟨hparent, ht, by rw [hn]⟩
  · intro p _ hp
    have hpz : p ≠ z := fun hpz => hp (hpz ▸ hless)
    obtain ⟨n, hn⟩ := hother p hpz
    rw [hn]
    exact ⟨rfl, rfl⟩
  · intro p _ hphase
    by_cases hpz : p = z
    · exact .inr (.inr (hpz ▸ hless))
    · obtain ⟨n, hn⟩ := hother p hpz
      rw [hn] at hphase
      exact hphase.imp_right .inl
  · intro p _ hphase hparent
    by_cases hpz : p = z
    · exact absurd (hpz ▸ hz'.2) hparent
    · obtain ⟨n, hn⟩ := hother p hpz
      rw [hn] at hphase hparent
      exact .inl ⟨hphase, hparent⟩

theorem Kindred.fresh (hp : (v.node p).phase = .unused)
    (hp' : (v'.node p).parent = (v.node p).parent)
    (hphase : (v'.node p).phase ≠ .zombie) (hother : ∀ q ≠ p, v'.node q = v.node q) :
    Kindred v' := by
  have hpi : p ≠ v.init := fun hpi => h.sane.root.2 (hpi ▸ hp)
  have hless : Threadless v p := h.unborn p hpi (.inl hp)
  have hnone := h.sane.free p (.inl hp)
  apply h.frame hm hinit
  · intro r q _ hparent ht
    by_cases hq : q = p
    · rw [hq, hp', hnone] at hparent
      cases hparent
    · rw [hother q hq] at hparent ht
      exact .inl ⟨hparent, ht, by rw [hother q hq]⟩
  · intro r _ hr
    rw [hother r fun hrp => hr (hrp ▸ hless)]
    exact ⟨rfl, rfl⟩
  · intro r _ hr
    by_cases hrp : r = p
    · exact .inr (.inr (hrp ▸ hless))
    · rw [hother r hrp] at hr
      exact hr.imp_right .inl
  · intro r _ hr hparent
    by_cases hrp : r = p
    · exact absurd (hrp ▸ hr) hphase
    · rw [hother r hrp] at hr hparent
      exact .inl ⟨hr, hparent⟩

end

theorem Kindred.advance {s : Stage} {np : Slot} (h : Kindred v) (hm : Move v a v')
    (hinit : v'.init = v.init) (hi : v.Live i) (hold : v.hold i = some (s, np))
    (hother : ∀ q ≠ np, ∃ n, v'.node q = { v.node q with numOfThread := n })
    (hnp : (v'.node np).parent = (v.node np).parent ∧
        (v'.node np).isThread = (v.node np).isThread ∧ (v'.node np).pid = (v.node np).pid ∨
      (v'.node np).parent = some i ∧ ((v'.node np).isThread = true →
        (v.node i).isThread = true ∨ (v'.node np).pid = (v.node i).pid)) : Kindred v' := by
  have hheld := h.sane.held i s np hi hold
  have hless := h.held i s np hi hold
  have hni : i ≠ np := (hheld.ne_live hi).symm
  apply h.frame hm hinit
  · intro p q _ hparent ht
    by_cases hq : q = np
    · subst hq
      rcases hnp with ⟨hp, hthread, hpid⟩ | ⟨hp, hkin⟩
      · rw [hp] at hparent
        rw [hthread] at ht
        exact .inl ⟨hparent, ht, hpid⟩
      · obtain rfl : i = p := Option.some.inj (hp.symm.trans hparent)
        obtain ⟨n, hn⟩ := hother i hni
        refine .inr ⟨?_, ?_⟩
        · rw [View.Live, hn]
          exact hi
        · rw [hn]
          exact hkin ht
    · obtain ⟨n, hn⟩ := hother q hq
      rw [hn] at hparent ht
      exact .inl ⟨hparent, ht, by rw [hn]⟩
  · intro p _ hp
    obtain ⟨n, hn⟩ := hother p fun hpn => hp (hpn ▸ hless)
    rw [hn]
    exact ⟨rfl, rfl⟩
  · intro p _ hp
    by_cases hpn : p = np
    · exact .inr (.inr (hpn ▸ hless))
    · obtain ⟨n, hn⟩ := hother p hpn
      rw [hn] at hp
      exact hp.imp_right .inl
  · intro p _ hp hparent
    by_cases hpn : p = np
    · subst hpn
      right
      intro q hq
      by_cases hqp : q = p
      · subst hqp
        rcases hnp with ⟨hpar, -⟩ | ⟨hpar, -⟩
        · exact absurd (hpar.symm.trans hq) (h.sane.noSelf q)
        · exact absurd (Option.some.inj (hpar.symm.trans hq)) hni
      · obtain ⟨n, hn⟩ := hother q hqp
        rw [hn] at hq ⊢
        exact hless q hq
    · obtain ⟨n, hn⟩ := hother p hpn
      rw [hn] at hp hparent
      exact .inl ⟨hp, hparent⟩

/-- A thread's `exit`: the threads of the process lose their parent. -/
theorem Kindred.endAll (h : Kindred v) (hm : Move v a ((v.endAll (v.node i).pid).die i)) :
    Kindred ((v.endAll (v.node i).pid).die i) := by
  have hn := v.die_endAll_node i
  -- a thread with a parent was not ended
  have hkept : ∀ q, (((v.endAll (v.node i).pid).die i).node q).parent ≠ none →
      (((v.endAll (v.node i).pid).die i).node q).isThread = true →
      (v.node q).pid ≠ (v.node i).pid := by
    intro q hparent ht hpid
    rw [hn, if_pos hpid, ended] at hparent ht
    split_ifs at hparent ht with hthread
    · exact hparent rfl
    · exact hthread ht
  apply h.frame hm rfl
  · intro p q _ hparent ht
    have hpid := hkept q (by rw [hparent]; simp) ht
    rw [hn, if_neg hpid] at hparent ht
    exact .inl ⟨hparent, ht, by rw [hn, if_neg hpid]⟩
  · intro p _ _
    rw [hn]
    split_ifs
    · exact ⟨ended_isThread _, ended_pid _⟩
    · exact ⟨rfl, rfl⟩
  · intro p _ hp
    rw [hn] at hp
    split_ifs at hp
    · simp at hp
    · exact hp.imp_right .inl
  · intro p hpi hp hparent
    by_cases hpid : (v.node p).pid = (v.node i).pid
    · right
      -- a main slot is ended together with its threads
      have hmain : (v.node p).isThread = false := by
        rw [hn, if_pos hpid, ended] at hparent
        by_contra hthread
        rw [if_pos (by simpa using hthread)] at hparent
        exact hparent rfl
      intro q hq
      by_contra ht
      have ht' : (((v.endAll (v.node i).pid).die i).node q).isThread = true := by simpa using ht
      have hne := hkept q (by rw [hq]; simp) ht'
      rw [hn, if_neg hne] at hq ht'
      rcases h.kin p q hpi hq ht' with hthread | hsame
      · rw [hmain] at hthread
        cases hthread
      · exact hne (hsame.trans hpid)
    · rw [hn, if_neg hpid] at hp hparent
      exact .inl ⟨hp, hparent⟩

theorem View.die_reparent_name (v : View) (i : Slot) (keep : Node → Bool)
    (hself : (v.node i).parent ≠ some i) (q : Slot) :
    (((v.reparent i keep).die i).node q).isThread = (v.node q).isThread ∧
      (((v.reparent i keep).die i).node q).pid = (v.node q).pid := by
  rw [v.die_reparent_node i keep hself]
  split_ifs with hq
  · rw [hq]
    exact ⟨rfl, rfl⟩
  · exact ⟨passOn_isThread _ _ _, passOn_pid _ _ _⟩
  · exact ⟨rfl, rfl⟩

theorem Kindred.reparent {keep : Node → Bool} (h : Kindred v)
    (hm : Move v a ((v.reparent i keep).die i)) : Kindred ((v.reparent i keep).die i) := by
  have hn := v.die_reparent_node i keep (h.sane.noSelf i)
  have hname := v.die_reparent_name i keep (h.sane.noSelf i)
  -- whoever has a parent other than init had it before
  have hparents : ∀ p q, p ≠ v.init → (((v.reparent i keep).die i).node q).parent = some p →
      (v.node q).parent = some p ∧ p ≠ i := by
    intro p q hp hparent
    rw [hn] at hparent
    split_ifs at hparent with hq hchild
    · subst hq
      exact ⟨hparent, fun hpi => h.sane.noSelf q (hpi ▸ hparent)⟩
    · rw [passOn_parent] at hparent
      split_ifs at hparent
      exact absurd (Option.some.inj hparent).symm hp
    · exact ⟨hparent, fun hpi => hchild (hpi ▸ hparent)⟩
  apply h.frame hm rfl
  · intro p q hp hparent ht
    rw [(hname q).1] at ht
    exact .inl ⟨(hparents p q hp hparent).1, ht, (hname q).2⟩
  · intro p _ _
    exact hname p
  · intro p _ hp
    rw [hn] at hp
    split_ifs at hp
    · simp at hp
    · rw [passOn_phase] at hp
      split_ifs at hp
      · exact hp.imp_right .inl
      · simp at hp
    · exact hp.imp_right .inl
  · intro p hpi hp hparent
    by_cases hpe : p = i
    · right
      intro q hq
      exact absurd hpe (hparents p q hpi hq).2
    · rw [hn, if_neg hpe] at hp hparent
      split_ifs at hp hparent with hchild
      · rw [passOn_phase] at hp
        rw [passOn_parent] at hparent
        split_ifs at hp hparent
        · exact .inl ⟨hp, by rw [hchild]; simp⟩
        · exact absurd rfl hparent
      · exact .inl ⟨hp, hparent⟩

theorem Kindred.move (h : Kindred v) (hm : Move v a v') : Kindred v' := by
  cases id hm with
  | quiet => exact h
  | @forkNoStack _ p _ _ hp | @cloneNoStack _ p _ _ _ _ _ hp | @fork _ p _ _ hp
  | @clone _ p _ _ _ _ _ hp =>
    apply h.fresh hm rfl hp
    · simp [alloc, fresh_node_self]
    · simp [alloc, fresh_node_self]
    · exact fun q => v.fresh_node_of_ne p _
  | @forkFail i np _ _ hi hold | @cloneLost i np hi hold =>
    refine h.advance hm rfl hi hold (fun q hq => ⟨(v.node q).numOfThread, ?_⟩) (.inl ?_)
    · simp [forkFail, start, hq]
    · simp [forkFail, start]
  | @forkDone i np g hi hold hg =>
    refine h.advance hm rfl hi hold (fun q hq => ⟨(v.node q).numOfThread, ?_⟩)
      (.inr ⟨?_, fun ht => .inl ?_⟩)
    · simp [forkDone, hq]
    · simp [forkDone]
    · simpa [forkDone] using ht
  | @clonePid i np hi hold =>
    refine h.advance hm rfl hi hold (fun q hq => ⟨(v.node q).numOfThread, ?_⟩)
      (.inr ⟨?_, fun _ => .inr ?_⟩)
    · simp [View.clonePid, hq]
    · simp [View.clonePid]
    · simp [View.clonePid]
  | @cloneNext i np hi hold =>
    exact h.advance hm rfl hi hold (fun q _ => ⟨(v.node q).numOfThread, rfl⟩) (.inl ⟨rfl, rfl, rfl⟩)
  | @cloneDone i np m hi hold hmain =>
    apply h.advance hm rfl hi hold _ (.inl ?_)
    · intro q hq
      refine ⟨_, Eq.trans ?_ (v.count_node m ((v.node m).numOfThread + 1) q)⟩
      simp [start, hq]
    · simp [start]
  | exitThreads => exact h.endAll hm
  | exitMain | threadExit => exact h.reparent hm
  | @reap i z hi hidle hz hzombie =>
    refine h.release hm rfl hz hzombie ?_ fun q hq => ⟨(v.node q).numOfThread, ?_⟩
    · simp [reap]
    · simp [reap, hq]
  | @join i z hi hidle hz ht hzombie =>
    refine h.release hm rfl hz hzombie ?_ fun q hq => ⟨_, v.join_node_of_ne i z hq⟩
    simp [join]
  | @exec i g _ _ _ _ hi hidle hg =>
    have hn := v.exec_node i g
    apply h.frame hm rfl
    · intro p q _ hparent ht
      rw [hn] at hparent ht
      exact .inl ⟨hparent, ht, by rw [hn]⟩
    · intro p _ _
      rw [hn]
      exact ⟨rfl, rfl⟩
    · intro p _ hp
      rw [hn] at hp
      exact hp.imp_right .inl
    · intro p _ hp hparent
      rw [hn] at hp hparent
      exact .inl ⟨hp, hparent⟩

theorem reachable_kindred {ok : Kernel → Act → Prop} {k : Kernel} (h : Reachable ok k) :
    Kindred k.view := by
  apply Reach.invariant (P := fun k => Kindred k.view) _ _ h
  · rintro k rfl
    have hless : ∀ p, Threadless boot.view p := by
      intro p q hq
      exact absurd (hq.symm.trans (boot_parent q)) (by simp)
    refine ⟨sane_boot, fun p q _ hq => ?_, fun p _ _ => hless p, fun p _ _ _ => hless p,
      fun i s np _ _ => hless np⟩
    exact absurd (hq.symm.trans (boot_parent q)) (by simp)
  · rintro k a k' hk - ⟨es, hstep⟩
    exact hk.move (step_move hstep)

end Xv6Threads.ProcTable
