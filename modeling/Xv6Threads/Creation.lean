import Xv6Threads.TableMoves

namespace Xv6Threads.ProcTable

open Option View Node

def View.Live (v : View) (q : Slot) : Prop := (v.node q).phase = .live

/-- The assignments of `clone` to the new slot are done. -/
def Stage.tied : Stage → Bool
  | .fork | .alloc => false
  | .named | .counted => true

/-- What the creating process `i` can rely on for the slot it holds. -/
structure Held (v : View) (i : Slot) (s : Stage) (np : Slot) : Prop where
  waiting : (v.node np).phase = .embryo ∨ (v.node np).phase = .zombie
  idle : v.hold np = none
  notInit : np ≠ v.init
  tid : (v.node np).tid = 0
  bare : s.tied = false → (v.node np).parent = none ∧ (v.node np).isThread = false
  tied : s.tied = true → (v.node np).parent = some i ∧ (v.node np).pgdir = (v.node i).pgdir ∧
    (v.node np).pid = (v.node i).pid ∧ (v.node np).isThread = true

/-- Not in use, or fresh from `allocproc`. -/
def Node.Blank (n : Node) : Prop :=
  n.phase = .unused ∨ n.phase = .embryo ∧ n.isThread = false

structure Sane (v : View) : Prop where
  free : ∀ p, (v.node p).Blank → (v.node p).parent = none
  noSelf : ∀ p, (v.node p).parent ≠ some p
  root : (v.node v.init).parent = none ∧ (v.node v.init).phase ≠ .unused
  held : ∀ i s np, v.Live i → v.hold i = some (s, np) → Held v i s np
  unique : ∀ i j s t np, v.Live i → v.Live j → v.hold i = some (s, np) →
    v.hold j = some (t, np) → i = j

variable {v v' : View} {i j p np z : Slot} {s : Stage}

theorem View.setHold_none_hold (h : v.hold i = none) : (v.setHold i none).hold = v.hold :=
  congrArg hold (v.setHold_self i none h.symm)

theorem View.live_of_endAll {q : Slot} (hq : ((v.endAll (v.node i).pid).die i).Live q) :
    v.Live q ∧ (v.node q).pid ≠ (v.node i).pid := by
  rw [View.Live, v.die_endAll_node] at hq
  split_ifs at hq with hpid
  · simp at hq
  · exact ⟨hq, hpid⟩

theorem View.live_of_reparent {keep : Node → Bool} {q : Slot} (hself : (v.node i).parent ≠ some i)
    (hq : ((v.reparent i keep).die i).Live q) :
    v.Live q ∧ q ≠ i ∧ ((v.node q).parent = some i → keep (v.node q) = true) := by
  rw [View.Live, v.die_reparent_node i keep hself] at hq
  split_ifs at hq with hqi hparent
  · rw [passOn_phase] at hq
    split_ifs at hq with hkeep
    exact ⟨hq, hqi, fun _ => hkeep⟩
  · exact ⟨hq, hqi, fun hp => absurd hp hparent⟩

theorem View.Live.ne_unused (hi : v.Live i) (hp : (v.node p).phase = .unused) : i ≠ p := by
  intro h
  subst h
  rw [View.Live, hp] at hi
  cases hi

theorem Held.ne_live (h : Held v i s np) (hj : v.Live j) : np ≠ j := by
  intro hnp
  subst hnp
  rcases h.waiting with hw | hw <;> rw [View.Live, hw] at hj <;> cases hj

theorem Held.ne_unused (h : Held v i s np) (hp : (v.node p).phase = .unused) : np ≠ p := by
  intro hnp
  subst hnp
  rcases h.waiting with hw | hw <;> rw [hp] at hw <;> cases hw

/-- A process that holds nothing is not the parent of a held slot. -/
theorem Held.parent_ne (h : Held v i s np) (hi : v.hold i = some (s, np)) (hj : v.hold j = none) :
    (v.node np).parent ≠ some j := by
  intro hp
  cases ht : s.tied with
  | false =>
    rw [(h.bare ht).1] at hp
    cases hp
  | true =>
    rw [(h.tied ht).1] at hp
    obtain rfl := some.inj hp
    rw [hi] at hj
    cases hj

/-- `n'` is `n`, possibly ended, as far as `Held` reads it. -/
def Node.Keeps (n n' : Node) : Prop :=
  n'.parent = n.parent ∧ n'.isThread = n.isThread ∧ n'.pgdir = n.pgdir ∧ n'.pid = n.pid ∧
    n'.tid = n.tid ∧ (n'.phase = n.phase ∨ n'.phase = .zombie)

theorem Node.Keeps.of_eq {n n' : Node} (h : n' = n) : n.Keeps n' := by
  subst h
  exact ⟨rfl, rfl, rfl, rfl, rfl, .inl rfl⟩

/-- A held slot stays held while it and its creator keep what `Held` reads. -/
theorem Held.congr (h : Held v i s np) (hnp : (v.node np).Keeps (v'.node np))
    (hi : (v'.node i).pid = (v.node i).pid ∧ (v'.node i).pgdir = (v.node i).pgdir)
    (hidle : v'.hold np = v.hold np) (hinit : v'.init = v.init) : Held v' i s np := by
  obtain ⟨hparent, hthread, hpgdir, hpid, htid, hphase⟩ := hnp
  refine ⟨?_, hidle.trans h.idle, hinit ▸ h.notInit, htid.trans h.tid, ?_, ?_⟩
  · rcases hphase with hphase | hphase <;> rw [hphase]
    · exact h.waiting
    · exact .inr rfl
  · rw [hparent, hthread]
    exact h.bare
  · rw [hparent, hthread, hpgdir, hpid, hi.1, hi.2]
    exact h.tied

section
variable (h : Sane v)
include h

theorem Sane.congr_pg (hn : v'.node = v.node) (hh : v'.hold = v.hold)
    (hi : v'.init = v.init) : Sane v' := by
  obtain ⟨n, x, r, g, l⟩ := v'
  obtain rfl : n = v.node := hn
  obtain rfl : l = v.hold := hh
  obtain rfl : r = v.init := hi
  refine ⟨h.free, h.noSelf, h.root, fun i s np hi hs => ?_, h.unique⟩
  exact (h.held i s np hi hs).congr (.of_eq rfl) ⟨rfl, rfl⟩ rfl rfl

theorem Sane.frame
    (hfree : ∀ p, (v'.node p).Blank → (v'.node p).parent = none)
    (hself : ∀ p, (v'.node p).parent ≠ some p)
    (hroot : (v'.node v.init).parent = none ∧ (v'.node v.init).phase ≠ .unused)
    (hinit : v'.init = v.init) (hhold : v'.hold = v.hold)
    (hlive : ∀ i, v'.Live i → v.Live i ∧ (v'.node i).pid = (v.node i).pid ∧
      ∀ s np, v.hold i = some (s, np) → Held v i s np → (v'.node i).pgdir = (v.node i).pgdir ∧
        (v.node np).Keeps (v'.node np)) :
    Sane v' where
  free := hfree
  noSelf := hself
  root := hinit ▸ hroot
  held i s np hi hs := by
    rw [hhold] at hs
    obtain ⟨hi', hpid, hh⟩ := hlive i hi
    have hheld := h.held i s np hi' hs
    obtain ⟨hpg, hnp⟩ := hh s np hs hheld
    exact hheld.congr hnp ⟨hpid, hpg⟩ (by rw [hhold]) hinit
  unique i j s t np hi hj := by
    rw [hhold]
    exact h.unique i j s t np (hlive i hi).1 (hlive j hj).1

theorem Sane.fresh (hp : (v.node p).phase = .unused) : Sane (v.fresh p .unused) := by
  have hn : ∀ q ≠ p, (v.fresh p .unused).node q = v.node q := fun q => v.fresh_node_of_ne p _
  have hpp := v.fresh_node_self p .unused
  have hroot : v.init ≠ p := by
    intro hpi
    exact h.root.2 (hpi ▸ hp)
  apply h.frame
  · intro q hq
    by_cases hqp : q = p
    · subst hqp
      rw [hpp]
      exact h.free q (.inl hp)
    · rw [hn q hqp] at hq ⊢
      exact h.free q hq
  · intro q
    by_cases hqp : q = p
    · subst hqp
      rw [hpp]
      exact h.noSelf q
    · rw [hn q hqp]
      exact h.noSelf q
  · rw [hn _ hroot]
    exact h.root
  · rfl
  · rfl
  · intro i hi
    have hip : i ≠ p := by
      intro hip
      subst hip
      rw [View.Live, hpp] at hi
      cases hi
    rw [View.Live, hn i hip] at hi
    rw [hn i hip]
    exact ⟨hi, rfl, fun s np _ hheld => ⟨rfl, .of_eq (hn np (hheld.ne_unused hp))⟩⟩

theorem Sane.endAll (hidle : v.hold i = none) : Sane ((v.endAll (v.node i).pid).die i) := by
  have hn := v.die_endAll_node i
  apply h.frame
  · intro q
    rw [hn]
    split_ifs with hq
    · rw [Node.Blank, ended_phase]
      simp
    · exact h.free q
  · intro q
    rw [hn]
    split_ifs with hq
    · rw [ended_parent]
      split_ifs
      · simp
      · exact h.noSelf q
    · exact h.noSelf q
  · rw [hn]
    split_ifs with hq
    · simp [ended_parent, h.root.1]
    · exact h.root
  · rfl
  · exact setHold_none_hold hidle
  · intro j hj
    obtain ⟨hj, hpid⟩ := live_of_endAll hj
    rw [hn, if_neg hpid]
    refine ⟨hj, rfl, fun s np _ hheld => ⟨rfl, ?_⟩⟩
    rw [hn]
    split_ifs with hnp
    · -- a tied slot has its creator's pid, so only a bare one can be hit
      cases ht : s.tied with
      | true => exact absurd ((hheld.tied ht).2.2.1 ▸ hnp) hpid
      | false =>
        refine ⟨?_, by simp, by simp, by simp, by simp, .inr (by simp)⟩
        simp [ended_parent, (hheld.bare ht).2]
    · exact .of_eq rfl

theorem Sane.reparent (hi : v.Live i) (hidle : v.hold i = none) (keep : Node → Bool) :
    Sane ((v.reparent i keep).die i) := by
  have hn := v.die_reparent_node i keep (h.noSelf i)
  have hroot : (v.node v.init).parent ≠ some i := by
    rw [h.root.1]
    simp
  apply h.frame
  · intro q
    rw [hn]
    split_ifs with hqi hq
    · simp [Node.Blank]
    · rw [Node.Blank, passOn_phase, passOn_parent, passOn_isThread]
      split_ifs
      · intro hfree
        rw [h.free q hfree] at hq
        cases hq
      · simp
    · exact h.free q
  · intro q
    rw [hn]
    split_ifs with hqi hq
    · exact hqi ▸ h.noSelf i
    · rw [passOn_parent]
      split_ifs
      · intro hinit
        obtain rfl := some.inj hinit
        exact hroot hq
      · simp
    · exact h.noSelf q
  · rw [hn]
    split_ifs with hqi
    · exact ⟨hqi ▸ h.root.1, by simp⟩
    · exact h.root
  · rfl
  · exact setHold_none_hold hidle
  · intro j hj
    obtain ⟨hj, hji, -⟩ := live_of_reparent (h.noSelf i) hj
    have hfields : (((v.reparent i keep).die i).node j).pid = (v.node j).pid ∧
        (((v.reparent i keep).die i).node j).pgdir = (v.node j).pgdir := by
      rw [hn, if_neg hji]
      split_ifs <;> simp
    refine ⟨hj, hfields.1, fun s np hs hheld => ⟨hfields.2, .of_eq ?_⟩⟩
    rw [hn, if_neg (hheld.ne_live hi), if_neg (hheld.parent_ne hs hidle)]

section
variable (hidle : v.hold i = none) (hz : (v.node z).parent = some i)
include hidle hz

/-- Freeing a slot `z` and counting threads: `wait`, `thread_join`. -/
theorem Sane.release (hhold : v'.hold = v.hold) (hinit : v'.init = v.init)
    (hother : ∀ q ≠ z, ∃ n, v'.node q = { v.node q with numOfThread := n })
    (hfree : (v'.node z).phase = .unused ∧ (v'.node z).parent = none) : Sane v' := by
  have hroot : v.init ≠ z := by
    intro hzi
    rw [← hzi, h.root.1] at hz
    cases hz
  apply h.frame
  · intro q
    by_cases hq : q = z
    · subst hq
      exact fun _ => hfree.2
    · obtain ⟨n, hn⟩ := hother q hq
      rw [hn]
      exact h.free q
  · intro q
    by_cases hq : q = z
    · subst hq
      rw [hfree.2]
      simp
    · obtain ⟨n, hn⟩ := hother q hq
      rw [hn]
      exact h.noSelf q
  · obtain ⟨n, hn⟩ := hother _ hroot
    rw [hn]
    exact h.root
  · exact hinit
  · exact hhold
  · intro j hj
    have hjz : j ≠ z := by
      intro hjz
      rw [View.Live, hjz, hfree.1] at hj
      cases hj
    obtain ⟨n, hn⟩ := hother j hjz
    rw [View.Live, hn] at hj
    refine ⟨hj, by rw [hn], fun s np hs hheld => ⟨by rw [hn], ?_⟩⟩
    have hnpz : np ≠ z := by
      intro hnpz
      exact hheld.parent_ne hs hidle (hnpz ▸ hz)
    obtain ⟨n', hn'⟩ := hother np hnpz
    rw [hn']
    exact ⟨rfl, rfl, rfl, rfl, rfl, .inl rfl⟩

theorem Sane.reap : Sane (v.reap i z) := by
  apply h.release hidle hz
  · exact setHold_none_hold hidle
  · rfl
  · intro q hq
    exact ⟨(v.node q).numOfThread, by simp [View.reap, hq]⟩
  · simp [View.reap]

theorem Sane.join : Sane (v.join i z) := by
  apply h.release hidle hz
  · exact setHold_none_hold hidle
  · rfl
  · intro q hq
    exact ⟨_, v.join_node_of_ne i z hq⟩
  · simp [View.join]

end

theorem Sane.exec (hi : v.Live i) (hidle : v.hold i = none) (g : ℕ) : Sane (v.exec i g) := by
  have hn := v.exec_node i g
  apply h.frame
  · intro q
    rw [hn]
    exact h.free q
  · intro q
    rw [hn]
    exact h.noSelf q
  · rw [hn]
    exact h.root
  · rfl
  · rfl
  · intro j hj
    rw [View.Live, hn] at hj
    refine ⟨hj, by rw [hn], fun s np hs hheld => ?_⟩
    have hji : j ≠ i := by
      intro hji
      rw [hji, hidle] at hs
      cases hs
    rw [hn, hn, if_neg hji, if_neg (hheld.ne_live hi)]
    exact ⟨rfl, .of_eq rfl⟩

theorem Sane.alloc (hi : v.Live i) (hidle : v.hold i = none)
    (hp : (v.node p).phase = .unused) (hs : s.tied = false) : Sane (v.alloc i p s) := by
  have hn : ∀ q ≠ p, (v.alloc i p s).node q = v.node q := fun q => v.fresh_node_of_ne p _
  have hpp : (v.alloc i p s).node p = _ := v.fresh_node_self p .embryo
  have hip : i ≠ p := hi.ne_unused hp
  have hroot : v.init ≠ p := by
    intro hpi
    exact h.root.2 (hpi ▸ hp)
  have hlive : ∀ j, (v.alloc i p s).Live j → v.Live j := by
    intro j hj
    by_cases hjp : j = p
    · subst hjp
      rw [View.Live, hpp] at hj
      cases hj
    · rwa [View.Live, hn j hjp] at hj
  -- whoever held a slot before still does, and `p` was nobody's
  have hold : ∀ j t np, (v.alloc i p s).Live j → (v.alloc i p s).hold j = some (t, np) →
      (j = i ∧ t = s ∧ np = p) ∨ (j ≠ i ∧ np ≠ p ∧ v.hold j = some (t, np)) := by
    intro j t np hj hh
    have hjp : j ≠ p := (hlive j hj).ne_unused hp
    by_cases hji : j = i
    · subst hji
      simp only [alloc, setHold_hold, if_true, some.injEq, Prod.mk.injEq] at hh
      exact .inl ⟨rfl, hh.1.symm, hh.2.symm⟩
    · simp only [View.alloc, View.setHold_hold, hji, hjp, if_false] at hh
      exact .inr ⟨hji, (h.held j t np (hlive j hj) hh).ne_unused hp, hh⟩
  refine ⟨?_, ?_, ?_, ?_, ?_⟩
  · intro q hq
    by_cases hqp : q = p
    · subst hqp
      rw [hpp]
      exact h.free q (.inl hp)
    · rw [hn q hqp] at hq ⊢
      exact h.free q hq
  · intro q
    by_cases hqp : q = p
    · subst hqp
      rw [hpp]
      exact h.noSelf q
    · rw [hn q hqp]
      exact h.noSelf q
  · rw [show (v.alloc i p s).init = v.init from rfl, hn _ hroot]
    exact h.root
  · intro j t np hj hh
    rcases hold j t np hj hh with ⟨rfl, rfl, rfl⟩ | ⟨hji, hnp, hh'⟩
    · refine ⟨.inl (by rw [hpp]), by simp [alloc, hip.symm], fun hpi => hroot hpi.symm,
        by rw [hpp], ?_, ?_⟩
      · intro _
        rw [hpp]
        exact ⟨h.free np (.inl hp), rfl⟩
      · intro ht
        rw [hs] at ht
        cases ht
    · have hheld := h.held j t np (hlive j hj) hh'
      refine hheld.congr (.of_eq (hn np hnp)) ?_ ?_ rfl
      · rw [hn j ((hlive j hj).ne_unused hp)]
        exact ⟨rfl, rfl⟩
      · simp [View.alloc, hnp, hheld.ne_live hi]
  · intro j l t u np hj hl hhj hhl
    rcases hold j t np hj hhj with ⟨rfl, -, rfl⟩ | ⟨-, hnp, hj'⟩
    · rcases hold l u np hl hhl with ⟨rfl, -, -⟩ | ⟨-, hnp, -⟩
      · rfl
      · exact absurd rfl hnp
    · rcases hold l u np hl hhl with ⟨-, -, rfl⟩ | ⟨-, -, hl'⟩
      · exact absurd rfl hnp
      · exact h.unique j l t u np (hlive j hj) (hlive l hl) hj' hl'

theorem Sane.advance (hi : v.Live i) {t : Stage} (hold : v.hold i = some (s, np))
    (ht : t.tied = true) (hhold : ∀ q, v'.hold q = if q = i then some (t, np) else v.hold q)
    (hinit : v'.init = v.init) (hn : ∀ q ≠ np, v'.node q = v.node q)
    (hphase : (v'.node np).phase = (v.node np).phase) (htid : (v'.node np).tid = (v.node np).tid)
    (hnp : (v'.node np).parent = some i ∧ (v'.node np).pgdir = (v.node i).pgdir ∧
      (v'.node np).pid = (v.node i).pid ∧ (v'.node np).isThread = true) : Sane v' := by
  have hheld := h.held i s np hi hold
  have hini : i ≠ np := fun hin => hheld.ne_live hi hin.symm
  have hlive : ∀ j, v'.Live j → v.Live j := by
    intro j hj
    by_cases hjn : j = np
    · subst hjn
      rwa [View.Live, hphase] at hj
    · rwa [View.Live, hn j hjn] at hj
  -- the slots held are the same as before
  have hsame : ∀ j u q, v'.Live j → v'.hold j = some (u, q) → ∃ w, v.hold j = some (w, q) := by
    intro j u q hj hh
    rw [hhold] at hh
    split_ifs at hh with hji
    · cases hh
      exact ⟨s, hji ▸ hold⟩
    · exact ⟨u, hh⟩
  refine ⟨?_, ?_, ?_, ?_, ?_⟩
  · intro q hq
    by_cases hqn : q = np
    · subst hqn
      rcases hq with hq | hq
      · exact absurd rfl (hheld.ne_unused (hphase ▸ hq))
      · rw [hnp.2.2.2] at hq
        cases hq.2
    · rw [hn q hqn] at hq ⊢
      exact h.free q hq
  · intro q
    by_cases hqn : q = np
    · subst hqn
      rw [hnp.1]
      exact fun hin => hini (some.inj hin)
    · rw [hn q hqn]
      exact h.noSelf q
  · rw [hinit, hn _ hheld.notInit.symm]
    exact h.root
  · intro j u q hj hh
    obtain ⟨w, hw⟩ := hsame j u q hj hh
    have hheld' := h.held j w q (hlive j hj) hw
    by_cases hji : j = i
    · subst hji
      rw [hold] at hw
      cases hw
      rw [hhold, if_pos rfl] at hh
      cases hh
      refine ⟨hphase ▸ hheld.waiting, ?_, hinit ▸ hheld.notInit, htid.trans hheld.tid, ?_, ?_⟩
      · rw [hhold, if_neg hini.symm]
        exact hheld.idle
      · intro hf
        rw [ht] at hf
        cases hf
      · intro _
        rw [hn _ hini]
        exact hnp
    · rw [hhold, if_neg hji] at hh
      have hqn : q ≠ np := by
        intro hqn
        exact hji (h.unique j i w s np (hlive j hj) hi (hqn ▸ hw) hold)
      have hqi : q ≠ i := hheld'.ne_live hi
      have hjn : j ≠ np := fun hjn => hheld.ne_live (hlive j hj) hjn.symm
      refine (h.held j u q (hlive j hj) hh).congr (.of_eq (hn q hqn)) ?_ ?_ hinit
      · rw [hn j hjn]
        exact ⟨rfl, rfl⟩
      · rw [hhold, if_neg hqi]
  · intro j l u w q hj hl hhj hhl
    obtain ⟨u', hu'⟩ := hsame j u q hj hhj
    obtain ⟨w', hw'⟩ := hsame l w q hl hhl
    exact h.unique j l u' w' q (hlive j hj) (hlive l hl) hu' hw'

theorem Sane.clonePid (hi : v.Live i) (hold : v.hold i = some (.alloc, np)) :
    Sane (v.clonePid i np) := by
  apply h.advance hi hold (t := .named) rfl
  · intro q
    simp [View.clonePid]
  · rfl
  · intro q hq
    simp [View.clonePid, hq]
  · simp [View.clonePid]
  · simp [View.clonePid]
  · simp [View.clonePid]

theorem Sane.cloneNext (hi : v.Live i) (hold : v.hold i = some (.named, np)) :
    Sane (v.cloneNext i np) := by
  apply h.advance hi hold (t := .counted) rfl
  · intro q
    simp [View.cloneNext]
  · rfl
  · intro q _
    rfl
  · rfl
  · rfl
  · exact (h.held i _ np hi hold).tied rfl

theorem Sane.count (m : Slot) (n : ℤ) : Sane (v.count m n) := by
  apply h.frame
  · intro q
    simpa [Node.Blank] using h.free q
  · intro q
    simpa using h.noSelf q
  · simpa using h.root
  · rfl
  · rfl
  · intro j hj
    rw [View.Live, count_phase] at hj
    exact ⟨hj, by simp, fun _ np _ _ => ⟨by simp, by simp [Node.Keeps]⟩⟩

end

/-- When the creator `i` has let go of its slot, the others hold what they held before. -/
theorem Held.finish_hold (h : Held v i s np)
    (hhold : ∀ q, v'.hold q = if q = i then none else v.hold q)
    (hphase : ∀ q ≠ np, (v'.node q).phase = (v.node q).phase) (q : Slot) (t : Stage)
    (mp : Slot) (hq : v'.Live q) (hs : v'.hold q = some (t, mp)) :
    q ≠ i ∧ q ≠ np ∧ v.Live q ∧ v.hold q = some (t, mp) := by
  rw [hhold] at hs
  split_ifs at hs with hqi
  have hqn : q ≠ np := by
    intro hqn
    rw [hqn, h.idle] at hs
    cases hs
  rw [View.Live, hphase q hqn] at hq
  exact ⟨hqi, hqn, hq, hs⟩

/-- The creator lets go of its slot, which is free again or running. -/
theorem Sane.finish (h : Sane v) (hi : v.Live i) (hold : v.hold i = some (s, np))
    (hhold : ∀ q, v'.hold q = if q = i then none else v.hold q) (hinit : v'.init = v.init)
    (hn : ∀ q ≠ np, v'.node q = v.node q)
    (hnp : (v'.node np).phase = .unused ∧ (v'.node np).parent = none ∨
      (v'.node np).phase = .live ∧ (v'.node np).parent = some i) : Sane v' := by
  have hheld := h.held i s np hi hold
  have hini : i ≠ np := fun hin => hheld.ne_live hi hin.symm
  have hsame := hheld.finish_hold hhold fun q hq => by rw [hn q hq]
  refine ⟨?_, ?_, ?_, ?_, ?_⟩
  · intro q hq
    by_cases hqn : q = np
    · subst hqn
      rcases hnp with hnp | hnp
      · exact hnp.2
      · simp [Node.Blank, hnp.1] at hq
    · rw [hn q hqn] at hq ⊢
      exact h.free q hq
  · intro q
    by_cases hqn : q = np
    · subst hqn
      rcases hnp with hnp | hnp <;> rw [hnp.2]
      · simp
      · exact fun hin => hini (some.inj hin)
    · rw [hn q hqn]
      exact h.noSelf q
  · rw [hinit, hn _ hheld.notInit.symm]
    exact h.root
  · intro j u q hj hh
    obtain ⟨hji, hjn, hj', hh'⟩ := hsame j u q hj hh
    have hheld' := h.held j u q hj' hh'
    have hqn : q ≠ np := by
      intro hqn
      exact hji (h.unique j i u s np hj' hi (hqn ▸ hh') hold)
    refine hheld'.congr (.of_eq (hn q hqn)) ?_ ?_ hinit
    · rw [hn j hjn]
      exact ⟨rfl, rfl⟩
    · rw [hhold, if_neg (hheld'.ne_live hi)]
  · intro j l u w q hj hl hhj hhl
    obtain ⟨-, -, hj', hhj'⟩ := hsame j u q hj hhj
    obtain ⟨-, -, hl', hhl'⟩ := hsame l w q hl hhl
    exact h.unique j l u w q hj' hl' hhj' hhl'

theorem Sane.start (h : Sane v) (hi : v.Live i) (hold : v.hold i = some (.counted, np)) (tid : ℤ) :
    Sane (v.start i np tid) := by
  apply h.finish hi hold
  · intro q
    simp [View.start]
  · rfl
  · intro q hq
    simp [View.start, hq]
  · have hparent := ((h.held i _ np hi hold).tied rfl).1
    simp [View.start, hparent]

theorem Sane.move {a : Act} (h : Sane v) (hm : Move v a v') : Sane v' := by
  cases hm with
  | quiet => exact h
  | forkNoStack hi hidle hp | cloneNoStack hi hidle hp => exact h.fresh hp
  | fork hi hidle hp | clone hi hidle hp => exact h.alloc hi hidle hp rfl
  | forkFail hi hold =>
    apply h.finish hi hold
    · intro q
      simp [forkFail]
    · rfl
    · intro q hq
      simp [forkFail, hq]
    · have hparent := ((h.held _ _ _ hi hold).bare rfl).1
      simp [forkFail, hparent]
  | forkDone hi hold hg =>
    apply h.finish hi hold
    · intro q
      simp [forkDone]
    · rfl
    · intro q hq
      simp [forkDone, hq]
    · simp [forkDone]
  | clonePid hi hold => exact h.clonePid hi hold
  | cloneNext hi hold => exact h.cloneNext hi hold
  | cloneDone hi hold hm =>
    apply (h.count _ _).start _ hold
    simpa [View.Live] using hi
  | cloneLost hi hold hm => exact h.start hi hold _
  | exitThreads hi hidle hinit ht => exact h.endAll hidle
  | exitMain hi hidle hinit ht | threadExit hi hidle hinit => exact h.reparent hi hidle _
  | reap hi hidle hz hzombie => exact h.reap hidle hz
  | join hi hidle hz ht hzombie => exact h.join hidle hz
  | exec hi hidle hg => exact h.exec hi hidle _

/-- The calls in which a process takes hold of a slot or goes on with it. -/
def Act.advances : Act → Bool
  | .fork _ _ | .clone _ _ _ _ _ | .clonePid _ | .cloneNext _ => true
  | _ => false

/-- In every other move, who holds a slot afterwards held it before. -/
theorem Sane.hold_of_move {a : Act} (h : Sane v) (hm : Move v a v') (ha : a.advances = false)
    (q : Slot) (t : Stage) (mp : Slot) (hq : v'.Live q) (hs : v'.hold q = some (t, mp)) :
    v.Live q ∧ v.hold q = some (t, mp) := by
  cases hm with
  | quiet => exact ⟨hq, hs⟩
  | forkNoStack | fork | cloneNoStack | clone | clonePid | cloneNext => cases ha
  | forkFail hi hold | forkDone hi hold | cloneDone hi hold | cloneLost hi hold =>
    refine ((h.held _ _ _ hi hold).finish_hold ?_ ?_ q t mp hq hs).2.2
    · intro q
      simp [forkFail, forkDone, View.start, View.count]
    · intro q hq
      simp [forkFail, forkDone, View.start, hq]
  | exitThreads hi hidle hinit ht =>
    exact ⟨(live_of_endAll hq).1, (congrFun (setHold_none_hold hidle) q).symm.trans hs⟩
  | exitMain hi hidle hinit ht | threadExit hi hidle hinit =>
    exact ⟨(live_of_reparent (h.noSelf _) hq).1,
      (congrFun (View.setHold_none_hold hidle) q).symm.trans hs⟩
  | @reap i z hi hidle | @join i z hi hidle =>
    have hqz : q ≠ z := by
      intro hqz
      simp [View.Live, View.reap, View.join, hqz] at hq
    exact ⟨by simpa [View.Live, View.reap, View.join, hqz] using hq,
      (congrFun (View.setHold_none_hold hidle) q).symm.trans hs⟩
  | exec hi hidle hg =>
    rw [View.Live, v.exec_node] at hq
    exact ⟨hq, hs⟩

section
variable {a : Act} (h : Sane v) (hm : Move v a v') {q : Slot} {t : Stage} {mp : Slot}
  (hq : v'.Live q) (hs : v'.hold q = some (t, mp))
include h hm hq hs

theorem Sane.live_of_move : v.Live q := by
  cases id hm with
  | @forkNoStack i p hi hidle hp | @cloneNoStack i p _ _ _ hi hidle hp hn
  | @fork i p hi hidle hp | @clone i p _ _ _ hi hidle hp hn =>
    have hqp : q ≠ p := by
      intro hqp
      simp [View.Live, View.alloc, hqp, v.fresh_node_self] at hq
    simpa [View.Live, View.alloc, v.fresh_node_of_ne p _ hqp] using hq
  | @clonePid i np hi hold =>
    by_cases hqn : q = np <;> simpa [View.Live, View.clonePid, hqn] using hq
  | cloneNext hi hold => exact hq
  | quiet => exact hq
  | forkFail | forkDone | cloneDone | cloneLost | exitThreads | exitMain | threadExit | reap | join
  | exec => exact (h.hold_of_move hm rfl q t mp hq hs).1

/-- How a process comes to hold a slot: it held it before, `allocproc` has just found it, or
`clone` has gone on with it. -/
theorem Sane.hold_cases : v.Live q ∧ (v.hold q = some (t, mp) ∨
      (t.tied = false ∧ (v.node mp).phase = .unused ∧ (v'.node mp).phase = .embryo ∧
        ∀ r ≠ mp, v'.node r = v.node r) ∨
      (t = .named ∧ v.hold q = some (.alloc, mp) ∧ a = .clonePid q) ∨
      (t = .counted ∧ v.hold q = some (.named, mp) ∧ a = .cloneNext q)) := by
  have hlive := h.live_of_move hm hq hs
  refine ⟨hlive, ?_⟩
  cases id hm with
  | forkNoStack hi hidle hp | cloneNoStack hi hidle hp hn => exact .inl hs
  | @fork i p hi hidle hp | @clone i p _ _ _ hi hidle hp hn =>
    have hqp : q ≠ p := hlive.ne_unused hp
    simp only [View.alloc, View.setHold_hold, View.fresh_hold, hqp, if_false] at hs
    split_ifs at hs with hqi
    · obtain ⟨rfl, rfl⟩ := some_pair.mp hs
      refine .inr (.inl ⟨rfl, hp, by simp [View.alloc, v.fresh_node_self], fun r hr => ?_⟩)
      simp [View.alloc, v.fresh_node_of_ne _ _ hr]
    · exact .inl hs
  | @clonePid i np hi hold =>
    simp only [View.clonePid, View.setHold_hold, View.setNode_hold] at hs
    split_ifs at hs with hqi
    · obtain ⟨rfl, rfl⟩ := some_pair.mp hs
      exact .inr (.inr (.inl ⟨rfl, hqi ▸ hold, by rw [hqi]⟩))
    · exact .inl hs
  | @cloneNext i np hi hold =>
    simp only [View.cloneNext, View.setHold_hold] at hs
    split_ifs at hs with hqi
    · obtain ⟨rfl, rfl⟩ := some_pair.mp hs
      exact .inr (.inr (.inr ⟨rfl, hqi ▸ hold, by rw [hqi]⟩))
    · exact .inl hs
  | quiet => exact .inl hs
  | forkFail | forkDone | cloneDone | cloneLost | exitThreads | exitMain | threadExit | reap | join
  | exec => exact .inl (h.hold_of_move hm rfl q t mp hq hs).2

/-- A slot that somebody holds was held before, or is one that `allocproc` has just found. -/
theorem Sane.held_of_move :
    (v.Live q ∧ ∃ u, v.hold q = some (u, mp)) ∨ (v.node mp).phase = .unused := by
  obtain ⟨hlive, hold | ⟨-, hu, -⟩ | ⟨-, hold, -⟩ | ⟨-, hold, -⟩⟩ := h.hold_cases hm hq hs
  · exact .inl ⟨hlive, _, hold⟩
  · exact .inr hu
  · exact .inl ⟨hlive, _, hold⟩
  · exact .inl ⟨hlive, _, hold⟩

end

theorem boot_parent (p : Slot) : (boot.proc p).parent = none := by
  by_cases hp : p = 0 <;> simp [boot, hp, unused]

theorem sane_boot : Sane boot.view where
  free p _ := boot_parent p
  noSelf p := by simp [boot_parent]
  root := ⟨boot_parent 0, by decide⟩
  held i s np _ hs := by cases hs
  unique i j s t np _ _ hs := by cases hs

theorem reachable_sane {ok : Kernel → Act → Prop} {k : Kernel} (h : Reachable ok k) :
    Sane k.view := by
  apply Reach.invariant (P := fun k => Sane k.view) _ _ h
  · intro k hk
    rw [hk]
    exact sane_boot
  · intro k a k' hk _ hstep
    obtain ⟨es, hstep⟩ := hstep
    exact hk.move (step_move hstep)

end Xv6Threads.ProcTable
