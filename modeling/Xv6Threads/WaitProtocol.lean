import Xv6Threads.ProcTree
import Xv6Threads.Sleepers
import Xv6Threads.ThreadCount

namespace Xv6Threads.ProcTable

open List Option Node Prod View

/-- Neither `clone` nor `thread_exit`. -/
def Act.threadFree : Act → Bool
  | .clone _ _ _ _ _ | .threadExit _ _ => false
  | _ => true

/-- The table when nobody calls `clone` or `thread_exit`: each process has a directory and a pid of
its own. -/
structure Plain (v : View) : Prop where
  pids : Pids v
  tree : Tree v
  unfreed : Unfreed v
  main : ∀ q, (v.node q).isThread = false
  forks : ∀ i s np, v.Live i → v.hold i = some (s, np) → s = .fork

variable {v v' : View} {i p q z np : Slot}

theorem Plain.sane (h : Plain v) : Sane v := h.tree.sane

theorem Plain.clear (h : Plain v) : v.Clear := by
  intro j hj
  cases hh : v.hold j with
  | none => simp [inWindow, hh]
  | some x =>
    obtain ⟨s, np⟩ := x
    obtain rfl := h.forks j s np hj hh
    simp [inWindow, hh, Stage.window]

theorem Plain.pid_inj (h : Plain v) (hp : (v.node p).phase ≠ .unused)
    (hpid : (v.node p).pid = (v.node q).pid) : p = q :=
  h.pids.mains p q (h.main p) (h.main q) hpid (h.pids.named.pos p hp).ne'

theorem Plain.pgdir_ne (h : Plain v) (hi : v.Live i) (hq : (v.node q).parent = some i) :
    (v.node q).pgdir ≠ (v.node i).pgdir := by
  intro hpg
  have hown := h.sane.owns_of_parent (h.main q) (by rw [hq]; simp)
  obtain rfl := h.unfreed.owner q i hown ⟨h.main i, .inl hi⟩ hpg
  exact h.sane.noSelf q hq

theorem Plain.oneOwner {k : Kernel} {a : Act} (h : Plain k.view) (ha : a.threadFree = true) :
    OneOwner k a := by
  cases a with
  | wait i => exact fun q _ _ => h.main q
  | exec i pg ok sz entry sp =>
    intro q hqi hq hpid
    rw [runs_iff] at hq
    exact hqi (h.pid_inj (by rw [show (k.view.node q).phase = .live from hq]; simp) hpid)
  | exit i =>
    right
    intro q hqi hq hpid
    rw [runs_iff] at hq
    exact absurd (h.pid_inj (by rw [show (k.view.node q).phase = .live from hq]; simp) hpid) hqi
  | threadExit => cases ha
  | _ => trivial

theorem Plain.joinedFirst {k k' : Kernel} {a : Act} {es : List Event} (h : Plain k.view)
    (hstep : step k a = some (k', es)) : JoinedFirst k a := by
  intro i hi
  cases a with
  | exit j =>
    obtain rfl := some.inj hi
    obtain ⟨hrun, -⟩ := exit_step hstep
    exact ⟨h.main j, fun q hq => h.pgdir_ne (running_live hrun) hq⟩
  | _ => cases hi

inductive PlainMove (v : View) : Act → View → Prop
  | quiet {a : Act} : PlainMove v a v
  | noStack {i p : Slot} (hp : (v.node p).phase = .unused) :
      PlainMove v (.fork i false) (v.fresh p .unused)
  | alloc {i p : Slot} (hp : (v.node p).phase = .unused) :
      PlainMove v (.fork i true) (v.alloc i p .fork)
  | forkFail {i np : Slot} {pg : Option ℕ} {ok : Bool} (hi : v.Live i)
      (hold : v.hold i = some (.fork, np)) : PlainMove v (.forkCopy i pg ok) (v.forkFail i np)
  | forkDone {i np : Slot} {g : ℕ} (hi : v.Live i) (hold : v.hold i = some (.fork, np)) :
      PlainMove v (.forkCopy i (some g) true) (v.forkDone i np g)
  | exit {i : Slot} (hi : v.Live i) :
      PlainMove v (.exit i) ((v.reparent i fun n => n.pgdir != (v.node i).pgdir).die i)
  | reap {i z : Slot} : PlainMove v (.wait i) (v.reap i z)
  | exec {i : Slot} {g : ℕ} {ok : Bool} {sz entry sp : Word} :
      PlainMove v (.exec i (some g) ok sz entry sp) (v.exec i g)

theorem Plain.cases {a : Act} (h : Plain v) (ha : a.threadFree = true) (hm : Move v a v') :
    PlainMove v a v' := by
  -- a slot held for `clone` is not there
  have hfork : ∀ {i s np}, v.Live i → v.hold i = some (s, np) → s ≠ .fork → False :=
    fun hi hold hs => hs (h.forks _ _ _ hi hold)
  cases hm with
  | quiet => exact .quiet
  | forkNoStack hi hidle hp => exact .noStack hp
  | fork hi hidle hp => exact .alloc hp
  | forkFail hi hold => exact .forkFail hi hold
  | forkDone hi hold hg => exact .forkDone hi hold
  | cloneNoStack | clone | threadExit => cases ha
  | clonePid hi hold | cloneNext hi hold | cloneDone hi hold hm | cloneLost hi hold hm =>
    exact (hfork hi hold (by simp)).elim
  | @exitThreads i hi hidle hinit ht =>
    rw [h.main i] at ht
    cases ht
  | exitMain hi hidle hinit ht => exact .exit hi
  | reap hi hidle hz hzombie => exact .reap
  | @join i z hi hidle hz ht hzombie =>
    rw [h.main z] at ht
    cases ht
  | exec hi hidle hg => exact .exec

theorem Plain.isThread_of_move {a : Act} (h : Plain v) (hm : PlainMove v a v') (q : Slot) :
    (v'.node q).isThread = false := by
  have hq := h.main q
  cases hm with
  | quiet => exact hq
  | @noStack i p hp | @alloc i p hp =>
    by_cases hqp : q = p
    · simp [alloc, hqp, fresh_node_self]
    · simpa [alloc, fresh_node_of_ne _ _ _ hqp] using hq
  | @forkFail _ z | @forkDone _ z | @reap _ z =>
    by_cases hqz : q = z <;> simpa [forkFail, forkDone, reap, hqz] using h.main _
  | @exit i hi =>
    rw [die_reparent_node _ _ _ (h.sane.noSelf i)]
    split_ifs with hqi hparent
    · exact h.main i
    · rw [passOn_isThread]
      exact hq
    · exact hq
  | exec =>
    rw [exec_node]
    exact hq

theorem Plain.next {k k' : Kernel} {a : Act} {es : List Event} (h : Plain k.view)
    (ha : a.threadFree = true) (hstep : step k a = some (k', es)) : Plain k'.view := by
  have hm := step_move hstep
  refine ⟨h.pids.move hm fun _ => h.clear, h.tree.move hm (h.joinedFirst hstep),
    h.unfreed.move hm (h.oneOwner ha), h.isThread_of_move (h.cases ha hm), ?_⟩
  intro j s mp hj hs
  have hlive := h.sane.live_of_move hm hj hs
  by_cases hadv : a.advances = false
  · exact h.forks j s mp hlive (h.sane.hold_of_move hm hadv j s mp hj hs).2
  · -- of the calls that take hold of a slot or go on with it only `fork` is left
    generalize k'.view = v' at *
    cases h.cases ha hm with
    | quiet | noStack hp => exact h.forks j s mp hlive hs
    | @alloc i p hp =>
      have hjp : j ≠ p := hlive.ne_unused hp
      simp only [alloc, setHold_hold, fresh_hold, hjp, if_false] at hs
      split_ifs at hs
      · exact (some_pair.mp hs).1.symm
      · exact h.forks j s mp hlive hs
    | forkFail | forkDone | exit | reap | exec => exact absurd rfl hadv

theorem plain_boot : Plain boot.view where
  pids := pids_boot
  tree := reachable_tree (.start rfl)
  unfreed := reachable_unfreed (.start rfl)
  main := not_isThread_boot
  forks _ _ _ _ hs := by cases hs

/-- Who sleeps in `wait` sleeps on its own slot and has no zombie child. -/
def Quiet (k : Kernel) : Prop :=
  ∀ p, (k.proc p).state = .SLEEPING → k.pc p = .wait →
    (k.proc p).chan = some (.slot p) ∧ ∀ z, (k.proc z).parent = some p → (k.proc z).state ≠ .ZOMBIE

/-- Only `exit` makes a zombie or gives one another parent. -/
theorem Plain.zombie_of_move {a : Act} (h : Plain v) (ha : a.threadFree = true) (hm : Move v a v')
    (hexit : ∀ i, a ≠ .exit i) (hz : (v'.node z).phase = .zombie)
    (hp : (v'.node z).parent = some p) :
    (v.node z).phase = .zombie ∧ (v.node z).parent = some p := by
  cases h.cases ha hm with
  | quiet => exact ⟨hz, hp⟩
  | @noStack i q hq | @alloc i q hq =>
    by_cases hzq : z = q
    · simp [alloc, hzq, fresh_node_self] at hz
    · simpa [alloc, fresh_node_of_ne _ _ _ hzq] using And.intro hz hp
  | @forkFail _ y | @forkDone _ y | @reap _ y =>
    by_cases hzy : z = y
    · simp [forkFail, forkDone, reap, hzy] at hz
    · simpa [forkFail, forkDone, reap, hzy] using And.intro hz hp
  | exit => exact absurd rfl (hexit _)
  | exec =>
    rw [exec_node] at hz hp
    exact ⟨hz, hp⟩

variable {k k' : Kernel} {a : Act} {es : List Event}

theorem Plain.exit_zombie (h : Plain k.view) (hi : k.view.Live i)
    (hz : ((exit k i).proc z).state = .ZOMBIE) (hp : ((exit k i).proc z).parent = some p) :
    z = i ∧ (k.proc i).parent = some p ∨ (k.proc z).state = .ZOMBIE ∧ (k.proc z).parent = some p ∨
    z ≠ i ∧ (k.proc z).state = .ZOMBIE ∧ (k.proc z).parent = some i ∧ p = k.initproc := by
  have hn := congrFun (congrArg node (view_exit_main k i (h.main i))) z
  rw [die_reparent_node _ _ _ (h.sane.noSelf i)] at hn
  have hz' : ((exit k i).view.node z).phase = .zombie := phase_zombie.mpr hz
  have hp' : ((exit k i).view.node z).parent = some p := hp
  rw [hn] at hz' hp'
  split_ifs at hz' hp' with hzi hparent
  · exact .inl ⟨hzi, hp'⟩
  · have hkeep : ((k.view.node z).pgdir != (k.view.node i).pgdir) = true := by
      simpa using h.pgdir_ne hi hparent
    rw [passOn_phase, hkeep, if_pos rfl] at hz'
    rw [passOn_parent, hkeep, if_pos rfl] at hp'
    exact .inr (.inr ⟨hzi, phase_zombie.mp hz', hparent, (some.inj hp').symm⟩)
  · exact .inr (.inl ⟨phase_zombie.mp hz', hp'⟩)

theorem Quiet.next (h : Quiet k) (hplain : Plain k.view) (ha : a.threadFree = true)
    (hstep : step k a = some (k', es)) : Quiet k' := by
  intro p hs hpc
  rcases sleeps_of_step hstep hs with ⟨hs', hchan⟩ | ⟨c, -, huser⟩ | ⟨-, hk', hnone⟩ |
    ⟨tid, r, -, hjoin, hk'⟩
  · -- it slept before: its children were no zombies, and whoever became one has woken it
    have hslot : a.slot ≠ some p := fun hslot => awake_of_step hstep hslot hs'
    rw [pc_of_step hstep (by rw [hs']; simp) hslot] at hpc
    obtain ⟨hself, hnone⟩ := h p hs' hpc
    refine ⟨hchan.trans hself, fun z hz hzs => ?_⟩
    by_cases hexit : ∃ i, a = .exit i
    · obtain ⟨i, rfl⟩ := hexit
      obtain ⟨hrun, -, -, rfl⟩ := exit_step hstep
      have hi := running_live hrun
      rcases hplain.exit_zombie hi hzs hz with ⟨rfl, hparent⟩ | ⟨hold, hparent⟩ |
        ⟨hzi, hold, hparent, hinit⟩
      · apply exit_wakes_parent k z p hs
        rw [hchan, hself, hparent]
        rfl
      · exact hnone z hparent hold
      · apply exit_wakes_init (hplain.main i) hparent hzi hold (hplain.pgdir_ne hi hparent) p hs
        rw [hchan, hself, hinit]
    · obtain ⟨hold, hparent⟩ := hplain.zombie_of_move ha (step_move hstep)
        (fun i hi => hexit ⟨i, hi⟩) (z := z) (phase_zombie.mpr hzs) hz
      exact hnone z hparent (phase_zombie.mp hold)
  · rw [huser] at hpc
    cases hpc
  · subst hk'
    refine ⟨by simp [sleepSelf], fun z hz => ?_⟩
    simp only [setPc_proc, sleepSelf, setProc_proc] at hz ⊢
    split_ifs at hz ⊢ with hzp
    · simp
    · exact hnone z hz
  · rw [hk', sleepSelf, setProc_pc, hjoin] at hpc
    cases hpc

theorem Plain.unused_of_move (h : Plain v) (ha : a.threadFree = true) (hm : Move v a v')
    (hq : (v.node q).phase = .unused) :
    (v'.node q).phase = .unused ∨ (v'.node q).phase = .embryo := by
  cases h.cases ha hm with
  | quiet => exact .inl hq
  | @noStack i p hp | @alloc i p hp =>
    by_cases hqp : q = p
    · simp [alloc, hqp, fresh_node_self]
    · simp [alloc, fresh_node_of_ne _ _ _ hqp, hq]
  | @forkFail i np _ _ hi hold => by_cases hqn : q = np <;> simp [forkFail, hqn, hq]
  | @forkDone i np g hi hold =>
    have hqn : q ≠ np := ((h.sane.held _ _ _ hi hold).ne_unused hq).symm
    simp [forkDone, hqn, hq]
  | @exit i hi =>
    have hparent := h.sane.free q (.inl hq)
    rw [die_reparent_node _ _ _ (h.sane.noSelf i), if_neg (hi.ne_unused hq).symm, hparent]
    simp [hq]
  | @reap i z => by_cases hqz : q = z <;> simp [reap, hqz, hq]
  | exec =>
    rw [exec_node]
    exact .inl hq

def Stacked (k : Kernel) : Prop := ∀ q, (k.proc q).state ≠ .UNUSED → (k.proc q).kstack = true

theorem Stacked.next (h : Stacked k) (hplain : Plain k.view) (ha : a.threadFree = true)
    (hstep : step k a = some (k', es)) : Stacked k' := by
  intro q hq
  have hchange := step_change hstep q
  by_cases hu : (k.proc q).state = .UNUSED
  · have hembryo : (k'.proc q).state = .EMBRYO := by
      rcases hplain.unused_of_move ha (step_move hstep) (phase_unused.mpr hu) with hp | hp
      · exact absurd (phase_unused.mp hp) hq
      · exact phase_embryo.mp hp
    generalize k'.proc q = x at hembryo hchange
    have hstay : (k.proc q).state ≠ x.state := by
      rw [hu, hembryo]
      decide
    cases hchange with
    | alloc kalloc _ hx hs =>
      cases kalloc with
      | true => exact congrArg Body.kstack hx
      | false => exact absurd (hu.trans hs.symm) hstay
    | stir hst => exact absurd (hst.unborn (.inr hembryo)) hstay
    | kill _ _ hs => exact absurd (hs (.inr hembryo)) hstay
    | clonePid _ _ _ hs => exact absurd hs.symm hstay
    | forkFail _ _ _ hs | forkDone _ _ _ hs | exit _ hs | threadExit _ hs | reap _ _ _ hs
    | join _ _ _ hs =>
      rw [hembryo] at hs
      cases hs
  · generalize k'.proc q = x at hq hchange
    have hkeep : x.body.kstack = (k.proc q).body.kstack → x.kstack = true :=
      fun hb => hb.trans (h q hu)
    cases hchange with
    | stir hst => exact hkeep (by rw [hst.body])
    | alloc kalloc hunused => exact absurd hunused hu
    | forkFail _ _ _ hs | reap _ _ _ hs | join _ _ _ hs => exact absurd hs hq
    | kill _ hx | forkDone _ _ hx | clonePid _ _ hx | exit hx | threadExit hx =>
      exact hkeep (by rw [hx])

/-- The values other than -1 that a step returns to `i`. -/
def results (i : Slot) (es : List Event) : List ℤ :=
  es.filterMap fun e =>
    match e with
    | .ret p v => if p = i ∧ v ≠ -1 then some v else none
    | _ => none

/-- Pids: what `fork` returned to whom, who has called `exit`, what `wait` returned to whom. -/
structure Ledger where
  forked : List (ℤ × ℤ)
  exited : List ℤ
  waited : List (ℤ × ℤ)

def Ledger.follow (l : Ledger) (k : Kernel) (a : Act) (es : List Event) : Ledger :=
  match a with
  | .forkCopy i _ _ =>
    { l with forked := (results i es).map ((k.proc i).pid, ·) ++ l.forked }
  | .exit i => { l with exited := (k.proc i).pid :: l.exited }
  | .wait i => { l with waited := (results i es).map ((k.proc i).pid, ·) ++ l.waited }
  | _ => l

/-- The child `c` is due to `p`: it was forked by `p`, or `p` is init and whoever forked it has
called `exit`. -/
def Ledger.Due (l : Ledger) (initpid p c : ℤ) : Prop :=
  (p, c) ∈ l.forked ∨ p = initpid ∧ ∃ r ∈ l.exited, (r, c) ∈ l.forked

structure Kept where
  k : Kernel
  ledger : Ledger

abbrev KeptReachable : Kept → Prop :=
  Reach (fun s => s = ⟨boot, ⟨[], [], []⟩⟩) (fun _ a => Act.threadFree a = true)
    fun s a s' => ∃ k' es, step s.k a = some (k', es) ∧ s' = ⟨k', s.ledger.follow s.k a es⟩

def Node.Begun (n : Node) : Prop := n.phase = .live ∨ n.phase = .zombie

theorem Node.Begun.used {n : Node} (h : n.Begun) : n.phase ≠ .unused := by
  rcases h with h | h <;> rw [h] <;> simp

structure Faithful (v : View) (l : Ledger) : Prop where
  forkedOnce : (l.forked.map snd).Nodup
  forkedOld : ∀ e ∈ l.forked, e.2 < v.nextpid
  unborn : ∀ i np, v.Live i → v.hold i = some (.fork, np) → ∀ e ∈ l.forked, e.2 ≠ (v.node np).pid
  due : ∀ q, q ≠ v.init → (v.node q).Begun → ∃ p, (v.node q).parent = some p ∧ v.Live p ∧
    l.Due (v.node v.init).pid (v.node p).pid (v.node q).pid
  zombie : ∀ q, (v.node q).phase = .zombie → (v.node q).pid ∈ l.exited
  exited : ∀ c ∈ l.exited, (∃ e ∈ l.waited, e.2 = c) ∨
    ∃ z, (v.node z).phase = .zombie ∧ (v.node z).pid = c
  waitedOnce : (l.waited.map snd).Nodup
  gone : ∀ e ∈ l.waited, ∀ q, (v.node q).Begun → (v.node q).pid ≠ e.2
  waited : ∀ e ∈ l.waited, e.2 ∈ l.exited ∧ l.Due (v.node v.init).pid e.1 e.2

variable {l : Ledger}

theorem Ledger.Due.forked {initpid p c : ℤ} (h : l.Due initpid p c) : ∃ e ∈ l.forked, e.2 = c := by
  rcases h with h | ⟨-, r, -, h⟩
  · exact ⟨_, h, rfl⟩
  · exact ⟨_, h, rfl⟩

theorem Ledger.Due.mono {l' : Ledger} {initpid p c : ℤ} (h : l.Due initpid p c)
    (hforked : ∀ e ∈ l.forked, e ∈ l'.forked) (hexited : ∀ c ∈ l.exited, c ∈ l'.exited) :
    l'.Due initpid p c := by
  rcases h with h | ⟨hp, r, hr, h⟩
  · exact .inl (hforked _ h)
  · exact .inr ⟨hp, r, hexited r hr, hforked _ h⟩

section
variable (h : Faithful v l)
include h

theorem Faithful.forked_of_begun (hq : (v.node q).Begun) (hinit : q ≠ v.init) :
    ∃ e ∈ l.forked, e.2 = (v.node q).pid := by
  obtain ⟨p, -, -, hdue⟩ := h.due q hinit hq
  exact hdue.forked

theorem Faithful.not_begun (hsane : Sane v) (hi : v.Live i)
    (hold : v.hold i = some (.fork, np)) : ¬(v.node np).Begun := by
  intro hbegun
  obtain ⟨e, he, hpid⟩ := h.forked_of_begun hbegun (hsane.held _ _ _ hi hold).notInit
  exact h.unborn i np hi hold e he hpid

theorem Faithful.frame (htree : Tree v) (hnext : v.nextpid ≤ v'.nextpid) (hinit : v'.init = v.init)
    (hsame : ∀ q, (v.node q).Begun ∨ (v'.node q).Begun → (v'.node q).phase = (v.node q).phase ∧
      (v'.node q).pid = (v.node q).pid ∧ (v'.node q).parent = (v.node q).parent)
    (hunborn : ∀ i np, v'.Live i → v'.hold i = some (.fork, np) →
      ∀ e ∈ l.forked, e.2 ≠ (v'.node np).pid) : Faithful v' l := by
  have hbegun : ∀ q, (v'.node q).Begun → (v.node q).Begun := by
    intro q hq
    rw [Node.Begun, ← (hsame q (.inr hq)).1]
    exact hq
  have hpid := (hsame v.init (.inl (.inl htree.init))).2.1
  refine ⟨h.forkedOnce, fun e he => (h.forkedOld e he).trans_le hnext, hunborn, ?_, ?_, ?_,
    h.waitedOnce, ?_, ?_⟩
  · intro q hq hqb
    obtain ⟨hphase, hqpid, hparent⟩ := hsame q (.inr hqb)
    obtain ⟨p, hp, hpl, hdue⟩ := h.due q (hinit ▸ hq) (hbegun q hqb)
    obtain ⟨hpphase, hppid, -⟩ := hsame p (.inl (.inl hpl))
    refine ⟨p, hparent.trans hp, hpphase.trans hpl, ?_⟩
    rw [hinit, hpid, hppid, hqpid]
    exact hdue
  · intro q hq
    obtain ⟨hphase, hqpid, -⟩ := hsame q (.inr (.inr hq))
    rw [hqpid]
    exact h.zombie q (hphase ▸ hq)
  · intro c hc
    rcases h.exited c hc with hw | ⟨z, hz, hzc⟩
    · exact .inl hw
    · obtain ⟨hphase, hzpid, -⟩ := hsame z (.inl (.inr hz))
      exact .inr ⟨z, hphase.trans hz, hzpid.trans hzc⟩
  · intro e he q hq
    rw [(hsame q (.inr hq)).2.1]
    exact h.gone e he q (hbegun q hq)
  · intro e he
    rw [hinit, hpid]
    exact h.waited e he

theorem Faithful.fresh (htree : Tree v) (hp : (v.node p).phase = .unused) :
    Faithful (v.fresh p .unused) l := by
  refine h.frame htree (by simp only [fresh_nextpid]; omega) rfl ?_ ?_
  · intro q hq
    by_cases hqp : q = p
    · subst hqp
      simp [Node.Begun, fresh_node_self, hp] at hq
    · rw [v.fresh_node_of_ne p _ hqp]
      exact ⟨rfl, rfl, rfl⟩
  · intro j np hj hold
    have hjp : j ≠ p := by
      intro hjp
      simp [Live, hjp, fresh_node_self] at hj
    rw [Live, v.fresh_node_of_ne p _ hjp] at hj
    have hnp := (htree.sane.held j _ np hj hold).ne_unused hp
    rw [v.fresh_node_of_ne p _ hnp]
    exact h.unborn j np hj hold

theorem Faithful.alloc (htree : Tree v) (hp : (v.node p).phase = .unused) :
    Faithful (v.alloc i p .fork) l := by
  refine h.frame htree (by simp only [View.alloc, View.setHold, View.fresh_nextpid]; omega)
    rfl ?_ ?_
  · intro q hq
    by_cases hqp : q = p
    · subst hqp
      simp [Node.Begun, View.alloc, View.fresh_node_self, hp] at hq
    · simp [View.alloc, v.fresh_node_of_ne p _ hqp]
  · intro j np hj hold
    have hjp : j ≠ p := by
      intro hjp
      simp [View.Live, View.alloc, hjp, View.fresh_node_self] at hj
    simp only [View.Live, View.alloc, View.setHold_node, v.fresh_node_of_ne p _ hjp] at hj
    simp only [View.alloc, View.setHold_hold, View.fresh_hold, hjp, if_false] at hold
    split_ifs at hold with hji
    · -- the new slot has the next pid
      obtain ⟨-, rfl⟩ := some_pair.mp hold
      intro e he
      simp only [View.alloc, View.setHold_node, View.fresh_node_self]
      exact (h.forkedOld e he).ne
    · have hnp := (htree.sane.held j _ np hj hold).ne_unused hp
      simp only [View.alloc, View.setHold_node, v.fresh_node_of_ne p _ hnp]
      exact h.unborn j np hj hold

theorem Faithful.forkFail (hplain : Plain v) (hi : v.Live i) (hold : v.hold i = some (.fork, np))
    (hhold : ∀ q s mp, (v.forkFail i np).Live q → (v.forkFail i np).hold q = some (s, mp) →
      v.Live q ∧ v.hold q = some (s, mp)) : Faithful (v.forkFail i np) l := by
  have hnb := h.not_begun hplain.sane hi hold
  refine h.frame hplain.tree le_rfl rfl ?_ ?_
  · intro q hq
    by_cases hqn : q = np
    · subst hqn
      simp [View.forkFail, Node.Begun] at hq
      exact absurd hq hnb
    · simp [View.forkFail, hqn]
  · intro j mp hj hs
    obtain ⟨hj', hs'⟩ := hhold j _ mp hj hs
    have hpid : ((v.forkFail i np).node mp).pid = (v.node mp).pid := by
      by_cases hmn : mp = np <;> simp [View.forkFail, hmn]
    rw [hpid]
    exact h.unborn j mp hj' hs'

end

theorem Faithful.exec {g : ℕ} (h : Faithful v l) (htree : Tree v) : Faithful (v.exec i g) l := by
  refine h.frame htree le_rfl rfl ?_ ?_
  · intro q _
    rw [v.exec_node]
    exact ⟨rfl, rfl, rfl⟩
  · intro j np hj hold
    rw [Live, v.exec_node] at hj
    rw [v.exec_node]
    exact h.unborn j np hj hold

theorem Faithful.forkDone {g : ℕ} (h : Faithful v l) (hplain : Plain v) (hi : v.Live i)
    (hold : v.hold i = some (.fork, np))
    (hhold : ∀ q s mp, (v.forkDone i np g).Live q → (v.forkDone i np g).hold q = some (s, mp) →
      v.Live q ∧ v.hold q = some (s, mp)) : Faithful (v.forkDone i np g)
      { l with forked := ((v.node i).pid, (v.node np).pid) :: l.forked } := by
  have hnb := h.not_begun hplain.sane hi hold
  have hheld := hplain.sane.held _ _ _ hi hold
  have hunborn := h.unborn i np hi hold
  have hn : ∀ q ≠ np, (v.forkDone i np g).node q = v.node q := by
    intro q hq
    simp [View.forkDone, hq]
  have hnp : ((v.forkDone i np g).node np).pid = (v.node np).pid ∧
      (v.forkDone i np g).Live np ∧ ((v.forkDone i np g).node np).parent = some i := by
    simp [View.forkDone, View.Live]
  have hlive : ∀ q, v.Live q → q ≠ np := fun q hq hqn => hnb (hqn ▸ .inl hq)
  have hzne : ∀ q, (v.node q).phase = .zombie → q ≠ np := fun q hq hqn => hnb (hqn ▸ .inr hq)
  have hmono : ∀ {p c}, l.Due (v.node v.init).pid p c →
      Ledger.Due { l with forked := ((v.node i).pid, (v.node np).pid) :: l.forked }
        ((v.forkDone i np g).node v.init).pid p c := by
    intro p c hdue
    rw [hn _ hheld.notInit.symm]
    exact hdue.mono (fun e he => mem_cons_of_mem _ he) fun _ hc => hc
  refine ⟨?_, ?_, ?_, ?_, ?_, ?_, h.waitedOnce, ?_, ?_⟩
  · rw [map_cons, nodup_cons]
    refine ⟨fun hmem => ?_, h.forkedOnce⟩
    obtain ⟨e, he, hpid⟩ := mem_map.mp hmem
    exact hunborn e he hpid
  · intro e he
    rcases mem_cons.mp he with rfl | he
    · exact hplain.pids.bound np
    · exact h.forkedOld e he
  · intro j mp hj hs e he
    obtain ⟨hj', hs'⟩ := hhold j _ mp hj hs
    have hmp : mp ≠ np := by
      rintro rfl
      obtain rfl := hplain.sane.unique i j _ _ mp hi hj' hold hs'
      simp [forkDone] at hs
    rw [hn mp hmp]
    rcases mem_cons.mp he with rfl | he
    · exact fun hpid => hmp (hplain.pids.lone i _ np hi hold rfl mp hpid.symm)
    · exact h.unborn j mp hj' hs' e he
  · intro q hq hqb
    by_cases hqn : q = np
    · subst hqn
      refine ⟨i, hnp.2.2, ?_, .inl ?_⟩
      · rw [Live, hn i (hlive i hi)]
        exact hi
      · rw [hn i (hlive i hi), hnp.1]
        exact mem_cons_self
    · rw [hn q hqn] at hqb ⊢
      obtain ⟨p, hp, hpl, hdue⟩ := h.due q hq hqb
      refine ⟨p, hp, ?_, ?_⟩
      · rw [Live, hn p (hlive p hpl)]
        exact hpl
      · rw [hn p (hlive p hpl)]
        exact hmono hdue
  · intro q hq
    have hqn : q ≠ np := by
      rintro rfl
      rw [show ((v.forkDone i q g).node q).phase = .live from hnp.2.1] at hq
      cases hq
    rw [hn q hqn] at hq ⊢
    exact h.zombie q hq
  · intro c hc
    rcases h.exited c hc with hw | ⟨z, hz, hzc⟩
    · exact .inl hw
    · have hzn := hn z (hzne z hz)
      rw [← hzn] at hz hzc
      exact .inr ⟨z, hz, hzc⟩
  · intro e he q hq
    by_cases hqn : q = np
    · subst hqn
      obtain ⟨e', he', hpid⟩ := (h.waited e he).2.forked
      rw [hnp.1]
      exact fun heq => hunborn e' he' (hpid.trans heq.symm)
    · rw [hn q hqn] at hq ⊢
      exact h.gone e he q hq
  · intro e he
    exact ⟨(h.waited e he).1, hmono (h.waited e he).2⟩

/-- A process becomes a zombie, and its children are due to init. -/
theorem Faithful.exit (h : Faithful v l) (hplain : Plain v) (hi : v.Live i) (hinit : i ≠ v.init)
    (hhold : ∀ q s mp, ((v.reparent i fun n => n.pgdir != (v.node i).pgdir).die i).Live q →
      ((v.reparent i fun n => n.pgdir != (v.node i).pgdir).die i).hold q = some (s, mp) →
      v.Live q ∧ v.hold q = some (s, mp)) :
    Faithful ((v.reparent i fun n => n.pgdir != (v.node i).pgdir).die i)
      { l with exited := (v.node i).pid :: l.exited } := by
  set v' := (v.reparent i fun n => n.pgdir != (v.node i).pgdir).die i
  have hn := v.die_reparent_node i (fun n => n.pgdir != (v.node i).pgdir) (hplain.sane.noSelf i)
  have hkeep : ∀ {q}, (v.node q).parent = some i →
      ((v.node q).pgdir != (v.node i).pgdir) = true := fun hparent => by
    simpa using hplain.pgdir_ne hi hparent
  have hphase : ∀ q, (v'.node q).phase = if q = i then .zombie else (v.node q).phase := by
    intro q
    rw [hn]
    split_ifs with hqi hparent
    · rfl
    · rw [passOn_phase, hkeep hparent, if_pos rfl]
    · rfl
  have hpid : ∀ q, (v'.node q).pid = (v.node q).pid := by
    intro q
    rw [hn]
    split_ifs with hqi hparent
    · rw [hqi]
    · rw [passOn_pid]
    · rfl
  have hparent : ∀ q, (v'.node q).parent =
      if (v.node q).parent = some i then some v.init else (v.node q).parent := by
    intro q
    rw [hn]
    split_ifs with hqi hparent hparent
    · exact absurd (hqi ▸ hparent) (hplain.sane.noSelf i)
    · rw [hqi]
    · rw [passOn_parent, hkeep hparent, if_pos rfl]
    · rfl
  have hbegun : ∀ q, (v'.node q).Begun → (v.node q).Begun := by
    intro q hq
    rw [Node.Begun, hphase] at hq
    split_ifs at hq with hqi
    · exact hqi ▸ .inl hi
    · exact hq
  have hlive : ∀ q, v.Live q → q ≠ i → v'.Live q := by
    intro q hq hqi
    rw [Live, hphase, if_neg hqi]
    exact hq
  have hmono : ∀ {p c}, l.Due (v.node v.init).pid p c →
      Ledger.Due { l with exited := (v.node i).pid :: l.exited } (v'.node v.init).pid p c := by
    intro p c hdue
    rw [hpid]
    exact hdue.mono (fun _ he => he) fun c hc => mem_cons_of_mem _ hc
  refine ⟨h.forkedOnce, h.forkedOld, ?_, ?_, ?_, ?_, h.waitedOnce, ?_, ?_⟩
  · intro j mp hj hs
    obtain ⟨hj', hs'⟩ := hhold j _ mp hj hs
    rw [hpid]
    exact h.unborn j mp hj' hs'
  · intro q hq hqb
    obtain ⟨p, hp, hpl, hdue⟩ := h.due q hq (hbegun q hqb)
    rw [hparent, hp]
    by_cases hpi : p = i
    · subst hpi
      refine ⟨v.init, if_pos rfl, hlive _ hplain.tree.init hinit.symm, .inr
        ⟨rfl, _, mem_cons_self, ?_⟩⟩
      rw [hpid]
      rcases hdue with hforked | ⟨hpinit, -⟩
      · exact hforked
      · exact absurd (hplain.pid_inj (by rw [show (v.node p).phase = .live from hpl]; simp) hpinit)
          hinit
    · refine ⟨p, if_neg (by simpa using hpi), hlive p hpl hpi, ?_⟩
      rw [hpid p, hpid q]
      exact hmono hdue
  · intro q hq
    rw [hphase] at hq
    rw [hpid]
    split_ifs at hq with hqi
    · rw [hqi]
      exact mem_cons_self
    · exact mem_cons_of_mem _ (h.zombie q hq)
  · intro c hc
    rcases mem_cons.mp hc with rfl | hc
    · exact .inr ⟨i, by rw [hphase, if_pos rfl], hpid i⟩
    · rcases h.exited c hc with hw | ⟨z, hz, hzc⟩
      · exact .inl hw
      · refine .inr ⟨z, ?_, (hpid z).trans hzc⟩
        rw [hphase, hz]
        split_ifs <;> rfl
  · intro e he q hq
    rw [hpid]
    exact h.gone e he q (hbegun q hq)
  · intro e he
    exact ⟨mem_cons_of_mem _ (h.waited e he).1, hmono (h.waited e he).2⟩

/-- `wait` returns the pid of a zombie that is due to its caller. -/
theorem Faithful.reap (h : Faithful v l) (hplain : Plain v) (hz : (v.node z).parent = some i)
    (hzombie : (v.node z).phase = .zombie)
    (hhold : ∀ q s mp, (v.reap i z).Live q → (v.reap i z).hold q = some (s, mp) →
      v.Live q ∧ v.hold q = some (s, mp)) : Faithful (v.reap i z)
      { l with waited := ((v.node i).pid, (v.node z).pid) :: l.waited } := by
  have hn : ∀ q ≠ z, (v.reap i z).node q = v.node q := by
    intro q hq
    simp [View.reap, hq]
  have hzu : ((v.reap i z).node z).phase = .unused := by simp [View.reap]
  have hne : ∀ q, ((v.reap i z).node q).phase ≠ .unused → q ≠ z := fun q hq hqz => hq (hqz ▸ hzu)
  have hlive : ∀ q, v.Live q → q ≠ z := by
    rintro q hq rfl
    rw [Live, hzombie] at hq
    cases hq
  have hzinit : z ≠ v.init := (hlive _ hplain.tree.init).symm
  refine ⟨h.forkedOnce, h.forkedOld, ?_, ?_, ?_, ?_, ?_, ?_, ?_⟩
  · intro j mp hj hs
    obtain ⟨hj', hs'⟩ := hhold j _ mp hj hs
    have hmz : mp ≠ z := by
      rintro rfl
      exact h.not_begun hplain.sane hj' hs' (.inr hzombie)
    rw [hn mp hmz]
    exact h.unborn j mp hj' hs'
  · intro q hq hqb
    have hqz := hne q hqb.used
    rw [hn q hqz] at hqb ⊢
    obtain ⟨p, hp, hpl, hdue⟩ := h.due q hq hqb
    refine ⟨p, hp, ?_, ?_⟩
    · rw [Live, hn p (hlive p hpl)]
      exact hpl
    · rw [hn p (hlive p hpl), show (v.reap i z).init = v.init from rfl, hn _ hzinit.symm]
      exact hdue
  · intro q hq
    have hqz := hne q (by rw [hq]; simp)
    rw [hn q hqz] at hq ⊢
    exact h.zombie q hq
  · intro c hc
    rcases h.exited c hc with ⟨e, he, hec⟩ | ⟨y, hy, hyc⟩
    · exact .inl ⟨e, mem_cons_of_mem _ he, hec⟩
    · by_cases hyz : y = z
      · exact .inl ⟨_, mem_cons_self, by rw [← hyc, hyz]⟩
      · rw [← hn y hyz] at hy hyc
        exact .inr ⟨y, hy, hyc⟩
  · rw [map_cons, nodup_cons]
    refine ⟨fun hmem => ?_, h.waitedOnce⟩
    obtain ⟨e, he, hpid⟩ := mem_map.mp hmem
    exact h.gone e he z (.inr hzombie) hpid.symm
  · intro e he q hq
    have hqz := hne q hq.used
    rw [hn q hqz] at hq ⊢
    rcases mem_cons.mp he with rfl | he
    · exact fun hpid => hqz (hplain.pid_inj hq.used hpid)
    · exact h.gone e he q hq
  · intro e he
    rw [show (v.reap i z).init = v.init from rfl, hn _ hzinit.symm]
    rcases mem_cons.mp he with rfl | he
    · obtain ⟨p, hp, -, hdue⟩ := h.due z hzinit (.inr hzombie)
      rw [hz] at hp
      obtain rfl := some.inj hp
      exact ⟨h.zombie z hzombie, hdue⟩
    · exact h.waited e he

theorem Plain.forkCopy_results {pg : Option ℕ} {ok : Bool} (h : Plain k.view)
    (hstep : step k (.forkCopy i pg ok) = some (k', es)) :
    ∃ np, k.view.Live i ∧ k.view.hold i = some (.fork, np) ∧
      (k'.view = k.view.forkFail i np ∧ results i es = [] ∨
        ∃ g, k'.view = k.view.forkDone i np g ∧ results i es = [(k.proc np).pid]) := by
  simp only [step] at hstep
  split_ifs at hstep with hi
  split at hstep
  · rename_i np hpc
    have hold : k.view.hold i = some (.fork, np) := by
      rw [view_hold, hpc]
      rfl
    refine ⟨np, running_live hi, hold, ?_⟩
    have hpid : (k.proc np).pid ≠ -1 := by
      have hused := (h.sane.held _ _ _ (running_live hi) hold).waiting
      have hpos := h.pids.named.pos np (by rcases hused with hw | hw <;> rw [hw] <;> simp)
      rw [view_node, node_pid] at hpos
      omega
    have hm := forkCopy_move hi hpc hstep
    unfold forkCopy at hstep
    cases pg with
    | none =>
      rw [some_pair] at hstep
      rw [← hstep.1, ← hstep.2, view_setPc, view_setProc]
      exact .inl ⟨rfl, by simp [results]⟩
    | some g =>
      dsimp only at hstep
      split_ifs at hstep with hg hok <;> rw [some_pair] at hstep <;>
        rw [← hstep.1, ← hstep.2, view_setPc, view_setProc]
      · exact .inr ⟨g, rfl, by simp [results, hpid]⟩
      · rw [freevm_fresh _ _ (by simpa using (not_or.mp hg).2)]
        exact .inl ⟨rfl, by simp [results]⟩
  · cases hstep

theorem Faithful.next (h : Faithful k.view l) (hplain : Plain k.view) (ha : a.threadFree = true)
    (hstep : step k a = some (k', es)) : Faithful k'.view (l.follow k a es) := by
  have hm := step_move hstep
  have hhold := hplain.sane.hold_of_move hm
  by_cases hfork : ∃ i pg ok, a = .forkCopy i pg ok
  · obtain ⟨i, pg, ok, rfl⟩ := hfork
    obtain ⟨np, hi, hold, ⟨hview, hres⟩ | ⟨g, hview, hres⟩⟩ := hplain.forkCopy_results hstep <;>
      rw [hview] at hhold ⊢ <;> rw [Ledger.follow, hres]
    · exact h.forkFail hplain hi hold (hhold rfl)
    · exact h.forkDone hplain hi hold (hhold rfl)
  by_cases hexit : ∃ i, a = .exit i
  · obtain ⟨i, rfl⟩ := hexit
    obtain ⟨hrun, -, hinit, rfl⟩ := exit_step hstep
    rw [view_exit_main k i (hplain.main i)] at hhold ⊢
    exact h.exit hplain (running_live hrun) hinit (hhold rfl)
  by_cases hwait : ∃ i, a = .wait i
  · obtain ⟨i, rfl⟩ := hwait
    obtain ⟨hrun, hidle, ⟨z, hz, hzs, rfl, rfl⟩ | ⟨-, ⟨-, rfl, rfl⟩ | ⟨-, rfl, rfl⟩⟩⟩ :=
      wait_cases hstep
    · have hpid : (k.proc z).pid ≠ -1 := by
        have hpos := hplain.pids.named.pos z (by simp [hzs, ProcState.phase])
        rw [view_node, node_pid] at hpos
        omega
      have hres : results i [.freevm k (k.proc z).pgdir, .ret i (k.proc z).pid] =
          [(k.proc z).pid] := by
        simp [results, hpid]
      rw [view_setPc, view_setProc] at hhold ⊢
      rw [Ledger.follow, hres]
      exact h.reap hplain hz (phase_zombie.mpr hzs) (hhold rfl)
    · have hl : l.follow k (.wait i) [.ret i (-1)] = l := by simp [Ledger.follow, results]
      rw [view_setPc_idle k i .user rfl hidle, hl]
      exact h
    · rw [view_setPc_idle (sleepSelf k i) i .wait rfl hidle, sleepSelf_view hrun]
      exact h
  · have hl : l.follow k a es = l := by
      cases a <;> simp_all [Ledger.follow]
    rw [hl]
    generalize k'.view = v' at hm
    cases hplain.cases ha hm with
    | quiet => exact h
    | noStack hp => exact h.fresh hplain.tree hp
    | alloc hp => exact h.alloc hplain.tree hp
    | forkFail | forkDone => exact absurd ⟨_, _, _, rfl⟩ hfork
    | exit => exact absurd ⟨_, rfl⟩ hexit
    | reap => exact absurd ⟨_, rfl⟩ hwait
    | exec => exact h.exec hplain.tree

theorem faithful_boot : Faithful boot.view ⟨[], [], []⟩ := by
  have hbegun : ∀ q, (boot.view.node q).Begun → q = 0 := by
    intro q hq
    by_contra hq0
    simp [Node.Begun, boot, hq0, unused, ProcState.phase] at hq
  refine ⟨by simp, by simp, by simp, ?_, ?_, by simp, by simp, by simp, by simp⟩
  · exact fun q hq hqb => absurd (hbegun q hqb) hq
  · intro q hq
    rw [hbegun q (.inr hq)] at hq
    cases hq

structure Protocol (s : Kept) : Prop where
  plain : Plain s.k.view
  quiet : Quiet s.k
  stacked : Stacked s.k
  faithful : Faithful s.k.view s.ledger

theorem reachable_protocol {s : Kept} (h : KeptReachable s) : Protocol s := by
  apply Reach.invariant (P := Protocol) _ _ h
  · intro s hs
    subst hs
    refine ⟨plain_boot, ?_, ?_, faithful_boot⟩
    · intro p _ hpc
      cases hpc
    · intro q hq
      by_cases hq0 : q = 0
      · subst hq0
        rfl
      · simp [boot, hq0, unused] at hq
  · intro s a s' hs ha hstep
    obtain ⟨k', es, hstep, rfl⟩ := hstep
    exact ⟨hs.plain.next ha hstep, hs.quiet.next hs.plain ha hstep,
      hs.stacked.next hs.plain ha hstep, hs.faithful.next hs.plain ha hstep⟩

theorem Protocol.unreleased {s : Kept} (h : Protocol s) (hp : (s.k.proc z).parent = some p)
    (hz : (s.k.proc z).state = .ZOMBIE) :
    (s.k.proc z).kstack = true ∧ s.k.pgLive (s.k.proc z).pgdir = true := by
  refine ⟨h.stacked z (by rw [hz]; simp), ?_⟩
  have hwaited : (s.k.view.node z).Waited :=
    ⟨phase_zombie.mpr hz, h.plain.main z, by simp [hp]⟩
  exact (h.plain.unfreed.waited z hwaited).1

/-- In every run in which nobody calls `clone` or `thread_exit`:
each pid that `fork` returned is returned by at most one `wait`, after that process has called
`exit`, to its parent or, when its parent has called `exit` before, to init; until then it is a
zombie with a live parent and neither its stack nor its page directory is freed;
`wait` returns -1 when the caller has no children, and otherwise only if it is killed; a pid it
returns is that of a zombie child, whose stack and directory it frees with one call each;
and nobody sleeps in `wait` while it has a zombie child. -/
theorem fork_exit_wait_protocol {s : Kept} (h : KeptReachable s) :
    (s.ledger.forked.map snd).Nodup ∧ (s.ledger.waited.map snd).Nodup ∧
    (∀ e ∈ s.ledger.waited, e.2 ∈ s.ledger.exited ∧
      s.ledger.Due (s.k.proc s.k.initproc).pid e.1 e.2) ∧
    (∀ c ∈ s.ledger.exited, (∀ e ∈ s.ledger.waited, e.2 ≠ c) →
      ∃ z p, (s.k.proc z).pid = c ∧ (s.k.proc z).state = .ZOMBIE ∧
        (s.k.proc z).parent = some p ∧ (s.k.proc p).state.Runs ∧
        s.ledger.Due (s.k.proc s.k.initproc).pid (s.k.proc p).pid c ∧
        (s.k.proc z).kstack = true ∧ s.k.pgLive (s.k.proc z).pgdir = true) ∧
    (∀ i k' es, step s.k (.wait i) = some (k', es) →
      ((∀ z, (s.k.proc z).parent ≠ some i) → es = [.ret i (-1)]) ∧
      ∀ v, Event.ret i v ∈ es →
        v = -1 ∧ ((∀ z, (s.k.proc z).parent ≠ some i) ∨ (s.k.proc i).killed = true) ∨
        ∃ z, v = (s.k.proc z).pid ∧ (s.k.proc z).parent = some i ∧
          (s.k.proc z).state = .ZOMBIE ∧ (s.k.proc z).pid ∈ s.ledger.exited ∧
          es = [.freevm s.k (s.k.proc z).pgdir, .ret i v] ∧
          (s.k.proc z).kstack = true ∧ (k'.proc z).kstack = false ∧
          s.k.pgLive (s.k.proc z).pgdir = true ∧ k'.pgLive (s.k.proc z).pgdir = false ∧
          (k'.proc z).state = .UNUSED) ∧
    ∀ p z, (s.k.proc p).state = .SLEEPING → s.k.pc p = .wait → (s.k.proc z).parent = some p →
      (s.k.proc z).state ≠ .ZOMBIE := by
  have hs := reachable_protocol h
  refine ⟨hs.faithful.forkedOnce, hs.faithful.waitedOnce, hs.faithful.waited, ?_, ?_,
    fun p z hp hpc => (hs.quiet p hp hpc).2 z⟩
  · intro c hc hnot
    rcases hs.faithful.exited c hc with ⟨e, he, hec⟩ | ⟨z, hz, hzc⟩
    · exact absurd hec (hnot e he)
    · have hzinit : z ≠ s.k.view.init := by
        rintro rfl
        rw [show (s.k.view.node s.k.view.init).phase = .live from hs.plain.tree.init] at hz
        cases hz
      obtain ⟨p, hp, hpl, hdue⟩ := hs.faithful.due z hzinit (.inr hz)
      have hzs := phase_zombie.mp hz
      exact ⟨z, p, hzc, hzs, hp, (runs_iff _ p).mpr hpl, hzc ▸ hdue, hs.unreleased hp hzs⟩
  · intro i k' es hstep
    obtain ⟨-, -, ⟨z, hz, hzs, rfl, rfl⟩ | ⟨-, ⟨hwhy, rfl, rfl⟩ | ⟨⟨⟨y, hy⟩, -⟩, rfl, rfl⟩⟩⟩ :=
      wait_cases hstep
    · refine ⟨fun hnone => absurd hz (hnone z), fun v hv => .inr ⟨z, ?_⟩⟩
      obtain rfl : v = (s.k.proc z).pid := by simpa using hv
      obtain ⟨hstack, hpg⟩ := hs.unreleased hz hzs
      refine ⟨rfl, hz, hzs, hs.faithful.zombie z (phase_zombie.mpr hzs), rfl, hstack, ?_, hpg, ?_,
        ?_⟩
      · simp
      · simp [freevm, setPc, setProc]
      · simp
    · refine ⟨fun _ => rfl, fun v hv => .inl ⟨by simpa using hv, hwhy⟩⟩
    · exact ⟨fun hnone => absurd hy (hnone y), fun v hv => by simp at hv⟩

def Kept.exec1 (s : Kept) (a : Act) : Option Kept :=
  (step s.k a).map fun r => ⟨r.1, s.ledger.follow s.k a r.2⟩

theorem exists_kept (p : Kept → Bool) (as : List Act)
    (h : (execs (fun _ a => a.threadFree) Kept.exec1 ⟨boot, ⟨[], [], []⟩⟩ as).any p = true) :
    ∃ s, KeptReachable s ∧ p s = true := by
  have hboot : KeptReachable ⟨boot, ⟨[], [], []⟩⟩ := .start rfl
  apply Reach.exists_of_execs _ Kept.exec1 p (fun _ _ ha => ha) _ as hboot h
  intro s a s' hs
  obtain ⟨⟨k', es⟩, hk, rfl⟩ := map_eq_some_iff.mp hs
  exact ⟨k', es, hk, rfl⟩

/-- Slot 1 forks slot 2 and exits before it; init waits for both. -/
theorem fork_exit_wait_protocol_orphan :
    ∃ s, KeptReachable s ∧ s.ledger.forked = [(2, 3), (1, 2)] ∧
      s.ledger.waited = [(1, 3), (1, 2)] ∧ (s.ledger.waited.map snd).Nodup := by
  obtain ⟨s, hs, hp⟩ := exists_kept
    (fun s => decide (s.ledger.forked = [(2, 3), (1, 2)] ∧ s.ledger.waited = [(1, 3), (1, 2)]))
    (.dispatch 0 :: forks 0 2 ++ .dispatch 1 :: forks 1 3 ++
      [.dispatch 2, .wait 0, .exit 1, .dispatch 0, .wait 0, .exit 2, .wait 0]) (by decide +kernel)
  obtain ⟨hforked, hwaited⟩ := of_decide_eq_true hp
  exact ⟨s, hs, hforked, hwaited, (fork_exit_wait_protocol hs).2.1⟩

end Xv6Threads.ProcTable
