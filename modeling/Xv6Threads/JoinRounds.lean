import Xv6Threads.JoinLock
import Xv6Threads.Kill
import Xv6Threads.Sleepers
import Xv6Threads.Strays

namespace Xv6Threads.ProcTable

open Function Finset Option Node View ProcTable Bool Pc

/-- What the main thread knows about its threads in the current round. -/
structure Round where
  k : Kernel
  /-- how many `thread_create` has made -/
  made : ℕ
  /-- the joins have begun -/
  joining : Bool
  /-- the tids returned and not joined yet -/
  tids : Finset ℤ
  slot : ℤ → Slot
  /-- what the thread passed to `thread_exit` -/
  val : ℤ → Option Word

def returned (m : Slot) (es : List Event) : Option ℤ :=
  es.findSome? fun
    | .ret p v => if p = m then some v else none
    | _ => none

def stored : List Event → Option Word
  | .store _ _ v :: _ => some v
  | _ => none

/-- The round after a step of the kernel to `k'` with the events `es`. -/
def Round.follow (m : Slot) (x : Round) (a : Act) (k' : Kernel) (es : List Event) : Round :=
  match a, x.k.pc m, returned m es with
  | .cloneDone _, .cloneNext np _ _ _, some t =>
    { k := k', made := x.made + 1, joining := x.joining, tids := insert t x.tids,
      slot := update x.slot t np, val := update x.val t none }
  | .threadExit q v, _, _ =>
    { x with k := k', val := fun t => if t ∈ x.tids ∧ x.slot t = q then some v else x.val t }
  | .threadJoin _ _ _, _, _ => { x with k := k', joining := true }
  | .waitThread _, .join t _, _ =>
    if stored es = none then { x with k := k' }
    -- the last join ends the round
    else if x.tids.erase t = ∅ then { x with k := k', made := 0, joining := false, tids := ∅ }
    else { x with k := k', tids := x.tids.erase t }
  | _, _, _ => { x with k := k' }

/-- The main thread creates, then joins what it created; its threads only exit; nobody kills the
process, and nobody else creates or joins anything. -/
def Rules (m : Slot) (x : Round) : Act → Prop
  | .dispatch _ | .yield _ | .wakeup _ => True
  | .clone i _ _ _ kalloc => i = m ∧ x.joining = false ∧ kalloc = true ∧
      (x.made < 7 → ∃ q, (x.k.proc q).state = .UNUSED)
  | .clonePid i | .cloneNext i | .cloneDone i | .lockAcquire i | .waitThread i | .lockRelease i =>
    i = m
  | .threadJoin i tid _ => i = m ∧ tid ∈ x.tids
  | .threadExit i _ => i ≠ m
  | .kill i pid => (x.k.proc i).pid ≠ (x.k.proc m).pid ∧ pid ≠ (x.k.proc m).pid
  | .sleep i _ | .sbrk i _ | .exit i | .wait i | .exec i _ _ _ _ _ =>
    (x.k.proc i).pid ≠ (x.k.proc m).pid
  | .fork _ _ | .forkCopy _ _ _ => False

/-- No thread of another process is under `m`. -/
def NoStrays (k : Kernel) (m : Slot) : Prop :=
  ∀ q, (k.proc q).parent = some m → (k.proc q).isThread = true → (k.proc q).pid = (k.proc m).pid

/-- Nobody's `exit` ends the main thread; and if that is init, it has not been passed threads of
other processes. -/
def Unspoiled (m : Slot) (x : Round) (a : Act) : Prop :=
  (∀ i, a = .exit i → ¬Ends x.k i m) ∧ (m = x.k.initproc → NoStrays x.k m)

/-- A process with no thread but its main one in `m`, before its first round. -/
structure Start (m : Slot) (x : Round) : Prop where
  reachable : Reachable (fun _ _ => True) x.k
  main : (x.k.proc m).isThread = false
  numOfThread : (x.k.proc m).numOfThread = 0
  killed : (x.k.proc m).killed = false
  runs : (x.k.proc m).state.Runs
  pc : x.k.pc m = .user
  alone : ∀ q, q ≠ m → (x.k.proc q).pid ≠ (x.k.proc m).pid
  lock : x.k.lock = true
  fresh : x.made = 0 ∧ x.joining = false ∧ x.tids = ∅

abbrev RoundReachable (m : Slot) (ok : Round → Act → Prop) : Round → Prop :=
  Reach (Start m) ok fun x a x' => ∃ k' es, step x.k a = some (k', es) ∧ x' = x.follow m a k' es

variable {k k' : Kernel} {a : Act} {es : List Event} {i m p q z : Slot} {t pid : ℤ} {r : Word}

def joinedKernel (k : Kernel) (m z : Slot) : Kernel :=
  setPc (setProc (setProc k m { k.proc m with
      numOfThread := (k.proc m).numOfThread - 1 }) z { k.proc z with
      kstack := false, state := .UNUSED, pid := 0, parent := none, killed := false,
      isThread := false, exitStatus := 0 }) m .release

theorem joinedKernel_main (hz : z ≠ m) : (joinedKernel k m z).proc m =
    { k.proc m with numOfThread := (k.proc m).numOfThread - 1 } := by
  simp [joinedKernel, hz.symm]

theorem joinedKernel_other (hm : q ≠ m) (hz : q ≠ z) : (joinedKernel k m z).proc q = k.proc q := by
  simp [joinedKernel, hm, hz]

theorem waitThread_ended (hz : JoinTarget k m t z) (hunique : ∀ p, JoinTarget k m t p → p = z)
    (hs : (k.proc z).state = .ZOMBIE) (ht : 0 ≤ t) (hzm : z ≠ m) : waitThread k m t r =
    (joinedKernel k m z, [.store m r (k.proc z).exitStatus]) := by
  have hfind : slots.find? (fun p => decide ((k.proc p).parent = some m ∧ (k.proc p).tid = t ∧
      (k.proc p).isThread = true) && decide ((k.proc p).state = .ZOMBIE)) = some z := by
    apply find_slot
    · rw [and_eq_true, decide_eq_true_eq, decide_eq_true_eq]
      exact ⟨hz, hs⟩
    · intro p hp
      rw [and_eq_true, decide_eq_true_eq] at hp
      exact hunique p hp.1
  have htid : ¬(k.proc z).tid < 0 := by
    rw [hz.2.1]
    omega
  unfold waitThread
  simp only [hfind, setProc_proc, hzm, if_false, joinReturn, htid, joinedKernel]

theorem waitThread_waits (hz : JoinTarget k m t z) (hunique : ∀ p, JoinTarget k m t p → p = z)
    (hs : (k.proc z).state ≠ .ZOMBIE) (hkilled : (k.proc m).killed = false) :
    waitThread k m t r = (sleepSelf k m, []) := by
  have hfind : slots.find? (fun p => decide ((k.proc p).parent = some m ∧ (k.proc p).tid = t ∧
      (k.proc p).isThread = true) && decide ((k.proc p).state = .ZOMBIE)) = none := by
    apply find_slot_none
    intro p
    rw [and_eq_false_iff, decide_eq_false_iff_not, decide_eq_false_iff_not]
    by_cases hp : JoinTarget k m t p
    · rw [hunique p hp]
      exact .inr hs
    · exact .inl hp
  have hsome : ¬(slots.all fun p => !decide ((k.proc p).parent = some m ∧ (k.proc p).tid = t ∧
      (k.proc p).isThread = true)) = true := by
    intro hall
    rw [List.all_eq_true] at hall
    have hnot := hall z (List.mem_finRange z)
    rw [decide_eq_true (show _ ∧ _ ∧ _ from hz)] at hnot
    cases hnot
  unfold waitThread
  simp only [hfind]
  rw [if_neg]
  rintro (h | h)
  · exact hsome h
  · rw [hkilled] at h
    cases h

/-- A step of the scheduler, or a call of a process other than `pid` that concerns that one at
most by its exit. -/
def Outside (k : Kernel) (pid : ℤ) : Act → Prop
  | .dispatch _ | .yield _ | .wakeup _ => True
  | .sleep i _ | .sbrk i _ | .exit i | .threadExit i _ | .wait i | .exec i _ _ _ _ _ =>
    (k.proc i).pid ≠ pid
  | .kill i p => (k.proc i).pid ≠ pid ∧ p ≠ pid
  | _ => False

/-- What it does to a slot of the process: nothing, or another parent. -/
theorem node_of_outside (hsane : Sane k.view) (hout : Outside k pid a)
    (h : step k a = some (k', es)) (hq : (k.proc q).pid = pid)
    (hends : ∀ i, a = .exit i → ¬Ends k i q)
    (hzombie : (k.proc q).state = .ZOMBIE → ∀ i, (k.proc q).parent = some i →
      (k.proc i).pid = pid) : k'.view.node q = k.view.node q ∨
    (∃ i, (k.proc q).parent = some i ∧ (k.proc i).pid ≠ pid) ∧
      k'.view.node q = { k.view.node q with parent := some k.initproc } := by
  have hm := step_move h
  generalize k'.view = v' at hm
  cases hm with
  | quiet => exact .inl rfl
  | @exitThreads i hi hidle hinit ht =>
    left
    rw [die_endAll_node, if_neg]
    rw [view_node, node_pid, hq]
    exact Ne.symm hout
  | @exitMain i hi hidle hinit ht =>
    rw [die_reparent_node _ _ _ (hsane.noSelf i)]
    have hqi : q ≠ i := by
      rintro rfl
      exact hout hq
    rw [if_neg hqi]
    split_ifs with hparent
    · refine .inr ⟨⟨i, hparent, hout⟩, ?_⟩
      have hkeep : (k.proc q).pgdir ≠ (k.proc i).pgdir := by
        intro hpg
        apply hends i rfl
        have ht : (k.proc i).isThread = false := ht
        rw [Ends, ht]
        exact ⟨hparent, hpg⟩
      simp only [Node.passOn, view_node, node_pgdir, bne_iff_ne, ne_eq, hkeep, not_false_eq_true,
        if_true]
      rfl
    · exact .inl rfl
  | @threadExit i _ hi hidle hinit =>
    rw [die_reparent_node _ _ _ (hsane.noSelf i)]
    have hqi : q ≠ i := by
      rintro rfl
      exact hout hq
    rw [if_neg hqi]
    split_ifs with hparent
    · exact .inr ⟨⟨i, hparent, hout⟩, rfl⟩
    · exact .inl rfl
  | @reap i z hi hidle hz hzombie' =>
    left
    have hqz : q ≠ z := by
      rintro rfl
      exact hout (hzombie (phase_zombie.mp hzombie') i hz)
    simp [reap, hqz]
  | @exec i g _ _ _ _ hi hidle hg =>
    left
    have hqi : q ≠ i := by
      rintro rfl
      exact hout hq
    rw [exec_node, if_neg hqi]
  | _ => cases hout

theorem pid_of_outside (hsane : Sane k.view) (hout : Outside k pid a) (h : step k a = some (k', es))
    (hpid : pid ≠ 0) (hq : (k'.proc q).pid = pid) : (k.proc q).pid = pid := by
  have hm := step_move h
  have hq : (k'.view.node q).pid = pid := hq
  generalize k'.view = v' at hm hq
  cases hm with
  | quiet => exact hq
  | exitThreads =>
    rw [die_endAll_node] at hq
    split_ifs at hq
    · rwa [ended_pid] at hq
    · exact hq
  | exitMain | threadExit => rwa [(die_reparent_name _ _ _ (hsane.noSelf _) q).2] at hq
  | @reap i z hi hidle hz hzombie =>
    by_cases hqz : q = z
    · simp [reap, hqz] at hq
      exact absurd hq.symm hpid
    · simpa [reap, hqz] using hq
  | exec =>
    rw [exec_node] at hq
    exact hq
  | _ => cases hout

/-- The slot has the same part in the tree and the same exit status, and has not gone to sleep. -/
structure Proc.Remains (x y : Proc) : Prop where
  node : y.node = x.node
  exitStatus : y.exitStatus = x.exitStatus
  awake : y.state = .SLEEPING → x.state = .SLEEPING

theorem remains_of_step (h : step k a = some (k', es)) (hnode : k'.view.node q = k.view.node q)
    (hsleep : ∀ c, a ≠ .sleep q c) (hexit : ∀ r, a ≠ .threadExit q r) (hwait : a ≠ .wait q)
    (hjoin : a ≠ .waitThread q) : (k.proc q).Remains (k'.proc q) := by
  refine ⟨hnode, ?_, fun hs => ?_⟩
  · cases step_change h q with
    | stir hst => exact congrArg Body.exitStatus hst.body
    | kill _ hx | alloc _ _ hx | forkFail _ _ hx | forkDone _ _ hx | clonePid _ _ hx | exit hx
    | reap _ _ hx => exact congrArg Body.exitStatus hx
    | threadExit => exact absurd rfl (hexit _)
    | join _ hq _ hs =>
      have hphase := congrArg phase hnode
      rw [view_node, view_node, node_phase, node_phase, hs, hq] at hphase
      cases hphase
  · rcases sleeps_of_step h hs with ⟨hs, -⟩ | ⟨c, rfl, -⟩ | ⟨rfl, -⟩ | ⟨_, _, rfl, -⟩
    · exact hs
    · exact absurd rfl (hsleep c)
    · exact absurd rfl hwait
    · exact absurd rfl hjoin

theorem spared_of_step (h : step k a = some (k', es)) (hq : (k.proc q).killed = false)
    (ha : ∀ i, a ≠ .kill i (k.proc q).pid) : (k'.proc q).killed = false := by
  by_contra hkilled
  rcases killed_of_step h (by simpa using hkilled) with hold | ⟨i, p, rfl, hp⟩
  · rw [hq] at hold
    cases hold
  · have hpid : (k.proc q).pid = p := by simpa using List.find?_some hp
    exact ha i (by rw [hpid])

/-- Thread `t` of the round: it can run, or it is a zombie with the value it has exited with. -/
structure Round.Thread (m : Slot) (x : Round) (t : ℤ) : Prop where
  parent : (x.k.proc (x.slot t)).parent = some m
  isThread : (x.k.proc (x.slot t)).isThread = true
  pid : (x.k.proc (x.slot t)).pid = (x.k.proc m).pid
  tid : (x.k.proc (x.slot t)).tid = t
  running : x.val t = none →
    (x.k.proc (x.slot t)).state = .RUNNABLE ∨ (x.k.proc (x.slot t)).state = .RUNNING
  ended : ∀ v, x.val t = some v →
    (x.k.proc (x.slot t)).state = .ZOMBIE ∧ (x.k.proc (x.slot t)).exitStatus = v

def Round.Place (x : Round) : Pc → Prop
  | .user | .release => True
  | .cloneAlloc _ _ _ _ | .clonePid _ _ _ _ | .cloneNext _ _ _ _ => x.joining = false ∧ x.made < 7
  | .spin t _ | .join t _ => x.joining = true ∧ t ∈ x.tids
  | .fork _ | .wait => False

structure Orderly (m : Slot) (x : Round) : Prop where
  kindred : Kindred x.k.view
  pid_ne : (x.k.proc m).pid ≠ 0
  main : (x.k.proc m).isThread = false
  spared : (x.k.proc m).killed = false
  live : x.k.view.Live m
  count : (x.k.proc m).numOfThread = x.tids.card
  pids : ∀ q, (x.k.proc q).pid = (x.k.proc m).pid →
    q = m ∨ (∃ t ∈ x.tids, x.slot t = q) ∨ ∃ s, x.k.view.hold m = some (s, q)
  thread : ∀ t ∈ x.tids, x.Thread m t
  bound : ∀ t ∈ x.tids, 1 ≤ t ∧ t ≤ x.made
  made_le : x.made ≤ 7
  made_eq : x.joining = false → x.tids.card = x.made
  place : x.Place (x.k.pc m)
  lock : x.k.lock = true ∨ (x.k.pc m).HoldsLock
  asleep : (x.k.proc m).state = .SLEEPING → x.k.pc m = .user ∨
    ∃ t r, x.k.pc m = .join t r ∧ x.val t = none ∧ (x.k.proc m).chan = some (.slot m)

variable {x y : Round}

theorem Round.Thread.used (h : x.Thread m t) : (x.k.proc (x.slot t)).state ≠ .UNUSED := by
  cases hv : x.val t with
  | none =>
    rcases h.running hv with hs | hs <;> rw [hs] <;> simp
  | some v =>
    rw [(h.ended v hv).1]
    simp

theorem Round.Thread.awake (h : x.Thread m t) : (x.k.proc (x.slot t)).state ≠ .SLEEPING := by
  cases hv : x.val t with
  | none =>
    rcases h.running hv with hs | hs <;> rw [hs] <;> simp
  | some v =>
    rw [(h.ended v hv).1]
    simp

theorem Round.Thread.remains (h : x.Thread m t)
    (hr : (x.k.proc (x.slot t)).Remains (y.k.proc (y.slot t)))
    (hpid : (y.k.proc m).pid = (x.k.proc m).pid) (hval : y.val t = x.val t) : y.Thread m t := by
  have hnode : ∀ {α : Type} (f : Node → α), f (y.k.proc (y.slot t)).node =
      f (x.k.proc (x.slot t)).node := fun f => congrArg f hr.node
  refine ⟨(hnode Node.parent).trans h.parent, (hnode Node.isThread).trans h.isThread,
    ((hnode Node.pid).trans h.pid).trans hpid.symm, (hnode Node.tid).trans h.tid,
    fun hv => ?_, fun v hv => ?_⟩
  · have hlive : (x.k.proc (x.slot t)).state.phase = .live := by
      rcases h.running (hval ▸ hv) with hs | hs <;> rw [hs] <;> rfl
    rcases phase_live.mp ((hnode phase).trans hlive) with hs | hs
    · exact absurd (hr.awake hs) h.awake
    · exact hs
  · obtain ⟨hs, hv⟩ := h.ended v (hval ▸ hv)
    have hphase : (x.k.proc (x.slot t)).state.phase = .zombie := by rw [hs]; rfl
    exact ⟨phase_zombie.mp ((hnode phase).trans hphase), hr.exitStatus.trans hv⟩

section
variable (h : Orderly m x)
include h

theorem Orderly.slot_ne (ht : t ∈ x.tids) : x.slot t ≠ m := by
  intro hm
  have hthread := (h.thread t ht).isThread
  rw [hm, h.main] at hthread
  cases hthread

theorem Orderly.frame (hy : y.made = x.made ∧ y.tids = x.tids ∧ y.slot = x.slot ∧ y.val = x.val)
    (hjoining : y.joining = false → x.joining = false) (hkindred : Kindred y.k.view)
    (hm : (y.k.proc m).isThread = (x.k.proc m).isThread ∧ (y.k.proc m).pid = (x.k.proc m).pid ∧
      (y.k.proc m).numOfThread = (x.k.proc m).numOfThread ∧ (y.k.proc m).killed = false)
    (hlive : y.k.view.Live m)
    (hthread : ∀ t ∈ x.tids, (x.k.proc (x.slot t)).Remains (y.k.proc (x.slot t)))
    (hpids : ∀ q, (y.k.proc q).pid = (x.k.proc m).pid →
      q = m ∨ (∃ t ∈ x.tids, x.slot t = q) ∨ ∃ s, y.k.view.hold m = some (s, q))
    (hplace : y.Place (y.k.pc m)) (hlock : y.k.lock = true ∨ (y.k.pc m).HoldsLock)
    (hasleep : (y.k.proc m).state = .SLEEPING → y.k.pc m = .user ∨
      ∃ t r, y.k.pc m = .join t r ∧ x.val t = none ∧ (y.k.proc m).chan = some (.slot m)) :
    Orderly m y := by
  obtain ⟨hmade, htids, hslot, hval⟩ := hy
  obtain ⟨hmain, hpid, hcount, hkilled⟩ := hm
  refine ⟨hkindred, hpid ▸ h.pid_ne, hmain.trans h.main, hkilled, hlive, ?_, ?_,
    ?_, ?_, hmade ▸ h.made_le, ?_, hplace, hlock, hval ▸ hasleep⟩
  · rw [hcount, htids]
    exact h.count
  · rw [hpid, htids, hslot]
    exact hpids
  · intro t ht
    rw [htids] at ht
    exact (h.thread t ht).remains (hslot ▸ hthread t ht) hpid (congrFun hval t)
  · rw [htids, hmade]
    exact h.bound
  · intro hj
    rw [htids, hmade]
    exact h.made_eq (hjoining hj)

theorem Orderly.used : (x.k.proc m).state ≠ .UNUSED :=
  fun hu => h.live.ne_unused (phase_unused.mpr hu) rfl

theorem Orderly.not_zombie : (x.k.proc m).state ≠ .ZOMBIE := by
  intro hz
  have hlive : (x.k.proc m).state.phase = .live := h.live
  rw [hz] at hlive
  cases hlive

theorem Orderly.pc_of_outside (hout : Outside x.k (x.k.proc m).pid a)
    (hstep : step x.k a = some (k', es)) : k'.pc m = x.k.pc m := by
  by_cases hslot : a.slot = some m
  · cases a with
    | dispatch i | yield i =>
      cases stepped_of_step hstep
      rfl
    | wakeup c => cases hslot
    | kill i p =>
      obtain rfl := some.inj hslot
      exact absurd rfl hout.1
    | sleep i | sbrk i | exit i | threadExit i | wait i | exec i =>
      obtain rfl := some.inj hslot
      exact absurd rfl hout
    | _ => cases hout
  · exact pc_of_step hstep h.used hslot

theorem Orderly.outside (hstep : step x.k a = some (k', es)) (hout : Outside x.k (x.k.proc m).pid a)
    (hends : ∀ i, a = .exit i → ¬Ends x.k i m) : Orderly m { x with k := k' } := by
  have hsane := h.kindred.sane
  have hpc := h.pc_of_outside hout hstep
  have hthread : ∀ t ∈ x.tids, (x.k.proc (x.slot t)).Remains (k'.proc (x.slot t)) := by
    intro t ht
    have hT := h.thread t ht
    have hparent : ∀ i, (x.k.proc (x.slot t)).parent = some i →
        (x.k.proc i).pid = (x.k.proc m).pid := by
      intro i hi
      rw [← some.inj (hT.parent.symm.trans hi)]
    have hends' : ∀ i, a = .exit i → ¬Ends x.k i (x.slot t) := by
      rintro i rfl hE
      unfold Ends at hE
      split_ifs at hE
      · exact hout (hE.symm.trans hT.pid)
      · exact hout (hparent i hE.1)
    refine remains_of_step hstep ?_ ?_ ?_ ?_ ?_
    · rcases node_of_outside hsane hout hstep hT.pid hends' fun _ =>
        hparent with hn | ⟨⟨i, hi, hne⟩, -⟩
      · exact hn
      · exact absurd (hparent i hi) hne
    · rintro c rfl
      exact hout hT.pid
    · rintro r rfl
      exact hout hT.pid
    · rintro rfl
      exact hout hT.pid
    · rintro rfl
      exact hout
  have hnode := node_of_outside hsane hout hstep rfl hends fun hz => absurd hz h.not_zombie
  have hfields : ∀ {α : Type} (f : Node → α), (∀ n p, f { n with parent := p } = f n) →
      f (k'.view.node m) = f (x.k.view.node m) := by
    intro α f hf
    rcases hnode with hn | ⟨-, hn⟩
    · rw [hn]
    · rw [hn, hf]
  have hlive : k'.view.Live m := (hfields phase fun _ _ => rfl).trans h.live
  have hkill : ∀ i, a ≠ .kill i (x.k.proc m).pid := by
    rintro i rfl
    exact hout.2 rfl
  refine h.frame ⟨rfl, rfl, rfl, rfl⟩ id (h.kindred.move (step_move hstep))
    ⟨hfields isThread fun _ _ => rfl, hfields pid fun _ _ => rfl,
      hfields numOfThread fun _ _ => rfl, spared_of_step hstep h.spared hkill⟩
    hlive hthread ?_ ?_ ?_ ?_
  · intro q hq
    have hhold : k'.view.hold m = x.k.view.hold m := congrArg Pc.hold hpc
    rw [hhold]
    exact h.pids q (pid_of_outside hsane hout hstep h.pid_ne hq)
  · show x.Place (k'.pc m)
    rw [hpc]
    exact h.place
  · have hlock : k'.lock = x.k.lock := by
      apply lock_of_step hstep
      · rintro i rfl
        exact hout
      · rintro i rfl
        exact hout
    rw [hlock, hpc]
    exact h.lock
  · intro hs
    rw [hpc]
    rcases sleeps_of_step hstep hs with ⟨hs, hc⟩ | ⟨c, rfl, -⟩ | ⟨rfl, -⟩ | ⟨_, _, rfl, -⟩
    · rw [hc]
      exact h.asleep hs
    · exact absurd rfl hout
    · exact absurd rfl hout
    · exact absurd hout id

theorem Orderly.slot_inj {t' : ℤ} (ht : t ∈ x.tids) (ht' : t' ∈ x.tids)
    (hs : x.slot t' = x.slot t) : t' = t := by
  rw [← (h.thread t ht).tid, ← (h.thread t' ht').tid, hs]

end

theorem threadExit_cases (h : step k (.threadExit i r) = some (k', es)) :
    running k i = true ∧ k' = exitThread k i r := by
  cases stepped_of_step h with
  | threadExit hi => exact ⟨hi.1, rfl⟩

/-- A thread of the round exits: if the main thread waits, it is woken. -/
theorem Orderly.threadExit (h : Orderly m x) (ht : t ∈ x.tids)
    (hstep : step x.k (.threadExit (x.slot t) r) = some (k', es)) :
    Orderly m (x.follow m (.threadExit (x.slot t) r) k' es) := by
  have hsane := h.kindred.sane
  have hslot := h.slot_ne ht
  have hT := h.thread t ht
  obtain ⟨hrun, hk⟩ := threadExit_cases hstep
  have hview : k'.view = (x.k.view.reparent (x.slot t) fun _ => true).die (x.slot t) := by
    rw [hk]
    exact view_exitThread x.k (x.slot t) r
  have hnode : ∀ p ≠ x.slot t, k'.view.node p =
      if (x.k.proc p).parent = some (x.slot t) then
        { x.k.view.node p with parent := some x.k.initproc } else x.k.view.node p := by
    intro p hp
    rw [hview, die_reparent_node _ _ _ (hsane.noSelf _), if_neg hp]
    rfl
  have hname : ∀ p, (k'.proc p).isThread = (x.k.proc p).isThread ∧
      (k'.proc p).pid = (x.k.proc p).pid := by
    intro p
    have hn := x.k.view.die_reparent_name (x.slot t) (fun _ => true) (hsane.noSelf _) p
    rwa [← hview] at hn
  have hfields : ∀ {α : Type} (f : Node → α), (∀ n p, f { n with parent := p } = f n) →
      f (k'.view.node m) = f (x.k.view.node m) := by
    intro α f hf
    rw [hnode m hslot.symm]
    split_ifs
    · exact hf _ _
    · rfl
  have hpc : k'.pc m = x.k.pc m := by
    apply pc_of_step hstep h.used
    intro hs
    exact hslot (some.inj hs)
  have hlive : k'.view.Live m := (hfields phase fun _ _ => rfl).trans h.live
  refine ⟨h.kindred.move (step_move hstep), (hname m).2 ▸ h.pid_ne, (hname m).1.trans h.main,
    spared_of_step hstep h.spared (by simp), hlive, (hfields numOfThread fun _ _ =>
      rfl).trans h.count, ?_, ?_,
    h.bound, h.made_le, h.made_eq, ?_, ?_, ?_⟩
  · intro q hq
    have hhold : k'.view.hold m = x.k.view.hold m := congrArg Pc.hold hpc
    show _ ∨ _ ∨ ∃ s, k'.view.hold m = some (s, q)
    rw [hhold]
    exact h.pids q (((hname q).2.symm.trans hq).trans (hname m).2)
  · intro t' ht'
    by_cases htt : t' = t
    · subst htt
      have hself : k'.view.node (x.slot t') = { x.k.view.node
          (x.slot t') with phase := .zombie } := by
        rw [hview, die_reparent_node _ _ _ (hsane.noSelf _), if_pos rfl]
      have hval : (x.follow m (.threadExit (x.slot t') r) k' es).val t' = some r :=
        if_pos ⟨ht, rfl⟩
      refine ⟨(congrArg parent hself).trans hT.parent, (hname _).1.trans hT.isThread,
        (hname _).2.trans (hT.pid.trans (hname m).2.symm), (congrArg tid hself).trans hT.tid,
        fun hv => ?_, fun v hv => ?_⟩
      · rw [hval] at hv
        cases hv
      · obtain rfl := some.inj (hval.symm.trans hv)
        refine ⟨phase_zombie.mp (congrArg phase hself), ?_⟩
        have hbody := exitThread_body x.k (x.slot t') r
        rw [← hk] at hbody
        exact congrArg Body.exitStatus hbody
    · have hne : x.slot t' ≠ x.slot t := fun hs => htt (h.slot_inj ht ht' hs)
      have hT' := h.thread t' ht'
      refine hT'.remains (remains_of_step hstep ?_ (by simp) ?_ (by simp) (by simp)) (hname m).2 ?_
      · have hparent : (x.k.proc (x.slot t')).parent ≠ some (x.slot t) := by
          rw [hT'.parent]
          exact fun hp => hslot (some.inj hp).symm
        exact (hnode _ hne).trans (if_neg hparent)
      · intro r' hr
        exact hne (Act.threadExit.inj hr).1.symm
      · exact if_neg fun hs => hne hs.2
  · show x.Place (k'.pc m)
    rw [hpc]
    exact h.place
  · show k'.lock = true ∨ (k'.pc m).HoldsLock
    rw [lock_of_step hstep (by simp) (by simp), hpc]
    exact h.lock
  · intro hs
    have hwake := exitThread_wakes_parent x.k (x.slot t) r
    rw [hT.parent, ← hk] at hwake
    obtain ⟨hs', hc⟩ : (x.k.proc m).state = .SLEEPING ∧ (k'.proc m).chan = (x.k.proc m).chan := by
      rcases sleeps_of_step hstep hs with hs | ⟨_, hs, -⟩ | ⟨hs, -⟩ | ⟨_, _, hs, -⟩
      · exact hs
      all_goals cases hs
    rcases h.asleep hs' with hp | ⟨_, _, -, -, hchan⟩
    · exact .inl (hpc.trans hp)
    · exact absurd (hc.trans hchan) (hwake m hs)

theorem Proc.Remains.refl (x : Proc) : x.Remains x := ⟨rfl, rfl, id⟩

theorem running_iff : running k i = true ↔ (k.proc i).state = .RUNNING := decide_eq_true_iff

/-- A step of the main thread that moves neither it nor its threads. -/
theorem Orderly.still (h : Orderly m x) (hrun : running x.k m = true)
    (hy : y.made = x.made ∧ y.tids = x.tids ∧ y.slot = x.slot ∧ y.val = x.val)
    (hjoining : y.joining = false → x.joining = false) (hkindred : Kindred y.k.view)
    (hm : y.k.proc m = x.k.proc m)
    (hthread : ∀ t ∈ x.tids, y.k.proc (x.slot t) = x.k.proc (x.slot t))
    (hpids : ∀ q, (y.k.proc q).pid = (x.k.proc m).pid →
      q = m ∨ (∃ t ∈ x.tids, x.slot t = q) ∨ ∃ s, y.k.view.hold m = some (s, q))
    (hplace : y.Place (y.k.pc m)) (hlock : y.k.lock = true ∨ (y.k.pc m).HoldsLock) :
    Orderly m y := by
  have hs : (y.k.proc m).state = .RUNNING := by rw [hm, running_iff.mp hrun]
  refine h.frame hy hjoining hkindred ?_ ?_ ?_ hpids hplace hlock ?_
  · rw [hm]
    exact ⟨rfl, rfl, rfl, h.spared⟩
  · rw [View.Live, view_node, hm]
    exact h.live
  · intro t ht
    rw [hthread t ht]
    exact .refl _
  · intro hsleep
    rw [hs] at hsleep
    cases hsleep

theorem Orderly.pids_idle (h : Orderly m x) (hold : x.k.view.hold m = none)
    (hq : (x.k.proc q).pid = (x.k.proc m).pid) : q = m ∨ ∃ t ∈ x.tids, x.slot t = q := by
  rcases h.pids q hq with hq | hq | ⟨s, hs⟩
  · exact .inl hq
  · exact .inr hq
  · rw [hold] at hs
    cases hs

theorem Orderly.clone {f arg st : Word} (h : Orderly m x) (hjoining : x.joining = false)
    (hstep : step x.k (.clone m f arg st true) = some (k', es)) : Orderly m { x with k := k' } := by
  have hkindred := h.kindred.move (step_move hstep)
  have hcount := h.count
  rw [h.made_eq hjoining] at hcount
  have hmade := h.made_le
  obtain ⟨hrun, huser, ⟨rfl, -⟩ | ⟨np, hn, hu, -, hother, -, hpc⟩⟩ := clone_cases hstep
  · exact h
  · have hne : ∀ q, (x.k.proc q).state ≠ .UNUSED → q ≠ np := fun q hq hqn => hq (hqn ▸ hu)
    refine h.still hrun ⟨rfl, rfl, rfl, rfl⟩ id hkindred (hother m (hne m h.used))
      (fun t ht => hother _ (hne _ (h.thread t ht).used)) (fun q hq => ?_) ?_ ?_
    · by_cases hqn : q = np
      · right; right
        exact ⟨.alloc, by rw [hqn, view_hold, hpc]; rfl⟩
      · rw [hother q hqn] at hq
        exact (h.pids_idle (idle_of_user huser) hq).imp_right .inl
    · show x.Place (k'.pc m)
      rw [hpc]
      refine ⟨hjoining, ?_⟩
      omega
    · refine .inl ((lock_of_step hstep (by simp) (by simp)).trans ?_)
      simpa [huser, HoldsLock] using h.lock

section
variable (h : Orderly m x)
include h

/-- The slot the main thread is creating is none of its threads. -/
theorem Orderly.held_ne {s : Stage} {np : Slot}
    (hold : x.k.view.hold m = some (s, np)) (ht : t ∈ x.tids) : x.slot t ≠ np := by
  intro hnp
  have hheld := h.kindred.sane.held m s np h.live hold
  have hT := h.thread t ht
  have htid : (x.k.proc np).tid = 0 := hheld.tid
  have hpos := (h.bound t ht).1
  rw [← hT.tid, hnp, htid] at hpos
  omega

theorem Orderly.pids_held {s : Stage} {np : Slot}
    (hold : x.k.view.hold m = some (s, np)) (hq : (x.k.proc q).pid = (x.k.proc m).pid)
    (hqn : q ≠ np) : q = m ∨ ∃ t ∈ x.tids, x.slot t = q := by
  rcases h.pids q hq with hq | hq | ⟨s', hs⟩
  · exact .inl hq
  · exact .inr hq
  · rw [hold] at hs
    exact absurd (some_pair.mp hs).2.symm hqn

theorem Orderly.lock_free (hpc : ¬(x.k.pc m).HoldsLock) : x.k.lock = true :=
  h.lock.resolve_right hpc

theorem Orderly.clonePid (hstep : step x.k (.clonePid m) = some (k', es)) :
    Orderly m { x with k := k' } := by
  have hkindred := h.kindred.move (step_move hstep)
  cases stepped_of_step hstep with
  | @clonePid _ np f arg st hrun hpc =>
    have hold : x.k.view.hold m = some (.alloc, np) := by rw [view_hold, hpc]; rfl
    have hnm : m ≠ np := ((h.kindred.sane.held m _ np h.live hold).ne_live h.live).symm
    have hplace := h.place
    rw [hpc] at hplace
    refine h.still hrun ⟨rfl, rfl, rfl, rfl⟩ id hkindred ?_ (fun t ht => ?_) (fun q hq => ?_) ?_ ?_
    · simp [clonePid, hnm]
    · simp [clonePid, h.held_ne hold ht]
    · by_cases hqn : q = np
      · right; right
        exact ⟨.named, by rw [hqn, view_hold]; simp [Pc.hold]⟩
      · have hq : (x.k.proc q).pid = (x.k.proc m).pid := by
          simpa [clonePid, hqn] using hq
        exact (h.pids_held hold hq hqn).imp_right .inl
    · show x.Place _
      simpa [Round.Place] using hplace
    · exact .inl (h.lock_free (by simp [hpc, HoldsLock]))

theorem Orderly.cloneNext (hstep : step x.k (.cloneNext m) = some (k', es)) :
    Orderly m { x with k := k' } := by
  have hkindred := h.kindred.move (step_move hstep)
  cases stepped_of_step hstep with
  | @cloneNext _ np f arg st hrun hpc =>
    have hold : x.k.view.hold m = some (.named, np) := by rw [view_hold, hpc]; rfl
    have hplace := h.place
    rw [hpc] at hplace
    refine h.still hrun ⟨rfl, rfl, rfl, rfl⟩ id hkindred rfl (fun t ht => rfl)
      (fun q hq => ?_) ?_ ?_
    · by_cases hqn : q = np
      · right; right
        exact ⟨.counted, by rw [hqn, view_hold]; simp [Pc.hold]⟩
      · exact (h.pids_held hold hq hqn).imp_right .inl
    · show x.Place _
      simpa [Round.Place] using hplace
    · exact .inl (h.lock_free (by simp [hpc, HoldsLock]))

theorem Orderly.threadJoin (ht : t ∈ x.tids) (hstep : step x.k (.threadJoin m t r) = some
    (k', es)) :
    Orderly m { x with k := k', joining := true } := by
  have hkindred := h.kindred.move (step_move hstep)
  cases stepped_of_step hstep with
  | threadJoin hrun =>
    refine h.still hrun.1 ⟨rfl, rfl, rfl, rfl⟩ (by simp) hkindred rfl (fun t ht => rfl)
      (fun q hq => (h.pids_idle (idle_of_user hrun.2) hq).imp_right .inl) ?_ ?_
    · simp [Round.Place, ht]
    · exact .inl (h.lock_free (by simp [hrun.2, HoldsLock]))

theorem Orderly.lockAcquire (hstep : step x.k (.lockAcquire m) = some (k', es)) :
    Orderly m { x with k := k' } := by
  have hkindred := h.kindred.move (step_move hstep)
  obtain ⟨hrun, t, r, hpc, ⟨-, rfl⟩ | ⟨hfalse, -⟩⟩ := lockAcquire_cases hstep
  · have hplace := h.place
    rw [hpc] at hplace
    have hold : x.k.view.hold m = none := by rw [view_hold, hpc]; rfl
    refine h.still hrun ⟨rfl, rfl, rfl, rfl⟩ id hkindred rfl (fun t ht => rfl)
      (fun q hq => (h.pids_idle hold hq).imp_right .inl) ?_ ?_
    · show x.Place _
      simpa [Round.Place] using hplace
    · exact .inr (.inl ⟨t, r, by simp⟩)
  · rw [h.lock_free (by simp [hpc, HoldsLock])] at hfalse
    cases hfalse

theorem Orderly.mainSlot_eq {np : Slot} (hold : x.k.view.hold m = some (.counted, np)) :
    mainSlot x.k.proc (x.k.proc m).pid = some m := by
  apply find_slot
  · exact decide_eq_true ⟨rfl, h.main⟩
  · intro q hq
    obtain ⟨hpid, hmain⟩ := of_decide_eq_true hq
    have hthread : ¬(x.k.proc q).isThread = true := by simp [hmain]
    by_cases hqn : q = np
    · have hheld := h.kindred.sane.held m _ np h.live hold
      exact absurd (hqn ▸ (hheld.tied rfl).2.2.2) hthread
    · rcases h.pids_held hold hpid hqn with hq | ⟨t, ht, rfl⟩
      · exact hq
      · exact absurd (h.thread t ht).isThread hthread

end

theorem cloneDone_cases (h : step k (.cloneDone i) = some (k', es)) :
    running k i = true ∧ ∃ np f arg st, k.pc i = .cloneNext np f arg st ∧
      cloneDone k i np f arg st = (k', es) := by
  cases stepped_of_step h with
  | cloneDone hi hpc => exact ⟨hi, _, _, _, _, hpc, rfl⟩

theorem cloneDone_pc (k : Kernel) (i np : Slot) (f a s : Word) :
    (cloneDone k i np f a s).1.pc i = .user := by
  unfold cloneDone
  cases mainSlot k.proc (k.proc i).pid <;> simp

section
variable (h : Orderly m x)
include h

theorem Orderly.cloneDone_returned (hstep : step x.k (.cloneDone m) = some (k', es)) :
    returned m es =
    some (x.made + 1 : ℤ) := by
  obtain ⟨-, np, f, arg, st, hpc, hdone⟩ := cloneDone_cases hstep
  have hold : x.k.view.hold m = some (.counted, np) := by rw [view_hold, hpc]; rfl
  have hplace := h.place
  rw [hpc] at hplace
  have hcount := h.count
  rw [h.made_eq hplace.1] at hcount
  have hes := cloneDone_events x.k m np f arg st
  rw [hdone] at hes
  have htid : nextTid x.k m = x.made + 1 := by
    rw [nextTid, h.mainSlot_eq hold]
    exact congrArg (· + 1) hcount
  simp only at hes
  rw [hes, htid]
  simp [returned]

theorem Orderly.cloneDone (hstep : step x.k (.cloneDone m) = some (k', es)) :
    Orderly m (x.follow m (.cloneDone m) k' es) := by
  have hkindred := h.kindred.move (step_move hstep)
  have hret := h.cloneDone_returned hstep
  obtain ⟨hrun, np, f, arg, st, hpc, hdone⟩ := cloneDone_cases hstep
  have hold : x.k.view.hold m = some (.counted, np) := by rw [view_hold, hpc]; rfl
  have hheld := h.kindred.sane.held m _ np h.live hold
  have hnm : np ≠ m := hheld.ne_live h.live
  have hplace := h.place
  rw [hpc] at hplace
  have hcard := h.made_eq hplace.1
  have hnew : (x.made + 1 : ℤ) ∉ x.tids := by
    intro hmem
    have := (h.bound _ hmem).2
    omega
  -- the main thread counts one more, the new slot starts
  have hcount : (x.k.proc m).numOfThread = x.made := by rw [h.count, hcard]
  have hview : k'.view = (x.k.view.count m (x.made + 1)).start m np (x.made + 1) := by
    have hv := cloneDone_view np f arg st h.live
    rw [hdone, nextTid, h.mainSlot_eq hold] at hv
    simp only [hcount] at hv
    exact hv
  have hnode : ∀ q ≠ np, k'.view.node q = { x.k.view.node q with
      numOfThread := if q = m then (x.made + 1 : ℤ) else (x.k.view.node q).numOfThread } := by
    intro q hq
    rw [hview]
    simp only [start, setHold_node, setNode_node, hq, if_false]
    exact count_node _ _ _ _
  have hnp : k'.view.node np = { x.k.view.node np with
      phase := .live, tid := (x.made + 1 : ℤ) } := by
    rw [hview]
    simp [start, count_node, hnm]
  have hm := hnode m hnm.symm
  have hlive : k'.view.Live m := by
    rw [View.Live, hm]
    exact h.live
  have hpid : (k'.proc m).pid = (x.k.proc m).pid := congrArg pid hm
  have hpc' : k'.pc m = .user := by
    have hp := cloneDone_pc x.k m np f arg st
    rwa [hdone] at hp
  have hfollow : x.follow m (.cloneDone m) k' es = { x with
      k := k', made := x.made + 1, tids := insert (x.made + 1 : ℤ) x.tids,
      slot := update x.slot (x.made + 1 : ℤ) np,
      val := update x.val (x.made + 1 : ℤ) none } := by
    unfold Round.follow
    rw [hpc, hret]
  rw [hfollow]
  have hsleep : ∀ q, (k'.proc q).state = .SLEEPING → (x.k.proc q).state = .SLEEPING := by
    intro q hs
    rcases sleeps_of_step hstep hs with ⟨hs, -⟩ | ⟨_, hs, -⟩ | ⟨hs, -⟩ | ⟨_, _, hs, -⟩
    · exact hs
    all_goals cases hs
  refine ⟨hkindred, hpid ▸ h.pid_ne, (congrArg isThread hm).trans h.main,
    spared_of_step hstep h.spared (by simp), hlive, ?_, ?_, ?_, ?_, hplace.2, ?_, ?_,
    .inl ?_, ?_⟩
  · rw [card_insert_of_notMem hnew, hcard]
    have hn := congrArg numOfThread hm
    simpa using hn
  · intro q hq
    by_cases hqn : q = np
    · right; left
      exact ⟨_, mem_insert_self _ _, (update_self _ _ _).trans hqn.symm⟩
    · have hq' : (x.k.proc q).pid = (x.k.proc m).pid :=
        ((congrArg pid (hnode q hqn)).symm.trans hq).trans hpid
      rcases h.pids_held hold hq' hqn with hq | ⟨t, ht, hslot⟩
      · exact .inl hq
      · right; left
        have htn : t ≠ x.made + 1 := fun htn => hnew (htn ▸ ht)
        exact ⟨t, mem_insert_of_mem ht, (update_of_ne htn _ _).trans hslot⟩
  · intro t ht
    rcases mem_insert.mp ht with rfl | ht
    · -- the new thread
      obtain ⟨hparent, -, hpid', hthread⟩ := hheld.tied rfl
      have hslot : update x.slot (x.made + 1 : ℤ) np (x.made + 1) = np :=
        update_self _ _ _
      refine ⟨?_, ?_, ?_, ?_, fun _ => ?_, fun v hv => ?_⟩
      all_goals simp only [hslot]
      · exact (congrArg parent hnp).trans hparent
      · exact (congrArg isThread hnp).trans hthread
      · exact (congrArg pid hnp).trans (hpid'.trans hpid.symm)
      · exact congrArg tid hnp
      · rcases phase_live.mp (congrArg phase hnp) with hs | hs
        · rcases hheld.waiting with hw | hw <;>
            rw [view_node, node_phase, hsleep np hs] at hw <;> cases hw
        · exact hs
      · simp at hv
    · have htn : t ≠ x.made + 1 := fun htn => hnew (htn ▸ ht)
      have hT := h.thread t ht
      have hslot : update x.slot (x.made + 1 : ℤ) np t = x.slot t :=
        update_of_ne htn _ _
      refine hT.remains ?_ hpid (update_of_ne htn _ _)
      simp only [hslot]
      refine remains_of_step hstep ?_ (by simp) (by simp) (by simp) (by simp)
      rw [hnode _ (h.held_ne hold ht), if_neg (h.slot_ne ht)]
  · intro t ht
    have hbound := h.bound t
    simp only [mem_insert] at ht
    push_cast
    rcases ht with rfl | ht
    · omega
    · have := hbound ht
      omega
  · intro _
    rw [card_insert_of_notMem hnew, hcard]
  · show Round.Place _ (k'.pc m)
    rw [hpc']
    trivial
  · exact (lock_of_step hstep (by simp) (by simp)).trans (h.lock_free (by simp [hpc, HoldsLock]))
  · intro _
    exact .inl hpc'

theorem Orderly.noStrays (hm : m ≠ x.k.initproc) : NoStrays x.k m := by
  intro q hparent hthread
  rcases h.kindred.kin m q hm hparent hthread with hmain | hpid
  · have hmain' : (x.k.proc m).isThread = true := hmain
    rw [h.main] at hmain'
    cases hmain'
  · exact hpid

/-- `wait_thread` finds the thread of the round, and no other. -/
theorem Orderly.target (hstrays : NoStrays x.k m) (hpc : x.k.pc m = .join t r) :
    JoinTarget x.k m t (x.slot t) ∧ ∀ p, JoinTarget x.k m t p → p = x.slot t := by
  have hplace := h.place
  rw [hpc] at hplace
  have hT := h.thread t hplace.2
  refine ⟨⟨hT.parent, hT.tid, hT.isThread⟩, ?_⟩
  rintro p ⟨hparent, htid, hthread⟩
  have hold : x.k.view.hold m = none := by rw [view_hold, hpc]; rfl
  rcases h.pids_idle hold (hstrays p hparent hthread) with rfl | ⟨t', ht', rfl⟩
  · rw [h.main] at hthread
    cases hthread
  · rw [← htid, (h.thread t' ht').tid]

/-- The outcome of a scan: the thread has not ended and the main thread sleeps, or it has, and
its value is stored and its slot freed. -/
theorem Orderly.scan (hstrays : NoStrays x.k m) (hpc : x.k.pc m = .join t r) :
    (x.val t = none ∧ waitThread x.k m t r = (sleepSelf x.k m, [])) ∨
    ∃ v, x.val t = some v ∧ waitThread x.k m t r =
      (joinedKernel x.k m (x.slot t), [.store m r v]) := by
  obtain ⟨htarget, hunique⟩ := h.target hstrays hpc
  have hplace := h.place
  rw [hpc] at hplace
  have hT := h.thread t hplace.2
  have hpos := (h.bound t hplace.2).1
  cases hv : x.val t with
  | none =>
    refine .inl ⟨rfl, waitThread_waits htarget hunique ?_ h.spared⟩
    rcases hT.running hv with hs | hs <;> rw [hs] <;> simp
  | some v =>
    obtain ⟨hs, hstatus⟩ := hT.ended v hv
    refine .inr ⟨v, rfl, ?_⟩
    rw [← hstatus]
    exact waitThread_ended htarget hunique hs (by omega) (h.slot_ne hplace.2)

theorem Orderly.joined (ht : t ∈ x.tids) (hrun : running x.k m = true)
    (hold : x.k.view.hold m = none) (hkindred : Kindred (joinedKernel x.k m (x.slot t)).view)
    (hy : y.k = joinedKernel x.k m (x.slot t) ∧ y.tids = x.tids.erase t ∧ y.slot = x.slot ∧
      y.val = x.val) (hmade : y.made ≤ 7) (hbound : ∀ t ∈ y.tids, t ≤ y.made)
    (hcard : y.joining = false → y.tids.card = y.made) : Orderly m y := by
  obtain ⟨hk, htids, hslot, hval⟩ := hy
  have hz := h.slot_ne ht
  have hm : y.k.proc m = { x.k.proc m with numOfThread := (x.k.proc m).numOfThread - 1 } := by
    rw [hk, joinedKernel_main hz]
  have hother : ∀ q ≠ m, q ≠ x.slot t → y.k.proc q = x.k.proc q := by
    intro q hqm hqz
    rw [hk, joinedKernel_other hqm hqz]
  have hpid : (y.k.proc m).pid = (x.k.proc m).pid := by rw [hm]
  have hs : (y.k.proc m).state = .RUNNING := by
    rw [hm]
    exact running_iff.mp hrun
  have hpc : y.k.pc m = .release := by
    rw [hk]
    simp [joinedKernel]
  refine ⟨hk ▸ hkindred, hpid ▸ h.pid_ne, by rw [hm]; exact h.main, by rw [hm]; exact h.spared,
    phase_live.mpr (.inr (.inr hs)), ?_, ?_, ?_, ?_, hmade, hcard, ?_, .inr (.inr hpc), ?_⟩
  · have hpos : 0 < x.tids.card := card_pos.mpr ⟨t, ht⟩
    have hcount := h.count
    rw [hm, htids, card_erase_of_mem ht]
    simp only
    omega
  · intro q hq
    by_cases hqz : q = x.slot t
    · have hzero : (y.k.proc q).pid = 0 := by
        rw [hk, hqz]
        simp [joinedKernel]
      exact absurd ((hzero.symm.trans hq).trans hpid).symm h.pid_ne
    · by_cases hqm : q = m
      · exact .inl hqm
      · right; left
        rw [hother q hqm hqz, hpid] at hq
        obtain ⟨t', ht', hslot'⟩ := (h.pids_idle hold hq).resolve_left hqm
        have htt : t' ≠ t := by
          rintro rfl
          exact hqz hslot'.symm
        rw [htids, hslot]
        exact ⟨t', mem_erase.mpr ⟨htt, ht'⟩, hslot'⟩
  · intro t' ht'
    rw [htids] at ht'
    obtain ⟨htt, hmem⟩ := mem_erase.mp ht'
    refine (h.thread t' hmem).remains ?_ hpid (congrFun hval t')
    rw [hslot, hother _ (h.slot_ne hmem) fun hs => htt (h.slot_inj ht hmem hs)]
    exact .refl _
  · intro t' ht'
    refine ⟨?_, hbound t' ht'⟩
    rw [htids] at ht'
    exact (h.bound t' (mem_of_mem_erase ht')).1
  · rw [hpc]
    trivial
  · intro hsleep
    rw [hs] at hsleep
    cases hsleep

theorem Orderly.lockRelease (hstep : step x.k (.lockRelease m) = some (k', es)) :
    Orderly m { x with k := k' } := by
  have hkindred := h.kindred.move (step_move hstep)
  cases stepped_of_step hstep with
  | lockRelease hrun =>
    have hold : x.k.view.hold m = none := by rw [view_hold, hrun.2]; rfl
    refine h.still hrun.1 ⟨rfl, rfl, rfl, rfl⟩ id hkindred rfl (fun t ht => rfl)
      (fun q hq => (h.pids_idle hold hq).imp_right .inl) ?_ (.inl rfl)
    simp [Round.Place]

theorem Orderly.waitThread (hstrays : NoStrays x.k m)
    (hstep : step x.k (.waitThread m) = some (k', es)) :
    Orderly m (x.follow m (.waitThread m) k' es) := by
  have hkindred := h.kindred.move (step_move hstep)
  obtain ⟨hrun, t, r, hpc, hwait⟩ := waitThread_cases hstep
  have hplace := h.place
  rw [hpc] at hplace
  have hold : x.k.view.hold m = none := by rw [view_hold, hpc]; rfl
  rcases h.scan hstrays hpc with ⟨hv, hk⟩ | ⟨v, hv, hk⟩
  · obtain ⟨rfl, rfl⟩ := Prod.mk.inj (hwait.symm.trans hk)
    have hfollow : x.follow m (.waitThread m) (sleepSelf x.k m) [] =
        { x with k := sleepSelf x.k m } := by
      unfold Round.follow
      rw [hpc]
      rfl
    have hview := sleepSelf_view hrun
    have hm : (sleepSelf x.k m).proc m =
        { x.k.proc m with chan := some (.slot m), state := .SLEEPING } := by
      simp [sleepSelf]
    rw [hfollow]
    refine h.frame ⟨rfl, rfl, rfl, rfl⟩ id hkindred (by rw [hm]; exact ⟨rfl, rfl, rfl, h.spared⟩)
      (hview ▸ h.live) (fun t' ht' => ?_) (fun q hq => ?_) ?_ (.inr (.inl ⟨t, r, hpc⟩)) fun _ => ?_
    · have hne := h.slot_ne ht'
      simp only [sleepSelf, setProc_proc, hne, if_false]
      exact .refl _
    · rw [show (sleepSelf x.k m).view.hold = x.k.view.hold from rfl]
      apply h.pids q
      by_cases hqm : q = m
      · rw [hqm]
      · simpa [sleepSelf, hqm] using hq
    · show x.Place (x.k.pc m)
      exact h.place
    · exact .inr ⟨t, r, hpc, hv, by rw [hm]⟩
  · obtain ⟨rfl, rfl⟩ := Prod.mk.inj (hwait.symm.trans hk)
    unfold Round.follow
    rw [hpc]
    simp only [stored, reduceCtorEq, if_false]
    split_ifs with hlast
    · refine h.joined hplace.2 hrun hold hkindred ⟨rfl, hlast.symm, rfl, rfl⟩ ?_ ?_ ?_
      · simp
      · simp
      · simp
    · refine h.joined hplace.2 hrun hold hkindred ⟨rfl, rfl, rfl, rfl⟩ h.made_le ?_ ?_
      · exact fun t' ht' => (h.bound t' (mem_of_mem_erase ht')).2
      · intro hj
        exact absurd hj (by simp [hplace.1])

end

theorem pid_ne_zero (h : Reachable (fun _ _ => True) k) (hq : (k.proc q).state ≠ .UNUSED) :
    (k.proc q).pid ≠ 0 := by
  have hnamed : Named k.view := by
    apply Reach.invariant (P := fun k => Named k.view) _ _ h
    · rintro k rfl
      exact named_boot
    · rintro k a k' hk - ⟨es, hstep⟩
      exact hk.move (step_move hstep)
  have hpos : 0 < (k.proc q).pid := hnamed.pos q fun hu => hq (phase_unused.mp hu)
  omega

theorem Start.orderly (h : Start m x) : Orderly m x := by
  obtain ⟨hmade, hjoining, htids⟩ := h.fresh
  have hlive : x.k.view.Live m := (runs_iff x.k m).mp h.runs
  have hnone : ∀ t, t ∉ x.tids := by simp [htids]
  refine ⟨reachable_kindred h.reachable, pid_ne_zero h.reachable ?_, h.main, h.killed, hlive, ?_,
    fun q hq => .inl ?_, fun t ht => absurd ht (hnone t), fun t ht => absurd ht (hnone t), ?_, ?_,
    ?_, .inl h.lock, fun _ => .inl h.pc⟩
  · exact fun hu => hlive.ne_unused (phase_unused.mpr hu) rfl
  · rw [h.numOfThread, htids]
    rfl
  · by_contra hqm
    exact h.alone q hqm hq
  · omega
  · intro _
    rw [htids, hmade]
    rfl
  · rw [h.pc]
    trivial

/-- A `thread_exit` is that of a thread of the round or of another process. -/
theorem Orderly.exits (h : Orderly m x) (hi : i ≠ m)
    (hstep : step x.k (.threadExit i r) = some (k', es)) :
    Orderly m (x.follow m (.threadExit i r) k' es) := by
  by_cases hours : ∃ t ∈ x.tids, x.slot t = i
  · obtain ⟨t, ht, rfl⟩ := hours
    exact h.threadExit ht hstep
  · have hout : (x.k.proc i).pid ≠ (x.k.proc m).pid := by
      intro hpid
      rcases h.pids i hpid with him | hthread | ⟨s, hold⟩
      · exact hi him
      · exact hours hthread
      · have hlive := running_live (threadExit_cases hstep).1
        exact (h.kindred.sane.held m s i h.live hold).ne_live hlive rfl
    have hval : (fun t => if t ∈ x.tids ∧ x.slot t = i then some r else x.val t) = x.val := by
      funext t
      exact if_neg fun ht => hours ⟨t, ht⟩
    have hfollow : x.follow m (.threadExit i r) k' es = { x with k := k' } := by
      show { x with k := k', val := _ } = _
      rw [hval]
    rw [hfollow]
    exact h.outside hstep hout (by simp)

theorem Orderly.next (h : Orderly m x) (hrules : Rules m x a) (hgood : Unspoiled m x a)
    (hstep : step x.k a = some (k', es)) : Orderly m (x.follow m a k' es) := by
  cases a with
  | dispatch i | yield i | wakeup c => exact h.outside hstep trivial (by simp)
  | sleep i c | sbrk i sz | kill i p | wait i | exec i pg ok sz entry sp =>
    exact h.outside hstep hrules (by simp)
  | exit i => exact h.outside hstep hrules hgood.1
  | threadExit i v => exact h.exits hrules hstep
  | clone i f arg st kalloc =>
    obtain ⟨rfl, hjoining, rfl, -⟩ := hrules
    exact h.clone hjoining hstep
  | clonePid i =>
    obtain rfl : i = m := hrules
    exact h.clonePid hstep
  | cloneNext i =>
    obtain rfl : i = m := hrules
    exact h.cloneNext hstep
  | cloneDone i =>
    obtain rfl : i = m := hrules
    exact h.cloneDone hstep
  | threadJoin i tid r =>
    obtain ⟨rfl, ht⟩ := hrules
    exact h.threadJoin ht hstep
  | lockAcquire i =>
    obtain rfl : i = m := hrules
    exact h.lockAcquire hstep
  | waitThread i =>
    obtain rfl : i = m := hrules
    by_cases hinit : i = x.k.initproc
    · exact h.waitThread (hgood.2 hinit) hstep
    · exact h.waitThread (h.noStrays hinit) hstep
  | lockRelease i =>
    obtain rfl : i = m := hrules
    exact h.lockRelease hstep
  | fork | forkCopy => cases hrules

theorem reachable_orderly
    (h : RoundReachable m (fun x a => Rules m x a ∧ Unspoiled m x a) x) : Orderly m x := by
  apply Reach.invariant (P := Orderly m) _ _ h
  · intro x hx
    exact hx.orderly
  · rintro x a x' hx ⟨hrules, hgood⟩ ⟨k', es, hstep, rfl⟩
    exact hx.next hrules hgood hstep

/-- The value is stored, the slot of the thread is the only one freed, and `lock_release` is
next. -/
def Joined (m : Slot) (x : Round) (t : ℤ) (r v : Word) (k' : Kernel) (es : List Event) : Prop :=
  es = [.store m r v] ∧ k'.pc m = .release ∧ (k'.proc (x.slot t)).state = .UNUSED ∧
    (∀ q, q ≠ x.slot t → q ≠ m → k'.proc q = x.k.proc q) ∧
    k'.proc m = { x.k.proc m with numOfThread := (x.k.proc m).numOfThread - 1 }

def Round.start (k : Kernel) : Round := ⟨k, 0, false, ∅, fun _ => 0, fun _ => none⟩

def Round.exec1 (m : Slot) (x : Round) (a : Act) : Option Round :=
  (step x.k a).map fun s => x.follow m a s.1 s.2

/-- `before` brings the system to a state in which the rounds of `m` can start. -/
theorem exists_round (m : Slot) (ok : Round → Act → Prop) (okb : Round → Act → Bool)
    (hok : ∀ x a, okb x a = true → ok x a) (p : Round → Bool) (before as : List Act)
    (h : ((execs (fun _ _ => true) exec1 boot before).any fun k =>
      decide ((k.proc m).isThread = false ∧ (k.proc m).numOfThread = 0 ∧
        (k.proc m).killed = false ∧ (k.proc m).state.Runs ∧ k.pc m = .user ∧
        (∀ q ≠ m, (k.proc q).pid ≠ (k.proc m).pid) ∧ k.lock = true) &&
      (execs okb (Round.exec1 m) (.start k) as).any p) = true) :
    ∃ x, RoundReachable m ok x ∧ p x = true := by
  have hboot : Reachable (fun _ _ => True) boot := .start rfl
  obtain ⟨k, hk, hrest⟩ := Reach.exists_of_execs _ exec1 _ (fun _ _ _ => trivial) (by
    intro k a k' hstep
    obtain ⟨⟨k₁, es⟩, hk, rfl⟩ := map_eq_some_iff.mp hstep
    exact ⟨es, hk⟩) before hboot h
  rw [and_eq_true, decide_eq_true_eq] at hrest
  obtain ⟨⟨hmain, hnum, hkilled, hruns, hpc, halone, hlock⟩, hrun⟩ := hrest
  have hstart : RoundReachable m ok (.start k) :=
    .start ⟨hk, hmain, hnum, hkilled, hruns, hpc, halone, hlock, rfl, rfl, rfl⟩
  apply Reach.exists_of_execs okb (Round.exec1 m) p hok _ as hstart hrun
  intro x a x' hstep
  obtain ⟨⟨k', es⟩, hk, rfl⟩ := map_eq_some_iff.mp hstep
  exact ⟨k', es, hk, rfl⟩

instance (m : Slot) (x : Round) : (a : Act) → Decidable (Rules m x a)
  | .dispatch _ | .yield _ | .wakeup _ => inferInstanceAs (Decidable True)
  | .clone _ _ _ _ _ => inferInstanceAs (Decidable (_ ∧ _ ∧ _ ∧ (_ → ∃ _, _)))
  | .clonePid i | .cloneNext i | .cloneDone i | .lockAcquire i | .waitThread i | .lockRelease i =>
    inferInstanceAs (Decidable (i = m))
  | .threadJoin _ _ _ => inferInstanceAs (Decidable (_ ∧ _))
  | .threadExit i _ => inferInstanceAs (Decidable (i ≠ m))
  | .kill _ _ => inferInstanceAs (Decidable (_ ∧ _))
  | .sleep i _ | .sbrk i _ | .exit i | .wait i | .exec i _ _ _ _ _ =>
    inferInstanceAs (Decidable ((x.k.proc i).pid ≠ (x.k.proc m).pid))
  | .fork _ _ | .forkCopy _ _ _ => inferInstanceAs (Decidable False)

theorem unspoiled_of_quiet (hm : m ≠ x.k.initproc) (ha : ∀ i, a ≠ .exit i) : Unspoiled m x a :=
  ⟨fun i hi => absurd hi (ha i), fun hinit => absurd hinit hm⟩

def notExit : Act → Bool
  | .exit _ => false
  | _ => true

end Xv6Threads.ProcTable
