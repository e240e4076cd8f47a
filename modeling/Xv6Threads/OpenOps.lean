import Xv6Threads.GroupCommit
import Xv6Threads.Survival

namespace Xv6Threads.OpenOps

open Option Finset GroupCommit ProcTable

open ProcTable (Slot Kernel Sane Ends View running running_live exit_step step_move
  phase_unused phase_zombie live_of_move phase_exit)
open GroupCommit (Pos Gate)

structure Sys where
  k : Kernel
  log : GroupCommit.State Slot

inductive Act
  | table (a : ProcTable.Act)
  | log (a : GroupCommit.Act Slot)

/-- The process that makes a call. The scheduler, `sleep` and `wakeup` also run inside of one. -/
def caller : ProcTable.Act → Option Slot
  | .dispatch _ | .yield _ | .sleep _ _ | .wakeup _ => none
  | .sbrk i _ | .kill i _ | .fork i _ | .forkCopy i _ _ | .clone i _ _ _ _ | .clonePid i
  | .cloneNext i | .cloneDone i | .exit i | .threadExit i _ | .wait i | .threadJoin i _ _
  | .lockAcquire i | .waitThread i | .lockRelease i | .exec i _ _ _ _ _ => some i

/-- The process that takes a step in `log.c`. -/
def proc : GroupCommit.Act Slot → Slot
  | .beginOp p | .test p _ | .logWrite p | .endOp p | .writeHead p | .commitDone p => p

def logChan : ℕ := 0

/-- `sleep(&log, &log.lock)` of `begin_op` and `wakeup(&log)` of `end_op`; `l` is the log after
the step. An `end_op` that goes on to commit does not wake anyone before it is done. -/
def schedules (l : GroupCommit.State Slot) : GroupCommit.Act Slot → Option ProcTable.Act
  | .beginOp p => if l.pos p = .asleep then some (.sleep p logChan) else none
  | .endOp p => if l.pos p = .idle then some (.wakeup logChan) else none
  | .commitDone _ => some (.wakeup logChan)
  | .test _ _ | .logWrite _ | .writeHead _ => none

/-- A slot that `allocproc` has just taken is in no operation. -/
def allocated (k k' : Kernel) (pos : Slot → Pos) : Slot → Pos := fun p =>
  if (k.proc p).state = .UNUSED ∧ (k'.proc p).state = .EMBRYO then .idle else pos p

/-- Between `begin_op` and `end_op` a process can only be scheduled, sleep and be woken. Those that
`exit` makes are over before it takes `ptable.lock`. -/
def step (s : Sys) : Act → Option Sys
  | .table a =>
    if ∀ i ∈ caller a, s.log.pos i = .idle then
      (ProcTable.step s.k a).map fun r =>
        ⟨r.1, { s.log with pos := allocated s.k r.1 s.log.pos }⟩
    else none
  | .log a =>
    if running s.k (proc a) ∧ s.k.pc (proc a) = .user then
      match GroupCommit.step s.log a with
      | some (.ok l) =>
        match schedules l a with
        | some t => (ProcTable.step s.k t).map fun r => ⟨r.1, l⟩
        | none => some ⟨s.k, l⟩
      | _ => none
    else none

def init (s : Sys) : Prop := s.k = boot ∧ GroupCommit.init s.log

abbrev Reachable (ok : Sys → Act → Prop) : Sys → Prop :=
  Reach init ok fun s a s' => step s a = some s'

/-- Between `begin_op` and `end_op`, or in the commit of an `end_op`. -/
def engaged (x : Pos) : Bool := x.inside || x.inCommit

def Sys.Present (s : Sys) (p : Slot) : Prop :=
  (s.k.proc p).state ≠ .UNUSED ∧ (s.k.proc p).state ≠ .ZOMBIE

instance (s : Sys) (p : Slot) : Decidable (s.Present p) := inferInstanceAs (Decidable (_ ∧ _))

/-- The slots that are still there and between a `begin_op` and its `end_op`. -/
def Sys.inOp (s : Sys) : Finset Slot :=
  Finset.univ.filter fun p => s.Present p ∧ (s.log.pos p).inside = true

/-- Each operation that `log.outstanding` counts can still reach its `end_op`, and a commit that
`log.committing` announces is being carried out by a slot that is still there. -/
def Sys.Unstranded (s : Sys) : Prop :=
  s.log.outstanding = s.inOp.card ∧
  (s.log.committing = true → ∃ p, s.Present p ∧ (s.log.pos p).inCommit = true)

/-- `exit` is only called when none of the slots it ends is inside an operation or a commit. -/
def EndsNoOp (s : Sys) : Act → Prop
  | .table (.exit i) => ∀ j, Ends s.k i j → engaged (s.log.pos j) = false
  | _ => True

variable {l l' : GroupCommit.State Slot}

theorem pos_of_step {a : GroupCommit.Act Slot}
    (h : GroupCommit.step l a = some (.ok l')) {q : Slot} (hq : q ≠ proc a) :
    l'.pos q = l.pos q := by
  have hset : ∀ x, (setPos l (proc a) x).pos q = l.pos q := by
    intro x
    rw [setPos_pos, if_neg hq]
  cases a with
  | beginOp p =>
    have hl : GroupCommit.beginOp l p = l' := by cases hp : l.pos p <;> simp_all [GroupCommit.step]
    rw [← hl, beginOp]
    split_ifs <;> exact hset _
  | test p b =>
    have hl : GroupCommit.test l p b = .ok l' := by
      cases hp : l.pos p <;> simp_all [GroupCommit.step]
    unfold GroupCommit.test at hl
    split_ifs at hl
    rw [← Except.ok.inj hl]
    exact hset _
  | logWrite p =>
    cases hp : l.pos p with
    | tested b =>
      simp only [GroupCommit.step, hp, some.injEq, Except.ok.injEq] at h
      rw [← h]
      exact hset _
    | _ => simp [GroupCommit.step, hp] at h
  | endOp p =>
    have hl : GroupCommit.endOp l p = .ok l' := by
      cases hp : l.pos p <;> simp_all [GroupCommit.step]
    simp only [endOp] at hl
    split_ifs at hl <;> rw [← Except.ok.inj hl] <;> exact hset _
  | writeHead p =>
    have hl : GroupCommit.writeHead l p = l' := by
      cases hp : l.pos p <;> simp_all [GroupCommit.step]
    rw [← hl, writeHead]
    split_ifs <;> exact hset _
  | commitDone p =>
    have hl : GroupCommit.commitDone l p = l' := by
      cases hp : l.pos p <;> simp_all [GroupCommit.step]
    rw [← hl]
    exact hset _

def Manned (l : GroupCommit.State Slot) : Prop :=
  l.committing = true → ∃ p, (l.pos p).inCommit = true

theorem Manned.move {a : GroupCommit.Act Slot} (h : Manned l) (hm : GroupCommit.Move l a l') :
    Manned l' := by
  -- a step of `p` that is not in the commit, or does not leave it
  have keep : ∀ p x, ((l.pos p).inCommit = true → x.inCommit = true) → l.committing = true →
      ∃ q, ((setPos l p x).pos q).inCommit = true := by
    intro p x hx hc
    obtain ⟨q, hq⟩ := h hc
    refine ⟨q, ?_⟩
    rw [setPos_pos]
    split_ifs with hqp
    · exact hx (hqp ▸ hq)
    · exact hq
  cases hm with
  | @asleep p hp | @enter p hp =>
    exact keep p _ (by rcases hp with hp | hp <;> rw [hp] <;> exact id)
  | @test p _ hp | @logWrite p _ hp | @leave p hp => exact keep p _ (by rw [hp]; exact id)
  | @last p hp hc h1 =>
    intro _
    refine ⟨p, ?_⟩
    rw [setPos_pos, if_pos rfl]
    rfl
  | @writeHead p hp =>
    unfold writeHead
    split_ifs <;> exact keep p _ fun _ => rfl
  | commitDone hp =>
    intro hc
    cases hc

structure Carried (s : Sys) (S : Finset Slot) : Prop where
  sane : Sane s.k.view
  gate : Gate s.log S
  live : ∀ p, engaged (s.log.pos p) = true → s.k.view.Live p
  manned : Manned s.log

section
variable {s s' : Sys} {S : Finset Slot}

variable {p : Slot}

theorem present_of_live (h : s.k.view.Live p) : s.Present p := by
  have hphase : (s.k.proc p).state.phase = .live := h
  constructor <;> intro hstate <;> rw [hstate] at hphase <;> cases hphase

theorem not_present_of_zombie (h : (s.k.view.node p).phase = .zombie) :
    ¬s.Present p := fun hp => hp.2 (phase_zombie.mp h)

theorem schedules_cases {l : GroupCommit.State Slot} {a : GroupCommit.Act Slot} {t : ProcTable.Act}
    (h : schedules l a = some t) : (∃ p, t = .sleep p logChan) ∨ t = .wakeup logChan := by
  cases a with
  | beginOp p =>
    simp only [schedules] at h
    split_ifs at h
    exact .inl ⟨p, (some.inj h).symm⟩
  | endOp p =>
    simp only [schedules] at h
    split_ifs at h
    exact .inr (some.inj h).symm
  | commitDone p => exact .inr (some.inj h).symm
  | test | logWrite | writeHead => cases h

/-- The process of a step in `log.c` is running, and what the step schedules ends nobody. -/
theorem Carried.log {a : GroupCommit.Act Slot} (h : Carried s S)
    (hs : step s (.log a) = some s') : ∃ S', Carried s' S' := by
  simp only [step] at hs
  split_ifs at hs with hrun
  have hself : s.k.view.Live (proc a) := running_live hrun.1
  split at hs
  · next l hl =>
    obtain ⟨S', hgate⟩ := h.gate.move (step_move hl)
    have hmanned := h.manned.move (step_move hl)
    have hlive : ∀ p, engaged (l.pos p) = true → s.k.view.Live p := by
      intro p hp
      by_cases hpa : p = proc a
      · rw [hpa]
        exact hself
      · rw [pos_of_step hl hpa] at hp
        exact h.live p hp
    refine ⟨S', ?_⟩
    split at hs
    · next t ht =>
      obtain ⟨⟨k', es⟩, hk, rfl⟩ := map_eq_some_iff.mp hs
      have hview : k'.view = s.k.view := by
        have hm := step_move hk
        rcases schedules_cases ht with ⟨p, rfl⟩ | rfl <;> generalize k'.view = v' at hm <;>
          cases hm <;> rfl
      refine ⟨?_, hgate, ?_, hmanned⟩
      · rw [hview]
        exact h.sane
      · rw [hview]
        exact hlive
    · obtain rfl := some.inj hs
      exact ⟨h.sane, hgate, hlive, hmanned⟩
  · cases hs

variable {a : ProcTable.Act}

theorem table_cases (hs : step s (.table a) = some s') :
    (∀ i ∈ caller a, s.log.pos i = .idle) ∧ ∃ k' es, ProcTable.step s.k a = some (k', es) ∧
      s' = ⟨k', { s.log with pos := allocated s.k k' s.log.pos }⟩ := by
  simp only [step] at hs
  split_ifs at hs with hidle
  obtain ⟨⟨k', es⟩, hk, rfl⟩ := map_eq_some_iff.mp hs
  exact ⟨hidle, k', es, hk, rfl⟩

section

variable (h : Carried s S)
include h

theorem Carried.allocated_pos (k' : Kernel) (p : Slot) :
    (allocated s.k k' s.log.pos p).inside = (s.log.pos p).inside ∧
    (allocated s.k k' s.log.pos p).inCommit = (s.log.pos p).inCommit := by
  unfold allocated
  split_ifs with hnew
  · have hno : engaged (s.log.pos p) = false := by
      by_contra hp
      have hlive := h.live p (by simpa using hp)
      exact absurd (hlive.symm.trans (phase_unused.mpr hnew.1)) (by decide)
    obtain ⟨hin, hcom⟩ := Bool.or_eq_false_iff.mp hno
    exact ⟨hin.symm, hcom.symm⟩
  · exact ⟨rfl, rfl⟩

theorem Carried.table (hs : step s (.table a) = some s')
    (hlive : ∀ p, engaged (s.log.pos p) = true → s'.k.view.Live p) : Carried s' S := by
  obtain ⟨-, k', es, hk, rfl⟩ := table_cases hs
  have hin := fun p => (h.allocated_pos k' p).1
  have hcom := fun p => (h.allocated_pos k' p).2
  refine ⟨h.sane.move (step_move hk), h.gate.congr hin hcom rfl rfl, ?_, ?_⟩
  · intro p hp
    apply hlive
    rw [engaged, ← hin, ← hcom]
    exact hp
  · intro hc
    obtain ⟨p, hp⟩ := h.manned hc
    exact ⟨p, (hcom p).trans hp⟩

/-- `exit` makes zombies of its own slot, which is in no operation, and of those it ends. -/
theorem Carried.exit {i : Slot} (hs : step s (.table (.exit i)) = some s')
    (hp : engaged (s.log.pos p) = true) :
    (Ends s.k i p → (s'.k.view.node p).phase = .zombie) ∧ (¬Ends s.k i p → s'.k.view.Live p) := by
  obtain ⟨hidle, k', es, hk, rfl⟩ := table_cases hs
  obtain ⟨-, -, -, rfl⟩ := exit_step hk
  have hpi : p ≠ i := by
    rintro rfl
    rw [hidle p rfl] at hp
    cases hp
  have hexit := phase_exit h.sane (i := i) (h.live p hp)
  exact ⟨fun hends => hexit.1 (.inr hends), hexit.2 hpi⟩

theorem Carried.step {a : Act} (hok : EndsNoOp s a) (hs : step s a = some s') :
    ∃ S', Carried s' S' := by
  cases a with
  | log a => exact h.log hs
  | table a =>
    refine ⟨S, h.table hs ?_⟩
    intro p hp
    by_cases hexit : ∃ i, a = .exit i
    · obtain ⟨i, rfl⟩ := hexit
      apply (h.exit hs hp).2
      intro hends
      rw [hok p hends] at hp
      cases hp
    · obtain ⟨hidle, k', es, hk, rfl⟩ := table_cases hs
      apply live_of_move h.sane (step_move hk) (fun i hi => hexit ⟨i, hi⟩) _ (h.live p hp)
      -- `thread_exit` ends its caller, which is in no operation
      rintro r rfl
      rw [hidle p rfl] at hp
      cases hp

theorem Carried.unstranded : s.Unstranded := by
  have hS : s.inOp = S := by
    ext p
    rw [Sys.inOp, mem_filter, h.gate.mem]
    refine ⟨fun hp => hp.2.2, fun hp => ⟨mem_univ p, present_of_live (h.live p ?_), hp⟩⟩
    rw [engaged, hp, Bool.true_or]
  refine ⟨by rw [hS, h.gate.count], ?_⟩
  intro hc
  obtain ⟨p, hp⟩ := h.manned hc
  refine ⟨p, present_of_live (h.live p ?_), hp⟩
  rw [engaged, hp, Bool.or_true]

/-- The slots in an operation or a commit are still there after a table step that strands
nothing: the count does not change, and there is only one slot in a commit. -/
theorem Carried.present
    (hs : OpenOps.step s (.table a) = some s') (hun : s'.Unstranded)
    (hp : engaged (s.log.pos p) = true) : s'.Present p := by
  obtain ⟨-, k', es, hk, hs'⟩ := table_cases hs
  have hin' : ∀ q, (s'.log.pos q).inside = (s.log.pos q).inside := by
    intro q
    rw [hs']
    exact (h.allocated_pos k' q).1
  have hcom' : ∀ q, (s'.log.pos q).inCommit = (s.log.pos q).inCommit := by
    intro q
    rw [hs']
    exact (h.allocated_pos k' q).2
  have hout : s'.log.outstanding = s.log.outstanding := by rw [hs']
  have hflag : s'.log.committing = s.log.committing := by rw [hs']
  obtain ⟨hcount, hmanned⟩ := hun
  by_contra hgone
  rcases Bool.or_eq_true_iff.mp hp with hin | hcom
  · have hsub : s'.inOp ⊆ S.erase p := by
      intro q hq
      obtain ⟨-, hq, hqin⟩ := mem_filter.mp hq
      rw [hin', ← h.gate.mem] at hqin
      refine mem_erase.mpr ⟨?_, hqin⟩
      rintro rfl
      exact hgone hq
    have hcard := card_le_card hsub
    have herase := card_erase_add_one ((h.gate.mem p).mpr hin)
    have hgate := h.gate.count
    omega
  · obtain ⟨q, hq, hqcom⟩ := hmanned (hflag.trans (h.gate.flag p hcom))
    rw [hcom'] at hqcom
    rw [h.gate.one p q hcom hqcom] at hgone
    exact hgone hq

end

end

theorem reachable_carried {s : Sys} (h : Reachable EndsNoOp s) : ∃ S, Carried s S := by
  apply Reach.invariant (P := fun s : Sys => ∃ S, Carried s S) _ _ h
  · rintro ⟨k, log⟩ ⟨hk, size, hlog⟩
    obtain rfl : k = boot := hk
    obtain rfl : log = _ := hlog
    refine ⟨∅, sane_boot, ?_, ?_, ?_⟩
    · constructor <;> simp [Pos.inside, Pos.inCommit]
    · intro p hp
      cases hp
    · intro hc
      cases hc
  · rintro s a s' ⟨S, hS⟩ hok hs
    exact hS.step hok hs

/-- While no `exit` ends a slot that is inside an operation or a commit, `log.outstanding` is the
number of slots neither UNUSED nor ZOMBIE that are between a `begin_op` and its `end_op`, and a
commit is being carried out whenever `log.committing` is set; and this survives an `exit` only
under that condition. -/
theorem unstranded_iff {s : Sys} (h : Reachable EndsNoOp s) :
    s.Unstranded ∧ ∀ i s', step s (.table (.exit i)) = some s' →
      (s'.Unstranded ↔ ∀ j, Ends s.k i j → engaged (s.log.pos j) = false) := by
  obtain ⟨S, hS⟩ := reachable_carried h
  refine ⟨hS.unstranded, ?_⟩
  intro i s' hs
  constructor
  · intro hun j hends
    by_contra hj
    have hj : engaged (s.log.pos j) = true := by simpa using hj
    exact not_present_of_zombie ((hS.exit hs hj).1 hends) (hS.present hs hun hj)
  · intro hok
    obtain ⟨S', hS'⟩ := hS.step (a := .table (.exit i)) hok hs
    exact hS'.unstranded

def bootLog : GroupCommit.State Slot :=
  { size := nlog, outstanding := 0, committing := false, lh := [], pos := fun _ => .idle,
    op := fun _ => 0, ops := 0, writes := [], commits := [] }

/-- A run from boot; `okb` tests what `ok` asks of each step. -/
theorem exists_run {ok : Sys → Act → Prop} (okb : Act → Bool) (hok : ∀ s a, okb a = true → ok s a)
    (p : Sys → Bool) (as : List Act)
    (h : (execs (fun _ a => okb a) step ⟨boot, bootLog⟩ as).any p = true) :
    ∃ s, Reachable ok s ∧ p s = true := by
  have hboot : Reachable ok ⟨boot, bootLog⟩ := .start ⟨rfl, nlog, rfl⟩
  exact Reach.exists_of_execs _ step p hok (fun _ _ _ hs => hs) as hboot h

def Act.exits : Act → Bool
  | .table (.exit _) => true
  | _ => false

theorem endsNoOp_of_not_exits (s : Sys) (a : Act) (h : (!a.exits) = true) : EndsNoOp s a := by
  unfold EndsNoOp
  split
  · cases h
  · trivial

/-- Slot 1 has made the thread in slot 2; slot `p` is inside an operation, asleep for the disk,
and the thread runs. -/
def asleepInOp (p : Slot) : List Act :=
  oneThread.map .table ++
    [.table (.dispatch p), .log (.beginOp p), .table (.sleep p 7), .table (.dispatch 2)]

/-- The thread exits while init is inside an operation, which init will end. -/
theorem unstranded_iff_other_process :
    ∃ s s', Reachable EndsNoOp s ∧ step s (.table (.exit 2)) = some s' ∧ s'.log.outstanding = 1 ∧
      s'.Unstranded := by
  have hrun := exists_run (fun a => !a.exits) endsNoOp_of_not_exits
    (fun s => decide (∀ j, Ends s.k 2 j → engaged (s.log.pos j) = false) &&
      (step s (.table (.exit 2))).any fun s' => s'.log.outstanding == 1)
    (asleepInOp 0) (by decide +kernel)
  obtain ⟨s, hs, hcheck⟩ := hrun
  obtain ⟨hok, hstep⟩ := Bool.and_eq_true_iff.mp hcheck
  obtain ⟨s', hs', hone⟩ := (any_eq_true _ _).mp hstep
  refine ⟨s, s', hs, hs', eq_of_beq hone, ?_⟩
  exact ((unstranded_iff hs).2 2 s' hs').mpr (of_decide_eq_true hok)

/-- The thread exits while its process is inside an operation: the count stays at one, with
nobody left to end the operation. -/
theorem exit_strands_operation :
    ∃ s, Reachable (fun _ _ => True) s ∧ s.log.outstanding = 1 ∧ s.inOp = ∅ := by
  have hrun := @exists_run (fun _ _ => True) (fun _ => true) (fun _ _ _ => trivial)
    (fun s => decide (s.log.outstanding = 1 ∧ s.inOp = ∅))
    (asleepInOp 1 ++ [.table (.exit 2)]) (by decide +kernel)
  obtain ⟨s, hs, hcheck⟩ := hrun
  exact ⟨s, hs, of_decide_eq_true hcheck⟩

end Xv6Threads.OpenOps
