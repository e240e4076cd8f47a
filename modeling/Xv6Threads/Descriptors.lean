import Xv6Threads.Files
import Xv6Threads.ProcTree

namespace Xv6Threads.ProcTable

open Prod

variable {k k' : Kernel} {a : Act} {es : List Event} {i p q np : Slot}

def NoFiles (p : Proc) : Prop := ∀ fd, p.ofile fd = none

instance (p : Proc) : Decidable (NoFiles p) := inferInstanceAs (Decidable (∀ _, _))

theorem NoFiles.congr {x y : Proc} (h : NoFiles x) (hxy : y.ofile = x.ofile) : NoFiles y := by
  intro fd
  rw [hxy, h fd]

theorem dupFiles_eq_iff (p n : Proc) :
    dupFiles p n = p.ofile ↔ ∀ fd, p.ofile fd = none → n.ofile fd = none := by
  constructor
  · intro h fd hfd
    have hdup := congrFun h fd
    rw [dupFiles, hfd] at hdup
    exact hdup
  · intro h
    funext fd
    unfold dupFiles
    cases hfd : p.ofile fd with
    | none => exact h fd hfd
    | some f => rfl

theorem NoFiles.dup {n : Proc} (h : NoFiles n) (p : Proc) : dupFiles p n = p.ofile :=
  (dupFiles_eq_iff p n).mpr fun fd _ => h fd

/-- The zombie a scan of `wait` or `wait_thread` frees. -/
def reaped (k : Kernel) : Act → Option Slot
  | .wait i => slots.find? fun p => (k.proc p).parent = some i ∧ (k.proc p).state = .ZOMBIE
  | .waitThread i =>
    match k.pc i with
    | .join tid _ => slots.find? fun p =>
        ((k.proc p).parent = some i ∧ (k.proc p).tid = tid ∧ (k.proc p).isThread = true) ∧
          (k.proc p).state = .ZOMBIE
    | _ => none
  | _ => none

theorem reaped_of_wait (h : step k (.wait i) = some (k', es)) (hq : (k.proc q).state = .ZOMBIE)
    (hq' : (k'.proc q).state = .UNUSED) : reaped k (.wait i) = some q := by
  have hne : (k.proc q).state ≠ .UNUSED := by
    rw [hq]
    simp
  simp only [step] at h
  split_ifs at h with hi
  rw [Option.some.injEq, wait] at h
  simp only [reaped]
  split at h
  · rename_i z hz
    rw [hz]
    obtain ⟨rfl, -⟩ := mk.inj h
    simp only [setPc_proc, setProc_proc] at hq'
    split_ifs at hq' with hqz
    · rw [hqz]
    · exact absurd hq' hne
  · exfalso
    split_ifs at h <;> obtain ⟨rfl, -⟩ := mk.inj h
    · exact hne hq'
    · simp only [setPc_proc, sleepSelf, setProc_proc] at hq'
      split_ifs at hq' with hqi
      exact hne hq'

theorem reaped_of_join (h : step k (.waitThread i) = some (k', es))
    (hq : (k.proc q).state = .ZOMBIE)
    (hq' : (k'.proc q).state = .UNUSED) : reaped k (.waitThread i) = some q := by
  have hne : (k.proc q).state ≠ .UNUSED := by
    rw [hq]
    simp
  simp only [step] at h
  split_ifs at h with hi
  split at h
  · rename_i tid r hpc
    rw [Option.some.injEq, waitThread] at h
    dsimp only at h
    simp only [reaped, hpc]
    simp only [← Bool.decide_and] at h
    split at h
    · rename_i z hz
      rw [hz]
      have hk := congrArg (fun x => (fst x).proc q) h
      dsimp only at hk
      rw [joinReturn_proc, setProc_proc] at hk
      split_ifs at hk with hqz
      · rw [hqz]
      · rw [← hk, setProc_proc] at hq'
        split_ifs at hq' with hqi
        · exact absurd (hqi ▸ hq') hne
        · exact absurd hq' hne
    · exfalso
      split_ifs at h
      · have hk := congrArg (fun x => (fst x).proc q) h
        dsimp only at hk
        rw [joinReturn_proc] at hk
        exact hne (hk ▸ hq')
      · obtain ⟨rfl, -⟩ := mk.inj h
        simp only [sleepSelf, setProc_proc] at hq'
        split_ifs at hq' with hqi
        exact hne hq'
  · cases h

/-- Descriptors change in the caller of `exit` and in a slot that `fork` or `clone` fills. -/
theorem ofile_of_step (h : step k a = some (k', es)) (q : Slot) :
    (k'.proc q).ofile = (k.proc q).ofile ∨ (a = .exit q ∧ (k'.proc q).state = .ZOMBIE) ∨
    ∃ i s, a.slot = some i ∧ running k i = true ∧ k.view.hold i = some (s, q) ∧
      (k'.proc q).ofile = dupFiles (k.proc i) (k.proc q) ∧
      (s = .fork ∧ k'.view.hold i = none ∨ s = .alloc ∧ k'.view.hold i = some (.named, q)) := by
  have hkeep : ∀ b : Body, (k'.proc q).body = b → b.ofile = (k.proc q).ofile →
      (k'.proc q).ofile = (k.proc q).ofile := fun b hb ho => (congrArg Body.ofile hb).trans ho
  cases step_change h q with
  | stir hst => exact .inl (hkeep _ hst.body rfl)
  | kill _ hx | alloc _ _ hx | forkFail _ _ hx | threadExit hx | reap _ _ hx | join _ _ hx =>
    exact .inl (hkeep _ hx rfl)
  | exit _ hs => exact .inr (.inl ⟨rfl, hs⟩)
  | @forkDone i pg _ hpc hi hx hs =>
    refine .inr (.inr ⟨i, .fork, rfl, hi, ?_, congrArg Body.ofile hx, .inl ⟨rfl, ?_⟩⟩)
    · rw [view_hold, hpc]
      rfl
    · simp only [step, hi, hpc, if_true] at h
      unfold forkCopy at h
      cases pg with
      | none =>
        rw [some_pair] at h
        rw [← h.1]
        simp [view_hold, Pc.hold]
      | some g =>
        simp only [if_true] at h
        split_ifs at h
        rw [some_pair] at h
        rw [← h.1]
        simp [view_hold, Pc.hold]
  | @clonePid i f arg s _ hpc hi hx hs =>
    refine .inr (.inr ⟨i, .alloc, rfl, hi, ?_, congrArg Body.ofile hx, .inr ⟨rfl, ?_⟩⟩)
    · rw [view_hold, hpc]
      rfl
    · simp only [step, hi, hpc, if_true, some_pair] at h
      rw [← h.1]
      simp [view_hold, Pc.hold]

/-- A free slot has no descriptors; one that is being made has none until it gets those of its
creator. -/
structure Clean (k : Kernel) : Prop where
  sane : Sane k.view
  unused : ∀ q, (k.proc q).state = .UNUSED → NoFiles (k.proc q)
  bare : ∀ i s np, k.view.Live i → k.view.hold i = some (s, np) → s.tied = false →
    NoFiles (k.proc np)
  tied : ∀ i s np, k.view.Live i → k.view.hold i = some (s, np) → s.tied = true →
    (k.proc np).ofile = (k.proc i).ofile

section

variable (h : Clean k) (hstep : step k a = some (k', es))
include h hstep

theorem Clean.unused_of_step
    (hok : ∀ z ∈ reaped k a, NoFiles (k.proc z)) (hq : (k'.proc q).state = .UNUSED) :
    NoFiles (k'.proc q) := by
  have hkeep : ∀ b : Body, (k'.proc q).body = b → b.ofile = (k.proc q).ofile → NoFiles (k.proc q) →
      NoFiles (k'.proc q) := fun b hb ho hn => hn.congr ((congrArg Body.ofile hb).trans ho)
  cases step_change hstep q with
  | stir hst => exact hkeep _ hst.body rfl (h.unused q (hst.unborn (.inl hq) ▸ hq))
  | kill _ hx hs => exact hkeep _ hx rfl (h.unused q (hs (.inl hq) ▸ hq))
  | alloc _ hu hx hs => exact hkeep _ hx rfl (h.unused q hu)
  | @forkFail i _ _ _ hpc hi hx hs =>
    exact hkeep _ hx rfl (h.bare i .fork q (running_live hi) (by rw [view_hold, hpc]; rfl) rfl)
  | reap hp hz hx hs => exact hkeep _ hx rfl (hok q (reaped_of_wait hstep hz hq))
  | join hp hz hx hs => exact hkeep _ hx rfl (hok q (reaped_of_join hstep hz hq))
  | forkDone _ _ _ hs | exit _ hs | threadExit _ hs =>
    rw [hq] at hs
    cases hs
  | @clonePid i _ _ _ _ hpc hi hx hs =>
    have hheld := h.sane.held i .alloc q (running_live hi) (by rw [view_hold, hpc]; rfl)
    have hu : (k.view.node q).phase = .unused := phase_unused.mpr (hs.symm.trans hq)
    exact absurd rfl (hheld.ne_unused hu)

/-- A slot that is being made keeps its descriptors until it gets those of its creator. -/
theorem Clean.ofile_held {s : Stage} (hi : k.view.Live i) (hold : k.view.hold i = some (s, np))
    (hs : s.tied = true ∨ k'.view.hold i = some (s, np)) :
    (k'.proc np).ofile = (k.proc np).ofile := by
  rcases ofile_of_step hstep np with heq | ⟨rfl, -⟩ | ⟨j, t, -, hrun, hjold, -, hnext⟩
  · exact heq
  · obtain ⟨hrun, -⟩ := exit_step hstep
    exact absurd rfl ((h.sane.held i s np hi hold).ne_live (running_live hrun))
  · -- whoever fills it is its creator, and does not hold it as before
    obtain rfl := h.sane.unique i j s t np hi (running_live hrun) hold hjold
    rw [hold] at hjold
    obtain ⟨rfl, -⟩ := some_pair.mp hjold
    rcases hs with htied | hold'
    · rcases hnext with ⟨rfl, -⟩ | ⟨rfl, -⟩ <;> cases htied
    · rw [hold'] at hnext
      rcases hnext with ⟨-, hnone⟩ | ⟨rfl, hnamed⟩
      · cases hnone
      · cases hnamed

theorem Clean.ofile_live (hq : k.view.Live q)
    (hq' : k'.view.Live q) : (k'.proc q).ofile = (k.proc q).ofile := by
  rcases ofile_of_step hstep q with heq | ⟨-, hs⟩ | ⟨j, t, -, hrun, hjold, -⟩
  · exact heq
  · rw [View.Live, view_node, node_phase, hs] at hq'
    cases hq'
  · exact absurd rfl ((h.sane.held j t q (running_live hrun) hjold).ne_live hq)

end

theorem clonePid_ofile (hstep : step k (.clonePid i) = some (k', es))
    (hold : k.view.hold i = some (.alloc, np)) :
    (k'.proc np).ofile = dupFiles (k.proc i) (k.proc np) := by
  cases stepped_of_step hstep with
  | @clonePid _ mp f arg s _ hpc =>
    rw [view_hold, hpc] at hold
    obtain rfl : mp = np := by simpa [Pc.hold] using hold
    rw [setPc_proc, clonePid, setProc_proc, if_pos rfl]

theorem Clean.next (h : Clean k) (hstep : step k a = some (k', es))
    (hok : ∀ z ∈ reaped k a, NoFiles (k.proc z)) : Clean k' := by
  have hm := step_move hstep
  have hsane := h.sane.move hm
  refine ⟨hsane, fun q => h.unused_of_step hstep hok, ?_, ?_⟩
  · intro i s np hi hs hbare
    obtain ⟨hlive, hold | ⟨-, hu, -⟩ | ⟨rfl, -⟩ | ⟨rfl, -⟩⟩ := h.sane.hold_cases hm hi hs
    · exact (h.bare i s np hlive hold hbare).congr (h.ofile_held hstep hlive hold (.inr hs))
    · have hnone := h.unused np (phase_unused.mp hu)
      rcases ofile_of_step hstep np with heq | ⟨rfl, -⟩ | ⟨j, t, -, hrun, hjold, -⟩
      · exact hnone.congr heq
      · obtain ⟨hrun, -⟩ := exit_step hstep
        exact absurd rfl (View.Live.ne_unused (running_live hrun) hu)
      · exact absurd rfl ((h.sane.held j t np (running_live hrun) hjold).ne_unused hu)
    · cases hbare
    · cases hbare
  · intro i s np hi hs htied
    obtain ⟨hlive, hold | ⟨hbare, -⟩ | ⟨-, hold, rfl⟩ | ⟨rfl, hold, rfl⟩⟩ :=
      h.sane.hold_cases hm hi hs
    · rw [h.ofile_held hstep hlive hold (.inr hs), h.ofile_live hstep hlive hi]
      exact h.tied i s np hlive hold htied
    · rw [hbare] at htied
      cases htied
    · rw [h.ofile_live hstep hlive hi, clonePid_ofile hstep hold]
      exact (h.bare i .alloc np hlive hold rfl).dup _
    · have hproc : k'.proc = k.proc := by
        cases stepped_of_step hstep
        rfl
      rw [hproc]
      exact h.tied i .named np hlive hold rfl

theorem clean_boot : Clean boot where
  sane := sane_boot
  unused q _ := by
    intro fd
    by_cases hq : q = 0 <;> simp [boot, hq, unused]
  bare _ _ _ _ hs := by cases hs
  tied _ _ _ _ hs := by cases hs

/-- A process changes its own descriptors while it is in no other call. -/
theorem Clean.rewrites (h : Clean k) (hi : running k i = true) (hpc : k.pc i = .user)
    (hk : Files.Rewrites k k' i) : Clean k' := by
  have hview := hk.view
  have hlive := running_live hi
  have hidle := idle_of_user hpc
  refine ⟨hview ▸ h.sane, ?_, ?_, ?_⟩
  · intro q hq
    have hu : (k.view.node q).phase = .unused := by
      rw [← hview]
      exact phase_unused.mpr hq
    rw [hk.of_ne (View.Live.ne_unused hlive hu).symm]
    exact h.unused q (phase_unused.mp hu)
  · intro j s np hj hs hbare
    rw [hview] at hj hs
    rw [hk.of_ne ((h.sane.held j s np hj hs).ne_live hlive)]
    exact h.bare j s np hj hs hbare
  · intro j s np hj hs htied
    rw [hview] at hj hs
    have hji : j ≠ i := by
      rintro rfl
      rw [hidle] at hs
      cases hs
    rw [hk.of_ne ((h.sane.held j s np hj hs).ne_live hlive), hk.of_ne hji]
    exact h.tied j s np hj hs htied

end Xv6Threads.ProcTable

namespace Xv6Threads.Files

open ProcTable

variable {s s' : Sys} {i np : Slot}

/-- A zombie that `wait` or `thread_join` frees has no open descriptors. -/
def Tidy (s : Sys) : Act → Prop
  | .table a _ => ∀ z ∈ reaped s.k a, NoFiles (s.k.proc z)
  | _ => True

instance (s : Sys) (a : Act) : Decidable (Tidy s a) := by
  cases a <;> dsimp only [Tidy] <;> infer_instance

theorem step_clean {a : Act} (h : Clean s.k) (hok : Tidy s a) (hstep : step s a = some s') :
    Clean s'.k := by
  cases hcaller : a.caller with
  | some i =>
    obtain ⟨hi, hpc, hk⟩ := step_rewrites hstep hcaller
    exact h.rewrites hi hpc hk
  | none =>
    cases a with
    | table a page =>
      obtain ⟨es, hk⟩ := step_table hstep
      exact h.next hk hok
    | pages free =>
      obtain rfl := Option.some.inj hstep
      exact h
    | _ => cases hcaller

theorem reachable_clean (h : Reachable Tidy s) : Clean s.k := by
  apply Reach.invariant (P := fun s => Clean s.k) _ _ h
  · intro s hs
    rw [hs.1]
    exact clean_boot
  · exact fun s a s' hs hok hstep => step_clean hs hok hstep

theorem reachable_sane {ok : Sys → Act → Prop} (h : Reachable ok s) : Sane s.k.view := by
  apply Reach.invariant (P := fun s => Sane s.k.view) _ _ h
  · intro s hs
    rw [hs.1]
    exact sane_boot
  · intro s a s' hs _ hstep
    cases hcaller : a.caller with
    | some i =>
      obtain ⟨-, -, hk⟩ := step_rewrites hstep hcaller
      rw [hk.view]
      exact hs
    | none =>
      cases a with
      | table a page =>
        obtain ⟨es, hk⟩ := step_table hstep
        exact hs.move (step_move hk)
      | pages free =>
        obtain rfl := Option.some.inj hstep
        exact hs
      | _ => cases hcaller

theorem forkDone_ofile {g page : ℕ} (hsane : Sane s.k.view) (hpc : s.k.pc i = .fork np)
    (h : step s (.table (.forkCopy i (some g) true) page) = some s') :
    (s'.k.proc np).ofile = dupFiles (s.k.proc i) (s.k.proc np) ∧
      (s'.k.proc i).ofile = (s.k.proc i).ofile ∧ s.k.view.Live i := by
  obtain ⟨es, hk⟩ := step_table h
  simp only [ProcTable.step, hpc, forkCopy] at hk
  split_ifs at hk with hi
  have hlive := running_live hi
  have hne := (hsane.held i .fork np hlive (by rw [view_hold, hpc]; rfl)).ne_live hlive
  rw [some_pair] at hk
  rw [← hk.1]
  exact ⟨by simp, by simp [hne.symm], hlive⟩

theorem clonePid_dup {f arg st : Word} {page : ℕ} (hsane : Sane s.k.view)
    (hpc : s.k.pc i = .cloneAlloc np f arg st) (h : step s (.table (.clonePid i) page) = some s') :
    (s'.k.proc np).ofile = dupFiles (s.k.proc i) (s.k.proc np) ∧
      (s'.k.proc i).ofile = (s.k.proc i).ofile := by
  obtain ⟨es, hk⟩ := step_table h
  simp only [ProcTable.step, hpc] at hk
  split_ifs at hk with hi
  have hlive := running_live hi
  have hne := (hsane.held i .alloc np hlive (by rw [view_hold, hpc]; rfl)).ne_live hlive
  rw [some_pair] at hk
  rw [← hk.1]
  simp [clonePid, hne.symm]

theorem cloneDone_ofile {f arg st : Word} {page : ℕ} (hclean : Clean s.k)
    (hpc : s.k.pc i = .cloneNext np f arg st) (h : step s (.table (.cloneDone i) page) = some s') :
    (s'.k.proc np).ofile = (s'.k.proc i).ofile := by
  obtain ⟨es, hk⟩ := step_table h
  simp only [ProcTable.step, hpc] at hk
  split_ifs at hk with hi
  have hbody := cloneDone_stirs s.k i np f arg st
  rw [Option.some.inj hk] at hbody
  have hsame := hclean.tied i .counted np (running_live hi) (by rw [view_hold, hpc]; rfl) rfl
  exact ((congrArg Body.ofile (hbody np).body).trans hsame).trans
    (congrArg Body.ofile (hbody i).body).symm

/-- In every run in which `wait` and `thread_join` only free slots without open descriptors, a
new process or thread has exactly the descriptors of its creator. In any run, what `fork` and
`clone` make of a slot is that exactly when the slot has no descriptor its creator lacks. -/
theorem descriptors_inherited (s s' : Sys) (i np : Slot) (page : ℕ) :
    (Reachable Tidy s →
      (∀ g, s.k.pc i = .fork np → step s (.table (.forkCopy i (some g) true) page) = some s' →
        (s'.k.proc np).ofile = (s'.k.proc i).ofile) ∧
      ∀ f arg st, s.k.pc i = .cloneNext np f arg st →
        step s (.table (.cloneDone i) page) = some s' →
        (s'.k.proc np).ofile = (s'.k.proc i).ofile) ∧
    (Reachable (fun _ _ => True) s →
      (∀ g, s.k.pc i = .fork np → step s (.table (.forkCopy i (some g) true) page) = some s' →
        ((s'.k.proc np).ofile = (s'.k.proc i).ofile ↔
          ∀ fd, (s.k.proc i).ofile fd = none → (s.k.proc np).ofile fd = none)) ∧
      ∀ f arg st, s.k.pc i = .cloneAlloc np f arg st →
        step s (.table (.clonePid i) page) = some s' →
        ((s'.k.proc np).ofile = (s'.k.proc i).ofile ↔
          ∀ fd, (s.k.proc i).ofile fd = none → (s.k.proc np).ofile fd = none)) := by
  refine ⟨fun hs => ⟨fun g hpc hstep => ?_, fun f arg st hpc hstep => ?_⟩,
    fun hs => ⟨fun g hpc hstep => ?_, fun f arg st hpc hstep => ?_⟩⟩
  · have hclean := reachable_clean hs
    obtain ⟨hnp, hi, hlive⟩ := forkDone_ofile hclean.sane hpc hstep
    rw [hnp, hi]
    exact (hclean.bare i .fork np hlive (by rw [view_hold, hpc]; rfl) rfl).dup _
  · exact cloneDone_ofile (reachable_clean hs) hpc hstep
  · obtain ⟨hnp, hi, -⟩ := forkDone_ofile (reachable_sane hs) hpc hstep
    rw [hnp, hi]
    exact dupFiles_eq_iff _ _
  · obtain ⟨hnp, hi⟩ := clonePid_dup (reachable_sane hs) hpc hstep
    rw [hnp, hi]
    exact dupFiles_eq_iff _ _

/-- The machine after `userinit`, with a few free pages. -/
def boot : Sys where
  k := ProcTable.boot
  ref := fun _ => 0
  ip := fun _ => none
  iref := fun d => if d = 0 then 1 else 0
  free := {10, 11, 12}
  kstack := fun _ => 1

theorem exists_reachable (ok : Sys → Act → Prop) [∀ s a, Decidable (ok s a)] (p : Sys → Bool)
    (as : List Act) (h : (execs (fun s a => ok s a) step boot as).any p = true) :
    ∃ s, Reachable ok s ∧ p s = true := by
  have hboot : Reachable ok boot := .start ⟨rfl, rfl, rfl, rfl⟩
  exact Reach.exists_of_execs _ step p (fun s a ha => of_decide_eq_true ha) (fun _ _ _ hs => hs) as
    hboot h

def tables (page : ℕ) (as : List ProcTable.Act) : List Act := as.map (.table · page)

def threadRuns : List Act :=
  tables 10 (.dispatch 0 :: forks 0 2) ++ tables 11 (.dispatch 1 :: creates 1 ++ [.dispatch 2])

def threadJoined : List Act :=
  tables 0 [.threadExit 2 0, .dispatch 1, .threadJoin 1 1 0, .lockAcquire 1, .waitThread 1,
    .lockRelease 1]

/-- The thread opens a file and leaves it open; the next process in its slot has it open, its
parent does not. -/
theorem fork_inherits_from_thread :
    ∃ s s', Reachable (fun _ _ => True) s ∧ s.k.pc 1 = .fork 2 ∧
      step s (.table (.forkCopy 1 (some 3) true) 0) = some s' ∧
      (s'.k.proc 1).ofile 0 = none ∧ (s'.k.proc 2).ofile 0 = some 0 := by
  obtain ⟨s, hs, hp⟩ := exists_reachable (fun _ _ => True)
    (fun s => decide (s.k.pc 1 = .fork 2) && (step s (.table (.forkCopy 1 (some 3) true) 0)).any
      fun s' => (s'.k.proc 1).ofile 0 = none ∧ (s'.k.proc 2).ofile 0 = some 0)
    (threadRuns ++ .sysOpen 2 (some 5) :: threadJoined ++ [.table (.fork 1 true) 11])
    (by decide +kernel)
  rw [Bool.and_eq_true, decide_eq_true_eq, Option.any_eq_true] at hp
  obtain ⟨hpc, s', hstep, hq⟩ := hp
  exact ⟨s, s', hs, hpc, hstep, of_decide_eq_true hq⟩

/-- The same with a thread that closes the file. -/
theorem descriptors_inherited_closed :
    ∃ s s', Reachable Tidy s ∧ s.k.pc 1 = .fork 2 ∧ (s.k.proc 1).ofile 0 = some 0 ∧
      step s (.table (.forkCopy 1 (some 3) true) 0) = some s' ∧
      (s'.k.proc 2).ofile = (s'.k.proc 1).ofile := by
  obtain ⟨s, hs, hp⟩ := exists_reachable Tidy
    (fun s => decide (s.k.pc 1 = .fork 2 ∧ (s.k.proc 1).ofile 0 = some 0) &&
      (step s (.table (.forkCopy 1 (some 3) true) 0)).isSome)
    (threadRuns ++ [.sysOpen 2 (some 5), .sysClose 2 0] ++ threadJoined ++
      [.sysOpen 1 (some 6), .table (.fork 1 true) 11]) (by decide +kernel)
  rw [Bool.and_eq_true, decide_eq_true_eq, Option.isSome_iff_exists] at hp
  obtain ⟨⟨hpc, hopen⟩, s', hstep⟩ := hp
  exact ⟨s, s', hs, hpc, hopen, hstep, ((descriptors_inherited s s' 1 2 0).1 hs).1 3 hpc hstep⟩

end Xv6Threads.Files
