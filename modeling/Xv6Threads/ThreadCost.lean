import Xv6Threads.Descriptors
import Xv6Threads.Lineage
import Xv6Threads.Survival

namespace Xv6Threads.Files

open ProcTable Function Option View

def schedules : ProcTable.Act → Bool
  | .dispatch _ | .yield _ | .sleep _ _ | .wakeup _ => true
  | _ => false

/-- How far the thread is: `clone` has come to `allocproc`, to the pid, to `nextpid--`; it has
started, has ended, has been joined. -/
inductive Life
  | alloc | named | counted | started | ended | joined
  deriving DecidableEq

def Life.stage : Life → Option Stage
  | .alloc => some .alloc
  | .named => some .named
  | .counted => some .counted
  | .started | .ended | .joined => none

/-- From `s` on, slot `i` creates the thread in slot `np`, the thread calls `thread_exit` and
`i` joins it. Besides these calls there is only the scheduler. -/
inductive Lives (i np : Slot) (s : Sys) : Life → Sys → Prop
  | clone {f arg st : Word} {page : ℕ} {t : Sys}
      (hstep : step s (.table (.clone i f arg st true) page) = some t)
      (hold : t.k.view.hold i = some (.alloc, np)) : Lives i np s .alloc t
  | schedule {l : Life} {t t' : Sys} {a : ProcTable.Act} {page : ℕ} (h : Lives i np s l t)
      (ha : schedules a = true) (hstep : step t (.table a page) = some t') : Lives i np s l t'
  | clonePid {t t' : Sys} {page : ℕ} (h : Lives i np s .alloc t)
      (hstep : step t (.table (.clonePid i) page) = some t') : Lives i np s .named t'
  | cloneNext {t t' : Sys} {page : ℕ} (h : Lives i np s .named t)
      (hstep : step t (.table (.cloneNext i) page) = some t') : Lives i np s .counted t'
  | cloneDone {t t' : Sys} {page : ℕ} (h : Lives i np s .counted t)
      (hstep : step t (.table (.cloneDone i) page) = some t') : Lives i np s .started t'
  | threadExit {t t' : Sys} {r : Word} {page : ℕ} (h : Lives i np s .started t)
      (hstep : step t (.table (.threadExit np r) page) = some t') : Lives i np s .ended t'
  | threadJoin {l : Life} {t t' : Sys} {tid : ℤ} {r : Word} {page : ℕ} (h : Lives i np s l t)
      (hl : l.stage = none) (hstep : step t (.table (.threadJoin i tid r) page) = some t') :
      Lives i np s l t'
  | lockAcquire {l : Life} {t t' : Sys} {page : ℕ} (h : Lives i np s l t) (hl : l.stage = none)
      (hstep : step t (.table (.lockAcquire i) page) = some t') : Lives i np s l t'
  | lockRelease {l : Life} {t t' : Sys} {page : ℕ} (h : Lives i np s l t) (hl : l.stage = none)
      (hstep : step t (.table (.lockRelease i) page) = some t') : Lives i np s l t'
  /-- a scan of `wait_thread` that frees nothing -/
  | scan {l : Life} {t t' : Sys} {page : ℕ} (h : Lives i np s l t) (hl : l.stage = none)
      (hstep : step t (.table (.waitThread i) page) = some t')
      (hnone : ∀ q, (t'.k.proc q).state = .UNUSED → (t.k.proc q).state = .UNUSED) :
      Lives i np s l t'
  | join {t t' : Sys} {page : ℕ} (h : Lives i np s .ended t)
      (hstep : step t (.table (.waitThread i) page) = some t')
      (hfreed : (t'.k.proc np).state = .UNUSED) : Lives i np s .joined t'

/-- References, free pages, the count of threads and the pid counter are what they were. -/
def Neutral (i : Slot) (s s' : Sys) : Prop :=
  s'.ref = s.ref ∧ s'.iref = s.iref ∧ s'.free = s.free ∧
    (s'.k.proc i).numOfThread = (s.k.proc i).numOfThread ∧ s'.k.nextpid = s.k.nextpid

variable {s s' t t' : Sys} {i np q : Slot} {f page : ℕ} {a : ProcTable.Act}

theorem filedup_ref (h : filedup s f = some s') :
    s' = { s with ref := update s.ref f (s.ref f + 1) } := by
  unfold filedup at h
  split_ifs at h
  exact (some.inj h).symm

theorem filedups_ref (l : List ℕ) (h : l.foldlM filedup s = some s') :
    (∀ g, s'.ref g = s.ref g + l.count g) ∧ s'.iref = s.iref ∧ s'.free = s.free ∧
      s'.kstack = s.kstack ∧ s'.k = s.k := by
  induction l generalizing s with
  | nil =>
    obtain rfl := some.inj h
    simp
  | cons f l ih =>
    rw [List.foldlM_cons] at h
    obtain ⟨t, ht, hrest⟩ := bind_eq_some_iff.mp h
    obtain ⟨hrefs, hiref, hfree, hstack, hk⟩ := ih hrest
    rw [filedup_ref ht] at hrefs hiref hfree hstack hk
    refine ⟨fun g => ?_, hiref, hfree, hstack, hk⟩
    rw [hrefs g]
    by_cases hg : g = f
    · subst hg
      simp only [update_self, List.count_cons_self]
      omega
    · rw [List.count_cons_of_ne (Ne.symm hg)]
      simp only [update_of_ne hg]

theorem dupAll_ref {p : Proc} (h : dupAll s p = some s') :
    ∃ d, p.cwd = some d ∧ s'.iref = update s.iref d (s.iref d + 1) ∧
      (∀ g, s'.ref g = s.ref g + (filesOf p).count g) ∧ s'.free = s.free ∧
      s'.kstack = s.kstack ∧ s'.k = s.k := by
  obtain ⟨t, ht, hrest⟩ := bind_eq_some_iff.mp h
  obtain ⟨d, hd, rfl⟩ := map_eq_some_iff.mp hrest
  obtain ⟨hrefs, hiref, hfree, hstack, hk⟩ := filedups_ref _ ht
  refine ⟨d, hd, ?_, hrefs, hfree, hstack, hk⟩
  rw [idup, hiref]

section
variable {k' : Kernel} {page : ℕ} (h : setTable s k' page = some s')
include h

theorem setTable_same
    (hsame : ∀ q, (k'.proc q).kstack = (s.k.proc q).kstack) : s' = { s with k := k' } := by
  have htaken : stackTaken s.k k' = none := find_slot_none fun q => by simp [hsame q]
  have hgiven : stackGiven s.k k' = none := find_slot_none fun q => by simp [hsame q]
  rw [setTable, htaken, hgiven] at h
  exact (some.inj h).symm

theorem setTable_taken (hq : (s.k.proc q).kstack = false) (hq' : (k'.proc q).kstack = true)
    (hsame : ∀ r ≠ q, (k'.proc r).kstack = (s.k.proc r).kstack) : page ∈ s.free ∧ s' =
    { s with k := k', free := s.free.erase page, kstack := update s.kstack q page } := by
  have htaken : stackTaken s.k k' = some q := by
    apply find_slot
    · simp [hq, hq']
    · intro r hr
      by_contra hne
      simp [hsame r hne] at hr
  rw [setTable, htaken] at h
  dsimp only at h
  split_ifs at h with hpage
  exact ⟨hpage, (some.inj h).symm⟩

theorem setTable_given (hq : (s.k.proc q).kstack = true) (hq' : (k'.proc q).kstack = false)
    (hsame : ∀ r ≠ q, (k'.proc r).kstack = (s.k.proc r).kstack) : s' =
    { s with k := k', free := insert (s.kstack q) s.free } := by
  have htaken : stackTaken s.k k' = none := by
    apply find_slot_none
    intro r
    by_cases hr : r = q
    · simp [hr, hq]
    · simp [hsame r hr]
  have hgiven : stackGiven s.k k' = some q := by
    apply find_slot
    · simp [hq, hq']
    · intro r hr
      by_contra hne
      simp [hsame r hne] at hr
  rw [setTable, htaken, hgiven] at h
  exact (some.inj h).symm

end

theorem table_parts (h : step s (.table a page) = some s') :
    ∃ es s₁, ProcTable.step s.k a = some (s'.k, es) ∧ refs s a = some s₁ ∧
      setTable s₁ s'.k page = some s' := by
  obtain ⟨⟨k', es⟩, hk, hrest⟩ := bind_eq_some_iff.mp h
  obtain ⟨t, ht, hset⟩ := bind_eq_some_iff.mp hrest
  have hk' := setTable_k hset
  exact ⟨es, t, hk' ▸ hk, ht, hk' ▸ hset⟩

def movesStack : ProcTable.Act → Bool
  | .fork _ _ | .forkCopy _ _ _ | .clone _ _ _ _ _ | .wait _ | .waitThread _ => true
  | _ => false

variable {es : List Event} {k k' : Kernel}

theorem kstack_of_step (h : ProcTable.step k a = some (k', es))
    (ha : movesStack a = false) (q : Slot) : (k'.proc q).kstack = (k.proc q).kstack := by
  have hbody : ∀ b : Body, (k'.proc q).body = b → b.kstack = (k.proc q).kstack →
      (k'.proc q).kstack = (k.proc q).kstack := fun b hb hs => (congrArg Body.kstack hb).trans hs
  cases step_change h q with
  | stir hst => exact hbody _ hst.body rfl
  | kill _ hx | clonePid _ _ hx | exit hx | threadExit hx => exact hbody _ hx rfl
  | alloc _ _ _ _ hstarts =>
    cases a with
    | fork | clone => cases ha
    | _ => cases hstarts
  | forkFail | forkDone | reap | join => cases ha

/-- In the scheduler and in `thread_join` up to the end of a scan only the table changes. -/
theorem quiet_parts (h : step s (.table a page) = some s') (hrefs : refs s a = some s)
    (hstack : ∀ q, (s'.k.proc q).kstack = (s.k.proc q).kstack) : s' = { s with k := s'.k } := by
  obtain ⟨es, s₁, -, hr, hset⟩ := table_parts h
  rw [hrefs] at hr
  obtain rfl := some.inj hr
  exact setTable_same hset hstack

def Stackless (k : Kernel) : Prop := ∀ q, (k.proc q).state = .UNUSED → (k.proc q).kstack = false

theorem Stackless.next (h : Stackless k)
    (hstep : ProcTable.step k a = some (k', es)) : Stackless k' := by
  intro q hq
  have hbody : ∀ b : Body, (k'.proc q).body = b → b.kstack = false → (k'.proc q).kstack = false :=
    fun b hb hs => (congrArg Body.kstack hb).trans hs
  cases step_change hstep q with
  | stir hst => exact hbody _ hst.body (h q (hst.unborn (.inl hq) ▸ hq))
  | kill _ hx hs => exact hbody _ hx (h q (hs (.inl hq) ▸ hq))
  | clonePid _ _ hx hs => exact hbody _ hx (h q (hs ▸ hq))
  | alloc kalloc _ hx hs =>
    cases kalloc with
    | false => exact hbody _ hx rfl
    | true =>
      rw [hq] at hs
      cases hs
  | forkFail _ _ hx | reap _ _ hx | join _ _ hx => exact hbody _ hx rfl
  | forkDone _ _ _ hs | exit _ hs | threadExit _ hs =>
    rw [hq] at hs
    cases hs

theorem reachable_stackless {ok : Sys → Act → Prop} (h : Reachable ok s) : Stackless s.k := by
  apply Reach.invariant (P := fun s => Stackless s.k) _ _ h
  · intro s hs
    rw [hs.1]
    intro q hq
    by_cases hq0 : q = 0
    · subst hq0
      cases hq
    · simp [ProcTable.boot, hq0, unused]
  · intro s a s' hs _ hstep
    cases hcaller : a.caller with
    | some i =>
      obtain ⟨-, -, ofile, cwd, hk⟩ := step_rewrites hstep hcaller
      intro q hq
      rw [hk, setProc_proc] at hq ⊢
      split_ifs at hq ⊢ with hqi
      · exact hs i hq
      · exact hs q hq
    | none =>
      cases a with
      | table a page =>
        obtain ⟨es, hk⟩ := step_table hstep
        exact hs.next hk
      | pages free =>
        obtain rfl := some.inj hstep
        exact hs
      | _ => cases hcaller

/-- Descriptors and directory of a running process change by its own calls only. -/
theorem files_live (h : Sane k.view)
    (hstep : ProcTable.step k a = some (k', es)) (hq : k.view.Live q) (ha : a ≠ .exit q) :
    (k'.proc q).ofile = (k.proc q).ofile ∧ (k'.proc q).cwd = (k.proc q).cwd := by
  have hbody : ∀ b : Body, (k'.proc q).body = b → b.ofile = (k.proc q).ofile →
      b.cwd = (k.proc q).cwd →
      (k'.proc q).ofile = (k.proc q).ofile ∧ (k'.proc q).cwd = (k.proc q).cwd := fun b hb ho hc =>
    ⟨(congrArg Body.ofile hb).trans ho, (congrArg Body.cwd hb).trans hc⟩
  cases step_change hstep q with
  | stir hst => exact hbody _ hst.body rfl rfl
  | kill _ hx | alloc _ _ hx | forkFail _ _ hx | threadExit hx | reap _ _ hx | join _ _ hx =>
    exact hbody _ hx rfl rfl
  | exit => exact absurd rfl ha
  | @forkDone i _ _ hpc hi | @clonePid i _ _ _ _ hpc hi =>
    have hheld := h.held i _ q (running_live hi) (by rw [view_hold, hpc]; rfl)
    exact absurd rfl (hheld.ne_live hq)

def Life.pids : Life → ℤ
  | .alloc | .named => 1
  | .counted | .started | .ended | .joined => 0

def Life.counts (l : Life) (n : ℤ) : Prop :=
  match l with
  | .alloc | .named | .counted => n = 0
  | .started | .ended => n = 0 ∨ n = 1
  | .joined => n = -1 ∨ n = 0

/-- What creator and thread have taken since `s`. -/
structure Spent (i np : Slot) (s : Sys) (l : Life) (t : Sys) : Prop where
  sane : Sane t.k.view
  stackless : Stackless t.k
  live : t.k.view.Live i
  ne : np ≠ i
  hold : ∀ st, l.stage = some st → t.k.view.hold i = some (st, np)
  ofile : (t.k.proc i).ofile = (s.k.proc i).ofile
  cwd : (t.k.proc i).cwd = (s.k.proc i).cwd
  stack : l ≠ .joined → (t.k.proc np).kstack = true ∧ t.kstack np ∈ s.free ∧
    t.free = s.free.erase (t.kstack np)
  freed : l = .joined → t.free = s.free
  early : l = .alloc → t.ref = s.ref ∧ t.iref = s.iref
  late : l ≠ .alloc → ∃ d, (s.k.proc i).cwd = some d ∧
    t.iref = update s.iref d (s.iref d + 1) ∧
    ∀ g, t.ref g = s.ref g + (filesOf (s.k.proc i)).count g
  nextpid : t.k.nextpid = s.k.nextpid + l.pids
  count : l.counts ((t.k.proc i).numOfThread - (s.k.proc i).numOfThread)

variable {l : Life}

theorem Spent.quiet (h : Spent i np s l t) (hstep : step t (.table a page) = some t')
    (hrefs : refs t a = some t) (hstack : ∀ q, (t'.k.proc q).kstack = (t.k.proc q).kstack)
    (hview : t'.k.view = t.k.view) (ha : a ≠ .exit i) : Spent i np s l t' := by
  obtain ⟨es, hk⟩ := step_table hstep
  obtain ⟨hofile, hcwd⟩ := files_live h.sane hk h.live ha
  have ht := quiet_parts hstep hrefs hstack
  have hcount : (t'.k.proc i).numOfThread = (t.k.proc i).numOfThread :=
    congrArg (fun v => (node v i).numOfThread) hview
  have hnext : t'.k.nextpid = t.k.nextpid := congrArg View.nextpid hview
  refine ⟨hview ▸ h.sane, h.stackless.next hk, hview ▸ h.live, h.ne, fun st hst =>
    hview ▸ h.hold st hst,
    hofile.trans h.ofile, hcwd.trans h.cwd, fun hl => ?_, fun hl => ?_, fun hl => ?_, fun hl => ?_,
    hnext.trans h.nextpid, hcount ▸ h.count⟩
  · rw [hstack np, ht]
    exact h.stack hl
  · rw [ht]
    exact h.freed hl
  · rw [ht]
    exact h.early hl
  · rw [ht]
    exact h.late hl

theorem Spent.clone {f arg st : Word} (hsane : Sane s.k.view) (hstackless : Stackless s.k)
    (hstep : step s (.table (.clone i f arg st true) page) = some t)
    (hold : t.k.view.hold i = some (.alloc, np)) : Spent i np s .alloc t := by
  obtain ⟨es, s₁, hk, hrefs, hset⟩ := table_parts hstep
  obtain rfl : s = s₁ := some.inj hrefs
  obtain ⟨hrun, hu, hnext, hother, hstack⟩ : running s.k i = true ∧ (s.k.proc np).state = .UNUSED ∧
      t.k.nextpid = s.k.nextpid + 1 ∧ (∀ q ≠ np, t.k.proc q = s.k.proc q) ∧
      (t.k.proc np).kstack = true := by
    obtain ⟨hrun, huser, ⟨hsame, -⟩ | ⟨p, -, hu, hnext, hother, hstack, hpc⟩⟩ := clone_cases hk
    · rw [hsame, idle_of_user huser] at hold
      cases hold
    · have hp : p = np := by simpa [view_hold, hpc, Pc.hold] using hold
      rw [← hp]
      exact ⟨hrun, hu, hnext, hother, hstack⟩
  have hlive := running_live hrun
  have hne : np ≠ i := (View.Live.ne_unused hlive (phase_unused.mpr hu)).symm
  have hi := hother i hne.symm
  obtain ⟨hpage, ht⟩ := setTable_taken hset (hstackless np hu) hstack
    fun r hr => by rw [hother r hr]
  refine ⟨hsane.move (step_move hk), hstackless.next hk, ?_, hne, ?_, by rw [hi], by rw [hi],
    fun _ => ⟨hstack, ?_⟩, fun h => absurd h (by simp), fun _ => ?_, fun h => absurd rfl h, hnext,
      ?_⟩
  · rw [View.Live, view_node, hi]
    exact hlive
  · intro st hst
    obtain rfl := some.inj hst
    exact hold
  · rw [ht]
    simp [hpage]
  · rw [ht]
    exact ⟨rfl, rfl⟩
  · rw [hi]
    exact Int.sub_self _

theorem Spent.clonePid (h : Spent i np s .alloc t)
    (hstep : step t (.table (.clonePid i) page) = some t') : Spent i np s .named t' := by
  obtain ⟨es, t₁, hk, hrefs, hset⟩ := table_parts hstep
  have hold := h.hold .alloc rfl
  obtain ⟨d, hd, hiref, hcounts, hfree, hkstack, hk₁⟩ := dupAll_ref hrefs
  obtain ⟨hofile, hcwd⟩ := files_live h.sane hk h.live (by simp)
  have hstack := kstack_of_step hk rfl
  have ht := setTable_same hset (hk₁.symm ▸ hstack)
  obtain ⟨mp, hmp, hview⟩ := clonePid_cases hk
  rw [tiedBy_clonePid hold] at hmp
  obtain ⟨-, rfl⟩ := some_pair.mp hmp
  have hnode : t'.k.view.node i = t.k.view.node i := by
    rw [hview]
    simp [View.clonePid, h.ne.symm]
  have hcount : (t'.k.proc i).numOfThread = (t.k.proc i).numOfThread :=
    congrArg Node.numOfThread hnode
  have hnext : t'.k.nextpid = t.k.nextpid := congrArg View.nextpid hview
  obtain ⟨href, hiref₀⟩ := h.early rfl
  refine ⟨h.sane.move (step_move hk), h.stackless.next hk, ?_, h.ne, ?_, hofile.trans h.ofile,
    hcwd.trans h.cwd, fun _ => ?_, fun h => absurd h (by simp), fun h => absurd h (by simp),
    fun _ => ⟨d, h.cwd ▸ hd, ?_, fun g => ?_⟩, hnext.trans h.nextpid, hcount ▸ h.count⟩
  · rw [View.Live, hnode]
    exact h.live
  · intro st hst
    obtain rfl := some.inj hst
    rw [hview]
    simp [View.clonePid]
  · rw [hstack np, ht]
    simp only [hfree, hkstack]
    exact h.stack (by simp)
  · rw [ht]
    simp only [hiref, hiref₀]
  · rw [ht]
    simp only [hcounts, href, filesOf, h.ofile]

theorem Spent.cloneNext (h : Spent i np s .named t)
    (hstep : step t (.table (.cloneNext i) page) = some t') : Spent i np s .counted t' := by
  obtain ⟨es, hk⟩ := step_table hstep
  have ht := quiet_parts hstep rfl (kstack_of_step hk rfl)
  have hold := h.hold .named rfl
  obtain ⟨hproc, hnext, hold'⟩ : t'.k.proc = t.k.proc ∧ t'.k.nextpid = t.k.nextpid - 1 ∧
      t'.k.view.hold i = some (.counted, np) := by
    simp only [ProcTable.step] at hk
    split_ifs at hk
    split at hk
    · rename_i mp f arg st hpc
      rw [view_hold, hpc] at hold
      obtain rfl : mp = np := by simpa [Pc.hold] using hold
      rw [some_pair] at hk
      rw [← hk.1]
      exact ⟨rfl, rfl, by simp [view_hold, Pc.hold]⟩
    · cases hk
  have hlate := h.late (by simp)
  refine ⟨h.sane.move (step_move hk), h.stackless.next hk, ?_, h.ne, ?_, by rw [hproc, h.ofile],
    by rw [hproc, h.cwd], fun _ => ?_, fun h => absurd h (by simp), fun h => absurd h (by simp),
    fun _ => ?_, ?_, ?_⟩
  · rw [View.Live, view_node, hproc]
    exact h.live
  · intro st hst
    obtain rfl := some.inj hst
    exact hold'
  · rw [hproc, ht]
    exact h.stack (by simp)
  · rw [ht]
    exact hlate
  · rw [hnext, h.nextpid]
    simp [Life.pids]
  · rw [hproc]
    exact h.count

theorem Spent.cloneDone (h : Spent i np s .counted t)
    (hstep : step t (.table (.cloneDone i) page) = some t') : Spent i np s .started t' := by
  obtain ⟨es, hk⟩ := step_table hstep
  have hm := step_move hk
  have hstack := kstack_of_step hk rfl
  have ht := quiet_parts hstep rfl hstack
  obtain ⟨hofile, hcwd⟩ := files_live h.sane hk h.live (by simp)
  have hnext : t'.k.view.nextpid = t.k.view.nextpid := by
    generalize t'.k.view = v' at hm
    cases hm <;> rfl
  have hcount : (t'.k.view.node i).numOfThread = (t.k.view.node i).numOfThread ∨
      (t'.k.view.node i).numOfThread = (t.k.view.node i).numOfThread + 1 := by
    generalize t'.k.view = v' at hm
    cases hm with
    | quiet => exact .inl rfl
    | @cloneDone _ mp m hi hold hm =>
      have hmi : mp ≠ i := (h.sane.held i _ mp hi hold).ne_live hi
      simp only [start, setHold_node, setNode_node, hmi.symm, if_false, count_node]
      split_ifs with him
      · exact .inr (by rw [him])
      · exact .inl rfl
    | @cloneLost _ mp hi hold hm =>
      have hmi : mp ≠ i := (h.sane.held i _ mp hi hold).ne_live hi
      left
      simp [start, hmi.symm]
  have hc : (t.k.proc i).numOfThread - (s.k.proc i).numOfThread = 0 := h.count
  have hcount' : (t'.k.proc i).numOfThread = (t.k.proc i).numOfThread ∨
      (t'.k.proc i).numOfThread = (t.k.proc i).numOfThread + 1 := hcount
  refine ⟨h.sane.move hm, h.stackless.next hk, live_of_move h.sane hm (by simp) (by simp) h.live,
    h.ne, fun st hst => absurd hst (by simp [Life.stage]), hofile.trans h.ofile, hcwd.trans h.cwd,
      fun _ => ?_,
    fun h => absurd h (by simp), fun h => absurd h (by simp), fun _ => ?_,
    hnext.trans h.nextpid, ?_⟩
  · rw [hstack np, ht]
    exact h.stack (by simp)
  · rw [ht]
    exact h.late (by simp)
  · show _ = (0 : ℤ) ∨ _ = (1 : ℤ)
    omega

theorem Spent.threadExit {r : Word} (h : Spent i np s .started t)
    (hstep : step t (.table (.threadExit np r) page) = some t') : Spent i np s .ended t' := by
  obtain ⟨es, hk⟩ := step_table hstep
  have hm := step_move hk
  have hstack := kstack_of_step hk rfl
  have ht := quiet_parts hstep rfl hstack
  obtain ⟨hofile, hcwd⟩ := files_live h.sane hk h.live (by simp)
  obtain ⟨hnext, hcount⟩ : t'.k.view.nextpid = t.k.view.nextpid ∧
      (t'.k.view.node i).numOfThread = (t.k.view.node i).numOfThread := by
    generalize t'.k.view = v' at hm
    cases hm with
    | quiet => exact ⟨rfl, rfl⟩
    | threadExit hi hidle hinit =>
      refine ⟨rfl, ?_⟩
      rw [die_reparent_node _ _ _ (h.sane.noSelf np), if_neg h.ne.symm]
      split_ifs
      · rw [Node.passOn_numOfThread]
      · rfl
  have hcount' : (t'.k.proc i).numOfThread = (t.k.proc i).numOfThread := hcount
  refine ⟨h.sane.move hm, h.stackless.next hk, ?_, h.ne,
    fun st hst => absurd hst (by simp [Life.stage]), hofile.trans h.ofile, hcwd.trans h.cwd,
    fun _ => ?_, fun h => absurd h (by simp), fun h => absurd h (by simp), fun _ => ?_,
    hnext.trans h.nextpid, hcount' ▸ h.count⟩
  · exact live_of_move h.sane hm (by simp) (fun r hr => h.ne (by cases hr; rfl)) h.live
  · rw [hstack np, ht]
    exact h.stack (by simp)
  · rw [ht]
    exact h.late (by simp)

/-- A scan by `wait_thread` takes the stack of the thread it frees and of no other. -/
theorem kstack_of_scan (hk : ProcTable.step k (.waitThread i) = some (k', es))
    (hq : (k.proc q).state = .ZOMBIE → (k'.proc q).state ≠ .UNUSED) :
    (k'.proc q).kstack = (k.proc q).kstack := by
  cases step_change hk q with
  | stir hst => exact congrArg Body.kstack hst.body
  | alloc _ _ _ _ hstarts => cases hstarts
  | join _ hzombie _ hunused => exact absurd hunused (hq hzombie)

/-- `thread_join` gives back the stack, and no references. -/
theorem Spent.join (h : Spent i np s .ended t)
    (hstep : step t (.table (.waitThread i) page) = some t')
    (hfreed : (t'.k.proc np).state = .UNUSED) : Spent i np s .joined t' := by
  obtain ⟨es, t₁, hk, hrefs, hset⟩ := table_parts hstep
  obtain rfl : t = t₁ := some.inj hrefs
  have hm := step_move hk
  obtain ⟨hofile, hcwd⟩ := files_live h.sane hk h.live (by simp)
  obtain ⟨hstack, hpage, hfree⟩ := h.stack (by simp)
  have hused : (t.k.proc np).state ≠ .UNUSED := by
    intro hu
    rw [h.stackless np hu] at hstack
    cases hstack
  obtain ⟨hnext, hcount, hphase⟩ : t'.k.view.nextpid = t.k.view.nextpid ∧
      (t'.k.view.node i).numOfThread = (t.k.view.node i).numOfThread - 1 ∧
      ∀ q ≠ np, (t'.k.view.node q).phase = (t.k.view.node q).phase := by
    have hfreed : (t'.k.view.node np).phase = .unused := phase_unused.mpr hfreed
    have hused : (t.k.view.node np).phase ≠ .unused := fun hu => hused (phase_unused.mp hu)
    generalize t'.k.view = v' at hm hfreed
    cases hm with
    | quiet => exact absurd hfreed hused
    | @join _ z hi hidle hz hthread hzombie =>
      have hnp : np = z := by
        by_contra hne
        rw [join_node_of_ne _ _ _ hne] at hfreed
        exact hused hfreed
      subst hnp
      refine ⟨rfl, ?_, fun q hq => ?_⟩
      · rw [join_node_of_ne _ _ _ h.ne.symm]
        exact if_pos rfl
      · rw [join_node_of_ne _ _ _ hq]
  have hsame : ∀ q ≠ np, (t'.k.proc q).kstack = (t.k.proc q).kstack := by
    intro q hq
    refine kstack_of_scan hk fun hzombie hunused => ?_
    have hp := hphase q hq
    rw [view_node, view_node, node_phase, node_phase, hzombie, hunused] at hp
    cases hp
  have ht := setTable_given hset hstack (h.stackless.next hk np hfreed) hsame
  have hcount' : (t'.k.proc i).numOfThread = (t.k.proc i).numOfThread - 1 := hcount
  have hc : (t.k.proc i).numOfThread - (s.k.proc i).numOfThread = 0 ∨
      (t.k.proc i).numOfThread - (s.k.proc i).numOfThread = 1 := h.count
  refine ⟨h.sane.move hm, h.stackless.next hk, live_of_move h.sane hm (by simp) (by simp) h.live,
    h.ne, fun st hst => absurd hst (by simp [Life.stage]), hofile.trans h.ofile, hcwd.trans h.cwd,
    fun h => absurd rfl h, fun _ => ?_, fun h => absurd h (by simp), fun _ => ?_,
    hnext.trans h.nextpid, ?_⟩
  · rw [ht]
    simp only [hfree]
    exact Finset.insert_erase hpage
  · rw [ht]
    exact h.late (by simp)
  · show _ = (-1 : ℤ) ∨ _ = (0 : ℤ)
    omega

theorem Spent.scan (h : Spent i np s l t) (hstep : step t (.table (.waitThread i) page) = some t')
    (hnone : ∀ q, (t'.k.proc q).state = .UNUSED → (t.k.proc q).state = .UNUSED) :
    Spent i np s l t' := by
  obtain ⟨es, hk⟩ := step_table hstep
  have hm := step_move hk
  apply h.quiet hstep rfl _ _ (by simp)
  · intro q
    refine kstack_of_scan hk fun hzombie hunused => ?_
    have hz := hnone q hunused
    rw [hzombie] at hz
    cases hz
  · have hkept : ∀ q, (t'.k.view.node q).phase = .unused → (t.k.view.node q).phase = .unused :=
      fun q hq => phase_unused.mpr (hnone q (phase_unused.mp hq))
    generalize t'.k.view = v' at hm hkept
    cases hm with
    | quiet => rfl
    | @join _ z hi hidle hz hthread hzombie =>
      have hu := hkept z (by simp [View.join])
      rw [hzombie] at hu
      cases hu

/-- The scheduler, the call of `thread_join` and its `acquire` move nothing. -/
theorem Spent.still (h : Spent i np s l t)
    (hrefs : refs t a = some t) (hstack : movesStack a = false) (ha : a ≠ .exit i)
    (hmove : ∀ v', Move t.k.view a v' → v' = t.k.view)
    (hstep : step t (.table a page) = some t') : Spent i np s l t' := by
  obtain ⟨es, hk⟩ := step_table hstep
  exact h.quiet hstep hrefs (kstack_of_step hk hstack) (hmove _ (step_move hk)) ha

theorem Spent.schedule (h : Spent i np s l t)
    (ha : schedules a = true) (hstep : step t (.table a page) = some t') : Spent i np s l t' := by
  cases a with
  | dispatch | yield | sleep | wakeup =>
    refine h.still rfl rfl (by simp) (fun v' hm => ?_) hstep
    cases hm
    rfl
  | _ => cases ha

theorem Lives.spent (hsane : Sane s.k.view) (hstackless : Stackless s.k)
    (h : Lives i np s l t) : Spent i np s l t := by
  induction h with
  | clone hstep hold => exact .clone hsane hstackless hstep hold
  | schedule _ ha hstep ih => exact ih.schedule ha hstep
  | clonePid _ hstep ih => exact ih.clonePid hstep
  | cloneNext _ hstep ih => exact ih.cloneNext hstep
  | cloneDone _ hstep ih => exact ih.cloneDone hstep
  | threadExit _ hstep ih => exact ih.threadExit hstep
  | threadJoin _ hl hstep ih | lockAcquire _ hl hstep ih | lockRelease _ hl hstep ih =>
    refine ih.still rfl rfl (by simp) (fun v' hm => ?_) hstep
    cases hm
    rfl
  | scan _ hl hstep hnone ih => exact ih.scan hstep hnone
  | join _ hstep hfreed ih => exact ih.join hstep hfreed

/-- After the whole life of a thread its creator's current directory is referenced once more
than before, and each file once more for each of the creator's descriptors: the life of a thread
is never neutral. The free pages and `nextpid` are what they were; the creator's `numOfThread` is
what it was, or one less. -/
theorem thread_life_leaks {s s' : Sys} {i np : Slot} (h : Reachable (fun _ _ => True) s)
    (hl : Lives i np s .joined s') :
    ¬Neutral i s s' ∧
    (∃ d, (s.k.proc i).cwd = some d ∧ s'.iref = update s.iref d (s.iref d + 1)) ∧
    (∀ g, s'.ref g = s.ref g + (filesOf (s.k.proc i)).count g) ∧ s'.free = s.free ∧
    s'.k.nextpid = s.k.nextpid ∧
    ((s'.k.proc i).numOfThread = (s.k.proc i).numOfThread ∨
      (s'.k.proc i).numOfThread = (s.k.proc i).numOfThread - 1) := by
  have hspent := hl.spent (reachable_sane h) (reachable_stackless h)
  obtain ⟨d, hd, hiref, hrefs⟩ := hspent.late (by simp)
  have hcount : (s'.k.proc i).numOfThread - (s.k.proc i).numOfThread = -1 ∨
      (s'.k.proc i).numOfThread - (s.k.proc i).numOfThread = 0 := hspent.count
  refine ⟨fun hneutral => ?_, ⟨d, hd, hiref⟩, hrefs, hspent.freed rfl, ?_, by omega⟩
  · have hsame := congrFun hneutral.2.1 d
    rw [hiref, update_self] at hsame
    omega
  · rw [hspent.nextpid]
    exact Int.add_zero _

/-- Slot `i` creates a thread, the thread ends at once, and `i` joins it. -/
def life (i np : Slot) (page : ℕ) (s : Sys) : Option Sys := do
  let t₁ ← step s (.table (.clone i 0 0 4096 true) page)
  guard (t₁.k.view.hold i = some (.alloc, np))
  let t₂ ← step t₁ (.table (.clonePid i) page)
  let t₃ ← step t₂ (.table (.cloneNext i) page)
  let t₄ ← step t₃ (.table (.cloneDone i) page)
  let t₅ ← step t₄ (.table (.dispatch np) page)
  let t₆ ← step t₅ (.table (.threadExit np 0) page)
  let t₇ ← step t₆ (.table (.dispatch i) page)
  let t₈ ← step t₇ (.table (.threadJoin i 1 0) page)
  let t₉ ← step t₈ (.table (.lockAcquire i) page)
  let t₁₀ ← step t₉ (.table (.waitThread i) page)
  guard ((t₁₀.k.proc np).state = .UNUSED)
  step t₁₀ (.table (.lockRelease i) page)

theorem lives_of_life (h : life i np page s = some s') : Lives i np s .joined s' := by
  simp only [life, bind_eq_bind, bind_eq_some_iff, guard_eq_some'] at h
  obtain ⟨t₁, h₁, _, hold, t₂, h₂, t₃, h₃, t₄, h₄, t₅, h₅, t₆, h₆, t₇, h₇, t₈, h₈, t₉, h₉, t₁₀, h₁₀,
    _, hfreed, h⟩ := h
  have hstarted : Lives i np s .started t₄ :=
    .cloneDone (.cloneNext (.clonePid (.clone h₁ hold) h₂) h₃) h₄
  have hended : Lives i np s .ended t₇ :=
    .schedule (.threadExit (.schedule hstarted rfl h₅) h₆) rfl h₇
  exact .lockRelease (.join (.lockAcquire (.threadJoin hended rfl h₈) rfl h₉) h₁₀ hfreed) rfl h

/-- init's first child opens a file, creates a thread and joins it. -/
theorem thread_leaves_references :
    ∃ s s', Reachable (fun _ _ => True) s ∧ Lives 1 2 s .joined s' ∧
      (s.ref 0 = 1 ∧ s'.ref 0 = 2) ∧ (s.iref 0 = 2 ∧ s'.iref 0 = 3) := by
  obtain ⟨s, hs, hp⟩ := exists_reachable (fun _ _ => True) (fun s => (life 1 2 11 s).any fun s' =>
      (s.ref 0 = 1 ∧ s'.ref 0 = 2) ∧ (s.iref 0 = 2 ∧ s'.iref 0 = 3))
    (tables 10 (.dispatch 0 :: forks 0 2 ++ [.dispatch 1]) ++ [.sysOpen 1 (some 5)])
    (by decide +kernel)
  rw [any_eq_true] at hp
  obtain ⟨s', hl, hq⟩ := hp
  exact ⟨s, s', hs, lives_of_life hl, of_decide_eq_true hq⟩

/-- The same without an open file: the directory stays referenced. -/
theorem thread_life_leaks_directory :
    ∃ s s', Reachable (fun _ _ => True) s ∧ Lives 1 2 s .joined s' ∧ ¬Neutral 1 s s' := by
  obtain ⟨s, hs, hp⟩ := exists_reachable (fun _ _ => True) (fun s => (life 1 2 11 s).isSome)
    (tables 10 (.dispatch 0 :: forks 0 2 ++ [.dispatch 1])) (by decide +kernel)
  obtain ⟨s', hl⟩ := isSome_iff_exists.mp hp
  exact ⟨s, s', hs, lives_of_life hl, (thread_life_leaks hs (lives_of_life hl)).1⟩

end Xv6Threads.Files
