import Xv6Threads.TableView

namespace Xv6Threads.ProcTable

open Function Option View ProcState

/-- A step that is possible gives one state and one list of events. -/
theorem some_pair {α β : Type} {a c : α} {b d : β} : some (a, b) = some (c, d) ↔ a = c ∧ b = d := by
  rw [some_inj, Prod.mk_inj]

inductive Stepped (k : Kernel) : Act → Kernel → List Event → Prop
  | dispatch {i} (hi : (k.proc i).state = .RUNNABLE) :
    Stepped k (.dispatch i) (setProc k i { k.proc i with state := .RUNNING, chan := none }) []
  | yield {i} (hi : running k i) : Stepped k (.yield i) (setState k i .RUNNABLE) []
  | sleep {i c} (hi : running k i ∧ k.pc i = .user) :
    Stepped k (.sleep i c) (setProc k i { k.proc i with
      chan := some (.other c), state := .SLEEPING }) []
  | wakeup {c} : Stepped k (.wakeup c) { k with proc := wakeup1 k.proc (some (.other c)) } []
  | sbrk {i sz} (hi : running k i ∧ k.pc i = .user) :
    Stepped k (.sbrk i sz) (setProc k i { k.proc i with sz := sz }) []
  | kill {i pid} (hi : running k i ∧ k.pc i = .user) :
    Stepped k (.kill i pid) (kill k i pid).1 (kill k i pid).2
  | forkNone {i kalloc k'} (hi : running k i ∧ k.pc i = .user)
    (hk : allocproc k kalloc = (k', none)) :
    Stepped k (.fork i kalloc) k' [.ret i (-1)]
  | fork {i kalloc k' np} (hi : running k i ∧ k.pc i = .user)
    (hk : allocproc k kalloc = (k', some np)) :
    Stepped k (.fork i kalloc) (setPc k' i (.fork np)) []
  | forkCopy {i np pg ok k' es} (hi : running k i) (hpc : k.pc i = .fork np)
    (h : forkCopy k i np pg ok = some (k', es)) : Stepped k (.forkCopy i pg ok) k' es
  | cloneFull {i f a s kalloc} (hi : running k i ∧ k.pc i = .user)
    (hn : (k.proc i).numOfThread = 7) : Stepped k (.clone i f a s kalloc) k [.ret i (-1)]
  | cloneNone {i f a s kalloc k'} (hi : running k i ∧ k.pc i = .user)
    (hn : (k.proc i).numOfThread ≠ 7) (hk : allocproc k kalloc = (k', none)) :
    Stepped k (.clone i f a s kalloc) k' [.ret i (-1)]
  | clone {i f a s kalloc k' np} (hi : running k i ∧ k.pc i = .user)
    (hn : (k.proc i).numOfThread ≠ 7) (hk : allocproc k kalloc = (k', some np)) :
    Stepped k (.clone i f a s kalloc) (setPc k' i (.cloneAlloc np f a s)) []
  | clonePid {i np f a s} (hi : running k i) (hpc : k.pc i = .cloneAlloc np f a s) :
    Stepped k (.clonePid i) (setPc (clonePid k i np) i (.clonePid np f a s)) []
  | cloneNext {i np f a s} (hi : running k i) (hpc : k.pc i = .clonePid np f a s) :
    Stepped k (.cloneNext i) (setPc { k with nextpid := k.nextpid - 1 } i (.cloneNext np f a s)) []
  | cloneDone {i np f a s} (hi : running k i) (hpc : k.pc i = .cloneNext np f a s) :
    Stepped k (.cloneDone i) (cloneDone k i np f a s).1 (cloneDone k i np f a s).2
  | exit {i} (hi : running k i ∧ k.pc i = .user ∧ i ≠ k.initproc) : Stepped k (.exit i) (exit k i)
    []
  | threadExit {i r} (hi : running k i ∧ k.pc i = .user ∧ i ≠ k.initproc) :
    Stepped k (.threadExit i r) (exitThread k i r) []
  | wait {i} (hi : running k i ∧ (k.pc i = .user ∨ k.pc i = .wait)) :
    Stepped k (.wait i) (wait k i).1 (wait k i).2
  | threadJoin {i tid r} (hi : running k i ∧ k.pc i = .user) :
    Stepped k (.threadJoin i tid r) (setPc k i (.spin tid r)) []
  | lockTaken {i tid r} (hi : running k i) (hpc : k.pc i = .spin tid r) (hlock : k.lock) :
    Stepped k (.lockAcquire i) (setPc { k with lock := false } i (.join tid r)) []
  | lockBusy {i tid r} (hi : running k i) (hpc : k.pc i = .spin tid r) (hlock : ¬ k.lock) :
    Stepped k (.lockAcquire i) k []
  | waitThread {i tid r} (hi : running k i) (hpc : k.pc i = .join tid r) :
    Stepped k (.waitThread i) (waitThread k i tid r).1 (waitThread k i tid r).2
  | lockRelease {i} (hi : running k i ∧ k.pc i = .release) :
    Stepped k (.lockRelease i) (setPc { k with lock := true } i .user) [.ret i 0]
  | exec {i pg ok sz entry sp k' es} (hi : running k i ∧ k.pc i = .user)
    (h : exec k i pg ok sz entry sp = some (k', es)) : Stepped k (.exec i pg ok sz entry sp) k' es

variable {es : List Event}

theorem stepped_of_step {k k' : Kernel} {a : Act} (h : step k a = some (k', es)) :
    Stepped k a k' es := by
  cases a <;> simp only [step, clone] at h <;> repeat' split at h
  all_goals first
    | cases h; done
    | obtain ⟨rfl, rfl⟩ := some_pair.mp h
      constructor <;> assumption
    | constructor <;> assumption

variable {k k' : Kernel} {i : Slot}

theorem view_setProc (k : Kernel) (p : Slot) (x : Proc) :
    (setProc k p x).view = k.view.setNode p x.node := by
  apply View.ext <;> try rfl
  exact comp_update Proc.node k.proc p x

theorem view_setPc (k : Kernel) (p : Slot) (c : Pc) :
    (setPc k p c).view = k.view.setHold p c.hold := by
  apply View.ext <;> try rfl
  exact comp_update Pc.hold k.pc p c

@[simp] theorem node_phase (p : Proc) : p.node.phase = p.state.phase := rfl
@[simp] theorem node_pgdir (p : Proc) : p.node.pgdir = p.pgdir := rfl
@[simp] theorem node_pid (p : Proc) : p.node.pid = p.pid := rfl
@[simp] theorem node_parent (p : Proc) : p.node.parent = p.parent := rfl
@[simp] theorem node_isThread (p : Proc) : p.node.isThread = p.isThread := rfl
@[simp] theorem node_tid (p : Proc) : p.node.tid = p.tid := rfl
@[simp] theorem node_numOfThread (p : Proc) : p.node.numOfThread = p.numOfThread := rfl
@[simp] theorem view_node (k : Kernel) (p : Slot) : k.view.node p = (k.proc p).node := rfl
@[simp] theorem view_pgLive (k : Kernel) : k.view.pgLive = k.pgLive := rfl
@[simp] theorem view_init (k : Kernel) : k.view.init = k.initproc := rfl
@[simp] theorem view_nextpid (k : Kernel) : k.view.nextpid = k.nextpid := rfl
@[simp] theorem view_hold (k : Kernel) (p : Slot) : k.view.hold p = (k.pc p).hold := rfl

theorem wakeup1_node (t : Table) (c : Option Chan) (q : Slot) :
    (wakeup1 t c q).node = (t q).node := by
  unfold wakeup1
  split_ifs with h
  · simp only [Proc.node, phase, h.1]
  · rfl

theorem update_node (t : Table) (p : Slot) (x : Proc) (q : Slot) :
    (update t p x q).node = update (fun q => (t q).node) p x.node q :=
  congrFun (comp_update Proc.node t p x) q

/-- A loop over the table that, in the view, changes each slot by itself. -/
theorem foldl_node (body : Table → Slot → Table) (f : Node → Node)
    (hbody : ∀ t p q, (body t p q).node = update (fun q => (t q).node) p (f (t p).node) q)
    (t : Table) (q : Slot) : (slots.foldl body t q).node = f (t q).node := by
  have h := foldl_table body (fun a b => b.node = a.node) (fun _ a b => b.node = f a.node)
    (fun _ => rfl) (fun _ _ _ h h' => h'.trans h) ?_ ?_ ?_ t slots (List.nodup_finRange _) q
  · exact h.1 (List.mem_finRange q)
  · intro t p q hqp
    rw [hbody, update_of_ne hqp]
  · intro t p b hb
    rw [hbody, update_self, hb]
  · intro p a b c hb hc
    rw [hc, hb]

theorem exitThreads_node (t : Table) (pid : ℤ) (q : Slot) : (exitThreads t pid q).node =
    if (t q).node.pid = pid then (t q).node.ended else (t q).node := by
  apply foldl_node _ fun n => if n.pid = pid then n.ended else n
  intro t p q
  by_cases hpid : (t p).pid = pid
  · by_cases ht : (t p).isThread = true
    · rw [if_neg (by simp [ht]), if_pos ⟨hpid, ht⟩, update_node, node_pid, if_pos hpid,
        Node.ended, node_isThread, if_pos ht]
      rfl
    · rw [if_pos ⟨hpid, by simpa using ht⟩, wakeup1_node, update_node, node_pid, if_pos hpid,
        Node.ended, node_isThread, if_neg ht]
      rfl
  · rw [if_neg (fun h => hpid h.1), if_neg (fun h => hpid h.1), node_pid, if_neg hpid,
      update_eq_self]

theorem reparent_node (t : Table) (init i : Slot) (keep : Node → Bool) (q : Slot) :
    (reparent t init i (fun p => keep p.node) q).node = if (t q).node.parent =
    some i then (t q).node.passOn init (keep (t q).node) else (t q).node := by
  apply foldl_node _ fun n => if n.parent = some i then n.passOn init (keep n) else n
  intro t p q
  by_cases hp : (t p).parent = some i
  · rw [if_pos hp, node_parent, if_pos hp, Node.passOn]
    by_cases hk : keep (t p).node = true
    · rw [if_pos hk, if_pos hk]
      dsimp only
      split_ifs
      · rw [wakeup1_node, update_node]
        rfl
      · rw [update_node]
        rfl
    · rw [if_neg hk, if_neg hk, update_node]
      rfl
  · rw [if_neg hp, node_parent, if_neg hp, update_eq_self]

theorem running_live (h : running k i = true) : (k.view.node i).phase = .live := by
  have hs : (k.proc i).state = .RUNNING := by simpa [running] using h
  simp [hs, phase]

variable {s : ProcState}

theorem phase_unused : s.phase = .unused ↔ s = .UNUSED := by
  cases s <;> simp [phase]

theorem phase_embryo : s.phase = .embryo ↔ s = .EMBRYO := by
  cases s <;> simp [phase]

theorem phase_zombie : s.phase = .zombie ↔ s = .ZOMBIE := by
  cases s <;> simp [phase]

theorem phase_live : s.phase = .live ↔ s = .SLEEPING ∨ s = .RUNNABLE ∨ s = .RUNNING := by
  cases s <;> simp [phase]

/-- A change that does not show: the new process looks like the old one. -/
theorem view_setProc_alike (k : Kernel) (p : Slot) (x : Proc) (h : x.node = (k.proc p).node) :
    (setProc k p x).view = k.view := by
  rw [view_setProc]
  exact setNode_self _ _ _ h

theorem view_setPc_idle (k : Kernel) (p : Slot) (c : Pc) (hc : c.hold = none)
    (h : (k.pc p).hold = none) : (setPc k p c).view = k.view := by
  rw [view_setPc]
  exact setHold_self _ _ _ (by rw [hc, view_hold, h])

theorem allocproc_some {kalloc : Bool} {p : Slot} (h : allocproc k kalloc = (k', some p)) :
    kalloc = true ∧ (k.view.node p).phase = .unused ∧
      k'.view = (k.view.fresh p .embryo).setHold p none := by
  unfold allocproc at h
  split at h
  · simp at h
  · rename_i q hfind
    have hq : (k.view.node q).phase = .unused := by
      simpa [phase_unused] using List.find?_some hfind
    cases kalloc
    · simp at h
    · simp only [if_true, Prod.mk.injEq, some.injEq] at h
      obtain ⟨rfl, rfl⟩ := h
      refine ⟨rfl, hq, ?_⟩
      rw [view_setPc, view_setProc]
      rfl

theorem allocproc_none {kalloc : Bool} (h : allocproc k kalloc = (k', none)) :
    k' = k ∨ kalloc = false ∧ ∃ p, (k.view.node p).phase = .unused ∧
      k'.view = k.view.fresh p .unused := by
  unfold allocproc at h
  split at h
  · exact .inl (Prod.ext_iff.mp h).1.symm
  · rename_i q hfind
    have hq : (k.view.node q).phase = .unused := by
      simpa [phase_unused] using List.find?_some hfind
    cases kalloc
    · simp only [Bool.false_eq_true, if_false, Prod.mk.injEq, and_true] at h
      subst h
      refine .inr ⟨rfl, q, hq, ?_⟩
      rw [view_setProc]
      rfl
    · simp at h

/-- The caller gives up its files or stores its status, and wakes its parent. -/
theorem leave_node (t : Table) (i : Slot) (x : Proc) (c : Option Chan) (h : x.node = (t i).node)
    (q : Slot) : (wakeup1 (update t i x) c q).node = (t q).node := by
  rw [wakeup1_node, update_node, h]
  exact congrFun (update_eq_self i fun q => (t q).node) q

theorem view_die (k : Kernel) (t : Table) (i : Slot) :
    (setPc (setState { k with proc := t } i .ZOMBIE) i .user).view =
      { k with proc := t }.view.die i := by
  rw [view_setPc, setState, view_setProc]
  rfl

theorem view_table (k : Kernel) (t : Table) (f : Slot → Node) (h : ∀ q, (t q).node = f q) :
    { k with proc := t }.view = { k.view with node := f } :=
  View.ext (funext h) rfl rfl rfl rfl

theorem view_exitThreads (k : Kernel) (t : Table) (pid : ℤ)
    (ht : ∀ q, (t q).node = (k.proc q).node) :
    { k with proc := exitThreads t pid }.view = k.view.endAll pid := by
  apply view_table
  intro q
  rw [exitThreads_node, ht]
  rfl

theorem view_reparent (k : Kernel) (t : Table) (i : Slot) (keep : Node → Bool)
    (ht : ∀ q, (t q).node = (k.proc q).node) :
    { k with proc := reparent t k.initproc i fun p => keep p.node }.view =
      k.view.reparent i keep := by
  apply view_table
  intro q
  rw [reparent_node, ht]
  rfl

theorem view_exit_thread (k : Kernel) (i : Slot) (ht : (k.proc i).isThread = true) :
    (exit k i).view = (k.view.endAll (k.proc i).pid).die i := by
  unfold exit
  dsimp only
  rw [if_pos ht, view_die, view_exitThreads]
  apply leave_node
  rfl

theorem view_exit_main (k : Kernel) (i : Slot) (ht : (k.proc i).isThread = false) :
    (exit k i).view =
    (k.view.reparent i fun n => n.pgdir != (k.view.node i).pgdir).die i := by
  unfold exit
  dsimp only
  rw [if_neg (by simp [ht]), view_die]
  have h := view_reparent k _ i (fun n => n.pgdir != (k.proc i).pgdir)
    (leave_node k.proc i { k.proc i with ofile := fun _ => none, cwd := none }
      (slotChan (k.proc i).parent) rfl)
  exact congrArg (·.die i) h

theorem view_exitThread (k : Kernel) (i : Slot) (r : Word) :
    (exitThread k i r).view = (k.view.reparent i fun _ => true).die i := by
  unfold exitThread
  dsimp only
  rw [view_die]
  have h := view_reparent k _ i (fun _ => true)
    (leave_node k.proc i { k.proc i with exitStatus := r } (slotChan (k.proc i).parent) rfl)
  exact congrArg (·.die i) h

theorem kill_view (k : Kernel) (i : Slot) (pid : ℤ) : (kill k i pid).1.view = k.view := by
  unfold kill
  split
  · apply view_setProc_alike
    split_ifs with hs
    · simp only [Proc.node, phase, show (k.proc _).state = .SLEEPING from hs]
    · rfl
  · rfl

theorem sleepSelf_view (h : running k i = true) : (sleepSelf k i).view = k.view := by
  apply view_setProc_alike
  have hs : (k.proc i).state = .RUNNING := by simpa [running] using h
  simp only [Proc.node, phase, hs]

theorem freevm_fresh (k : Kernel) (g : ℕ) (hg : k.pgLive g = false) :
    (freevm { k with pgLive := update k.pgLive g true } g).view = k.view := by
  refine View.ext rfl rfl rfl (funext fun x => ?_) rfl
  by_cases hx : x = g
  · subst hx
    simpa [freevm, Kernel.view] using hg.symm
  · simp [freevm, Kernel.view, hx]

theorem forkCopy_move {i np : Slot} {pg : Option ℕ} {ok : Bool}
    (hi : running k i = true) (hpc : k.pc i = .fork np)
    (h : forkCopy k i np pg ok = some (k', es)) : Move k.view (.forkCopy i pg ok) k'.view := by
  have hold : k.view.hold i = some (.fork, np) := by rw [view_hold, hpc]; rfl
  unfold forkCopy at h
  cases pg with
  | none =>
    rw [some_pair] at h
    rw [← h.1, view_setPc, view_setProc]
    exact .forkFail (running_live hi) hold
  | some g =>
    dsimp only at h
    split_ifs at h with hg hok
    · rw [some_pair] at h
      rw [← h.1, view_setPc, view_setProc, hok]
      exact .forkDone (running_live hi) hold (by simpa using (not_or.mp hg).2)
    · rw [some_pair] at h
      rw [← h.1, view_setPc, view_setProc, freevm_fresh _ _ (by simpa using (not_or.mp hg).2)]
      exact .forkFail (running_live hi) hold

theorem start_view (k : Kernel) (i np : Slot) (tid : ℤ) (tf : Trapframe)
    (hi : (k.view.node i).phase = .live) :
    (setPc (setState (setProc k np { k.proc np with tid := tid, tf := tf, state := .RUNNABLE })
      i .RUNNABLE) i .user).view = k.view.start i np tid := by
  rw [view_setPc, setState, view_setProc_alike, view_setProc]
  · rfl
  · by_cases hnp : i = np
    · subst hnp
      simp [Proc.node, setProc]
    · simpa [Proc.node, setProc, hnp, phase] using hi.symm

/-- The id `clone` gives to the new thread of `i`. -/
def nextTid (k : Kernel) (i : Slot) : ℤ :=
  match mainSlot k.proc (k.proc i).pid with
  | some m => (k.proc m).numOfThread + 1
  | none => (k.proc i).tid

theorem cloneDone_view (np : Slot) (f a s : Word)
    (hi : (k.view.node i).phase = .live) :
    (cloneDone k i np f a s).1.view =
      (match mainSlot k.proc (k.proc i).pid with
        | some m => k.view.count m (nextTid k i)
        | none => k.view).start i np (nextTid k i) := by
  unfold cloneDone nextTid
  cases hm : mainSlot k.proc (k.proc i).pid with
  | none =>
    exact start_view k i np (k.proc i).tid
      { (k.proc np).tf with eip := f, esp := s - 4 - 4, ebp := s - 4 - 4 } hi
  | some m =>
    set n := (k.proc m).numOfThread + 1
    set k₁ := setProc k m { k.proc m with numOfThread := n }
    have hv₁ : k₁.view = k.view.count m n := view_setProc _ _ _
    have hi₁ : (k₁.view.node i).phase = .live := by rw [hv₁, count_phase, hi]
    have hv := start_view k₁ i np n
      { (k₁.proc np).tf with eip := f, esp := s - 4 - 4, ebp := s - 4 - 4 } hi₁
    rw [hv₁] at hv
    exact hv

theorem cloneDone_events (k : Kernel) (i np : Slot) (f a s : Word) : (cloneDone k i np f a s).2 =
    [.store i (s - 4) a, .store i (s - 4 - 4) 0xFFFFFFFF, .ret i (nextTid k i)] := by
  unfold cloneDone nextTid
  cases mainSlot k.proc (k.proc i).pid <;> rfl

theorem cloneDone_move {i np : Slot} {f a s : Word} (hi : running k i = true)
    (hpc : k.pc i = .cloneNext np f a s) :
    Move k.view (.cloneDone i) (cloneDone k i np f a s).1.view := by
  have hlive := running_live hi
  have hold : k.view.hold i = some (.counted, np) := by rw [view_hold, hpc]; rfl
  rw [cloneDone_view np f a s hlive, nextTid]
  cases hm : mainSlot k.proc (k.proc i).pid with
  | none => exact .cloneLost hlive hold hm
  | some m => exact .cloneDone hlive hold hm

theorem wait_move (hi : running k i = true)
    (hold : k.view.hold i = none) : Move k.view (.wait i) (wait k i).1.view := by
  unfold wait
  split
  · rename_i z hz
    have hz := List.find?_some hz
    simp only [decide_eq_true_eq] at hz
    dsimp only
    rw [view_setPc, view_setProc]
    exact .reap (running_live hi) hold hz.1 (phase_zombie.mpr hz.2)
  · split_ifs
    · rw [view_setPc_idle _ _ _ rfl hold]
      exact .quiet
    · rw [view_setPc_idle (sleepSelf k i) i .wait rfl hold, sleepSelf_view hi]
      exact .quiet

theorem joinReturn_view (k : Kernel) (i : Slot) (r : ℤ) :
    (joinReturn k i r).1.view = k.view.setHold i none := by
  unfold joinReturn
  split_ifs
  · exact view_setPc k i .user
  · exact view_setPc k i .release

theorem joined_view (k : Kernel) (i z : Slot) (r : ℤ) : (joinReturn (setProc k z { k.proc z with
      kstack := false, state := .UNUSED, pid := 0, parent := none, killed := false,
      isThread := false, exitStatus := 0 }) i r).1.view =
    (k.view.setNode z { k.view.node z with
      phase := .unused, pid := 0, parent := none, isThread := false }).setHold i none := by
  rw [joinReturn_view, view_setProc]
  rfl

theorem waitThread_move {tid : ℤ} {r : Word} (hi : running k i = true)
    (hpc : k.pc i = .join tid r) : Move k.view (.waitThread i) (waitThread k i tid r).1.view := by
  have hold : k.view.hold i = none := by rw [view_hold, hpc]; rfl
  unfold waitThread
  dsimp only
  split
  · rename_i z hz
    have hz := List.find?_some hz
    simp only [decide_eq_true_eq, Bool.and_eq_true, Bool.decide_and] at hz
    rw [joined_view, view_setProc]
    exact .join (running_live hi) hold hz.1.1 hz.1.2.2 (phase_zombie.mpr hz.2)
  · split_ifs
    · rw [joinReturn_view, setHold_self _ _ _ hold.symm]
      exact .quiet
    · rw [sleepSelf_view hi]
      exact .quiet

theorem exec_move {pg : Option ℕ} {ok : Bool} {sz entry sp : Word} (hi : running k i = true)
    (hold : k.view.hold i = none)
    (h : exec k i pg ok sz entry sp = some (k', es)) :
    Move k.view (.exec i pg ok sz entry sp) k'.view := by
  unfold exec at h
  cases pg with
  | none =>
    rw [some_pair] at h
    rw [← h.1]
    exact .quiet
  | some g =>
    dsimp only at h
    split_ifs at h with hg hok
    · rw [some_pair] at h
      rw [← h.1]
      have hv := view_setProc { k with pgLive := update k.pgLive g true } i
        { k.proc i with pgdir := g, sz := sz, tf := { (k.proc i).tf with eip := entry, esp := sp } }
      have hfree : ∀ k : Kernel, ∀ g, (freevm k g).view = k.view.setPg g false := fun _ _ => rfl
      rw [hfree, hv]
      exact .exec (running_live hi) hold (by simpa using (not_or.mp hg).2)
    · rw [some_pair] at h
      rw [← h.1, freevm_fresh _ _ (by simpa using (not_or.mp hg).2)]
      exact .quiet

theorem idle_of_user (h : k.pc i = .user) : k.view.hold i = none := by
  rw [view_hold, h]
  rfl

theorem step_move {a : Act} (h : step k a = some (k', es)) : Move k.view a k'.view := by
  cases stepped_of_step h with
  | dispatch hi =>
    rw [view_setProc_alike _ _ _ (by simp only [Proc.node, phase, hi])]
    exact .quiet
  | @yield i hi =>
    have hs : (k.proc i).state = .RUNNING := by simpa [running] using hi
    rw [setState, view_setProc_alike _ _ _ (by simp only [Proc.node, phase, hs])]
    exact .quiet
  | @sleep i c hi =>
    have hs : (k.proc i).state = .RUNNING := by simpa [running] using hi.1
    rw [view_setProc_alike _ _ _ (by simp only [Proc.node, phase, hs])]
    exact .quiet
  | wakeup =>
    rw [view_table k _ _ fun q => wakeup1_node k.proc _ q]
    exact .quiet
  | @sbrk i sz =>
    rw [view_setProc_alike k i { k.proc i with sz := sz } rfl]
    exact .quiet
  | @kill i pid => exact kill_view k i pid ▸ .quiet
  | forkNone hi hk =>
    rcases allocproc_none hk with rfl | ⟨rfl, p, hp, hv⟩
    · exact .quiet
    · rw [hv]
      exact .forkNoStack (running_live hi.1) (idle_of_user hi.2) hp
  | fork hi hk =>
    obtain ⟨rfl, hp, hv⟩ := allocproc_some hk
    rw [view_setPc, hv]
    exact .fork (running_live hi.1) (idle_of_user hi.2) hp
  | forkCopy hi hpc hcopy => exact forkCopy_move hi hpc hcopy
  | cloneFull => exact .quiet
  | cloneNone hi hn hk =>
    rcases allocproc_none hk with rfl | ⟨rfl, p, hp, hv⟩
    · exact .quiet
    · rw [hv]
      exact .cloneNoStack (running_live hi.1) (idle_of_user hi.2) hp hn
  | clone hi hn hk =>
    obtain ⟨rfl, hp, hv⟩ := allocproc_some hk
    rw [view_setPc, hv]
    exact .clone (running_live hi.1) (idle_of_user hi.2) hp hn
  | clonePid hi hpc =>
    rw [view_setPc, clonePid, view_setProc]
    exact .clonePid (running_live hi) (by rw [view_hold, hpc]; rfl)
  | cloneNext hi hpc =>
    rw [view_setPc]
    exact .cloneNext (running_live hi) (by rw [view_hold, hpc]; rfl)
  | cloneDone hi hpc => exact cloneDone_move hi hpc
  | @exit i hi =>
    cases ht : (k.proc i).isThread with
    | true =>
      rw [view_exit_thread k i ht]
      exact .exitThreads (running_live hi.1) (idle_of_user hi.2.1) hi.2.2 ht
    | false =>
      rw [view_exit_main k i ht]
      exact .exitMain (running_live hi.1) (idle_of_user hi.2.1) hi.2.2 ht
  | threadExit hi =>
    rw [view_exitThread]
    exact .threadExit (running_live hi.1) (idle_of_user hi.2.1) hi.2.2
  | @wait i hi =>
    have hidle : k.view.hold i = none := by
      rcases hi.2 with hpc | hpc <;> rw [view_hold, hpc] <;> rfl
    exact wait_move hi.1 hidle
  | @threadJoin i tid r hi =>
    rw [view_setPc_idle k i _ rfl (by rw [hi.2]; rfl)]
    exact .quiet
  | @lockTaken i tid r hi hpc =>
    rw [view_setPc_idle { k with lock := false } i (.join tid r) rfl (by rw [hpc]; rfl)]
    exact .quiet
  | lockBusy => exact .quiet
  | waitThread hi hpc => exact waitThread_move hi hpc
  | @lockRelease i hi =>
    rw [view_setPc_idle { k with lock := true } i .user rfl (by rw [hi.2]; rfl)]
    exact .quiet
  | exec hi hexec => exact exec_move hi.1 (idle_of_user hi.2) hexec

end Xv6Threads.ProcTable
