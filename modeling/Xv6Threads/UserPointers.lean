import Xv6Threads.Bytes
import Xv6Threads.Creation
import Xv6Threads.SlotSteps

namespace Xv6Threads.ProcTable

open Bytes Function Option List Prod Pc

variable {k k' : Kernel} {a : Act} {es : List Event}

/-- What a process has when it traps: the `esp` that goes into its trapframe, and its memory. -/
structure UserMem where
  esp : Word
  byte : Word → Byte

def UserMem.word (mem : UserMem) (addr : Word) : Word :=
  BitVec.ofNat 32 (leNat (fun j => mem.byte (addr + BitVec.ofNat 32 j)) 4)

def fetchint (p : Proc) (mem : UserMem) (addr : Word) : Option Word :=
  if p.sz ≤ addr ∨ p.sz < addr + 4 then none else some (mem.word addr)

/-- The `n`th argument, above the return address on the user stack. -/
def argint (p : Proc) (mem : UserMem) (n : ℕ) : Option Word :=
  fetchint p mem (mem.esp + 4 + 4 * BitVec.ofNat 32 n)

/-- `sys_thread_create`: the priority is fetched and not used. -/
def sysThreadCreate (k : Kernel) (i : Slot) (mem : UserMem) (kalloc : Bool) :
    Kernel × List Event :=
  let arg n := argint (k.proc i) mem n
  match arg 0, arg 1, arg 2, arg 3 with
  | some function, some _, some arg, some stack => clone k i function arg stack kalloc
  | _, _, _, _ => (k, [.ret i (-1)])

def sysClone (k : Kernel) (i : Slot) (mem : UserMem) (kalloc : Bool) : Kernel × List Event :=
  let arg n := argint (k.proc i) mem n
  match arg 0, arg 1, arg 2 with
  | some function, some arg, some stack => clone k i function arg stack kalloc
  | _, _, _ => (k, [.ret i (-1)])

/-- `sys_thread_join` up to `lock_acquire`. -/
def sysThreadJoin (k : Kernel) (i : Slot) (mem : UserMem) : Kernel × List Event :=
  let arg n := argint (k.proc i) mem n
  match arg 0, arg 1 with
  | some tid, some retval => (setPc k i (.spin tid.toInt retval), [])
  | _, _ => (k, [.ret i (-1)])

/-- System calls that take pointers, and every other step. -/
inductive SysAct
  | threadCreate (i : Slot) (mem : UserMem) (kalloc : Bool)
  | clone (i : Slot) (mem : UserMem) (kalloc : Bool)
  | threadJoin (i : Slot) (mem : UserMem)
  | other (a : Act)

/-- `clone` and `thread_join` are only entered through their system calls. -/
def Act.entry : Act → Bool
  | .clone _ _ _ _ _ | .threadJoin _ _ _ => true
  | _ => false

def sysStep (k : Kernel) : SysAct → Option (Kernel × List Event)
  | .threadCreate i mem kalloc =>
    if running k i ∧ k.pc i = .user then some (sysThreadCreate k i mem kalloc) else none
  | .clone i mem kalloc =>
    if running k i ∧ k.pc i = .user then some (sysClone k i mem kalloc) else none
  | .threadJoin i mem =>
    if running k i ∧ k.pc i = .user then some (sysThreadJoin k i mem) else none
  | .other a => if a.entry then none else step k a

/-- The kernels reached from boot by system calls and steps that satisfy `ok`. -/
abbrev SysReachable (ok : Kernel → SysAct → Prop) : Kernel → Prop :=
  Reach (fun k => k = boot) ok fun k a k' => ∃ es, sysStep k a = some (k', es)

/-- The `m` bytes at `addr` lie in `[0, sz)`. -/
def Within (p : Proc) (addr : Word) (m : ℕ) : Prop := addr.toNat + m ≤ p.sz.toNat

/-- The two words below `stack` lie in `[0, sz)`. -/
def StackWithin (p : Proc) (stack : Word) : Prop := 8 ≤ stack.toNat ∧ stack.toNat ≤ p.sz.toNat

/-- `clone` fails before it uses its arguments. -/
def CloneFails (k : Kernel) (i : Slot) (kalloc : Bool) : Prop :=
  (k.proc i).numOfThread = 7 ∨ (∀ p, (k.proc p).state ≠ .UNUSED) ∨ kalloc = false

/-- `stack` and `retval` point into the memory of the caller. -/
def PointersWithin (k : Kernel) : SysAct → Prop
  | .threadCreate i mem kalloc => ∀ stack ∈ argint (k.proc i) mem 3,
      CloneFails k i kalloc ∨ StackWithin (k.proc i) stack
  | .clone i mem kalloc => ∀ stack ∈ argint (k.proc i) mem 2,
      CloneFails k i kalloc ∨ StackWithin (k.proc i) stack
  | .threadJoin i mem => ∀ retval ∈ argint (k.proc i) mem 1, Within (k.proc i) retval 4
  | .other _ => True

def Act.PointersWithin (k : Kernel) : Act → Prop
  | .clone i _ _ stack kalloc => CloneFails k i kalloc ∨ StackWithin (k.proc i) stack
  | .threadJoin i _ retval => Within (k.proc i) retval 4
  | _ => True

theorem sysStep_cases {a : SysAct} (h : sysStep k a = some (k', es)) (hok : PointersWithin k a) :
    (k' = k ∧ ∃ i, es = [.ret i (-1)]) ∨ ∃ b, step k b = some (k', es) ∧ b.PointersWithin k := by
  cases a with simp only [sysStep] at h
  | threadCreate i mem kalloc =>
    split_ifs at h with hi
    simp only [some.injEq, sysThreadCreate] at h
    split at h
    · rename_i f pr arg s _ _ _ hs
      exact .inr ⟨.clone i f arg s kalloc, by simp only [step, if_pos hi, h], hok s hs⟩
    · simp only [mk.injEq] at h
      exact .inl ⟨h.1.symm, i, h.2.symm⟩
  | clone i mem kalloc =>
    split_ifs at h with hi
    simp only [some.injEq, sysClone] at h
    split at h
    · rename_i f arg s _ _ hs
      exact .inr ⟨.clone i f arg s kalloc, by simp only [step, if_pos hi, h], hok s hs⟩
    · simp only [mk.injEq] at h
      exact .inl ⟨h.1.symm, i, h.2.symm⟩
  | threadJoin i mem =>
    split_ifs at h with hi
    simp only [some.injEq, sysThreadJoin] at h
    split at h
    · rename_i tid r _ hr
      exact .inr ⟨.threadJoin i tid.toInt r, by simp only [step, if_pos hi, h], hok r hr⟩
    · simp only [mk.injEq] at h
      exact .inl ⟨h.1.symm, i, h.2.symm⟩
  | other b =>
    split_ifs at h with hb
    refine .inr ⟨b, h, ?_⟩
    cases b <;> trivial

section
variable (k : Kernel) (p : Slot) (x : Proc) (c : Pc) (g : ℕ) (s : ProcState)

@[simp] theorem setState_pc : (setState k p s).pc = k.pc := rfl
@[simp] theorem freevm_proc : (freevm k g).proc = k.proc := rfl
@[simp] theorem freevm_pc : (freevm k g).pc = k.pc := rfl
@[simp] theorem sleepSelf_pc : (sleepSelf k p).pc = k.pc := rfl

theorem update_sz (t : Table) (h : x.sz = (t p).sz) (q : Slot) :
    (update t p x q).sz = (t q).sz := by
  by_cases hq : q = p
  · rw [hq, update_self, h]
  · rw [update_of_ne hq]

theorem setProc_sz (h : x.sz = (k.proc p).sz) (q : Slot) :
    ((setProc k p x).proc q).sz = (k.proc q).sz := update_sz p x k.proc h q

theorem wakeup1_sz (t : Table) (c : Option Chan) (q : Slot) : (wakeup1 t c q).sz = (t q).sz := by
  unfold wakeup1
  split_ifs <;> rfl

end

theorem foldl_sz (body : Table → Slot → Table) (hbody : ∀ t p q, (body t p q).sz = (t q).sz)
    (t : Table) (l : List Slot) (q : Slot) : (l.foldl body t q).sz = (t q).sz := by
  induction l generalizing t with
  | nil => rfl
  | cons p l ih => rw [foldl_cons, ih, hbody]

theorem exitThreads_sz (t : Table) (pid : ℤ) (q : Slot) : (exitThreads t pid q).sz = (t q).sz := by
  apply foldl_sz
  intro t p q
  split_ifs
  · rw [wakeup1_sz, update_sz]
    rfl
  · rw [update_sz]
    rfl
  · rfl

theorem reparent_sz (t : Table) (init i : Slot) (keep : Proc → Bool) (q : Slot) :
    (reparent t init i keep q).sz = (t q).sz := by
  apply foldl_sz
  intro t p q
  split_ifs
  · dsimp only
    split_ifs
    · rw [wakeup1_sz, update_sz]
      rfl
    · rw [update_sz]
      rfl
  · rw [update_sz]
    rfl
  · rfl

/-- What a process is going to store to: below its `stack` argument, or through `retval`. -/
inductive Aim
  | stack (s : Word)
  | retval (r : Word)

def Pc.aim : Pc → Option Aim
  | .cloneAlloc _ _ _ s | .clonePid _ _ _ s | .cloneNext _ _ _ s => some (.stack s)
  | .spin _ r | .join _ r => some (.retval r)
  | .user | .fork _ | .wait | .release => none

def Aim.Within (p : Proc) : Aim → Prop
  | .stack s => StackWithin p s
  | .retval r => ProcTable.Within p r 4

/-- What one step does to the size and the aim of a slot. -/
inductive Drift (k k' : Kernel) (a : Act) (q : Slot) : Prop
  | keep (haim : (k'.pc q).aim = (k.pc q).aim) (hsz : (k'.proc q).sz = (k.proc q).sz)
  | drop (haim : (k'.pc q).aim = none)
  | fill (i : Slot) (s : Stage) (hi : k.view.Live i) (hs : k.view.hold i = some (s, q))
      (haim : (k'.pc q).aim = (k.pc q).aim)
  | take (x : Aim) (hi : running k q = true) (haim : (k'.pc q).aim = some x)
      (hsz : (k'.proc q).sz = (k.proc q).sz) (hx : a.PointersWithin k → x.Within (k.proc q))

theorem Drift.of_eq {q : Slot} (hpc : k'.pc q = k.pc q)
    (hsz : (k'.proc q).sz = (k.proc q).sz) : Drift k k' a q := .keep (by rw [hpc]) hsz

variable {kalloc : Bool}

theorem allocproc_pc {r : Option Slot} (h : allocproc k kalloc = (k', r)) (q : Slot) :
    (k'.proc q).sz = (k.proc q).sz ∧ k'.pc q = if r = some q then .user else k.pc q := by
  unfold allocproc at h
  split at h
  · simp only [mk.injEq] at h
    obtain ⟨rfl, rfl⟩ := h
    exact ⟨rfl, rfl⟩
  · rename_i p hp
    cases kalloc
    · simp only [Bool.false_eq_true, if_false, mk.injEq] at h
      obtain ⟨rfl, rfl⟩ := h
      refine ⟨?_, rfl⟩
      apply setProc_sz
      rfl
    · simp only [if_true, mk.injEq] at h
      obtain ⟨rfl, rfl⟩ := h
      refine ⟨?_, by simp [eq_comm]⟩
      apply setProc_sz
      rfl

/-- `clone` gets past `allocproc` only where it does not fail. -/
theorem allocproc_not_fails {i p : Slot} (h : allocproc k kalloc = (k', some p))
    (h7 : (k.proc i).numOfThread ≠ 7) : ¬CloneFails k i kalloc := by
  obtain ⟨hk, hp, -⟩ := allocproc_some h
  have hp : (k.proc p).state = .UNUSED := phase_unused.mp hp
  rintro (hf | hf | hf)
  · exact h7 hf
  · exact hf p hp
  · rw [hk] at hf
    cases hf

/-- The actor ends its call; nobody else's place changes, and no size does. -/
theorem Drift.finish (i : Slot) (hi : (k'.pc i).aim = none) (hpc : ∀ q ≠ i, k'.pc q = k.pc q)
    (hsz : ∀ q ≠ i, (k'.proc q).sz = (k.proc q).sz) (q : Slot) : Drift k k' a q := by
  by_cases hq : q = i
  · exact .drop (hq ▸ hi)
  · exact .of_eq (hpc q hq) (hsz q hq)

variable {pg : Option ℕ} {ok : Bool}

theorem forkCopy_drift {i np : Slot} (hi : running k i = true)
    (hpc : k.pc i = .fork np) (h : forkCopy k i np pg ok = some (k', es)) (q : Slot) :
    Drift k k' (.forkCopy i pg ok) q := by
  have hfill : k'.pc q = k.pc q → q = np → Drift k k' (.forkCopy i pg ok) q := by
    intro hq hnp
    refine .fill i .fork (running_live hi) ?_ (by rw [hq])
    rw [view_hold, hpc, hnp]
    rfl
  unfold forkCopy at h
  cases pg with
  | none =>
    rw [some_pair] at h
    rw [← h.1]
    apply Drift.finish i (by simp [aim])
    · intro q hq
      simp [hq]
    · intro q _
      apply setProc_sz
      rfl
  | some g =>
    dsimp only at h
    split_ifs at h with hg hok
    · rw [some_pair] at h
      by_cases hq : q = i
      · exact .drop (by rw [← h.1]; simp [hq, aim])
      · have hpcq : k'.pc q = k.pc q := by
          rw [← h.1]
          simp [hq]
        by_cases hnp : q = np
        · exact hfill hpcq hnp
        · refine .of_eq hpcq ?_
          rw [← h.1]
          simp [setProc, hnp]
    · rw [some_pair] at h
      rw [← h.1]
      apply Drift.finish i (by simp [aim])
      · intro q hq
        simp [hq]
      · intro q _
        apply setProc_sz
        rfl

theorem cloneDone_drift (k : Kernel) (i np : Slot) (f a s : Word) (q : Slot) :
    Drift k (cloneDone k i np f a s).1 (.cloneDone i) q := by
  unfold cloneDone
  cases mainSlot k.proc (k.proc i).pid with
  | none =>
    apply Drift.finish i (by simp [aim])
    · intro q hq
      simp [hq]
    · intro q _
      rw [setPc_proc, setState, setProc_sz, setProc_sz] <;> rfl
  | some m =>
    apply Drift.finish i (by simp [aim])
    · intro q hq
      simp [hq]
    · intro q _
      rw [setPc_proc, setState, setProc_sz, setProc_sz]
      · apply update_sz
        rfl
      · rfl
      · rfl

theorem leave_drift {k : Kernel} {i : Slot} {t : Table} {x : Proc} {c : Option Chan}
    (hx : x.sz = (k.proc i).sz) (ht : ∀ q, (t q).sz = (wakeup1 (update k.proc i x) c q).sz)
    (q : Slot) : Drift k (setPc (setState { k with proc := t } i .ZOMBIE) i .user) a q := by
  apply Drift.finish i (by simp [aim])
  · intro q hq
    simp [hq]
  · intro q _
    rw [setPc_proc, setState, setProc_sz, ht, wakeup1_sz, update_sz]
    · exact hx
    · rfl

theorem exit_drift (k : Kernel) (i q : Slot) : Drift k (exit k i) (.exit i) q := by
  unfold exit
  apply leave_drift (x := { k.proc i with ofile := fun _ => none, cwd := none })
    (c := slotChan (k.proc i).parent) rfl
  intro q
  split_ifs
  · exact exitThreads_sz _ _ q
  · exact reparent_sz _ _ _ _ q

theorem exitThread_drift (k : Kernel) (i : Slot) (r : Word) (q : Slot) :
    Drift k (exitThread k i r) (.threadExit i r) q := by
  unfold exitThread
  apply leave_drift (x := { k.proc i with exitStatus := r }) (c := slotChan (k.proc i).parent) rfl
  exact fun q => reparent_sz _ _ _ _ q

theorem wait_drift (k : Kernel) (i q : Slot) : Drift k (wait k i).1 (.wait i) q := by
  unfold wait
  split
  · apply Drift.finish i (by simp [aim])
    · intro q hq
      simp [hq]
    · intro q _
      apply setProc_sz
      rfl
  · split_ifs
    · apply Drift.finish i (by simp [aim])
      · intro q hq
        simp [hq]
      · exact fun q _ => rfl
    · apply Drift.finish i (by simp [aim])
      · intro q hq
        simp [hq]
      · intro q _
        apply setProc_sz
        rfl

theorem joinReturn_aim (k : Kernel) (i : Slot) (r : ℤ) :
    ((joinReturn k i r).1.pc i).aim = none := by
  unfold joinReturn
  split_ifs <;> simp [aim]

theorem joinReturn_pc (k : Kernel) (i : Slot) (r : ℤ) {q : Slot} (hq : q ≠ i) :
    (joinReturn k i r).1.pc q = k.pc q := by
  unfold joinReturn
  split_ifs <;> simp [hq]

theorem waitThread_drift (k : Kernel) (i : Slot) (tid : ℤ) (r : Word) (q : Slot) :
    Drift k (waitThread k i tid r).1 (.waitThread i) q := by
  unfold waitThread
  dsimp only
  split
  · apply Drift.finish i (joinReturn_aim _ i _)
    · intro q hq
      rw [joinReturn_pc _ i _ hq]
      rfl
    · intro q _
      rw [joinReturn_proc, setProc_sz, setProc_sz] <;> rfl
  · split_ifs
    · apply Drift.finish i (joinReturn_aim k i _)
      · exact fun q hq => joinReturn_pc k i _ hq
      · intro q _
        rw [joinReturn_proc]
    · refine .of_eq rfl ?_
      apply setProc_sz
      rfl

theorem exec_drift {i : Slot} {sz entry sp : Word} (hpc : k.pc i = .user)
    (h : exec k i pg ok sz entry sp = some (k', es))
    (q : Slot) : Drift k k' (.exec i pg ok sz entry sp) q := by
  unfold exec at h
  cases pg with
  | none =>
    rw [some_pair] at h
    rw [← h.1]
    exact .of_eq rfl rfl
  | some g =>
    dsimp only at h
    split_ifs at h with hg hok <;> rw [some_pair] at h <;>
      rw [← h.1]
    · apply Drift.finish i (by simp [hpc, aim])
      · exact fun q _ => rfl
      · intro q hq
        simp [setProc, hq]
    · exact .of_eq rfl rfl

theorem step_drift (h : step k a = some (k', es)) (q : Slot) : Drift k k' a q := by
  cases stepped_of_step h with
  | @dispatch i =>
    exact .of_eq rfl (setProc_sz k i { k.proc i with state := .RUNNING, chan := none } rfl q)
  | @yield i => exact .of_eq rfl (setProc_sz k i { k.proc i with state := .RUNNABLE } rfl q)
  | sleep =>
    refine .of_eq rfl ?_
    apply setProc_sz
    rfl
  | wakeup => exact .of_eq rfl (wakeup1_sz k.proc _ q)
  | @sbrk i sz hi =>
    apply Drift.finish i (by simp [hi.2, aim])
    · exact fun q _ => rfl
    · intro q hq
      simp [setProc, hq]
  | kill =>
    unfold kill
    split
    · refine .of_eq rfl ?_
      apply setProc_sz
      split_ifs <;> rfl
    · exact .of_eq rfl rfl
  | forkNone _ hk | cloneNone _ _ hk =>
    obtain ⟨hsz, hpc⟩ := allocproc_pc hk q
    exact .of_eq (by simpa using hpc) hsz
  | @fork i _ _ np _ hk =>
    obtain ⟨hsz, hpc⟩ := allocproc_pc hk q
    by_cases hq : q = i
    · exact .drop (by simp [hq, aim])
    · by_cases hnp : np = q
      · exact .drop (by simp [hq, hpc, hnp, aim])
      · exact .of_eq (by simp [hq, hpc, hnp]) hsz
  | forkCopy hi hpc hcopy => exact forkCopy_drift hi hpc hcopy q
  | @clone i _ _ s _ _ np hi hn hk =>
    obtain ⟨hsz, hpc⟩ := allocproc_pc hk q
    by_cases hq : q = i
    · subst hq
      refine .take (.stack s) hi.1 (by simp [aim]) hsz fun hok => ?_
      exact hok.resolve_left (allocproc_not_fails hk hn)
    · by_cases hnp : np = q
      · exact .drop (by simp [hq, hpc, hnp, aim])
      · exact .of_eq (by simp [hq, hpc, hnp]) hsz
  | @clonePid i np f a s hi hpc =>
    by_cases hq : q = i
    · subst hq
      refine .keep (by simp [hpc, aim]) ?_
      by_cases hnp : q = np <;> simp [clonePid, setProc, hnp]
    · by_cases hnp : q = np
      · refine .fill i .alloc (running_live hi) ?_ (by simp [hq, clonePid])
        rw [view_hold, hpc, hnp]
        rfl
      · exact .of_eq (by simp [hq, clonePid]) (by simp [clonePid, setProc, hnp])
  | @cloneNext i _ _ _ _ hi hpc | @lockTaken i _ _ hi hpc =>
    by_cases hq : q = i
    · subst hq
      exact .keep (by simp [hpc, aim]) rfl
    · exact .of_eq (by simp [hq]) rfl
  | @cloneDone i np f a s => exact cloneDone_drift k i np f a s q
  | @exit i => exact exit_drift k i q
  | @threadExit i r => exact exitThread_drift k i r q
  | @wait i => exact wait_drift k i q
  | @threadJoin i tid r hi =>
    by_cases hq : q = i
    · subst hq
      exact .take (.retval r) hi.1 (by simp [aim]) rfl id
    · exact .of_eq (by simp [hq]) rfl
  | cloneFull | lockBusy => exact .of_eq rfl rfl
  | @lockRelease i =>
    apply Drift.finish i (by simp [aim])
    · intro q hq
      simp [hq]
    · exact fun q _ => rfl
  | @waitThread i tid r => exact waitThread_drift k i tid r q
  | exec hi hexec => exact exec_drift hi.2 hexec q

/-- What every process aims at lies in its memory, and a slot that is being created aims at
nothing. -/
structure Aimed (k : Kernel) : Prop where
  sane : Sane k.view
  parked : ∀ i s np, k.view.Live i → k.view.hold i = some (s, np) → (k.pc np).aim = none
  within : ∀ q x, (k.pc q).aim = some x → x.Within (k.proc q)

theorem Aim.Within.congr {p p' : Proc} {x : Aim} (h : x.Within p) (hsz : p'.sz = p.sz) :
    x.Within p' := by
  cases x <;> simpa only [Aim.Within, StackWithin, ProcTable.Within, hsz] using h

theorem allocproc_hold {k k₁ : Kernel} {i p mp : Slot} {c : Pc} {t : Stage}
    (h : allocproc k kalloc = (k₁, some p)) (hi : running k i = true)
    (hc : ∀ u n, c.hold = some (u, n) → n = p) (q : Slot)
    (hs : ((setPc k₁ i c).pc q).hold = some (t, mp)) :
    (k.pc q).hold = some (t, mp) ∨ (setPc k₁ i c).pc mp = .user := by
  have hip : p ≠ i := by
    obtain ⟨-, hp, -⟩ := allocproc_some h
    intro hpi
    rw [hpi, running_live hi] at hp
    cases hp
  rw [setPc_pc] at hs
  split_ifs at hs with hq
  · right
    rw [hc t mp hs, setPc_pc, if_neg hip, (allocproc_pc h p).2, if_pos rfl]
  · rw [(allocproc_pc h q).2] at hs
    split_ifs at hs
    · cases hs
    · exact .inl hs

/-- A slot that somebody holds was held before, or starts in user mode. -/
theorem step_hold (hk : Sane k.view) (h : step k a = some (k', es)) {q mp : Slot} {t : Stage}
    (hq : k'.view.Live q) (hs : k'.view.hold q = some (t, mp)) :
    (k.view.Live q ∧ ∃ u, k.view.hold q = some (u, mp)) ∨ k'.pc mp = .user := by
  have hlive := hk.live_of_move (step_move h) hq hs
  by_cases ha : a.advances = false
  · exact .inl ⟨hlive, t, (hk.hold_of_move (step_move h) ha q t mp hq hs).2⟩
  suffices (∃ u, (k.pc q).hold = some (u, mp)) ∨ k'.pc mp = .user from
    this.imp_left fun hu => ⟨hlive, hu⟩
  rw [view_hold] at hs
  cases stepped_of_step h with
  | forkNone _ hk | cloneNone _ _ hk =>
    rw [(allocproc_pc hk q).2] at hs
    exact .inl ⟨t, by simpa using hs⟩
  | fork hi hk | clone hi _ hk =>
    refine (allocproc_hold hk hi.1 ?_ q hs).imp_left fun hu => ⟨t, hu⟩
    intro u n hu
    cases hu
    rfl
  | cloneFull => exact .inl ⟨t, hs⟩
  | clonePid _ hpc | cloneNext _ hpc =>
    rw [setPc_pc] at hs
    split_ifs at hs with hqi
    · cases hs
      exact .inl ⟨_, by rw [hqi, hpc]; rfl⟩
    · exact .inl ⟨t, hs⟩
  | _ => exact absurd rfl ha

theorem Aimed.next (hk : Aimed k)
    (h : step k a = some (k', es)) (hok : a.PointersWithin k) : Aimed k' where
  sane := hk.sane.move (step_move h)
  parked i s np hi hs := by
    rcases step_hold hk.sane h hi hs with ⟨hi, u, hs⟩ | huser
    · have hnone := hk.parked i u np hi hs
      rcases step_drift h np with ⟨haim, -⟩ | haim | ⟨-, -, -, -, haim⟩ | ⟨-, hrun, -, -, -⟩
      · exact haim.trans hnone
      · exact haim
      · exact haim.trans hnone
      · exact absurd rfl ((hk.sane.held i u np hi hs).ne_live (running_live hrun))
    · rw [huser]
      rfl
  within q x hx := by
    rcases step_drift h q with ⟨haim, hsz⟩ | haim | ⟨i, s, hi, hs, haim⟩ | ⟨y, -, haim, hsz, hy⟩
    · exact (hk.within q x (haim ▸ hx)).congr hsz
    · rw [haim] at hx
      cases hx
    · rw [haim, hk.parked i s q hi hs] at hx
      cases hx
    · rw [haim] at hx
      cases hx
      exact (hy hok).congr hsz

theorem sysReachable_aimed {k : Kernel} (h : SysReachable PointersWithin k) : Aimed k := by
  apply Reach.invariant (P := Aimed) _ _ h
  · intro k hk
    subst hk
    refine ⟨sane_boot, ?_, ?_⟩
    · intro i s np _ hs
      cases hs
    · intro q x hx
      cases hx
  · intro k a k' hk hok hstep
    obtain ⟨es, hstep⟩ := hstep
    rcases sysStep_cases hstep hok with ⟨rfl, -⟩ | ⟨b, hb, hbok⟩
    · exact hk
    · exact hk.next hb hbok

/-- All words stored through user pointers lie in the memory of the caller. -/
def StoresWithin (k : Kernel) (es : List Event) : Prop :=
  ∀ p addr val, Event.store p addr val ∈ es → Within (k.proc p) addr 4

/-- `clone` stores in the memory of its caller if and only if `stack` has two words below it. -/
theorem cloneDone_stores (k : Kernel) (i np : Slot) (f a s : Word) :
    StoresWithin k (cloneDone k i np f a s).2 ↔ StackWithin (k.proc i) s := by
  rw [StoresWithin, cloneDone_events]
  have hsz := (k.proc i).sz.isLt
  have hs := s.isLt
  have h4 : (4 : Word).toNat = 4 := rfl
  simp only [mem_cons, Event.store.injEq, not_mem_nil, or_false, reduceCtorEq]
  constructor
  · intro h
    have h₁ := h i _ _ (.inl ⟨rfl, rfl, rfl⟩)
    have h₂ := h i _ _ (.inr ⟨rfl, rfl, rfl⟩)
    simp only [Within, BitVec.toNat_sub, h4] at h₁ h₂
    simp only [StackWithin]
    omega
  · rintro ⟨h8, hle⟩ p addr val (⟨rfl, rfl, -⟩ | ⟨rfl, rfl, -⟩) <;>
      simp only [Within, BitVec.toNat_sub, h4] <;> omega

/-- A child that `wait_thread` returns at once. -/
def Joinable (k : Kernel) (i : Slot) (tid : ℤ) (p : Slot) : Prop :=
  (k.proc p).parent = some i ∧ (k.proc p).tid = tid ∧ (k.proc p).isThread = true ∧
    (k.proc p).state = .ZOMBIE

theorem joinReturn_stores (k k' : Kernel) (i : Slot) (r : ℤ) :
    StoresWithin k (joinReturn k' i r).2 := by
  intro p addr val h
  unfold joinReturn at h
  split_ifs at h <;> simp at h

/-- `wait_thread` stores only when it has found its thread. -/
theorem waitThread_stores (k : Kernel) (i : Slot) (tid : ℤ) (r : Word) :
    StoresWithin k (waitThread k i tid r).2 ↔ Within (k.proc i) r 4 ∨ ∀ p, ¬Joinable k i tid p := by
  unfold waitThread
  dsimp only
  split
  · rename_i p hp
    have hj : Joinable k i tid p := by
      simpa [Joinable, and_assoc] using List.find?_some hp
    constructor
    · intro h
      exact .inl (h i r _ mem_cons_self)
    · rintro (hr | hr) q addr val hq
      · rcases mem_cons.mp hq with hq | hq
        · cases hq
          exact hr
        · exact joinReturn_stores k _ i _ q addr val hq
      · exact absurd hj (hr p)
  · rename_i hnone
    have hnone : ∀ p, ¬Joinable k i tid p := by
      intro p hp
      apply List.find?_eq_none.mp hnone p (mem_finRange p)
      simpa [Joinable, and_assoc] using hp
    refine iff_of_true ?_ (.inr hnone)
    split_ifs
    · exact joinReturn_stores k k i _
    · intro q addr val hq
      cases hq

theorem noStores_nil (k : Kernel) : StoresWithin k [] := by
  intro p addr val h
  cases h

theorem noStores_ret (i : Slot) (r : ℤ) (k : Kernel) : StoresWithin k [.ret i r] := by
  intro p addr val h
  simp at h

theorem noStores_freevm (k' : Kernel) (g : ℕ) (i : Slot) (r : ℤ) (k : Kernel) :
    StoresWithin k [.freevm k' g, .ret i r] := by
  intro p addr val h
  simp at h

theorem wait_noStores (k : Kernel) (i : Slot) (k₀ : Kernel) : StoresWithin k₀ (wait k i).2 := by
  unfold wait
  split
  · exact noStores_freevm _ _ i _ _
  · split_ifs
    · exact noStores_ret i _ _
    · exact noStores_nil _

theorem forkCopy_noStores {i np : Slot} (h : forkCopy k i np pg ok = some (k', es)) (k₀ : Kernel) :
    StoresWithin k₀ es := by
  unfold forkCopy at h
  cases pg with
  | none =>
    cases h
    exact noStores_ret i _ _
  | some g =>
    dsimp only at h
    split_ifs at h <;> cases h
    · exact noStores_ret i _ _
    · exact noStores_freevm _ _ i _ _

theorem exec_noStores {i : Slot} {sz entry sp : Word}
    (h : exec k i pg ok sz entry sp = some (k', es)) (k₀ : Kernel) : StoresWithin k₀ es := by
  unfold exec at h
  cases pg with
  | none =>
    cases h
    exact noStores_ret i _ _
  | some g =>
    dsimp only at h
    split_ifs at h <;> cases h <;> exact noStores_freevm _ _ i _ _

theorem step_stores (h : step k a = some (k', es)) : (∀ k, StoresWithin k es) ∨
    (∃ i np f x s, k.pc i = .cloneNext np f x s ∧ es = (cloneDone k i np f x s).2) ∨
    ∃ i tid r, k.pc i = .join tid r ∧ es = (waitThread k i tid r).2 := by
  cases stepped_of_step h with
  | @cloneDone i np f x s _ hpc => exact .inr (.inl ⟨i, np, f, x, s, hpc, rfl⟩)
  | @waitThread i tid r _ hpc => exact .inr (.inr ⟨i, tid, r, hpc, rfl⟩)
  | wakeup | dispatch | yield | sleep | sbrk | exit | threadExit | threadJoin | clonePid | cloneNext
  | lockTaken | lockBusy | fork | clone => exact .inl noStores_nil
  | @forkNone i | @cloneFull i | @cloneNone i | @lockRelease i => exact .inl (noStores_ret i _)
  | @kill i pid =>
    unfold kill
    split <;> exact .inl (noStores_ret i _)
  | @wait i => exact .inl (wait_noStores k i)
  | forkCopy _ _ hcopy => exact .inl (forkCopy_noStores hcopy)
  | exec _ hexec => exact .inl (exec_noStores hexec)

theorem Aimed.stores (hk : Aimed k) (h : step k a = some (k', es)) : StoresWithin k es := by
  rcases step_stores h with hes | ⟨i, np, f, x, s, hpc, rfl⟩ | ⟨i, tid, r, hpc, rfl⟩
  · exact hes k
  · rw [cloneDone_stores]
    exact hk.within i (.stack s) (by rw [hpc]; rfl)
  · rw [waitThread_stores]
    exact .inl (hk.within i (.retval r) (by rw [hpc]; rfl))

/-- In every run whose system calls pass pointers into the caller's memory, every word the kernel
stores through them lies there; and where `clone` and `wait_thread` come to their stores, nothing
less will do. -/
theorem user_stores_within (k : Kernel) :
    (SysReachable PointersWithin k → ∀ a k' es, PointersWithin k a →
      sysStep k a = some (k', es) → StoresWithin k es) ∧
    (∀ i np f x s k' es, k.pc i = .cloneNext np f x s →
      step k (.cloneDone i) = some (k', es) → (StoresWithin k es ↔ StackWithin (k.proc i) s)) ∧
    ∀ i tid r k' es, k.pc i = .join tid r → step k (.waitThread i) = some (k', es) →
      (StoresWithin k es ↔ Within (k.proc i) r 4 ∨ ∀ p, ¬Joinable k i tid p) := by
  refine ⟨fun hk a k' es hok h => ?_, fun i np f x s k' es hpc h => ?_,
    fun i tid r k' es hpc h => ?_⟩
  · rcases sysStep_cases h hok with ⟨rfl, i, rfl⟩ | ⟨b, hb, -⟩
    · exact noStores_ret i _ _
    · exact (sysReachable_aimed hk).stores hb
  · simp only [step, hpc] at h
    split_ifs at h
    obtain rfl : (cloneDone k i np f x s).2 = es := congrArg snd (some.inj h)
    exact cloneDone_stores k i np f x s
  · simp only [step, hpc] at h
    split_ifs at h
    obtain rfl : (waitThread k i tid r).2 = es := congrArg snd (some.inj h)
    exact waitThread_stores k i tid r

def sysExec1 (k : Kernel) (a : SysAct) : Option Kernel := (sysStep k a).map fst

theorem exists_sysReachable {ok : Kernel → SysAct → Prop} (okb : Kernel → SysAct → Bool)
    (hok : ∀ k a, okb k a = true → ok k a) (p : Kernel → Bool) (as : List SysAct)
    (h : (execs okb sysExec1 boot as).any p = true) : ∃ k, SysReachable ok k ∧ p k = true := by
  have hboot : SysReachable ok boot := .start rfl
  apply Reach.exists_of_execs okb sysExec1 p hok _ as hboot h
  intro k a k' hstep
  obtain ⟨⟨k₁, es⟩, hk, rfl⟩ := map_eq_some_iff.mp hstep
  exact ⟨es, hk⟩

/-- `thread_create` by init with the given fourth argument, up to its stores. -/
def createWith (stack : Word) : List SysAct :=
  [.other (.dispatch 0),
    .threadCreate 0 ⟨4076, fun addr => if 4092 ≤ addr then BitVec.extractLsb' 0 8
      (stack >>> (8 * (addr - 4092).toNat)) else 0⟩ true,
    .other (.clonePid 0), .other (.cloneNext 0)]

/-- Nothing keeps a process from having a word of the kernel overwritten. -/
theorem clone_stores_in_kernel :
    ∃ k k' es, SysReachable (fun _ _ => True) k ∧
      sysStep k (.other (.cloneDone 0)) = some (k', es) ∧
      Event.store 0 0x8010FFFC 0 ∈ es ∧ (k.proc 0).sz = 4096 ∧ ¬StoresWithin k es := by
  obtain ⟨k, hk, hp⟩ := exists_sysReachable (fun _ _ => true) (fun _ _ _ => trivial)
    (fun k => running k 0 = true ∧ k.pc 0 = .cloneNext 1 0 0 0x80110000 ∧ (k.proc 0).sz = 4096)
    (createWith 0x80110000) (by decide +kernel)
  obtain ⟨hrun, hpc, hsz⟩ := of_decide_eq_true hp
  have hstep : sysStep k (.other (.cloneDone 0)) = some (cloneDone k 0 1 0 0 0x80110000) := by
    simp [sysStep, Act.entry, step, hrun, hpc]
  refine ⟨k, (cloneDone k 0 1 0 0 0x80110000).1, (cloneDone k 0 1 0 0 0x80110000).2, hk, hstep, ?_,
    hsz, ?_⟩
  · simp [cloneDone_events]
  · rw [cloneDone_stores, StackWithin, hsz]
    decide

instance (p : Proc) (addr : Word) (m : ℕ) : Decidable (Within p addr m) :=
  inferInstanceAs (Decidable (_ ≤ _))

instance (p : Proc) (stack : Word) : Decidable (StackWithin p stack) :=
  inferInstanceAs (Decidable (_ ∧ _))

instance (k : Kernel) (i : Slot) (kalloc : Bool) : Decidable (CloneFails k i kalloc) :=
  inferInstanceAs (Decidable (_ ∨ _))

-- without this one, all 2^32 words would be tried
instance {P : Word → Prop} [DecidablePred P] : (o : Option Word) → Decidable (∀ w ∈ o, P w)
  | none => isTrue (by simp)
  | some w => decidable_of_iff (P w) (by simp)

instance (k : Kernel) (a : SysAct) : Decidable (PointersWithin k a) := by
  cases a <;> dsimp only [PointersWithin] <;> infer_instance

/-- A stack at the end of the caller's memory. -/
theorem user_stores_within_page :
    ∃ k k' es, SysReachable PointersWithin k ∧
      sysStep k (.other (.cloneDone 0)) = some (k', es) ∧ Event.store 0 4092 0 ∈ es ∧
      StoresWithin k es := by
  obtain ⟨k, hk, hp⟩ := exists_sysReachable (fun k a => decide (PointersWithin k a))
    (fun _ _ => of_decide_eq_true)
    (fun k => running k 0 = true ∧ k.pc 0 = .cloneNext 1 0 0 4096) (createWith 4096)
    (by decide +kernel)
  obtain ⟨hrun, hpc⟩ := of_decide_eq_true hp
  have hstep : sysStep k (.other (.cloneDone 0)) = some (cloneDone k 0 1 0 0 4096) := by
    simp [sysStep, Act.entry, step, hrun, hpc]
  refine ⟨k, (cloneDone k 0 1 0 0 4096).1, (cloneDone k 0 1 0 0 4096).2, hk, hstep, ?_,
    (user_stores_within k).1 hk (.other (.cloneDone 0)) _ _ trivial hstep⟩
  simp [cloneDone_events]

end Xv6Threads.ProcTable
