import Mathlib.Data.List.FinRange
import Xv6Threads.Param
import Xv6Threads.Loop

namespace Xv6Threads.ProcTable

open Function

abbrev Slot := Fin NPROC
abbrev Word := BitVec 32

inductive ProcState
  | UNUSED | EMBRYO | SLEEPING | RUNNABLE | RUNNING | ZOMBIE
  deriving DecidableEq, Repr

/-- A sleep channel: the address of a table slot, or any other address. -/
inductive Chan
  | slot (p : Slot)
  | other (c : ℕ)
  deriving DecidableEq

/-- The registers of `struct trapframe` that the calls below touch. What user code does to them is
left out. -/
structure Trapframe where
  eip : Word
  esp : Word
  ebp : Word
  eax : Word
  deriving DecidableEq

/-- `struct proc`. A page directory is named by its page; 0 is the null pointer. -/
structure Proc where
  sz : Word
  pgdir : ℕ
  kstack : Bool
  state : ProcState
  pid : ℤ
  parent : Option Slot
  tf : Trapframe
  chan : Option Chan
  killed : Bool
  ofile : Fin NOFILE → Option ℕ
  cwd : Option ℕ
  exitStatus : Word
  isThread : Bool
  tid : ℤ
  numOfThread : ℤ

abbrev Table := Slot → Proc

/-- Where a process stands in the kernel when another one runs. -/
inductive Pc
  | user
  /-- `fork` holds the embryo `np`. -/
  | fork (np : Slot)
  /-- `clone` holds the embryo `np`; nothing but `allocproc` is done. -/
  | cloneAlloc (np : Slot) (function arg stack : Word)
  /-- `np->pid = proc->pid` is done, `nextpid--` is not. -/
  | clonePid (np : Slot) (function arg stack : Word)
  /-- `nextpid--` is done, the search for the tid is not. -/
  | cloneNext (np : Slot) (function arg stack : Word)
  | wait
  /-- spinning in `lock_acquire` of `thread_join` -/
  | spin (tid : ℤ) (retval : Word)
  /-- in `wait_thread`, holding the lock of `thread.c` -/
  | join (tid : ℤ) (retval : Word)
  /-- between `wait_thread` and `lock_release` -/
  | release
  deriving DecidableEq

structure Kernel where
  proc : Table
  /-- an `int`, taken not to overflow -/
  nextpid : ℤ
  initproc : Slot
  /-- page directories allocated and not freed since -/
  pgLive : ℕ → Bool
  /-- `lock` of `thread.c`: `true` is 1, free -/
  lock : Bool
  pc : Slot → Pc

/-- What a step lets the outside see: the value a call returns, a word stored to user memory,
and each call of `freevm` with the kernel as it is at that moment. -/
inductive Event
  | ret (p : Slot) (v : ℤ)
  | store (p : Slot) (addr val : Word)
  | freevm (k : Kernel) (pgdir : ℕ)

/-- The steps of process `i` on one CPU: one critical section of `ptable.lock`, or unlocked work
between two of them. `exit` is the part under the lock; the files and the directory that the call
has closed before, sleeping, are cleared in the same step. The environment decides whether
`kalloc` finds a page, which page a new directory gets and whether the rest of a call succeeds. -/
inductive Act
  | dispatch (i : Slot)
  | yield (i : Slot)
  | sleep (i : Slot) (c : ℕ)
  | wakeup (c : ℕ)
  | sbrk (i : Slot) (sz : Word)
  | kill (i : Slot) (pid : ℤ)
  | fork (i : Slot) (kalloc : Bool)
  | forkCopy (i : Slot) (pg : Option ℕ) (ok : Bool)
  | clone (i : Slot) (function arg stack : Word) (kalloc : Bool)
  | clonePid (i : Slot)
  | cloneNext (i : Slot)
  | cloneDone (i : Slot)
  | exit (i : Slot)
  | threadExit (i : Slot) (retval : Word)
  | wait (i : Slot)
  | threadJoin (i : Slot) (tid : ℤ) (retval : Word)
  | lockAcquire (i : Slot)
  | waitThread (i : Slot)
  | lockRelease (i : Slot)
  | exec (i : Slot) (pg : Option ℕ) (ok : Bool) (sz entry sp : Word)

def slots : List Slot := List.finRange NPROC

def setProc (k : Kernel) (p : Slot) (x : Proc) : Kernel :=
  { k with proc := update k.proc p x }

def setState (k : Kernel) (p : Slot) (s : ProcState) : Kernel :=
  setProc k p { k.proc p with state := s }

def setPc (k : Kernel) (p : Slot) (c : Pc) : Kernel := { k with pc := update k.pc p c }

/-- `wakeup1(chan)`: every slot is looked at and changed by itself. -/
def wakeup1 (t : Table) (c : Option Chan) : Table := fun p =>
  if (t p).state = .SLEEPING ∧ (t p).chan = c then { t p with state := .RUNNABLE } else t p

def slotChan (p : Option Slot) : Option Chan := p.map .slot

/-- `allocproc`: `none` when there is no UNUSED slot or no page for the stack. A slot that
got no stack keeps its new pid; one that did starts at `forkret`. -/
def allocproc (k : Kernel) (kalloc : Bool) : Kernel × Option Slot :=
  match slots.find? fun p => (k.proc p).state = .UNUSED with
  | none => (k, none)
  | some p =>
    let q := { k.proc p with
      state := .EMBRYO, pid := k.nextpid, isThread := false, tid := 0, numOfThread := 0 }
    let k := { k with nextpid := k.nextpid + 1 }
    if kalloc then (setPc (setProc k p { q with kstack := true }) p .user, some p)
    else (setProc k p { q with kstack := false, state := .UNUSED }, none)

/-- The descriptors `fork` and `clone` leave in the new slot: only open ones are copied. -/
def dupFiles (parent np : Proc) : Fin NOFILE → Option ℕ := fun fd =>
  match parent.ofile fd with
  | some f => some f
  | none => np.ofile fd

def freevm (k : Kernel) (pg : ℕ) : Kernel :=
  { k with pgLive := update k.pgLive pg false }

/-- The rest of `fork`: `pg` is the directory `copyuvm` allocated, `ok` whether it succeeded. -/
def forkCopy (k : Kernel) (i np : Slot) (pg : Option ℕ) (ok : Bool) :
    Option (Kernel × List Event) :=
  let fail (k : Kernel) : Kernel :=
    setPc (setProc k np { k.proc np with pgdir := 0, kstack := false, state := .UNUSED }) i .user
  match pg with
  | none => some (fail k, [.ret i (-1)])
  | some g =>
    if g = 0 ∨ k.pgLive g then none
    else
      let k := { k with pgLive := update k.pgLive g true }
      if ok then
        let p := k.proc i
        let n := k.proc np
        let n := { n with
          pgdir := g, sz := p.sz, parent := some i, tf := { p.tf with eax := 0 },
          isThread := p.isThread, ofile := dupFiles p n, cwd := p.cwd, state := .RUNNABLE }
        some (setPc (setProc k np n) i .user, [.ret i n.pid])
      else some (fail (freevm k g), [.freevm k g, .ret i (-1)])

/-- `clone` up to `allocproc`. -/
def clone (k : Kernel) (i : Slot) (function arg stack : Word) (kalloc : Bool) :
    Kernel × List Event :=
  if (k.proc i).numOfThread = 7 then (k, [.ret i (-1)])
  else
    match allocproc k kalloc with
    | (k, none) => (k, [.ret i (-1)])
    | (k, some np) => (setPc k i (.cloneAlloc np function arg stack), [])

/-- The unlocked assignments of `clone`, `np->pid = proc->pid` last. -/
def clonePid (k : Kernel) (i np : Slot) : Kernel :=
  let p := k.proc i
  let n := k.proc np
  setProc k np { n with
    pgdir := p.pgdir, sz := p.sz, parent := some i, isThread := true,
    tf := { p.tf with eax := 0 }, ofile := dupFiles p n, cwd := p.cwd, pid := p.pid }

/-- The first slot of the process that is not a thread, in any state. -/
def mainSlot (t : Table) (pid : ℤ) : Option Slot :=
  slots.find? fun p => (t p).pid = pid ∧ (t p).isThread = false

/-- The search for the tid, the two words below `stack`, and the switch to the scheduler. -/
def cloneDone (k : Kernel) (i np : Slot) (function arg stack : Word) : Kernel × List Event :=
  let (t, tid) := match mainSlot k.proc (k.proc i).pid with
    | some m =>
      let n := (k.proc m).numOfThread + 1
      (update k.proc m { k.proc m with numOfThread := n }, n)
    | none => (k.proc, (k.proc i).tid)
  let esp := stack - 4 - 4
  let n := t np
  let n := { n with tid := tid, tf := { n.tf with eip := function, esp := esp, ebp := esp } }
  let k := setState (setProc { k with proc := t } np { n with state := .RUNNABLE }) i .RUNNABLE
  (setPc k i .user, [.store i (stack - 4) arg, .store i esp 0xFFFFFFFF, .ret i tid])

/-- The loop of `exit` for a thread: everything with its pid becomes a zombie. -/
def exitThreads (t : Table) (pid : ℤ) : Table :=
  slots.foldl (fun t p =>
    if (t p).pid = pid ∧ (t p).isThread = false then
      wakeup1 (update t p { t p with state := .ZOMBIE }) (slotChan (t p).parent)
    else if (t p).pid = pid ∧ (t p).isThread then
      update t p { t p with parent := none, state := .ZOMBIE }
    else t) t

/-- Passes the children of `i` that satisfy `keep` to init and makes zombies of the others. -/
def reparent (t : Table) (init i : Slot) (keep : Proc → Bool) : Table :=
  slots.foldl (fun t p =>
    if (t p).parent = some i then
      if keep (t p) then
        let t := update t p { t p with parent := some init }
        if (t p).state = .ZOMBIE then wakeup1 t (some (.slot init)) else t
      else update t p { t p with parent := none, state := .ZOMBIE }
    else t) t

/-- `exit` under `ptable.lock`, with the files and the directory already given up. -/
def exit (k : Kernel) (i : Slot) : Kernel :=
  let p := { k.proc i with ofile := fun _ => none, cwd := none }
  let t := wakeup1 (update k.proc i p) (slotChan p.parent)
  let t :=
    if p.isThread then exitThreads t p.pid
    else reparent t k.initproc i fun q => q.pgdir != p.pgdir
  setPc (setState { k with proc := t } i .ZOMBIE) i .user

def exitThread (k : Kernel) (i : Slot) (retval : Word) : Kernel :=
  let p := { k.proc i with exitStatus := retval }
  let t := wakeup1 (update k.proc i p) (slotChan p.parent)
  let t := reparent t k.initproc i fun _ => true
  setPc (setState { k with proc := t } i .ZOMBIE) i .user

def sleepSelf (k : Kernel) (i : Slot) : Kernel :=
  setProc k i { k.proc i with chan := some (.slot i), state := .SLEEPING }

/-- One turn of the loop of `wait`. -/
def wait (k : Kernel) (i : Slot) : Kernel × List Event :=
  match slots.find? fun p => (k.proc p).parent = some i ∧ (k.proc p).state = .ZOMBIE with
  | some p =>
    let z := k.proc p
    let k' := setProc (freevm k z.pgdir) p { z with
      kstack := false, state := .UNUSED, pid := 0, parent := none, killed := false }
    (setPc k' i .user, [.freevm k z.pgdir, .ret i z.pid])
  | none =>
    if (slots.all fun p => (k.proc p).parent ≠ some i) ∨ (k.proc i).killed then
      (setPc k i .user, [.ret i (-1)])
    else (setPc (sleepSelf k i) i .wait, [])

/-- What `thread_join` makes of the result of `wait_thread`: it goes on to `lock_release` only
when the result is not negative. -/
def joinReturn (k : Kernel) (i : Slot) (r : ℤ) : Kernel × List Event :=
  if r < 0 then (setPc k i .user, [.ret i (-1)]) else (setPc k i .release, [])

/-- One turn of the loop of `wait_thread`. -/
def waitThread (k : Kernel) (i : Slot) (tid : ℤ) (retval : Word) : Kernel × List Event :=
  let mine (p : Slot) : Bool :=
    (k.proc p).parent = some i ∧ (k.proc p).tid = tid ∧ (k.proc p).isThread
  match slots.find? fun p => mine p && (k.proc p).state = .ZOMBIE with
  | some p =>
    let k₁ := setProc k i { k.proc i with numOfThread := (k.proc i).numOfThread - 1 }
    let z := k₁.proc p
    let k₂ := setProc k₁ p { z with
      kstack := false, state := .UNUSED, pid := 0, parent := none, killed := false,
      isThread := false, exitStatus := 0 }
    let (k₃, es) := joinReturn k₂ i z.tid
    (k₃, .store i retval z.exitStatus :: es)
  | none =>
    if (slots.all fun p => !mine p) ∨ (k.proc i).killed then joinReturn k i (-1)
    else (sleepSelf k i, [])

/-- `exec`, cut where it commits: `pg` is the directory `setupkvm` returned and `ok` whether
the rest of the call succeeded. -/
def exec (k : Kernel) (i : Slot) (pg : Option ℕ) (ok : Bool) (sz entry sp : Word) :
    Option (Kernel × List Event) :=
  match pg with
  | none => some (k, [.ret i (-1)])
  | some g =>
    if g = 0 ∨ k.pgLive g then none
    else
      let k := { k with pgLive := update k.pgLive g true }
      if ok then
        let p := k.proc i
        let k := setProc k i { p with
          pgdir := g, sz := sz, tf := { p.tf with eip := entry, esp := sp } }
        some (freevm k p.pgdir, [.freevm k p.pgdir, .ret i 0])
      else some (freevm k g, [.freevm k g, .ret i (-1)])

def kill (k : Kernel) (i : Slot) (pid : ℤ) : Kernel × List Event :=
  match slots.find? fun p => (k.proc p).pid = pid with
  | some p =>
    let q := { k.proc p with killed := true }
    (setProc k p (if q.state = .SLEEPING then { q with state := .RUNNABLE } else q), [.ret i 0])
  | none => (k, [.ret i (-1)])

def running (k : Kernel) (i : Slot) : Bool := (k.proc i).state = .RUNNING

/-- One step. `none` when the process is not at that point, or when the call panics (init
must not exit). -/
def step (k : Kernel) : Act → Option (Kernel × List Event)
  | .dispatch i =>
    if (k.proc i).state = .RUNNABLE then
      some (setProc k i { k.proc i with state := .RUNNING, chan := none }, [])
    else none
  | .yield i => if running k i then some (setState k i .RUNNABLE, []) else none
  | .sleep i c =>
    if running k i ∧ k.pc i = .user then
      some (setProc k i { k.proc i with chan := some (.other c), state := .SLEEPING }, [])
    else none
  | .wakeup c => some ({ k with proc := wakeup1 k.proc (some (.other c)) }, [])
  | .sbrk i sz =>
    if running k i ∧ k.pc i = .user then some (setProc k i { k.proc i with sz := sz }, [])
    else none
  | .kill i pid => if running k i ∧ k.pc i = .user then some (kill k i pid) else none
  | .fork i kalloc =>
    if running k i ∧ k.pc i = .user then
      match allocproc k kalloc with
      | (k, none) => some (k, [.ret i (-1)])
      | (k, some np) => some (setPc k i (.fork np), [])
    else none
  | .forkCopy i pg ok =>
    if running k i then
      match k.pc i with
      | .fork np => forkCopy k i np pg ok
      | _ => none
    else none
  | .clone i function arg stack kalloc =>
    if running k i ∧ k.pc i = .user then some (clone k i function arg stack kalloc) else none
  | .clonePid i =>
    if running k i then
      match k.pc i with
      | .cloneAlloc np f a s => some (setPc (clonePid k i np) i (.clonePid np f a s), [])
      | _ => none
    else none
  | .cloneNext i =>
    if running k i then
      match k.pc i with
      | .clonePid np f a s =>
        some (setPc { k with nextpid := k.nextpid - 1 } i (.cloneNext np f a s), [])
      | _ => none
    else none
  | .cloneDone i =>
    if running k i then
      match k.pc i with
      | .cloneNext np f a s => some (cloneDone k i np f a s)
      | _ => none
    else none
  | .exit i =>
    if running k i ∧ k.pc i = .user ∧ i ≠ k.initproc then some (exit k i, []) else none
  | .threadExit i retval =>
    if running k i ∧ k.pc i = .user ∧ i ≠ k.initproc then some (exitThread k i retval, [])
    else none
  | .wait i =>
    if running k i ∧ (k.pc i = .user ∨ k.pc i = .wait) then some (wait k i) else none
  | .threadJoin i tid retval =>
    if running k i ∧ k.pc i = .user then some (setPc k i (.spin tid retval), []) else none
  | .lockAcquire i =>
    if running k i then
      match k.pc i with
      | .spin tid retval =>
        if k.lock then some (setPc { k with lock := false } i (.join tid retval), [])
        else some (k, [])
      | _ => none
    else none
  | .waitThread i =>
    if running k i then
      match k.pc i with
      | .join tid retval => some (waitThread k i tid retval)
      | _ => none
    else none
  | .lockRelease i =>
    if running k i ∧ k.pc i = .release then some (setPc { k with lock := true } i .user, [.ret i 0])
    else none
  | .exec i pg ok sz entry sp =>
    if running k i ∧ k.pc i = .user then exec k i pg ok sz entry sp else none

def unused : Proc :=
  { sz := 0, pgdir := 0, kstack := false, state := .UNUSED, pid := 0, parent := none,
    tf := ⟨0, 0, 0, 0⟩, chan := none, killed := false, ofile := fun _ => none, cwd := none,
    exitStatus := 0, isThread := false, tid := 0, numOfThread := 0 }

/-- After `userinit`: the first slot is init, with its directory in page 1. -/
def boot : Kernel where
  proc := update (fun _ => unused) 0
    { unused with sz := 4096, pgdir := 1, kstack := true, state := .RUNNABLE, pid := 1,
                  tf := ⟨0, 4096, 0, 0⟩, cwd := some 0 }
  nextpid := 2
  initproc := 0
  pgLive := fun g => g == 1
  lock := true
  pc := fun _ => .user

/-- The kernels reached from boot by steps that satisfy `ok`. -/
abbrev Reachable (ok : Kernel → Act → Prop) : Kernel → Prop :=
  Reach (fun k => k = boot) ok fun k a k' => ∃ es, step k a = some (k', es)

def exec1 (k : Kernel) (a : Act) : Option Kernel := (step k a).map Prod.fst

theorem exists_reachable {ok : Kernel → Act → Prop} (okb : Kernel → Act → Bool)
    (hok : ∀ k a, okb k a = true → ok k a) (p : Kernel → Bool) (as : List Act)
    (h : (execs okb exec1 boot as).any p = true) : ∃ k, Reachable ok k ∧ p k = true := by
  have hboot : Reachable ok boot := .start rfl
  apply Reach.exists_of_execs okb exec1 p hok _ as hboot h
  intro k a k' hstep
  obtain ⟨⟨k₁, es⟩, hk, rfl⟩ := Option.map_eq_some_iff.mp hstep
  exact ⟨es, hk⟩

theorem exists_run (p : Kernel → Bool) (as : List Act)
    (h : (execs (fun _ _ => true) exec1 boot as).any p = true) :
    ∃ k, Reachable (fun _ _ => True) k ∧ p k = true :=
  exists_reachable (fun _ _ => true) (fun _ _ _ => trivial) p as h

/-- `fork` by `i`, undisturbed, with its directory in page `g`. -/
def forks (i : Slot) (g : ℕ) : List Act := [.fork i true, .forkCopy i (some g) true]

/-- `thread_create` by `i`, undisturbed. -/
def creates (i : Slot) : List Act :=
  [.clone i 0 0 4096 true, .clonePid i, .cloneNext i, .cloneDone i]

/-- init forks slot 1; slot 1 creates the thread in slot 2. -/
def oneThread : List Act := .dispatch 0 :: forks 0 2 ++ .yield 0 :: .dispatch 1 :: creates 1

end Xv6Threads.ProcTable
