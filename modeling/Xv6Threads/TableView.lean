import Xv6Threads.ProcTable

namespace Xv6Threads.ProcTable

open Function

inductive Phase
  | unused | embryo | live | zombie
  deriving DecidableEq

def ProcState.phase : ProcState → Phase
  | .UNUSED => .unused
  | .EMBRYO => .embryo
  | .SLEEPING | .RUNNABLE | .RUNNING => .live
  | .ZOMBIE => .zombie

structure Node where
  phase : Phase
  pgdir : ℕ
  pid : ℤ
  parent : Option Slot
  isThread : Bool
  tid : ℤ
  numOfThread : ℤ

def Proc.node (p : Proc) : Node :=
  ⟨p.state.phase, p.pgdir, p.pid, p.parent, p.isThread, p.tid, p.numOfThread⟩

/-- The child of a process that leaves: kept for init, or made a zombie without a parent. -/
def Node.passOn (n : Node) (init : Slot) (keep : Bool) : Node :=
  if keep then { n with parent := some init } else { n with parent := none, phase := .zombie }

/-- A slot whose process is ended by one of its threads: a thread loses its parent. -/
def Node.ended (n : Node) : Node :=
  if n.isThread then { n with parent := none, phase := .zombie } else { n with phase := .zombie }

section
variable (n : Node) (init : Slot) (keep : Bool)

@[simp] theorem Node.ended_phase : n.ended.phase = .zombie := by unfold ended; split_ifs <;> rfl
@[simp] theorem Node.ended_pgdir : n.ended.pgdir = n.pgdir := by unfold ended; split_ifs <;> rfl
@[simp] theorem Node.ended_pid : n.ended.pid = n.pid := by unfold ended; split_ifs <;> rfl
@[simp] theorem Node.ended_isThread : n.ended.isThread = n.isThread := by
  unfold ended; split_ifs <;> rfl
@[simp] theorem Node.ended_tid : n.ended.tid = n.tid := by unfold ended; split_ifs <;> rfl
@[simp] theorem Node.ended_numOfThread : n.ended.numOfThread = n.numOfThread := by
  unfold ended; split_ifs <;> rfl
theorem Node.ended_parent : n.ended.parent = if n.isThread then none else n.parent := by
  unfold ended; split_ifs <;> rfl

@[simp] theorem Node.passOn_pgdir : (n.passOn init keep).pgdir = n.pgdir := by cases keep <;> rfl
@[simp] theorem Node.passOn_pid : (n.passOn init keep).pid = n.pid := by cases keep <;> rfl
@[simp] theorem Node.passOn_isThread : (n.passOn init keep).isThread = n.isThread := by
  cases keep <;> rfl
@[simp] theorem Node.passOn_tid : (n.passOn init keep).tid = n.tid := by cases keep <;> rfl
@[simp] theorem Node.passOn_numOfThread : (n.passOn init keep).numOfThread = n.numOfThread := by
  cases keep <;> rfl
theorem Node.passOn_phase : (n.passOn init keep).phase = if keep then n.phase else .zombie := by
  cases keep <;> rfl
theorem Node.passOn_parent : (n.passOn init keep).parent = if keep then some init else none := by
  cases keep <;> rfl

end

/-- How far the creation of a slot has come: held by `fork`, or by `clone` with only
`allocproc` done, with the pid assigned, with `nextpid` stepped back. -/
inductive Stage
  | fork | alloc | named | counted
  deriving DecidableEq

def Pc.hold : Pc → Option (Stage × Slot)
  | .fork np => some (.fork, np)
  | .cloneAlloc np _ _ _ => some (.alloc, np)
  | .clonePid np _ _ _ => some (.named, np)
  | .cloneNext np _ _ _ => some (.counted, np)
  | .user | .wait | .spin _ _ | .join _ _ | .release => none

@[ext]
structure View where
  node : Slot → Node
  nextpid : ℤ
  init : Slot
  pgLive : ℕ → Bool
  /-- the slot a process is creating -/
  hold : Slot → Option (Stage × Slot)

def Kernel.view (k : Kernel) : View :=
  ⟨fun p => (k.proc p).node, k.nextpid, k.initproc, k.pgLive, fun p => (k.pc p).hold⟩

namespace View

def setNode (v : View) (p : Slot) (n : Node) : View :=
  { v with node := update v.node p n }

def setHold (v : View) (p : Slot) (h : Option (Stage × Slot)) : View :=
  { v with hold := update v.hold p h }

def setPg (v : View) (g : ℕ) (b : Bool) : View :=
  { v with pgLive := update v.pgLive g b }

section
variable (v : View) (p : Slot) (n : Node) (h : Option (Stage × Slot)) (g : ℕ) (b : Bool)

@[simp] theorem setNode_node (q : Slot) :
    (v.setNode p n).node q = if q = p then n else v.node q := update_apply v.node p n q
@[simp] theorem setNode_hold : (v.setNode p n).hold = v.hold := rfl
@[simp] theorem setNode_pgLive : (v.setNode p n).pgLive = v.pgLive := rfl
@[simp] theorem setHold_hold (q : Slot) :
    (v.setHold p h).hold q = if q = p then h else v.hold q := update_apply v.hold p h q
@[simp] theorem setHold_node : (v.setHold p h).node = v.node := rfl
@[simp] theorem setHold_pgLive : (v.setHold p h).pgLive = v.pgLive := rfl
@[simp] theorem setPg_pgLive (x : ℕ) :
    (v.setPg g b).pgLive x = if x = g then b else v.pgLive x := update_apply v.pgLive g b x
@[simp] theorem setPg_node : (v.setPg g b).node = v.node := rfl
@[simp] theorem setPg_hold : (v.setPg g b).hold = v.hold := rfl
@[simp] theorem setPg_init : (v.setPg g b).init = v.init := rfl
@[simp] theorem setPg_nextpid : (v.setPg g b).nextpid = v.nextpid := rfl

theorem setNode_self (hn : n = v.node p) : v.setNode p n = v := by
  subst hn
  exact View.ext (update_eq_self p v.node) rfl rfl rfl rfl

theorem setHold_self (hh : h = v.hold p) : v.setHold p h = v := by
  subst hh
  exact View.ext rfl rfl rfl rfl (update_eq_self p v.hold)

end

/-- A fresh slot: the next pid, not a thread, no threads of its own. -/
def fresh (v : View) (p : Slot) (s : Phase) : View :=
  { v.setNode p { v.node p with
      phase := s, pid := v.nextpid, isThread := false, tid := 0, numOfThread := 0 } with
    nextpid := v.nextpid + 1 }

section
variable (v : View) (p : Slot) (s : Phase)

theorem fresh_node_self : (v.fresh p s).node p = { v.node p with
    phase := s, pid := v.nextpid, isThread := false, tid := 0, numOfThread := 0 } :=
  update_self _ _ _

theorem fresh_node_of_ne {q : Slot} (hq : q ≠ p) : (v.fresh p s).node q = v.node q :=
  update_of_ne hq _ _

@[simp] theorem fresh_hold : (v.fresh p s).hold = v.hold := rfl
@[simp] theorem fresh_init : (v.fresh p s).init = v.init := rfl
@[simp] theorem fresh_pgLive : (v.fresh p s).pgLive = v.pgLive := rfl
@[simp] theorem fresh_nextpid : (v.fresh p s).nextpid = v.nextpid + 1 := rfl

end

def alloc (v : View) (i p : Slot) (s : Stage) : View :=
  ((v.fresh p .embryo).setHold p none).setHold i (some (s, p))

def forkFail (v : View) (i np : Slot) : View :=
  (v.setNode np { v.node np with pgdir := 0, phase := .unused }).setHold i none

def forkDone (v : View) (i np : Slot) (g : ℕ) : View :=
  ((v.setPg g true).setNode np { v.node np with
    phase := .live, pgdir := g, parent := some i, isThread := (v.node i).isThread }).setHold i none

def clonePid (v : View) (i np : Slot) : View :=
  (v.setNode np { v.node np with
    pgdir := (v.node i).pgdir, parent := some i, isThread := true, pid := (v.node i).pid }).setHold
    i (some (.named, np))

def cloneNext (v : View) (i np : Slot) : View :=
  { v with nextpid := v.nextpid - 1 }.setHold i (some (.counted, np))

/-- The new thread starts with the id `tid`. -/
def start (v : View) (i np : Slot) (tid : ℤ) : View :=
  (v.setNode np { v.node np with phase := .live, tid := tid }).setHold i none

def count (v : View) (m : Slot) (n : ℤ) : View :=
  v.setNode m { v.node m with numOfThread := n }

section
variable (v : View) (m : Slot) (n : ℤ) (q : Slot)

theorem count_node : (v.count m n).node q =
    { v.node q with numOfThread := if q = m then n else (v.node q).numOfThread } := by
  by_cases hq : q = m
  · subst hq
    simp [count]
  · simp [count, hq]

@[simp] theorem count_phase : ((v.count m n).node q).phase = (v.node q).phase := by
  rw [count_node]
@[simp] theorem count_pgdir : ((v.count m n).node q).pgdir = (v.node q).pgdir := by
  rw [count_node]
@[simp] theorem count_pid : ((v.count m n).node q).pid = (v.node q).pid := by rw [count_node]
@[simp] theorem count_parent : ((v.count m n).node q).parent = (v.node q).parent := by
  rw [count_node]
@[simp] theorem count_isThread : ((v.count m n).node q).isThread = (v.node q).isThread := by
  rw [count_node]
@[simp] theorem count_tid : ((v.count m n).node q).tid = (v.node q).tid := by rw [count_node]

end

/-- The children of `i` that satisfy `keep` go to init, the others become zombies. -/
def reparent (v : View) (i : Slot) (keep : Node → Bool) : View :=
  { v with node := fun q =>
      if (v.node q).parent = some i then (v.node q).passOn v.init (keep (v.node q)) else v.node q }

def endAll (v : View) (pid : ℤ) : View :=
  { v with node := fun q => if (v.node q).pid = pid then (v.node q).ended else v.node q }

def die (v : View) (i : Slot) : View :=
  (v.setNode i { v.node i with phase := .zombie }).setHold i none

/-- The end of a thread's `exit`: its own slot is one of those with the pid. -/
theorem die_endAll_node (v : View) (i q : Slot) : ((v.endAll (v.node i).pid).die i).node q =
    if (v.node q).pid = (v.node i).pid then (v.node q).ended else v.node q := by
  by_cases hq : q = i
  · subst hq
    simp only [die, setHold_node, setNode_node, endAll, if_true, Node.ended]
    split_ifs <;> rfl
  · simp only [die, setHold_node, setNode_node, endAll, hq, if_false]

theorem die_reparent_node (v : View) (i : Slot) (keep : Node → Bool)
    (hself : (v.node i).parent ≠ some i) (q : Slot) : ((v.reparent i keep).die i).node q =
      if q = i then { v.node i with phase := .zombie }
      else if (v.node q).parent = some i then (v.node q).passOn v.init (keep (v.node q))
      else v.node q := by
  by_cases hq : q = i
  · subst hq
    simp only [die, setHold_node, setNode_node, reparent, if_true, if_neg hself]
  · simp only [die, setHold_node, setNode_node, reparent, hq, if_false]

def reap (v : View) (i z : Slot) : View :=
  ((v.setPg (v.node z).pgdir false).setNode z
    { v.node z with phase := .unused, pid := 0, parent := none }).setHold i none

def join (v : View) (i z : Slot) : View :=
  let v := v.count i ((v.node i).numOfThread - 1)
  (v.setNode z { v.node z with
    phase := .unused, pid := 0, parent := none, isThread := false }).setHold i none

theorem join_node_of_ne (v : View) (i z : Slot) {q : Slot} (hq : q ≠ z) : (v.join i z).node q =
    { v.node q with numOfThread := if q = i then (v.node i).numOfThread - 1 else
      (v.node q).numOfThread } := by
  simp only [join, setHold_node, setNode_node, hq, if_false]
  exact count_node v i _ q

def exec (v : View) (i : Slot) (g : ℕ) : View :=
  ((v.setPg g true).setNode i { v.node i with pgdir := g }).setPg (v.node i).pgdir false

theorem exec_node (v : View) (i : Slot) (g : ℕ) (q : Slot) :
    (v.exec i g).node q = { v.node q with pgdir := if q = i then g else (v.node q).pgdir } := by
  by_cases hq : q = i
  · subst hq
    simp [exec]
  · simp [exec, hq]

end View

def View.mainSlot (v : View) (pid : ℤ) : Option Slot :=
  slots.find? fun p => (v.node p).pid = pid ∧ (v.node p).isThread = false

def Act.starts : Act → Bool
  | .fork _ _ | .clone _ _ _ _ _ => true
  | _ => false

inductive Move (v : View) : Act → View → Prop
  | quiet {a : Act} : Move v a v
  | forkNoStack {i p : Slot} (hi : (v.node i).phase = .live) (hidle : v.hold i = none)
      (hp : (v.node p).phase = .unused) : Move v (.fork i false) (v.fresh p .unused)
  | fork {i p : Slot} (hi : (v.node i).phase = .live) (hidle : v.hold i = none)
      (hp : (v.node p).phase = .unused) : Move v (.fork i true) (v.alloc i p .fork)
  | forkFail {i np : Slot} {pg : Option ℕ} {ok : Bool} (hi : (v.node i).phase = .live)
      (hold : v.hold i = some (.fork, np)) : Move v (.forkCopy i pg ok) (v.forkFail i np)
  | forkDone {i np : Slot} {g : ℕ} (hi : (v.node i).phase = .live)
    (hold : v.hold i = some (.fork, np))
      (hg : v.pgLive g = false) : Move v (.forkCopy i (some g) true) (v.forkDone i np g)
  | cloneNoStack {i p : Slot} {f a s : Word} (hi : (v.node i).phase = .live)
      (hidle : v.hold i = none) (hp : (v.node p).phase = .unused)
      (hn : (v.node i).numOfThread ≠ 7) : Move v (.clone i f a s false) (v.fresh p .unused)
  | clone {i p : Slot} {f a s : Word} (hi : (v.node i).phase = .live) (hidle : v.hold i = none)
      (hp : (v.node p).phase = .unused) (hn : (v.node i).numOfThread ≠ 7) :
      Move v (.clone i f a s true) (v.alloc i p .alloc)
  | clonePid {i np : Slot} (hi : (v.node i).phase = .live) (hold : v.hold i = some (.alloc, np)) :
      Move v (.clonePid i) (v.clonePid i np)
  | cloneNext {i np : Slot} (hi : (v.node i).phase = .live) (hold : v.hold i = some (.named, np)) :
      Move v (.cloneNext i) (v.cloneNext i np)
  | cloneDone {i np m : Slot} (hi : (v.node i).phase = .live)
    (hold : v.hold i = some (.counted, np))
      (hm : v.mainSlot (v.node i).pid = some m) :
      Move v (.cloneDone i)
        ((v.count m ((v.node m).numOfThread + 1)).start i np ((v.node m).numOfThread + 1))
  | cloneLost {i np : Slot} (hi : (v.node i).phase = .live) (hold : v.hold i = some (.counted, np))
      (hm : v.mainSlot (v.node i).pid = none) :
      Move v (.cloneDone i) (v.start i np (v.node i).tid)
  | exitThreads {i : Slot} (hi : (v.node i).phase = .live) (hidle : v.hold i = none)
      (hinit : i ≠ v.init) (ht : (v.node i).isThread = true) :
      Move v (.exit i) ((v.endAll (v.node i).pid).die i)
  | exitMain {i : Slot} (hi : (v.node i).phase = .live) (hidle : v.hold i = none)
      (hinit : i ≠ v.init) (ht : (v.node i).isThread = false) :
      Move v (.exit i) ((v.reparent i fun n => n.pgdir != (v.node i).pgdir).die i)
  | threadExit {i : Slot} {r : Word} (hi : (v.node i).phase = .live) (hidle : v.hold i = none)
      (hinit : i ≠ v.init) : Move v (.threadExit i r) ((v.reparent i fun _ => true).die i)
  | reap {i z : Slot} (hi : (v.node i).phase = .live) (hidle : v.hold i = none)
      (hz : (v.node z).parent = some i) (hzombie : (v.node z).phase = .zombie) :
      Move v (.wait i) (v.reap i z)
  | join {i z : Slot} (hi : (v.node i).phase = .live) (hidle : v.hold i = none)
      (hz : (v.node z).parent = some i) (ht : (v.node z).isThread = true)
      (hzombie : (v.node z).phase = .zombie) : Move v (.waitThread i) (v.join i z)
  | exec {i : Slot} {g : ℕ} {ok : Bool} {sz entry sp : Word} (hi : (v.node i).phase = .live)
      (hidle : v.hold i = none) (hg : v.pgLive g = false) :
      Move v (.exec i (some g) ok sz entry sp) (v.exec i g)

end Xv6Threads.ProcTable
