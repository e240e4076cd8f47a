import Mathlib.Algebra.BigOperators.Fin
import Mathlib.Algebra.Order.BigOperators.Group.Finset
import Xv6Threads.Atomic
import Xv6Threads.Param

namespace Xv6Threads.OpenFiles

open Atomic Function
open Code (perform)

abbrev Slot := Fin NPROC

/-- A `struct file *`. -/
abbrev FileIx := Fin NFILE

abbrev Ofile := Fin NOFILE → Option FileIx

inductive FileType
  | FD_NONE | FD_INODE
  | FD_PIPE (pipe : ℕ) (writable : Bool)
  deriving DecidableEq

structure File where
  ref : ℕ
  type : FileType

/-- `freed` counts how often the page of the pipe has been passed to `kfree`. -/
structure Pipe where
  readopen : Bool
  writeopen : Bool
  freed : ℕ

inductive ProcState
  | UNUSED | EMBRYO | RUNNABLE | ZOMBIE
  deriving DecidableEq

structure Proc where
  state : ProcState
  parent : Option Slot
  pgdir : ℕ
  ofile : Ofile

structure Table where
  file : FileIx → File
  /-- the pipes in the order in which they were made -/
  pipe : ℕ → Pipe
  npipe : ℕ
  proc : Slot → Proc
  /-- a call has the descriptors of the slot in hand -/
  held : Slot → Bool
  /-- the directory of the slot is allocated -/
  mapped : Slot → Bool

abbrev initproc : Slot := 0

/-- What `fileclose` finds under the lock; `last` is a copy of the file. -/
inductive Closed
  | bad | shared
  | last (type : FileType)

/-- What is done while `ftable.lock`, `ptable.lock` or the lock of a pipe is held. The descriptors
of a process in a call are read when the call begins and stored when it ends: nobody else looks at
them. -/
inductive Op
  | enter (i : Slot)
  | leave (i : Slot) (ofile : Ofile)
  /-- `namei` or `create`; whether there is an inode -/
  | lookup
  | iput
  | filealloc
  | filedup (f : FileIx)
  | fileclose (f : FileIx)
  /-- `f->type = FD_INODE` and what follows -/
  | setInode (f : FileIx)
  | setPipe (f : FileIx) (p : ℕ) (writable : Bool)
  /-- `kalloc` in `pipealloc`, with the initialisation of the pipe -/
  | newPipe
  | pipeclose (p : ℕ) (writable : Bool)
  | kfree (p : ℕ)
  | allocproc
  /-- the slot is given back when `fork` fails -/
  | unused (np : Slot) (ofile : Ofile)
  | kstack
  /-- `np->pgdir = copyuvm(..)` -/
  | copyuvm (np : Slot)
  | runnable (np i : Slot) (ofile : Ofile)
  | zombie (i : Slot) (ofile : Ofile)
  | reap (i : Slot)

abbrev Res : Op → Type
  | .enter _ => Ofile
  | .lookup | .filedup _ | .pipeclose _ _ | .kstack | .copyuvm _ => Bool
  | .filealloc => Option FileIx
  | .fileclose _ => Closed
  | .newPipe => Option ℕ
  | .allocproc => Option (Slot × Ofile)
  | _ => Unit

namespace Table

def setFile (s : Table) (f : FileIx) (x : File) : Table :=
  { s with file := update s.file f x }

def setProc (s : Table) (i : Slot) (x : Proc) (held : Bool) : Table :=
  { s with proc := update s.proc i x, held := update s.held i held }

def setPipe (s : Table) (p : ℕ) (x : Pipe) : Table :=
  { s with pipe := update s.pipe p x }

/-- The child `p` of a process `i` that exits. A child with the same directory is a thread. -/
def orphan (s : Table) (i : Slot) (p : Proc) : Proc :=
  if p.parent = some i then
    if p.pgdir ≠ (s.proc i).pgdir then { p with parent := some initproc }
    else { p with parent := none, state := .ZOMBIE }
  else p

end Table

def Pipe.isOpen (x : Pipe) (writable : Bool) : Bool := if writable then x.writeopen else x.readopen

def Pipe.shut (x : Pipe) (writable : Bool) : Pipe :=
  if writable then { x with writeopen := false } else { x with readopen := false }

/-- `x` decides whether a path is found, whether `kalloc` has a page and which one, and which
child `wait` takes. -/
def exec : (o : Op) → Option ℕ → Table → Option (Res o × Table)
  | .enter i, _, s =>
    if (s.proc i).state = .RUNNABLE ∧ s.held i = false then
      some ((s.proc i).ofile, s.setProc i (s.proc i) true)
    else none
  | .leave i ofile, _, s => some ((), s.setProc i { s.proc i with ofile := ofile } false)
  | .lookup, x, s => some (x.isSome, s)
  | .iput, _, s => some ((), s)
  | .filealloc, _, s =>
    match (List.finRange NFILE).find? fun f => (s.file f).ref = 0 with
    | none => some (none, s)
    | some f => some (some f, s.setFile f { s.file f with ref := 1 })
  | .filedup f, _, s =>
    if (s.file f).ref < 1 then some (false, s)
    else some (true, s.setFile f { s.file f with ref := (s.file f).ref + 1 })
  | .fileclose f, _, s =>
    if (s.file f).ref < 1 then some (.bad, s)
    else if 0 < (s.file f).ref - 1 then
      some (.shared, s.setFile f { s.file f with ref := (s.file f).ref - 1 })
    else some (.last (s.file f).type, s.setFile f ⟨0, .FD_NONE⟩)
  | .setInode f, _, s => some ((), s.setFile f { s.file f with type := .FD_INODE })
  | .setPipe f p writable, _, s =>
    some ((), s.setFile f { s.file f with type := .FD_PIPE p writable })
  | .newPipe, x, s =>
    match x with
    | none => some (none, s)
    | some _ => some (some s.npipe, { s.setPipe s.npipe ⟨true, true, 0⟩ with npipe := s.npipe + 1 })
  | .pipeclose p writable, _, s =>
    let q := (s.pipe p).shut writable
    some (!q.readopen && !q.writeopen, s.setPipe p q)
  | .kfree p, _, s => some ((), s.setPipe p { s.pipe p with freed := (s.pipe p).freed + 1 })
  | .allocproc, _, s =>
    match (List.finRange NPROC).find? fun p => (s.proc p).state = .UNUSED with
    | none => some (none, s)
    | some p =>
      some (some (p, (s.proc p).ofile), s.setProc p { s.proc p with state := .EMBRYO } true)
  | .unused np ofile, _, s =>
    some ((), s.setProc np { s.proc np with state := .UNUSED, ofile := ofile } false)
  | .kstack, x, s => some (x.isSome, s)
  | .copyuvm np, x, s =>
    match x with
    | none => some (false, s)
    | some g =>
      -- the page of a directory in use is not free
      if ∃ q, s.mapped q ∧ (s.proc q).pgdir = g then none
      else some (true, { s.setProc np { s.proc np with pgdir := g } (s.held np) with
        mapped := update s.mapped np true })
  | .runnable np i ofile, _, s =>
    some ((), s.setProc np
      { s.proc np with state := .RUNNABLE, parent := some i, ofile := ofile } false)
  | .zombie i ofile, _, s =>
    let s := { s with proc := fun p => s.orphan i (s.proc p) }
    some ((), s.setProc i { s.proc i with state := .ZOMBIE, ofile := ofile } false)
  | .reap i, x, s =>
    match x with
    -- no children, or the process has been killed
    | none => some ((), s)
    | some n =>
      if h : n < NPROC then
        let p : Slot := ⟨n, h⟩
        if (s.proc p).parent = some i ∧ (s.proc p).state = .ZOMBIE then
          some ((), { s.setProc p { s.proc p with state := .UNUSED, parent := none } (s.held p) with
            mapped := update s.mapped p false })
        else none
      else none

def ops : Ops Table (Option ℕ) := ⟨Op, Res, exec⟩

abbrev C := Code ops

def op (o : Op) : C (Res o) := perform (O := ops) o

def filedup (f : FileIx) : C Unit := do
  if ← op (.filedup f) then pure () else Code.panic "filedup"

def pipeclose (p : ℕ) (writable : Bool) : C Unit := do
  if ← op (.pipeclose p writable) then op (.kfree p) else pure ()

def fileclose (f : FileIx) : C Unit := do
  match ← op (.fileclose f) with
  | .bad => Code.panic "fileclose"
  | .shared => pure ()
  | .last (.FD_PIPE p writable) => pipeclose p writable
  | .last .FD_INODE => op .iput
  | .last .FD_NONE => pure ()

def pipealloc : C (Option (FileIx × FileIx)) := do
  match ← op .filealloc with
  | none => pure none
  | some f0 =>
    match ← op .filealloc with
    | none =>
      fileclose f0
      pure none
    | some f1 =>
      match ← op .newPipe with
      | none =>
        fileclose f0
        fileclose f1
        pure none
      | some p =>
        op (.setPipe f0 p false)
        op (.setPipe f1 p true)
        pure (some (f0, f1))

def argfd (ofile : Ofile) (fd : ℤ) : Option (Fin NOFILE × FileIx) :=
  if h : fd.toNat < NOFILE then
    if fd < 0 then none else (ofile ⟨fd.toNat, h⟩).map fun f => (⟨fd.toNat, h⟩, f)
  else none

/-- The descriptor and the descriptors after `proc->ofile[fd] = f`. -/
def fdalloc (ofile : Ofile) (f : FileIx) : Option (Fin NOFILE × Ofile) :=
  ((List.finRange NOFILE).find? fun fd => ofile fd = none).map fun fd =>
    (fd, update ofile fd (some f))

def sysOpen (ofile : Ofile) : C Ofile := do
  if ← op .lookup then
    match ← op .filealloc with
    | none =>
      op .iput
      pure ofile
    | some f =>
      match fdalloc ofile f with
      | none =>
        fileclose f
        op .iput
        pure ofile
      | some (_, ofile) =>
        op (.setInode f)
        pure ofile
  else pure ofile

def sysDup (ofile : Ofile) (fd : ℤ) : C Ofile :=
  match argfd ofile fd with
  | none => pure ofile
  | some (_, f) =>
    match fdalloc ofile f with
    | none => pure ofile
    | some (_, ofile) => do
      filedup f
      pure ofile

def sysClose (ofile : Ofile) (fd : ℤ) : C Ofile :=
  match argfd ofile fd with
  | none => pure ofile
  | some (fd, f) => do
    fileclose f
    pure (update ofile fd none)

def sysPipe (ofile : Ofile) : C Ofile := do
  match ← pipealloc with
  | none => pure ofile
  | some (rf, wf) =>
    match fdalloc ofile rf with
    | none =>
      fileclose rf
      fileclose wf
      pure ofile
    | some (fd0, ofile) =>
      match fdalloc ofile wf with
      | none =>
        fileclose rf
        fileclose wf
        pure (update ofile fd0 none)
      | some (_, ofile) => pure ofile

/-- One turn of the loop of `fork` over the descriptors. -/
def dupTurn (ofile nofile : Ofile) (fd : Fin NOFILE) : C Ofile :=
  match ofile fd with
  | none => pure nofile
  | some f => do
    filedup f
    pure (update nofile fd (some f))

def fork (i : Slot) (ofile : Ofile) : C Unit := do
  match ← op .allocproc with
  | none => pure ()
  | some (np, nofile) =>
    if ← op .kstack then
      if ← op (.copyuvm np) then
        let nofile ← (List.finRange NOFILE).foldlM (dupTurn ofile) nofile
        op (.runnable np i nofile)
      else op (.unused np nofile)
    else op (.unused np nofile)

/-- One turn of the loop of `exit`. -/
def closeTurn (ofile : Ofile) (fd : Fin NOFILE) : C Ofile :=
  match ofile fd with
  | none => pure ofile
  | some f => do
    fileclose f
    pure (update ofile fd none)

def exit (i : Slot) (ofile : Ofile) : C Unit :=
  if i = initproc then Code.panic "init exiting"
  else do
    let ofile ← (List.finRange NOFILE).foldlM closeTurn ofile
    op .iput
    op (.zombie i ofile)

inductive Call
  | sysOpen
  | sysDup (fd : ℤ)
  | sysClose (fd : ℤ)
  | sysPipe
  | fork | exit | wait

def body (i : Slot) (c : Call) : C Unit := do
  let ofile ← op (.enter i)
  match c with
  | .sysOpen =>
    let ofile ← sysOpen ofile
    op (.leave i ofile)
  | .sysDup fd =>
    let ofile ← sysDup ofile fd
    op (.leave i ofile)
  | .sysClose fd =>
    let ofile ← sysClose ofile fd
    op (.leave i ofile)
  | .sysPipe =>
    let ofile ← sysPipe ofile
    op (.leave i ofile)
  | .fork =>
    fork i ofile
    op (.leave i ofile)
  | .exit => exit i ofile
  | .wait =>
    op (.reap i)
    op (.leave i ofile)

abbrev Sys := Atomic.Sys ops Slot

abbrev Act := Atomic.Act Slot Call (Option ℕ)

def can (s : Table) (i : Slot) : Bool := (s.proc i).state = .RUNNABLE

def boot : Table where
  file _ := ⟨0, .FD_NONE⟩
  pipe _ := ⟨false, false, 0⟩
  npipe := 0
  proc i := ⟨if i = initproc then .RUNNABLE else .UNUSED, none, 0, fun _ => none⟩
  held _ := false
  mapped i := i = initproc

def start (s : Sys) : Prop := s.shared = boot ∧ ∀ t, s.code t = none

abbrev Reachable : Sys → Prop :=
  Reach start (fun _ (_ : Act) => True) fun s a s' => Atomic.step body can s a = some s'

end Xv6Threads.OpenFiles
