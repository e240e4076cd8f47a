import Mathlib.Algebra.Order.BigOperators.Group.Finset
import Xv6Threads.Icache
import Xv6Threads.Locals

namespace Xv6Threads.Icache

open Function
open Atomic (Ops Code)
open Atomic.Code (perform)

variable {β : Type} [Rest β]

/-- What a process has: `hold` counts its references to an entry, `lock` says how far it is with
the lock of an entry, and `fresh` is the dinode that `ialloc` has marked and not yet looked up. -/
structure Client where
  hold : Ix → ℕ
  lock : Ix → Stage
  fresh : Option Key

namespace Client

def take (l : Client) (e : Ix) : Client :=
  { l with hold := update l.hold e (l.hold e + 1), fresh := none }

def give (l : Client) (e : Ix) : Client :=
  { l with hold := update l.hold e (l.hold e - 1) }

def setLock (l : Client) (e : Ix) (g : Stage) : Client :=
  { l with lock := update l.lock e g }

end Client

inductive Put
  | dropped | busy | free

inductive Op (β : Type)
  /-- `named`: the number is from a directory -/
  | iget (k : Key) (named : Bool)
  | idup (e : Ix)
  /-- `ip->ref < 1` -/
  | refless (e : Ix)
  | lock (e : Ix)
  | load (e : Ix)
  /-- `!(ip->flags & I_BUSY) || ip->ref < 1` -/
  | notLocked (e : Ix)
  | unlock (e : Ix)
  | iput (e : Ix)
  | itrunc (e : Ix)
  | clearType (e : Ix)
  | iupdate (e : Ix)
  | release (e : Ix)
  | change (e : Ix) (nlink : ℕ) (rest : β)
  /-- one turn of the loop of `ialloc` -/
  | ialloc (k : Key) (type : ℕ)

abbrev Res : Op β → Type
  | .iget _ _ => Option Ix
  | .refless _ | .notLocked _ | .load _ | .ialloc _ _ => Bool
  | .iput _ => Put
  | _ => Unit

/-- An allocated inode with a link, on disk or in the cache. -/
def Linked (s : Store β) (k : Key) : Prop :=
  ((s.disk k).type ≠ 0 ∧ (s.disk k).nlink ≠ 0) ∨
  ∃ e, 0 < (s.inode e).ref ∧ (s.inode e).key = k ∧ (s.inode e).valid = true ∧
    (s.inode e).d.type ≠ 0 ∧ (s.inode e).d.nlink ≠ 0

instance (s : Store β) (k : Key) : Decidable (Linked s k) := inferInstanceAs (Decidable (_ ∨ _))

def exec : (o : Op β) → Unit → Client × Store β → Option (Res o × (Client × Store β))
  | .iget k named, _, (l, s) =>
    if named = true ∧ ¬Linked s k then none
    else match s.iget k with
      | none => some (none, (l, s))
      | some (e, t) => some (some e, (l.take e, t))
  | .idup e, _, (l, s) => some ((), (l.take e, s.idup e))
  | .refless e, _, (l, s) => some ((s.inode e).ref < 1, (l, s))
  | .lock e, _, (l, s) =>
    if (s.inode e).busy then none else some ((), (l.setLock e .busy, s.lock e))
  | .load e, _, (l, s) =>
    let t := s.load e
    some ((s.inode e).valid || (t.inode e).d.type ≠ 0, (l.setLock e (loaded (t.inode e).d), t))
  | .notLocked e, _, (l, s) => some (!(s.inode e).busy || (s.inode e).ref < 1, (l, s))
  | .unlock e, _, (l, s) => some ((), (l.setLock e .unlocked, s.unlock e))
  | .iput e, _, (l, s) =>
    if s.unused e then
      if (s.inode e).busy then some (.busy, (l, s))
      else some (.free, (l.setLock e .freeing, s.lock e))
    else some (.dropped, (l.give e, s.drop e))
  | .itrunc e, _, (l, s) => some ((), (l, s.itrunc e))
  | .clearType e, _, (l, s) => some ((), (l.setLock e .cleared, s.clearType e))
  | .iupdate e, _, (l, s) => some ((), (l.setLock e (l.lock e).flushed, s.iupdate e))
  | .release e, _, (l, s) => some ((), ((l.setLock e .unlocked).give e, s.release e))
  | .change e nlink rest, _, (l, s) =>
    some ((), (l.setLock e (.locked true), s.change e nlink rest))
  | .ialloc k type, _, (l, s) =>
    if (s.disk k).type = 0 then some (true, ({ l with fresh := some k }, s.alloc k type))
    else some (false, (l, s))

def ops (β : Type) [Rest β] : Ops (Client × Store β) Unit := ⟨Op β, Res, exec⟩

abbrev C (β : Type) [Rest β] := Code (ops β)

def op (o : Op β) : C β (Res o) := perform (O := ops β) o

def iget (k : Key) (named : Bool) : C β Unit := do
  match ← op (.iget k named) with
  | none => Code.panic "iget: no inodes"
  | some _ => pure ()

def iallocLoop (dev type : ℕ) : ℕ → ℕ → C β Unit
  | 0, _ => Code.panic "ialloc: no inodes"
  | fuel + 1, inum => do
    if ← op (.ialloc (dev, inum) type) then iget (dev, inum) false
    else iallocLoop dev type fuel (inum + 1)

/-- `ninodes` is `sb.ninodes`. -/
def ialloc (ninodes dev type : ℕ) : C β Unit := iallocLoop dev type (ninodes - 1) 1

def ilock (e : Ix) : C β Unit := do
  if ← op (.refless e) then Code.panic "ilock"
  else
    op (.lock e)
    if ← op (.load e) then pure () else Code.panic "ilock: no type"

def iunlock (e : Ix) : C β Unit := do
  if ← op (.notLocked e) then Code.panic "iunlock" else op (.unlock e)

def itrunc (e : Ix) : C β Unit := do
  op (.itrunc e)
  op (.iupdate e)

def iput (e : Ix) : C β Unit := do
  match ← op (.iput e) with
  | .dropped => pure ()
  | .busy => Code.panic "iput busy"
  | .free =>
    itrunc e
    op (.clearType e)
    op (.iupdate e)
    op (.release e)

/-- A process uses only inodes it has a reference to, calls `iupdate` before it unlocks an inode
it has changed, and finds in directories only inodes with links. -/
inductive Call (β : Type)
  | iget (k : Key)
  | idup (e : Ix)
  | ilock (e : Ix)
  | iunlock (e : Ix)
  | iput (e : Ix)
  | ialloc (dev type : ℕ)
  | iupdate (e : Ix)
  /-- an assignment to fields of a locked inode -/
  | change (e : Ix) (nlink : ℕ) (rest : β)

def body (ninodes : ℕ) : Call β → C β Unit
  | .iget k => iget k true
  | .idup e => op (.idup e)
  | .ilock e => ilock e
  | .iunlock e => iunlock e
  | .iput e => iput e
  | .ialloc dev type => ialloc ninodes dev type
  | .iupdate e => op (.iupdate e)
  | .change e nlink rest => op (.change e nlink rest)

/-- What a process may call. A process that has an inode locked keeps a reference to it. -/
def may (l : Client) : Call β → Prop
  | .iget _ => True
  | .idup e | .ilock e => 0 < l.hold e
  | .iunlock e => l.lock e = .locked false
  | .iput e => 0 < l.hold e ∧ (l.lock e ≠ .unlocked → 1 < l.hold e)
  | .ialloc _ type => type ≠ 0
  | .iupdate e | .change e _ _ => ∃ b, l.lock e = .locked b

end Xv6Threads.Icache
