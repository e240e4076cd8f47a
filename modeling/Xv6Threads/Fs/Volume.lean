import Mathlib.Data.Finset.Card
import Mathlib.Data.List.FinRange
import Xv6Threads.Bytes
import Xv6Threads.Param
import Xv6Threads.Wp

namespace Xv6Threads.Fs

open Bytes

abbrev Block := Buf BSIZE

structure Superblock where
  size : ℕ
  nblocks : ℕ
  ninodes : ℕ
  nlog : ℕ
  logstart : ℕ
  inodestart : ℕ
  bmapstart : ℕ
  deriving DecidableEq

abbrev T_DIR : ℕ := 1
abbrev T_FILE : ℕ := 2
abbrev T_DEV : ℕ := 3

/-- `struct dinode`, and the part of `struct inode` that copies it. Shorts are kept as the
numbers below 65536 that their two bytes stand for. -/
@[ext] structure Dinode where
  type : ℕ
  major : ℕ
  minor : ℕ
  nlink : ℕ
  size : ℕ
  addrs : Fin (NDIRECT + 1) → ℕ

structure Inode where
  inum : ℕ
  ref : ℤ
  busy : Bool
  valid : Bool
  d : Dinode

abbrev Ix := Fin NINODE

structure DevSw where
  read : Option (ℕ → ℤ × (ℕ → Byte))
  write : Option ((ℕ → Byte) → ℕ → ℤ)

/-- The file system for one process at a time and one device. Blocks are seen through the buffer
cache, so a `log_write` takes effect at once; `logged` are the blocks logged since `begin_op`. -/
structure Vol where
  blk : ℕ → Block
  sb : Superblock
  icache : Ix → Inode
  devsw : Fin NDEV → DevSw
  /-- blocks passed to `log_write` since `begin_op` -/
  logged : Finset ℕ
  /-- the same for the operations that have ended, the last one first -/
  ops : List (Finset ℕ)
  /-- `log.outstanding` -/
  outstanding : ℤ := 0
  /-- the first panic of `log_write` -/
  panicked : Option String := none

/-- A panic, or a sleep for a lock of the process itself. -/
inductive Stop
  | panic (msg : String)
  | sleep
  deriving DecidableEq

abbrev M := Prog Vol Stop

def panic {α : Type} (msg : String) : M α := throw (.panic msg)

def w32 (x : ℕ) : ℕ := x % 2 ^ 32

def readSuperblock (b : Block) : Superblock where
  size := b.field 0 4
  nblocks := b.field 4 4
  ninodes := b.field 8 4
  nlog := b.field 12 4
  logstart := b.field 16 4
  inodestart := b.field 20 4
  bmapstart := b.field 24 4

/-- The dinode at byte `off` of a block. -/
def readDinode (b : Block) (off : ℕ) : Dinode where
  type := b.field off 2
  major := b.field (off + 2) 2
  minor := b.field (off + 4) 2
  nlink := b.field (off + 6) 2
  size := b.field (off + 8) 4
  addrs i := b.field (off + 12 + 4 * i) 4

def writeDinode (b : Block) (off : ℕ) (d : Dinode) : Block :=
  let b := (b.setField off 2 d.type).setField (off + 2) 2 d.major
  let b := (b.setField (off + 4) 2 d.minor).setField (off + 6) 2 d.nlink
  let b := b.setField (off + 8) 4 d.size
  b.write (off + 12) (4 * (NDIRECT + 1)) fun i =>
    if h : i / 4 < NDIRECT + 1 then leBytes (d.addrs ⟨i / 4, h⟩) (i % 4) else 0

def iblock (sb : Superblock) (inum : ℕ) : ℕ := inum / IPB + sb.inodestart

/-- The byte of its block at which an inode begins. -/
def ioff (inum : ℕ) : ℕ := DINODESIZE * (inum % IPB)

def bblock (sb : Superblock) (b : ℕ) : ℕ := b / BPB + sb.bmapstart

def beginOp : M Unit := modify fun s =>
  { s with logged := ∅, outstanding := s.outstanding + 1 }

def endOp : M Unit := modify fun s =>
  { s with ops := s.logged :: s.ops, outstanding := s.outstanding - 1 }

/-- The two tests of `log_write`; `log.size` is as `mkfs` writes it. -/
def Vol.logPanic (s : Vol) : Option String :=
  if LOGSIZE ≤ s.logged.card ∨ nlog - 1 ≤ s.logged.card then some "too big a transaction"
  else if s.outstanding < 1 then some "log_write outside of trans"
  else none

/-- The buffer of block `b` is changed to `data` and logged. A panic is noted, and stops the
program that `stopping` runs. -/
def logWrite (b : ℕ) (data : Block) : M Unit := modify fun s =>
  { s with
    blk := fun x => if x = b then data else s.blk x
    logged := insert b s.logged
    panicked := s.panicked.or s.logPanic }

/-- A call as the kernel runs it, with the panics of `log_write`. -/
def stopping {α : Type} (c : M α) : M α := fun s =>
  (c s).bind fun r => r.2.panicked.elim (.ok r) fun msg => .error (.panic msg)

/-- Why a call has stopped. -/
def stopOf {α : Type} : Except Stop α → Option Stop
  | .ok _ => none
  | .error e => some e

theorem stop_eq {α : Type} {r : Except Stop α} {e : Stop} (h : stopOf r = some e) :
    r = .error e := by
  cases r with
  | ok a => cases h
  | error e' => exact congrArg Except.error (Option.some.inj h)

def bread (b : ℕ) : M Block := do
  let s ← get
  return s.blk b

def readsb : M Unit := modify fun s => { s with sb := readSuperblock (s.blk 1) }

def bzero (b : ℕ) : M Unit := logWrite b Buf.zero

/-- The two loops of `balloc` go through the bits of the blocks `0, 1, …` in order. -/
def balloc : M ℕ := do
  let s ← get
  match (List.range s.sb.size).find? fun b => !(s.blk (bblock s.sb b)).bit (b % BPB) with
  | some b => do
    logWrite (bblock s.sb b) ((s.blk (bblock s.sb b)).setBit (b % BPB))
    bzero b
    return b
  | none => panic "balloc: out of blocks"

def bfree (b : ℕ) : M Unit := do
  readsb
  let s ← get
  let bp := s.blk (bblock s.sb b)
  if bp.bit (b % BPB) then logWrite (bblock s.sb b) (bp.clearBit (b % BPB))
  else panic "freeing free block"

def setInode (e : Ix) (f : Inode → Inode) : M Unit := modify fun s =>
  { s with icache := fun x => if x = e then f (s.icache e) else s.icache x }

def inode (e : Ix) : M Inode := do
  let s ← get
  return s.icache e

def ixs : List Ix := List.finRange NINODE

def iget (inum : ℕ) : M Ix := do
  let s ← get
  match ixs.find? fun e => 0 < (s.icache e).ref ∧ (s.icache e).inum = inum with
  | some e => do
    setInode e fun ip => { ip with ref := ip.ref + 1 }
    return e
  | none =>
    match ixs.find? fun e => (s.icache e).ref = 0 with
    | some e => do
      setInode e fun ip => { ip with inum := inum, ref := 1, busy := false, valid := false }
      return e
    | none => panic "iget: no inodes"

def idup (e : Ix) : M Ix := do
  setInode e fun ip => { ip with ref := ip.ref + 1 }
  return e

def ialloc (type : ℕ) : M Ix := do
  let s ← get
  match (List.range' 1 (s.sb.ninodes - 1)).find? fun inum =>
      (readDinode (s.blk (iblock s.sb inum)) (ioff inum)).type = 0 with
  | some inum => do
    let b := (s.blk (iblock s.sb inum)).write (ioff inum) DINODESIZE fun _ => 0
    logWrite (iblock s.sb inum) (b.setField (ioff inum) 2 type)
    iget inum
  | none => panic "ialloc: no inodes"

def iupdate (e : Ix) : M Unit := do
  let s ← get
  let ip := s.icache e
  let b := iblock s.sb ip.inum
  logWrite b (writeDinode (s.blk b) (ioff ip.inum) ip.d)

/-- Nobody else runs, so a busy inode stays busy. -/
def ilock (e : Ix) : M Unit := do
  let ip ← inode e
  if ip.ref < 1 then panic "ilock"
  else if ip.busy then throw .sleep
  else
    setInode e fun ip => { ip with busy := true }
    if ip.valid then pure ()
    else
      let s ← get
      let d := readDinode (s.blk (iblock s.sb ip.inum)) (ioff ip.inum)
      setInode e fun ip => { ip with d := d, valid := true }
      if d.type = 0 then panic "ilock: no type" else pure ()

def iunlock (e : Ix) : M Unit := do
  let ip ← inode e
  if ip.busy = false ∨ ip.ref < 1 then panic "iunlock"
  else setInode e fun ip => { ip with busy := false }

def setD (e : Ix) (f : Dinode → Dinode) : M Unit := setInode e fun ip => { ip with d := f ip.d }

def Dinode.setAddr (d : Dinode) (i : Fin (NDIRECT + 1)) (b : ℕ) : Dinode :=
  { d with addrs := fun j => if j = i then b else d.addrs j }

/-- `ip->addrs[i]`, for which a block is allocated if it is 0. -/
def addrOf (e : Ix) (i : Fin (NDIRECT + 1)) : M ℕ := do
  let ip ← inode e
  if ip.d.addrs i ≠ 0 then return ip.d.addrs i
  else
    let b ← balloc
    setD e fun d => d.setAddr i b
    return b

/-- The same for entry `j` of the indirect block `ib`. -/
def entryOf (ib j : ℕ) : M ℕ := do
  let a ← bread ib
  if a.field (4 * j) 4 ≠ 0 then return a.field (4 * j) 4
  else
    let b ← balloc
    let a ← bread ib
    logWrite ib (a.setField (4 * j) 4 b)
    return b

/-- `bmap`: the block of the file that holds its `bn`th block, allocated if there is none. -/
def bmap (e : Ix) (bn : ℕ) : M ℕ :=
  if h : bn < NDIRECT then addrOf e ⟨bn, Nat.lt_succ_of_lt h⟩
  else if bn - NDIRECT < NINDIRECT then do
    let ib ← addrOf e (Fin.last NDIRECT)
    entryOf ib (bn - NDIRECT)
  else panic "bmap: out of range"

/-- One turn of the first loop of `itrunc`. -/
def truncDirect (e : Ix) (i : ℕ) : M Unit := do
  let ip ← inode e
  if h : i < NDIRECT then
    let i : Fin (NDIRECT + 1) := ⟨i, by omega⟩
    if ip.d.addrs i ≠ 0 then
      bfree (ip.d.addrs i)
      setD e fun d => d.setAddr i 0
    else pure ()
  else pure ()

/-- One turn of the second: the indirect block stays as it is. -/
def truncIndirect (ib j : ℕ) : M Unit := do
  let a ← bread ib
  if a.field (4 * j) 4 ≠ 0 then bfree (a.field (4 * j) 4) else pure ()

def truncRest (e : Ix) : M Unit := do
  let ip ← inode e
  let ib := ip.d.addrs (Fin.last NDIRECT)
  if ib ≠ 0 then
    upto (truncIndirect ib) NINDIRECT
    bfree ib
    setD e fun d => d.setAddr (Fin.last NDIRECT) 0
  else pure ()

def itrunc (e : Ix) : M Unit := do
  upto (truncDirect e) NDIRECT
  truncRest e
  setD e fun d => { d with size := 0 }
  iupdate e

/-- The first part of `iput`: the last reference to an inode without links is given up, so the
inode is freed. -/
def ifree (e : Ix) : M Unit := do
  let ip ← inode e
  if ip.ref = 1 ∧ ip.valid ∧ ip.d.nlink = 0 then
    if ip.busy then panic "iput busy"
    else
      setInode e fun ip => { ip with busy := true }
      itrunc e
      setD e fun d => { d with type := 0 }
      iupdate e
      setInode e fun ip => { ip with busy := false, valid := false }
  else pure ()

def iput (e : Ix) : M Unit := do
  ifree e
  setInode e fun ip => { ip with ref := ip.ref - 1 }

def iunlockput (e : Ix) : M Unit := do
  iunlock e
  iput e

def deviceOf (s : Vol) (d : Dinode) : Option DevSw :=
  if h : d.major < NDEV then some (s.devsw ⟨d.major, h⟩) else none

/-- How much of a block the next turn of a read or write loop takes. -/
def turn (n tot off : ℕ) : ℕ := min (n - tot) (BSIZE - off % BSIZE)

/-- The loop of `readi`. A turn takes at least one byte, so `n` turns are enough. -/
def readLoop (e : Ix) (n : ℕ) : ℕ → ℕ → ℕ → (ℕ → Byte) → M (ℕ → Byte)
  | 0, _, _, dst => pure dst
  | fuel + 1, tot, off, dst =>
    if tot < n then do
      let b ← bmap e (off / BSIZE)
      let data ← bread b
      let m := turn n tot off
      readLoop e n fuel (tot + m) (off + m) fun i =>
        if tot ≤ i ∧ i < tot + m then data.get (off % BSIZE + (i - tot)) else dst i
    else pure dst

def readi (e : Ix) (off n : ℕ) : M (ℤ × (ℕ → Byte)) := do
  let ip ← inode e
  if ip.d.type = T_DEV then
    let s ← get
    match (deviceOf s ip.d).bind DevSw.read with
    | none => return (-1, fun _ => 0)
    | some read => return read n
  else if ip.d.size < off ∨ w32 (off + n) < off then return (-1, fun _ => 0)
  else
    let n := if ip.d.size < w32 (off + n) then ip.d.size - off else n
    let dst ← readLoop e n n 0 off fun _ => 0
    return (n, dst)

def writeLoop (e : Ix) (src : ℕ → Byte) (n : ℕ) : ℕ → ℕ → ℕ → M ℕ
  | 0, _, off => pure off
  | fuel + 1, tot, off =>
    if tot < n then do
      let b ← bmap e (off / BSIZE)
      let data ← bread b
      let m := turn n tot off
      logWrite b (data.write (off % BSIZE) m fun i => src (tot + i))
      writeLoop e src n fuel (tot + m) (off + m)
    else pure off

/-- The end of `writei`: a file that has grown gets its new size. -/
def writeSize (e : Ix) (n off : ℕ) : M Unit := do
  let ip ← inode e
  if 0 < n ∧ ip.d.size < off then
    setD e fun d => { d with size := off }
    iupdate e
  else pure ()

def writei (e : Ix) (src : ℕ → Byte) (off n : ℕ) : M ℤ := do
  let ip ← inode e
  if ip.d.type = T_DEV then
    let s ← get
    match (deviceOf s ip.d).bind DevSw.write with
    | none => return -1
    | some write => return write src n
  else if ip.d.size < off ∨ w32 (off + n) < off then return -1
  else if MAXFILE * BSIZE < w32 (off + n) then return -1
  else
    let off ← writeLoop e src n n 0 off
    writeSize e n off
    return n

end Xv6Threads.Fs
