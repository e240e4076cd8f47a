import Xv6Threads.Vm
import Xv6Threads.Fs.Calls

namespace Xv6Threads.Fs

open Bytes
open Vm (PGSIZE)

abbrev ELF_MAGIC : ℕ := 0x464C457F
abbrev ELF_PROG_LOAD : ℕ := 1

/-- The little-endian number in the `k` bytes at `off`. -/
def fieldAt (b : ℕ → Byte) (off k : ℕ) : ℕ := leNat (fun i => b (off + i)) k

/-- The fields of `struct elfhdr` that `exec` reads. -/
structure Elfhdr where
  magic : ℕ
  entry : ℕ
  phoff : ℕ
  phnum : ℕ

def elfhdr (b : ℕ → Byte) : Elfhdr :=
  ⟨fieldAt b 0 4, fieldAt b 24 4, fieldAt b 28 4, fieldAt b 44 2⟩

abbrev ELFHDRSIZE : ℕ := 52

/-- The fields of `struct proghdr` that `exec` reads. -/
structure Proghdr where
  type : ℕ
  off : ℕ
  vaddr : ℕ
  filesz : ℕ
  memsz : ℕ

def proghdr (b : ℕ → Byte) : Proghdr :=
  ⟨fieldAt b 0 4, fieldAt b 4 4, fieldAt b 8 4, fieldAt b 16 4, fieldAt b 20 4⟩

abbrev PROGHDRSIZE : ℕ := 32

/-- An `int` compared as unsigned. -/
def asUint (r : ℤ) : ℕ := (r % 2 ^ 32).toNat

inductive FdType
  | FD_NONE | FD_PIPE | FD_INODE
  deriving DecidableEq

structure File where
  type : FdType
  ref : ℤ
  readable : Bool
  writable : Bool
  ip : Ix
  off : ℕ

/-- The calling process, and what it shares with the others. -/
structure Proc where
  vol : Vol
  file : Fin NFILE → File
  ofile : Fin NOFILE → Option (Fin NFILE)
  cwd : Ix

abbrev PM := Prog Proc Stop

def onVol {α : Type} (c : M α) : PM α := within Proc.vol (fun p v => { p with vol := v }) c

def setFile (f : Fin NFILE) (g : File → File) : PM Unit := modify fun p =>
  { p with file := fun x => if x = f then g (p.file f) else p.file x }

def filealloc : PM (Option (Fin NFILE)) := do
  let p ← get
  match (List.finRange NFILE).find? fun f => (p.file f).ref = 0 with
  | some f => do
    setFile f fun x => { x with ref := 1 }
    return some f
  | none => return none

def fdalloc (f : Fin NFILE) : PM (Option (Fin NOFILE)) := do
  let p ← get
  match (List.finRange NOFILE).find? fun fd => p.ofile fd = none with
  | some fd => do
    set { p with ofile := fun x => if x = fd then some f else p.ofile x }
    return some fd
  | none => return none

/-- `pipeclose` changes nothing of this state. -/
def fileclose (f : Fin NFILE) : PM Unit := do
  let p ← get
  let ff := p.file f
  if ff.ref < 1 then throw (.panic "fileclose")
  else if 0 < ff.ref - 1 then setFile f fun x => { x with ref := x.ref - 1 }
  else
    setFile f fun x => { x with ref := 0, type := .FD_NONE }
    match ff.type with
    | .FD_INODE => do
      onVol beginOp
      onVol (iput ff.ip)
      onVol endOp
    | .FD_PIPE | .FD_NONE => pure ()

abbrev O_RDONLY : ℕ := 0x000
abbrev O_WRONLY : ℕ := 0x001
abbrev O_RDWR : ℕ := 0x002
abbrev O_CREATE : ℕ := 0x200

/-- The inode that `open` is about, locked. -/
def openInode (cwd : Ix) (path : Path) (omode : ℕ) : M (Option Ix) :=
  if omode &&& O_CREATE ≠ 0 then create cwd path T_FILE 0 0
  else do
    match ← namei cwd path with
    | none => return none
    | some ip => do
      ilock ip
      let i ← inode ip
      if i.d.type = T_DIR ∧ omode ≠ O_RDONLY then
        iunlockput ip
        return none
      else return some ip

def openFail (ip : Ix) : M ℤ := do
  iunlockput ip
  endOp
  return -1

def sysOpen (path : Option Path) (omode : Option ℕ) : PM ℤ := do
  match path, omode with
  | some path, some omode => do
    let p ← get
    onVol beginOp
    match ← onVol (openInode p.cwd path omode) with
    | none => do
      onVol endOp
      return -1
    | some ip => do
      match ← filealloc with
      | none => onVol (openFail ip)
      | some f => do
        match ← fdalloc f with
        | none => do
          fileclose f
          onVol (openFail ip)
        | some fd => do
          onVol (iunlock ip)
          onVol endOp
          setFile f fun x =>
            { x with
              type := .FD_INODE
              ip := ip
              off := 0
              readable := omode &&& O_WRONLY = 0
              writable := omode &&& O_WRONLY ≠ 0 ∨ omode &&& O_RDWR ≠ 0 }
          return fd
  | _, _ => return -1

def chdirInode (cwd : Ix) (path : Path) : M (Option Ix) := do
  match ← namei cwd path with
  | none => return none
  | some ip => do
    ilock ip
    let i ← inode ip
    if i.d.type ≠ T_DIR then
      iunlockput ip
      return none
    else
      iunlock ip
      return some ip

def sysChdir (path : Option Path) : PM ℤ := do
  let p ← get
  onVol beginOp
  match path with
  | none => do
    onVol endOp
    return -1
  | some path => do
    match ← onVol (chdirInode p.cwd path) with
    | none => do
      onVol endOp
      return -1
    | some ip => do
      onVol (iput p.cwd)
      onVol endOp
      modify fun p => { p with cwd := ip }
      return 0

/-- What the memory side of `exec` answers. -/
structure Memory where
  setupkvm : Bool
  /-- for the program header with that many to go: the new size, 0 on failure -/
  allocuvm : ℕ → ℕ → ℕ → ℕ
  /-- `walkpgdir` finds a page table for the address -/
  walkpgdir : ℕ → Bool
  /-- the stack and the arguments find room above a program of that size -/
  stack : ℕ → Bool
  /-- what is in `elf` before it is read -/
  elf : ℕ → Byte

def loadLoop (mem : Memory) (ip : Ix) (addr off sz : ℕ) : ℕ → ℕ → M ℤ
  | 0, _ => pure 0
  | fuel + 1, i =>
    if i < sz then
      if mem.walkpgdir (w32 (addr + i)) then do
        let n := if sz - i < PGSIZE then sz - i else PGSIZE
        let (r, _) ← readi ip (w32 (off + i)) n
        if r ≠ n then return -1
        else loadLoop mem ip addr off sz fuel (w32 (i + PGSIZE))
      else panic "loaduvm: address should exist"
    else pure 0

def loaduvm (mem : Memory) (ip : Ix) (addr off sz : ℕ) : M ℤ :=
  if addr % PGSIZE ≠ 0 then panic "loaduvm: addr must be page aligned"
  else loadLoop mem ip addr off sz (sz / PGSIZE + 1) 0

/-- The loop over the program headers, with `n` to go; `none` is `goto bad`. -/
def loadSegments (mem : Memory) (ip : Ix) : ℕ → ℕ → ℕ → M (Option ℕ)
  | 0, _, sz => pure (some sz)
  | n + 1, off, sz => do
    let (r, dst) ← readi ip off PROGHDRSIZE
    if r ≠ PROGHDRSIZE then return none
    else
      let ph := proghdr dst
      if ph.type ≠ ELF_PROG_LOAD then loadSegments mem ip n (w32 (off + PROGHDRSIZE)) sz
      else if ph.memsz < ph.filesz then return none
      else
        let sz := mem.allocuvm (n + 1) sz (w32 (ph.vaddr + ph.memsz))
        if sz = 0 then return none
        else if (← loaduvm mem ip ph.vaddr ph.off ph.filesz) < 0 then return none
        else loadSegments mem ip n (w32 (off + PROGHDRSIZE)) sz

/-- The part of `exec` that reads the file. A read that fails leaves `elf` as it is. -/
def loadProgram (mem : Memory) (ip : Ix) : M (Option ℕ) := do
  let (r, dst) ← readi ip 0 ELFHDRSIZE
  if asUint r < ELFHDRSIZE then return none
  else
    let elf := elfhdr fun i => if (i : ℤ) < r then dst i else mem.elf i
    if elf.magic ≠ ELF_MAGIC then return none
    else if mem.setupkvm then loadSegments mem ip elf.phnum elf.phoff 0
    else return none

def exec (cwd : Ix) (mem : Memory) (path : Path) : M ℤ := do
  beginOp
  match ← namei cwd path with
  | none => do
    endOp
    return -1
  | some ip => do
    ilock ip
    match ← loadProgram mem ip with
    | none => do
      iunlockput ip
      endOp
      return -1
    | some sz => do
      iunlockput ip
      endOp
      -- what is left of `exec` has no inode
      if mem.stack sz then return 0 else return -1

/-- An argument that cannot be fetched is `none`. -/
inductive Call
  | sysOpen (path : Option Path) (omode : Option ℕ)
  | sysLink (old new : Option Path)
  | sysUnlink (path : Option Path)
  | sysMkdir (path : Option Path)
  | sysMknod (path : Option Path) (numbers : Option (ℕ × ℕ))
  | sysChdir (path : Option Path)
  | exec (mem : Memory) (path : Path)

def onCwd (c : Ix → M ℤ) : PM ℤ := do
  let p ← get
  onVol (c p.cwd)

def Call.run : Call → PM ℤ
  | .sysOpen path omode => Fs.sysOpen path omode
  | .sysLink old new => onCwd fun cwd => Fs.sysLink cwd old new
  | .sysUnlink path => onCwd fun cwd => Fs.sysUnlink cwd path
  | .sysMkdir path => onCwd fun cwd => Fs.sysMkdir cwd path
  | .sysMknod path numbers => onCwd fun cwd => Fs.sysMknod cwd path numbers
  | .sysChdir path => Fs.sysChdir path
  | .exec mem path => onCwd fun cwd => Fs.exec cwd mem path

end Xv6Threads.Fs
