import Xv6Threads.Fs.Volume

namespace Xv6Threads.Fs

open Bytes

/-- The bytes before the NUL. -/
abbrev Path := List Byte

/-- Up to `DIRSIZ` bytes, none of them NUL. -/
abbrev Name := List Byte

/-- The name in a directory entry ends at its first NUL or after `DIRSIZ` bytes. -/
def direntName (de : ℕ → Byte) : Name :=
  ((List.range DIRSIZ).map fun i => de (2 + i)).takeWhile (· ≠ 0)

def direntInum (de : ℕ → Byte) : ℕ := leNat de 2

def dirent (name : Name) (inum : ℕ) : ℕ → Byte := fun i =>
  if i < 2 then leBytes inum i else name.getD (i - 2) 0

/-- The loop of `dirlookup`; `size / DIRENTSIZE + 1` turns are enough. -/
def lookupLoop (e : Ix) (name : Name) : ℕ → ℕ → M (Option (Ix × ℕ))
  | 0, _ => pure none
  | fuel + 1, off => do
    let dp ← inode e
    if off < dp.d.size then
      let (r, de) ← readi e off DIRENTSIZE
      if r ≠ DIRENTSIZE then panic "dirlink read"
      else if direntInum de = 0 then lookupLoop e name fuel (off + DIRENTSIZE)
      else if direntName de = name then
        let ip ← iget (direntInum de)
        return some (ip, off)
      else lookupLoop e name fuel (off + DIRENTSIZE)
    else pure none

def dirlookup (e : Ix) (name : Name) : M (Option (Ix × ℕ)) := do
  let dp ← inode e
  if dp.d.type ≠ T_DIR then panic "dirlookup not DIR"
  else lookupLoop e name (dp.d.size / DIRENTSIZE + 1) 0

/-- The offset of the first empty entry, or the end of the directory. -/
def emptyLoop (e : Ix) : ℕ → ℕ → M ℕ
  | 0, off => pure off
  | fuel + 1, off => do
    let dp ← inode e
    if off < dp.d.size then
      let (r, de) ← readi e off DIRENTSIZE
      if r ≠ DIRENTSIZE then panic "dirlink read"
      else if direntInum de = 0 then pure off
      else emptyLoop e fuel (off + DIRENTSIZE)
    else pure off

def dirlink (e : Ix) (name : Name) (inum : ℕ) : M ℤ := do
  match ← dirlookup e name with
  | some (ip, _) => do
    iput ip
    return -1
  | none => do
    let dp ← inode e
    let off ← emptyLoop e (dp.d.size / DIRENTSIZE + 1) 0
    let r ← writei e (dirent name inum) off DIRENTSIZE
    if r ≠ DIRENTSIZE then panic "dirlink" else return 0

def isdiremptyLoop (e : Ix) : ℕ → ℕ → M Bool
  | 0, _ => pure true
  | fuel + 1, off => do
    let dp ← inode e
    if off < dp.d.size then
      let (r, de) ← readi e off DIRENTSIZE
      if r ≠ DIRENTSIZE then panic "isdirempty: readi"
      else if direntInum de ≠ 0 then pure false
      else isdiremptyLoop e fuel (off + DIRENTSIZE)
    else pure true

def isdirempty (e : Ix) : M Bool := do
  let dp ← inode e
  isdiremptyLoop e (dp.d.size / DIRENTSIZE + 1) (2 * DIRENTSIZE)

def slash : Byte := 0x2f

/-- The next element of the path and what follows it, without slashes in front. -/
def skipelem (path : Path) : Option (Name × Path) :=
  match path.dropWhile (· = slash) with
  | [] => none
  | c :: p =>
    let s := (c :: p).takeWhile (· ≠ slash)
    some (s.take DIRSIZ, ((c :: p).drop s.length).dropWhile (· = slash))

/-- The loop of `namex`; each turn takes an element off the path. -/
def namexLoop (nameiparent : Bool) : ℕ → Path → Name → Ix → M (Option (Ix × Name))
  | 0, _, _, _ => pure none
  | fuel + 1, path, name, ip =>
    match skipelem path with
    | none =>
      if nameiparent then do
        iput ip
        return none
      else return some (ip, name)
    | some (name, path) => do
      ilock ip
      let i ← inode ip
      if i.d.type ≠ T_DIR then
        iunlockput ip
        return none
      else if nameiparent ∧ path = [] then
        iunlock ip
        return some (ip, name)
      else
        match ← dirlookup ip name with
        | none => do
          iunlockput ip
          return none
        | some (next, _) => do
          iunlockput ip
          namexLoop nameiparent fuel path name next

def namexStart (cwd : Ix) (path : Path) : M Ix :=
  if path.head? = some slash then iget ROOTINO else idup cwd

def namex (cwd : Ix) (path : Path) (nameiparent : Bool) : M (Option (Ix × Name)) := do
  let ip ← namexStart cwd path
  namexLoop nameiparent (path.length + 1) path [] ip

def namei (cwd : Ix) (path : Path) : M (Option Ix) := do
  let r ← namex cwd path false
  return r.map Prod.fst

def nameiparent (cwd : Ix) (path : Path) : M (Option (Ix × Name)) := namex cwd path true

def incShort (x : ℕ) : ℕ := (x + 1) % 65536

def decShort (x : ℕ) : ℕ := (x + 65535) % 65536

def shortLtOne (x : ℕ) : Bool := x = 0 ∨ 32768 ≤ x

/-- The end of a `link` that did not work out. -/
def linkBad (ip : Ix) : M ℤ := do
  ilock ip
  setD ip fun d => { d with nlink := decShort d.nlink }
  iupdate ip
  iunlockput ip
  endOp
  return -1

def sysLink (cwd : Ix) (old new : Option Path) : M ℤ := do
  match old, new with
  | some old, some new => do
    beginOp
    match ← namei cwd old with
    | none => do
      endOp
      return -1
    | some ip => do
      ilock ip
      let i ← inode ip
      if i.d.type = T_DIR then
        iunlockput ip
        endOp
        return -1
      else
        setD ip fun d => { d with nlink := incShort d.nlink }
        iupdate ip
        iunlock ip
        match ← nameiparent cwd new with
        | none => linkBad ip
        | some (dp, name) => do
          ilock dp
          let i ← inode ip
          if (← dirlink dp name i.inum) < 0 then
            iunlockput dp
            linkBad ip
          else
            iunlockput dp
            iput ip
            endOp
            return 0
  | _, _ => return -1

def dot : Name := [0x2e]

def dotdot : Name := [0x2e, 0x2e]

/-- `unlink` gives up with the directory still locked. -/
def unlinkFail (dp : Ix) : M ℤ := do
  iunlockput dp
  endOp
  return -1

/-- `ip->type == T_DIR && !isdirempty(ip)`. -/
def inUse (ip : Ix) (type : ℕ) : M Bool :=
  if type = T_DIR then do
    let empty ← isdirempty ip
    return !empty
  else return false

/-- A directory that is unlinked no longer counts in its parent. -/
def unlinkParent (dp : Ix) (type : ℕ) : M Unit :=
  if type = T_DIR then do
    setD dp fun d => { d with nlink := decShort d.nlink }
    iupdate dp
  else pure ()

def sysUnlink (cwd : Ix) (path : Option Path) : M ℤ := do
  match path with
  | none => return -1
  | some path => do
    beginOp
    match ← nameiparent cwd path with
    | none => do
      endOp
      return -1
    | some (dp, name) => do
      ilock dp
      if name = dot ∨ name = dotdot then unlinkFail dp
      else
        match ← dirlookup dp name with
        | none => unlinkFail dp
        | some (ip, off) => do
          ilock ip
          let i ← inode ip
          if shortLtOne i.d.nlink then panic "unlink: nlink < 1"
          else
            if ← inUse ip i.d.type then
              iunlockput ip
              unlinkFail dp
            else
              let r ← writei dp (fun _ => 0) off DIRENTSIZE
              if r ≠ DIRENTSIZE then panic "unlink: writei"
              else
                unlinkParent dp i.d.type
                iunlockput dp
                setD ip fun d => { d with nlink := decShort d.nlink }
                iupdate ip
                iunlockput ip
                endOp
                return 0

/-- A new directory gets its entries for itself and for its parent. -/
def createDots (ip dp : Ix) (type : ℕ) : M Unit :=
  if type = T_DIR then do
    setD dp fun d => { d with nlink := incShort d.nlink }
    iupdate dp
    let i ← inode ip
    if (← dirlink ip dot i.inum) < 0 then panic "create dots"
    else
      let p ← inode dp
      if (← dirlink ip dotdot p.inum) < 0 then panic "create dots" else pure ()
  else pure ()

def create (cwd : Ix) (path : Path) (type major minor : ℕ) : M (Option Ix) := do
  match ← nameiparent cwd path with
  | none => return none
  | some (dp, name) => do
    ilock dp
    match ← dirlookup dp name with
    | some (ip, _) => do
      iunlockput dp
      ilock ip
      let i ← inode ip
      if type = T_FILE ∧ i.d.type = T_FILE then return some ip
      else
        iunlockput ip
        return none
    | none => do
      let ip ← ialloc type
      ilock ip
      setD ip fun d => { d with major := major, minor := minor, nlink := 1 }
      iupdate ip
      createDots ip dp type
      let i ← inode ip
      if (← dirlink dp name i.inum) < 0 then panic "create: dirlink"
      else
        iunlockput dp
        return some ip

def sysMkdir (cwd : Ix) (path : Option Path) : M ℤ := do
  beginOp
  match path with
  | none => do
    endOp
    return -1
  | some path =>
    match ← create cwd path T_DIR 0 0 with
    | none => do
      endOp
      return -1
    | some ip => do
      iunlockput ip
      endOp
      return 0

/-- `mknod`: the numbers are cut to shorts. -/
def sysMknod (cwd : Ix) (path : Option Path) (numbers : Option (ℕ × ℕ)) : M ℤ := do
  beginOp
  match path, numbers with
  | some path, some (major, minor) =>
    match ← create cwd path T_DEV (major % 65536) (minor % 65536) with
    | none => do
      endOp
      return -1
    | some ip => do
      iunlockput ip
      endOp
      return 0
  | _, _ => do
    endOp
    return -1

end Xv6Threads.Fs
