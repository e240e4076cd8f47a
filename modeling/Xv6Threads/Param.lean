import Mathlib.Tactic.Common

namespace Xv6Threads

abbrev NPROC : ℕ := 64
abbrev NOFILE : ℕ := 16
abbrev NFILE : ℕ := 100
abbrev NINODE : ℕ := 50
abbrev NDEV : ℕ := 10
abbrev MAXARG : ℕ := 32
abbrev MAXOPBLOCKS : ℕ := 10
abbrev LOGSIZE : ℕ := MAXOPBLOCKS * 3
abbrev FSSIZE : ℕ := 1000

-- Named, so that a literal of `Fin` has one instance in every module.
instance (priority := 2000) neZeroNproc : @NeZero ℕ Zero.ofOfNat0 NPROC := ⟨by decide⟩
instance (priority := 2000) neZeroNinode : @NeZero ℕ Zero.ofOfNat0 NINODE := ⟨by decide⟩
instance (priority := 2000) neZeroTwo : @NeZero ℕ Zero.ofOfNat0 2 := ⟨by decide⟩

abbrev ROOTINO : ℕ := 1
abbrev BSIZE : ℕ := 512
abbrev NDIRECT : ℕ := 12
abbrev NINDIRECT : ℕ := BSIZE / 4
abbrev MAXFILE : ℕ := NDIRECT + NINDIRECT

/-- `sizeof(struct dinode)`: four shorts, the size and `NDIRECT+1` addresses. -/
abbrev DINODESIZE : ℕ := 8 + 4 + 4 * (NDIRECT + 1)

abbrev IPB : ℕ := BSIZE / DINODESIZE
abbrev BPB : ℕ := BSIZE * 8
abbrev DIRSIZ : ℕ := 14

/-- `sizeof(struct dirent)`. -/
abbrev DIRENTSIZE : ℕ := 2 + DIRSIZ

abbrev NINODES : ℕ := 200
abbrev nbitmap : ℕ := FSSIZE / (BSIZE * 8) + 1
abbrev ninodeblocks : ℕ := NINODES / IPB + 1
abbrev nlog : ℕ := LOGSIZE
abbrev nmeta : ℕ := 2 + nlog + ninodeblocks + nbitmap

end Xv6Threads
