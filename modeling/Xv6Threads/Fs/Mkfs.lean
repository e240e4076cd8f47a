import Xv6Threads.Loop
import Xv6Threads.Fs.Calls
import Xv6Threads.Fs.Nodes

namespace Xv6Threads.Mkfs

open Bytes Function Buf Fs Fin
open Fs (Block Superblock Dinode readDinode writeDinode iblock ioff w32 dirent slash dot dotdot
  T_DIR T_FILE)

/-- The image file and the global variables. -/
structure Host where
  blk : ℕ → Block
  /-- the length of the file in blocks; it is empty after `open` -/
  count : ℕ
  sb : Superblock
  freeinode : ℕ
  freeblock : ℕ

/-- The ways to end other than `exit(0)`: `exit(1)` and a failed assertion. -/
inductive Stop
  | exit | assert
  deriving DecidableEq

abbrev M := Prog Host Stop

def assert (p : Prop) [Decidable p] : M Unit := if p then pure () else throw .assert

/-- The sector at which `lseek(fsfd, sec * BSIZE, 0)` arrives. -/
def seek (sec : ℕ) : ℕ := w32 (sec * BSIZE) / BSIZE

/-- The file grows when it is written to behind its end. -/
def wsect (sec : ℕ) (buf : Block) : M Unit := modify fun h =>
  { h with blk := update h.blk (seek sec) buf, count := max h.count (seek sec + 1) }

/-- Behind the end of the file `read` returns 0. -/
def rsect (sec : ℕ) : M Block := do
  let h ← get
  if seek sec < h.count then return h.blk (seek sec) else throw .exit

def winode (inum : ℕ) (ip : Dinode) : M Unit := do
  let h ← get
  let bn := iblock h.sb inum
  let buf ← rsect bn
  wsect bn (writeDinode buf (ioff inum) ip)

def rinode (inum : ℕ) : M Dinode := do
  let h ← get
  let buf ← rsect (iblock h.sb inum)
  return readDinode buf (ioff inum)

def ialloc (type : ℕ) : M ℕ := do
  let h ← get
  let inum := h.freeinode
  modify fun h => { h with freeinode := w32 (h.freeinode + 1) }
  winode inum ⟨type, 0, 0, 1, 0, fun _ => 0⟩
  return inum

/-- After `freeblock++`. -/
def Host.next (h : Host) : Host := { h with freeblock := w32 (h.freeblock + 1) }

def nextBlock : M ℕ := do
  let h ← get
  modify Host.next
  return h.freeblock

/-- `din.addrs[i]` gets a block if it has none. -/
def fillAddr (din : Dinode) (i : Fin (NDIRECT + 1)) : M Dinode :=
  if din.addrs i = 0 then do
    let b ← nextBlock
    return din.setAddr i b
  else pure din

/-- Entry `j` of the indirect block `ib` gets a block if it has none; its value is returned. -/
def fillEntry (ib j : ℕ) : M ℕ := do
  let indirect ← rsect ib
  if indirect.field (4 * j) 4 = 0 then do
    let b ← nextBlock
    let indirect := indirect.setField (4 * j) 4 b
    wsect ib indirect
    return indirect.field (4 * j) 4
  else return indirect.field (4 * j) 4

/-- The inode after the block for `fbn` has been found, and that block. -/
def mapBlock (din : Dinode) (fbn : ℕ) : M (Dinode × ℕ) :=
  if h : fbn < NDIRECT then do
    let din ← fillAddr din ⟨fbn, Nat.lt_succ_of_lt h⟩
    return (din, din.addrs ⟨fbn, Nat.lt_succ_of_lt h⟩)
  else do
    let din ← fillAddr din (last NDIRECT)
    let x ← fillEntry (din.addrs (last NDIRECT)) (fbn - NDIRECT)
    return (din, x)

/-- `n1`. -/
def chunk (n tot off : ℕ) : ℕ := min (n - tot) ((off / BSIZE + 1) * BSIZE - off)

/-- One turn of the loop of `iappend`, when `tot` bytes are done. -/
def appendTurn (p : ℕ → Byte) (n tot off : ℕ) (din : Dinode) : M Dinode := do
  let fbn := off / BSIZE
  assert (fbn < MAXFILE)
  let (din, x) ← mapBlock din fbn
  let buf ← rsect x
  wsect x (buf.write (off - fbn * BSIZE) (chunk n tot off) fun i => p (tot + i))
  return din

/-- The loop of `iappend`. A turn takes at least one byte, so `n` turns are enough. -/
def appendLoop (p : ℕ → Byte) (n : ℕ) : ℕ → ℕ → ℕ → Dinode → M (ℕ × Dinode)
  | 0, _, off, din => pure (off, din)
  | fuel + 1, tot, off, din =>
    if tot < n then do
      let din ← appendTurn p n tot off din
      let n1 := chunk n tot off
      appendLoop p n fuel (tot + n1) (off + n1) din
    else pure (off, din)

def iappend (inum : ℕ) (xp : List Byte) : M Unit := do
  let din ← rinode inum
  let (off, din) ← appendLoop (bytesOf xp) xp.length xp.length 0 din.size din
  winode inum { din with size := off }

/-- The bitmap with the first `used` bits set. -/
def bits (used : ℕ) : Block := forLoop setBit zero used

def balloc (used : ℕ) : M Unit := do
  assert (used < BSIZE * 8)
  let h ← get
  wsect h.sb.bmapstart (bits used)

/-- A file on the command line: its name there, and what the calls of `read` return. -/
structure InFile where
  name : List Byte
  reads : List (List Byte)
  nul : ∀ c ∈ name, c ≠ 0
  read : ∀ r ∈ reads, r ≠ [] ∧ r.length ≤ BSIZE

def InFile.bytes (f : InFile) : List Byte := f.reads.flatten

def underscore : Byte := 0x5f

/-- A leading `_` is not part of the name in the image. -/
def InFile.entry (f : InFile) : List Byte :=
  if f.name.head? = some underscore then f.name.tail else f.name

/-- `struct dirent`: `strncpy` keeps `DIRSIZ` bytes and fills up with zeros. -/
def direntBytes (name : List Byte) (inum : ℕ) : List Byte :=
  (List.range DIRENTSIZE).map (dirent name inum)

def addFile (rootino : ℕ) (f : InFile) : M Unit := do
  assert (slash ∉ f.name)
  let inum ← ialloc T_FILE
  iappend rootino (direntBytes f.entry inum)
  f.reads.forM (iappend inum)

def superblock : Superblock where
  size := FSSIZE
  nblocks := FSSIZE - nmeta
  ninodes := NINODES
  nlog := nlog
  logstart := 2
  inodestart := 2 + nlog
  bmapstart := 2 + nlog + ninodeblocks

/-- The superblock as `memmove(buf, &sb, sizeof(sb))` puts it into a sector. -/
def superBuf (sb : Superblock) : Block :=
  let b := (zero.setField 0 4 sb.size).setField 4 4 sb.nblocks
  let b := (b.setField 8 4 sb.ninodes).setField 12 4 sb.nlog
  let b := (b.setField 16 4 sb.logstart).setField 20 4 sb.inodestart
  b.setField 24 4 sb.bmapstart

/-- The size of the root directory is rounded up, so that new entries can be added. -/
def fixRoot (rootino : ℕ) : M Unit := do
  let din ← rinode rootino
  winode rootino { din with size := w32 ((din.size / BSIZE + 1) * BSIZE) }

def main (files : List InFile) : M Unit := do
  modify fun h => { h with sb := superblock, freeblock := nmeta }
  upto (fun i => wsect i zero) FSSIZE
  wsect 1 (superBuf superblock)
  let rootino ← ialloc T_DIR
  assert (rootino = ROOTINO)
  iappend rootino (direntBytes dot rootino)
  iappend rootino (direntBytes dotdot rootino)
  files.forM (addFile rootino)
  fixRoot rootino
  let h ← get
  balloc h.freeblock

/-- Before `main`. -/
def start : Host := ⟨fun _ => zero, 0, ⟨0, 0, 0, 0, 0, 0, 0⟩, 1, 0⟩

/-- The volume that the kernel would see if the bitmap were written now. Nothing is cached. -/
def volume (h : Host) : Fs.Vol where
  blk := update h.blk h.sb.bmapstart (bits h.freeblock)
  sb := h.sb
  icache _ := ⟨0, 0, false, false, ⟨0, 0, 0, 0, 0, fun _ => 0⟩⟩
  devsw _ := ⟨none, none⟩
  logged := ∅
  ops := []

/-- The next inode is `k`. The sectors are there, and those of the log and those not handed out
yet are empty. -/
structure Ready (k : ℕ) (h : Host) : Prop where
  inode : h.freeinode = k
  sb : h.sb = superblock
  count : h.count = FSSIZE
  lo : nmeta ≤ h.freeblock
  hi : h.freeblock ≤ FSSIZE
  fresh : ∀ b, h.freeblock ≤ b → b < FSSIZE → h.blk b = zero
  log : ∀ b, superblock.logstart ≤ b → b < superblock.inodestart → h.blk b = zero

theorem geometry : Fs.Geometry superblock := ⟨by decide, by decide, by decide, by decide, by decide⟩

theorem dataStart_eq : dataStart superblock = nmeta := by decide

theorem seek_of_lt {sec : ℕ} (h : sec ≤ FSSIZE) : seek sec = sec := by
  unfold seek w32
  rw [Nat.mod_eq_of_lt (show sec * 512 < 2 ^ 32 by change sec ≤ 1000 at h; omega)]
  exact Nat.mul_div_cancel sec (by decide)

theorem bits_bit {used : ℕ} (h : used ≤ 8 * BSIZE) (j : ℕ) :
    (bits used).bit j = decide (j < used) := by
  induction used with
  | zero => simp [bits, forLoop, bit]
  | succ u ih =>
    rw [show bits (u + 1) = (bits u).setBit u from rfl, bit_setBit _ (by omega),
      ih (by omega), Bool.eq_iff_iff]
    simp only [Bool.or_eq_true, decide_eq_true_eq]
    omega

theorem bblock_eq {b : ℕ} (h : b < FSSIZE) : bblock superblock b = superblock.bmapstart := by
  unfold bblock
  rw [Nat.div_eq_of_lt (show b < BPB by change b < 4096; change b < 1000 at h; omega), Nat.zero_add]

section
variable {k : ℕ} {h : Host} {t : Fs.Vol} {din : Dinode} {E : Stop → Prop}

@[simp] theorem volume_blk (h : Host) :
    (volume h).blk = update h.blk h.sb.bmapstart (bits h.freeblock) := rfl

theorem Ready.blk_of_ne (hr : Ready k h) {b : ℕ} (hb : b ≠ superblock.bmapstart) :
    (volume h).blk b = h.blk b := by
  rw [volume_blk, hr.sb]
  exact update_of_ne hb ..

theorem Ready.marked (hr : Ready k h) {b : ℕ} (hb : b < FSSIZE) :
    marked superblock (volume h).blk b = decide (b < h.freeblock) := by
  have hhi := hr.hi
  have hfs : FSSIZE = 1000 := rfl
  rw [Fs.marked, bblock_eq hb, volume_blk, hr.sb, update_self,
    bits_bit (by change _ ≤ 4096; omega), Nat.mod_eq_of_lt (by change _ < 4096; omega)]

theorem Ready.next_freeblock (hr : Ready k h) : h.next.freeblock = h.freeblock + 1 := by
  have hhi := hr.hi
  have hfs : FSSIZE = 1000 := rfl
  exact Nat.mod_eq_of_lt (by omega)

/-- What `balloc` of the kernel does to the volume is what `freeblock++` does. -/
theorem Ready.alloc (hr : Ready k h) (hlt : h.freeblock < FSSIZE) : Ready k h.next ∧
    allocBlk superblock (volume h).blk h.freeblock = (volume h.next).blk := by
  have hlo := hr.lo
  have hfs : FSSIZE = 1000 := rfl
  have hmod : h.freeblock % BPB = h.freeblock := Nat.mod_eq_of_lt (by change _ < 4096; omega)
  have hnext := hr.next_freeblock
  constructor
  · exact ⟨hr.inode, hr.sb, hr.count, by omega, by omega, fun b hb => hr.fresh b (by omega), hr.log⟩
  · have hne : h.freeblock ≠ superblock.bmapstart := by
      have hbm : superblock.bmapstart < nmeta := by decide
      omega
    rw [allocBlk, bblock_eq hlt, hmod, volume_blk, volume_blk, hnext, hr.sb,
      update_self, update_idem]
    funext b
    by_cases hb : b = h.freeblock
    · rw [hb, update_self]
      have hne' : h.freeblock ≠ h.next.sb.bmapstart := hr.sb ▸ hne
      exact (hr.fresh _ le_rfl hlt).symm.trans (update_of_ne hne' ..).symm
    · rw [update_of_ne hb, ← hr.sb]
      rfl

/-- A volume with inode `din` loaded into entry 0 of the cache. -/
structure Shadow (h : Host) (din : Dinode) (t : Fs.Vol) : Prop where
  blk : t.blk = (volume h).blk
  sb : t.sb = superblock
  d : (t.icache 0).d = din

theorem find_free (hr : Ready k h) (hlt : h.freeblock < FSSIZE) : (List.range superblock.size).find?
      (fun b => !((volume h).blk (bblock superblock b)).bit (b % BPB)) = some h.freeblock := by
  have hmark : ∀ b, b < FSSIZE →
      ((volume h).blk (bblock superblock b)).bit (b % BPB) = decide (b < h.freeblock) :=
    fun b hb => hr.marked hb
  rw [List.find?_range_eq_some]
  refine ⟨?_, List.mem_range.mpr hlt, ?_⟩
  · rw [hmark _ hlt]
    simp
  · intro b hb
    rw [hmark b (by omega)]
    simpa using hb

theorem balloc_shadow (hr : Ready k h) (hs : Shadow h din t) (hlt : h.freeblock < FSSIZE) :
    wp Fs.balloc (fun b u => b = h.freeblock ∧ Shadow h.next din u) (fun _ => False) t := by
  unfold Fs.balloc
  apply wp_bind (wp_get _)
  rw [hs.sb, hs.blk, find_free hr hlt]
  apply wp_bind (wp_logWrite _)
  unfold bzero
  apply wp_bind (wp_logWrite _)
  refine wp_pure ⟨rfl, ?_, hs.sb, hs.d⟩
  rw [← (hr.alloc hlt).2]
  simp only [Fs.Vol.log_blk, hs.blk]
  rfl

def Host.put (h : Host) (sec : ℕ) (buf : Block) : Host :=
  { h with blk := update h.blk sec buf }

theorem Ready.put (hr : Ready k h) {sec : ℕ} (hlo : superblock.inodestart ≤ sec)
    (hsec : sec < h.freeblock) (buf : Block) : Ready k (h.put sec buf) := by
  refine ⟨hr.inode, hr.sb, hr.count, hr.lo, hr.hi, fun b hb hlt => ?_, fun b hb hlt => ?_⟩
  · have hne : b ≠ sec := ne_of_gt (lt_of_lt_of_le hsec hb)
    exact (update_of_ne hne ..).trans (hr.fresh b hb hlt)
  · exact (update_of_ne (by omega) ..).trans (hr.log b hb hlt)

theorem Ready.volume_put (hr : Ready k h) {sec : ℕ} (hsec : sec ≠ superblock.bmapstart)
    (buf : Block) :
    (volume (h.put sec buf)).blk = update (volume h).blk sec buf := by
  rw [volume_blk, volume_blk, hr.sb, update_comm hsec.symm, ← hr.sb]
  rfl

section
variable {sec : ℕ}

theorem wp_rsect {Q : Block → Host → Prop} (hc : h.count = FSSIZE) (hsec : sec < FSSIZE)
    (hQ : Q (h.blk sec) h) : wp (rsect sec) Q E h := by
  unfold rsect
  apply wp_bind (wp_get _)
  rw [seek_of_lt hsec.le, if_pos (hc ▸ hsec)]
  exact wp_pure hQ

theorem wp_rsect_full {Q : Block → Host → Prop} (hc : h.count = FSSIZE) (hE : E .exit) :
    wp (rsect FSSIZE) Q E h := by
  unfold rsect
  apply wp_bind (wp_get _)
  rw [seek_of_lt le_rfl, hc, if_neg (lt_irrefl _)]
  exact wp_throw hE

theorem wp_wsect {Q : Unit → Host → Prop} {buf : Block} (hc : h.count = FSSIZE)
    (hsec : sec < FSSIZE) (hQ : Q () (h.put sec buf)) : wp (wsect sec buf) Q E h := by
  apply wp_modify
  have hcount : max h.count (sec + 1) = h.count := by omega
  rw [seek_of_lt hsec.le, hcount]
  exact hQ

end

theorem wp_nextBlock {Q : ℕ → Host → Prop} (hQ : Q h.freeblock h.next) : wp nextBlock Q E h :=
  wp_bind (wp_get (wp_bind (wp_modify (wp_pure hQ))))

/-- A number that `freeblock++` has run out of sectors for. -/
def Full (E : Stop → Prop) (b : ℕ) (h : Host) : Prop := b = FSSIZE ∧ h.count = FSSIZE ∧ E .exit

theorem fillAddr_shadow (hr : Ready k h) (hs : Shadow h din t) (i : Fin (NDIRECT + 1))
    (hroom : E .exit ∨ din.addrs i ≠ 0 ∨ h.freeblock < FSSIZE)
    (hrange : din.addrs i ≠ 0 → nmeta ≤ din.addrs i ∧ din.addrs i < h.freeblock) :
    wp (fillAddr din i) (fun d h' => Full E (d.addrs i) h' ∨
      Ready k h' ∧ (nmeta ≤ d.addrs i ∧ d.addrs i < h'.freeblock) ∧
      h'.freeblock = h.freeblock + (if din.addrs i = 0 then 1 else 0) ∧
      (din.addrs i ≠ 0 → d = din ∧ h' = h) ∧
      ∃ u, addrOf 0 i t = .ok (d.addrs i, u) ∧ Shadow h' d u) E h := by
  unfold fillAddr
  apply wp_ite
  · intro h0
    apply wp_bind (wp_nextBlock _)
    refine wp_pure ?_
    have hself : (din.setAddr i h.freeblock).addrs i = h.freeblock := if_pos rfl
    rw [hself, if_pos h0]
    by_cases hlt : h.freeblock < FSSIZE
    · have hnext := hr.next_freeblock
      refine .inr ⟨(hr.alloc hlt).1, ⟨hr.lo, by omega⟩, hnext, fun hne => absurd h0 hne, ?_⟩
      have hspec : wp (addrOf 0 i) (fun b u => b = h.freeblock ∧
          Shadow h.next (din.setAddr i h.freeblock) u) (fun _ => False) t := by
        unfold addrOf
        apply wp_bind (wp_inode _)
        rw [hs.d]
        apply wp_ite fun hne => absurd h0 hne
        intro _
        apply wp_call (balloc_shadow hr hs hlt)
        rintro _ u ⟨rfl, hu⟩
        apply wp_bind (Fs.wp_setD _)
        refine wp_pure ⟨rfl, hu.blk, hu.sb, ?_⟩
        rw [Fs.Vol.put_icache, if_pos rfl, hu.d]
      obtain ⟨b, u, hok, rfl, hu⟩ := exists_ok hspec
      exact ⟨u, hok, hu⟩
    · have hhi := hr.hi
      refine .inl ⟨by omega, hr.count, ?_⟩
      rcases hroom with hE | hne | hlt'
      · exact hE
      · exact absurd h0 hne
      · exact absurd hlt' hlt
  · intro hne
    refine wp_pure (.inr ⟨hr, hrange hne, by rw [if_neg hne]; rfl, fun _ => ⟨rfl, rfl⟩, t, ?_, hs⟩)
    have hspec : wp (addrOf 0 i) (fun b u => b = din.addrs i ∧ u = t) (fun _ => False) t := by
      unfold addrOf
      apply wp_bind (wp_inode _)
      rw [hs.d]
      apply wp_ite
      · intro _
        exact wp_pure ⟨rfl, rfl⟩
      · intro h0
        exact absurd hne h0
    obtain ⟨b, u, hok, rfl, rfl⟩ := exists_ok hspec
    exact hok

theorem bmapstart_lt : superblock.bmapstart < nmeta := by decide

theorem inodestart_lt : superblock.inodestart < superblock.bmapstart := by decide

theorem fillEntry_shadow (hr : Ready k h) (hs : Shadow h din t) {ib j : ℕ} (hj : j < NINDIRECT)
    (hlo : nmeta ≤ ib) (hhi : ib < h.freeblock)
    (hroom : E .exit ∨ (h.blk ib).field (4 * j) 4 ≠ 0 ∨ h.freeblock < FSSIZE) :
    wp (fillEntry ib j) (fun b h' => Full E b h' ∨
      Ready k h' ∧ h'.freeblock = h.freeblock + (if (h.blk ib).field (4 * j) 4 = 0 then 1 else 0) ∧
      ∃ u, entryOf ib j t = .ok (b, u) ∧ Shadow h' din u) E h := by
  have hfs := hr.hi
  have hne : ib ≠ superblock.bmapstart := by
    have hlt := bmapstart_lt
    omega
  have hblk : t.blk ib = h.blk ib := by rw [hs.blk, hr.blk_of_ne hne]
  unfold fillEntry
  apply wp_bind (wp_rsect hr.count (by omega) _)
  apply wp_ite
  · intro h0
    apply wp_bind (wp_nextBlock _)
    have hself : ((h.blk ib).setField (4 * j) 4 h.freeblock).field (4 * j) 4 = h.freeblock := by
      have hjb : j < 128 := hj
      have hfb : FSSIZE = 1000 := rfl
      exact field_setField_self _ (by change _ ≤ 512; omega) (by omega)
    dsimp only
    rw [hself, if_pos h0]
    apply wp_bind (wp_wsect (show h.next.count = FSSIZE from hr.count) (by omega) _)
    refine wp_pure ?_
    by_cases hlt : h.freeblock < FSSIZE
    · obtain ⟨hr', hvol⟩ := hr.alloc hlt
      have hnext := hr.next_freeblock
      have hbm := bmapstart_lt
      have hino := inodestart_lt
      refine .inr ⟨hr'.put (by omega) (by omega) _, hnext, ?_⟩
      have hspec : wp (entryOf ib j) (fun b u => b = h.freeblock ∧
          Shadow (h.next.put ib ((h.blk ib).setField (4 * j) 4 h.freeblock)) din u)
          (fun _ => False) t := by
        unfold entryOf
        apply wp_bind (wp_bind (wp_get (wp_pure _)))
        rw [hblk]
        apply wp_ite fun hnot => absurd h0 hnot
        intro _
        apply wp_call (balloc_shadow hr hs hlt)
        rintro _ u ⟨rfl, hu⟩
        apply wp_bind (wp_bind (wp_get (wp_pure _)))
        apply wp_bind (Fs.wp_logWrite _)
        refine wp_pure ⟨rfl, ?_, hu.sb, hu.d⟩
        rw [Fs.Vol.log_blk, hr'.volume_put hne, hu.blk, hr'.blk_of_ne hne]
        rfl
      obtain ⟨b, u, hok, rfl, hu⟩ := exists_ok hspec
      exact ⟨u, hok, hu⟩
    · refine .inl ⟨by omega, hr.count, ?_⟩
      rcases hroom with hE | hne0 | hlt'
      · exact hE
      · exact absurd h0 hne0
      · exact absurd hlt' hlt
  · intro hne0
    refine wp_pure (.inr ⟨hr, by rw [if_neg hne0]; rfl, t, ?_, hs⟩)
    have hspec : wp (entryOf ib j) (fun b u => b = (h.blk ib).field (4 * j) 4 ∧ u = t)
        (fun _ => False) t := by
      unfold entryOf
      apply wp_bind (wp_bind (wp_get (wp_pure _)))
      rw [hblk]
      apply wp_ite
      · intro _
        exact wp_pure ⟨rfl, rfl⟩
      · intro h0
        exact absurd hne0 h0
    obtain ⟨b, u, hok, rfl, rfl⟩ := exists_ok hspec
    exact hok

/-- How many blocks are handed out for block `bn` of a file. -/
def mapCost (din : Dinode) (B : ℕ → Block) (bn : ℕ) : ℕ :=
  if din.fileBlk B bn ≠ 0 then 0
  else if NDIRECT ≤ bn ∧ din.addrs (last NDIRECT) = 0 then 2 else 1

theorem fileBlk_last {B : ℕ → Block} {j : ℕ} (h0 : din.addrs (last NDIRECT) = 0) :
    din.ptr B (NDIRECT + 1 + j) = 0 := by
  rw [Fs.Dinode.ptr, dif_neg (by omega), if_neg (fun h => h.1 h0)]

theorem mapBlock_shadow (hr : Ready k h) (hs : Shadow h din t) {bn : ℕ} (hbn : bn < MAXFILE)
    (hroom : E .exit ∨ h.freeblock + mapCost din t.blk bn ≤ FSSIZE)
    (hrange : ∀ i, din.addrs i ≠ 0 → nmeta ≤ din.addrs i ∧ din.addrs i < h.freeblock) :
    wp (mapBlock din bn) (fun r h' => Full E r.2 h' ∨
      Ready k h' ∧ h'.freeblock ≤ h.freeblock + mapCost din t.blk bn ∧
      ∃ u, bmap 0 bn t = .ok (r.2, u) ∧ Shadow h' r.1 u) E h := by
  unfold mapBlock
  by_cases hd : bn < NDIRECT
  · have hcost : mapCost din t.blk bn =
        if din.addrs ⟨bn, Nat.lt_succ_of_lt hd⟩ = 0 then 1 else 0 := by
      rw [mapCost, Fs.Dinode.fileBlk_direct _ _ hd, if_neg (show ¬(NDIRECT ≤ bn ∧ _) by omega)]
      exact ite_not ..
    rw [dif_pos hd]
    rw [hcost] at hroom ⊢
    apply wp_call (fillAddr_shadow hr hs ⟨bn, Nat.lt_succ_of_lt hd⟩ _ (hrange _))
    · rintro d h' (hfull | ⟨hr', -, hfb, -, u, hok, hu⟩)
      · exact wp_pure (.inl hfull)
      · refine wp_pure (.inr ⟨hr', hfb.le, u, ?_, hu⟩)
        rw [bmap, dif_pos hd]
        exact hok
    · rcases hroom with hE | hle
      · exact .inl hE
      · right
        split_ifs at hle with h0
        · exact .inr (by omega)
        · exact .inl h0
  · rw [dif_neg hd]
    have hj : bn - NDIRECT < NINDIRECT := by
      have hmax : MAXFILE = NDIRECT + NINDIRECT := rfl
      omega
    apply wp_call (fillAddr_shadow hr hs (last NDIRECT) _ (hrange _))
    · rintro d h' (⟨hib, hc, hE⟩ | ⟨hr', ⟨hlo, hhi⟩, hfb, hsame, u, hok, hu⟩)
      · -- there is no sector for the indirect block
        rw [hib]
        unfold fillEntry
        rw [bind_assoc]
        exact wp_bind (wp_rsect_full hc hE)
      · have hroom' : (E .exit ∨ (h'.blk (d.addrs (last NDIRECT))).field
            (4 * (bn - NDIRECT)) 4 ≠ 0 ∨ h'.freeblock < FSSIZE) ∧
            h'.freeblock + (if (h'.blk (d.addrs (last NDIRECT))).field
              (4 * (bn - NDIRECT)) 4 = 0 then 1 else 0) ≤
              h.freeblock + mapCost din t.blk bn := by
          by_cases h0 : din.addrs (last NDIRECT) = 0
          · have hcost : mapCost din t.blk bn = 2 := by
              rw [mapCost, Fs.Dinode.fileBlk_indirect _ _ hd, fileBlk_last h0,
                if_neg (fun hne => hne rfl), if_pos ⟨by omega, h0⟩]
            rw [hcost] at hroom ⊢
            rw [if_pos h0] at hfb
            refine ⟨?_, by split_ifs <;> omega⟩
            rcases hroom with hE | hle
            · exact .inl hE
            · exact .inr (.inr (by omega))
          · obtain ⟨rfl, rfl⟩ := hsame h0
            have hcost : mapCost d t.blk bn = if (h'.blk (d.addrs (last NDIRECT))).field
                (4 * (bn - NDIRECT)) 4 = 0 then 1 else 0 := by
              have hne : d.addrs (last NDIRECT) ≠ superblock.bmapstart := by
                have hlt := bmapstart_lt
                omega
              rw [mapCost, Fs.Dinode.fileBlk_indirect _ _ hd, Fs.Dinode.ptr_entry _ _ hj h0,
                hs.blk, hr.blk_of_ne hne, if_neg (show ¬(NDIRECT ≤ bn ∧ _) from fun hn => h0 hn.2)]
              exact ite_not ..
            rw [hcost] at hroom ⊢
            refine ⟨?_, le_rfl⟩
            rcases hroom with hE | hle
            · exact .inl hE
            · right
              split_ifs at hle with hz
              · exact .inr (by omega)
              · exact .inl hz
        apply wp_call (fillEntry_shadow hr' hu hj hlo hhi hroom'.1)
        rintro b h'' (hfull | ⟨hr'', hfb', v, hok', hv⟩)
        · exact wp_pure (.inl hfull)
        · refine wp_pure (.inr ⟨hr'', hfb'.le.trans hroom'.2, v, ?_, hv⟩)
          rw [bmap, dif_neg hd, if_pos hj]
          change (addrOf 0 (last NDIRECT) t >>= fun p => entryOf p.1 (bn - NDIRECT) p.2) = _
          rw [hok]
          exact hok'
    · by_cases h0 : din.addrs (last NDIRECT) = 0
      · rcases hroom with hE | hle
        · exact .inl hE
        · have hcost : mapCost din t.blk bn = 2 := by
            rw [mapCost, Fs.Dinode.fileBlk_indirect _ _ hd, fileBlk_last h0,
              if_neg (fun hne => hne rfl), if_pos ⟨by omega, h0⟩]
          exact .inr (.inr (by omega))
      · exact .inr (.inl h0)

section
variable {D D' : ℕ → Dinode} {s : Fs.Vol} {n off tot len : ℕ} {src : ℕ → Byte}

/-- `din` is inode `n` of the volume when `tot` of the `len` bytes have been written. -/
structure Appending (k : ℕ) (h : Host) (din : Dinode) (D : ℕ → Dinode) (s : Fs.Vol) (n : ℕ)
    (src : ℕ → Byte) (off tot : ℕ) (D' : ℕ → Dinode) (t : Fs.Vol) : Prop where
  ready : Ready k h
  shadow : Shadow h din t
  writing : Fs.Writing superblock {0} {0} D s n src off tot D' t

/-- The blocks, with the indirect one, of a file of `size` bytes. -/
def need (size : ℕ) : ℕ :=
  (size + (BSIZE - 1)) / BSIZE + if NDIRECT < (size + (BSIZE - 1)) / BSIZE then 1 else 0

/-- How many of them come with the byte at `pos`. -/
def turnCost (pos : ℕ) : ℕ :=
  if pos % BSIZE = 0 then if pos / BSIZE = NDIRECT then 2 else 1 else 0

theorem need_add {pos m : ℕ} (hm : 0 < m) (hle : pos % BSIZE + m ≤ BSIZE) :
    need (pos + m) = need pos + turnCost pos := by
  unfold need turnCost
  simp only [BSIZE, NDIRECT] at *
  split_ifs <;> omega

theorem need_mono {a b : ℕ} (h : a ≤ b) : need a ≤ need b := by
  unfold need
  simp only [BSIZE, NDIRECT] at *
  split_ifs <;> omega

theorem chunk_eq (n tot off : ℕ) : chunk n tot off = turn n tot off := by
  unfold chunk turn
  simp only [BSIZE]
  omega

/-- A pointer of a file leads to a block that has been handed out. -/
theorem Ready.ptr_range (hr : Ready k h) (hblk : t.blk = (volume h).blk)
    (ho : Fs.Owned superblock D t.blk) (hn : Fs.Live superblock D n) {i : ℕ}
    (h0 : (D n).ptr t.blk i ≠ 0) : nmeta ≤ (D n).ptr t.blk i ∧ (D n).ptr t.blk i < h.freeblock := by
  have hrange := ho.ptr_range hn h0
  have hused := ho.used_ptr (i := (n, i)) (by rwa [ptrs_of_live hn])
  rw [hblk] at hrange hused ⊢
  rw [ptrs_of_live hn, hr.marked hrange.2] at hused
  rw [dataStart_eq] at hrange
  exact ⟨hrange.1, of_decide_eq_true hused⟩

namespace Appending

variable (ha : Appending k h din D s n src off tot D' t)

include ha

theorem din_eq (hinum : (s.icache 0).inum = n) (hv : (s.icache 0).valid = true) : din = D' n := by
  have hvalid := ha.writing.kept.valid 0 (Multiset.mem_singleton_self 0) hv
  have hd := ha.writing.cached.d_eq (Multiset.mem_singleton_self 0) hvalid
  rw [ha.writing.kept.inum 0 (Multiset.mem_singleton_self 0), hinum, ha.shadow.d] at hd
  exact hd

theorem cost_le : mapCost (D' n) t.blk ((off + tot) / BSIZE) ≤ turnCost (off + tot) := by
  have hmapped := ha.writing.mapped
  have hdiv := Nat.div_add_mod (off + tot) BSIZE
  unfold mapCost turnCost
  by_cases h0 : (D' n).fileBlk t.blk ((off + tot) / BSIZE) ≠ 0
  · rw [if_pos h0]
    exact Nat.zero_le _
  · rw [if_neg h0]
    have hmod : (off + tot) % BSIZE = 0 := by
      by_contra hne
      apply h0
      apply hmapped
      have hpos := Nat.pos_of_ne_zero hne
      rw [Nat.mul_comm] at hdiv
      omega
    rw [if_pos hmod]
    split_ifs with hlast hbn hbn
    · exact le_rfl
    · -- block 12 is there, and with it the indirect block
      exfalso
      have hbn' : NDIRECT < (off + tot) / BSIZE := by omega
      have h12 : (D' n).fileBlk t.blk NDIRECT ≠ 0 := by
        apply hmapped
        simp only [BSIZE, NDIRECT] at *
        omega
      exact Fs.Dinode.last_ne_zero h12 le_rfl hlast.2
    · exact Nat.le_succ 1
    · exact le_rfl

theorem turn (hn : Fs.Live superblock D n) (hinum : (s.icache 0).inum = n)
    (hv : (s.icache 0).valid = true) (hlt : tot < len)
    (hmax : E .assert ∨ (off + tot) / BSIZE < MAXFILE)
    (hroom : E .exit ∨ h.freeblock + turnCost (off + tot) ≤ FSSIZE) :
    wp (appendTurn src len tot (off + tot) din) (fun d h' => h'.freeblock ≤ h.freeblock + turnCost
      (off + tot) ∧ ∃ D'' u, Appending k h' d D s n src off
      (tot + turn len tot (off + tot)) D'' u) E h := by
  have hmem : (0 : Fs.Ix) ∈ ({0} : Multiset Fs.Ix) := Multiset.mem_singleton_self 0
  have hw := ha.writing
  have hdin := ha.din_eq hinum hv
  have hcost := ha.cost_le
  have hinum' : (t.icache 0).inum = n := (hw.kept.inum 0 hmem).trans hinum
  have htol : Fs.Tolerant fun _ => True := fun _ _ _ => trivial
  unfold appendTurn assert
  dsimp only
  by_cases hbn : (off + tot) / BSIZE < MAXFILE
  · rw [if_pos hbn, pure_bind]
    subst hdin
    apply wp_call (mapBlock_shadow ha.ready ha.shadow hbn (hroom.imp_right (by omega)) _)
    · rintro ⟨d, b⟩ h' (⟨hb, hc, hE⟩ | ⟨hr', hfb, u, hok, hu⟩)
      · -- the sector is read before it is written
        change b = FSSIZE at hb
        subst hb
        exact wp_bind (wp_rsect_full hc hE)
      · obtain ⟨D'', hp⟩ := wp_ok (bmap_spec hw.cached geometry hw.owned htol hmem
          (hw.kept.valid 0 hmem hv) (.inr (by rw [hinum']))) hok
        rw [hinum'] at hp
        dsimp only at hp ⊢
        have hnext := hw.next geometry hn hlt hp
        have hrange : nmeta ≤ b ∧ b < h'.freeblock := by
          have h0 := hp.blk.trans_ne hp.ne
          rw [← hp.blk]
          exact hr'.ptr_range hu.blk hp.owned (hp.grown.live.mpr (hw.live hn)) h0
        have hbm := bmapstart_lt
        have hne : b ≠ superblock.bmapstart := by omega
        have hfs := hr'.hi
        have hino := inodestart_lt
        apply wp_bind (wp_rsect hr'.count (by omega) _)
        apply wp_bind (wp_wsect hr'.count (by omega) _)
        refine wp_pure ⟨hfb.trans (by omega), D'', _, hr'.put (by omega) hrange.2 _, ?_, hnext⟩
        refine ⟨?_, hu.sb, hu.d⟩
        rw [Fs.Vol.log_blk, hr'.volume_put hne, hu.blk, hr'.blk_of_ne hne, chunk_eq]
        have hoff : off + tot - (off + tot) / BSIZE * BSIZE = (off + tot) % BSIZE := by
          simp only [BSIZE]
          omega
        rw [hoff]
    · intro i hi
      rw [← Fs.Dinode.ptr_direct _ t.blk i] at hi ⊢
      exact ha.ready.ptr_range ha.shadow.blk hw.owned (hw.live hn) hi
  · rw [if_neg hbn]
    exact wp_bind (wp_throw (hmax.resolve_right hbn))

end Appending

theorem appendLoop_spec (hn : Fs.Live superblock D n) (hinum : (s.icache 0).inum = n)
    (hv : (s.icache 0).valid = true) (hmax : E .assert ∨ off + len ≤ MAXFILE * BSIZE) (fuel : ℕ) :
    ∀ tot h din D' t, len - tot ≤ fuel → tot ≤ len → Appending k h din D s n src off tot D' t →
      (E .exit ∨ h.freeblock + need (off + len) ≤ FSSIZE + need (off + tot)) →
      wp (appendLoop src len fuel tot (off + tot) din) (fun r h' => r.1 = off + len ∧
        h'.freeblock + need (off + tot) ≤ h.freeblock + need (off + len) ∧
        ∃ D' t, Appending k h' r.2 D s n src off len D' t) E h := by
  induction fuel with
  | zero =>
    intro tot h din D' t hfuel hle ha _
    obtain rfl : tot = len := by omega
    exact wp_pure ⟨rfl, le_rfl, D', t, ha⟩
  | succ fuel ih =>
    intro tot h din D' t hfuel hle ha hroom
    unfold appendLoop
    apply wp_ite
    · intro hlt
      have hpos : 0 < turn len tot (off + tot) := turn_pos hlt
      have hturn := turn_le len tot (off + tot)
      have hneed := need_add hpos (mod_add_turn_le len tot (off + tot))
      have hmono : need (off + tot + turn len tot (off + tot)) ≤ need (off + len) :=
        need_mono (by omega)
      have hmax' : E .assert ∨ (off + tot) / BSIZE < MAXFILE := by
        apply hmax.imp_right
        intro hle
        simp only [BSIZE, MAXFILE] at *
        omega
      apply wp_call (ha.turn hn hinum hv hlt hmax' (hroom.imp_right (by omega)))
      rintro d h' ⟨hfb, D'', u, ha'⟩
      dsimp only
      rw [chunk_eq, Nat.add_assoc]
      rw [Nat.add_assoc] at hneed hmono
      apply wp_conseq (ih _ h' d D'' u (by omega) (by omega) ha' (hroom.imp_right (by omega)))
      rintro ⟨o, d'⟩ h'' ⟨ho, hfb', hend⟩
      exact ⟨ho, by omega, hend⟩
    · intro hge
      obtain rfl : tot = len := by omega
      exact wp_pure ⟨rfl, le_rfl, D', t, ha⟩

end

end

end Xv6Threads.Mkfs
