import Xv6Threads.Allocation
import Xv6Threads.Fs.Volume

namespace Xv6Threads.Fs

open Bytes Function Buf Fin

def dataStart (sb : Superblock) : ℕ := sb.size - sb.nblocks

/-- The areas of the disk lie one after the other. -/
structure Geometry (sb : Superblock) : Prop where
  inodes : 1 < sb.inodestart
  bitmap : sb.inodestart + sb.ninodes / IPB < sb.bmapstart
  data : sb.bmapstart + sb.size / BPB < dataStart sb
  size : sb.size < 2 ^ 32
  root : ROOTINO < sb.ninodes

def diskInode (sb : Superblock) (B : ℕ → Block) (n : ℕ) : Dinode :=
  readDinode (B (iblock sb n)) (ioff n)

/-- The bit of block `b` in the bitmap. -/
def marked (sb : Superblock) (B : ℕ → Block) (b : ℕ) : Bool :=
  (B (bblock sb b)).bit (b % BPB)

/-- The numbers fit into the fields of `struct dinode`. -/
structure Dinode.Fits (d : Dinode) : Prop where
  type : d.type < 2 ^ 16
  major : d.major < 2 ^ 16
  minor : d.minor < 2 ^ 16
  nlink : d.nlink < 2 ^ 16
  size : d.size < 2 ^ 32
  addrs : ∀ i, d.addrs i < 2 ^ 32

theorem readDinode_fits (b : Block) (off : ℕ) : (readDinode b off).Fits :=
  ⟨b.field_lt _ 2, b.field_lt _ 2, b.field_lt _ 2, b.field_lt _ 2, b.field_lt _ 4,
    fun _ => b.field_lt _ 4⟩

theorem readDinode_writeDinode (b : Block) {off : ℕ} {d : Dinode} (hoff : off + DINODESIZE ≤ BSIZE)
    (hd : d.Fits) : readDinode (writeDinode b off d) off = d := by
  have hB : BSIZE = 512 := rfl
  have hD : DINODESIZE = 64 := rfl
  obtain ⟨ht, hma, hmi, hn, hs, ha⟩ := hd
  ext i <;> simp only [readDinode, writeDinode]
  case type | major | minor | nlink | size =>
    rw [field_write_of_disjoint _ _ (by omega)]
    -- the fields that are stored after it
    repeat rw [field_setField_of_disjoint _ (by omega)]
    rw [field_setField_self _ (by omega) (by omega)]
  case addrs =>
    have hi : i.val < 13 := i.isLt
    rw [field_write_of_mem _ _ (by omega) (by omega) (by omega), ← Nat.mod_eq_of_lt (ha i),
      show 2 ^ 32 = 256 ^ 4 from rfl, ← leNat_leBytes]
    apply leNat_congr
    intro j hj
    have hdiv : (off + 12 + 4 * i.val - (off + 12) + j) / 4 = i.val := by omega
    have hmod : (off + 12 + 4 * i.val - (off + 12) + j) % 4 = j := by omega
    simp only [hdiv, hmod, i.isLt, ↓reduceDIte, Fin.eta]

theorem readDinode_congr {b c : Block} {off : ℕ}
    (h : ∀ i < DINODESIZE, b.get (off + i) = c.get (off + i)) :
    readDinode b off = readDinode c off := by
  have hD : DINODESIZE = 64 := rfl
  have hfield (o k : ℕ) (ho : o + k ≤ 64) : b.field (off + o) k = c.field (off + o) k := by
    apply field_congr
    intro i hi
    rw [Nat.add_assoc]
    exact h (o + i) (by omega)
  ext i
  case type => exact hfield 0 2 (by omega)
  case major => exact hfield 2 2 (by omega)
  case minor => exact hfield 4 2 (by omega)
  case nlink => exact hfield 6 2 (by omega)
  case size => exact hfield 8 4 (by omega)
  case addrs =>
    have hi : i.val < 13 := i.isLt
    simp only [readDinode, Nat.add_assoc]
    exact hfield (12 + 4 * i) 4 (by omega)

theorem get_writeDinode_of_notMem (b : Block) (d : Dinode) {off i : ℕ}
    (h : i < off ∨ off + DINODESIZE ≤ i) : (writeDinode b off d).get i = b.get i := by
  have hD : DINODESIZE = 64 := rfl
  have hN : NDIRECT = 12 := rfl
  simp only [writeDinode, setField]
  rw [get_write_of_notMem _ _ (by omega), get_write_of_notMem _ _ (by omega),
    get_write_of_notMem _ _ (by omega), get_write_of_notMem _ _ (by omega),
    get_write_of_notMem _ _ (by omega), get_write_of_notMem _ _ (by omega)]

/-- The dinode `ialloc` leaves on the disk. -/
def Dinode.fresh (type : ℕ) : Dinode := ⟨type, 0, 0, 0, 0, fun _ => 0⟩

theorem ioff_le (n : ℕ) : ioff n + DINODESIZE ≤ BSIZE := by
  simp only [ioff, DINODESIZE, BSIZE, NDIRECT, IPB]
  omega

theorem ioff_disjoint {sb : Superblock} {n m : ℕ} (hne : n ≠ m) (hb : iblock sb n = iblock sb m) :
    ioff n + DINODESIZE ≤ ioff m ∨ ioff m + DINODESIZE ≤ ioff n := by
  simp only [iblock, ioff, DINODESIZE, BSIZE, NDIRECT, IPB] at *
  omega

section
variable {sb : Superblock} {B : ℕ → Block}

theorem diskInode_update_of_ne {b n : ℕ} (x : Block) (h : iblock sb n ≠ b) :
    diskInode sb (update B b x) n = diskInode sb B n := by
  rw [diskInode, update_of_ne h, diskInode]

/-- The bytes of an inode block other than those of inode `m` stay. -/
theorem diskInode_update_other {m n : ℕ} {x : Block} (hne : n ≠ m)
    (hx : ∀ i, i < ioff m ∨ ioff m + DINODESIZE ≤ i → x.get i = (B (iblock sb m)).get i) :
    diskInode sb (update B (iblock sb m) x) n = diskInode sb B n := by
  by_cases hb : iblock sb n = iblock sb m
  · rw [diskInode, hb, update_self, diskInode, hb]
    have hdisj := ioff_disjoint hne hb
    apply readDinode_congr
    intro i hi
    exact hx _ (by omega)
  · exact diskInode_update_of_ne x hb

theorem diskInode_writeDinode {m : ℕ} {d : Dinode} (hd : d.Fits) (n : ℕ) :
    diskInode sb (update B (iblock sb m) (writeDinode (B (iblock sb m)) (ioff m) d)) n =
      if n = m then d else diskInode sb B n := by
  split_ifs with h
  · rw [diskInode, h, update_self]
    exact readDinode_writeDinode _ (ioff_le m) hd
  · apply diskInode_update_other h
    intro i hi
    exact get_writeDinode_of_notMem _ d hi

end

/-- Pointer `k` of an inode: first come its addresses, then the entries of its indirect block. -/
def Dinode.ptr (d : Dinode) (B : ℕ → Block) (k : ℕ) : ℕ :=
  if h : k < NDIRECT + 1 then d.addrs ⟨k, h⟩
  else if d.addrs (last NDIRECT) ≠ 0 ∧ k < NDIRECT + 1 + NINDIRECT then
    (B (d.addrs (last NDIRECT))).field (4 * (k - (NDIRECT + 1))) 4
  else 0

def ptrs (sb : Superblock) (D : ℕ → Dinode) (B : ℕ → Block) (i : ℕ × ℕ) : ℕ :=
  if i.1 < sb.ninodes ∧ (D i.1).type ≠ 0 then (D i.1).ptr B i.2 else 0

/-- The block with block `bn` of the file, 0 if there is none. -/
def Dinode.fileBlk (d : Dinode) (B : ℕ → Block) (bn : ℕ) : ℕ :=
  d.ptr B (if bn < NDIRECT then bn else bn + 1)

def Dinode.byte (d : Dinode) (B : ℕ → Block) (x : ℕ) : Byte :=
  (B (d.fileBlk B (x / BSIZE))).get (x % BSIZE)

variable (d : Dinode)

theorem Dinode.ptr_direct (B : ℕ → Block) (i : Fin (NDIRECT + 1)) : d.ptr B i = d.addrs i := by
  rw [ptr, dif_pos i.isLt]

theorem Dinode.ptr_indirect (B : ℕ → Block) :
    d.ptr B NDIRECT = d.addrs (last NDIRECT) := d.ptr_direct B (last NDIRECT)

theorem Dinode.ptr_entry (B : ℕ → Block) {j : ℕ} (hj : j < NINDIRECT)
    (h : d.addrs (last NDIRECT) ≠ 0) :
    d.ptr B (NDIRECT + 1 + j) = (B (d.addrs (last NDIRECT))).field (4 * j) 4 := by
  rw [ptr, dif_neg (by omega), if_pos ⟨h, by omega⟩, Nat.add_sub_cancel_left]

theorem Dinode.ptr_congr {d : Dinode} {B B' : ℕ → Block} (h : d.addrs (last NDIRECT) ≠ 0 →
      B' (d.addrs (last NDIRECT)) = B (d.addrs (last NDIRECT))) (k : ℕ) :
    d.ptr B' k = d.ptr B k := by
  unfold ptr
  split_ifs with hk hi
  · rfl
  · rw [h hi.1]
  · rfl

theorem Dinode.setAddr_addrs (i j : Fin (NDIRECT + 1)) (b : ℕ) :
    (d.setAddr i b).addrs j = if j = i then b else d.addrs j := rfl

theorem Dinode.ptr_setAddr (B : ℕ → Block) {i : Fin (NDIRECT + 1)} (hi : i ≠ last NDIRECT)
    (b k : ℕ) :
    (d.setAddr i b).ptr B k = if k = i then b else d.ptr B k := by
  have hlast : (d.setAddr i b).addrs (last NDIRECT) = d.addrs (last NDIRECT) :=
    (d.setAddr_addrs ..).trans (if_neg hi.symm)
  by_cases hk : k < NDIRECT + 1
  · rw [ptr, dif_pos hk, ptr, dif_pos hk, setAddr_addrs]
    simp only [Fin.ext_iff]
  · have hne : k ≠ i := by omega
    rw [ptr, dif_neg hk, hlast, if_neg hne, ptr, dif_neg hk]

theorem Dinode.ptr_setAddr_last {B : ℕ → Block} {b : ℕ} (hb : B b = zero)
    (h0 : d.addrs (last NDIRECT) = 0) (k : ℕ) :
    (d.setAddr (last NDIRECT) b).ptr B k = if k = NDIRECT then b else d.ptr B k := by
  have hlast : (d.setAddr (last NDIRECT) b).addrs (last NDIRECT) = b :=
    (d.setAddr_addrs ..).trans (if_pos rfl)
  by_cases hk : k < NDIRECT + 1
  · rw [ptr, dif_pos hk, ptr, dif_pos hk, setAddr_addrs]
    simp only [Fin.ext_iff, Fin.val_last]
  · have hne : k ≠ NDIRECT := by omega
    rw [ptr, dif_neg hk, hlast, hb, field_zero, ite_self, if_neg hne, ptr, dif_neg hk,
      if_neg (by simp [h0])]

theorem Dinode.ptr_setEntry {B : ℕ → Block} {b j : ℕ} (hj : j < NINDIRECT)
    (hb : b < 2 ^ 32) (h0 : d.addrs (last NDIRECT) ≠ 0) (k : ℕ) :
    d.ptr (update B (d.addrs (last NDIRECT)) ((B (d.addrs (last NDIRECT))).setField
      (4 * j) 4 b)) k =
    if k = NDIRECT + 1 + j then b else d.ptr B k := by
  have hN : NINDIRECT = 128 := rfl
  have hB : BSIZE = 512 := rfl
  by_cases hk : k < NDIRECT + 1
  · rw [ptr, dif_pos hk, if_neg (by omega), ptr, dif_pos hk]
  · rw [ptr, dif_neg hk, ptr, dif_neg hk, update_self]
    by_cases hkj : k = NDIRECT + 1 + j
    · rw [if_pos hkj, if_pos ⟨h0, by omega⟩, hkj, Nat.add_sub_cancel_left]
      exact field_setField_self _ (by omega) hb
    · rw [if_neg hkj]
      by_cases hhi : k < NDIRECT + 1 + NINDIRECT
      · rw [if_pos ⟨h0, hhi⟩, if_pos ⟨h0, hhi⟩, field_setField_of_disjoint _ (by omega)]
      · rw [if_neg (by omega), if_neg (by omega)]

section
variable {sb : Superblock} {B : ℕ → Block}

theorem inodestart_le_iblock (n : ℕ) : sb.inodestart ≤ iblock sb n := Nat.le_add_left ..

theorem bmapstart_le_bblock (b : ℕ) : sb.bmapstart ≤ bblock sb b := Nat.le_add_left ..

theorem Geometry.iblock_lt (g : Geometry sb) {n : ℕ} (hn : n < sb.ninodes) :
    iblock sb n < sb.bmapstart := by
  have hle : n / IPB ≤ sb.ninodes / IPB := Nat.div_le_div_right hn.le
  have hbitmap := g.bitmap
  rw [iblock]
  omega

theorem Geometry.bblock_lt (g : Geometry sb) {b : ℕ} (hb : b < sb.size) :
    bblock sb b < dataStart sb := by
  have hle : b / BPB ≤ sb.size / BPB := Nat.div_le_div_right hb.le
  have hdata := g.data
  rw [bblock]
  omega

theorem Geometry.bmapstart_lt (g : Geometry sb) : sb.bmapstart < dataStart sb :=
  (Nat.le_add_right ..).trans_lt g.data

theorem eq_of_bblock_eq {b c : ℕ} (hb : bblock sb b = bblock sb c) (hmod : b % BPB = c % BPB) :
    b = c := by
  rw [← Nat.div_add_mod b BPB, Nat.add_right_cancel hb, hmod, Nat.div_add_mod]

theorem marked_congr {B' : ℕ → Block} {b : ℕ} (h : B' (bblock sb b) = B (bblock sb b)) :
    marked sb B' b = marked sb B b := by
  rw [marked, h, marked]

/-- The blocks after `balloc` has handed out `b`. -/
def allocBlk (sb : Superblock) (B : ℕ → Block) (b : ℕ) : ℕ → Block :=
  update
    (update B (bblock sb b) ((B (bblock sb b)).setBit (b % BPB))) b zero

/-- The blocks after `bfree`. -/
def freeBlk (sb : Superblock) (B : ℕ → Block) (b : ℕ) : ℕ → Block :=
  update B (bblock sb b) ((B (bblock sb b)).clearBit (b % BPB))

theorem allocBlk_self (b : ℕ) : allocBlk sb B b b = zero := update_self ..

theorem allocBlk_of_ne {b x : ℕ} (hb : x ≠ b) (hbm : x ≠ bblock sb b) :
    allocBlk sb B b x = B x := by
  rw [allocBlk, update_of_ne hb, update_of_ne hbm]

theorem freeBlk_of_ne {b x : ℕ} (hbm : x ≠ bblock sb b) : freeBlk sb B b x = B x :=
  update_of_ne hbm ..

/-- A bitmap block is replaced by one in which the bit of `b` is `v`. -/
theorem marked_update {b : ℕ} {x : Block} {v : Bool}
    (hx : ∀ j, x.bit j = if j = b % BPB then v else (B (bblock sb b)).bit j) (c : ℕ) :
    marked sb (update B (bblock sb b) x) c = if c = b then v else marked sb B c := by
  by_cases hc : bblock sb c = bblock sb b
  · rw [marked, hc, update_self, hx, marked, hc]
    by_cases hmod : c % BPB = b % BPB
    · rw [if_pos hmod, if_pos (eq_of_bblock_eq hc hmod)]
    · rw [if_neg hmod, if_neg fun h => hmod (by rw [h])]
  · rw [marked, update_of_ne hc, if_neg fun h => hc (by rw [h]), marked]

theorem mod_BPB_lt (b : ℕ) : b % BPB < 8 * BSIZE := Nat.mod_lt b (by decide)

theorem marked_allocBlk (g : Geometry sb) {b c : ℕ} (hb : dataStart sb ≤ b) (hc : c < sb.size) :
    marked sb (allocBlk sb B b) c = (decide (c = b) || marked sb B c) := by
  have hne : bblock sb c ≠ b := by
    have hlt := g.bblock_lt hc
    omega
  have hx (j : ℕ) : ((B (bblock sb b)).setBit (b % BPB)).bit j =
      if j = b % BPB then true else (B (bblock sb b)).bit j := by
    rw [bit_setBit _ (mod_BPB_lt b)]
    by_cases hj : j = b % BPB <;> simp [hj]
  rw [allocBlk, marked_congr (update_of_ne hne ..), marked_update hx]
  by_cases hcb : c = b <;> simp [hcb]

theorem marked_freeBlk (b c : ℕ) :
    marked sb (freeBlk sb B b) c = (!decide (c = b) && marked sb B c) := by
  have hx (j : ℕ) : ((B (bblock sb b)).clearBit (b % BPB)).bit j =
      if j = b % BPB then false else (B (bblock sb b)).bit j := by
    rw [bit_clearBit _ (mod_BPB_lt b)]
    by_cases hj : j = b % BPB <;> simp [hj]
  rw [freeBlk, marked_update hx]
  by_cases hcb : c = b <;> simp [hcb]

end

end Xv6Threads.Fs
