import Mathlib.Data.List.TakeWhile
import Xv6Threads.LogDisk
import Xv6Threads.Fs.Directories
import Xv6Threads.Fs.MkfsImage

namespace Xv6Threads.Mkfs

open Bytes Function List Option Fs Nat
open Fs (Block Superblock Dinode Inode Vol Ix w32 dirent direntName direntInum slash dot dotdot
  T_DIR T_FILE T_DEV Node Live Cached)

/-- `iinit` and `initlog`: the superblock is read, and the log is recovered. -/
def mount (B : ℕ → Block) : Vol where
  blk := (LogDisk.recoverFromLog (readSuperblock (B 1)).logstart (LogDisk.boot B)).disk
  sb := readSuperblock (B 1)
  icache _ := ⟨0, 0, false, false, ⟨0, 0, 0, 0, 0, fun _ => 0⟩⟩
  devsw _ := ⟨none, none⟩
  logged := ∅
  ops := []

theorem encodeHead_nil : LogDisk.encodeHead [] Buf.zero = Buf.zero := by
  decide +kernel

theorem recoverFromLog_zero {start : ℕ} {B : ℕ → Block} (h : B start = Buf.zero) :
    (LogDisk.recoverFromLog start (LogDisk.boot B)).disk = B := by
  have hhead : LogDisk.decodeHead (B start) = [] := by
    rw [h]
    decide +kernel
  have hread : LogDisk.readHead start (LogDisk.boot B) = LogDisk.boot B := by
    unfold LogDisk.readHead
    rw [show (LogDisk.boot B).buf start = B start from rfl, hhead]
    rfl
  unfold LogDisk.recoverFromLog LogDisk.writeHead
  rw [hread, LogDisk.Mem.fill_bwrite_disk]
  change update B start (LogDisk.encodeHead [] (B start)) = B
  rw [h, encodeHead_nil, ← h, update_eq_self]

variable {files : List InFile} {D : ℕ → Dinode} {h : Host} {E : Fs.Stop → Prop}

theorem mount_eq (hf : Finished files D h) : mount h.blk = volume h := by
  have hsuper : readSuperblock (h.blk 1) = superblock := by
    rw [hf.bitmap]
    exact hf.cached.super
  have hlog : h.blk superblock.logstart = Buf.zero := hf.ready.log _ le_rfl (by decide)
  unfold mount volume
  rw [hsuper, recoverFromLog_zero hlog, ← volume_blk, ← hf.bitmap, hf.ready.sb]

section
variable {t : Vol} {e : Ix} {n : ℕ} {r : ℤ} {v : Bool} {d : Dinode}

theorem ilock_load (hy : t.icache e = ⟨n, 1, false, false, d⟩)
    (htype : (diskInode t.sb t.blk n).type ≠ 0) :
    wp (ilock e) (fun _ u => u = t.put e ⟨n, 1, true, true, diskInode t.sb t.blk n⟩) E t := by
  unfold ilock
  apply wp_bind (wp_inode _)
  rw [hy]
  dsimp only
  rw [if_neg (by decide), if_neg (by decide)]
  apply wp_bind (wp_setInode _)
  rw [if_neg (by decide)]
  apply wp_bind (wp_get _)
  apply wp_bind (wp_setInode _)
  simp only [Fs.Vol.put_blk, Fs.Vol.put_sb]
  change wp (if (diskInode t.sb t.blk n).type = 0 then _ else _) _ E _
  rw [if_neg htype]
  refine wp_pure ?_
  rw [Fs.Vol.put_put, Fs.Vol.put_icache, if_pos rfl, hy]
  rfl

theorem ilock_valid (hy : t.icache e = ⟨n, 1, false, true, d⟩) :
    wp (ilock e) (fun _ u => u = t.put e ⟨n, 1, true, true, d⟩) E t := by
  unfold ilock
  apply wp_bind (wp_inode _)
  rw [hy]
  dsimp only
  rw [if_neg (by decide), if_neg (by decide)]
  apply wp_bind (wp_setInode _)
  rw [if_pos rfl, hy]
  exact wp_pure rfl

theorem iunlock_busy (hy : t.icache e = ⟨n, r, true, v, d⟩) (hr : 1 ≤ r) :
    wp (iunlock e) (fun _ u => u = t.put e ⟨n, r, false, v, d⟩) E t := by
  unfold iunlock
  apply wp_bind (wp_inode _)
  rw [hy]
  dsimp only
  rw [if_neg (by simpa using hr)]
  apply wp_setInode
  rw [hy]

theorem iput_linked (hy : t.icache e = ⟨n, r, false, v, d⟩) (hd : d.nlink ≠ 0) :
    wp (iput e) (fun _ u => u = t.put e ⟨n, r - 1, false, v, d⟩) E t := by
  unfold iput ifree
  apply wp_bind
  apply wp_bind (wp_inode _)
  rw [hy, if_neg fun hlast => hd hlast.2.2]
  apply wp_pure
  apply wp_setInode
  rw [hy]

theorem iunlockput_linked (hy : t.icache e = ⟨n, r, true, v, d⟩) (hr : 1 ≤ r) (hd : d.nlink ≠ 0) :
    wp (iunlockput e) (fun _ u => u = t.put e ⟨n, r - 1, false, v, d⟩) E t := by
  unfold iunlockput
  apply wp_call (iunlock_busy hy hr)
  rintro _ _ rfl
  apply wp_conseq (iput_linked (if_pos rfl) hd)
  rintro _ _ rfl
  rw [Fs.Vol.put_put]

end

/-- The volume `v` with `a` and `b` in the first two entries of the cache; the others are not
used. -/
structure Pair (v : Vol) (a b : Inode) (t : Vol) : Prop where
  blk : t.blk = v.blk
  sb : t.sb = v.sb
  zero : t.icache 0 = a
  one : t.icache 1 = b
  rest : ∀ e, e ≠ 0 → e ≠ 1 → (t.icache e).ref = 0 ∧ (t.icache e).busy = false

namespace Pair

variable {v t : Vol} {a b y : Inode} {n : ℕ}

theorem put_zero (hp : Pair v a b t) (y : Inode) : Pair v y b (t.put 0 y) := by
  refine ⟨hp.blk, hp.sb, by simp, hp.one, fun e h0 h1 => ?_⟩
  rw [Fs.Vol.put_icache, if_neg h0]
  exact hp.rest e h0 h1

theorem put_one (hp : Pair v a b t) (y : Inode) : Pair v a y (t.put 1 y) := by
  refine ⟨hp.blk, hp.sb, hp.zero, by simp, fun e h0 h1 => ?_⟩
  rw [Fs.Vol.put_icache, if_neg h1]
  exact hp.rest e h0 h1

theorem find_zero {p : Ix → Bool} (h : p 0 = true) : ixs.find? p = some 0 := by
  have hixs : ixs = 0 :: (List.finRange 49).map Fin.succ := finRange_succ
  rw [hixs, List.find?_cons_of_pos h]

theorem find_one {p : Ix → Bool} (h0 : p 0 = false) (h1 : p 1 = true) : ixs.find? p = some 1 := by
  have hixs : ixs = 0 :: 1 :: ((List.finRange 48).map Fin.succ).map Fin.succ := by
    decide +kernel
  rw [hixs, List.find?_cons_of_neg (by simpa using h0), List.find?_cons_of_pos h1]

theorem iget_zero (hp : Pair v a b t) (ha : a.ref = 0) (hb : b.ref = 0) :
    wp (iget n) (fun e u => e = 0 ∧ Pair v ⟨n, 1, false, false, a.d⟩ b u) E t := by
  have hnone : ixs.find? (fun e => decide (0 < (t.icache e).ref ∧ (t.icache e).inum = n)) =
      none := by
    rw [List.find?_eq_none]
    intro e _
    have href : (t.icache e).ref = 0 := by
      by_cases h0 : e = 0
      · rw [h0, hp.zero, ha]
      · by_cases h1 : e = 1
        · rw [h1, hp.one, hb]
        · exact (hp.rest e h0 h1).1
    simp [href]
  have hfree : ixs.find? (fun e => decide ((t.icache e).ref = 0)) = some 0 :=
    find_zero (by simp [hp.zero, ha])
  unfold Fs.iget
  apply wp_bind (wp_get _)
  rw [hnone, hfree]
  apply wp_bind (wp_setInode _)
  rw [hp.zero]
  exact wp_pure ⟨rfl, hp.put_zero _⟩

/-- The first entry is in use for another inode, and the second one is taken. -/
theorem iget_one (hp : Pair v a b t) (ha : 0 < a.ref) (hn : a.inum ≠ n) (hb : b.ref = 0) :
    wp (iget n) (fun e u => e = 1 ∧ Pair v a ⟨n, 1, false, false, b.d⟩ u) E t := by
  have hnone : ixs.find? (fun e => decide (0 < (t.icache e).ref ∧ (t.icache e).inum = n)) =
      none := by
    rw [List.find?_eq_none]
    intro e _
    by_cases h0 : e = 0
    · simp [h0, hp.zero, hn]
    · by_cases h1 : e = 1
      · simp [h1, hp.one, hb]
      · simp [(hp.rest e h0 h1).1]
  have hfree : ixs.find? (fun e => decide ((t.icache e).ref = 0)) = some 1 :=
    find_one (by simp [hp.zero, ha.ne']) (by simp [hp.one, hb])
  unfold Fs.iget
  apply wp_bind (wp_get _)
  rw [hnone, hfree]
  apply wp_bind (wp_setInode _)
  rw [hp.one]
  exact wp_pure ⟨rfl, hp.put_one _⟩

theorem iget_again (hp : Pair v a b t) (ha : 0 < a.ref) (hn : a.inum = n) :
    wp (iget n) (fun e u => e = 0 ∧ Pair v { a with ref := a.ref + 1 } b u) E t := by
  have hfind : ixs.find? (fun e => decide (0 < (t.icache e).ref ∧ (t.icache e).inum = n)) =
      some 0 := find_zero (by simp [hp.zero, ha, hn])
  unfold Fs.iget
  apply wp_bind (wp_get _)
  rw [hfind]
  apply wp_bind (wp_setInode _)
  rw [hp.zero]
  exact wp_pure ⟨rfl, hp.put_zero _⟩

end Pair

/-- The name and the number in slot `i`. -/
def rootEntry (names : List (List Byte)) : ℕ → List Byte × ℕ
  | 0 => (dot, ROOTINO)
  | 1 => (dotdot, ROOTINO)
  | i + 2 => (names.getD i [], i + 2)

theorem bytesOf_direntBytes (name : List Byte) (inum : ℕ) {k : ℕ} (hk : k < DIRENTSIZE) :
    bytesOf (direntBytes name inum) k = dirent name inum k := by
  unfold bytesOf direntBytes
  rw [getD_eq_getElem _ _ (by simpa using hk), getElem_map, getElem_range]

theorem bytesOf_rootBytes (names : List (List Byte)) {i k : ℕ} (hi : i < 2 + names.length)
    (hk : k < DIRENTSIZE) : bytesOf (rootBytes names) (DIRENTSIZE * i + k) =
      dirent (rootEntry names i).1 (rootEntry names i).2 k := by
  induction names using List.reverseRecOn with
  | nil =>
    have hbytes : rootBytes [] = direntBytes dot ROOTINO ++ direntBytes dotdot ROOTINO := by
      simp [rootBytes]
    rw [hbytes, bytesOf_append, length_direntBytes]
    obtain rfl | rfl : i = 0 ∨ i = 1 := by
      rw [length_nil] at hi
      omega
    · rw [if_pos (by omega), mul_zero, zero_add, bytesOf_direntBytes _ _ hk]
      rfl
    · rw [if_neg (by omega), Nat.mul_one, Nat.add_sub_cancel_left, bytesOf_direntBytes _ _ hk]
      rfl
  | append_singleton names name ih =>
    rw [rootBytes_append, bytesOf_append, length_rootBytes]
    simp only [length_append, length_singleton] at hi
    by_cases hlast : i < 2 + names.length
    · have hentry : rootEntry (names ++ [name]) i = rootEntry names i := by
        rcases i with _ | _ | i
        · rfl
        · rfl
        · rw [rootEntry, rootEntry, getD_append _ _ _ _ (by omega)]
      have hlt : DIRENTSIZE * i + k < DIRENTSIZE * (2 + names.length) := by
        simp only [DIRENTSIZE, DIRSIZ] at *
        omega
      rw [if_pos hlt, ih hlast, hentry]
    · obtain rfl : i = names.length + 2 := by omega
      have hoff : DIRENTSIZE * (names.length + 2) + k - DIRENTSIZE * (2 + names.length) = k := by
        rw [add_comm 2]
        omega
      have hge : ¬DIRENTSIZE * (names.length + 2) + k < DIRENTSIZE * (2 + names.length) := by
        rw [add_comm 2]
        omega
      rw [if_neg hge, hoff, bytesOf_direntBytes _ _ hk, rootEntry]
      simp

theorem direntName_dirent_take {name : List Byte} (hnul : ∀ c ∈ name, c ≠ 0) (inum : ℕ) :
    direntName (dirent name inum) = name.take DIRSIZ := by
  have htake : ∀ k < DIRENTSIZE, dirent name inum k = dirent (name.take DIRSIZ) inum k := by
    intro k hk
    unfold dirent
    split_ifs with h2
    · rfl
    · have hlt : k - 2 < DIRSIZ := by
        simp only [DIRENTSIZE] at hk
        omega
      rw [getD_eq_getElem?_getD, getD_eq_getElem?_getD, List.getElem?_take_of_lt hlt]
  rw [direntName_congr htake]
  exact direntName_dirent (length_take_le ..) (fun c hc => hnul c (mem_of_mem_take hc)) inum

section
variable {x : Option ℕ} {H : Multiset Ix} {L : Finset Ix} {s : Vol} {e : Ix} {n j : ℕ}
  {name : List Byte} {Q : Option (Ix × ℕ) → Vol → Prop}

/-- The bytes of slot `i` of a directory. -/
def slotBytes (D : ℕ → Dinode) (B : ℕ → Block) (n i : ℕ) : ℕ → Byte :=
  fun k => (D n).byte B (DIRENTSIZE * i + k)

/-- The name is found in slot `j`; the slots up to it are within the blocks of the directory. -/
theorem lookupLoop_slot (hc : Cached superblock x H L D s) (he : e ∈ H) (hn : (s.icache e).inum = n)
    (hv : (s.icache e).valid = true) (htype : (D n).type = T_DIR)
    (hsize : DIRENTSIZE * (j + 1) ≤ (D n).size)
    (hmap : ∀ y < DIRENTSIZE * (j + 1), (D n).fileBlk s.blk (y / BSIZE) ≠ 0)
    (hinum : ∀ i ≤ j, direntInum (slotBytes D s.blk n i) ≠ 0)
    (hbefore : ∀ i < j, direntName (slotBytes D s.blk n i) ≠ name)
    (hname : direntName (slotBytes D s.blk n j) = name)
    (hget : wp (iget (direntInum (slotBytes D s.blk n j)))
      (fun e' => Q (some (e', DIRENTSIZE * j))) E s)
    (fuel : ℕ) : ∀ i ≤ j, j < i + fuel → wp (lookupLoop e name fuel (DIRENTSIZE * i)) Q E s := by
  induction fuel with
  | zero => intro i hi hfuel; omega
  | succ fuel ih =>
    intro i hi hfuel
    have hle : DIRENTSIZE * i + DIRENTSIZE ≤ DIRENTSIZE * (j + 1) := by
      simp only [DIRENTSIZE, DIRSIZ]
      omega
    have hpos : 0 < DIRENTSIZE := by decide
    unfold lookupLoop
    apply wp_bind (wp_inode _)
    rw [show (s.icache e).d = D n from hn ▸ hc.d_eq he hv, if_pos (by omega)]
    apply wp_call (readi_mapped hc he hn hv (by rw [htype]; decide) (by omega)
      fun y _ hy => hmap y (by omega))
    rintro ⟨r, de⟩ _ ⟨rfl, hr⟩
    obtain ⟨rfl, rfl⟩ := Prod.mk.inj hr
    dsimp only
    rw [if_neg (not_not.mpr rfl)]
    have hde : ∀ k < DIRENTSIZE,
        (if k < DIRENTSIZE then (D n).byte s.blk (DIRENTSIZE * i + k) else 0) =
          slotBytes D s.blk n i k := fun k hk => if_pos hk
    rw [direntInum_congr hde, direntName_congr hde, if_neg (hinum i hi)]
    by_cases hij : i = j
    · subst hij
      rw [if_pos hname]
      apply wp_call hget
      intro e' t hQ
      exact wp_pure hQ
    · rw [if_neg (hbefore i (by omega))]
      exact ih (i + 1) (by omega) (by omega)

end

theorem entry_nul (f : InFile) : ∀ c ∈ f.entry, c ≠ 0 := by
  intro c hc
  unfold InFile.entry at hc
  split_ifs at hc
  · exact f.nul c (mem_of_mem_tail hc)
  · exact f.nul c hc

theorem rootEntry_nul (files : List InFile) (i : ℕ) : ∀ c ∈ (rootEntry (names files) i).1,
    c ≠ 0 := by
  match i with
  | 0 => exact (show ∀ c ∈ dot, c ≠ 0 by decide)
  | 1 => exact (show ∀ c ∈ dotdot, c ≠ 0 by decide)
  | i + 2 =>
    intro c hc
    rw [rootEntry, names, getD_eq_getElem?_getD, List.getElem?_map] at hc
    cases hi : files[i]? with
    | none =>
      rw [hi] at hc
      cases hc
    | some f =>
      rw [hi] at hc
      exact entry_nul f c hc

theorem rootEntry_inum {names : List (List Byte)} {i : ℕ} (hi : i < 2 ^ 16) :
    (rootEntry names i).2 % 2 ^ 16 = (rootEntry names i).2 ∧ (rootEntry names i).2 ≠ 0 := by
  match i, hi with
  | 0, _ | 1, _ => exact ⟨rfl, one_ne_zero⟩
  | i + 2, hi => exact ⟨mod_eq_of_lt hi, succ_ne_zero _⟩

theorem skipelem_slash {name : List Byte} (hne : name ≠ []) (hslash : slash ∉ name) :
    skipelem (slash :: name) = some (name.take DIRSIZ, []) := by
  have hdrop : (slash :: name).dropWhile (· = slash) = name := by
    rw [dropWhile_cons_of_pos (by simp)]
    cases name with
    | nil => rfl
    | cons c l => exact dropWhile_cons_of_neg (by simpa using fun h => hslash (by simp [h]))
  have htake : name.takeWhile (· ≠ slash) = name := by
    rw [takeWhile_eq_self_iff]
    intro c hc
    simpa using fun (heq : c = slash) => hslash (heq ▸ hc)
  unfold skipelem
  rw [hdrop]
  cases name with
  | nil => exact absurd rfl hne
  | cons c l =>
    dsimp only
    rw [htake]
    simp

namespace Finished

abbrev disk (D : ℕ → Dinode) : ℕ → Dinode := update D ROOTINO (rounded (D ROOTINO))

variable (hf : Finished files D h)

include hf

theorem disk_root_live : Live superblock (disk D) ROOTINO := by
  rw [Live, disk, update_self]
  exact hf.root_live

theorem slot_eq {i k : ℕ} (hi : i < 2 + files.length) (hk : k < DIRENTSIZE) :
    slotBytes (disk D) (volume h).blk ROOTINO i k =
      dirent (rootEntry (names files) i).1 (rootEntry (names files) i).2 k := by
  have hlen : (names files).length = files.length := length_map ..
  have hdata := congrFun (congrArg Node.data hf.root_node) (DIRENTSIZE * i + k)
  have htype : (D ROOTINO).type = T_DIR := congrArg Node.type hf.root_node
  have hin : DIRENTSIZE * i + k < (D ROOTINO).size := by
    rw [hf.root_size]
    simp only [DIRENTSIZE, DIRSIZ] at *
    omega
  change (if _ then _ else _) = bytesOf (rootBytes (names files)) _ at hdata
  rw [if_pos ⟨by rw [htype]; decide, hin⟩, bytesOf_rootBytes _ (by omega) hk] at hdata
  rw [← hdata, slotBytes, disk, update_self, ← hf.bitmap]
  rfl

theorem slot_name {i : ℕ} (hi : i < 2 + files.length) :
    direntName (slotBytes (disk D) (volume h).blk ROOTINO i) =
      (rootEntry (names files) i).1.take DIRSIZ := by
  rw [direntName_congr fun k hk => hf.slot_eq hi hk, direntName_dirent_take (rootEntry_nul files i)]

theorem slot_inum (hcount : files.length + 1 < NINODES) {i : ℕ} (hi : i < 2 + files.length) :
    direntInum (slotBytes (disk D) (volume h).blk ROOTINO i) = (rootEntry (names files) i).2 := by
  have hlt : i < 2 ^ 16 := by
    change files.length + 1 < 200 at hcount
    omega
  rw [direntInum_congr fun k hk => hf.slot_eq hi hk, direntInum_dirent, (rootEntry_inum hlt).1]

end Finished

def noInode : Inode := ⟨0, 0, false, false, ⟨0, 0, 0, 0, 0, fun _ => 0⟩⟩

def rootInode (D : ℕ → Dinode) : Inode := ⟨ROOTINO, 1, true, true, rounded (D ROOTINO)⟩

section
variable (hf : Finished files D h)
include hf

theorem dirlookup_slot (hcount : files.length + 1 < NINODES)
    {name : List Byte} {j : ℕ} (hj : j < 2 + files.length)
    (hbefore : ∀ i < j, (rootEntry (names files) i).1.take DIRSIZ ≠ name)
    (hname : (rootEntry (names files) j).1.take DIRSIZ = name) {t : Vol}
    (ht : Pair (volume h) (rootInode D) noInode t) {Q : Option (Ix × ℕ) → Vol → Prop}
    (hget : wp (iget (rootEntry (names files) j).2) (fun e => Q (some (e, DIRENTSIZE * j))) E t) :
    wp (dirlookup 0 name) Q E t := by
  have hself : Finished.disk D ROOTINO = rounded (D ROOTINO) := update_self ..
  have htype : (rounded (D ROOTINO)).type = T_DIR := congrArg Node.type hf.root_node
  have hsize : DIRENTSIZE * (j + 1) ≤ (D ROOTINO).size := by
    rw [hf.root_size]
    exact mul_le_mul_left _ (by omega)
  have hround : DIRENTSIZE * (j + 1) ≤ (rounded (D ROOTINO)).size := by
    change _ ≤ ((D ROOTINO).size / BSIZE + 1) * BSIZE
    simp only [BSIZE]
    omega
  have hcached : Cached superblock none {0} {0} (Finished.disk D) t := by
    refine cached_single hf.cached hf.disk_root_live ht.blk ht.sb ?_ fun e he => ?_
    · rw [ht.zero, rootInode, ← hself]
    · by_cases h1 : e = 1
      · rw [h1, ht.one]
        exact ⟨rfl, rfl⟩
      · exact ht.rest e he h1
  have hmap : ∀ y < DIRENTSIZE * (j + 1), (Finished.disk D ROOTINO).fileBlk t.blk
      (y / BSIZE) ≠ 0 := by
    intro y hy
    rw [hself, ht.blk, ← hf.bitmap]
    exact hf.mapped.byte ⟨by decide, fun h0 => absurd (htype.symm.trans h0) (by decide)⟩
      (fun hdev => absurd (htype.symm.trans hdev) (by decide)) (hy.trans_le hsize)
  unfold dirlookup
  apply wp_bind (wp_inode _)
  rw [ht.zero, rootInode, if_neg (not_not.mpr htype)]
  have hinum : (t.icache 0).inum = ROOTINO := congrArg Inode.inum ht.zero
  refine lookupLoop_slot hcached (Multiset.mem_singleton_self 0) hinum
    (congrArg Inode.valid ht.zero) (hself ▸ htype) (hself ▸ hround) hmap (fun i hi => ?_)
    (fun i hi => ?_) ?_ ?_ _ 0 (zero_le j) ?_
  · rw [ht.blk, hf.slot_inum hcount (by omega)]
    exact (rootEntry_inum (by change _ < 200 at hcount; omega)).2
  · rw [ht.blk, hf.slot_name (by omega)]
    exact hbefore i hi
  · rw [ht.blk, hf.slot_name hj, hname]
  · rw [ht.blk, hf.slot_inum hcount hj]
    exact hget
  · simp only [DIRENTSIZE, DIRSIZ] at *
    omega

theorem namei_slot (hcount : files.length + 1 < NINODES) {name : List Byte}
    (hne : name ≠ []) (hslash : slash ∉ name) {j : ℕ} (hj : j < 2 + files.length)
    (hbefore : ∀ i < j, (rootEntry (names files) i).1.take DIRSIZ ≠ name.take DIRSIZ)
    (hname : (rootEntry (names files) j).1.take DIRSIZ = name.take DIRSIZ)
    {Q : Option Ix → Vol → Prop} (hget : ∀ t, Pair (volume h) (rootInode D) noInode t →
      wp (iget (rootEntry (names files) j).2)
        (fun e u => wp (iunlockput 0) (fun _ w => Q (some e) w) E u) E t) (cwd : Ix) :
    wp (namei cwd (slash :: name)) Q E (volume h) := by
  have hstart : Pair (volume h) noInode noInode (volume h) :=
    ⟨rfl, rfl, rfl, rfl, fun _ _ _ => ⟨rfl, rfl⟩⟩
  have htype : (rounded (D ROOTINO)).type = T_DIR := congrArg Node.type hf.root_node
  unfold namei namex namexStart
  rw [if_pos (by rfl)]
  apply wp_bind
  apply wp_call (hstart.iget_zero rfl rfl)
  rintro _ t ⟨rfl, ht⟩
  rw [length_cons, namexLoop, skipelem_slash hne hslash]
  dsimp only
  have hdisk : diskInode t.sb t.blk ROOTINO = rounded (D ROOTINO) := by
    rw [ht.sb, ht.blk, show (volume h).sb = superblock from hf.ready.sb,
      hf.cached.disk ROOTINO (by decide) nofun, update_self]
  apply wp_call (ilock_load ht.zero (by rw [hdisk, htype]; decide))
  rintro _ _ rfl
  have hlocked := ht.put_zero (rootInode D)
  rw [hdisk, ← rootInode]
  apply wp_bind (wp_inode _)
  rw [hlocked.zero, if_neg (not_not.mpr (show (rootInode D).d.type = T_DIR from htype)),
    if_neg (by simp)]
  apply wp_bind
  apply dirlookup_slot hf hcount hj hbefore hname hlocked
  apply wp_conseq (hget _ hlocked)
  intro e u hu
  apply wp_call hu
  intro _ w hw
  rw [namexLoop]
  exact wp_pure (wp_pure hw)

theorem Finished.file_node {i : ℕ} {f : InFile} (hi : files[i]? = some f) :
    (D (i + 2)).node h.blk = fileNode T_FILE f.bytes := by
  apply node_of_view hf.view _ (show T_FILE ≠ 0 by decide)
  rw [image, if_neg (by change _ ≠ 1; omega), if_neg (by omega), Nat.add_sub_cancel, contents,
    List.getElem?_map, hi]
  rfl

/-- The file in slot `i + 2` is found, and is in the second entry of the cache then. -/
theorem namei_file (hcount : files.length + 1 < NINODES) {i : ℕ} {f : InFile}
    (hi : files[i]? = some f) (hne : f.entry ≠ []) (hslash : slash ∉ f.entry)
    (hbefore : ∀ k < i + 2, (rootEntry (names files) k).1.take DIRSIZ ≠ f.entry.take DIRSIZ)
    (cwd : Ix) : wp (namei cwd (slash :: f.entry)) (fun r t => r = some 1 ∧
      Pair (volume h) ⟨ROOTINO, 0, false, true, rounded (D ROOTINO)⟩
        ⟨i + 2, 1, false, false, noInode.d⟩ t) E (volume h) := by
  have hlt : i < files.length := (List.getElem?_eq_some_iff.mp hi).1
  have hentry : rootEntry (names files) (i + 2) = (f.entry, i + 2) := by
    rw [rootEntry, names, getD_eq_getElem?_getD, List.getElem?_map, hi]
    rfl
  have hnlink : (rounded (D ROOTINO)).nlink = 1 := congrArg Node.nlink hf.root_node
  refine namei_slot hf hcount hne hslash (j := i + 2) (by omega) hbefore (by rw [hentry]) ?_ cwd
  intro t ht
  rw [hentry]
  apply wp_conseq (ht.iget_one (show (0 : ℤ) < 1 by decide) (show ROOTINO ≠ i + 2 by
    change 1 ≠ _; omega) rfl)
  rintro _ u ⟨rfl, hu⟩
  apply wp_conseq (iunlockput_linked hu.zero le_rfl (by rw [hnlink]; decide))
  rintro _ _ rfl
  exact ⟨rfl, hu.put_zero _⟩

/-- What is read of the file through the second entry, once it is locked. -/
theorem readi_file (hcount : files.length + 1 < NINODES) {i : ℕ} {f : InFile}
    (hi : files[i]? = some f) {a : Inode} (ha : a.ref = 0 ∧ a.busy = false) {t : Vol}
    (ht : Pair (volume h) a ⟨i + 2, 1, true, true, D (i + 2)⟩ t) {off n : ℕ}
    (hin : off + n ≤ f.bytes.length) : wp (readi 1 off n) (fun r u => u = t ∧ r.1 = n ∧
      ∀ k < n, f.bytes[off + k]? = some (r.2 k)) E t := by
  have hlt : i < files.length := (List.getElem?_eq_some_iff.mp hi).1
  have hnode := hf.file_node hi
  have htype : (D (i + 2)).type = T_FILE := congrArg Node.type hnode
  have hsize : (D (i + 2)).size = f.bytes.length := congrArg Node.size hnode
  have hdev : (D (i + 2)).type ≠ T_DEV := by
    rw [htype]
    decide
  have hlive : Live superblock D (i + 2) := by
    refine ⟨by change _ < 200; change _ < 200 at hcount; omega, ?_⟩
    rw [htype]
    decide
  have hself : Finished.disk D (i + 2) = D (i + 2) :=
    update_of_ne (by change _ ≠ 1; omega) ..
  have hcached : Cached superblock none {1} {1} (Finished.disk D) t := by
    refine cached_single hf.cached ⟨hlive.1, hself ▸ hlive.2⟩ ht.blk ht.sb ?_ fun e he => ?_
    · rw [ht.one, ← hself]
    · by_cases h0 : e = 0
      · rw [h0, ht.zero]
        exact ha
      · exact ht.rest e h0 he
  have hmap : ∀ y, off ≤ y → y < off + n →
      (Finished.disk D (i + 2)).fileBlk t.blk (y / BSIZE) ≠ 0 := by
    intro y _ hy
    rw [hself, ht.blk, ← hf.bitmap]
    exact hf.mapped.byte hlive hdev (by omega)
  apply wp_conseq (readi_mapped hcached (Multiset.mem_singleton_self 1)
    (congrArg Inode.inum ht.one) (congrArg Inode.valid ht.one) (hself ▸ hdev) (by rw [hself]; omega)
    hmap)
  rintro _ _ ⟨rfl, rfl⟩
  refine ⟨rfl, rfl, fun k hk => ?_⟩
  have hdata := congrFun (congrArg Node.data hnode) (off + k)
  change (if _ then _ else _) = bytesOf f.bytes (off + k) at hdata
  rw [if_pos ⟨hdev, by omega⟩, bytesOf, getD_eq_getElem _ _ (by omega)] at hdata
  dsimp only
  rw [if_pos hk, hself, ht.blk, ← hf.bitmap, hdata, List.getElem?_eq_getElem]

end

theorem eq_of_take {l m : List Byte} (hm : m.length < DIRSIZ) (h : m.take DIRSIZ = l.take DIRSIZ) :
    l = m := by
  rw [take_of_length_le hm.le] at h
  have hlen : (l.take DIRSIZ).length = m.length := by rw [h]
  rw [length_take] at hlen
  rw [h, take_of_length_le (by omega)]

/-- `mkfs` writes an image for every list of files that fits, and the kernel that mounts it finds
each of the files under its name, with its size and its bytes, except those called `.` and `..`. -/
theorem mkfs_kernel_agree (files : List InFile) (cwd : Ix)
    (hname : ∀ f ∈ files, f.entry ≠ [] ∧ slash ∉ f.entry)
    (hdistinct : files.Pairwise fun f g => f.entry.take DIRSIZ ≠ g.entry.take DIRSIZ)
    (hcount : files.length + 1 < NINODES)
    (hsize : ∀ f ∈ files, f.bytes.length ≤ MAXFILE * BSIZE)
    (htotal : total (names files) (contents files) ≤ FSSIZE) :
    ∃ h, main files start = .ok ((), h) ∧
      ∀ f ∈ files, f.entry ≠ dot → f.entry ≠ dotdot → ∃ e v v',
      namei cwd (slash :: f.entry) (mount h.blk) = .ok (some e, v) ∧
      ilock e v = .ok ((), v') ∧
      (v'.icache e).d.type = T_FILE ∧ (v'.icache e).d.size = f.bytes.length ∧
      ∀ off n, off + n ≤ f.bytes.length → ∃ dst, readi e off n v' = .ok (((n : ℤ), dst), v') ∧
        ∀ k < n, f.bytes[off + k]? = some (dst k) := by
  have hacc : ∀ f ∈ files, Accepted (fun _ => False) f := by
    intro f hf
    refine .inr ⟨fun hslash => ?_, hsize f hf⟩
    apply (hname f hf).2
    unfold InFile.entry
    split_ifs with hhead
    · cases hcons : f.name with
      | nil => rw [hcons] at hslash; cases hslash
      | cons c l =>
        rw [hcons] at hslash hhead
        rcases mem_cons.mp hslash with rfl | htail
        · exact absurd (some.inj hhead) (by decide)
        · exact htail
    · exact hslash
  obtain ⟨⟨⟩, h, hok, D, hfin⟩ := exists_ok (main_spec files hcount hacc (.inr htotal))
  refine ⟨h, hok, fun f hf hdot hdotdot => ?_⟩
  obtain ⟨i, hlt, rfl⟩ := getElem_of_mem hf
  have hi : files[i]? = some files[i] := List.getElem?_eq_getElem hlt
  have hbefore : ∀ k < i + 2,
      (rootEntry (names files) k).1.take DIRSIZ ≠ files[i].entry.take DIRSIZ := by
    intro k hk
    rcases k with _ | _ | k
    · exact fun heq => hdot (eq_of_take (by decide) heq)
    · exact fun heq => hdotdot (eq_of_take (by decide) heq)
    · have hklt : k < files.length := by omega
      rw [rootEntry, names, getD_eq_getElem?_getD, List.getElem?_map, List.getElem?_eq_getElem hklt]
      exact pairwise_iff_getElem.mp hdistinct k i hklt hlt (by omega)
  rw [mount_eq hfin]
  obtain ⟨_, v, hnamei, rfl, hv⟩ := exists_ok
    (namei_file hfin hcount hi (hname _ hf).1 (hname _ hf).2 hbefore cwd)
  have hnode := hfin.file_node hi
  have htype : (D (i + 2)).type = T_FILE := congrArg Node.type hnode
  have hdisk : diskInode v.sb v.blk (i + 2) = D (i + 2) := by
    rw [hv.sb, hv.blk, show (volume h).sb = superblock from hfin.ready.sb,
      hfin.cached.disk (i + 2) (by change _ < 200; change _ < 200 at hcount; omega) (by simp),
      update_of_ne (by change _ ≠ 1; omega)]
  obtain ⟨⟨⟩, v', hilock, hv'⟩ := exists_ok (ilock_load hv.one (by rw [hdisk, htype]; decide))
  rw [hdisk] at hv'
  have hpair := hv.put_one ⟨i + 2, 1, true, true, D (i + 2)⟩
  rw [← hv'] at hpair
  refine ⟨1, v, v', hnamei, hilock, ?_, ?_, fun off n hin => ?_⟩
  · rw [hpair.one]
    exact htype
  · rw [hpair.one]
    exact congrArg Node.size hnode
  · obtain ⟨⟨r, dst⟩, u, hread, rfl, rfl, hbytes⟩ :=
      exists_ok (readi_file hfin hcount hi ⟨rfl, rfl⟩ hpair hin)
    exact ⟨dst, hread, hbytes⟩

def sampleFile : InFile := ⟨[0x5f, 0x61], [[1, 2, 3]], by decide, by decide⟩

theorem mkfs_kernel_agree_one : ∃ h, main [sampleFile] start = .ok ((), h) ∧ ∃ e v v' dst,
    namei 0 [slash, 0x61] (mount h.blk) = .ok (some e, v) ∧ ilock e v = .ok ((), v') ∧
    (v'.icache e).d.type = T_FILE ∧ (v'.icache e).d.size = 3 ∧
    readi e 0 3 v' = .ok ((3, dst), v') ∧ dst 0 = 1 ∧ dst 1 = 2 ∧ dst 2 = 3 := by
  obtain ⟨h, hok, hall⟩ := mkfs_kernel_agree [sampleFile] 0 (by decide) (by simp) (by decide)
    (by decide) (by decide)
  obtain ⟨e, v, v', hnamei, hilock, htype, hsize, hread⟩ :=
    hall sampleFile (by simp) (by decide) (by decide)
  obtain ⟨dst, hreadi, hdst⟩ := hread 0 3 (by decide)
  refine ⟨h, hok, e, v, v', dst, hnamei, hilock, htype, hsize, hreadi, ?_, ?_, ?_⟩
  · exact (some.inj (hdst 0 (by decide))).symm
  · exact (some.inj (hdst 1 (by decide))).symm
  · exact (some.inj (hdst 2 (by decide))).symm

/-- The name of this file in the image is `.`. -/
def dotFile : InFile := ⟨[0x5f, 0x2e], [[7]], by decide, by decide⟩

/-- It cannot be reached: the path leads to the root directory. -/
theorem mkfs_dot_hidden : (dotFile.entry ≠ [] ∧ slash ∉ dotFile.entry) ∧
    total (names [dotFile]) (contents [dotFile]) ≤ FSSIZE ∧
    ∃ h, main [dotFile] start = .ok ((), h) ∧ ∃ e v v',
      namei 0 (slash :: dotFile.entry) (mount h.blk) = .ok (some e, v) ∧
      ilock e v = .ok ((), v') ∧ (v'.icache e).d.type = T_DIR := by
  refine ⟨by decide, by decide, ?_⟩
  obtain ⟨⟨⟩, h, hok, D, hfin⟩ := exists_ok (main_spec (E := fun _ => False) [dotFile] (by decide)
    (fun f hf => .inr (by rw [mem_singleton.mp hf]; decide)) (.inr (by decide)))
  refine ⟨h, hok, ?_⟩
  rw [mount_eq hfin]
  have htype : (rounded (D ROOTINO)).type = T_DIR := congrArg Node.type hfin.root_node
  have hnlink : (rootInode D).d.nlink = 1 := congrArg Node.nlink hfin.root_node
  have hwalk : wp (namei 0 (slash :: dotFile.entry)) (fun r t => r = some 0 ∧
      Pair (volume h) ⟨ROOTINO, 1, false, true, rounded (D ROOTINO)⟩ noInode t) (fun _ => False)
      (volume h) := by
    refine namei_slot hfin (by decide) (by decide) (by decide) (j := 0) (by decide) (by simp) rfl
      (fun t ht => ?_) 0
    apply wp_conseq (ht.iget_again (show (0 : ℤ) < 1 by decide) rfl)
    rintro _ u ⟨rfl, hu⟩
    apply wp_conseq (iunlockput_linked hu.zero (show (1 : ℤ) ≤ 1 + 1 by decide)
      (by rw [hnlink]; decide))
    rintro _ _ rfl
    exact ⟨rfl, hu.put_zero _⟩
  obtain ⟨_, v, hnamei, rfl, hv⟩ := exists_ok hwalk
  obtain ⟨⟨⟩, v', hilock, rfl⟩ := exists_ok (ilock_valid (E := fun _ => False) hv.zero)
  refine ⟨0, v, _, hnamei, hilock, ?_⟩
  simpa using htype

end Xv6Threads.Mkfs
