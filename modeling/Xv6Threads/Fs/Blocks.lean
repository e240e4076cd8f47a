import Mathlib.Data.Finset.Image
import Xv6Threads.Fs.Cache

namespace Xv6Threads.Fs

open Bytes Function Dinode Fin Vol

variable {sb : Superblock} {x : Option ℕ} {H : Multiset Ix} {L : Finset Ix}
  {D D' D'' : ℕ → Dinode} {B B' B'' : ℕ → Block} {s t : Vol} {e : Ix} {n bn : ℕ} {E : Stop → Prop}

def bitmap (sb : Superblock) : Finset ℕ := (Finset.range sb.size).image (bblock sb)

theorem bblock_mem_bitmap {b : ℕ} (hb : b < sb.size) : bblock sb b ∈ bitmap sb :=
  Finset.mem_image_of_mem _ (Finset.mem_range.mpr hb)

theorem Geometry.iblock_ne_super (g : Geometry sb) (n : ℕ) : iblock sb n ≠ 1 := by
  have hle : sb.inodestart ≤ iblock sb n := inodestart_le_iblock n
  have hone := g.inodes
  omega

theorem Cached.setD (h : Cached sb x H L D s) (he : e ∈ H) (hn : (s.icache e).inum = n)
    (hx : x = none ∨ x = some n) {d : Dinode} (hd : d.Fits) (ht : d.type ≠ 0) :
    Cached sb (some n) H L (update D n d) (s.put e { s.icache e with d := d }) := by
  subst hn
  have hother : ∀ e' ∈ H, e' ≠ e → update D (s.icache e).inum d (s.icache e').inum =
      D (s.icache e').inum := fun e' he' hne => update_of_ne (h.inum_ne he e' he' hne) ..
  refine ⟨h.mounted, h.super, ?_, ?_, h.locked, ?_, ?_, ?_, ?_, ?_⟩
  · intro e'
    rw [put_icache]
    split_ifs with hne
    · rw [hne]
      exact h.ref e
    · exact h.ref e'
  · intro e'
    rw [put_icache]
    split_ifs with hne
    · rw [hne]
      exact h.busy e
    · exact h.busy e'
  · intro e' he'
    rw [put_icache]
    split_ifs
    · exact h.inum e he
    · exact h.inum e' he'
  · intro a ha b hb hab
    apply h.one a ha b hb
    simp only [put_icache] at hab
    split_ifs at hab with hae hbe hbe
    · rw [hae, hbe]
    · rw [hae]
      exact hab
    · rw [hbe]
      exact hab
    · exact hab
  · intro e' he' hv'
    by_cases hne : e' = e
    · simp only [put_icache, if_pos hne, update_self]
      exact ⟨trivial, ht⟩
    · simp only [put_icache, if_neg hne] at hv' ⊢
      rw [hother e' he' hne]
      exact h.valid e' he' hv'
  · intro m hm hxm
    have hne : m ≠ (s.icache e).inum := fun heq => hxm (by rw [heq])
    rw [update_of_ne hne]
    apply h.disk m hm
    rcases hx with rfl | rfl
    · simp
    · exact hxm
  · intro m hm
    by_cases hne : m = (s.icache e).inum
    · rw [hne, update_self]
      exact hd
    · rw [update_of_ne hne]
      exact h.fits m hm

/-- The inode block of `n` is replaced by one in which `n` is `D n`. -/
theorem Cached.writeInode (h : Cached sb x H L D s) (g : Geometry sb) (hx : x = none ∨ x = some n)
    (hn : n < sb.ninodes) :
    Cached sb none H L D (s.log (iblock sb n) (writeDinode (s.blk (iblock sb n)) (ioff n)
      (D n))) := by
  refine ⟨h.mounted, ?_, h.ref, h.busy, h.locked, h.inum, h.one, h.valid, ?_, h.fits⟩
  · rw [log_blk, update_of_ne (g.iblock_ne_super n).symm]
    exact h.super
  · intro m hm _
    rw [log_blk, diskInode_writeDinode (h.fits n hn)]
    split_ifs with hmn
    · rw [hmn]
    · apply h.disk m hm
      rcases hx with rfl | rfl
      · simp
      · simpa using Ne.symm hmn

theorem iupdate_spec (h : Cached sb x H L D s) (g : Geometry sb) (he : e ∈ H)
    (hv : (s.icache e).valid = true) (hx : x = none ∨ x = some (s.icache e).inum) :
    wp (iupdate e) (fun _ t => Cached sb none H L D t ∧ t.icache = s.icache ∧
      Touches {iblock sb (s.icache e).inum} s t) E s := by
  unfold iupdate
  apply wp_bind (wp_get _)
  apply wp_logWrite
  simp only [h.mounted, h.d_eq he hv]
  exact ⟨h.writeInode g hx (h.inum e he), rfl, Touches.log ..⟩

/-- The state after `balloc` has handed out `b`. -/
def Vol.alloc (s : Vol) (sb : Superblock) (b : ℕ) : Vol :=
  { (s.log (bblock sb b) Buf.zero).log b Buf.zero with blk := allocBlk sb s.blk b }

def Vol.release (s : Vol) (sb : Superblock) (b : ℕ) : Vol :=
  { s.log (bblock sb b) Buf.zero with blk := freeBlk sb s.blk b }

theorem balloc_spec (hsb : s.sb = sb) (hE : Tolerant E) :
    wp balloc (fun b t => b < sb.size ∧ marked sb s.blk b = false ∧ t = s.alloc sb b) E s := by
  unfold balloc
  apply wp_bind (wp_get _)
  rw [hsb]
  cases hfind : (List.range sb.size).find? fun b => !(s.blk (bblock sb b)).bit (b % BPB) with
  | none => exact wp_throw (hE _ (by simp) (by simp))
  | some b =>
    have hlt : b < sb.size := List.mem_range.mp (List.mem_of_find?_eq_some hfind)
    have hfree : marked sb s.blk b = false := by simpa [marked] using List.find?_some hfind
    apply wp_bind (wp_logWrite _)
    unfold bzero
    apply wp_bind (wp_logWrite _)
    exact wp_pure ⟨hlt, hfree, rfl⟩

theorem bfree_spec (hsb : s.sb = sb) (hsuper : readSuperblock (s.blk 1) = sb) {b : ℕ}
    (hb : marked sb s.blk b = true) : wp (bfree b) (fun _ t => t = s.release sb b) E s := by
  unfold bfree readsb
  apply wp_bind (wp_modify _)
  apply wp_bind (wp_get _)
  simp only [hsuper]
  apply wp_ite
  · intro _
    apply wp_logWrite
    subst hsb
    rfl
  · intro hnot
    exact absurd hb hnot

theorem ne_bblock {c : ℕ} (hc : c < sb.bmapstart) (b : ℕ) : c ≠ bblock sb b := by
  have hle : sb.bmapstart ≤ bblock sb b := bmapstart_le_bblock b
  omega

theorem Geometry.one_lt (g : Geometry sb) : 1 < sb.bmapstart :=
  g.inodes.trans ((Nat.le_add_right ..).trans_lt g.bitmap)

section

variable (h : Cached sb x H L D s) (g : Geometry sb)
include h g

theorem Cached.alloc {b : ℕ} (hb : dataStart sb ≤ b) : Cached sb x H L D (s.alloc sb b) := by
  have hbm := g.bmapstart_lt
  have hsame : ∀ c < sb.bmapstart, (s.alloc sb b).blk c = s.blk c := by
    intro c hc
    exact allocBlk_of_ne (by omega) (ne_bblock hc b)
  exact h.frame rfl rfl (hsame 1 g.one_lt) fun n hn => hsame _ (g.iblock_lt hn)

theorem Cached.release (b : ℕ) : Cached sb x H L D (s.release sb b) := by
  have hsame : ∀ c < sb.bmapstart, (s.release sb b).blk c = s.blk c := by
    intro c hc
    exact freeBlk_of_ne (ne_bblock hc b)
  exact h.frame rfl rfl (hsame 1 g.one_lt) fun n hn => hsame _ (g.iblock_lt hn)

theorem Cached.logData {b : ℕ}
    (hb : dataStart sb ≤ b) (data : Block) : Cached sb x H L D (s.log b data) := by
  have hbm := g.bmapstart_lt
  have hsame : ∀ c < sb.bmapstart, (s.log b data).blk c = s.blk c := by
    intro c hc
    exact update_of_ne (by omega) ..
  exact h.frame rfl rfl (hsame 1 g.one_lt) fun n hn => hsame _ (g.iblock_lt hn)

end

/-- Inode `n` has got more blocks; nothing that was there has changed. -/
structure Grown (sb : Superblock) (n : ℕ) (D : ℕ → Dinode) (B : ℕ → Block) (D' : ℕ → Dinode)
    (B' : ℕ → Block) : Prop where
  other : ∀ m, m ≠ n → D' m = D m
  self : D' n = { D n with addrs := (D' n).addrs }
  last : (D n).addrs (last NDIRECT) ≠ 0 →
    (D' n).addrs (last NDIRECT) = (D n).addrs (last NDIRECT)
  keeps : ∀ m, Live sb D m → Keeps D D' B B' m

namespace Grown

theorem refl : Grown sb n D B D B := ⟨fun _ _ => rfl, rfl, fun _ => rfl, fun m _ => Keeps.refl m⟩

theorem live (h : Grown sb n D B D' B') {m : ℕ} : Live sb D' m ↔ Live sb D m := by
  by_cases hm : m = n
  · rw [hm, Live, h.self, Live]
  · rw [Live, h.other m hm, Live]

theorem trans (h : Grown sb n D B D' B') (h' : Grown sb n D' B' D'' B'') :
    Grown sb n D B D'' B'' := by
  refine ⟨fun m hm => (h'.other m hm).trans (h.other m hm), ?_, ?_, ?_⟩
  · rw [h'.self, h.self]
  · intro h0
    have hlast := h.last h0
    exact (h'.last (by rwa [hlast])).trans hlast
  · intro m hm
    exact (h.keeps m hm).trans (h'.keeps m (h.live.mpr hm))

end Grown

theorem grown_allocAddr (ho : Owned sb D B) (g : Geometry sb) (hn : Live sb D n)
    {i : Fin (NDIRECT + 1)} (h0 : (D n).addrs i = 0) {b : ℕ} (hb : b < sb.size)
    (hfree : marked sb B b = false) :
    Grown sb n D B (update D n ((D n).setAddr i b)) (allocBlk sb B b) := by
  refine ⟨fun m hm => update_of_ne hm .., ?_, ?_, ?_⟩
  · rw [update_self]
    rfl
  · intro hlast
    rw [update_self, setAddr_addrs, if_neg]
    intro hi
    rw [hi, h0] at hlast
    exact hlast rfl
  · intro m hm
    have htype : (update D n ((D n).setAddr i b) m).type = (D m).type := by
      by_cases hmn : m = n
      · rw [hmn, update_self]
        rfl
      · rw [update_of_ne hmn]
    have hsize : (update D n ((D n).setAddr i b) m).size = (D m).size := by
      by_cases hmn : m = n
      · rw [hmn, update_self]
        rfl
      · rw [update_of_ne hmn]
    refine ⟨htype, hsize, ?_⟩
    intro k _ hk0
    have hptr := ho.ptrs_allocAddr g hn h0 hb hfree (m, k)
    rw [← ptrs_of_live hm k] at hk0 ⊢
    -- the pointer that was null is not this one
    have hne : (m, k) ≠ (n, i.val) := by
      rintro heq
      rw [heq, ptrs_of_live hn, ptr_direct, h0] at hk0
      exact hk0 rfl
    rw [if_neg hne, ptrs_of_live (live_setAddr.mpr hm)] at hptr
    exact ⟨hptr, ho.allocBlk_frame g hb hfree (m, k) hk0⟩

theorem grown_allocEntry (ho : Owned sb D B) (g : Geometry sb) (hn : Live sb D n) {j : ℕ}
    (hj : j < NINDIRECT) (hlast : (D n).addrs (last NDIRECT) ≠ 0)
    (h0 : (D n).ptr B (NDIRECT + 1 + j) = 0) {b : ℕ} (hb : b < sb.size)
    (hfree : marked sb B b = false) :
    Grown sb n D B D (update (allocBlk sb B b) ((D n).addrs (last NDIRECT))
      ((allocBlk sb B b ((D n).addrs (last NDIRECT))).setField (4 * j) 4 b)) := by
  refine ⟨fun _ _ => rfl, rfl, fun _ => rfl, ?_⟩
  intro m hm
  refine ⟨rfl, rfl, ?_⟩
  intro k hk hk0
  have hptr := ho.ptrs_allocEntry g hn hj hlast hb hfree (m, k)
  have hne : (m, k) ≠ (n, NDIRECT + 1 + j) := by
    intro heq
    obtain ⟨rfl, rfl⟩ := Prod.mk.inj heq
    exact hk0 h0
  -- a data block of `m` is not the indirect block of `n`
  have hib : (D m).ptr B k ≠ (D n).addrs (last NDIRECT) :=
    (ho.last_ne hn hm (fun h => hk h.2.symm) hlast).symm
  rw [if_neg hne, ptrs_of_live hm, ptrs_of_live hm] at hptr
  refine ⟨hptr, ?_⟩
  rw [update_of_ne hib, ← ptrs_of_live hm k]
  exact ho.allocBlk_frame g hb hfree (m, k) (by rwa [ptrs_of_live hm])

theorem Dinode.Fits.setAddr {d : Dinode} (h : d.Fits) (i : Fin (NDIRECT + 1)) {b : ℕ}
    (hb : b < 2 ^ 32) : (d.setAddr i b).Fits := by
  refine ⟨h.type, h.major, h.minor, h.nlink, h.size, ?_⟩
  intro j
  rw [setAddr_addrs]
  split_ifs
  · exact hb
  · exact h.addrs j

/-- What `bmap` returns and leaves behind. A block that was there is returned as it is; otherwise
blocks are allocated, the log gets them, blocks of the bitmap and the indirect block. -/
structure BmapPost (sb : Superblock) (H : Multiset Ix) (L : Finset Ix) (D : ℕ → Dinode)
    (s : Vol) (n bn b : ℕ) (D' : ℕ → Dinode) (t : Vol) : Prop where
  cached : Cached sb (some n) H L D' t
  owned : Owned sb D' t.blk
  grown : Grown sb n D s.blk D' t.blk
  blk : (D' n).fileBlk t.blk bn = b
  ne : b ≠ 0
  idle : (D n).fileBlk s.blk bn ≠ 0 → D' = D ∧ t = s
  kept : Kept H s t

theorem Cached.weaken (h : Cached sb x H L D s) (hx : x = none ∨ x = some n) :
    Cached sb (some n) H L D s := by
  refine ⟨h.mounted, h.super, h.ref, h.busy, h.locked, h.inum, h.one, h.valid, ?_, h.fits⟩
  intro m hm hne
  apply h.disk m hm
  rcases hx with rfl | rfl
  · simp
  · exact hne

theorem Dinode.fileBlk_direct (d : Dinode) (B : ℕ → Block) (hd : bn < NDIRECT) :
    d.fileBlk B bn = d.addrs ⟨bn, Nat.lt_succ_of_lt hd⟩ := by
  rw [fileBlk, if_pos hd]
  exact d.ptr_direct B ⟨bn, Nat.lt_succ_of_lt hd⟩

theorem Dinode.fileBlk_indirect (d : Dinode) (B : ℕ → Block) (hd : ¬ bn < NDIRECT) :
    d.fileBlk B bn = d.ptr B (NDIRECT + 1 + (bn - NDIRECT)) := by
  rw [fileBlk, if_neg hd, show bn + 1 = NDIRECT + 1 + (bn - NDIRECT) by omega]

theorem addrOf_mapped (h : Cached sb x H L D s) (he : e ∈ H) (hv : (s.icache e).valid = true)
    {i : Fin (NDIRECT + 1)} (h0 : (D (s.icache e).inum).addrs i ≠ 0) :
    wp (addrOf e i) (fun b t => b = (D (s.icache e).inum).addrs i ∧ s = t) E s := by
  unfold addrOf
  apply wp_bind (wp_inode _)
  rw [h.d_eq he hv, if_pos h0]
  exact wp_pure ⟨rfl, rfl⟩

theorem entryOf_mapped {ib j : ℕ} (h0 : (s.blk ib).field (4 * j) 4 ≠ 0) :
    wp (entryOf ib j) (fun b t => b = (s.blk ib).field (4 * j) 4 ∧ s = t) E s := by
  unfold entryOf
  apply wp_bind (wp_bind (wp_get (wp_pure _)))
  rw [if_pos h0]
  exact wp_pure ⟨rfl, rfl⟩

theorem bmap_mapped (h : Cached sb x H L D s) (he : e ∈ H) (hv : (s.icache e).valid = true)
    (h0 : (D (s.icache e).inum).fileBlk s.blk bn ≠ 0) :
    wp (bmap e bn) (fun b t => b = (D (s.icache e).inum).fileBlk s.blk bn ∧ s = t) E s := by
  unfold bmap
  by_cases hd : bn < NDIRECT
  · rw [dif_pos hd]
    rw [fileBlk_direct _ _ hd] at h0 ⊢
    exact addrOf_mapped h he hv h0
  · rw [dif_neg hd]
    rw [fileBlk_indirect _ _ hd] at h0 ⊢
    have hfacts : (D (s.icache e).inum).addrs (last NDIRECT) ≠ 0 ∧
        bn - NDIRECT < NINDIRECT := by
      rw [ptr, dif_neg (by omega)] at h0
      by_contra hnot
      rw [if_neg (by omega)] at h0
      exact h0 rfl
    obtain ⟨hlast, hj⟩ := hfacts
    rw [ptr_entry _ _ hj hlast] at h0 ⊢
    rw [if_pos hj]
    apply wp_call (addrOf_mapped h he hv hlast)
    rintro _ _ ⟨rfl, rfl⟩
    exact entryOf_mapped h0

section
variable (h : Cached sb x H L D s) (g : Geometry sb) (ho : Owned sb D s.blk) (hE : Tolerant E)
include h g ho hE

theorem addrOf_alloc (he : e ∈ H) (hv : (s.icache e).valid = true)
    (hx : x = none ∨ x = some (s.icache e).inum) {i : Fin (NDIRECT + 1)}
    (h0 : (D (s.icache e).inum).addrs i = 0) : wp (addrOf e i) (fun b t =>
      b < sb.size ∧ marked sb s.blk b = false ∧ Cached sb (some (s.icache e).inum) H L
        (update D (s.icache e).inum ((D (s.icache e).inum).setAddr i b)) t ∧
      t.blk = allocBlk sb s.blk b ∧ Kept H s t) E s := by
  unfold addrOf
  apply wp_bind (wp_inode _)
  rw [h.d_eq he hv, if_neg (not_not.mpr h0)]
  apply wp_call (balloc_spec h.mounted hE)
  rintro b _ ⟨hb, hfree, rfl⟩
  have hlive := h.live he hv
  have hrange := (ho.unowned hb hfree).1
  have hsize := g.size
  have ha := h.alloc g hrange
  apply wp_bind (wp_setD _)
  apply wp_pure
  have hd : ((s.alloc sb b).icache e).d = D (s.icache e).inum := h.d_eq he hv
  rw [hd]
  have hkept : Kept H s (s.alloc sb b) := Kept.of_icache rfl
  refine ⟨hb, hfree, ?_, rfl, hkept.trans (Kept.put (fun _ => rfl) fun _ => id)⟩
  exact ha.setD he rfl hx ((h.fits _ (h.inum e he)).setAddr i (by omega)) hlive.2

/-- `bmap` of a block that is not there, with an address of its own. -/
theorem bmap_direct (he : e ∈ H) (hv : (s.icache e).valid = true)
    (hx : x = none ∨ x = some (s.icache e).inum) (hd : bn < NDIRECT)
    (h0 : (D (s.icache e).inum).fileBlk s.blk bn = 0) :
    wp (bmap e bn) (fun b t => ∃ D', BmapPost sb H L D s (s.icache e).inum bn b D' t) E s := by
  have hlive := h.live he hv
  have haddr := h0
  rw [fileBlk_direct _ _ hd] at haddr
  unfold bmap
  rw [dif_pos hd]
  apply wp_conseq (addrOf_alloc h g ho hE he hv hx haddr)
  rintro b t ⟨hb, hfree, hc, hblk, hkept⟩
  have hpos := (ho.unowned hb hfree).1
  have hstart := ho.pos
  refine ⟨_, hc, ?_, ?_, ?_, by omega, absurd h0, hkept⟩
  · rw [hblk]
    exact ho.allocAddr g hlive haddr hb hfree
  · rw [hblk]
    exact grown_allocAddr ho g hlive haddr hb hfree
  · rw [update_self, fileBlk_direct _ _ hd, setAddr_addrs, if_pos rfl]

/-- The last part of `bmap`: the indirect block is there, its entry is empty. -/
theorem entryOf_alloc (hn : Live sb D n) (hx : x = none ∨ x = some n) (hd : ¬ bn < NDIRECT)
    (hj : bn - NDIRECT < NINDIRECT) (hlast : (D n).addrs (last NDIRECT) ≠ 0)
    (h0 : (D n).fileBlk s.blk bn = 0) :
    wp (entryOf ((D n).addrs (last NDIRECT)) (bn - NDIRECT))
      (fun b t => BmapPost sb H L D s n bn b D t) E s := by
  have hp0 := h0
  rw [fileBlk_indirect _ _ hd] at hp0
  have hentry := hp0
  rw [(D n).ptr_entry s.blk hj hlast] at hentry
  unfold entryOf
  apply wp_bind (wp_bind (wp_get (wp_pure _)))
  rw [if_neg (not_not.mpr hentry)]
  apply wp_call (balloc_spec h.mounted hE)
  rintro b _ ⟨hb, hfree, rfl⟩
  apply wp_bind (wp_bind (wp_get (wp_pure _)))
  apply wp_bind (wp_logWrite _)
  apply wp_pure
  have hpos := (ho.unowned hb hfree).1
  have hstart := ho.pos
  have hptr := ho.ptrs_allocEntry g hn hj hlast hb hfree (n, NDIRECT + 1 + (bn - NDIRECT))
  rw [if_pos rfl, ptrs_of_live hn, ← fileBlk_indirect _ _ hd] at hptr
  have hc := (h.alloc g hpos).logData g (ho.indirect_range hn hlast).1
    (((s.alloc sb b).blk ((D n).addrs (last NDIRECT))).setField (4 * (bn - NDIRECT)) 4 b)
  refine ⟨hc.weaken hx, ho.allocEntry g hn hj hlast hp0 hb hfree,
    grown_allocEntry ho g hn hj hlast hp0 hb hfree, hptr, by omega, absurd h0, Kept.of_icache rfl⟩

/-- `bmap` of a block that is not there, reached through the indirect block. -/
theorem bmap_indirect (he : e ∈ H) (hv : (s.icache e).valid = true)
    (hx : x = none ∨ x = some (s.icache e).inum) (hd : ¬ bn < NDIRECT)
    (h0 : (D (s.icache e).inum).fileBlk s.blk bn = 0) :
    wp (bmap e bn) (fun b t => ∃ D', BmapPost sb H L D s (s.icache e).inum bn b D' t) E s := by
  have hlive := h.live he hv
  unfold bmap
  rw [dif_neg hd]
  apply wp_ite
  · intro hj
    by_cases hlast : (D (s.icache e).inum).addrs (last NDIRECT) = 0
    · -- the indirect block is allocated first
      apply wp_call (addrOf_alloc h g ho hE he hv hx hlast)
      rintro ib u ⟨hb, hfree, hc, hblk, hkept⟩
      have hrange := (ho.unowned hb hfree).1
      have hstart := ho.pos
      have ho' := ho.allocAddr g hlive hlast hb hfree
      have hgrown := grown_allocAddr ho g hlive hlast hb hfree
      rw [← hblk] at ho' hgrown
      have hib : (update D (s.icache e).inum ((D (s.icache e).inum).setAddr
          (last NDIRECT) ib) (s.icache e).inum).addrs (last NDIRECT) = ib := by
        rw [update_self, setAddr_addrs, if_pos rfl]
      have hempty : (update D (s.icache e).inum ((D (s.icache e).inum).setAddr
          (last NDIRECT) ib) (s.icache e).inum).fileBlk u.blk bn = 0 := by
        rw [update_self, fileBlk_indirect _ _ hd, hblk,
          ptr_setAddr_last _ (allocBlk_self ib) hlast, if_neg (by omega),
          ptr, dif_neg (by omega), if_neg (by simp [hlast])]
      have hentry := entryOf_alloc (E := E) hc g ho' hE (hgrown.live.mpr hlive) (.inr rfl) hd hj
        (by rw [hib]; omega) hempty
      rw [hib] at hentry
      apply wp_conseq hentry
      rintro b t ⟨hc', ho'', hgrown', hfb, hne, -, hkept'⟩
      exact ⟨_, hc', ho'', hgrown.trans hgrown', hfb, hne, absurd h0, hkept.trans hkept'⟩
    · apply wp_call (addrOf_mapped h he hv hlast)
      rintro _ _ ⟨rfl, rfl⟩
      apply wp_conseq (entryOf_alloc h g ho hE hlive hx hd hj hlast h0)
      intro b t hpost
      exact ⟨D, hpost⟩
  · intro _
    exact wp_throw (hE _ (by simp) (by simp))

theorem bmap_spec (he : e ∈ H) (hv : (s.icache e).valid = true)
    (hx : x = none ∨ x = some (s.icache e).inum) :
    wp (bmap e bn) (fun b t => ∃ D', BmapPost sb H L D s (s.icache e).inum bn b D' t) E s := by
  by_cases h0 : (D (s.icache e).inum).fileBlk s.blk bn = 0
  · by_cases hd : bn < NDIRECT
    · exact bmap_direct h g ho hE he hv hx hd h0
    · exact bmap_indirect h g ho hE he hv hx hd h0
  · apply wp_conseq (bmap_mapped h he hv h0)
    rintro b _ ⟨hb, rfl⟩
    exact ⟨D, h.weaken hx, ho, Grown.refl, hb.symm, hb ▸ h0, fun _ => ⟨rfl, rfl⟩, Kept.refl H s⟩

end

end Xv6Threads.Fs
