import Mathlib.Data.Finset.Basic
import Xv6Threads.Fs.Blocks

namespace Xv6Threads.Fs

open Bytes Function Finset Dinode Vol Kept Fin

variable {sb : Superblock} {x : Option ℕ} {H : Multiset Ix} {L : Finset Ix}
  {D : ℕ → Dinode} {B : ℕ → Block} {s t u : Vol} {e : Ix} {n : ℕ} {E : Stop → Prop}

/-- The inode without its first `k` addresses. -/
def Dinode.cut (d : Dinode) (k : ℕ) : Dinode :=
  { d with addrs := fun i => if i.val < k then 0 else d.addrs i }

theorem Dinode.cut_zero (d : Dinode) : d.cut 0 = d := by
  simp [cut]

theorem Dinode.cut_addrs (d : Dinode) (k : ℕ) (i : Fin (NDIRECT + 1)) :
    (d.cut k).addrs i = if i.val < k then 0 else d.addrs i := rfl

theorem Dinode.setAddr_cut (d : Dinode) {k : ℕ} (hk : k < NDIRECT + 1) :
    (d.cut k).setAddr ⟨k, hk⟩ 0 = d.cut (k + 1) := by
  ext j
  case addrs =>
    simp only [setAddr_addrs, cut_addrs, Fin.ext_iff]
    split_ifs <;> omega
  all_goals rfl

theorem Dinode.cut_succ (d : Dinode) {k : ℕ} {hk : k < NDIRECT + 1} (h0 : d.addrs ⟨k, hk⟩ = 0) :
    d.cut (k + 1) = d.cut k := by
  ext j
  case addrs =>
    simp only [cut_addrs]
    by_cases hj : j.val = k
    · rw [show j = ⟨k, hk⟩ from Fin.ext hj, h0, ite_self, ite_self]
    · congr 1
      rw [eq_iff_iff]
      omega
  all_goals rfl

theorem Dinode.Fits.cut {d : Dinode} (h : d.Fits) (k : ℕ) : (d.cut k).Fits := by
  refine ⟨h.type, h.major, h.minor, h.nlink, h.size, ?_⟩
  intro i
  rw [cut_addrs]
  split_ifs
  · decide
  · exact h.addrs i

theorem Dinode.ptr_eq_zero (d : Dinode) (h : ∀ i, d.addrs i = 0) (B : ℕ → Block) (k : ℕ) :
    d.ptr B k = 0 := by
  unfold ptr
  split_ifs with hk hi
  · exact h _
  · exact absurd (h _) hi.1
  · rfl

/-- What `itrunc` has done when inode `n` has become `d`. -/
structure Truncating (sb : Superblock) (H : Multiset Ix) (L : Finset Ix) (D : ℕ → Dinode)
    (s : Vol) (n : ℕ) (d : Dinode) (t : Vol) : Prop where
  cached : Cached sb (some n) H L (update D n d) t
  owned : Owned sb (update D n d) t.blk
  touches : Touches (bitmap sb) s t
  kept : Kept H s t

/-- The state after `bfree` of a block that some pointer leads to. -/
theorem touches_release (s : Vol) {b : ℕ} (hb : b < sb.size) :
    Touches (bitmap sb) s (s.release sb b) := by
  have hmem := bblock_mem_bitmap hb
  constructor
  intro c hc
  exact freeBlk_of_ne fun heq => hc (heq ▸ hmem)

theorem live_cut {k m : ℕ} : Live sb (update D n ((D n).cut k)) m ↔ Live sb D m :=
  live_update (n := n) Iff.rfl

theorem truncDirect_spec (g : Geometry sb) (he : e ∈ H) (hn : (s.icache e).inum = n)
    (hv : (s.icache e).valid = true) (hlive : Live sb D n) (hfits : (D n).Fits) {k : ℕ}
    (hk : k < NDIRECT) (h : Truncating sb H L D s n ((D n).cut k) t) :
    wp (truncDirect e k) (fun _ => Truncating sb H L D s n ((D n).cut (k + 1))) E t := by
  obtain ⟨hc, ho, htouch, hkept⟩ := h
  have hinum : (t.icache e).inum = n := (hkept.inum e he).trans hn
  have hd : (t.icache e).d = (D n).cut k := by
    rw [hc.d_eq he (hkept.valid e he hv), hinum, update_self]
  have hk13 : k < NDIRECT + 1 := by omega
  unfold truncDirect
  apply wp_bind (wp_inode _)
  rw [dif_pos hk, hd]
  apply wp_ite
  · intro h0
    have hptr : ptrs sb (update D n ((D n).cut k)) t.blk (n, k) =
        ((D n).cut k).addrs ⟨k, hk13⟩ := by
      rw [ptrs_of_live (live_cut.mpr hlive), update_self]
      exact ptr_direct _ _ ⟨k, hk13⟩
    have hne : ptrs sb (update D n ((D n).cut k)) t.blk (n, k) ≠ 0 := by rwa [hptr]
    have hmark := ho.used_ptr hne
    have hrange := ho.range _ hne
    have hfree := ho.freeAddr g (live_cut.mpr hlive) (i := ⟨k, hk13⟩)
      (by simp [Fin.ext_iff]; omega) (by rwa [update_self])
    rw [hptr] at hmark hrange
    rw [update_self, update_idem, setAddr_cut] at hfree
    apply wp_call (bfree_spec hc.mounted hc.super hmark)
    rintro _ _ rfl
    apply wp_setD
    rw [show ((t.release sb _).icache e).d = (D n).cut k from hd, setAddr_cut]
    have hset := (hc.release g (((D n).cut k).addrs ⟨k, hk13⟩)).setD he hinum (.inr rfl)
      (hfits.cut (k + 1)) hlive.2
    rw [update_idem] at hset
    refine ⟨hset, hfree, ?_, ?_⟩
    · exact htouch.trans_self ((touches_release t hrange.2).trans_self ((Calm.put ..).touches _))
    · have hkept' : Kept H t (t.release sb (((D n).cut k).addrs ⟨k, hk13⟩)) := of_icache rfl
      exact hkept.trans (hkept'.trans (put (fun _ => rfl) fun _ => id))
  · intro h0
    rw [not_not, cut_addrs, if_neg (lt_irrefl k)] at h0
    have hcut := (D n).cut_succ h0
    apply wp_pure
    rw [hcut]
    exact ⟨hc, ho, htouch, hkept⟩

/-- The pointers with `j` entries of the indirect block of `n` blanked out. -/
def blanked (sb : Superblock) (D : ℕ → Dinode) (B : ℕ → Block) (n j : ℕ) (i : ℕ × ℕ) : ℕ :=
  if i.1 = n ∧ NDIRECT + 1 ≤ i.2 ∧ i.2 < NDIRECT + 1 + j then 0 else ptrs sb D B i

/-- What the second loop of `itrunc` has done after `j` turns. -/
structure Blanking (sb : Superblock) (H : Multiset Ix) (L : Finset Ix) (D : ℕ → Dinode)
    (s : Vol) (n j : ℕ) (t : Vol) : Prop where
  cached : Cached sb (some n) H L D t
  owns : Owns (dataStart sb) sb.size (blanked sb D s.blk n j) (marked sb t.blk)
  touches : Touches (bitmap sb) s t
  icache : t.icache = s.icache

theorem data_notMem_bitmap (g : Geometry sb) {b : ℕ} (hb : dataStart sb ≤ b) : b ∉ bitmap sb := by
  intro hmem
  obtain ⟨c, hc, rfl⟩ := mem_image.mp hmem
  have hlt := g.bblock_lt (mem_range.mp hc)
  omega

theorem truncIndirect_spec (g : Geometry sb) (ho : Owned sb D s.blk) (hlive : Live sb D n)
    (hlast : (D n).addrs (last NDIRECT) ≠ 0) {j : ℕ} (hj : j < NINDIRECT)
    (h : Blanking sb H L D s n j t) :
    wp (truncIndirect ((D n).addrs (last NDIRECT)) j) (fun _ => Blanking sb H L D s n
      (j + 1)) E t := by
  obtain ⟨hc, hown, htouch, hic⟩ := h
  have hib := data_notMem_bitmap g (ho.indirect_range hlive hlast).1
  -- entry `j` is as it was, and it is not blanked out yet
  have hptr : blanked sb D s.blk n j (n, NDIRECT + 1 + j) =
      (s.blk ((D n).addrs (last NDIRECT))).field (4 * j) 4 := by
    rw [blanked, if_neg (by simp), ptrs_of_live hlive, (D n).ptr_entry s.blk hj hlast]
  have hstep : ∀ i, blanked sb D s.blk n (j + 1) i =
      if i = (n, NDIRECT + 1 + j) then 0 else blanked sb D s.blk n j i := by
    rintro ⟨m, k⟩
    simp only [blanked, Prod.mk.injEq]
    split_ifs <;> first | rfl | omega
  unfold truncIndirect
  apply wp_bind (wp_bind (wp_get (wp_pure _)))
  rw [htouch.blk _ hib, ← hptr]
  apply wp_ite
  · intro h0
    apply wp_conseq (bfree_spec hc.mounted hc.super (hown.used_ptr h0))
    rintro _ _ rfl
    refine ⟨hc.release g _, hown.erase h0 hstep fun x _ => marked_freeBlk _ x, ?_, hic⟩
    exact htouch.trans_self (touches_release t (hown.range _ h0).2)
  · intro h0
    rw [not_not] at h0
    refine wp_pure ⟨hc, hown.congr ?_ fun _ _ => rfl, htouch, hic⟩
    intro i
    rw [hstep]
    split_ifs with hi
    · rw [hi, h0]
    · rfl

/-- Nothing of inode `n` is left when its indirect block is gone too. -/
theorem ptrs_cut (g : Geometry sb) (ho : Owned sb (update D n ((D n).cut NDIRECT)) s.blk)
    (htouch : Touches (bitmap sb) s t) (i : ℕ × ℕ) :
    ptrs sb (update D n ((D n).cut (NDIRECT + 1))) t.blk i = if i =
    (n, NDIRECT) then 0 else blanked sb (update D n ((D n).cut NDIRECT)) s.blk n NINDIRECT i := by
  obtain ⟨m, k⟩ := i
  have hframe : ∀ i, ptrs sb (update D n ((D n).cut NDIRECT)) s.blk i ≠ 0 →
      t.blk (ptrs sb (update D n ((D n).cut NDIRECT)) s.blk i) =
        s.blk (ptrs sb (update D n ((D n).cut NDIRECT)) s.blk i) := by
    intro i hi
    exact htouch.blk _ (data_notMem_bitmap g (ho.range i hi).1)
  by_cases hm : m = n
  · subst hm
    have hzero : ptrs sb (update D m ((D m).cut (NDIRECT + 1))) t.blk (m, k) = 0 := by
      unfold ptrs
      split_ifs
      · rw [update_self]
        apply ptr_eq_zero
        intro i
        rw [cut_addrs, if_pos i.isLt]
      · rfl
    rw [hzero, blanked, ptrs, update_self]
    split_ifs with h1 h2 h3
    · rfl
    · rfl
    · -- an address below the indirect block, or a pointer beyond its entries
      simp only [Prod.mk.injEq, true_and] at h1 h2
      rw [ptr]
      split_ifs with hk hi
      · rw [cut_addrs, if_pos (by simp only; omega)]
      · omega
      · rfl
    · rfl
  · rw [ptrs_update_of_ne hm, ← ptrs_update_of_ne (d := (D n).cut NDIRECT) hm, ptrs_frame hframe,
      if_neg (by simp [hm]), blanked, if_neg (by simp [hm])]

theorem truncRest_spec (g : Geometry sb) (he : e ∈ H) (hn : (s.icache e).inum = n)
    (hv : (s.icache e).valid = true) (hlive : Live sb D n) (hfits : (D n).Fits)
    (h : Truncating sb H L D s n ((D n).cut NDIRECT) t) :
    wp (truncRest e) (fun _ => Truncating sb H L D s n ((D n).cut (NDIRECT + 1))) E t := by
  obtain ⟨hc, ho, htouch, hkept⟩ := h
  have hinum : (t.icache e).inum = n := (hkept.inum e he).trans hn
  have hd : (t.icache e).d = (D n).cut NDIRECT := by
    rw [hc.d_eq he (hkept.valid e he hv), hinum, update_self]
  have hself : update D n ((D n).cut NDIRECT) n = (D n).cut NDIRECT :=
    update_self ..
  unfold truncRest
  apply wp_bind (wp_inode _)
  rw [hd]
  apply wp_ite
  · intro h0
    have hlast : (update D n ((D n).cut NDIRECT) n).addrs (last NDIRECT) ≠ 0 := by
      rwa [hself]
    have hstart : Blanking sb H L (update D n ((D n).cut NDIRECT)) t n 0 t := by
      refine ⟨hc, Owns.congr ho ?_ fun _ _ => rfl, (Calm.refl t).touches _, rfl⟩
      intro i
      rw [blanked, if_neg (by omega)]
    have hloop := wp_upto (E := E) _ hstart fun j u hj hu =>
      truncIndirect_spec g ho (live_cut.mpr hlive) hlast hj hu
    rw [hself] at hloop
    apply wp_call hloop
    rintro _ u ⟨hcu, hown, htouch', hic⟩
    have hptr : blanked sb (update D n ((D n).cut NDIRECT)) t.blk n NINDIRECT
        (n, NDIRECT) = ((D n).cut NDIRECT).addrs (last NDIRECT) := by
      rw [blanked, if_neg (by simp), ptrs_of_live (live_cut.mpr hlive), hself, ptr_indirect]
    have hne : blanked sb (update D n ((D n).cut NDIRECT)) t.blk n NINDIRECT
        (n, NDIRECT) ≠ 0 := by rwa [hptr]
    have hmark := hown.used_ptr hne
    have hrange := hown.range _ hne
    rw [hptr] at hmark hrange
    apply wp_call (bfree_spec hcu.mounted hcu.super hmark)
    rintro _ _ rfl
    apply wp_setD
    have hdu : ((u.release sb (((D n).cut NDIRECT).addrs (last NDIRECT))).icache e).d =
        (D n).cut NDIRECT := by
      rw [← hd, ← hic]
      rfl
    have hcut : ((D n).cut NDIRECT).setAddr (last NDIRECT) 0 = (D n).cut (NDIRECT + 1) :=
      (D n).setAddr_cut (Nat.lt_succ_self _)
    rw [hdu, hcut]
    have htouch'' := htouch'.trans_self (touches_release u hrange.2)
    have hset := (hcu.release g (((D n).cut NDIRECT).addrs (last NDIRECT))).setD he
      (by rw [← hinum, ← hic]; rfl) (.inr rfl) (hfits.cut (NDIRECT + 1)) hlive.2
    rw [update_idem] at hset
    refine ⟨hset, ?_, ?_, ?_⟩
    · apply hown.erase hne (ptrs_cut g ho htouch'')
      intro x _
      rw [hptr]
      exact marked_freeBlk _ x
    · exact htouch.trans_self (htouch''.trans_self ((Calm.put ..).touches _))
    · have hkept' : Kept H t (u.release sb (((D n).cut NDIRECT).addrs (last NDIRECT))) :=
        of_icache hic
      exact hkept.trans (hkept'.trans (put (fun _ => rfl) fun _ => id))
  · intro h0
    rw [not_not] at h0
    have hcut : (D n).cut (NDIRECT + 1) = (D n).cut NDIRECT := by
      have hk : NDIRECT < NDIRECT + 1 := Nat.lt_succ_self _
      exact (D n).cut_succ (show (D n).addrs ⟨NDIRECT, hk⟩ = 0 from h0)
    apply wp_pure
    rw [hcut]
    exact ⟨hc, ho, htouch, hkept⟩

def Dinode.trunc (d : Dinode) : Dinode := { d with size := 0, addrs := fun _ => 0 }

theorem Dinode.trunc_eq (d : Dinode) : d.trunc = { d.cut (NDIRECT + 1) with size := 0 } := by
  ext i
  case addrs =>
    simp only [trunc]
    rw [cut_addrs, if_pos i.isLt]
  all_goals rfl

theorem Dinode.Fits.trunc {d : Dinode} (h : d.Fits) : d.trunc.Fits :=
  ⟨h.type, h.major, h.minor, h.nlink, Nat.two_pow_pos 32, fun _ => Nat.two_pow_pos 32⟩

/-- What changes on the disk when inode `n` is freed. -/
def freeing (sb : Superblock) (n : ℕ) : Finset ℕ := insert (iblock sb n) (bitmap sb)

theorem itrunc_spec (h : Cached sb none H L D s) (g : Geometry sb) (ho : Owned sb D s.blk)
    (he : e ∈ H) (hn : (s.icache e).inum = n) (hv : (s.icache e).valid = true) :
    wp (itrunc e) (fun _ t => Cached sb none H L (update D n (D n).trunc) t ∧
      Owned sb (update D n (D n).trunc) t.blk ∧ Touches (freeing sb n) s t ∧ Kept H s t) E s := by
  have hlive : Live sb D n := hn ▸ h.live he hv
  have hfits := h.fits n hlive.1
  unfold itrunc
  have hstart : Truncating sb H L D s n ((D n).cut 0) s := by
    rw [cut_zero]
    refine ⟨?_, ?_, (Calm.refl s).touches _, refl H s⟩
    · rw [update_eq_self]
      exact h.weaken (.inl rfl)
    · rwa [update_eq_self]
  apply wp_call (wp_upto (fun k => Truncating sb H L D s n ((D n).cut k)) hstart
    fun k t hk ht => truncDirect_spec g he hn hv hlive hfits hk ht)
  intro _ t ht
  apply wp_call (truncRest_spec g he hn hv hlive hfits ht)
  rintro _ u ⟨hc, howned, htouch, hkept⟩
  have hinum : (u.icache e).inum = n := (hkept.inum e he).trans hn
  have hvu := hkept.valid e he hv
  apply wp_bind (wp_setD _)
  have hd : (u.icache e).d = (D n).cut (NDIRECT + 1) := by
    rw [hc.d_eq he hvu, hinum, update_self]
  rw [hd, ← trunc_eq]
  have hset := hc.setD he hinum (.inr rfl) hfits.trunc hlive.2
  rw [update_idem] at hset
  have hinum' : ((u.put e { u.icache e with d := (D n).trunc }).icache e).inum = n := by
    simpa using hinum
  apply wp_conseq (iupdate_spec hset g he (by simpa using hvu) (.inr (by rw [hinum'])))
  rintro _ v ⟨hcv, hic, htouch'⟩
  rw [hinum'] at htouch'
  refine ⟨hcv, ?_, ?_, ?_⟩
  · apply howned.frame g
    · intro m
      rw [live_cut, live_update (n := n) (d := (D n).trunc) Iff.rfl]
    · intro m
      by_cases hm : m = n
      · rw [hm, update_self, update_self, trunc_eq]
      · rw [update_of_ne hm, update_of_ne hm]
    · intro b hb
      have hlt := g.iblock_lt hlive.1
      exact htouch'.blk b (by rw [mem_singleton]; omega)
  · have hcalm := (Calm.put u e { u.icache e with d := (D n).trunc }).touches {iblock sb n}
    have htouch'' := htouch.trans (hcalm.trans_self htouch')
    rw [union_comm] at htouch''
    exact htouch''
  · have hkept' : Kept H u (u.put e { u.icache e with d := (D n).trunc }) :=
      put (fun _ => rfl) fun _ => id
    exact hkept.trans (hkept'.trans (of_icache hic))

theorem Vol.put_put (s : Vol) (e : Ix) (y z : Inode) : (s.put e y).put e z = s.put e z := by
  unfold put
  congr 1
  funext x
  by_cases hx : x = e <;> simp [hx]

theorem Vol.log_put (s : Vol) (e : Ix) (y : Inode) (b : ℕ) (d : Block) :
    (s.put e y).log b d = (s.log b d).put e y := rfl

/-- Inode `n` of entry `e` becomes `d` on the disk, and the entry invalid. -/
theorem Cached.discard (h : Cached sb none H L D s) (g : Geometry sb) (he : e ∈ H)
    (hn : (s.icache e).inum = n) {d : Dinode} (hd : d.Fits) :
    Cached sb none H (L.erase e) (update D n d)
      ((s.log (iblock sb n) (writeDinode (s.blk (iblock sb n)) (ioff n) d)).put e
        { s.icache e with d := d, busy := false, valid := false }) := by
  refine ⟨h.mounted, ?_, ?_, ?_, ?_, ?_, ?_, ?_, ?_, ?_⟩
  · rw [put_blk, log_blk, update_of_ne (g.iblock_ne_super n).symm]
    exact h.super
  · intro e'
    by_cases hne : e' = e
    · rw [put_icache, if_pos hne, hne]
      exact h.ref e
    · rw [put_icache, if_neg hne]
      exact h.ref e'
  · intro e'
    by_cases hne : e' = e
    · simp [hne]
    · rw [put_icache, if_neg hne, mem_erase]
      simp only [hne, ne_eq, not_false_eq_true, true_and]
      exact h.busy e'
  · intro e' he'
    exact h.locked e' (mem_of_mem_erase he')
  · intro e' he'
    by_cases hne : e' = e
    · rw [put_icache, if_pos hne]
      exact h.inum e he
    · rw [put_icache, if_neg hne]
      exact h.inum e' he'
  · intro a ha b hb hab
    apply h.one a ha b hb
    simp only [put_icache] at hab
    split_ifs at hab with hae hbe hbe
    · rw [hae, hbe]
    · rw [hae]
      exact hab
    · rw [hbe]
      exact hab
    · exact hab
  · intro e' he' hv
    by_cases hne : e' = e
    · simp [hne] at hv
    · rw [put_icache, if_neg hne] at hv ⊢
      have hother : (s.icache e').inum ≠ n := hn ▸ h.inum_ne he e' he' hne
      rw [show (s.log _ _).icache e' = s.icache e' from rfl] at hv ⊢
      rw [update_of_ne hother]
      exact h.valid e' he' hv
  · intro m hm _
    rw [put_blk, log_blk, diskInode_writeDinode hd]
    split_ifs with hmn
    · rw [hmn, update_self]
    · rw [update_of_ne hmn]
      exact h.disk m hm (by simp)
  · intro m hm
    by_cases hmn : m = n
    · rw [hmn, update_self]
      exact hd
    · rw [update_of_ne hmn]
      exact h.fits m hm

/-- The inode that `iput` leaves when it frees one. -/
def Dinode.freed (d : Dinode) : Dinode := { d.trunc with type := 0 }

theorem Dinode.Fits.freed {d : Dinode} (h : d.Fits) : d.freed.Fits :=
  ⟨Nat.two_pow_pos 16, h.major, h.minor, h.nlink, Nat.two_pow_pos 32, fun _ => Nat.two_pow_pos 32⟩

theorem Owned.discard (ho : Owned sb (update D n (D n).trunc) B) (g : Geometry sb) {B' : ℕ → Block}
    (hB : ∀ b, sb.bmapstart ≤ b → B' b = B b) : Owned sb (update D n (D n).freed) B' := by
  have hbm := g.bmapstart_lt
  have hframe : ∀ i, ptrs sb (update D n (D n).trunc) B i ≠ 0 →
      B' (ptrs sb (update D n (D n).trunc) B i) =
        B (ptrs sb (update D n (D n).trunc) B i) := by
    intro i hi
    have hrange := ho.range i hi
    exact hB _ (by omega)
  apply Owns.congr ho
  · rintro ⟨m, k⟩
    by_cases hm : m = n
    · subst hm
      rw [ptrs_of_not_live, ptrs]
      · split_ifs
        · rw [update_self]
          exact (ptr_eq_zero _ (fun _ => rfl) _ _).symm
        · rfl
      · rintro ⟨-, htype⟩
        rw [update_self] at htype
        exact htype rfl
    · rw [ptrs_update_of_ne hm, ← ptrs_update_of_ne (d := (D n).trunc) hm, ptrs_frame hframe]
  · intro c _
    exact marked_congr (hB _ (bmapstart_le_bblock c))

/-- The reference given up is the last one, and the inode has no links. -/
def Last (H : Multiset Ix) (D : ℕ → Dinode) (s : Vol) (e : Ix) : Prop :=
  e ∉ H ∧ (s.icache e).valid = true ∧ (D (s.icache e).inum).nlink = 0

theorem Last.of_count (h : Cached sb none (e ::ₘ H) L D s) :
    (s.icache e).ref = 1 ∧ (s.icache e).valid = true ∧ (s.icache e).d.nlink = 0 ↔ Last H D s e := by
  have href : (s.icache e).ref = 1 ↔ e ∉ H := by
    rw [h.ref, Multiset.count_cons_self, ← Multiset.count_eq_zero]
    omega
  rw [href, Last]
  constructor
  · rintro ⟨hlast, hv, hzero⟩
    rw [h.d_eq (Multiset.mem_cons_self e H) hv] at hzero
    exact ⟨hlast, hv, hzero⟩
  · rintro ⟨hlast, hv, hzero⟩
    rw [h.d_eq (Multiset.mem_cons_self e H) hv]
    exact ⟨hlast, hv, hzero⟩

theorem wp_discard {Q : Unit → Vol → Prop} (hsb : s.sb = sb) (hn : (s.icache e).inum = n)
    {d : Dinode} (hd : (s.icache e).d = d) (h : Q () ((s.log (iblock sb n)
      (writeDinode (s.blk (iblock sb n)) (ioff n) { d with type := 0 })).put e
        { s.icache e with d := { d with type := 0 }, busy := false, valid := false })) :
    wp (do
      setD e fun d => { d with type := 0 }
      iupdate e
      setInode e fun ip => { ip with busy := false, valid := false }) Q E s := by
  subst hn hd
  apply wp_bind (wp_setD _)
  unfold iupdate
  refine wp_bind (wp_bind (wp_get (wp_logWrite ?_)))
  apply wp_setInode
  simp only [put_sb, put_icache, put_blk, if_true, hsb, log_put, put_put]
  exact h

section
variable (h : Cached sb none (e ::ₘ H) L D s) (g : Geometry sb) (ho : Owned sb D s.blk)
  (hl : e ∈ L → e ∈ H) (hn : (s.icache e).inum = n)
include h g ho hl hn

theorem ifree_spec : wp (ifree e) (fun _ t => Kept H s t ∧ (¬Last H D s e ∧ s = t ∨
        Last H D s e ∧ Cached sb none (e ::ₘ H) L (update D n (D n).freed) t ∧
          Owned sb (update D n (D n).freed) t.blk ∧ Touches (freeing sb n) s t)) E s := by
  have he : e ∈ e ::ₘ H := Multiset.mem_cons_self e H
  unfold ifree
  apply wp_bind (wp_inode _)
  apply wp_ite
  · intro hcond
    have hlast := (Last.of_count h).mp hcond
    have hfits := h.fits n (hn ▸ h.inum e he)
    apply wp_ite
    · intro hbusy
      exact absurd (hl ((h.busy e).mp hbusy)) hlast.1
    · intro _
      have hlock : Cached sb none (e ::ₘ H) (insert e L) D
          (s.put e { s.icache e with busy := true }) := by
        refine h.put (fun _ _ => rfl) (h.ref e) ?_ (by simp) (fun _ => he) (fun _ => h.inum e he)
          (fun _ => h.inum_ne he) (fun _ => h.valid e he)
        intro e' hne
        simp [hne]
      apply wp_bind (wp_setInode _)
      apply wp_call (itrunc_spec hlock g ho he (by simpa using hn) (by simpa using hlast.2.1))
      rintro _ t ⟨hc, howned, htouch, hkept⟩
      have hinum : (t.icache e).inum = n := by
        rw [hkept.inum e he]
        simpa using hn
      have hd : (t.icache e).d = (D n).trunc := by
        rw [hc.d_eq he (hkept.valid e he (by simpa using hlast.2.1)), hinum, update_self]
      apply wp_discard hc.mounted hinum hd
      have hdiscard := hc.discard g he hinum hfits.freed
      rw [update_idem, erase_insert fun hmem => hlast.1 (hl hmem)] at hdiscard
      refine ⟨?_, .inr ⟨hlast, hdiscard, ?_, ?_⟩⟩
      · have hlock' : Kept (e ::ₘ H) s (s.put e { s.icache e with busy := true }) :=
          put (fun _ => rfl) fun _ => id
        have hend : Kept H t (t.log (iblock sb n)
            (writeDinode (t.blk (iblock sb n)) (ioff n) (D n).freed)) := of_icache rfl
        have hH : ∀ e' ∈ H, e' ∈ e ::ₘ H := fun e' => Multiset.mem_cons_of_mem
        exact (((hlock'.trans hkept).mono hH).trans hend).trans
          (put (fun he' => absurd he' hlast.1) fun he' => absurd he' hlast.1)
      · apply howned.discard g
        intro b hb
        have hlt := g.iblock_lt (hn ▸ h.inum e he)
        exact update_of_ne (by omega) ..
      · have hlog := (Touches.log t (iblock sb n)
          (writeDinode (t.blk (iblock sb n)) (ioff n) (D n).freed)).mono
            (singleton_subset_iff.mpr (mem_insert_self _ (bitmap sb)))
        exact ((Calm.put ..).touches _).trans_self (htouch.trans_self (hlog.trans_self
          ((Calm.put ..).touches _)))
  · intro hcond
    exact wp_pure ⟨refl H s, .inl ⟨mt (Last.of_count h).mpr hcond, rfl⟩⟩

theorem iput_spec : wp (iput e) (fun _ t => Kept H s t ∧
      (¬Last H D s e ∧ Cached sb none H L D t ∧ Calm s t ∨
        Last H D s e ∧ Cached sb none H L (update D n (D n).freed) t ∧
          Owned sb (update D n (D n).freed) t.blk ∧ Touches (freeing sb n) s t)) E s := by
  unfold iput
  apply wp_call (ifree_spec h g ho hl hn)
  rintro _ t ⟨hkept, ⟨hlast, rfl⟩ | ⟨hlast, hc, howned, htouch⟩⟩
  · apply wp_setInode
    exact ⟨put (fun _ => rfl) fun _ => id, .inl ⟨hlast, h.dropRef hl, Calm.put ..⟩⟩
  · apply wp_setInode
    exact ⟨hkept.trans (put (fun _ => rfl) fun _ => id), .inr ⟨hlast, hc.dropRef hl, howned,
      htouch.trans_self ((Calm.put ..).touches _)⟩⟩

end

theorem Owned.fresh (ho : Owned sb D B) (g : Geometry sb) (hfree : (D n).type = 0) {type : ℕ}
    {B' : ℕ → Block} (hB : ∀ b, sb.bmapstart ≤ b → B' b = B b) :
    Owned sb (update D n (fresh type)) B' := by
  have hbm := g.bmapstart_lt
  have hframe : ∀ i, ptrs sb D B i ≠ 0 → B' (ptrs sb D B i) = B (ptrs sb D B i) := by
    intro i hi
    have hrange := ho.range i hi
    exact hB _ (by omega)
  apply Owns.congr ho
  · rintro ⟨m, k⟩
    by_cases hm : m = n
    · subst hm
      rw [ptrs_of_not_live fun hlive => hlive.2 hfree, ptrs]
      split_ifs
      · rw [update_self]
        exact ptr_eq_zero _ (fun _ => rfl) _ _
      · rfl
    · rw [ptrs_update_of_ne hm, ptrs_frame hframe]
  · intro c _
    exact marked_congr (hB _ (bmapstart_le_bblock c))

end Xv6Threads.Fs
