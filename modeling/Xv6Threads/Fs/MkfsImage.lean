import Mathlib.Algebra.BigOperators.Fin
import Xv6Threads.Fs.Mkfs

namespace Xv6Threads.Mkfs

open Bytes Function List Buf Fs
open Fs (Block Superblock Dinode readDinode writeDinode iblock ioff w32 dirent slash dot dotdot
  T_DIR T_FILE T_DEV Node Rep Holds Live)

variable {k n : ℕ} {h h' : Host} {V : ℕ → Node} {D : ℕ → Dinode} {E : Stop → Prop}

structure Built (k : ℕ) (V : ℕ → Node) (h : Host) : Prop where
  ready : Ready k h
  rep : Rep superblock 0 ∅ V (volume h)

/-- One entry of the cache is in use, and the inode in it is locked and loaded. -/
theorem cached_single {e : Fs.Ix} {s t : Fs.Vol} (hc : Fs.Cached superblock none 0 ∅ D s)
    (hn : Live superblock D n) (hblk : t.blk = s.blk) (hsb : t.sb = s.sb)
    (he : t.icache e = ⟨n, 1, true, true, D n⟩)
    (hrest : ∀ x ≠ e, (t.icache x).ref = 0 ∧ (t.icache x).busy = false) :
    Fs.Cached superblock none {e} {e} D t := by
  have hmem : ∀ x ∈ ({e} : Multiset Fs.Ix), x = e := fun x hx => Multiset.mem_singleton.mp hx
  refine ⟨hsb.trans hc.mounted, hblk ▸ hc.super, ?_, ?_, ?_, ?_, ?_, ?_, hblk ▸ hc.disk, hc.fits⟩
  · intro x
    rw [Multiset.count_singleton]
    split_ifs with hx
    · rw [hx, he]
      rfl
    · exact (hrest x hx).1
  · intro x
    rw [Finset.mem_singleton]
    by_cases hx : x = e
    · simp [hx, he]
    · simp [hx, (hrest x hx).2]
  · intro x hx
    rw [Finset.mem_singleton.mp hx]
    exact Multiset.mem_singleton_self e
  · intro x hx
    rw [hmem x hx, he]
    exact hn.1
  · intro x hx y hy _
    rw [hmem x hx, hmem y hy]
  · intro x hx _
    rw [hmem x hx, he]
    exact ⟨rfl, hn.2⟩

theorem load (hd : Holds superblock 0 ∅ D V (volume h)) (hn : Live superblock D n) :
    Holds superblock {0} {0} D V ((volume h).put 0 ⟨n, 1, true, true, D n⟩) := by
  refine ⟨hd.geometry, ?_, hd.owned, hd.mapped, hd.view⟩
  refine cached_single hd.cached hn rfl rfl (by simp) fun x hx => ?_
  simp [hx, volume]

theorem unload {H : Multiset Fs.Ix} {L : Finset Fs.Ix} {t : Fs.Vol} (hrep : Rep superblock H L V t)
    (hr : Ready k h) (hblk : t.blk = (volume h).blk) : Rep superblock 0 ∅ V (volume h) := by
  obtain ⟨D, hd⟩ := hrep
  have hc := hd.cached
  refine ⟨D, hd.geometry, ?_, hblk ▸ hd.owned, hblk ▸ hd.mapped, hblk ▸ hd.view⟩
  refine ⟨hr.sb, hblk ▸ hc.super, fun e => rfl, ?_, ?_, ?_, ?_, ?_, hblk ▸ hc.disk, hc.fits⟩
  · intro e
    simp [volume]
  all_goals
    intro e he
    simp at he

theorem wp_rinode {Q : Dinode → Host → Prop} (hr : Ready k h) (hn : n < NINODES)
    (hQ : Q (diskInode superblock (volume h).blk n) h) : wp (rinode n) Q E h := by
  have hlt : iblock superblock n < superblock.bmapstart := geometry.iblock_lt hn
  have hbm : superblock.bmapstart < FSSIZE := by decide
  unfold rinode
  apply wp_bind (wp_get _)
  rw [hr.sb]
  apply wp_bind (wp_rsect hr.count (by omega) _)
  rw [diskInode, hr.blk_of_ne hlt.ne] at hQ
  exact wp_pure hQ

theorem wp_winode {Q : Unit → Host → Prop} {d : Dinode} (hr : Ready k h) (hn : n < NINODES)
    (hQ : ∀ h', Ready k h' → h'.freeblock = h.freeblock →
      (volume h').blk = update (volume h).blk (iblock superblock n)
        (writeDinode ((volume h).blk (iblock superblock n)) (ioff n) d) → Q () h') :
    wp (winode n d) Q E h := by
  have hlt : iblock superblock n < superblock.bmapstart := geometry.iblock_lt hn
  have hge : superblock.inodestart ≤ iblock superblock n := Nat.le_add_left ..
  have hbm : superblock.bmapstart < nmeta := bmapstart_lt
  have hlo := hr.lo
  have hhi := hr.hi
  unfold winode
  apply wp_bind (wp_get _)
  rw [hr.sb]
  apply wp_bind (wp_rsect hr.count (by omega) _)
  apply wp_wsect hr.count (by omega)
  apply hQ _ (hr.put hge (by omega) _) rfl
  rw [hr.volume_put hlt.ne, hr.blk_of_ne hlt.ne]

theorem Appending.le_maxfile {din : Dinode} {D D' : ℕ → Dinode} {s t : Fs.Vol} {src : ℕ → Byte}
    {off tot : ℕ} (ha : Appending k h din D s n src off tot D' t) : off + tot ≤
    MAXFILE * BSIZE := by
  by_contra hgt
  have h0 := ha.writing.mapped MAXFILE (by omega)
  apply h0
  rw [Fs.Dinode.fileBlk, if_neg (by decide), Fs.Dinode.ptr, dif_neg (by decide), if_neg]
  exact fun hlt => absurd hlt.2 (by decide)

theorem writeSize_shadow {din : Dinode} {D D' : ℕ → Dinode} {s t : Fs.Vol} {src : ℕ → Byte}
    {off len : ℕ} (ha : Appending k h din D s n src off len D' t) (hlen : 0 < len)
    (hinum : (s.icache 0).inum = n) (hv : (s.icache 0).valid = true) (hsize : (D n).size = off)
    (hblk : (volume h').blk = update (volume h).blk (iblock superblock n)
      (writeDinode ((volume h).blk (iblock superblock n)) (ioff n)
        { din with size := off + len })) :
    ∃ u, writeSize 0 len (off + len) t = .ok ((), u) ∧ u.blk = (volume h').blk := by
  have hmem : (0 : Fs.Ix) ∈ ({0} : Multiset Fs.Ix) := Multiset.mem_singleton_self 0
  have hinum' : (t.icache 0).inum = n := (ha.writing.kept.inum 0 hmem).trans hinum
  have hgrows : (t.icache 0).d.size < off + len := by
    rw [ha.shadow.d, ha.din_eq hinum hv, ha.writing.self]
    dsimp only
    omega
  have hspec : wp (writeSize 0 len (off + len)) (fun _ u => u.blk = (volume h').blk)
      (fun _ => False) t := by
    unfold writeSize
    apply wp_bind (wp_inode _)
    rw [if_pos ⟨hlen, hgrows⟩]
    apply wp_bind (wp_setD _)
    unfold iupdate
    apply wp_bind (wp_get _)
    apply wp_logWrite
    simp only [Fs.Vol.log_blk, Fs.Vol.put_blk, Fs.Vol.put_sb, Fs.Vol.put_icache, if_true]
    rw [hblk, ha.shadow.blk, ha.shadow.sb, ha.shadow.d, hinum']
  obtain ⟨⟨⟩, u, hok, hu⟩ := exists_ok hspec
  exact ⟨u, hok, hu⟩

/-- `iappend` writes at the end of the file, and needs as many blocks as the file has grown by. -/
theorem iappend_spec (hb : Built k V h) {xp : List Byte} (hlen : 0 < xp.length)
    (ht : (V n).type ≠ 0) (hdev : (V n).type ≠ T_DEV)
    (hmax : E .assert ∨ (V n).size + xp.length ≤ MAXFILE * BSIZE)
    (hroom : E .exit ∨ h.freeblock + need ((V n).size + xp.length) ≤ FSSIZE + need (V n).size) :
    wp (iappend n xp) (fun _ h' =>
      Built k (update V n ((V n).write (bytesOf xp) (V n).size xp.length)) h' ∧
      h'.freeblock + need (V n).size ≤ h.freeblock + need ((V n).size + xp.length)) E h := by
  have hn : n < NINODES := hb.rep.lt_of_type ht
  obtain ⟨hr, D, hd⟩ := hb
  have hlive : Live superblock D n := by
    by_contra hnot
    rw [← hd.view, nodes_of_not_live hnot] at ht
    exact ht rfl
  have hnode : V n = (D n).node (volume h).blk := by rw [← hd.view, nodes_of_live hlive]
  have hsize : (D n).size = (V n).size := by rw [hnode]; rfl
  have hdev' : (D n).type ≠ T_DEV := by rw [hnode] at hdev; exact hdev
  have hs := load hd hlive
  rw [← hsize] at hmax hroom ⊢
  have hstart : Appending k h (D n) D ((volume h).put 0 ⟨n, 1, true, true, D n⟩) n (bytesOf xp)
      (D n).size 0 D ((volume h).put 0 ⟨n, 1, true, true, D n⟩) :=
    ⟨hr, ⟨rfl, hd.cached.mounted, rfl⟩,
      Fs.Writing.start hs.cached hs.owned (hs.mapped n hlive hdev') le_rfl⟩
  unfold iappend
  apply wp_bind (wp_rinode hr hn _)
  rw [hd.cached.disk n hn nofun]
  apply wp_call (appendLoop_spec hlive rfl rfl hmax xp.length 0 h (D n) D _ (by omega) (by omega)
    hstart hroom)
  rintro ⟨_, din⟩ h₁ ⟨rfl, hfb, D', t, ha⟩
  apply wp_winode ha.ready hn
  intro h₂ hr₂ hfb₂ hblk
  obtain ⟨u, hok, hu⟩ := writeSize_shadow ha hlen rfl rfl rfl hblk
  obtain ⟨hrep, -⟩ := wp_ok (writeSize_rep (E := fun _ => True) ha.writing hs
    (Multiset.mem_singleton_self 0) rfl rfl hdev' le_rfl ha.le_maxfile) hok
  exact ⟨⟨hr₂, unload hrep hr₂ hu⟩, hfb₂ ▸ hfb⟩

def fileNode (type : ℕ) (l : List Byte) : Node := ⟨type, 0, 0, 1, l.length, bytesOf l⟩

theorem fileNode_write (type : ℕ) (l m : List Byte) :
    (fileNode type l).write (bytesOf m) l.length m.length = fileNode type (l ++ m) := by
  refine Node.ext rfl rfl rfl rfl ?_ (funext fun y => ?_)
  · change max l.length (l.length + m.length) = (l ++ m).length
    rw [length_append]
    omega
  · change (if l.length ≤ y ∧ y < l.length + m.length then bytesOf m (y - l.length)
      else bytesOf l y) = bytesOf (l ++ m) y
    rw [bytesOf_append]
    split_ifs with h₁ h₂ h₂
    · omega
    · rfl
    · rfl
    · -- behind the end of both there are zeros
      unfold bytesOf
      rw [getD_eq_default _ _ (by omega), getD_eq_default _ _ (by omega)]

/-- The cache agrees with the disk after an inode has been written. -/
theorem cached_winode {d : Dinode} (hd : Holds superblock 0 ∅ D V (volume h)) (hr : Ready k h')
    (hfits : d.Fits) (hblk : (volume h').blk = update (volume h).blk (iblock superblock n)
      (writeDinode ((volume h).blk (iblock superblock n)) (ioff n) d)) :
    Fs.Cached superblock none 0 ∅ (update D n d) (volume h') := by
  have hc := hd.cached
  refine ⟨hr.sb, ?_, fun _ => rfl, ?_, ?_, ?_, ?_, ?_, ?_, ?_⟩
  · rw [hblk, update_of_ne (geometry.iblock_ne_super n).symm]
    exact hc.super
  · intro e
    simp [volume]
  · intro e he
    simp at he
  · intro e he
    simp at he
  · intro e he
    simp at he
  · intro e he
    simp at he
  · intro m hm _
    rw [hblk, diskInode_writeDinode hfits, update_apply]
    split_ifs
    · rfl
    · exact hc.disk m hm nofun
  · intro m hm
    rw [update_apply]
    split_ifs
    · exact hfits
    · exact hc.fits m hm

theorem winode_data {d : Dinode} (hn : n < NINODES)
    (hblk : (volume h').blk = update (volume h).blk (iblock superblock n)
      (writeDinode ((volume h).blk (iblock superblock n)) (ioff n) d))
    {b : ℕ} (hb : superblock.bmapstart ≤ b) : (volume h').blk b = (volume h).blk b := by
  have hlt : iblock superblock n < superblock.bmapstart := geometry.iblock_lt hn
  rw [hblk, update_of_ne (by omega)]

theorem ialloc_spec (hb : Built k V h) (hk : k < NINODES) (hfree : V k = Node.free) {type : ℕ}
    (ht : type < 2 ^ 16) (h0 : type ≠ 0) :
    wp (ialloc type) (fun i h' => i = k ∧ Built (k + 1) (update V k (fileNode type [])) h' ∧
      h'.freeblock = h.freeblock) E h := by
  obtain ⟨hr, D, hd⟩ := hb
  have hw : w32 (k + 1) = k + 1 := Nat.mod_eq_of_lt (by change k < 200 at hk; omega)
  have hr₁ : Ready (k + 1) { h with freeinode := w32 (k + 1) } :=
    ⟨hw, hr.sb, hr.count, hr.lo, hr.hi, hr.fresh, hr.log⟩
  have hDk : (D k).type = 0 := by
    by_contra hne
    have hnode : V k = (D k).node (volume h).blk := by
      rw [← hd.view]
      exact nodes_of_live ⟨hk, hne⟩
    exact hne (congrArg Node.type (hnode.symm.trans hfree))
  unfold ialloc
  apply wp_bind (wp_get _)
  apply wp_bind (wp_modify _)
  rw [hr.inode]
  apply wp_bind (wp_winode hr₁ hk _)
  intro h' hr' hfb hblk
  refine wp_pure ⟨rfl, ⟨hr', ?_⟩, hfb⟩
  change (volume h').blk = update (volume h).blk _ _ at hblk
  have hfits : Dinode.Fits ⟨type, 0, 0, 1, 0, fun _ => 0⟩ :=
    ⟨ht, Nat.two_pow_pos 16, Nat.two_pow_pos 16, show 1 < 2 ^ 16 by decide, Nat.two_pow_pos 32,
      fun _ => Nat.two_pow_pos 32⟩
  have hdata : ∀ b, superblock.bmapstart ≤ b → (volume h').blk b = (volume h).blk b :=
    fun b hb => winode_data hk hblk hb
  have hbm := geometry.bmapstart_lt
  have hkeeps : ∀ m ≠ k, Live superblock D m → Fs.Keeps D
      (update D k ⟨type, 0, 0, 1, 0, fun _ => 0⟩) (volume h).blk (volume h').blk m :=
    fun m hm hlive => (hd.owned.keeps (fun b hb => hdata b (by omega)) hlive).update hm _
  have hself : nodes superblock (update D k ⟨type, 0, 0, 1, 0, fun _ => 0⟩)
      (volume h').blk k = fileNode type [] := by
    rw [nodes_of_live, update_self]
    · refine Node.ext rfl rfl rfl rfl rfl (funext fun y => ?_)
      exact if_neg fun hy => absurd hy.2 (Nat.not_lt_zero y)
    · rw [Live, update_self]
      exact ⟨hk, h0⟩
  have hview := nodes_update hd.mapped hkeeps hself
  rw [hd.view] at hview
  refine ⟨_, geometry, cached_winode hd hr' hfits hblk, ?_, ?_, hview⟩
  · have hfresh : Fs.Owned superblock (update D k (Fs.Dinode.fresh type)) (volume h').blk :=
      hd.owned.fresh geometry hDk hdata
    apply hfresh.frame geometry
    · intro m
      unfold Live
      by_cases hm : m = k
      · rw [hm, update_self, update_self]
        rfl
      · rw [update_of_ne hm, update_of_ne hm]
    · intro m
      by_cases hm : m = k
      · rw [hm, update_self, update_self]
        rfl
      · rw [update_of_ne hm, update_of_ne hm]
    · exact fun _ _ => rfl
  · apply hd.mapped.of_keeps
    intro m hm
    by_cases hmk : m = k
    · left
      rw [hmk, update_self]
    · right
      apply hkeeps m hmk
      rwa [Live, update_of_ne hmk] at hm

def rootBytes (names : List (List Byte)) : List Byte :=
  direntBytes dot ROOTINO ++ direntBytes dotdot ROOTINO ++
    (names.mapIdx fun i name => direntBytes name (i + 2)).flatten

/-- The files when those with these names and contents have been added. -/
def image (names contents : List (List Byte)) (n : ℕ) : Node :=
  if n = ROOTINO then fileNode T_DIR (rootBytes names)
  else if n < 2 then Node.free
  else (contents[n - 2]?).elim Node.free (fileNode T_FILE)

theorem rootBytes_append (names : List (List Byte)) (name : List Byte) :
    rootBytes (names ++ [name]) = rootBytes names ++ direntBytes name (names.length + 2) := by
  simp [rootBytes, mapIdx_append]

theorem length_direntBytes (name : List Byte) (inum : ℕ) :
    (direntBytes name inum).length = DIRENTSIZE := by
  simp [direntBytes]

theorem length_rootBytes (names : List (List Byte)) :
    (rootBytes names).length = DIRENTSIZE * (2 + names.length) := by
  induction names using List.reverseRecOn with
  | nil => rfl
  | append_singleton names name ih =>
    rw [rootBytes_append, length_append, ih, length_direntBytes, length_append, length_singleton]
    exact (Nat.mul_succ DIRENTSIZE (2 + names.length)).symm

section
variable (names names' contents : List (List Byte)) (l l' : List Byte)

theorem image_root : image names contents ROOTINO = fileNode T_DIR (rootBytes names) := if_pos rfl

theorem image_last : image names (contents ++ [l]) (contents.length + 2) = fileNode T_FILE l := by
  rw [image, if_neg (by change _ ≠ 1; omega), if_neg (by omega), Nat.add_sub_cancel]
  simp

theorem image_free : image names contents (contents.length + 2) = Node.free := by
  rw [image, if_neg (by change _ ≠ 1; omega), if_neg (by omega), Nat.add_sub_cancel]
  simp

theorem update_root : update (image names contents) ROOTINO
    (fileNode T_DIR (rootBytes names')) = image names' contents := by
  funext n
  rw [update_apply]
  unfold image
  split_ifs <;> rfl

theorem update_last : update (image names (contents ++ [l])) (contents.length + 2)
    (fileNode T_FILE l') = image names (contents ++ [l']) := by
  funext n
  rw [update_apply]
  split_ifs with hn
  · rw [hn, image_last]
  · unfold image
    split_ifs with h₁ h₂
    · rfl
    · rfl
    · congr 1
      rw [List.getElem?_append, List.getElem?_append]
      split_ifs with h₃
      · rfl
      · rw [List.getElem?_eq_none (by simp; omega), List.getElem?_eq_none (by simp; omega)]

theorem update_new : update (image names contents) (contents.length + 2)
    (fileNode T_FILE l) = image names (contents ++ [l]) := by
  funext n
  rw [update_apply]
  split_ifs with hn
  · rw [hn, image_last]
  · unfold image
    split_ifs with h₁ h₂
    · rfl
    · rfl
    · congr 1
      rw [List.getElem?_append]
      split_ifs with h₃
      · rfl
      · rw [List.getElem?_eq_none (by omega), List.getElem?_eq_none (by simp; omega)]

end

/-- The blocks that are in use then, with those before the data area. -/
def total (names contents : List (List Byte)) : ℕ :=
  nmeta + need (rootBytes names).length + (contents.map fun l => need l.length).sum

theorem total_append (names contents : List (List Byte)) (l : List Byte) :
    total names (contents ++ [l]) = total names contents + need l.length := by
  simp [total, Nat.add_assoc]

theorem appendReads_spec {names contents : List (List Byte)} {k : ℕ} (reads : List (List Byte)) :
    ∀ (l : List Byte) (h : Host), (∀ r ∈ reads, r ≠ []) →
      Built k (image names (contents ++ [l])) h → h.freeblock ≤ total names (contents ++ [l]) →
      (E .assert ∨ (l ++ reads.flatten).length ≤ MAXFILE * BSIZE) →
      (E .exit ∨ total names (contents ++ [l ++ reads.flatten]) ≤ FSSIZE) →
      wp (reads.forM (iappend (contents.length + 2))) (fun _ h' =>
        Built k (image names (contents ++ [l ++ reads.flatten])) h' ∧
        h'.freeblock ≤ total names (contents ++ [l ++ reads.flatten])) E h := by
  induction reads with
  | nil =>
    intro l h _ hb hfb _ _
    rw [flatten_nil, append_nil]
    exact wp_pure ⟨hb, hfb⟩
  | cons r reads ih =>
    intro l h hreads hb hfb hmax hroom
    have hlen : 0 < r.length := length_pos_iff.mpr (hreads r (by simp))
    have hnode := image_last names contents l
    have htype : (image names (contents ++ [l]) (contents.length + 2)).type = T_FILE := by
      rw [hnode]
      rfl
    have hsize : (image names (contents ++ [l]) (contents.length + 2)).size = l.length := by
      rw [hnode]
      rfl
    have hmono : need (l.length + r.length) ≤ need (l ++ (r :: reads).flatten).length := by
      apply need_mono
      simp
    have hmax' : E .assert ∨ l.length + r.length ≤ MAXFILE * BSIZE := by
      apply hmax.imp_right
      simp
      omega
    have hroom' : E .exit ∨ h.freeblock + need (l.length + r.length) ≤ FSSIZE + need l.length := by
      apply hroom.imp_right
      rw [total_append] at hfb ⊢
      omega
    rw [flatten_cons, ← append_assoc] at hmax hroom ⊢
    rw [← hsize] at hmax' hroom'
    change wp (iappend _ r >>= fun _ => reads.forM (iappend _)) _ E h
    apply wp_call (iappend_spec hb hlen (by rw [htype]; decide)
      (by rw [htype]; decide) hmax' hroom')
    rintro _ h' ⟨hb', hfb'⟩
    rw [hsize, hnode] at hb'
    rw [hsize] at hfb'
    rw [show (fileNode T_FILE l).write (bytesOf r) l.length r.length = _ from
      fileNode_write T_FILE l r, update_last] at hb'
    apply ih (l ++ r) h' (fun x hx => hreads x (by simp [hx])) hb' _ hmax hroom
    rw [total_append] at hfb ⊢
    rw [length_append]
    omega

theorem total_names (names contents : List (List Byte)) (name : List Byte) :
    total (names ++ [name]) contents + need (rootBytes names).length =
      total names contents + need ((rootBytes names).length + DIRENTSIZE) := by
  simp only [total, rootBytes_append, length_append, length_direntBytes]
  omega

theorem appendName_spec {names contents : List (List Byte)} {k : ℕ} {h : Host} (name : List Byte)
    (hb : Built k (image names contents) h) (hfb : h.freeblock ≤ total names contents)
    (hmax : E .assert ∨ DIRENTSIZE * (3 + names.length) ≤ MAXFILE * BSIZE)
    (hroom : E .exit ∨ total (names ++ [name]) contents ≤ FSSIZE) :
    wp (iappend ROOTINO (direntBytes name (names.length + 2))) (fun _ h' =>
      Built k (image (names ++ [name]) contents) h' ∧
      h'.freeblock ≤ total (names ++ [name]) contents) E h := by
  have hnode := image_root names contents
  have htype : (image names contents ROOTINO).type = T_DIR := by
    rw [hnode]
    rfl
  have hsize : (image names contents ROOTINO).size = (rootBytes names).length := by
    rw [hnode]
    rfl
  have htotal := total_names names contents name
  have hlen := length_direntBytes name (names.length + 2)
  have hlenroot := length_rootBytes names
  apply wp_conseq (iappend_spec hb (by rw [hlen]; decide) (by rw [htype]; decide)
    (by rw [htype]; decide) _ _)
  · rintro _ h' ⟨hb', hfb'⟩
    rw [hsize, hnode, show (fileNode T_DIR (rootBytes names)).write _ _ _ = _ from
      fileNode_write T_DIR _ _, ← rootBytes_append, update_root] at hb'
    rw [hsize, hlen] at hfb'
    exact ⟨hb', by omega⟩
  · apply hmax.imp_right
    rw [hsize, hlen, hlenroot]
    intro hle
    rw [← Nat.mul_succ]
    exact (congrArg (DIRENTSIZE * ·) (by omega)).trans_le hle
  · apply hroom.imp_right
    rw [hsize, hlen]
    omega

def names (files : List InFile) : List (List Byte) := files.map InFile.entry

def contents (files : List InFile) : List (List Byte) := files.map InFile.bytes

/-- What makes `mkfs` stop before it is done with a file. -/
def Accepted (E : Stop → Prop) (f : InFile) : Prop :=
  E .assert ∨ slash ∉ f.name ∧ f.bytes.length ≤ MAXFILE * BSIZE

theorem total_le_append (fs : List InFile) (f : InFile) :
    total (names fs) (contents fs) ≤ total (names (fs ++ [f])) (contents (fs ++ [f])) := by
  have hnames := total_names (names fs) (contents fs) f.entry
  have hmono : need (rootBytes (names fs)).length ≤
      need ((rootBytes (names fs)).length + DIRENTSIZE) := need_mono (Nat.le_add_right ..)
  simp only [names, contents, map_append, map_cons, map_nil, total_append] at *
  omega

theorem total_le (fs rest : List InFile) :
    total (names fs) (contents fs) ≤ total (names (fs ++ rest)) (contents (fs ++ rest)) := by
  induction rest generalizing fs with
  | nil => rw [append_nil]
  | cons f rest ih =>
    have hrest := ih (fs ++ [f])
    rw [append_assoc, singleton_append] at hrest
    exact (total_le_append fs f).trans hrest

theorem addFile_spec (fs : List InFile) (f : InFile) {h : Host}
    (hb : Built (fs.length + 2) (image (names fs) (contents fs)) h)
    (hfb : h.freeblock ≤ total (names fs) (contents fs)) (hcount : fs.length + 2 < NINODES)
    (hacc : Accepted E f)
    (hroom : E .exit ∨ total (names (fs ++ [f])) (contents (fs ++ [f])) ≤ FSSIZE) :
    wp (addFile ROOTINO f) (fun _ h' =>
      Built (fs.length + 3) (image (names (fs ++ [f])) (contents (fs ++ [f]))) h' ∧
      h'.freeblock ≤ total (names (fs ++ [f])) (contents (fs ++ [f]))) E h := by
  have hlen : (contents fs).length = fs.length := length_map ..
  have hlen' : (names fs).length = fs.length := length_map ..
  have hnames : names (fs ++ [f]) = names fs ++ [f.entry] := map_append ..
  have hcontents : contents (fs ++ [f]) = contents fs ++ [f.bytes] := map_append ..
  rw [hnames, hcontents, total_append] at hroom ⊢
  unfold addFile assert
  by_cases hslash : slash ∉ f.name
  · rw [if_pos hslash, pure_bind]
    have hfree := image_free (names fs) (contents fs)
    rw [hlen] at hfree
    apply wp_call (ialloc_spec hb hcount hfree (by decide : T_FILE < 2 ^ 16) (by decide))
    rintro _ h₁ ⟨rfl, hb₁, hfb₁⟩
    have hnew := update_new (names fs) (contents fs) []
    rw [hlen] at hnew
    rw [hnew] at hb₁
    have hzero : need ([] : List Byte).length = 0 := by decide
    have htotal := total_append (names fs) (contents fs) []
    have htotal' := total_append (names fs ++ [f.entry]) (contents fs) []
    have hmax : E .assert ∨ DIRENTSIZE * (3 + (names fs).length) ≤ MAXFILE * BSIZE := by
      right
      simp only [DIRENTSIZE, DIRSIZ, MAXFILE, BSIZE, NDIRECT, NINDIRECT, NINODES] at *
      omega
    have hname := appendName_spec (E := E) f.entry hb₁ (by omega) hmax
      (hroom.imp_right (by omega))
    rw [hlen'] at hname
    apply wp_call hname
    rintro _ h₂ ⟨hb₂, hfb₂⟩
    have hreads := appendReads_spec (E := E) f.reads [] h₂ (fun r hr => (f.read r hr).1) hb₂ hfb₂
      (hacc.imp_right fun ha => ha.2) (by rw [total_append]; exact hroom)
    rw [hlen, nil_append, ← InFile.bytes, total_append] at hreads
    exact hreads
  · rw [if_neg hslash]
    exact wp_bind (wp_throw (hacc.resolve_right fun ha => hslash ha.1))

theorem addFiles_spec (rest : List InFile) : ∀ (fs : List InFile) (h : Host),
    Built (fs.length + 2) (image (names fs) (contents fs)) h →
    h.freeblock ≤ total (names fs) (contents fs) → (fs ++ rest).length + 1 < NINODES →
    (∀ f ∈ rest, Accepted E f) →
    (E .exit ∨ total (names (fs ++ rest)) (contents (fs ++ rest)) ≤ FSSIZE) →
    wp (rest.forM (addFile ROOTINO)) (fun _ h' =>
      Built ((fs ++ rest).length + 2) (image (names (fs ++ rest)) (contents (fs ++ rest))) h' ∧
      h'.freeblock ≤ total (names (fs ++ rest)) (contents (fs ++ rest))) E h := by
  induction rest with
  | nil =>
    intro fs h hb hfb _ _ _
    rw [append_nil]
    exact wp_pure ⟨hb, hfb⟩
  | cons f rest ih =>
    intro fs h hb hfb hcount hacc hroom
    have hsplit : fs ++ f :: rest = fs ++ [f] ++ rest := by simp
    rw [hsplit] at hcount hroom ⊢
    have hle := total_le (fs ++ [f]) rest
    change wp (addFile ROOTINO f >>= fun _ => rest.forM (addFile ROOTINO)) _ E h
    simp only [length_append, length_singleton] at hcount
    apply wp_call (addFile_spec fs f hb hfb (by omega) (hacc f (by simp))
      (hroom.imp_right (by omega)))
    rintro _ h' ⟨hb', hfb'⟩
    have hlen : (fs ++ [f]).length + 2 = fs.length + 3 := by simp
    apply ih (fs ++ [f]) h' (hlen ▸ hb') hfb' _ (fun x hx => hacc x (by simp [hx])) hroom
    simp only [length_append, length_singleton]
    omega

def blank : Host := ⟨update (fun _ => zero) 1 (superBuf superblock), FSSIZE, superblock,
  1, nmeta⟩

theorem readSuperblock_superBuf : readSuperblock (superBuf superblock) = superblock := by
  decide +kernel

theorem diskInode_blank {n : ℕ} (hn : n < NINODES) :
    diskInode superblock (volume blank).blk n = ⟨0, 0, 0, 0, 0, fun _ => 0⟩ := by
  have hlt : iblock superblock n < superblock.bmapstart := geometry.iblock_lt hn
  have hzero : (volume blank).blk (iblock superblock n) = zero := by
    rw [volume_blk, show blank.sb.bmapstart = superblock.bmapstart from rfl, update_of_ne hlt.ne]
    exact update_of_ne (geometry.iblock_ne_super n) (superBuf superblock) _
  rw [diskInode, hzero]
  simp [readDinode]

theorem blank_built : Built 1 (fun _ => Node.free) blank := by
  have hready : Ready 1 blank := by
    have hzero : ∀ b, 1 < b → blank.blk b = zero := by
      intro b hb
      change update (fun _ => zero) 1 (superBuf superblock) b = _
      rw [update_of_ne (ne_of_gt hb)]
    refine ⟨rfl, rfl, rfl, le_rfl, by decide, fun b hb _ => ?_, fun b hb _ => hzero b hb⟩
    exact hzero b (lt_of_lt_of_le (by decide) hb)
  refine ⟨hready, fun _ => ⟨0, 0, 0, 0, 0, fun _ => 0⟩, geometry, ?_, ?_, ?_, ?_⟩
  · refine ⟨rfl, readSuperblock_superBuf, fun _ => rfl, ?_, ?_, ?_, ?_, ?_, ?_, ?_⟩
    · intro e
      simp [volume]
    · intro e he
      simp at he
    · intro e he
      simp at he
    · intro e he
      simp at he
    · intro e he
      simp at he
    · exact fun n hn _ => diskInode_blank hn
    · exact fun _ _ => ⟨Nat.two_pow_pos 16, Nat.two_pow_pos 16, Nat.two_pow_pos 16,
        Nat.two_pow_pos 16, Nat.two_pow_pos 32, fun _ => Nat.two_pow_pos 32⟩
  · have hnone : ∀ i, ptrs superblock (fun _ => ⟨0, 0, 0, 0, 0, fun _ => 0⟩)
        (volume blank).blk i = 0 := fun i => if_neg fun hlive => hlive.2 rfl
    refine ⟨by decide, fun i hi => absurd (hnone i) hi, fun i _ hi => absurd (hnone i) hi, ?_⟩
    intro b hb
    rw [hready.marked hb, decide_eq_true_eq, dataStart_eq]
    constructor
    · exact fun hlt => .inl hlt
    · rintro (hlt | ⟨i, hi⟩)
      · exact hlt
      · rw [← hi, hnone]
        decide
  · exact fun n hlive => absurd rfl hlive.2
  · funext n
    exact if_neg fun hlive => hlive.2 rfl

theorem node_of_view {B : ℕ → Block} {v : Node} (hview : nodes superblock D B = V)
    (hv : V n = v) (ht : v.type ≠ 0) : (D n).node B = v := by
  rw [← hv, ← hview, nodes_of_live]
  by_contra hnot
  rw [← hv, ← hview, nodes_of_not_live hnot] at ht
  exact ht rfl

/-- The root inode after `fixRoot`. -/
def rounded (d : Dinode) : Dinode := { d with size := (d.size / BSIZE + 1) * BSIZE }

/-- The image when `mkfs` exits with status 0. `D` are the inodes before the size of the root
directory was rounded. -/
structure Finished (files : List InFile) (D : ℕ → Dinode) (h : Host) : Prop where
  count : h.count = FSSIZE
  inode : h.freeinode = files.length + 2
  used : h.freeblock ≤ total (names files) (contents files)
  bitmap : h.blk = (volume h).blk
  ready : Ready (files.length + 2) h
  cached : Fs.Cached superblock none 0 ∅ (update D ROOTINO (rounded (D ROOTINO))) (volume h)
  owned : Fs.Owned superblock D h.blk
  mapped : Fs.Mapped superblock D h.blk
  view : nodes superblock D h.blk = image (names files) (contents files)

theorem fixRoot_spec {k : ℕ} {h : Host} (hr : Ready k h) (hd : Holds superblock 0 ∅ D V (volume h))
    (hsize : (D ROOTINO).size < MAXFILE * BSIZE) :
    wp (fixRoot ROOTINO) (fun _ h' => Ready k h' ∧ h'.freeblock = h.freeblock ∧
      Fs.Cached superblock none 0 ∅ (update D ROOTINO (rounded (D ROOTINO))) (volume h') ∧
      ∀ b, superblock.bmapstart ≤ b → (volume h').blk b = (volume h).blk b) E h := by
  have hroot : ROOTINO < NINODES := by decide
  have hfits := hd.cached.fits ROOTINO hroot
  have hlt : ((D ROOTINO).size / BSIZE + 1) * BSIZE < 2 ^ 32 := by
    simp only [BSIZE, MAXFILE, NDIRECT, NINDIRECT] at *
    omega
  unfold fixRoot
  apply wp_bind (wp_rinode hr hroot _)
  rw [hd.cached.disk ROOTINO hroot nofun, show w32 _ = _ from Nat.mod_eq_of_lt hlt]
  apply wp_winode hr hroot
  intro h' hr' hfb hblk
  refine ⟨hr', hfb, ?_, fun b hb => winode_data hroot hblk hb⟩
  exact cached_winode hd hr' ⟨hfits.type, hfits.major, hfits.minor, hfits.nlink, hlt, hfits.addrs⟩
    hblk

theorem balloc_spec {k : ℕ} {h : Host} (hr : Ready k h) :
    wp (balloc h.freeblock) (fun _ h' => Ready k h' ∧ h'.freeblock = h.freeblock ∧
      h'.blk = (volume h').blk ∧ volume h' = volume h) E h := by
  have hhi := hr.hi
  have hlo := hr.lo
  have hbm := bmapstart_lt
  unfold balloc assert
  rw [if_pos (by change _ < 4096; change _ ≤ 1000 at hhi; omega), pure_bind]
  apply wp_bind (wp_get _)
  rw [hr.sb]
  apply wp_wsect hr.count (by decide)
  have hblk : (h.put superblock.bmapstart (bits h.freeblock)).blk = (volume h).blk := by
    rw [volume_blk, hr.sb]
    rfl
  have hvol : volume (h.put superblock.bmapstart (bits h.freeblock)) = volume h := by
    unfold volume
    rw [hblk, volume_blk, hr.sb]
    simp only [Host.put, hr.sb, update_idem]
  exact ⟨hr.put inodestart_lt.le (by omega) _, rfl, hblk.trans (congrArg Fs.Vol.blk hvol).symm,
    hvol⟩

theorem appendDot_spec {k : ℕ} {h : Host} {l xp : List Byte}
    (hb : Built k (update (fun _ => Node.free) ROOTINO (fileNode T_DIR l)) h)
    (hlen : 0 < xp.length) (hle : l.length + xp.length ≤ BSIZE)
    (hfb : h.freeblock ≤ nmeta + need l.length) :
    wp (iappend ROOTINO xp) (fun _ h' =>
      Built k (update (fun _ => Node.free) ROOTINO (fileNode T_DIR (l ++ xp))) h' ∧
      h'.freeblock ≤ nmeta + need (l ++ xp).length) E h := by
  have hnode : update (fun _ => Node.free) ROOTINO (fileNode T_DIR l) ROOTINO =
      fileNode T_DIR l := update_self ..
  have htype : (update (fun _ => Node.free) ROOTINO (fileNode T_DIR l) ROOTINO).type =
      T_DIR := by
    rw [hnode]
    rfl
  have hsize : (update (fun _ => Node.free) ROOTINO (fileNode T_DIR l) ROOTINO).size =
      l.length := by
    rw [hnode]
    rfl
  have hone : need (l.length + xp.length) ≤ 1 := by
    unfold need
    simp only [BSIZE, NDIRECT] at *
    split_ifs <;> omega
  apply wp_conseq (iappend_spec hb hlen (by rw [htype]; decide) (by rw [htype]; decide) (.inr _)
    (.inr _))
  · rintro _ h' ⟨hb', hfb'⟩
    rw [hsize, hnode, fileNode_write, update_idem] at hb'
    rw [hsize] at hfb'
    exact ⟨hb', by rw [length_append]; omega⟩
  · rw [hsize]
    simp only [BSIZE, MAXFILE, NDIRECT, NINDIRECT] at *
    omega
  · rw [hsize]
    have hroom : nmeta + 1 ≤ FSSIZE := by decide
    omega

theorem image_nil : update (fun _ => Node.free) ROOTINO
    (fileNode T_DIR (rootBytes [])) = image [] [] := by
  funext n
  rw [update_apply]
  unfold image
  split_ifs <;> rfl

/-- `mkfs` with fewer than `NINODES` inodes. It exits with status 0 unless a file is refused or the
sectors are used up. -/
theorem main_spec (files : List InFile) (hcount : files.length + 1 < NINODES)
    (hacc : ∀ f ∈ files, Accepted E f)
    (hroom : E .exit ∨ total (names files) (contents files) ≤ FSSIZE) :
    wp (main files) (fun _ h => ∃ D, Finished files D h) E start := by
  unfold main
  apply wp_bind (wp_modify _)
  have hzero : wp (upto (fun i => wsect i zero) FSSIZE)
      (fun _ h => h = ⟨fun _ => zero, FSSIZE, superblock, 1, nmeta⟩) E
      { start with sb := superblock, freeblock := nmeta } := by
    apply wp_upto (fun i (h : Host) => h = ⟨fun _ => zero, i, superblock, 1, nmeta⟩) rfl
    rintro i _ hi rfl
    apply wp_modify
    rw [seek_of_lt hi.le]
    congr 1
    · exact update_eq_self i fun _ => zero
    · exact max_eq_right (Nat.le_succ i)
  apply wp_call hzero
  rintro _ _ rfl
  apply wp_bind (wp_wsect rfl (by decide) _)
  have hblank : Host.put ⟨fun _ => zero, FSSIZE, superblock, 1, nmeta⟩ 1 (superBuf superblock) =
      blank := rfl
  rw [hblank]
  apply wp_call (ialloc_spec blank_built (by decide) rfl (by decide : T_DIR < 2 ^ 16) (by decide))
  rintro _ h₁ ⟨rfl, hb₁, hfb₁⟩
  unfold assert
  rw [if_pos rfl, pure_bind]
  apply wp_call (appendDot_spec hb₁ (by decide) (by decide) hfb₁.le)
  rintro _ h₂ ⟨hb₂, hfb₂⟩
  apply wp_call (appendDot_spec hb₂ (by decide) (by decide) hfb₂)
  rintro _ h₃ ⟨hb₃, hfb₃⟩
  rw [nil_append, show direntBytes dot 1 ++ direntBytes dotdot 1 = rootBytes [] from
    (append_nil _).symm] at hb₃ hfb₃
  rw [image_nil] at hb₃
  apply wp_call (addFiles_spec files [] h₃ hb₃ hfb₃ hcount hacc hroom)
  rintro _ h₄ ⟨⟨hr₄, D, hd⟩, hfb₄⟩
  rw [nil_append] at hr₄ hd hfb₄
  have hroot : (D ROOTINO).size < MAXFILE * BSIZE := by
    have hnode := node_of_view hd.view (image_root (names files) (contents files))
      (show T_DIR ≠ 0 by decide)
    rw [show (D ROOTINO).size = _ from congrArg Node.size hnode]
    change (rootBytes (names files)).length < _
    rw [length_rootBytes, names, length_map]
    simp only [DIRENTSIZE, DIRSIZ, MAXFILE, BSIZE, NDIRECT, NINDIRECT, NINODES] at *
    omega
  apply wp_call (fixRoot_spec hr₄ hd hroot)
  rintro _ h₅ ⟨hr₅, hfb₅, hc₅, hdata⟩
  apply wp_bind (wp_get _)
  apply wp_conseq (balloc_spec hr₅)
  rintro _ h₆ ⟨hr₆, hfb₆, hblk, hvol⟩
  have hsame : ∀ b, superblock.bmapstart ≤ b → h₆.blk b = (volume h₄).blk b := by
    intro b hb
    rw [hblk, hvol, hdata b hb]
  have hsame' : ∀ b, dataStart superblock ≤ b → h₆.blk b = (volume h₄).blk b := by
    have hbm := geometry.bmapstart_lt
    exact fun b hb => hsame b (by omega)
  refine ⟨D, hr₆.count, hr₆.inode, by omega, hblk, hr₆, hvol ▸ hc₅, ?_, ?_, ?_⟩
  · exact hd.owned.frame geometry (fun _ => Iff.rfl) (fun _ => rfl) hsame
  · exact hd.mapped.frame hd.owned hsame'
  · rw [nodes_frame hd.owned hd.mapped hsame', hd.view]

def inodes (h : Host) : ℕ → Dinode := diskInode superblock h.blk

structure WellFormed (h : Host) : Prop where
  blocks : h.count = superblock.size
  /-- `ialloc` has handed out the numbers below `freeinode` -/
  inode : ∀ n < h.freeinode, n < superblock.ninodes
  mapped : ∀ n, Live superblock (inodes h) n → ∀ bn, bn * BSIZE < (inodes h n).size →
    dataStart superblock ≤ (inodes h n).fileBlk h.blk bn ∧
      (inodes h n).fileBlk h.blk bn < superblock.size
  once : ∀ i j, ptrs superblock (inodes h) h.blk i ≠ 0 →
    ptrs superblock (inodes h) h.blk i = ptrs superblock (inodes h) h.blk j → i = j
  bitmap : ∀ b < superblock.size, marked superblock h.blk b = true ↔
    b < dataStart superblock ∨ ∃ i, ptrs superblock (inodes h) h.blk i = b

namespace Finished

variable {files : List InFile} {D : ℕ → Dinode} {h : Host} (hf : Finished files D h)

include hf

theorem inodes_eq {n : ℕ} (hn : n < NINODES) :
    inodes h n = if n = ROOTINO then rounded (D ROOTINO) else D n := by
  have hdisk := hf.cached.disk n hn nofun
  rwa [← hf.bitmap, update_apply] at hdisk

theorem ptr_eq {n : ℕ} (hn : n < NINODES) (k : ℕ) : (inodes h n).ptr h.blk k =
    (D n).ptr h.blk k := by
  rw [hf.inodes_eq hn]
  split_ifs with hroot
  · rw [hroot]
    rfl
  · rfl

theorem live_iff (n : ℕ) : Live superblock (inodes h) n ↔ Live superblock D n := by
  unfold Live
  refine and_congr_right fun hn => ?_
  rw [hf.inodes_eq hn]
  split_ifs with hroot
  · rw [hroot]
    rfl
  · rfl

theorem ptrs_eq (i : ℕ × ℕ) : ptrs superblock (inodes h) h.blk i = ptrs superblock D h.blk i := by
  obtain ⟨n, k⟩ := i
  by_cases hlive : Live superblock D n
  · rw [ptrs_of_live ((hf.live_iff n).mpr hlive), ptrs_of_live hlive, hf.ptr_eq hlive.1]
  · rw [ptrs_of_not_live (mt (hf.live_iff n).mp hlive), ptrs_of_not_live hlive]

theorem fileBlk_eq {n : ℕ} (hn : n < NINODES) (bn : ℕ) :
    (inodes h n).fileBlk h.blk bn = (D n).fileBlk h.blk bn := hf.ptr_eq hn _

theorem root_node : (D ROOTINO).node h.blk = fileNode T_DIR (rootBytes (names files)) :=
  node_of_view hf.view (image_root _ _) (show T_DIR ≠ 0 by decide)

theorem root_size : (D ROOTINO).size = DIRENTSIZE * (2 + files.length) := by
  have hsize := congrArg Node.size hf.root_node
  change (D ROOTINO).size = (rootBytes (names files)).length at hsize
  rw [hsize, length_rootBytes, names, length_map]

theorem type_ne {n : ℕ} (hn : Live superblock D n) : (D n).type ≠ T_DEV := by
  have hview := congrFun hf.view n
  rw [nodes_of_live hn] at hview
  have htype := congrArg Node.type hview
  change (D n).type = _ at htype
  rw [htype]
  unfold image
  split_ifs
  · exact (show T_DIR ≠ T_DEV by decide)
  · exact (show 0 ≠ T_DEV by decide)
  · cases (contents files)[n - 2]? with
    | none => decide
    | some l => exact (show T_FILE ≠ T_DEV by decide)

/-- Rounding the size of the root directory adds no block unless the last one is full. -/
theorem mapped_rounded (hround : DIRENTSIZE * (2 + files.length) % BSIZE ≠ 0) {n bn : ℕ}
    (hn : Live superblock D n) (hbn : bn * BSIZE < (inodes h n).size) :
    (D n).fileBlk h.blk bn ≠ 0 := by
  apply hf.mapped n hn (hf.type_ne hn)
  rw [hf.inodes_eq hn.1] at hbn
  split_ifs at hbn with hroot
  · have hsize := hf.root_size
    rw [hroot]
    change bn * BSIZE < ((D ROOTINO).size / BSIZE + 1) * BSIZE at hbn
    rw [← hsize] at hround
    simp only [BSIZE] at *
    omega
  · exact hbn

/-- The pointers that a file with its size needs are there. -/
theorem ptr_ne_zero {n k : ℕ} (hn : Live superblock D n) (hk : k < need (D n).size) :
    (D n).ptr h.blk k ≠ 0 := by
  have hmap := hf.mapped n hn (hf.type_ne hn)
  unfold need at hk
  by_cases hdirect : k < NDIRECT
  · have hbn := hmap k (by
      simp only [BSIZE, NDIRECT] at *
      split_ifs at hk <;> omega)
    rwa [Dinode.fileBlk, if_pos hdirect] at hbn
  · have hind : NDIRECT < ((D n).size + (BSIZE - 1)) / BSIZE := by
      by_contra hle
      rw [if_neg hle] at hk
      omega
    rw [if_pos hind] at hk
    by_cases hlast : k = NDIRECT
    · -- without the indirect block the entries behind it would be 0
      have hbn := hmap NDIRECT (by simp only [BSIZE, NDIRECT] at *; omega)
      rw [Dinode.fileBlk, if_neg (lt_irrefl _), Dinode.ptr, dif_neg (lt_irrefl _)] at hbn
      rw [hlast, show (D n).ptr h.blk NDIRECT = _ from (D n).ptr_direct h.blk (Fin.last NDIRECT)]
      intro hzero
      exact hbn (if_neg fun hne => hne.1 hzero)
    · have hbn := hmap (k - 1) (by simp only [BSIZE, NDIRECT] at *; omega)
      rwa [Dinode.fileBlk, if_neg (by omega), Nat.sub_add_cancel (by omega)] at hbn

theorem sum_need : ∑ n ∈ Finset.range (files.length + 2), need (nodes superblock D h.blk n).size =
    total (names files) (contents files) - nmeta := by
  have hlen : (contents files).length = files.length := length_map ..
  rw [hf.view, Finset.sum_range_succ', Finset.sum_range_succ', ← hlen, Finset.sum_range]
  have hfiles : ∀ i : Fin (contents files).length,
      need (image (names files) (contents files) (i + 1 + 1)).size =
        need (contents files)[i].length := by
    intro i
    rw [image, if_neg (by change _ ≠ 1; omega), if_neg (by omega),
      show (i : ℕ) + 1 + 1 - 2 = i by omega]
    simp [fileNode]
  have hsum := Fin.sum_univ_fun_getElem (contents files) fun l => need l.length
  rw [Finset.sum_congr rfl fun i _ => hfiles i]
  change ∑ i : Fin (contents files).length, need (contents files)[i].length = _ at hsum
  rw [hsum]
  have hroot : need (image (names files) (contents files) (0 + 1)).size =
      need (rootBytes (names files)).length :=
    congrArg (fun v => need v.size) (image_root (names files) (contents files))
  have hzero : need (image (names files) (contents files) 0).size = 0 := by
    rw [image, if_neg (by decide), if_pos (by decide)]
    decide
  unfold total
  omega

/-- The blocks handed out are those that the sizes need: no file has one more. -/
theorem ptr_eq_zero {m k : ℕ} (hm : Live superblock D m) (hk : need (D m).size ≤ k) :
    (D m).ptr h.blk k = 0 := by
  by_contra h0
  have hlive : ∀ n, 0 < need (nodes superblock D h.blk n).size → Live superblock D n := by
    intro n hpos
    by_contra hnot
    rw [nodes_of_not_live hnot] at hpos
    exact absurd hpos (by decide)
  have hsize : ∀ n, Live superblock D n → (nodes superblock D h.blk n).size = (D n).size := by
    intro n hn
    rw [nodes_of_live hn]
    rfl
  let used := (Finset.range (files.length + 2)).sigma fun n =>
    Finset.range (need (nodes superblock D h.blk n).size)
  have hused : ∀ i ∈ used, Live superblock D i.1 ∧ i.2 < need (D i.1).size := by
    intro i hi
    have hi' := Finset.mem_range.mp (Finset.mem_sigma.mp hi).2
    have hn := hlive i.1 (by omega)
    rw [hsize i.1 hn] at hi'
    exact ⟨hn, hi'⟩
  have hptr : ∀ i ∈ insert ⟨m, k⟩ used, Live superblock D i.1 ∧ (D i.1).ptr h.blk i.2 ≠ 0 := by
    intro i hi
    rcases Finset.mem_insert.mp hi with rfl | hi
    · exact ⟨hm, h0⟩
    · obtain ⟨hn, hlt⟩ := hused i hi
      exact ⟨hn, hf.ptr_ne_zero hn hlt⟩
  have hcard : (insert ⟨m, k⟩ used).card ≤ (Finset.Ico nmeta h.freeblock).card := by
    apply Finset.card_le_card_of_injOn fun i => (D i.1).ptr h.blk i.2
    · intro i hi
      obtain ⟨hn, hne⟩ := hptr i hi
      have hrange := hf.ready.ptr_range (t := volume h) rfl (hf.bitmap ▸ hf.owned) hn
        (by rwa [← hf.bitmap])
      rw [← hf.bitmap] at hrange
      exact Finset.mem_coe.mpr (Finset.mem_Ico.mpr hrange)
    · intro i hi j hj heq
      obtain ⟨hn, hne⟩ := hptr i hi
      obtain ⟨h₁, h₂⟩ := hf.owned.ptr_inj hn (hptr j hj).1 hne heq
      exact Sigma.ext h₁ (heq_of_eq h₂)
  have hnew : (⟨m, k⟩ : (_ : ℕ) × ℕ) ∉ used := by
    intro hi
    have hlt : k < need (D m).size := (hused _ hi).2
    omega
  have htotal : used.card = total (names files) (contents files) - nmeta := by
    rw [Finset.card_sigma, ← hf.sum_need]
    simp
  have hle := hf.used
  rw [Finset.card_insert_of_notMem hnew, htotal, Nat.card_Ico] at hcard
  have hlo : nmeta ≤ h.freeblock := hf.ready.lo
  omega

theorem root_live : Live superblock D ROOTINO := by
  refine ⟨by decide, ?_⟩
  rw [show (D ROOTINO).type = T_DIR from congrArg Node.type hf.root_node]
  decide

/-- Rounding a size that fills the last block adds a block that is not there. -/
theorem root_unmapped (hcount : files.length + 1 < NINODES)
    (hround : DIRENTSIZE * (2 + files.length) % BSIZE = 0) :
    (inodes h ROOTINO).size = DIRENTSIZE * (2 + files.length) + BSIZE ∧
      (inodes h ROOTINO).fileBlk h.blk (DIRENTSIZE * (2 + files.length) / BSIZE) = 0 := by
  have hroot : ROOTINO < NINODES := by decide
  have hsize := hf.root_size
  rw [← hsize] at hround ⊢
  constructor
  · rw [hf.inodes_eq hroot, if_pos rfl]
    change ((D ROOTINO).size / BSIZE + 1) * BSIZE = _
    simp only [BSIZE] at *
    omega
  · have hlt : (D ROOTINO).size / BSIZE < NDIRECT := by
      simp only [DIRENTSIZE, DIRSIZ, BSIZE, NDIRECT, NINODES] at *
      omega
    rw [hf.fileBlk_eq hroot, Dinode.fileBlk, if_pos hlt]
    apply hf.ptr_eq_zero hf.root_live
    unfold need
    simp only [BSIZE, NDIRECT] at *
    split_ifs <;> omega

end Finished

/-- `c` hands out no inode number. -/
def KeepsInode {α : Type} (c : M α) : Prop :=
  ∀ h, wp c (fun _ h' => h'.freeinode = h.freeinode) (fun _ => True) h

section
variable {α β : Type} {c : M α}

theorem KeepsInode.bind {f : α → M β} (hc : KeepsInode c) (hf : ∀ a, KeepsInode (f a)) :
    KeepsInode (c >>= f) := by
  intro h
  apply wp_call (hc h)
  intro a h' heq
  apply wp_conseq (hf a h')
  intro _ _ heq'
  exact heq'.trans heq

theorem keepsInode_pure (a : α) : KeepsInode (pure a) := fun _ => wp_pure rfl

theorem keepsInode_get : KeepsInode get := fun _ => wp_get rfl

theorem keepsInode_throw (e : Stop) : KeepsInode (throw e : M α) := fun _ => wp_throw trivial

theorem keepsInode_wsect (sec : ℕ) (buf : Block) : KeepsInode (wsect sec buf) :=
  fun _ => wp_modify rfl

theorem keepsInode_assert (p : Prop) [Decidable p] : KeepsInode (assert p) := by
  intro h
  apply wp_ite
  · exact fun _ => keepsInode_pure () h
  · exact fun _ => keepsInode_throw .assert h

theorem keepsInode_rsect (sec : ℕ) : KeepsInode (rsect sec) := by
  apply keepsInode_get.bind
  intro s h
  apply wp_ite
  · exact fun _ => keepsInode_pure _ h
  · exact fun _ => keepsInode_throw .exit h

theorem keepsInode_winode (inum : ℕ) (d : Dinode) : KeepsInode (winode inum d) := by
  apply keepsInode_get.bind
  intro s
  exact (keepsInode_rsect _).bind fun _ => keepsInode_wsect _ _

theorem keepsInode_rinode (inum : ℕ) : KeepsInode (rinode inum) := by
  apply keepsInode_get.bind
  intro s
  exact (keepsInode_rsect _).bind fun _ => keepsInode_pure _

theorem keepsInode_nextBlock : KeepsInode nextBlock := by
  apply keepsInode_get.bind
  intro s
  have hnext : KeepsInode (modify Host.next) := fun _ => wp_modify rfl
  exact hnext.bind fun _ => keepsInode_pure _

theorem keepsInode_fillAddr (d : Dinode) (i : Fin (NDIRECT + 1)) : KeepsInode (fillAddr d i) := by
  intro h
  apply wp_ite
  · exact fun _ => (keepsInode_nextBlock.bind fun _ => keepsInode_pure _) h
  · exact fun _ => keepsInode_pure _ h

theorem keepsInode_fillEntry (ib j : ℕ) : KeepsInode (fillEntry ib j) := by
  apply (keepsInode_rsect ib).bind
  intro indirect h
  apply wp_ite
  · intro _
    refine (keepsInode_nextBlock.bind fun _ => ?_) h
    exact (keepsInode_wsect _ _).bind fun _ => keepsInode_pure _
  · exact fun _ => keepsInode_pure _ h

theorem keepsInode_mapBlock (d : Dinode) (fbn : ℕ) : KeepsInode (mapBlock d fbn) := by
  unfold mapBlock
  split
  · exact (keepsInode_fillAddr _ _).bind fun _ => keepsInode_pure _
  · apply (keepsInode_fillAddr _ _).bind
    intro d'
    exact (keepsInode_fillEntry _ _).bind fun _ => keepsInode_pure _

theorem keepsInode_appendTurn (p : ℕ → Byte) (n tot off : ℕ) (d : Dinode) :
    KeepsInode (appendTurn p n tot off d) := by
  apply (keepsInode_assert _).bind
  intro _
  apply (keepsInode_mapBlock _ _).bind
  rintro ⟨d', x⟩
  apply (keepsInode_rsect x).bind
  intro buf
  exact (keepsInode_wsect _ _).bind fun _ => keepsInode_pure _

theorem keepsInode_appendLoop (p : ℕ → Byte) (n fuel : ℕ) : ∀ (tot off : ℕ) (d : Dinode),
    KeepsInode (appendLoop p n fuel tot off d) := by
  induction fuel with
  | zero => exact fun _ off d => keepsInode_pure (off, d)
  | succ fuel ih =>
    intro tot off d h
    apply wp_ite
    · exact fun _ => ((keepsInode_appendTurn _ _ _ _ _).bind fun d' => ih _ _ d') h
    · exact fun _ => keepsInode_pure (off, d) h

theorem keepsInode_iappend (inum : ℕ) (xp : List Byte) : KeepsInode (iappend inum xp) := by
  apply (keepsInode_rinode inum).bind
  intro d
  apply (keepsInode_appendLoop _ _ _ _ _ _).bind
  rintro ⟨off, d'⟩
  exact keepsInode_winode _ _

theorem keepsInode_forM {ι : Type} {f : ι → M Unit} (hf : ∀ i, KeepsInode (f i)) (l : List ι) :
    KeepsInode (l.forM f) := by
  induction l with
  | nil => exact keepsInode_pure ()
  | cons i l ih => exact (hf i).bind fun _ => ih

theorem wp_ialloc_freeinode {type i : ℕ} {h : Host} (hi : h.freeinode = i) (hlt : i + 1 < 2 ^ 32) :
    wp (ialloc type) (fun _ h' => h'.freeinode = i + 1) (fun _ => True) h := by
  unfold ialloc
  apply wp_bind (wp_get _)
  apply wp_bind (wp_modify _)
  apply wp_call (keepsInode_winode _ _ _)
  intro _ h' heq
  apply wp_pure
  rw [heq]
  change w32 (h.freeinode + 1) = _
  rw [hi]
  exact Nat.mod_eq_of_lt hlt

theorem addFiles_freeinode {rootino : ℕ} (files : List InFile) : ∀ {h : Host} {i : ℕ},
    h.freeinode = i → i + files.length < 2 ^ 32 →
    wp (files.forM (addFile rootino)) (fun _ h' => h'.freeinode = i + files.length)
      (fun _ => True) h := by
  induction files with
  | nil => exact fun hi _ => wp_pure hi
  | cons f files ih =>
    intro h i hi hlt
    rw [length_cons] at hlt ⊢
    have hfile : wp (addFile rootino f) (fun _ h' => h'.freeinode = i + 1) (fun _ => True) h := by
      apply wp_call (keepsInode_assert _ h)
      intro _ h₁ heq
      apply wp_call (wp_ialloc_freeinode (heq.trans hi) (by omega))
      intro inum h₂ heq₂
      apply wp_conseq (((keepsInode_iappend _ _).bind fun _ =>
        keepsInode_forM (keepsInode_iappend inum) f.reads) h₂)
      exact fun _ _ heq₃ => heq₃.trans heq₂
    change wp (addFile rootino f >>= fun _ => files.forM (addFile rootino)) _ _ h
    apply wp_call hfile
    intro _ h' heq
    apply wp_conseq (ih heq (by omega))
    intro _ _ heq'
    omega

/-- An inode number is used for the root directory and for each file, however many there are. -/
theorem main_freeinode {files : List InFile} (hargc : files.length + 2 < 2 ^ 31) :
    wp (main files) (fun _ h => h.freeinode = files.length + 2) (fun _ => True) start := by
  unfold main
  apply wp_bind (wp_modify _)
  apply wp_call (wp_upto (fun _ h => h.freeinode = 1) rfl fun k h _ heq =>
    wp_conseq (keepsInode_wsect k zero h) fun _ _ heq' => heq'.trans heq)
  intro _ h₁ h1
  apply wp_call (keepsInode_wsect _ _ h₁)
  intro _ h₂ h2
  apply wp_call (wp_ialloc_freeinode (h2.trans h1) (by decide))
  intro rootino h₃ h3
  apply wp_call (keepsInode_assert _ h₃)
  intro _ h₄ h4
  apply wp_call (keepsInode_iappend _ _ h₄)
  intro _ h₅ h5
  apply wp_call (keepsInode_iappend _ _ h₅)
  intro _ h₆ h6
  apply wp_call (addFiles_freeinode files (h6.trans (h5.trans (h4.trans h3))) (by omega))
  intro _ h₇ h7
  have hend : KeepsInode (fixRoot rootino >>= fun _ => get >>= fun h : Host =>
      balloc h.freeblock) := by
    apply KeepsInode.bind
    · exact (keepsInode_rinode _).bind fun _ => keepsInode_winode _ _
    · intro _
      apply keepsInode_get.bind
      intro h
      apply (keepsInode_assert _).bind
      intro _
      exact keepsInode_get.bind fun _ => keepsInode_wsect _ _
  apply wp_conseq (hend h₇)
  intro _ _ h8
  omega

end

/-- An image that `mkfs` has written is well-formed just when fewer than `NINODES` inodes are used
and the last block of the root directory is not full. The files are the arguments of `main`, of
which there are at most `INT_MAX`. -/
theorem mkfs_well_formed (files : List InFile) (h : Host) (hok : main files start = .ok ((), h))
    (hargc : files.length + 2 < 2 ^ 31) : WellFormed h ↔
      files.length + 1 < NINODES ∧ DIRENTSIZE * (2 + files.length) % BSIZE ≠ 0 := by
  constructor
  · intro hwf
    have hcount : files.length + 1 < NINODES := by
      apply hwf.inode
      rw [wp_ok (main_freeinode hargc) hok]
      exact Nat.lt_succ_self _
    refine ⟨hcount, fun hround => ?_⟩
    obtain ⟨D, hf⟩ := wp_ok (main_spec (E := fun _ => True) files hcount
      (fun _ _ => .inl trivial) (.inl trivial)) hok
    obtain ⟨hsize, hzero⟩ := hf.root_unmapped hcount hround
    have hmapped := (hwf.mapped ROOTINO ((hf.live_iff ROOTINO).mpr hf.root_live)
      (DIRENTSIZE * (2 + files.length) / BSIZE) (by
        rw [hsize]
        simp only [BSIZE] at *
        omega)).1
    rw [hzero] at hmapped
    exact absurd hmapped (by decide)
  · rintro ⟨hcount, hround⟩
    obtain ⟨D, hf⟩ := wp_ok (main_spec (E := fun _ => True) files hcount
      (fun _ _ => .inl trivial) (.inl trivial)) hok
    refine ⟨hf.count, ?_, ?_, ?_, ?_⟩
    · intro n hn
      rw [hf.inode] at hn
      change n < NINODES
      omega
    · intro n hn bn hbn
      have hlive := (hf.live_iff n).mp hn
      rw [hf.fileBlk_eq hn.1]
      exact hf.owned.ptr_range hlive (hf.mapped_rounded hround hlive hbn)
    · intro i j
      rw [hf.ptrs_eq, hf.ptrs_eq]
      exact hf.owned.inj i j
    · intro b hb
      simp only [hf.ptrs_eq]
      exact hf.owned.used_iff b hb

def emptyFile : InFile := ⟨[0x61], [], by decide, by decide⟩

theorem emptyFiles_spec {m : ℕ} (hm : m ≤ 30) :
    ∃ h D, main (List.replicate m emptyFile) start = .ok ((), h) ∧
      Finished (List.replicate m emptyFile) D h := by
  have htotal : total (names (List.replicate m emptyFile)) (contents (List.replicate m emptyFile)) ≤
      nmeta + 1 := by
    have hroot : need (DIRENTSIZE * (2 + m)) ≤ 1 := by
      unfold need
      simp only [DIRENTSIZE, DIRSIZ, BSIZE, NDIRECT]
      split_ifs <;> omega
    simp only [total, length_rootBytes, names, contents, map_replicate, length_replicate,
      sum_replicate_nat]
    rw [show need emptyFile.bytes.length = 0 by decide, Nat.mul_zero]
    omega
  have hspec := main_spec (E := fun _ => False) (List.replicate m emptyFile)
    (by rw [length_replicate]; change _ < 200; omega)
    (fun f hf => .inr (by rw [eq_of_mem_replicate hf]; decide))
    (.inr (htotal.trans (by decide)))
  obtain ⟨⟨⟩, h, hok, D, hf⟩ := exists_ok hspec
  exact ⟨h, D, hok, hf⟩

theorem mkfs_well_formed_one :
    ∃ h, main (List.replicate 1 emptyFile) start = .ok ((), h) ∧ WellFormed h := by
  obtain ⟨h, D, hok, -⟩ := emptyFiles_spec (m := 1) (by decide)
  exact ⟨h, hok, (mkfs_well_formed _ h hok (by decide)).mpr (by decide)⟩

/-- With 30 files the root directory fills one block. Its size is rounded up to two blocks, of
which the second is not there. -/
theorem mkfs_root_unmapped : ∃ h, main (List.replicate 30 emptyFile) start = .ok ((), h) ∧
    (inodes h ROOTINO).size = 2 * BSIZE ∧ (inodes h ROOTINO).fileBlk h.blk 1 = 0 ∧
    ¬WellFormed h := by
  obtain ⟨h, D, hok, hf⟩ := emptyFiles_spec (m := 30) le_rfl
  obtain ⟨hsize, hzero⟩ := hf.root_unmapped (by decide) (by decide)
  refine ⟨h, hok, hsize, hzero, ?_⟩
  intro hwf
  have hlt : 1 * BSIZE < (inodes h ROOTINO).size := by
    rw [hsize]
    decide
  have hmapped := (hwf.mapped ROOTINO ((hf.live_iff ROOTINO).mpr hf.root_live) 1 hlt).1
  rw [show (inodes h ROOTINO).fileBlk h.blk 1 = 0 from hzero] at hmapped
  exact absurd hmapped (by decide)

end Xv6Threads.Mkfs
