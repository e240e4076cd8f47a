import Xv6Threads.Fs.Blocks

namespace Xv6Threads.Fs

open Bytes Function Dinode

variable {sb : Superblock} {x : Option ℕ} {H : Multiset Ix} {L : Finset Ix}
  {D D' D'' : ℕ → Dinode} {B : ℕ → Block} {s t u : Vol} {e : Ix} {m n bn off tot len : ℕ}
  {src : ℕ → Byte} {E : Stop → Prop}

theorem turn_pos (h : tot < len) : 0 < turn len tot off := by
  have hmod := Nat.mod_lt off (show 0 < BSIZE by decide)
  unfold turn
  omega

theorem turn_le (len tot off : ℕ) : turn len tot off ≤ len - tot := Nat.min_le_left ..

theorem mod_add_turn_le (len tot off : ℕ) : off % BSIZE + turn len tot off ≤ BSIZE := by
  have hmod := Nat.mod_lt off (show 0 < BSIZE by decide)
  unfold turn
  omega

theorem div_of_turn {y : ℕ} (hlo : off ≤ y) (hhi : y < off + turn len tot off) :
    y / BSIZE = off / BSIZE ∧ y % BSIZE = off % BSIZE + (y - off) := by
  have hle := mod_add_turn_le len tot off
  simp only [BSIZE] at *
  omega

section
variable (h : Cached sb x H L D s) (he : e ∈ H) (hn : (s.icache e).inum = n)
  (hv : (s.icache e).valid = true)
include h he hn hv

theorem readLoop_spec (fuel : ℕ) : ∀ tot off dst, len - tot ≤ fuel →
      (∀ y, off ≤ y → y < off + (len - tot) → (D n).fileBlk s.blk (y / BSIZE) ≠ 0) →
      wp (readLoop e len fuel tot off dst) (fun dst' t => s = t ∧
        dst' = fun i => if tot ≤ i ∧ i < len then (D n).byte s.blk (off + (i - tot)) else dst i)
        E s := by
  subst hn
  induction fuel with
  | zero =>
    intro tot off dst hfuel _
    refine wp_pure ⟨rfl, ?_⟩
    funext i
    rw [if_neg (by omega)]
  | succ fuel ih =>
    intro tot off dst hfuel hmap
    unfold readLoop
    apply wp_ite
    · intro hlt
      have hpos : 0 < turn len tot off := turn_pos hlt
      have hle := turn_le len tot off
      apply wp_call (bmap_mapped h he hv (hmap off le_rfl (by omega)))
      rintro b _ ⟨rfl, rfl⟩
      apply wp_bind (wp_bind (wp_get (wp_pure _)))
      apply wp_conseq (ih _ _ _ (by omega) fun y hlo hhi => hmap y (by omega) (by omega))
      rintro dst' _ ⟨rfl, rfl⟩
      refine ⟨rfl, ?_⟩
      funext i
      by_cases hturn : tot ≤ i ∧ i < tot + turn len tot off
      · -- the bytes of this turn
        have hhi : off + (i - tot) < off + turn len tot off := by omega
        obtain ⟨hdiv, hmod⟩ := div_of_turn (Nat.le_add_right _ _) hhi
        rw [if_neg (by omega), if_pos hturn, if_pos (by omega), byte, hdiv, hmod,
          Nat.add_sub_cancel_left]
      · by_cases hin : tot ≤ i ∧ i < len
        · rw [if_pos (by omega), if_pos hin]
          congr 1
          omega
        · rw [if_neg (by omega), if_neg hturn, if_neg hin]
    · intro hge
      refine wp_pure ⟨rfl, ?_⟩
      funext i
      rw [if_neg (by omega)]

theorem readi_mapped (hdev : (D n).type ≠ T_DEV) (hin : off + len ≤ (D n).size)
    (hmap : ∀ y, off ≤ y → y < off + len → (D n).fileBlk s.blk (y / BSIZE) ≠ 0) :
    wp (readi e off len) (fun r t => s = t ∧
      r = ((len : ℤ), fun i => if i < len then (D n).byte s.blk (off + i) else 0)) E s := by
  have hdn : (s.icache e).d = D n := hn ▸ h.d_eq he hv
  have hfits := (h.fits n (hn ▸ h.inum e he)).size
  have hw : w32 (off + len) = off + len := Nat.mod_eq_of_lt (by omega)
  unfold readi
  apply wp_bind (wp_inode _)
  rw [hdn, if_neg hdev, if_neg (by omega), hw, if_neg (by omega)]
  apply wp_call (readLoop_spec h he hn hv len 0 off _ (by omega) (by simpa using hmap))
  rintro dst _ ⟨rfl, rfl⟩
  refine wp_pure ⟨rfl, ?_⟩
  simp only [Nat.zero_le, true_and, Nat.sub_zero]

end

theorem Owned.ptr_writeData (h : Owned sb D B) (hn : Live sb D n) {k : ℕ} (hk : k ≠ NDIRECT)
    (hm : Live sb D m) (y : Block) (l : ℕ) :
    (D m).ptr (update B ((D n).ptr B k) y) l = (D m).ptr B l := by
  apply ptr_congr
  intro hlast
  exact update_of_ne (h.last_ne hm hn (by omega) hlast) ..

theorem Keeps.writeData (h : Owned sb D B) (hn : Live sb D n) {k : ℕ} (hk : k ≠ NDIRECT)
    (hm : Live sb D m) (hne : m ≠ n) (y : Block) : Keeps D D B (update B ((D n).ptr B k) y) m := by
  refine ⟨rfl, rfl, ?_⟩
  intro l _ h0
  refine ⟨h.ptr_writeData hn hk hm y l, update_of_ne ?_ ..⟩
  intro heq
  exact hne (h.ptr_inj hm hn h0 heq).1

/-- The pointer for block `bn` of a file. -/
def fileIdx (bn : ℕ) : ℕ := if bn < NDIRECT then bn else bn + 1

theorem fileIdx_ne (bn : ℕ) : fileIdx bn ≠ NDIRECT := by
  unfold fileIdx
  split_ifs <;> omega

theorem fileIdx_inj {bn bn' : ℕ} (h : fileIdx bn = fileIdx bn') : bn = bn' := by
  unfold fileIdx at h
  split_ifs at h <;> omega

theorem Owned.fileBlk_inj (h : Owned sb D B) (hn : Live sb D n) {bn bn' : ℕ}
    (h0 : (D n).fileBlk B bn ≠ 0) (heq : (D n).fileBlk B bn = (D n).fileBlk B bn') : bn = bn' :=
  fileIdx_inj (h.ptr_inj hn hn h0 heq).2

/-- A byte of the file after block `bn` has been replaced by `y`. -/
theorem Owned.byte_writeData (h : Owned sb D B) (hn : Live sb D n) (h0 : (D n).fileBlk B bn ≠ 0)
    (y : Block) (i : ℕ) : (D n).byte (update B ((D n).fileBlk B bn) y) i = if i / BSIZE =
    bn then y.get (i % BSIZE) else (D n).byte B i := by
  have hptr : (D n).fileBlk (update B ((D n).fileBlk B bn) y) (i / BSIZE) =
      (D n).fileBlk B (i / BSIZE) := h.ptr_writeData hn (fileIdx_ne bn) hn y _
  rw [byte, hptr, byte]
  split_ifs with hi
  · rw [hi, update_self]
  · rw [update_of_ne]
    intro heq
    exact hi (h.fileBlk_inj hn h0 heq.symm).symm

/-- Without an indirect block there are no blocks after the direct ones. -/
theorem Dinode.last_ne_zero {d : Dinode} (h0 : d.fileBlk B bn ≠ 0) (hbn : NDIRECT ≤ bn) :
    d.addrs (Fin.last NDIRECT) ≠ 0 := by
  intro hlast
  apply h0
  rw [fileBlk, if_neg (by omega), ptr, dif_neg (by omega), if_neg (by simp [hlast])]

/-- When `tot` bytes have been written to file `n` from `off` on. -/
structure Writing (sb : Superblock) (H : Multiset Ix) (L : Finset Ix) (D : ℕ → Dinode) (s : Vol)
    (n : ℕ) (src : ℕ → Byte) (off tot : ℕ) (D' : ℕ → Dinode) (t : Vol) : Prop where
  cached : Cached sb (some n) H L D' t
  /-- as long as the file does not grow, no address of the inode changes -/
  sync : off + tot ≤ (D n).size → Cached sb none H L D' t
  owned : Owned sb D' t.blk
  other : ∀ m, m ≠ n → D' m = D m
  self : D' n = { D n with addrs := (D' n).addrs }
  keeps : ∀ m, m ≠ n → Live sb D m → Keeps D D' s.blk t.blk m
  mapped : ∀ bn, bn * BSIZE < max (D n).size (off + tot) → (D' n).fileBlk t.blk bn ≠ 0
  bytes : ∀ y, y < max (D n).size (off + tot) → (D' n).byte t.blk y =
    if off ≤ y ∧ y < off + tot then src (y - off) else (D n).byte s.blk y
  kept : Kept H s t

theorem Writing.start (h : Cached sb none H L D s) (ho : Owned sb D s.blk)
    (hmap : ∀ bn, bn * BSIZE < (D n).size → (D n).fileBlk s.blk bn ≠ 0) (hoff : off ≤ (D n).size) :
    Writing sb H L D s n src off 0 D s where
  cached := h.weaken (.inl rfl)
  sync _ := h
  owned := ho
  other _ _ := rfl
  self := rfl
  keeps m _ _ := Keeps.refl m
  mapped bn hbn := hmap bn (by omega)
  bytes y _ := by rw [if_neg (by omega)]
  kept := Kept.refl H s

namespace Writing

theorem live (h : Writing sb H L D s n src off tot D' t) (hm : Live sb D m) : Live sb D' m := by
  by_cases hmn : m = n
  · rw [hmn, Live, h.self]
    rw [hmn] at hm
    exact hm
  · rw [Live, h.other m hmn]
    exact hm

section
variable {b : ℕ} (h : Writing sb H L D s n src off tot D' t) (hn : Live sb D n)
  (hp : BmapPost sb H L D' t n ((off + tot) / BSIZE) b D'' u)

include h hn hp

theorem live_next : Live sb D'' n := hp.grown.live.mpr (h.live hn)

theorem fileBlk_next (hbn : bn * BSIZE < max (D n).size (off + tot)) :
    (D'' n).fileBlk u.blk bn = (D' n).fileBlk t.blk bn :=
  ((hp.grown.keeps n (h.live hn)).fileBlk (h.mapped bn hbn)).1

theorem fileBlk_log (y : Block) (bn : ℕ) :
    (D'' n).fileBlk (u.log b y).blk bn = (D'' n).fileBlk u.blk bn := by
  rw [Vol.log_blk, ← hp.blk]
  exact hp.owned.ptr_writeData (h.live_next hn hp) (fileIdx_ne _) (h.live_next hn hp) y _

theorem mapped_next (y : Block) :
    ∀ bn, bn * BSIZE < max (D n).size (off + (tot + turn len tot (off + tot))) →
      (D'' n).fileBlk (u.log b y).blk bn ≠ 0 := by
  intro bn hbn
  rw [h.fileBlk_log hn hp]
  by_cases hold : bn * BSIZE < max (D n).size (off + tot)
  · rw [h.fileBlk_next hn hp hold]
    exact h.mapped bn hold
  · -- only the block of this turn is new
    have hle := mod_add_turn_le len tot (off + tot)
    have heq : bn = (off + tot) / BSIZE := by
      simp only [BSIZE] at *
      omega
    rw [heq, hp.blk]
    exact hp.ne

theorem bytes_next : ∀ y, y < max (D n).size (off + (tot + turn len tot (off + tot))) →
      (D'' n).byte (u.log b ((u.blk b).write ((off + tot) % BSIZE) (turn len tot (off + tot))
        fun i => src (tot + i))).blk y =
      if off ≤ y ∧ y < off + (tot + turn len tot (off + tot)) then src (y - off)
      else (D n).byte s.blk y := by
  intro y hy
  have hle := mod_add_turn_le len tot (off + tot)
  have hne : (D'' n).fileBlk u.blk ((off + tot) / BSIZE) ≠ 0 := by
    rw [hp.blk]
    exact hp.ne
  have hwrite := hp.owned.byte_writeData (h.live_next hn hp) hne
    ((u.blk b).write ((off + tot) % BSIZE) (turn len tot (off + tot)) fun i => src (tot + i)) y
  rw [hp.blk] at hwrite
  rw [Vol.log_blk, hwrite]
  by_cases hturn : off + tot ≤ y ∧ y < off + tot + turn len tot (off + tot)
  · -- a byte of this turn
    obtain ⟨hdiv, hmod⟩ := div_of_turn hturn.1 hturn.2
    rw [if_pos hdiv, hmod, Buf.get_write_of_mem _ _ (by omega) (by omega) (by omega),
      if_pos (by omega)]
    congr 1
    omega
  · -- a byte written before, or one that is not written
    have hold : y < max (D n).size (off + tot) := by omega
    have hbyte : (D'' n).byte u.blk y = (D' n).byte t.blk y := by
      apply (hp.grown.keeps n (h.live hn)).byte
      apply h.mapped
      exact (Nat.div_mul_le_self y BSIZE).trans_lt hold
    have hsame : (if y / BSIZE = (off + tot) / BSIZE then
        ((u.blk b).write ((off + tot) % BSIZE) (turn len tot (off + tot))
          fun i => src (tot + i)).get (y % BSIZE) else (D'' n).byte u.blk y) =
        (D'' n).byte u.blk y := by
      split_ifs with hdiv
      · rw [Buf.get_write_of_notMem, byte, hdiv, hp.blk]
        simp only [BSIZE] at *
        omega
      · rfl
    rw [hsame, hbyte, h.bytes y hold]
    by_cases hin : off ≤ y ∧ y < off + tot
    · rw [if_pos hin, if_pos (by omega)]
    · rw [if_neg hin, if_neg (by omega)]

end

/-- One turn of the loop: `bmap` has returned `b`, which now gets its new bytes. -/
theorem next (h : Writing sb H L D s n src off tot D' t) (g : Geometry sb) (hn : Live sb D n)
    (hlt : tot < len) {b : ℕ} (hp : BmapPost sb H L D' t n ((off + tot) / BSIZE) b D'' u) :
    Writing sb H L D s n src off (tot + turn len tot (off + tot)) D''
      (u.log b ((u.blk b).write ((off + tot) % BSIZE) (turn len tot (off + tot)) fun i => src
        (tot + i))) := by
  have hpos : 0 < turn len tot (off + tot) := turn_pos hlt
  have hlive := h.live_next hn hp
  have h0 : (D'' n).fileBlk u.blk ((off + tot) / BSIZE) ≠ 0 := hp.blk.trans_ne hp.ne
  have hrange := hp.owned.ptr_range hlive h0
  change dataStart sb ≤ (D'' n).fileBlk u.blk _ ∧ (D'' n).fileBlk u.blk _ < sb.size at hrange
  rw [hp.blk] at hrange
  refine ⟨hp.cached.logData g hrange.1 _, ?_, ?_, ?_, ?_, ?_, h.mapped_next hn hp _,
    h.bytes_next hn hp, ?_⟩
  · intro hsize
    -- the block is there, so `bmap` has done nothing
    have hin : (off + tot) / BSIZE * BSIZE < max (D n).size (off + tot) := by
      have hdiv := Nat.div_mul_le_self (off + tot) BSIZE
      omega
    obtain ⟨rfl, rfl⟩ := hp.idle (h.mapped _ hin)
    exact (h.sync (by omega)).logData g hrange.1 _
  · rw [Vol.log_blk, ← hp.blk]
    exact hp.owned.writeData g hlive (fileIdx_ne _) h0 _
  · intro m hm
    exact (hp.grown.other m hm).trans (h.other m hm)
  · rw [hp.grown.self, h.self]
  · intro m hm hmlive
    have hm' := h.live hmlive
    have hkeeps := (h.keeps m hm hmlive).trans (hp.grown.keeps m hm')
    rw [Vol.log_blk, ← hp.blk]
    exact hkeeps.trans (Keeps.writeData hp.owned hlive (fileIdx_ne _) (hp.grown.live.mpr hm') hm _)
  · exact (h.kept.trans hp.kept).trans (Kept.of_icache rfl)

end Writing

/-- One turn of the loop of `writei`; its value is the number of bytes taken. -/
def writeTurn (e : Ix) (src : ℕ → Byte) (n tot off : ℕ) : M ℕ := do
  let b ← bmap e (off / BSIZE)
  let data ← bread b
  let m := turn n tot off
  logWrite b (data.write (off % BSIZE) m fun i => src (tot + i))
  return m

theorem writeLoop_succ (e : Ix) (src : ℕ → Byte) (n fuel tot off : ℕ) :
    writeLoop e src n (fuel + 1) tot off =
      if tot < n then do
        let m ← writeTurn e src n tot off
        writeLoop e src n fuel (tot + m) (off + m)
      else pure off := by
  simp only [writeLoop, writeTurn, bind_assoc, pure_bind]

section
variable (g : Geometry sb) (hE : Tolerant E) (he : e ∈ H) (hinum : (s.icache e).inum = n)
  (hv : (s.icache e).valid = true) (hn : Live sb D n)
include g hE he hinum hv hn

theorem writeTurn_spec (hlt : tot < len) (hw : Writing sb H L D s n src off tot D' t) :
    wp (writeTurn e src len tot (off + tot)) (fun m u => m = turn len tot (off + tot) ∧
      ∃ D'', Writing sb H L D s n src off (tot + m) D'' u) E t := by
  have hinum' : (t.icache e).inum = n := (hw.kept.inum e he).trans hinum
  apply wp_call (bmap_spec hw.cached g hw.owned hE he (hw.kept.valid e he hv)
    (.inr (by rw [hinum'])))
  rintro b u ⟨D'', hp⟩
  rw [hinum'] at hp
  apply wp_bind (wp_bind (wp_get (wp_pure _)))
  apply wp_bind (wp_logWrite _)
  exact wp_pure ⟨rfl, D'', hw.next g hn hlt hp⟩

theorem writeLoop_spec (fuel : ℕ) :
    ∀ tot D' t, len - tot ≤ fuel → tot ≤ len → Writing sb H L D s n src off tot D' t →
      wp (writeLoop e src len fuel tot (off + tot)) (fun r t => r = off + len ∧
        ∃ D', Writing sb H L D s n src off len D' t) E t := by
  induction fuel with
  | zero =>
    intro tot D' t hfuel hle hw
    obtain rfl : tot = len := by omega
    exact wp_pure ⟨rfl, D', hw⟩
  | succ fuel ih =>
    intro tot D' t hfuel hle hw
    rw [writeLoop_succ]
    apply wp_ite
    · intro hlt
      have hpos : 0 < turn len tot (off + tot) := turn_pos hlt
      have hturn := turn_le len tot (off + tot)
      apply wp_call (writeTurn_spec g hE he hinum hv hn hlt hw)
      rintro m u ⟨rfl, D'', hw'⟩
      rw [Nat.add_assoc]
      exact ih _ _ _ (by omega) (by omega) hw'
    · intro hge
      obtain rfl : tot = len := by omega
      exact wp_pure ⟨rfl, D', hw⟩

end

end Xv6Threads.Fs
