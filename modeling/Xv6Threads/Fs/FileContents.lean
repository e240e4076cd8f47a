import Xv6Threads.Fs.Balance

namespace Xv6Threads.Fs

open Bytes Function Finset Dinode Fin Nat

/-- The blocks that `balloc` can hand out. -/
def freeBlocks (sb : Superblock) (B : ℕ → Block) : Finset ℕ :=
  (Finset.range sb.size).filter fun b => marked sb B b = false

/-- The blocks of a file that hold its bytes from `off` to `off + len`. -/
def span (off len : ℕ) : Finset ℕ := (Finset.range len).image fun i => (off + i) / BSIZE

/-- How many blocks of the disk are needed before a file has the blocks `X`. The first one that
is reached through the indirect block needs that block too. -/
def missing (d : Dinode) (B : ℕ → Block) (X : Finset ℕ) : ℕ :=
  (X.filter fun bn => d.fileBlk B bn = 0).card +
    if d.addrs (last NDIRECT) = 0 ∧ ∃ bn ∈ X, NDIRECT ≤ bn then 1 else 0

/-- A write that passes the checks of `writei` finds the blocks it needs. -/
def Enough (sb : Superblock) (d : Dinode) (B : ℕ → Block) (off len : ℕ) : Prop :=
  off ≤ d.size → off + len ≤ MAXFILE * BSIZE →
    missing d B (span off len) ≤ (freeBlocks sb B).card

variable {sb : Superblock} {x : Option ℕ} {H : Multiset Ix} {L : Finset Ix} {V : ℕ → Node}
  {D D' D'' : ℕ → Dinode} {B B' : ℕ → Block} {s t u : Vol} {e : Ix} {n bn off tot len : ℕ}
  {src : ℕ → Byte}

theorem mem_freeBlocks {b : ℕ} : b ∈ freeBlocks sb B ↔ b < sb.size ∧ marked sb B b = false := by
  rw [freeBlocks, mem_filter, mem_range]

theorem mem_span : bn ∈ span off len ↔ ∃ i < len, (off + i) / BSIZE = bn := by
  rw [span, mem_image]
  simp only [mem_range]

theorem card_freeBlocks_alloc (g : Geometry sb) (ho : Owned sb D B) {b : ℕ} (hb : b < sb.size)
    (hfree : marked sb B b = false) :
    (freeBlocks sb (allocBlk sb B b)).card + 1 = (freeBlocks sb B).card := by
  have herase : freeBlocks sb (allocBlk sb B b) = (freeBlocks sb B).erase b := by
    ext c
    rw [mem_erase, mem_freeBlocks, mem_freeBlocks]
    by_cases hc : c < sb.size
    · rw [marked_allocBlk g (ho.unowned hb hfree).1 hc]
      simp only [hc, true_and, Bool.or_eq_false_iff, decide_eq_false_iff_not, ne_eq]
    · simp only [hc, false_and, and_false]
  rw [herase]
  exact card_erase_add_one (mem_freeBlocks.mpr ⟨hb, hfree⟩)

theorem freeBlocks_update (g : Geometry sb) {b : ℕ} (hb : dataStart sb ≤ b) (y : Block) :
    freeBlocks sb (update B b y) = freeBlocks sb B := by
  ext c
  rw [mem_freeBlocks, mem_freeBlocks]
  apply and_congr_right
  intro hc
  have hlt := g.bblock_lt hc
  rw [marked_congr (update_of_ne (by omega) ..)]

theorem missing_singleton (d : Dinode) (B : ℕ → Block) (bn : ℕ) : missing d B {bn} =
    if d.fileBlk B bn ≠ 0 then 0
    else if d.addrs (last NDIRECT) = 0 ∧ NDIRECT ≤ bn then 2 else 1 := by
  have hex : (∃ c ∈ ({bn} : Finset ℕ), NDIRECT ≤ c) ↔ NDIRECT ≤ bn := by
    simp only [mem_singleton, exists_eq_left]
  simp only [missing, hex, filter_singleton]
  by_cases h0 : d.fileBlk B bn = 0
  · rw [if_pos h0, if_neg (not_not.mpr h0), card_singleton]
    split_ifs <;> rfl
  · rw [if_neg h0, if_pos h0, card_empty, if_neg]
    intro hlast
    exact last_ne_zero h0 hlast.2 hlast.1

theorem missing_mono (d : Dinode) (B : ℕ → Block) {X Y : Finset ℕ} (h : X ⊆ Y) :
    missing d B X ≤ missing d B Y := by
  have hcard := card_le_card (filter_subset_filter (fun c => d.fileBlk B c = 0) h)
  unfold missing
  split_ifs with hX hY
  · omega
  · obtain ⟨hlast, c, hc, hle⟩ := hX
    exact absurd ⟨hlast, c, h hc, hle⟩ hY
  · omega
  · omega

/-- When block `bn` has been mapped, the rest needs so much less. -/
theorem missing_add_le {d d' : Dinode} {X Y : Finset ℕ} (hbn : bn ∈ X) (hY : Y ⊆ X)
    (hmapped : d'.fileBlk B' bn ≠ 0) (hkeep : ∀ c, d.fileBlk B c ≠ 0 → d'.fileBlk B' c ≠ 0)
    (hlast : d.addrs (last NDIRECT) ≠ 0 → d'.addrs (last NDIRECT) ≠ 0)
    (hnew : NDIRECT ≤ bn → d'.addrs (last NDIRECT) ≠ 0) :
    missing d' B' Y + missing d B {bn} ≤ missing d B X := by
  have hsub : (Y.filter fun c => d'.fileBlk B' c = 0) ⊆
      (X.filter fun c => d.fileBlk B c = 0).erase bn := by
    intro c hc
    rw [mem_filter] at hc
    rw [mem_erase, mem_filter]
    refine ⟨?_, hY hc.1, ?_⟩
    · rintro rfl
      exact hmapped hc.2
    · by_contra h0
      exact hkeep c h0 hc.2
  have hcard := card_le_card hsub
  -- the part for the indirect block
  have hind : (if d'.addrs (last NDIRECT) = 0 ∧ ∃ c ∈ Y, NDIRECT ≤ c then 1 else 0) +
      (if d.addrs (last NDIRECT) = 0 ∧ NDIRECT ≤ bn then 1 else 0) ≤
      if d.addrs (last NDIRECT) = 0 ∧ ∃ c ∈ X, NDIRECT ≤ c then 1 else 0 := by
    by_cases hd : d.addrs (last NDIRECT) = 0
    · by_cases hd' : d'.addrs (last NDIRECT) = 0
      · have hlow : ¬NDIRECT ≤ bn := fun hle => hnew hle hd'
        rw [if_neg (show ¬(d.addrs (last NDIRECT) = 0 ∧ NDIRECT ≤ bn) from fun h => hlow h.2),
          add_zero]
        split_ifs with hc hX
        · exact le_rfl
        · obtain ⟨-, c, hc, hle⟩ := hc
          exact absurd ⟨hd, c, hY hc, hle⟩ hX
        · exact zero_le _
        · exact le_rfl
      · rw [if_neg (fun h => hd' h.1), zero_add]
        split_ifs with hc hX
        · exact le_rfl
        · exact absurd ⟨hd, bn, hbn, hc.2⟩ hX
        · exact zero_le _
        · exact le_rfl
    · rw [if_neg (fun h => hlast hd h.1), if_neg (fun h => hd h.1), if_neg (fun h => hd h.1)]
  rw [missing_singleton]
  unfold missing
  by_cases h0 : d.fileBlk B bn = 0
  · have hmem : bn ∈ X.filter fun c => d.fileBlk B c = 0 := mem_filter.mpr ⟨hbn, h0⟩
    have herase := card_erase_add_one hmem
    rw [if_neg (not_not.mpr h0)]
    split_ifs at hind ⊢ <;> omega
  · have herase := card_erase_le (s := X.filter fun c => d.fileBlk B c = 0) (a := bn)
    rw [if_pos h0]
    omega

theorem balloc_room (hsb : s.sb = sb) (hroom : 0 < (freeBlocks sb s.blk).card) :
    wp balloc (fun b t => b < sb.size ∧ marked sb s.blk b = false ∧ t = s.alloc sb b)
      (fun _ => False) s := by
  obtain ⟨c, hc⟩ := card_pos.mp hroom
  rw [mem_freeBlocks] at hc
  have hruns : wp balloc (fun _ _ => True) (fun _ => False) s := by
    unfold balloc
    apply wp_bind (wp_get _)
    rw [hsb]
    cases hfind : (List.range sb.size).find? fun b => !(s.blk (bblock sb b)).bit (b % BPB) with
    | none =>
      have hnone := List.find?_eq_none.mp hfind c (List.mem_range.mpr hc.1)
      rw [show (s.blk (bblock sb c)).bit (c % BPB) = false from hc.2] at hnone
      exact (hnone rfl).elim
    | some b =>
      unfold bzero
      exact wp_bind (wp_logWrite (wp_bind (wp_logWrite (wp_pure trivial))))
  apply wp_conseq (wp_total (balloc_spec hsb tolerant_true) hruns)
  intro b t h
  exact h.1

section
variable (h : Cached sb x H L D s) (g : Geometry sb) (ho : Owned sb D s.blk)
include h g ho

theorem addrOf_room (he : e ∈ H) (hv : (s.icache e).valid = true) {i : Fin (NDIRECT + 1)}
    (h0 : (D (s.icache e).inum).addrs i = 0) (hroom : 0 < (freeBlocks sb s.blk).card) :
    wp (addrOf e i) (fun _ t => (freeBlocks sb t.blk).card + 1 = (freeBlocks sb s.blk).card)
      (fun _ => False) s := by
  unfold addrOf
  apply wp_bind (wp_inode _)
  rw [h.d_eq he hv, if_neg (not_not.mpr h0)]
  apply wp_call (balloc_room h.mounted hroom)
  rintro b _ ⟨hb, hfree, rfl⟩
  exact wp_bind (wp_setD (wp_pure (card_freeBlocks_alloc g ho hb hfree)))

theorem entryOf_room {ib j : ℕ} (hib : dataStart sb ≤ ib) (h0 : (s.blk ib).field (4 * j) 4 = 0)
    (hroom : 0 < (freeBlocks sb s.blk).card) :
    wp (entryOf ib j) (fun _ t => (freeBlocks sb t.blk).card + 1 = (freeBlocks sb s.blk).card)
      (fun _ => False) s := by
  unfold entryOf
  apply wp_bind (wp_bind (wp_get (wp_pure _)))
  rw [if_neg (not_not.mpr h0)]
  apply wp_call (balloc_room h.mounted hroom)
  rintro b _ ⟨hb, hfree, rfl⟩
  apply wp_bind (wp_bind (wp_get (wp_pure _)))
  apply wp_bind (wp_logWrite _)
  apply wp_pure
  rw [Vol.log_blk, freeBlocks_update g hib]
  exact card_freeBlocks_alloc g ho hb hfree

theorem bmap_room (he : e ∈ H) (hv : (s.icache e).valid = true)
    (hx : x = none ∨ x = some (s.icache e).inum) (hbn : bn < MAXFILE)
    (hroom : missing (D (s.icache e).inum) s.blk {bn} ≤ (freeBlocks sb s.blk).card) :
    wp (bmap e bn) (fun _ t => (freeBlocks sb t.blk).card + missing (D (s.icache e).inum) s.blk
      {bn} = (freeBlocks sb s.blk).card) (fun _ => False) s := by
  rw [missing_singleton] at hroom ⊢
  by_cases h0 : (D (s.icache e).inum).fileBlk s.blk bn = 0
  · rw [if_neg (not_not.mpr h0)] at hroom ⊢
    have hlive := h.live he hv
    unfold bmap
    by_cases hd : bn < NDIRECT
    · rw [dif_pos hd, if_neg (by omega)]
      rw [if_neg (by omega)] at hroom
      rw [fileBlk_direct _ _ hd] at h0
      exact addrOf_room h g ho he hv h0 hroom
    · have hj : bn - NDIRECT < NINDIRECT := by
        have hmax : MAXFILE = NDIRECT + NINDIRECT := rfl
        omega
      rw [dif_neg hd, if_pos hj]
      by_cases hlast : (D (s.icache e).inum).addrs (last NDIRECT) = 0
      · -- the indirect block comes first, with all its entries empty
        rw [if_pos ⟨hlast, by omega⟩] at hroom ⊢
        apply wp_call (wp_total (addrOf_alloc h g ho tolerant_true he hv hx hlast)
          (addrOf_room h g ho he hv hlast (by omega)))
        rintro ib u ⟨⟨hb, hfree, hc, hblk, -⟩, hcount⟩
        have hrange := (ho.unowned hb hfree).1
        have ho' := ho.allocAddr g hlive hlast hb hfree
        rw [← hblk] at ho'
        have hzero : (u.blk ib).field (4 * (bn - NDIRECT)) 4 = 0 := by
          rw [hblk, allocBlk_self]
          exact Buf.field_zero ..
        apply wp_conseq (entryOf_room hc g ho' hrange hzero (by omega))
        intro b t hcount'
        omega
      · rw [if_neg (fun h => hlast h.1)] at hroom ⊢
        apply wp_call (addrOf_mapped h he hv hlast)
        rintro _ _ ⟨rfl, rfl⟩
        have hentry : (s.blk ((D (s.icache e).inum).addrs (last NDIRECT))).field
            (4 * (bn - NDIRECT)) 4 = 0 := by
          rw [fileBlk_indirect _ _ hd, ptr_entry _ _ hj hlast] at h0
          exact h0
        exact entryOf_room h g ho (ho.indirect_range hlive hlast).1 hentry hroom
  · rw [if_pos h0]
    apply wp_conseq (bmap_mapped h he hv h0)
    rintro b _ ⟨-, rfl⟩
    rfl

end

theorem span_next (m : ℕ) : span (off + (tot + m)) (len -
    (tot + m)) ⊆ span (off + tot) (len - tot) := by
  intro c hc
  obtain ⟨i, hi, rfl⟩ := mem_span.mp hc
  exact mem_span.mpr ⟨m + i, by omega, by congr 1; omega⟩

section
variable (g : Geometry sb) (he : e ∈ H) (hinum : (s.icache e).inum = n)
  (hv : (s.icache e).valid = true) (hn : Live sb D n)
include g he hinum hv hn

theorem writeTurn_room (hlt : tot < len)
    (hfit : off + len ≤ MAXFILE * BSIZE) (hw : Writing sb H L D s n src off tot D' t)
    (hroom : missing (D' n) t.blk (span (off + tot) (len - tot)) ≤ (freeBlocks sb t.blk).card) :
    wp (writeTurn e src len tot (off + tot)) (fun m u => m = turn len tot (off + tot) ∧
      ∃ D'', Writing sb H L D s n src off (tot + m) D'' u ∧
        missing (D'' n) u.blk (span (off + (tot + m)) (len - (tot + m))) ≤
          (freeBlocks sb u.blk).card) (fun _ => False) t := by
  have hinum' : (t.icache e).inum = n := (hw.kept.inum e he).trans hinum
  have hbn : (off + tot) / BSIZE < MAXFILE :=
    (div_lt_iff_lt_mul (show 0 < BSIZE by decide)).mpr (by omega)
  have hmem : (off + tot) / BSIZE ∈ span (off + tot) (len - tot) :=
    mem_span.mpr ⟨0, by omega, rfl⟩
  have hone := (missing_mono (D' n) t.blk (singleton_subset_iff.mpr hmem)).trans hroom
  have hmap := wp_total (bmap_spec hw.cached g hw.owned tolerant_true he (hw.kept.valid e he hv)
    (.inr (by rw [hinum']))) (bmap_room hw.cached g hw.owned he (hw.kept.valid e he hv)
    (.inr (by rw [hinum'])) hbn (by rw [hinum']; exact hone))
  rw [hinum'] at hmap
  apply wp_call hmap
  rintro b u ⟨⟨D'', hp⟩, hcount⟩
  apply wp_bind (wp_bind (wp_get (wp_pure _)))
  apply wp_bind (wp_logWrite _)
  refine wp_pure ⟨rfl, D'', hw.next g hn hlt hp, ?_⟩
  have hlive := hw.live_next hn hp
  have h0 : (D'' n).fileBlk u.blk ((off + tot) / BSIZE) ≠ 0 := hp.blk.trans_ne hp.ne
  have hrange : dataStart sb ≤ b := hp.blk ▸ (hp.owned.ptr_range hlive h0).1
  rw [Vol.log_blk, freeBlocks_update g hrange]
  have hdata : ∀ c y, (D'' n).fileBlk (update u.blk b y) c = (D'' n).fileBlk u.blk c := by
    intro c y
    rw [← hp.blk]
    exact hp.owned.ptr_writeData hlive (fileIdx_ne _) hlive y _
  refine Nat.le_of_add_le_add_right ((missing_add_le hmem (span_next _) ?_ ?_ ?_ ?_).trans
    (hroom.trans hcount.ge))
  · rw [hdata]
    exact h0
  · intro c hc
    rw [hdata, ((hp.grown.keeps n (hw.live hn)).fileBlk hc).1]
    exact hc
  · intro hlast
    rw [hp.grown.last hlast]
    exact hlast
  · exact last_ne_zero h0

theorem writeLoop_room (hfit : off + len ≤ MAXFILE * BSIZE) (fuel : ℕ) :
    ∀ tot D' t, tot ≤ len → Writing sb H L D s n src off tot D' t →
      missing (D' n) t.blk (span (off + tot) (len - tot)) ≤ (freeBlocks sb t.blk).card →
      wp (writeLoop e src len fuel tot (off + tot)) (fun _ _ => True) (fun _ => False) t := by
  induction fuel with
  | zero =>
    intro tot D' t _ _ _
    exact wp_pure trivial
  | succ fuel ih =>
    intro tot D' t hle hw hroom
    rw [writeLoop_succ]
    apply wp_ite
    · intro hlt
      have hturn := turn_le len tot (off + tot)
      apply wp_call (writeTurn_room g he hinum hv hn hlt hfit hw hroom)
      rintro m u ⟨rfl, D'', hw', hroom'⟩
      rw [add_assoc]
      exact ih _ _ _ (by omega) hw' hroom'
    · intro _
      exact wp_pure trivial

end

theorem writei_room (h : Rep sb H L V s) (he : e ∈ H) (hv : (s.icache e).valid = true)
    (hlen : len < 2 ^ 32) (henough : Enough sb (s.icache e).d s.blk off len) :
    wp (writei e src off len) (fun _ _ => True) (fun _ => False) s := by
  have hsize := h.size_lt (s.icache e).inum
  rw [h.node he hv rfl] at hsize
  change (s.icache e).d.size < 2 ^ 32 at hsize
  obtain ⟨D, hd⟩ := h
  have hlive := hd.cached.live he hv
  rw [hd.cached.d_eq he hv] at hsize henough
  unfold writei
  apply wp_bind (wp_inode _)
  rw [hd.cached.d_eq he hv]
  apply wp_ite
  · intro _
    apply wp_bind (wp_get _)
    cases (deviceOf s (D (s.icache e).inum)).bind DevSw.write with
    | none | some write => exact wp_pure trivial
  · intro hdev
    apply wp_ite
    · intro _
      exact wp_pure trivial
    · intro hok
      rw [not_or, not_lt, w32_lt_iff (by omega) hlen, not_le] at hok
      rw [show w32 (off + len) = off + len from mod_eq_of_lt hok.2]
      apply wp_ite
      · intro _
        exact wp_pure trivial
      · intro hfit
        rw [not_lt] at hfit
        have hstart : Writing sb H L D s (s.icache e).inum src off 0 D s :=
          Writing.start hd.cached hd.owned (hd.mapped _ hlive hdev) hok.1
        apply wp_call (writeLoop_room hd.geometry he rfl hv hlive hfit len 0 D s (zero_le _)
          hstart (henough hok.1 hfit))
        intro off' t _
        unfold writeSize iupdate
        apply wp_bind
        apply wp_bind (wp_inode _)
        apply wp_ite
        · intro _
          exact wp_bind (wp_setD (wp_bind (wp_get (wp_logWrite (wp_pure trivial)))))
        · intro _
          exact wp_pure (wp_pure trivial)

section
variable (h : Rep sb H L V s) (he : e ∈ H) (hv : (s.icache e).valid = true)
  (hn : (s.icache e).inum = n) (hdev : (V n).type ≠ T_DEV)
include h he hv hn hdev

theorem fileBlk_ne (hbn : bn * BSIZE < (V n).size) : (s.icache e).d.fileBlk s.blk bn ≠ 0 := by
  rw [h.node he hv hn] at hbn hdev
  obtain ⟨D, hd⟩ := h
  rw [hd.cached.d_eq he hv] at hbn hdev ⊢
  exact hd.mapped _ (hd.cached.live he hv) hdev bn hbn

theorem size_le : (V n).size ≤ MAXFILE * BSIZE := by
  by_contra hlt
  apply fileBlk_ne h he hv hn hdev (not_le.mp hlt)
  rw [fileBlk, ptr, dif_neg (by decide), if_neg fun hptr => absurd hptr.2 (by decide)]

theorem enough_within (hin : off + len ≤ (V n).size) : Enough sb (s.icache e).d s.blk off len := by
  intro _ _
  have hmapped : ∀ bn ∈ span off len, (s.icache e).d.fileBlk s.blk bn ≠ 0 := by
    intro bn hbn
    obtain ⟨i, hi, rfl⟩ := mem_span.mp hbn
    have hle := div_mul_le_self (off + i) BSIZE
    exact fileBlk_ne h he hv hn hdev (by omega)
  have hnone : (span off len).filter (fun bn => (s.icache e).d.fileBlk s.blk bn = 0) = ∅ :=
    filter_eq_empty_iff.mpr fun bn hbn => hmapped bn hbn
  rw [missing, hnone, if_neg]
  · exact zero_le _
  · rintro ⟨hlast, bn, hbn, hle⟩
    exact last_ne_zero (hmapped bn hbn) hle hlast

end

theorem readi_eq (h : Rep sb H L V s) (he : e ∈ H) (hv : (s.icache e).valid = true)
    (hn : (s.icache e).inum = n) (hdev : (V n).type ≠ T_DEV) (hlen : len < 2 ^ 32) :
    readi e off len s = .ok ((V n).read off len, s) := by
  have hread : wp (readi e off len) _ (fun _ => False) s := readi_rep h he hv hn hlen
  obtain ⟨r, t, hrun, rfl, hr⟩ := exists_ok hread
  rw [hrun, hr hdev]

/-- A call that only logs blocks stops when the log is full, and not before. -/
theorem stopping_quiet {α : Type} {c : M α} (hc : Quiet c) {a : α} (hrun : c s = .ok (a, t))
    (hpan : s.panicked = none) (hop : 1 ≤ s.outstanding) (hlog : s.logged.card ≤ nlog - 1) :
    (t.logged.card < nlog - 1 → stopping c s = .ok (a, t)) ∧
    (nlog - 1 < t.logged.card → stopping c s = .error (.panic "too big a transaction")) := by
  have hlogs := (wp_ok (hc s) hrun).logs
  have hstop : stopping c s = t.panicked.elim (.ok (a, t)) fun msg => .error (.panic msg) := by
    rw [stopping, hrun]
    rfl
  rw [hstop]
  rcases hlogs.room hpan hop with ht | ⟨ht, hcard⟩
  · rw [ht]
    refine ⟨fun _ => rfl, fun hlt => ?_⟩
    have hle := hlogs.full ht hlog
    omega
  · rw [ht]
    exact ⟨fun hlt => absurd hcard (not_le.mpr hlt), fun _ => rfl⟩

/-- What `writei` and `readi` do to a file that is not a device. The write is part of an operation;
it returns while there is room in the log for the blocks it logs, and panics when there is not. -/
theorem file_contents (h : Rep sb H L V s) (he : e ∈ H) (hv : (s.icache e).valid = true)
    (hn : (s.icache e).inum = n) (hdev : (V n).type ≠ T_DEV) (src : ℕ → Byte)
    (hlen : len < 2 ^ 32) (henough : Enough sb (s.icache e).d s.blk off len)
    (hpan : s.panicked = none) (hop : 1 ≤ s.outstanding) (hlog : s.logged.card ≤ nlog - 1) :
    (∃ r t, writei e src off len s = .ok (r, t) ∧
      (t.logged.card < nlog - 1 → stopping (writei e src off len) s = .ok (r, t)) ∧
      (nlog - 1 < t.logged.card →
        stopping (writei e src off len) s = .error (.panic "too big a transaction")) ∧
      (r = len ↔ off ≤ (V n).size ∧ off + len < 2 ^ 32 ∧ off + len ≤ MAXFILE * BSIZE) ∧
      (r = len → ∃ V', Rep sb H L V' t ∧ (∀ m ≠ n, V' m = V m) ∧
        V' n = { V n with
          size := max (V n).size (off + len)
          data := fun y => if off ≤ y ∧ y < off + len then src (y - off) else (V n).data y } ∧
        ∀ e' ∈ H, (s.icache e').valid = true → (V (s.icache e').inum).type ≠ T_DEV →
          ∀ off' len', len' < 2 ^ 32 →
            readi e' off' len' t = .ok ((V' (s.icache e').inum).read off' len', t)) ∧
      (r ≠ len → r = -1 ∧ t = s)) ∧
    ∀ off' len', len' < 2 ^ 32 → ∃ r dst, readi e off' len' s = .ok ((r, dst), s) ∧
      (r = -1 ↔ (V n).size < off' ∨ 2 ^ 32 ≤ off' + len') ∧
      (r ≠ -1 → r = (min (off' + len') (V n).size - off' : ℕ) ∧
        ∀ i, off' + i < min (off' + len') (V n).size → dst i = (V n).data (off' + i)) := by
  constructor
  · have hmax : MAXFILE * BSIZE < 2 ^ 32 := by decide
    have hwrite : wp (writei e src off len) _ (fun _ => True) s :=
      writei_rep h tolerant_true he hv hn hlen
    obtain ⟨r, t, hrun, hpost, -⟩ := exists_ok (wp_total hwrite (writei_room h he hv hlen henough))
    obtain ⟨hreturns, hstops⟩ := stopping_quiet (Quiet.writei e src off len) hrun hpan hop hlog
    refine ⟨r, t, hrun, hreturns, hstops, ?_⟩
    rcases hpost with ⟨rfl, hdev' | ⟨rfl, hbad⟩⟩ | ⟨rfl, -, hle, hfit, hrep, hkept⟩
    · exact absurd hdev' hdev
    · -- the checks have failed
      have hne : (-1 : ℤ) ≠ len := by omega
      refine ⟨⟨fun heq => absurd heq hne, fun hok => ?_⟩, fun heq => absurd heq hne,
        fun _ => ⟨rfl, rfl⟩⟩
      omega
    · refine ⟨⟨fun _ => ⟨hle, by omega, hfit⟩, fun _ => rfl⟩, fun _ => ?_, fun hne =>
        absurd rfl hne⟩
      refine ⟨_, hrep, fun m hm => update_of_ne hm .., update_self .., ?_⟩
      intro e' he' hv' hdev' off' len' hlen'
      apply readi_eq hrep he' (hkept.valid e' he' hv') (hkept.inum e' he') _ hlen'
      by_cases hm : (s.icache e').inum = n
      · rw [hm, update_self]
        exact hdev
      · rw [update_of_ne hm]
        exact hdev'
  · intro off' len' hlen'
    refine ⟨((V n).read off' len').1, ((V n).read off' len').2, readi_eq h he hv hn hdev hlen', ?_⟩
    unfold Node.read
    by_cases hbad : (V n).size < off' ∨ 2 ^ 32 ≤ off' + len'
    · rw [if_pos hbad]
      exact ⟨⟨fun _ => hbad, fun _ => rfl⟩, fun hne => absurd rfl hne⟩
    · rw [if_neg hbad]
      rw [not_or, not_lt, not_le] at hbad
      refine ⟨⟨fun heq => ?_, fun hor => ?_⟩, fun _ => ⟨?_, ?_⟩⟩
      · dsimp only at heq
        omega
      · omega
      · dsimp only
        congr 1
        omega
      · intro i hi
        exact if_pos (by omega)

/-- Two bytes are written to an empty file that has been locked, then ten are asked for. -/
theorem file_contents_small : ∃ t u dst, ilock 0 (inOperation ∅) = .ok ((), t) ∧
    stopping (writei 0 (bytesOf [5, 7]) 0 2) t = .ok (2, u) ∧ readi 0 0 10 u = .ok ((2, dst), u) ∧
    dst 0 = 5 ∧ dst 1 = 7 := by
  have hcheck : ((ilock 0 (inOperation ∅)).toOption.any fun (r : Unit × Vol) => decide
      (missing (r.2.icache 0).d r.2.blk (span 0 2) ≤ (freeBlocks smallDisk r.2.blk).card ∧
        r.2.panicked = none ∧ 1 ≤ r.2.outstanding ∧ r.2.logged.card ≤ nlog - 1) &&
      ((writei 0 (bytesOf [5, 7]) 0 2 r.2).toOption.any fun (r : ℤ × Vol) =>
        decide (r.2.logged.card < nlog - 1))) = true := by decide +kernel
  have hheld : (0 : Ix) ∈ ({0} : Multiset Ix) := Multiset.mem_singleton_self 0
  have hfile : (nodes smallDisk (diskInode smallDisk smallBlk) smallBlk 1).type = T_FILE ∧
      (nodes smallDisk (diskInode smallDisk smallBlk) smallBlk 1).size = 0 := by decide +kernel
  have hdev : (nodes smallDisk (diskInode smallDisk smallBlk) smallBlk 1).type ≠ T_DEV := by
    rw [hfile.1]
    decide
  cases hlock : ilock 0 (inOperation ∅) with
  | error e =>
    rw [hlock] at hcheck
    exact absurd hcheck Bool.false_ne_true
  | ok p =>
    obtain ⟨⟨⟩, t⟩ := p
    rw [hlock] at hcheck
    obtain ⟨hcheck, hroom⟩ := (Bool.and_eq_true _ _).mp hcheck
    obtain ⟨hmissing, hpan, hop, hlog⟩ := of_decide_eq_true hcheck
    obtain ⟨hrep, hv, -, -, -, hkept⟩ := wp_ok (ilock_rep (n := 1) (E := fun _ => True)
      (inOperation_rep ∅) (fun _ => trivial) hheld rfl (.inr trivial)) hlock
    have hn : (t.icache 0).inum = 1 := hkept.inum 0 hheld
    have henough : Enough smallDisk (t.icache 0).d t.blk 0 2 := fun _ _ => hmissing
    obtain ⟨⟨r, u, hwrite, hstop, -, hiff, hlong, -⟩, -⟩ :=
      file_contents hrep hheld hv hn hdev (bytesOf [5, 7]) (by decide) henough hpan hop hlog
    have hr : r = 2 := hiff.mpr ⟨zero_le _, by decide, by decide⟩
    rw [hwrite] at hroom
    obtain ⟨V', -, -, hV, hread⟩ := hlong hr
    have hten := hread 0 hheld hv (by rw [hn]; exact hdev) 0 10 (by decide)
    have hsize : (V' 1).size = 2 := by
      rw [hV]
      change max (nodes smallDisk (diskInode smallDisk smallBlk) smallBlk 1).size 2 = 2
      rw [hfile.2]
      rfl
    rw [hn, Node.read, hsize, if_neg (by decide)] at hten
    refine ⟨t, u, _, rfl, hr ▸ hstop (of_decide_eq_true hroom), hten, ?_, ?_⟩
    · change (V' 1).data 0 = 5
      rw [hV]
      rfl
    · change (V' 1).data 1 = 7
      rw [hV]
      rfl

/-- An operation that has logged 29 blocks cannot write two bytes more, although blocks are free. -/
theorem writei_too_big : ∃ t, Rep smallDisk {0} {0}
      (nodes smallDisk (diskInode smallDisk smallBlk) smallBlk) t ∧ t.panicked = none ∧
    1 ≤ t.outstanding ∧ t.logged.card = nlog - 1 ∧ Enough smallDisk (t.icache 0).d t.blk 0 2 ∧
    stopping (writei 0 (bytesOf [5, 7]) 0 2) t = .error (.panic "too big a transaction") := by
  have hcheck : ((ilock 0 (inOperation ((Finset.range 29).map ⟨(· + 100), fun _ _ => by simp⟩))
      ).toOption.any fun (r : Unit × Vol) => decide
      (missing (r.2.icache 0).d r.2.blk (span 0 2) ≤ (freeBlocks smallDisk r.2.blk).card ∧
        r.2.panicked = none ∧ 1 ≤ r.2.outstanding ∧ r.2.logged.card = nlog - 1 ∧
        stopOf (stopping (writei 0 (bytesOf [5, 7]) 0 2) r.2) =
          some (.panic "too big a transaction"))) = true := by decide +kernel
  have hheld : (0 : Ix) ∈ ({0} : Multiset Ix) := Multiset.mem_singleton_self 0
  cases hlock : ilock 0 (inOperation ((Finset.range 29).map ⟨(· + 100), fun _ _ => by simp⟩)) with
  | error e =>
    rw [hlock] at hcheck
    exact absurd hcheck Bool.false_ne_true
  | ok p =>
    obtain ⟨⟨⟩, t⟩ := p
    rw [hlock] at hcheck
    obtain ⟨hmissing, hpan, hop, hlog, hstop⟩ := of_decide_eq_true hcheck
    obtain ⟨hrep, -⟩ := wp_ok (ilock_rep (n := 1) (E := fun _ => True) (inOperation_rep _)
      (fun _ => trivial) hheld rfl (.inr trivial)) hlock
    refine ⟨t, by simpa using hrep, hpan, hop, hlog, fun _ _ => hmissing, stop_eq hstop⟩

end Xv6Threads.Fs
