import Xv6Threads.Fs.Layout

namespace Xv6Threads.Fs

open Bytes Function Fin Dinode

def Live (sb : Superblock) (D : ℕ → Dinode) (n : ℕ) : Prop := n < sb.ninodes ∧ (D n).type ≠ 0

/-- Every pointer of an allocated inode leads to a data block of its own, and the bitmap marks
these blocks and those before the data area. -/
def Owned (sb : Superblock) (D : ℕ → Dinode) (B : ℕ → Block) : Prop :=
  Owns (dataStart sb) sb.size (ptrs sb D B) (marked sb B)

/-- A file that is not a device has all its blocks. -/
def Mapped (sb : Superblock) (D : ℕ → Dinode) (B : ℕ → Block) : Prop :=
  ∀ n, Live sb D n → (D n).type ≠ T_DEV →
    ∀ bn, bn * BSIZE < (D n).size → (D n).fileBlk B bn ≠ 0

/-- File `m` keeps its type, its size and its data, whatever else happens. -/
structure Keeps (D D' : ℕ → Dinode) (B B' : ℕ → Block) (m : ℕ) : Prop where
  type : (D' m).type = (D m).type
  size : (D' m).size = (D m).size
  data : ∀ k ≠ NDIRECT, (D m).ptr B k ≠ 0 →
    (D' m).ptr B' k = (D m).ptr B k ∧ B' ((D m).ptr B k) = B ((D m).ptr B k)

variable {sb : Superblock} {D D' D'' : ℕ → Dinode} {B B' B'' : ℕ → Block} {m n : ℕ}

theorem ptrs_of_live (h : Live sb D n) (k : ℕ) : ptrs sb D B (n, k) = (D n).ptr B k := if_pos h

theorem ptrs_of_not_live (h : ¬Live sb D n) (k : ℕ) : ptrs sb D B (n, k) = 0 := if_neg h

/-- What the pointers of an inode are depends on its type, its addresses and its indirect
block. -/
theorem ptrs_congr {k : ℕ} (hlive : Live sb D' m ↔ Live sb D m)
    (hptr : Live sb D m → (D' m).ptr B' k = (D m).ptr B k) :
    ptrs sb D' B' (m, k) = ptrs sb D B (m, k) := by
  by_cases h : Live sb D m
  · rw [ptrs_of_live h, ptrs_of_live (hlive.mpr h), hptr h]
  · rw [ptrs_of_not_live h, ptrs_of_not_live (mt hlive.mp h)]

theorem live_update {d : Dinode} (ht : d.type ≠ 0 ↔ (D n).type ≠ 0) :
    Live sb (update D n d) m ↔ Live sb D m := by
  unfold Live
  by_cases h : m = n
  · rw [h, update_self, ht]
  · rw [update_of_ne h]

theorem live_setAddr {i : Fin (NDIRECT + 1)} {b : ℕ} :
    Live sb (update D n ((D n).setAddr i b)) m ↔ Live sb D m := live_update Iff.rfl

namespace Keeps

theorem refl (m : ℕ) : Keeps D D B B m := ⟨rfl, rfl, fun _ _ _ => ⟨rfl, rfl⟩⟩

theorem trans (h : Keeps D D' B B' m) (h' : Keeps D' D'' B' B'' m) : Keeps D D'' B B'' m where
  type := h'.type.trans h.type
  size := h'.size.trans h.size
  data k hk h0 := by
    obtain ⟨hptr, hblk⟩ := h.data k hk h0
    obtain ⟨hptr', hblk'⟩ := h'.data k hk (by rwa [hptr])
    rw [hptr] at hptr' hblk'
    exact ⟨hptr', hblk'.trans hblk⟩

theorem live (h : Keeps D D' B B' m) : Live sb D' m ↔ Live sb D m := by
  unfold Live
  rw [h.type]

theorem fileBlk (h : Keeps D D' B B' m) {bn : ℕ} (h0 : (D m).fileBlk B bn ≠ 0) :
    (D' m).fileBlk B' bn = (D m).fileBlk B bn ∧
      B' ((D m).fileBlk B bn) = B ((D m).fileBlk B bn) := by
  apply h.data _ _ h0
  split_ifs <;> omega

theorem byte (h : Keeps D D' B B' m) {x : ℕ} (h0 : (D m).fileBlk B (x / BSIZE) ≠ 0) :
    (D' m).byte B' x = (D m).byte B x := by
  rw [Dinode.byte, (h.fileBlk h0).1, (h.fileBlk h0).2, Dinode.byte]

end Keeps

theorem Mapped.of_keeps (h : Mapped sb D B)
    (hm : ∀ m, Live sb D' m → (D' m).size = 0 ∨ Keeps D D' B B' m) : Mapped sb D' B' := by
  intro m hlive hdev bn hbn
  cases hm m hlive with
  | inl hsize => omega
  | inr hk =>
    rw [hk.size] at hbn
    have h0 := h m (hk.live.mp hlive) (hk.type ▸ hdev) bn hbn
    rwa [(hk.fileBlk h0).1]

theorem Mapped.byte (h : Mapped sb D B) (hlive : Live sb D n) (hdev : (D n).type ≠ T_DEV) {x : ℕ}
    (hx : x < (D n).size) : (D n).fileBlk B (x / BSIZE) ≠ 0 :=
  h n hlive hdev _ ((Nat.div_mul_le_self x BSIZE).trans_lt hx)

theorem ptr_frame (hm : Live sb D m)
    (hB : ∀ j, ptrs sb D B j ≠ 0 → B' (ptrs sb D B j) = B (ptrs sb D B j)) (k : ℕ) :
    (D m).ptr B' k = (D m).ptr B k := by
  apply ptr_congr
  intro h0
  have hj : ptrs sb D B (m, NDIRECT) = (D m).addrs (last NDIRECT) :=
    (ptrs_of_live hm _).trans ((D m).ptr_indirect B)
  rw [← hj]
  apply hB
  rwa [hj]

theorem ptrs_frame (hB : ∀ j, ptrs sb D B j ≠ 0 → B' (ptrs sb D B j) = B (ptrs sb D B j))
    (j : ℕ × ℕ) : ptrs sb D B' j = ptrs sb D B j :=
  ptrs_congr Iff.rfl fun hm => ptr_frame hm hB j.2

theorem ptrs_update_of_ne {d : Dinode} (hne : m ≠ n) (k : ℕ) :
    ptrs sb (update D n d) B (m, k) = ptrs sb D B (m, k) := by
  rw [ptrs, ptrs, update_of_ne hne]

namespace Owned

section
variable (h : Owned sb D B)
include h

theorem ptr_range (hm : Live sb D m) {k : ℕ} (h0 : (D m).ptr B k ≠ 0) :
    dataStart sb ≤ (D m).ptr B k ∧ (D m).ptr B k < sb.size := by
  rw [← ptrs_of_live hm k] at h0 ⊢
  exact h.range _ h0

theorem indirect_range (hm : Live sb D m) (h0 : (D m).addrs (last NDIRECT) ≠ 0) :
    dataStart sb ≤ (D m).addrs (last NDIRECT) ∧ (D m).addrs (last NDIRECT) < sb.size := by
  rw [← (D m).ptr_indirect B] at h0 ⊢
  exact h.ptr_range hm h0

theorem ptr_inj (hm : Live sb D m) (hn : Live sb D n) {k l : ℕ}
    (h0 : (D m).ptr B k ≠ 0) (heq : (D m).ptr B k = (D n).ptr B l) : m = n ∧ k = l := by
  rw [← ptrs_of_live hm k] at h0 heq
  rw [← ptrs_of_live hn l] at heq
  exact Prod.mk.inj (h.inj _ _ h0 heq)

/-- The block handed out is nobody's, so the blocks in use do not change. -/
theorem allocBlk_frame (g : Geometry sb) {b : ℕ} (hb : b < sb.size) (hfree : marked sb B b = false)
    (j : ℕ × ℕ) (h0 : ptrs sb D B j ≠ 0) : allocBlk sb B b (ptrs sb D B j) = B (ptrs sb D B j) := by
  have hbm := g.bblock_lt hb
  have hrange := h.range j h0
  apply allocBlk_of_ne
  · exact (h.unowned hb hfree).2 j
  · omega

theorem freeBlk_frame (g : Geometry sb) {b : ℕ} (hb : b < sb.size) (j : ℕ × ℕ)
    (h0 : ptrs sb D B j ≠ 0) : freeBlk sb B b (ptrs sb D B j) = B (ptrs sb D B j) := by
  have hbm := g.bblock_lt hb
  have hrange := h.range j h0
  apply freeBlk_of_ne
  omega

section
variable (g : Geometry sb) (hn : Live sb D n) {i : Fin (NDIRECT + 1)} (h0 : (D n).addrs i = 0)
  {b : ℕ} (hb : b < sb.size) (hfree : marked sb B b = false)
include g hn h0 hb hfree

theorem ptrs_allocAddr (j : ℕ × ℕ) : ptrs sb (update D n ((D n).setAddr i b)) (allocBlk sb B b) j =
    if j = (n, i.val) then b else ptrs sb D B j := by
  obtain ⟨m, k⟩ := j
  have hframe := h.allocBlk_frame g hb hfree
  by_cases hm : m = n
  · subst hm
    rw [ptrs_of_live (live_setAddr.mpr hn), ptrs_of_live hn, update_self, ← ptr_frame hn hframe]
    simp only [Prod.mk.injEq, true_and]
    by_cases hi : i = last NDIRECT
    · subst hi
      exact (D m).ptr_setAddr_last (allocBlk_self b) h0 k
    · exact (D m).ptr_setAddr _ hi b k
  · rw [ptrs_update_of_ne hm, ptrs_frame hframe, if_neg]
    simp [hm]

theorem allocAddr : Owned sb (update D n ((D n).setAddr i b)) (allocBlk sb B b) := by
  apply Owns.insert h _ hb hfree (h.ptrs_allocAddr g hn h0 hb hfree)
  · intro x hx
    exact marked_allocBlk g (h.unowned hb hfree).1 hx
  · rw [ptrs_of_live hn, ptr_direct, h0]

end

theorem last_ne (hm : Live sb D m) (hn : Live sb D n) {k : ℕ} (hne : ¬(m = n ∧ NDIRECT = k))
    (h0 : (D m).addrs (last NDIRECT) ≠ 0) : (D m).addrs (last NDIRECT) ≠ (D n).ptr B k := by
  rw [← (D m).ptr_indirect B] at h0 ⊢
  intro heq
  exact hne (h.ptr_inj hm hn h0 heq)

section
variable (g : Geometry sb) (hn : Live sb D n)
include g hn

/-- A free block becomes an entry of the indirect block of inode `n`. -/
theorem ptrs_allocEntry {j : ℕ} (hj : j < NINDIRECT) (hlast : (D n).addrs (last NDIRECT) ≠ 0)
    {b : ℕ}
    (hb : b < sb.size) (hfree : marked sb B b = false) (i : ℕ × ℕ) :
    ptrs sb D (update (allocBlk sb B b) ((D n).addrs (last NDIRECT))
      ((allocBlk sb B b ((D n).addrs (last NDIRECT))).setField (4 * j) 4 b)) i =
    if i = (n, NDIRECT + 1 + j) then b else ptrs sb D B i := by
  obtain ⟨m, k⟩ := i
  have hsize := g.size
  have hframe := h.allocBlk_frame g hb hfree
  rw [← ptrs_frame hframe]
  by_cases hm : m = n
  · subst hm
    rw [ptrs_of_live hn, ptrs_of_live hn, (D m).ptr_setEntry hj (by omega) hlast]
    simp only [Prod.mk.injEq, true_and]
  · rw [if_neg (by simp [hm])]
    apply ptrs_congr Iff.rfl
    intro hlive
    apply ptr_congr
    intro h0
    have hne := h.last_ne hlive hn (k := NDIRECT) (by simp [hm]) h0
    rw [ptr_indirect] at hne
    exact update_of_ne hne ..

theorem allocEntry {j : ℕ} (hj : j < NINDIRECT) (hlast : (D n).addrs (last NDIRECT) ≠ 0)
    (h0 : (D n).ptr B (NDIRECT + 1 + j) = 0) {b : ℕ} (hb : b < sb.size)
    (hfree : marked sb B b = false) :
    Owned sb D (update (allocBlk sb B b) ((D n).addrs (last NDIRECT))
      ((allocBlk sb B b ((D n).addrs (last NDIRECT))).setField (4 * j) 4 b)) := by
  apply Owns.insert h _ hb hfree (h.ptrs_allocEntry g hn hj hlast hb hfree)
  · intro x hx
    have hlt := g.bblock_lt hx
    have hrange := h.indirect_range hn hlast
    rw [← marked_allocBlk g (h.unowned hb hfree).1 hx]
    exact marked_congr (update_of_ne (by omega) ..)
  · rw [ptrs_of_live hn, h0]

/-- An address of inode `n` other than that of the indirect block is cleared. -/
theorem freeAddr {i : Fin (NDIRECT + 1)} (hi : i ≠ last NDIRECT) (h0 : (D n).addrs i ≠ 0) :
    Owned sb (update D n ((D n).setAddr i 0)) (freeBlk sb B ((D n).addrs i)) := by
  have hptr : ptrs sb D B (n, i.val) = (D n).addrs i :=
    (ptrs_of_live hn _).trans ((D n).ptr_direct B i)
  have hrange := h.range (n, i.val) (by rwa [hptr])
  rw [hptr] at hrange
  have hframe := h.freeBlk_frame g hrange.2
  apply Owns.erase h (by rwa [hptr])
  · rintro ⟨m, k⟩
    by_cases hm : m = n
    · subst hm
      rw [ptrs_of_live (live_setAddr.mpr hn), ptrs_of_live hn, update_self,
        (D m).ptr_setAddr _ hi, ptr_frame hn hframe]
      simp only [Prod.mk.injEq, true_and]
    · rw [ptrs_update_of_ne hm, ptrs_frame hframe, if_neg]
      simp [hm]
  · intro x _
    rw [hptr]
    exact marked_freeBlk _ x

/-- A block that no pointer depends on is changed: one with the data of a file. -/
theorem writeData {k : ℕ} (hk : k ≠ NDIRECT) (h0 : (D n).ptr B k ≠ 0) (x : Block) :
    Owned sb D (update B ((D n).ptr B k) x) := by
  have hrange := h.ptr_range hn h0
  apply Owns.congr h
  · rintro ⟨m, l⟩
    apply ptrs_congr Iff.rfl
    intro hlive
    apply ptr_congr
    intro hlast
    exact update_of_ne (h.last_ne hlive hn (by omega) hlast) ..
  · intro c hc
    have hlt := g.bblock_lt hc
    exact marked_congr (update_of_ne (by omega) ..)

end

/-- The inodes change in nothing but their sizes and links, the blocks before the bitmap. -/
theorem frame (g : Geometry sb) (hlive : ∀ m, Live sb D' m ↔ Live sb D m)
    (haddrs : ∀ m, (D' m).addrs = (D m).addrs) (hB : ∀ b, sb.bmapstart ≤ b → B' b = B b) :
    Owned sb D' B' := by
  have hbm := g.bmapstart_lt
  apply Owns.congr h
  · rintro ⟨m, k⟩
    apply ptrs_congr (hlive m)
    intro hm
    have hsame : ∀ j, ptrs sb D B j ≠ 0 → B' (ptrs sb D B j) = B (ptrs sb D B j) := by
      intro j hj
      apply hB
      have hrange := h.range j hj
      omega
    rw [← ptr_frame hm hsame]
    unfold ptr
    rw [haddrs]
  · intro c _
    exact marked_congr (hB _ (bmapstart_le_bblock c))

end

end Owned

end Xv6Threads.Fs
