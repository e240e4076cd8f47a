import Xv6Threads.Loop
import Xv6Threads.Fs.Nodes

namespace Xv6Threads.Fs

open Bytes

def smallDisk : Superblock := ⟨8, 4, 3, 0, 2, 2, 3⟩

/-- Inode 1 is an empty file, and the four blocks before the data area are marked. -/
def smallBlk : ℕ → Block
  | 1 => (((((Buf.zero.setField 0 4 8).setField 4 4 4).setField 8 4 3).setField 16 4 2).setField
      20 4 2).setField 24 4 3
  | 2 => writeDinode Buf.zero (ioff 1) ⟨T_FILE, 0, 0, 1, 0, fun _ => 0⟩
  | 3 => forLoop Buf.setBit Buf.zero 4
  | _ => Buf.zero

def smallVol : Vol where
  blk := smallBlk
  sb := smallDisk
  icache e := ⟨1, if e = 0 then 1 else 0, false, false, ⟨0, 0, 0, 0, 0, fun _ => 0⟩⟩
  devsw _ := ⟨none, none⟩
  logged := ∅
  ops := []

/-- A volume of that size whose inodes have no blocks, with the first entry held. -/
theorem empty_rep {B : ℕ → Block} (hsuper : readSuperblock (B 1) = smallDisk)
    (haddrs : ∀ n < 3, ∀ i, (diskInode smallDisk B n).addrs i = 0)
    (hsize : ∀ n < 3, (diskInode smallDisk B n).size = 0)
    (hmarked : ∀ b < 8, marked smallDisk B b = true ↔ b < 4) :
    Rep smallDisk {0} ∅ (nodes smallDisk (diskInode smallDisk B) B) { smallVol with blk := B } := by
  have hmem : ∀ e ∈ ({0} : Multiset Ix), e = 0 := fun e he => Multiset.mem_singleton.mp he
  have hptr : ∀ i, ptrs smallDisk (diskInode smallDisk B) B i = 0 := by
    intro i
    unfold ptrs
    split_ifs with hlive
    · unfold Dinode.ptr
      split_ifs with hk hind
      · exact haddrs i.1 hlive.1 _
      · exact absurd (haddrs i.1 hlive.1 _) hind.1
      · rfl
    · rfl
  refine ⟨diskInode smallDisk B, ⟨by decide, by decide, by decide, by decide, by decide⟩,
    ?_, ?_, ?_, rfl⟩
  · refine ⟨rfl, hsuper, ?_, ?_, ?_, ?_, ?_, ?_, fun _ _ _ => rfl, fun _ _ => readDinode_fits ..⟩
    · intro e
      rw [Multiset.count_singleton]
      change (if e = 0 then (1 : ℤ) else 0) = _
      split_ifs <;> rfl
    · intro e
      simp [smallVol]
    · intro e he
      simp at he
    · intro e _
      change 1 < 3
      decide
    · intro e he e' he' _
      rw [hmem e he, hmem e' he']
    · intro e _ hv
      cases hv
  · refine ⟨by decide, fun i hi => absurd (hptr i) hi, fun i _ hi => absurd (hptr i) hi, ?_⟩
    intro b hb
    change marked smallDisk B b = true ↔
      b < 4 ∨ ∃ i, ptrs smallDisk (diskInode smallDisk B) B i = b
    rw [hmarked b hb]
    constructor
    · exact .inl
    · rintro (hlt | ⟨i, hi⟩)
      · exact hlt
      · rw [← hi, hptr]
        decide
  · intro n hlive _ bn hbn
    rw [hsize n hlive.1] at hbn
    omega

theorem smallVol_rep :
    Rep smallDisk {0} ∅ (nodes smallDisk (diskInode smallDisk smallBlk) smallBlk) smallVol :=
  empty_rep (by decide +kernel) (by decide +kernel) (by decide +kernel) (by decide +kernel)

/-- The small volume inside an operation that has logged the blocks `X`. -/
def inOperation (X : Finset ℕ) : Vol := { smallVol with logged := X, outstanding := 1 }

theorem inOperation_rep (X : Finset ℕ) :
    Rep smallDisk {0} ∅ (nodes smallDisk (diskInode smallDisk smallBlk) smallBlk)
      (inOperation X) := by
  obtain ⟨D, hd⟩ := smallVol_rep
  have hc := hd.cached
  exact ⟨D, hd.geometry, ⟨hc.mounted, hc.super, hc.ref, hc.busy, hc.locked, hc.inum, hc.one,
    hc.valid, hc.disk, hc.fits⟩, hd.owned, hd.mapped, hd.view⟩

end Xv6Threads.Fs
