import Mathlib.Data.Finset.Erase
import Mathlib.Data.Finset.Lattice.Lemmas
import Xv6Threads.Fs.Owned

namespace Xv6Threads.Fs

open Function Multiset Vol

/-- Every way to stop is accepted but the two that stand for a broken disk. -/
def Tolerant (E : Stop → Prop) : Prop :=
  ∀ e, e ≠ .panic "freeing free block" → e ≠ .panic "ilock: no type" → E e

theorem tolerant_true : Tolerant fun _ => True := fun _ _ _ => trivial

def Vol.put (s : Vol) (e : Ix) (y : Inode) : Vol :=
  { s with icache := fun x => if x = e then y else s.icache x }

def Vol.log (s : Vol) (b : ℕ) (data : Block) : Vol :=
  { s with
    blk := update s.blk b data
    logged := insert b s.logged
    panicked := s.panicked.or s.logPanic }

section
variable {α : Type} {E : Stop → Prop} {s t u : Vol} {e e' : Ix}

@[simp] theorem Vol.put_icache (s : Vol) (e : Ix) (y : Inode) (x : Ix) :
    (s.put e y).icache x = if x = e then y else s.icache x := rfl

@[simp] theorem Vol.put_blk (s : Vol) (e : Ix) (y : Inode) : (s.put e y).blk = s.blk := rfl

@[simp] theorem Vol.put_sb (s : Vol) (e : Ix) (y : Inode) : (s.put e y).sb = s.sb := rfl

@[simp] theorem Vol.log_blk (s : Vol) (b : ℕ) (data : Block) :
    (s.log b data).blk = update s.blk b data := rfl

variable {Q : Unit → Vol → Prop}

theorem wp_setInode {f : Inode → Inode}
    (h : Q () (s.put e (f (s.icache e)))) : wp (setInode e f) Q E s := wp_modify h

theorem wp_inode {Q : Inode → Vol → Prop} (h : Q (s.icache e) s) : wp (inode e) Q E s :=
  wp_bind (wp_get (wp_pure h))

theorem wp_setD {f : Dinode → Dinode}
    (h : Q () (s.put e { s.icache e with d := f (s.icache e).d })) : wp (setD e f) Q E s :=
  wp_modify h

theorem wp_logWrite {b : ℕ} {data : Block} (h : Q () (s.log b data)) :
    wp (logWrite b data) Q E s := by
  apply wp_modify
  have heq : (fun x => if x = b then data else s.blk x) = update s.blk b data := by
    funext x
    rw [update_apply]
  rw [heq]
  exact h

structure Calm (s t : Vol) : Prop where
  blk : t.blk = s.blk
  logged : t.logged = s.logged
  ops : t.ops = s.ops
  devsw : t.devsw = s.devsw

theorem Calm.refl (s : Vol) : Calm s s := ⟨rfl, rfl, rfl, rfl⟩

theorem Calm.trans (h : Calm s t) (h' : Calm t u) : Calm s u :=
  ⟨h'.blk.trans h.blk, h'.logged.trans h.logged, h'.ops.trans h.ops, h'.devsw.trans h.devsw⟩

theorem Calm.put (s : Vol) (e : Ix) (y : Inode) : Calm s (s.put e y) := ⟨rfl, rfl, rfl, rfl⟩

/-- Apart from the cache, blocks of `A` are all that changes. -/
structure Touches (A : Finset ℕ) (s t : Vol) : Prop where
  blk : ∀ b ∉ A, t.blk b = s.blk b

theorem Touches.trans {A A' : Finset ℕ} (h : Touches A s t) (h' : Touches A' t u) :
    Touches (A ∪ A') s u := by
  constructor
  intro b hb
  rw [Finset.notMem_union] at hb
  rw [h'.blk b hb.2, h.blk b hb.1]

theorem Touches.mono {A A' : Finset ℕ} (h : Touches A s t) (hA : A ⊆ A') : Touches A' s t :=
  ⟨fun b hb => h.blk b fun hb' => hb (hA hb')⟩

theorem Touches.trans_self {A : Finset ℕ} (h : Touches A s t) (h' : Touches A t u) :
    Touches A s u := by
  have htrans := h.trans h'
  rwa [Finset.union_self] at htrans

theorem Touches.log (s : Vol) (b : ℕ) (data : Block) : Touches {b} s (s.log b data) := by
  constructor
  intro c hc
  exact update_of_ne (by simpa using hc) ..

theorem Calm.touches (h : Calm s t) (A : Finset ℕ) : Touches A s t :=
  ⟨fun b _ => by rw [h.blk]⟩

/-- The held entries stand for the same inodes, and those read from the disk stay valid. -/
structure Kept (H : Multiset Ix) (s t : Vol) : Prop where
  inum : ∀ e ∈ H, (t.icache e).inum = (s.icache e).inum
  valid : ∀ e ∈ H, (s.icache e).valid = true → (t.icache e).valid = true

variable {H H' : Multiset Ix}

theorem Kept.refl (H : Multiset Ix) (s : Vol) : Kept H s s := ⟨fun _ _ => rfl, fun _ _ => id⟩

theorem Kept.trans (h : Kept H s t) (h' : Kept H t u) : Kept H s u :=
  ⟨fun e he => (h'.inum e he).trans (h.inum e he), fun e he hv => h'.valid e he (h.valid e he hv)⟩

theorem Kept.mono (h : Kept H s t) (hH : ∀ e ∈ H', e ∈ H) : Kept H' s t :=
  ⟨fun e he => h.inum e (hH e he), fun e he => h.valid e (hH e he)⟩

theorem Kept.put {y : Inode} (hinum : e ∈ H → y.inum = (s.icache e).inum)
    (hvalid : e ∈ H → (s.icache e).valid = true → y.valid = true) : Kept H s (s.put e y) := by
  constructor
  · intro x hx
    rw [put_icache]
    split_ifs with h
    · rw [h] at hx ⊢
      exact hinum hx
    · rfl
  · intro x hx hv
    rw [put_icache]
    split_ifs with h
    · rw [h] at hx hv
      exact hvalid hx hv
    · exact hv

theorem Kept.of_icache (h : t.icache = s.icache) : Kept H s t := by
  constructor
  · intro e _
    rw [h]
  · intro e _
    rw [h]
    exact id

end

/-- Inode `x` may be newer in the cache than on the disk. -/
structure Cached (sb : Superblock) (x : Option ℕ) (H : Multiset Ix) (L : Finset Ix)
    (D : ℕ → Dinode) (s : Vol) : Prop where
  mounted : s.sb = sb
  super : readSuperblock (s.blk 1) = sb
  ref : ∀ e, (s.icache e).ref = H.count e
  busy : ∀ e, (s.icache e).busy = true ↔ e ∈ L
  locked : ∀ e ∈ L, e ∈ H
  inum : ∀ e ∈ H, (s.icache e).inum < sb.ninodes
  one : ∀ e ∈ H, ∀ e' ∈ H, (s.icache e).inum = (s.icache e').inum → e = e'
  valid : ∀ e ∈ H, (s.icache e).valid = true →
    (s.icache e).d = D (s.icache e).inum ∧ (D (s.icache e).inum).type ≠ 0
  disk : ∀ n < sb.ninodes, x ≠ some n → diskInode sb s.blk n = D n
  fits : ∀ n < sb.ninodes, (D n).Fits

variable {sb : Superblock} {x : Option ℕ} {H H' : Multiset Ix} {L L' : Finset Ix}
  {D D' : ℕ → Dinode} {s t : Vol} {e e' : Ix} {n : ℕ} {E : Stop → Prop}

namespace Cached

section

variable (h : Cached sb x H L D s)
include h

theorem live (he : e ∈ H) (hv : (s.icache e).valid = true) :
    Live sb D (s.icache e).inum := ⟨h.inum e he, (h.valid e he hv).2⟩

theorem d_eq (he : e ∈ H) (hv : (s.icache e).valid = true) :
    (s.icache e).d = D (s.icache e).inum := (h.valid e he hv).1

/-- The rule for a change of one entry that leaves the inodes alone. -/
theorem put {y : Inode} (hcount : ∀ e' ≠ e, H'.count e' = H.count e') (href : y.ref = H'.count e)
    (hL : ∀ e' ≠ e, (e' ∈ L' ↔ e' ∈ L)) (hbusy : y.busy = true ↔ e ∈ L')
    (hlocked : e ∈ L' → e ∈ H') (hinum : e ∈ H' → y.inum < sb.ninodes)
    (hone : e ∈ H' → ∀ e' ∈ H, e' ≠ e → (s.icache e').inum ≠ y.inum)
    (hvalid : e ∈ H' → y.valid = true → y.d = D y.inum ∧ (D y.inum).type ≠ 0) :
    Cached sb x H' L' D (s.put e y) := by
  have hmem : ∀ e' ≠ e, (e' ∈ H' ↔ e' ∈ H) := by
    intro e' he'
    rw [← count_pos, ← count_pos, hcount e' he']
  refine ⟨h.mounted, h.super, ?_, ?_, ?_, ?_, ?_, ?_, h.disk, h.fits⟩
  · intro e'
    by_cases he : e' = e
    · rw [put_icache, if_pos he, href, he]
    · rw [put_icache, if_neg he, h.ref, hcount e' he]
  · intro e'
    by_cases he : e' = e
    · rw [put_icache, if_pos he, hbusy, he]
    · rw [put_icache, if_neg he, h.busy, hL e' he]
  · intro e' he'
    by_cases he : e' = e
    · rw [he] at he' ⊢
      exact hlocked he'
    · exact (hmem e' he).mpr (h.locked e' ((hL e' he).mp he'))
  · intro e' he'
    by_cases he : e' = e
    · rw [put_icache, if_pos he]
      exact hinum (he ▸ he')
    · rw [put_icache, if_neg he]
      exact h.inum e' ((hmem e' he).mp he')
  · intro a ha b hb hab
    by_cases hae : a = e <;> by_cases hbe : b = e
    · rw [hae, hbe]
    · rw [put_icache, put_icache, if_pos hae, if_neg hbe] at hab
      exact absurd hab.symm (hone (hae ▸ ha) b ((hmem b hbe).mp hb) hbe)
    · rw [put_icache, put_icache, if_neg hae, if_pos hbe] at hab
      exact absurd hab (hone (hbe ▸ hb) a ((hmem a hae).mp ha) hae)
    · rw [put_icache, put_icache, if_neg hae, if_neg hbe] at hab
      exact h.one a ((hmem a hae).mp ha) b ((hmem b hbe).mp hb) hab
  · intro e' he' hv
    by_cases he : e' = e
    · rw [put_icache, if_pos he] at hv ⊢
      exact hvalid (he ▸ he') hv
    · rw [put_icache, if_neg he] at hv ⊢
      exact h.valid e' ((hmem e' he).mp he') hv

theorem inum_ne (he : e ∈ H) : ∀ e' ∈ H, e' ≠ e → (s.icache e').inum ≠ (s.icache e).inum :=
  fun e' he' hne heq => hne (h.one e' he' e he heq)

end

theorem count_cons_of_ne (hne : e' ≠ e) : (e ::ₘ H).count e' = H.count e' :=
  Multiset.count_cons_of_ne hne H

theorem addRef (h : Cached sb x H L D s) (he : e ∈ H) :
    Cached sb x (e ::ₘ H) L D (s.put e { s.icache e with ref := (s.icache e).ref + 1 }) := by
  refine h.put (fun _ => count_cons_of_ne) ?_ (fun _ _ => Iff.rfl) (h.busy e)
    (fun hl => mem_cons_of_mem (h.locked e hl)) (fun _ => h.inum e he)
    (fun _ => h.inum_ne he) (fun _ => h.valid e he)
  simp only [h.ref, count_cons_self]
  push_cast
  rfl

theorem dropRef (h : Cached sb x (e ::ₘ H) L D s) (hl : e ∈ L → e ∈ H) :
    Cached sb x H L D (s.put e { s.icache e with ref := (s.icache e).ref - 1 }) := by
  have he : e ∈ e ::ₘ H := mem_cons_self e H
  refine h.put (fun _ hne => (count_cons_of_ne hne).symm) ?_ (fun _ _ => Iff.rfl) (h.busy e)
    hl (fun _ => h.inum e he)
    (fun _ => h.inum_ne he) (fun _ => h.valid e he)
  simp only [h.ref, count_cons_self]
  push_cast
  omega

/-- The blocks before the inodes and those from the bitmap on may change. -/
theorem frame (h : Cached sb x H L D s) (hsb : t.sb = s.sb) (hic : t.icache = s.icache)
    (hsuper : t.blk 1 = s.blk 1)
    (hblk : ∀ n < sb.ninodes, t.blk (iblock sb n) = s.blk (iblock sb n)) : Cached sb x H L D t := by
  refine ⟨hsb.trans h.mounted, by rw [hsuper, h.super], ?_, ?_, h.locked, ?_, ?_, ?_, ?_, h.fits⟩
  · rw [hic]
    exact h.ref
  · rw [hic]
    exact h.busy
  · rw [hic]
    exact h.inum
  · rw [hic]
    exact h.one
  · rw [hic]
    exact h.valid
  · intro n hn hx
    rw [diskInode, hblk n hn]
    exact h.disk n hn hx

theorem ref_pos (h : Cached sb x H L D s) (he : e ∈ H) : ¬ (s.icache e).ref < 1 := by
  have hcount := count_pos.mpr he
  rw [h.ref]
  omega

end Cached

section
variable (h : Cached sb x H L D s)
include h

/-- The entry of `iget` is one that holds the inode already, or a free one. -/
theorem wp_iget (hfull : (∀ e, e ∈ H) → E (.panic "iget: no inodes"))
    {Q : Ix → Vol → Prop} (hold : ∀ e ∈ H, (s.icache e).inum = n →
      Q e (s.put e { s.icache e with ref := (s.icache e).ref + 1 }))
    (hnew : ∀ e ∉ H, (∀ e' ∈ H, (s.icache e').inum ≠ n) →
      Q e (s.put e { s.icache e with inum := n, ref := 1, busy := false, valid := false })) :
    wp (iget n) Q E s := by
  unfold iget
  apply wp_bind (wp_get _)
  cases hfind : ixs.find? fun e => decide (0 < (s.icache e).ref ∧ (s.icache e).inum = n) with
  | some e =>
    have hf : 0 < (s.icache e).ref ∧ (s.icache e).inum = n := by
      simpa using List.find?_some hfind
    have he : e ∈ H := by
      have href := hf.1
      rw [h.ref] at href
      exact count_pos.mp (by omega)
    exact wp_bind (wp_setInode (wp_pure (hold e he hf.2)))
  | none =>
    have hnone : ∀ e' ∈ H, (s.icache e').inum ≠ n := by
      intro e' he' heq
      have hpos := count_pos.mpr he'
      have hnot := List.find?_eq_none.mp hfind e' (List.mem_finRange e')
      rw [decide_eq_true_eq, h.ref] at hnot
      exact hnot ⟨by omega, heq⟩
    cases hfree : ixs.find? fun e => decide ((s.icache e).ref = 0) with
    | none =>
      refine wp_throw (hfull fun e => ?_)
      have href := List.find?_eq_none.mp hfree e (List.mem_finRange e)
      rw [decide_eq_true_eq, h.ref] at href
      exact count_pos.mp (by omega)
    | some e =>
      have hzero : (s.icache e).ref = 0 := by simpa using List.find?_some hfree
      have he : e ∉ H := by
        rw [h.ref] at hzero
        exact count_eq_zero.mp (by omega)
      exact wp_bind (wp_setInode (wp_pure (hnew e he hnone)))

theorem iget_spec (hfull : (∀ e, e ∈ H) → E (.panic "iget: no inodes")) (hn : n < sb.ninodes) :
    wp (iget n) (fun e t => Cached sb x (e ::ₘ H) L D t ∧ (t.icache e).inum = n ∧
      Calm s t ∧ Kept H s t) E s := by
  apply wp_iget h hfull
  · intro e he hinum
    refine ⟨h.addRef he, ?_, Calm.put .., Kept.put (fun _ => rfl) fun _ => id⟩
    simpa using hinum
  · intro e he hnone
    have hl : e ∉ L := fun hl => he (h.locked e hl)
    refine ⟨?_, by simp, Calm.put .., Kept.put (fun h' => absurd h' he) fun h' => absurd h' he⟩
    refine h.put (fun _ => Cached.count_cons_of_ne) ?_ (fun _ _ => Iff.rfl) (by simp [hl])
      (fun h' => absurd h' hl) (fun _ => hn) (fun _ e' he' _ => hnone e' he') ?_
    · simp [count_eq_zero.mpr he]
    · intro _ hv
      cases hv

theorem idup_spec (he : e ∈ H) :
    wp (idup e) (fun e' t => e' = e ∧ Cached sb x (e ::ₘ H) L D t ∧ Calm s t ∧ Kept H s t) E s := by
  unfold idup
  apply wp_bind (wp_setInode _)
  exact wp_pure ⟨rfl, h.addRef he, Calm.put .., Kept.put (fun _ => rfl) fun _ => id⟩

theorem ilock_spec (hsleep : e ∈ L → E .sleep) (he : e ∈ H)
    (hx : (s.icache e).valid = true ∨ x ≠ some (s.icache e).inum)
    (ht : (D (s.icache e).inum).type ≠ 0 ∨ E (.panic "ilock: no type")) :
    wp (ilock e) (fun _ t => Cached sb x H (insert e L) D t ∧ (t.icache e).valid = true ∧
      e ∉ L ∧ Calm s t ∧ Kept H s t) E s := by
  have hmem : ∀ e' ≠ e, (e' ∈ insert e L ↔ e' ∈ L) := by
    intro e' hne
    simp [hne]
  unfold ilock
  apply wp_bind (wp_inode _)
  apply wp_ite
  · intro hfree
    exact absurd hfree (h.ref_pos he)
  · intro _
    apply wp_ite
    · intro hbusy
      exact wp_throw (hsleep ((h.busy e).mp hbusy))
    · intro hbusy
      have hl : e ∉ L := fun hl => hbusy ((h.busy e).mpr hl)
      apply wp_bind (wp_setInode _)
      apply wp_ite
      · intro hv
        refine wp_pure ⟨?_, by simpa using hv, hl, Calm.put .., Kept.put (fun _ => rfl) fun _ => id⟩
        exact h.put (fun _ _ => rfl) (h.ref e) hmem (by simp) (fun _ => he)
          (fun _ => h.inum e he) (fun _ => h.inum_ne he) (fun _ => h.valid e he)
      · intro hv
        apply wp_bind (wp_get _)
        apply wp_bind (wp_setInode _)
        have hd : readDinode (s.blk (iblock s.sb (s.icache e).inum)) (ioff (s.icache e).inum) =
            D (s.icache e).inum := by
          rw [h.mounted]
          exact h.disk _ (h.inum e he) (hx.resolve_left hv)
        simp only [put_blk, put_sb, hd]
        apply wp_ite
        · intro hzero
          exact wp_throw (ht.resolve_left (absurd hzero))
        · intro hzero
          have hput : (s.put e { s.icache e with busy := true }).put e
              { (s.put e { s.icache e with busy := true }).icache e with
                d := D (s.icache e).inum, valid := true } =
              s.put e { s.icache e with
                busy := true, d := D (s.icache e).inum, valid := true } := by
            unfold put
            congr 1
            funext e'
            by_cases hne : e' = e <;> simp [hne]
          rw [hput]
          refine wp_pure ⟨?_, by simp, hl, Calm.put .., Kept.put (fun _ => rfl) fun _ _ => rfl⟩
          exact h.put (fun _ _ => rfl) (h.ref e) hmem (by simp) (fun _ => he)
            (fun _ => h.inum e he) (fun _ => h.inum_ne he) (fun _ _ => ⟨rfl, hzero⟩)

theorem iunlock_spec (hlocked : e ∉ L → E (.panic "iunlock")) (he : e ∈ H) :
    wp (iunlock e) (fun _ t => Cached sb x H (L.erase e) D t ∧ Calm s t ∧ Kept H s t) E s := by
  unfold iunlock
  apply wp_bind (wp_inode _)
  apply wp_ite
  · intro hbad
    refine wp_throw (hlocked fun hl => ?_)
    rw [(h.busy e).mpr hl] at hbad
    exact h.ref_pos he (hbad.resolve_left Bool.noConfusion)
  · intro _
    apply wp_setInode
    refine ⟨?_, Calm.put .., Kept.put (fun _ => rfl) fun _ => id⟩
    refine h.put (fun _ _ => rfl) (h.ref e) ?_ (by simp) (fun _ => he) (fun _ => h.inum e he)
      (fun _ => h.inum_ne he) (fun _ => h.valid e he)
    intro e' hne
    simp [hne]

end

end Xv6Threads.Fs
