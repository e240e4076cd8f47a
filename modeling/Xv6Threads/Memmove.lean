import Mathlib.Algebra.Group.Nat.Defs
import Mathlib.Tactic.Common

namespace Xv6Threads.Memmove

open Function BitVec

abbrev Ptr := BitVec 32
abbrev Mem := Ptr → BitVec 8

/-- `while(n-- > 0) *d++ = *s++;` -/
def copyUp : ℕ → Ptr → Ptr → Mem → Mem
  | 0, _, _, m => m
  | n + 1, d, s, m => copyUp n (d + 1) (s + 1) (update m d (m s))

/-- `while(n-- > 0) *--d = *--s;` -/
def copyDown : ℕ → Ptr → Ptr → Mem → Mem
  | 0, _, _, m => m
  | n + 1, d, s, m => copyDown n (d - 1) (s - 1) (update m (d - 1) (m (s - 1)))

def memmove (dst src n : Ptr) (m : Mem) : Mem :=
  if src < dst ∧ src + n > dst then copyDown n.toNat (dst + n) (src + n) m
  else copyUp n.toNat dst src m

/-- `memmove` of `ulib.c`; its `n` is signed. -/
def umemmove (dst src n : Ptr) (m : Mem) : Mem := copyUp n.toInt.toNat dst src m

/-- The `n` bytes from `dst` are what was at `src`, and all others are as before. -/
def moved (n : ℕ) (dst src : Ptr) (m : Mem) : Mem := fun a =>
  if dst ≤ a ∧ a.toNat < dst.toNat + n then m (src + (a - dst)) else m a

/-- Upwards, a byte is overwritten before it is read only if `dst` is in the middle of `src`. -/
theorem copyUp_eq (n : ℕ) : ∀ (d s : Ptr) (m : Mem), d.toNat + n ≤ 2 ^ 32 → s.toNat + n ≤ 2 ^ 32 →
    d ≤ s ∨ s.toNat + n ≤ d.toNat → copyUp n d s m = moved n d s m := by
  induction n with
  | zero =>
    intro d s m _ _ _
    funext a
    exact (if_neg (by bv_omega)).symm
  | succ n ih =>
    intro d s m hd hs hds
    rw [copyUp, ih _ _ _ (by bv_omega) (by bv_omega) (by bv_omega)]
    funext a
    unfold moved
    by_cases hda : a = d
    · subst hda
      rw [if_neg (by bv_omega), if_pos (by bv_omega), update_self, BitVec.sub_self, BitVec.add_zero]
    · by_cases ha : d ≤ a ∧ a.toNat < d.toNat + (n + 1)
      · -- the byte to be read lies beside `d`
        rw [if_pos (by bv_omega), if_pos ha, update_of_ne (by bv_omega)]
        congr 1
        bv_omega
      · rw [if_neg (by bv_omega), if_neg ha, update_of_ne hda]

theorem copyDown_eq {dst src : Ptr} (hlt : src < dst) (n : ℕ) : ∀ m : Mem, dst.toNat + n ≤ 2 ^ 32 →
    copyDown n (dst + BitVec.ofNat 32 n) (src + BitVec.ofNat 32 n) m = moved n dst src m := by
  induction n with
  | zero =>
    intro m _
    funext a
    exact (if_neg (by bv_omega)).symm
  | succ n ih =>
    intro m hd
    have hone : ∀ p : Ptr, p + BitVec.ofNat 32 (n + 1) - 1 = p + BitVec.ofNat 32 n := by
      intro p
      bv_omega
    rw [copyDown, hone, hone, ih _ (by omega)]
    funext a
    unfold moved
    by_cases hda : a = dst + BitVec.ofNat 32 n
    · rw [if_neg (by bv_omega), if_pos (by bv_omega), hda, update_self]
      congr 1
      bv_omega
    · by_cases ha : dst ≤ a ∧ a.toNat < dst.toNat + (n + 1)
      · rw [if_pos (by bv_omega), if_pos ha, update_of_ne (by bv_omega)]
      · rw [if_neg (by bv_omega), if_neg ha, update_of_ne hda]

theorem copyUp_zero (n : ℕ) : ∀ d s : Ptr, copyUp n d s (fun _ => 0) = fun _ => 0 := by
  induction n with
  | zero => exact fun _ _ => rfl
  | succ n ih =>
    intro d s
    rw [copyUp, update_eq_self, ih]

/-- With `dst` in the middle of `src` the byte at `dst` is overwritten before it is read. -/
theorem copyUp_overlap {n : ℕ} {dst src : Ptr} (hlt : src < dst) (hn : dst.toNat < src.toNat + n)
    (hdst : dst.toNat + n ≤ 2 ^ 32) :
    ∃ m, copyUp n dst src m ≠ moved n dst src m := by
  -- a memory with a single byte that is not 0, at `dst`
  refine ⟨update (fun _ => 0) dst 1, fun heq => ?_⟩
  have hzero : copyUp n dst src (update (fun _ => 0) dst 1) = fun _ => 0 := by
    cases n with
    | zero => bv_omega
    | succ n =>
      rw [copyUp, update_of_ne (by bv_omega), update_idem, update_eq_self, copyUp_zero]
  have hat := congrFun (hzero.symm.trans heq) (dst + (dst - src))
  rw [moved, if_pos (by bv_omega), show src + (dst + (dst - src) - dst) = dst by bv_omega,
    update_self] at hat
  exact absurd hat (by decide)

/-- The kernel's `memmove` is right for all regions, the library's exactly where `dst` is not in
the middle of `src`. -/
theorem memmoves_agree (dst src n : Ptr) (hn : 0 ≤ n.toInt)
    (hdst : dst.toNat + n.toNat ≤ 2 ^ 32) (hsrc : src.toNat + n.toNat ≤ 2 ^ 32) :
    (∀ m, memmove dst src n m = moved n.toNat dst src m) ∧
    ((∀ m, umemmove dst src n m = moved n.toNat dst src m) ↔
      ¬ (src < dst ∧ dst.toNat < src.toNat + n.toNat)) := by
  constructor
  · intro m
    unfold memmove
    split_ifs with hlap
    · have hdown := copyDown_eq hlap.1 n.toNat m hdst
      rwa [ofNat_toNat, setWidth_eq] at hdown
    · exact copyUp_eq _ _ _ _ hdst hsrc (by bv_omega)
  · have hint : n.toInt.toNat = n.toNat := by
      rw [toInt_eq_toNat_of_msb (msb_eq_false_iff_two_mul_lt.mpr ?_), Int.toNat_natCast]
      rw [toInt_eq_toNat_cond] at hn
      omega
    unfold umemmove
    rw [hint]
    constructor
    · rintro hall ⟨hlt, hlap⟩
      obtain ⟨m, hm⟩ := copyUp_overlap hlt hlap hdst
      exact hm (hall m)
    · exact fun hlap m => copyUp_eq _ _ _ _ hdst hsrc (by bv_omega)

/-- Two bytes are moved down by one. -/
theorem memmoves_agree_down :
    umemmove 0 1 2 (fun a => a.setWidth 8) = memmove 0 1 2 fun a => a.setWidth 8 := by
  obtain ⟨hkernel, huser⟩ := memmoves_agree 0 1 2 (by decide) (by decide) (by decide)
  rw [hkernel, huser.mpr (by decide)]

/-- Two bytes moved up by one: the library stores the first of them twice. -/
theorem umemmove_up : umemmove 1 0 2 (fun a => a.setWidth 8) 2 = 0 ∧
    memmove 1 0 2 (fun a => a.setWidth 8) 2 = 1 := by
  decide

end Xv6Threads.Memmove
