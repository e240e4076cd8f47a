import Mathlib.Data.List.Range
import Mathlib.Data.Nat.ModEq

namespace Xv6Threads

open BitVec List Nat Function

variable {α : Type*} {n w : ℕ}

structure Ring (α : Type*) (n w : ℕ) where
  data : Fin n → α
  nread : BitVec w
  nwrite : BitVec w

namespace Ring

variable [NeZero n]

def slot (c : BitVec w) : Fin n := Fin.ofNat n c.toNat

def len (r : Ring α n w) : ℕ := (r.nwrite - r.nread).toNat

/-- The entries put in and not taken out, the oldest first. -/
def toList (r : Ring α n w) : List α :=
  (List.range r.len).map fun i => r.data (Fin.ofNat n (r.nread.toNat + i))

def push (r : Ring α n w) (c : α) : Ring α n w :=
  { r with data := update r.data (slot r.nwrite) c, nwrite := r.nwrite + 1 }

def pop (r : Ring α n w) : Ring α n w := { r with nread := r.nread + 1 }

def head (r : Ring α n w) : α := r.data (slot r.nread)

variable (r : Ring α n w)

omit [NeZero n] in
theorem len_eq {k : ℕ} (hk : k < 2 ^ w) : r.len = k ↔ r.nwrite = r.nread + BitVec.ofNat w k := by
  rw [len, BitVec.add_comm, ← BitVec.sub_eq_iff_eq_add, ← BitVec.toNat_inj, BitVec.toNat_ofNat,
    mod_eq_of_lt hk]

omit [NeZero n] in
theorem len_eq_zero : r.len = 0 ↔ r.nread = r.nwrite := by
  rw [r.len_eq (Nat.two_pow_pos w), BitVec.add_zero, eq_comm]

omit [NeZero n] in
theorem nwrite_toNat : r.nwrite.toNat = (r.nread.toNat + r.len) % 2 ^ w := by
  rw [len, ← BitVec.toNat_add, BitVec.add_comm, BitVec.sub_add_cancel]

theorem len_push (c : α) (h : r.len + 1 < 2 ^ w) : (r.push c).len = r.len + 1 := by
  rw [len_eq _ h]
  have hr : r.nwrite = r.nread + BitVec.ofNat w r.len := (r.len_eq (by omega)).mp rfl
  rw [push, hr, BitVec.add_assoc, BitVec.ofNat_add]
  rfl

omit [NeZero n] in
theorem len_pop (h : r.len ≠ 0) : r.pop.len + 1 = r.len := by
  have hlt : r.len < 2 ^ w := BitVec.isLt _
  have hr : r.nwrite = r.nread + BitVec.ofNat w r.len := (r.len_eq hlt).mp rfl
  obtain ⟨k, hk⟩ := exists_eq_succ_of_ne_zero h
  have hpop : r.pop.len = k := by
    rw [len_eq _ (by omega), pop, hr, hk, succ_eq_add_one, Nat.add_comm, ofNat_add,
      BitVec.add_assoc]
    rfl
  omega

theorem slot_eq (hn : n ∣ 2 ^ w) (c : BitVec w) (x : ℕ) (h : c.toNat = x % 2 ^ w) :
    (slot c : Fin n) = Fin.ofNat n x := by
  apply Fin.ext
  simp only [slot, Fin.ofNat, h]
  exact mod_mod_of_dvd x hn

theorem ofNat_add_ne {a i j : ℕ} (hij : i < j) (hj : j < n) :
    Fin.ofNat n (a + i) ≠ Fin.ofNat n (a + j) := by
  intro h
  have hmod : a + i ≡ a + j [MOD n] := congrArg Fin.val h
  have hij' : i % n = j % n := Nat.ModEq.add_left_cancel' a hmod
  rw [mod_eq_of_lt (by omega), mod_eq_of_lt hj] at hij'
  omega

theorem toList_push (hn : n ∣ 2 ^ w) (r : Ring α n w) (c : α) (h : r.len < n)
    (hw : r.len + 1 < 2 ^ w) : (r.push c).toList = r.toList ++ [c] := by
  have hslot : (slot r.nwrite : Fin n) = Fin.ofNat n (r.nread.toNat + r.len) :=
    slot_eq hn _ _ r.nwrite_toNat
  rw [toList, r.len_push c hw, range_succ, map_append, toList]
  congr 1
  · apply map_congr_left
    intro i hi
    rw [push, hslot]
    exact update_of_ne (ofNat_add_ne (mem_range.mp hi) h) ..
  · simp [push, hslot]

theorem toList_pop (hn : n ∣ 2 ^ w) (r : Ring α n w) (h : r.len ≠ 0) :
    r.toList = r.head :: r.pop.toList := by
  rw [toList, ← r.len_pop h, range_succ_eq_map, map_cons, map_map, toList]
  congr 1
  apply map_congr_left
  intro i _
  have hpop : Fin.ofNat n (r.pop.nread.toNat + i) = Fin.ofNat n (r.nread.toNat + (i + 1)) := by
    have hmod (a : ℕ) : a % 2 ^ w ≡ a [MOD n] := (mod_modEq a (2 ^ w)).of_dvd hn
    have hone : (1 : BitVec w).toNat ≡ 1 [MOD n] := by
      rw [show (1 : BitVec w) = BitVec.ofNat w 1 from rfl, toNat_ofNat]
      exact hmod 1
    apply Fin.ext
    change (r.pop.nread.toNat + i) ≡ (r.nread.toNat + (i + 1)) [MOD n]
    rw [pop, toNat_add, add_comm i 1, ← add_assoc]
    exact ((hmod _).trans (hone.add_left _)).add_right i
  simp only [comp, hpop]
  rfl

end Ring

end Xv6Threads
