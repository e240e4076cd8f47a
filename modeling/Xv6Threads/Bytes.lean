import Mathlib.Data.List.GetD
import Mathlib.Data.Nat.ModEq

namespace Xv6Threads.Bytes

open BitVec

abbrev Byte := BitVec 8

abbrev Buf (n : ℕ) := Fin n → Byte

variable {n : ℕ}

namespace Buf

def get (b : Buf n) (i : ℕ) : Byte := if h : i < n then b ⟨i, h⟩ else 0

def zero : Buf n := fun _ => 0

/-- `memmove(b + off, src, m)`: bytes that would land past the end are dropped. -/
def write (b : Buf n) (off m : ℕ) (src : ℕ → Byte) : Buf n := fun i =>
  if off ≤ i.val ∧ i.val < off + m then src (i.val - off) else b i

@[simp] theorem get_zero (i : ℕ) : get (zero : Buf n) i = 0 := by
  simp [get, zero]

theorem get_write (b : Buf n) (off m : ℕ) (src : ℕ → Byte) (i : ℕ) : get (write b off m src) i =
    if i < n ∧ off ≤ i ∧ i < off + m then src (i - off) else get b i := by
  unfold get write
  by_cases hi : i < n <;> simp [hi]

theorem get_write_of_mem (b : Buf n) {off m i : ℕ} (src : ℕ → Byte) (hn : i < n) (hlo : off ≤ i)
    (hhi : i < off + m) : get (write b off m src) i = src (i - off) := by
  rw [get_write, if_pos ⟨hn, hlo, hhi⟩]

theorem get_write_of_notMem (b : Buf n) {off m i : ℕ} (src : ℕ → Byte)
    (h : i < off ∨ off + m ≤ i) : get (write b off m src) i = get b i := by
  rw [get_write, if_neg (by omega)]

end Buf

/-- The number whose `k` little-endian digits in base 256 are `f 0, …, f (k-1)`. -/
def leNat (f : ℕ → Byte) : ℕ → ℕ
  | 0 => 0
  | k + 1 => leNat f k + 256 ^ k * (f k).toNat

def leBytes (v k : ℕ) : Byte := BitVec.ofNat 8 (v / 256 ^ k)

theorem leNat_congr {f g : ℕ → Byte} {k : ℕ} (h : ∀ i < k, f i = g i) : leNat f k = leNat g k := by
  induction k with
  | zero => rfl
  | succ k ih =>
    simp only [leNat]
    rw [ih (fun i hi => h i (by omega)), h k (by omega)]

theorem leNat_lt (f : ℕ → Byte) (k : ℕ) : leNat f k < 256 ^ k := by
  induction k with
  | zero => simp [leNat]
  | succ k ih =>
    have hb : (f k).toNat < 256 := (f k).isLt
    have hm : 256 ^ k * (f k).toNat ≤ 256 ^ k * 255 := Nat.mul_le_mul_left _ (by omega)
    simp only [leNat, pow_succ]
    omega

theorem leNat_leBytes (v k : ℕ) : leNat (leBytes v) k = v % 256 ^ k := by
  induction k with
  | zero => simp [leNat, Nat.mod_one]
  | succ k ih =>
    have hd : (leBytes v k).toNat = v / 256 ^ k % 256 := by simp [leBytes]
    rw [leNat, ih, hd, Nat.mod_pow_succ]

theorem leNat_zero (k : ℕ) : leNat (fun _ => 0) k = 0 := by
  induction k with
  | zero => rfl
  | succ k ih => rw [leNat, ih]; rfl

def bytesOf (l : List Byte) (k : ℕ) : Byte := l.getD k 0

theorem bytesOf_append (l m : List Byte) (k : ℕ) :
    bytesOf (l ++ m) k = if k < l.length then bytesOf l k else bytesOf m (k - l.length) := by
  unfold bytesOf
  split_ifs with hk
  · exact List.getD_append l m 0 k hk
  · exact List.getD_append_right l m 0 k (by omega)

namespace Buf

/-- The `k`-byte little-endian number at byte offset `off`. -/
def field (b : Buf n) (off k : ℕ) : ℕ := leNat (fun i => get b (off + i)) k

def setField (b : Buf n) (off k v : ℕ) : Buf n := write b off k (leBytes v)

variable (b : Buf n)

theorem field_lt (off k : ℕ) : field b off k < 256 ^ k := leNat_lt _ _

theorem field_congr {b c : Buf n} {off k : ℕ} (h : ∀ i < k, get b (off + i) = get c (off + i)) :
    field b off k = field c off k := leNat_congr h

@[simp] theorem field_zero (off k : ℕ) : field (zero : Buf n) off k = 0 := by
  simp only [field, get_zero]
  exact leNat_zero k

/-- A write that covers a field replaces it by the field of the source. -/
theorem field_write_of_mem {off m o k : ℕ} (src : ℕ → Byte)
    (hn : o + k ≤ n) (hlo : off ≤ o) (hhi : o + k ≤ off + m) :
    field (write b off m src) o k = leNat (fun i => src (o - off + i)) k := by
  apply leNat_congr
  intro i hi
  rw [get_write_of_mem b src (by omega) (by omega) (by omega)]
  congr 1
  omega

theorem field_write_of_disjoint {off m o k : ℕ} (src : ℕ → Byte)
    (h : o + k ≤ off ∨ off + m ≤ o) : field (write b off m src) o k = field b o k := by
  apply leNat_congr
  intro i hi
  exact get_write_of_notMem b src (by omega)

theorem field_setField_self {off k v : ℕ} (hn : off + k ≤ n) (hv : v < 256 ^ k) :
    field (setField b off k v) off k = v := by
  rw [setField, field_write_of_mem b _ hn le_rfl le_rfl]
  simp only [Nat.sub_self, Nat.zero_add]
  rw [show (fun i => leBytes v i) = leBytes v from rfl, leNat_leBytes, Nat.mod_eq_of_lt hv]

theorem field_setField_of_disjoint {off k v o j : ℕ}
    (h : o + j ≤ off ∨ off + k ≤ o) : field (setField b off k v) o j = field b o j :=
  field_write_of_disjoint b _ h

/-- Bit `i` of the buffer, `data[i/8] & (1 << (i % 8))`. -/
def bit (b : Buf n) (i : ℕ) : Bool := (get b (i / 8)).getLsbD (i % 8)

/-- `data[i/8] |= 1 << (i % 8)`. -/
def setBit (b : Buf n) (i : ℕ) : Buf n :=
  write b (i / 8) 1 fun _ => get b (i / 8) ||| BitVec.twoPow 8 (i % 8)

/-- `data[i/8] &= ~(1 << (i % 8))`. -/
def clearBit (b : Buf n) (i : ℕ) : Buf n :=
  write b (i / 8) 1 fun _ => get b (i / 8) &&& ~~~ BitVec.twoPow 8 (i % 8)

theorem bit_setBit {i : ℕ} (hi : i < 8 * n) (j : ℕ) :
    bit (setBit b i) j = (decide (j = i) || bit b j) := by
  unfold bit setBit
  by_cases hd : j / 8 = i / 8
  · have hm : j % 8 < 8 := by omega
    have hi8 : i % 8 < 8 := by omega
    rw [hd, get_write_of_mem b _ (by omega) le_rfl (by omega), getLsbD_or, getLsbD_twoPow]
    have he : (i % 8 = j % 8) ↔ j = i := by omega
    simp [hm, hi8, he, Bool.or_comm]
  · have hne : j ≠ i := by rintro rfl; exact hd rfl
    rw [get_write_of_notMem b _ (by omega)]
    simp [hne]

theorem bit_clearBit {i : ℕ} (hi : i < 8 * n) (j : ℕ) :
    bit (clearBit b i) j = (!decide (j = i) && bit b j) := by
  unfold bit clearBit
  by_cases hd : j / 8 = i / 8
  · have hm : j % 8 < 8 := by omega
    have hi8 : i % 8 < 8 := by omega
    rw [hd, get_write_of_mem b _ (by omega) le_rfl (by omega), getLsbD_and,
      getLsbD_not, getLsbD_twoPow]
    have he : (i % 8 = j % 8) ↔ j = i := by omega
    simp [hm, hi8, he, Bool.and_comm]
  · have hne : j ≠ i := by rintro rfl; exact hd rfl
    rw [get_write_of_notMem b _ (by omega)]
    simp [hne]

end Buf

end Xv6Threads.Bytes
