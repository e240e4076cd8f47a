import Mathlib.Algebra.Ring.Nat
import Mathlib.Algebra.BigOperators.Group.List.Basic
import Mathlib.Data.List.Pairwise
import Mathlib.Order.Nat

namespace Xv6Threads.Tiling

open List

abbrev Block := ℕ × ℕ

variable {k : ℕ} {bs cs areas : List Block} {b c : Block} {a m n x : ℕ}

def Within (k : ℕ) (b : Block) (x : ℕ) : Prop := b.1 ≤ x ∧ x < b.1 + k * b.2

def Apart (k : ℕ) (b c : Block) : Prop := b.1 + k * b.2 ≤ c.1 ∨ c.1 + k * c.2 ≤ b.1

theorem Apart.symm (h : Apart k b c) : Apart k c b := Or.symm h

instance (k : ℕ) : Std.Symm (Apart k) := ⟨fun _ _ h => h.symm⟩

structure Tiles (k : ℕ) (bs areas : List Block) : Prop where
  pos : ∀ b ∈ bs, 0 < b.2
  apart : bs.Pairwise (Apart k)
  cover : ∀ x, (∃ b ∈ bs, Within k b x) ↔ ∃ b ∈ areas, Within k b x
  units : (bs.map Prod.snd).sum = (areas.map Prod.snd).sum

theorem Tiles.perm (h : Tiles k bs areas) (hp : bs.Perm cs) : Tiles k cs areas where
  pos b hb := h.pos b (hp.mem_iff.mpr hb)
  apart := (hp.pairwise_iff Apart.symm).mp h.apart
  cover x := by
    rw [← h.cover x]
    exact exists_congr fun b => and_congr_left fun _ => hp.mem_iff.symm
  units := by rw [← h.units, (hp.map Prod.snd).sum_eq]

theorem within_add : Within k (a, m + n) x ↔ Within k (a, m) x ∨ Within k (a + k * m, n) x := by
  unfold Within
  dsimp only
  rw [Nat.mul_add]
  omega

/-- A block that is apart from one is apart from its two parts, and the other way round unless it is
empty. -/
theorem apart_add (hk : 0 < k) (hc : 0 < c.2) :
    Apart k (a, m + n) c ↔ Apart k (a, m) c ∧ Apart k (a + k * m, n) c := by
  have hpos := Nat.mul_pos hk hc
  unfold Apart
  dsimp only
  rw [Nat.mul_add]
  omega

theorem cover_add : (∃ b ∈ (a, m + n) :: bs, Within k b x) ↔
    ∃ b ∈ (a, m) :: (a + k * m, n) :: bs, Within k b x := by
  simp only [mem_cons, exists_eq_or_imp, within_add, or_assoc]

theorem Tiles.split (hk : 0 < k) (h : Tiles k ((a, m + n) :: bs) areas) (hm : 0 < m) (hn : 0 < n) :
    Tiles k ((a, m) :: (a + k * m, n) :: bs) areas where
  pos b hb := by
    rcases mem_cons.mp hb with rfl | hb
    · exact hm
    rcases mem_cons.mp hb with rfl | hb
    · exact hn
    · exact h.pos b (mem_cons_of_mem _ hb)
  apart := by
    obtain ⟨hfirst, hrest⟩ := pairwise_cons.mp h.apart
    have hboth : ∀ c ∈ bs, Apart k (a, m) c ∧ Apart k (a + k * m, n) c := fun c hc =>
      (apart_add hk (h.pos c (mem_cons_of_mem _ hc))).mp (hfirst c hc)
    refine pairwise_cons.mpr ⟨fun c hc => ?_, pairwise_cons.mpr ⟨fun c hc => (hboth c hc).2, hrest⟩⟩
    rcases mem_cons.mp hc with rfl | hc
    · exact .inl (Nat.le_refl _)
    · exact (hboth c hc).1
  cover x := by rw [← cover_add, h.cover x]
  units := by
    rw [← h.units]
    simp only [map_cons, sum_cons, Nat.add_assoc]

theorem Tiles.join (hk : 0 < k) (h : Tiles k ((a, m) :: (a + k * m, n) :: bs) areas) :
    Tiles k ((a, m + n) :: bs) areas where
  pos b hb := by
    rcases mem_cons.mp hb with rfl | hb
    · have hm := h.pos (a, m) mem_cons_self
      dsimp only at hm ⊢
      omega
    · exact h.pos b (mem_cons_of_mem _ (mem_cons_of_mem _ hb))
  apart := by
    obtain ⟨hfirst, hrest⟩ := pairwise_cons.mp h.apart
    obtain ⟨hsecond, hrest⟩ := pairwise_cons.mp hrest
    refine pairwise_cons.mpr ⟨fun c hc => ?_, hrest⟩
    have hpos := h.pos c (mem_cons_of_mem _ (mem_cons_of_mem _ hc))
    exact (apart_add hk hpos).mpr ⟨hfirst c (mem_cons_of_mem _ hc), hsecond c hc⟩
  cover x := by rw [cover_add, h.cover x]
  units := by
    rw [← h.units]
    simp only [map_cons, sum_cons, Nat.add_assoc]

theorem Tiles.apart_of_ne (h : Tiles k bs areas) (hb : b ∈ bs) (hc : c ∈ bs) (hne : b ≠ c) :
    Apart k b c :=
  h.apart.forall hb hc hne

theorem Tiles.nodup {size : ℕ → ℕ} {l : List ℕ} (hk : 0 < k)
    (h : Tiles k (l.map fun a => (a, size a)) areas) : l.Nodup := by
  have hapart := pairwise_map.mp h.apart
  refine hapart.imp_of_mem fun {a b} ha hb hab => ?_
  have hpos := Nat.mul_pos hk (h.pos (a, size a) (mem_map_of_mem ha))
  have hpos' := Nat.mul_pos hk (h.pos (b, size b) (mem_map_of_mem hb))
  unfold Apart at hab
  dsimp only at hab hpos hpos'
  omega

theorem Tiles.le (hk : 0 < k) (h : Tiles k bs areas) {M : ℕ} (hM : ∀ c ∈ areas, c.1 + k * c.2 ≤ M)
    (hb : b ∈ bs) : b.1 + k * b.2 ≤ M := by
  have hpos := Nat.mul_pos hk (h.pos b hb)
  obtain ⟨c, hc, hin⟩ := (h.cover (b.1 + k * b.2 - 1)).mp ⟨b, hb, by unfold Within; omega⟩
  have hend := hM c hc
  unfold Within at hin
  omega

theorem Tiles.ge (hk : 0 < k) (h : Tiles k bs areas) {M : ℕ} (hM : ∀ c ∈ areas, M ≤ c.1)
    (hb : b ∈ bs) :
    M ≤ b.1 := by
  have hpos := Nat.mul_pos hk (h.pos b hb)
  obtain ⟨c, hc, hin⟩ := (h.cover b.1).mp ⟨b, hb, by unfold Within; omega⟩
  exact (hM c hc).trans hin.1

theorem Tiles.extend (hk : 0 < k) (h : Tiles k bs areas) (hb : 0 < b.2)
    (habove : ∀ c ∈ areas, c.1 + k * c.2 ≤ b.1) : Tiles k (b :: bs) (b :: areas) where
  pos c hc := by
    rcases mem_cons.mp hc with rfl | hc
    · exact hb
    · exact h.pos c hc
  apart := pairwise_cons.mpr ⟨fun _ hc => .inr (h.le hk habove hc), h.apart⟩
  cover x := by simp only [mem_cons, exists_eq_or_imp, h.cover x]
  units := by rw [map_cons, map_cons, sum_cons, sum_cons, h.units]

theorem length_le_units (h : ∀ b ∈ bs, 0 < b.2) : bs.length ≤ (bs.map Prod.snd).sum := by
  induction bs with
  | nil => exact Nat.le_refl _
  | cons b bs ih =>
    have hb := h b mem_cons_self
    have hrest := ih fun c hc => h c (mem_cons_of_mem b hc)
    rw [length_cons, map_cons, sum_cons]
    omega

end Xv6Threads.Tiling
