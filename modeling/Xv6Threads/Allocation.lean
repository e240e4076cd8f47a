import Mathlib.Tactic.Common

namespace Xv6Threads

variable {ι : Type*} {lo hi : ℕ} {ptr ptr' : ι → ℕ} {used used' : ℕ → Bool}

structure Owns (lo hi : ℕ) (ptr : ι → ℕ) (used : ℕ → Bool) : Prop where
  pos : 0 < lo
  range : ∀ i, ptr i ≠ 0 → lo ≤ ptr i ∧ ptr i < hi
  inj : ∀ i j, ptr i ≠ 0 → ptr i = ptr j → i = j
  used_iff : ∀ b < hi, used b = true ↔ b < lo ∨ ∃ i, ptr i = b

namespace Owns

theorem congr (h : Owns lo hi ptr used) (hptr : ∀ i, ptr' i = ptr i)
    (hused : ∀ b < hi, used' b = used b) : Owns lo hi ptr' used' where
  pos := h.pos
  range i := by
    rw [hptr]
    exact h.range i
  inj i j := by
    rw [hptr, hptr]
    exact h.inj i j
  used_iff b hb := by
    simp only [hused b hb, hptr]
    exact h.used_iff b hb

theorem used_ptr (h : Owns lo hi ptr used) {i : ι} (hi : ptr i ≠ 0) : used (ptr i) = true :=
  (h.used_iff _ (h.range i hi).2).mpr (.inr ⟨i, rfl⟩)

/-- What is not marked lies in the area, and nobody points to it. -/
theorem unowned (h : Owns lo hi ptr used) {b : ℕ} (hb : b < hi) (hfree : used b = false) :
    lo ≤ b ∧ ∀ i, ptr i ≠ b := by
  have hnot : ¬(b < lo ∨ ∃ i, ptr i = b) := by
    rw [← h.used_iff b hb, hfree]
    simp
  push Not at hnot
  exact ⟨by omega, hnot.2⟩

variable [DecidableEq ι]

theorem insert (h : Owns lo hi ptr used) {i : ι} {b : ℕ} (hi0 : ptr i = 0) (hb : b < hi)
    (hfree : used b = false) (hptr : ∀ j, ptr' j = if j = i then b else ptr j)
    (hused : ∀ x < hi, used' x = (decide (x = b) || used x)) : Owns lo hi ptr' used' := by
  obtain ⟨hlo, hnone⟩ := h.unowned hb hfree
  have hpos := h.pos
  refine ⟨hpos, ?_, ?_, ?_⟩
  · intro j
    rw [hptr]
    split_ifs
    · exact fun _ => ⟨hlo, hb⟩
    · exact h.range j
  · intro j k
    rw [hptr, hptr]
    split_ifs with hj hk hk
    · exact fun _ _ => hj.trans hk.symm
    · exact fun _ hjk => absurd hjk.symm (hnone k)
    · exact fun _ hjk => absurd hjk (hnone j)
    · exact h.inj j k
  · intro x hx
    rw [hused x hx, Bool.or_eq_true, decide_eq_true_eq, h.used_iff x hx]
    constructor
    · rintro (rfl | hlt | ⟨j, hj⟩)
      · exact .inr ⟨i, by rw [hptr, if_pos rfl]⟩
      · exact .inl hlt
      · by_cases hji : j = i
        · rw [hji, hi0] at hj
          exact .inl (by omega)
        · exact .inr ⟨j, by rw [hptr, if_neg hji, hj]⟩
    · rintro (hlt | ⟨j, hj⟩)
      · exact .inr (.inl hlt)
      · rw [hptr] at hj
        split_ifs at hj
        · exact .inl hj.symm
        · exact .inr (.inr ⟨j, hj⟩)

theorem erase (h : Owns lo hi ptr used) {i : ι} (hi0 : ptr i ≠ 0)
    (hptr : ∀ j, ptr' j = if j = i then 0 else ptr j)
    (hused : ∀ x < hi, used' x = (!decide (x = ptr i) && used x)) : Owns lo hi ptr' used' := by
  have hpos := h.pos
  have hrange := h.range i hi0
  refine ⟨hpos, ?_, ?_, ?_⟩
  · intro j
    rw [hptr]
    split_ifs
    · exact fun h0 => absurd rfl h0
    · exact h.range j
  · intro j k
    rw [hptr, hptr]
    split_ifs with hj hk hk
    · exact fun h0 => absurd rfl h0
    · exact fun h0 => absurd rfl h0
    · exact fun h0 hjk => absurd hjk h0
    · exact h.inj j k
  · intro x hx
    rw [hused x hx, Bool.and_eq_true, Bool.not_eq_true', decide_eq_false_iff_not, h.used_iff x hx]
    constructor
    · rintro ⟨hne, hlt | ⟨j, hj⟩⟩
      · exact .inl hlt
      · refine .inr ⟨j, ?_⟩
        rw [hptr, if_neg, hj]
        intro hji
        rw [hji] at hj
        exact hne hj.symm
    · rintro (hlt | ⟨j, hj⟩)
      · exact ⟨by omega, .inl hlt⟩
      · rw [hptr] at hj
        split_ifs at hj with hji
        · exact ⟨by omega, .inl (by omega)⟩
        · refine ⟨fun hxi => hji ?_, .inr ⟨j, hj⟩⟩
          exact (h.inj i j hi0 (hj.trans hxi).symm).symm

end Owns

end Xv6Threads
