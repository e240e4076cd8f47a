import Mathlib.Data.List.Chain
import Mathlib.Data.List.Nodup

namespace Xv6Threads.Circular

open Function List

variable {α : Type*} {next next' : α → α} {a b u v : α} {l m : List α}

/-- From `a` through the nodes of `l` and back to `a`. -/
def Circle (next : α → α) (a : α) (l : List α) : Prop :=
  List.IsChain (fun u v => next u = v) (a :: (l ++ [a]))

theorem circle_iff : Circle next a (l ++ b :: m) ↔
    List.IsChain (fun u v => next u = v) (a :: (l ++ [b])) ∧
    List.IsChain (fun u v => next u = v) (b :: (m ++ [a])) := by
  have hsplit : a :: (l ++ b :: m ++ [a]) = (a :: l) ++ b :: (m ++ [a]) := by simp
  unfold Circle
  rw [hsplit, isChain_split, cons_append]

theorem circle_rotate : Circle next a (l ++ b :: m) ↔ Circle next b (m ++ a :: l) := by
  rw [circle_iff, circle_iff, and_comm]

theorem circle_at {A C : List α} (hl : a :: l = A ++ u :: C) :
    Circle next a l ↔ Circle next u (C ++ A) := by
  cases A with
  | nil =>
    obtain ⟨rfl, rfl⟩ := List.cons.inj hl
    rw [append_nil]
  | cons b A =>
    obtain ⟨rfl, rfl⟩ := List.cons.inj hl
    exact circle_rotate

theorem Circle.next_eq (h : Circle next a (b :: l)) : next a = b := (isChain_cons_cons.mp h).1

theorem Circle.next_self (h : Circle next a []) : next a = a := (isChain_cons_cons.mp h).1

/-- The links of the nodes before the last one are those that matter. -/
theorem isChain_congr (h : List.IsChain (fun u v => next u = v) (l ++ [b]))
    (heq : ∀ u ∈ l, next' u = next u) : List.IsChain (fun u v => next' u = v) (l ++ [b]) := by
  induction l with
  | nil => exact isChain_singleton b
  | cons u l ih =>
    have hrest : List.IsChain (fun u v => next' u = v) (l ++ [b]) :=
      ih h.tail fun v hv => heq v (mem_cons_of_mem u hv)
    cases l with
    | nil | cons =>
      refine isChain_cons_cons.mpr ⟨?_, hrest⟩
      rw [heq u mem_cons_self, (isChain_cons_cons.mp h).1]

theorem Circle.congr (h : Circle next a l) (heq : ∀ u ∈ a :: l, next' u = next u) :
    Circle next' a l :=
  isChain_congr (l := a :: l) h heq

theorem map_next (h : List.IsChain (fun u v => next u = v) (u :: (l ++ [b]))) :
    (u :: l).map next = l ++ [b] := by
  induction l generalizing u with
  | nil => exact congrArg (fun v => [v]) (isChain_cons_cons.mp h).1
  | cons v l ih =>
    obtain ⟨huv, hrest⟩ := isChain_cons_cons.mp h
    rw [map_cons, huv, ih hrest, cons_append]

theorem Circle.injOn (h : Circle next a l) (hnodup : (a :: l).Nodup) (hu : u ∈ a :: l)
    (hv : v ∈ a :: l)
    (heq : next u = next v) : u = v := by
  refine inj_on_of_nodup_map ?_ hu hv heq
  rw [map_next h]
  exact (perm_append_singleton a l).nodup_iff.mpr hnodup

theorem next_getLastD (h : List.IsChain (fun u v => next u = v) (u :: (l ++ [b]))) :
    next (l.getLastD u) = b := by
  induction l generalizing u with
  | nil => exact (isChain_cons_cons.mp h).1
  | cons v l ih =>
    rw [getLastD_cons]
    exact ih (isChain_cons_cons.mp h).2

section
variable [DecidableEq α]

theorem Circle.insert (h : Circle next a l) (ha : a ∉ l) (hb : b ∉ a :: l) :
    Circle (update (update next b (next a)) a b) a (b :: l) := by
  have hba : b ≠ a := fun hba => hb (hba ▸ mem_cons_self)
  have hkeep : ∀ u ∈ l, update (update next b (next a)) a b u = next u := by
    intro u hu
    have hua : u ≠ a := fun hua => ha (hua ▸ hu)
    have hub : u ≠ b := fun hub => hb (hub ▸ mem_cons_of_mem a hu)
    rw [update_of_ne hua, update_of_ne hub]
  refine isChain_cons_cons.mpr ⟨update_self .., ?_⟩
  have hrest := isChain_congr (List.IsChain.tail h) hkeep
  have hbnext : update (update next b (next a)) a b b = next a := by
    rw [update_of_ne hba, update_self]
  cases l with
  | nil => exact isChain_cons_cons.mpr ⟨hbnext.trans h.next_self, hrest⟩
  | cons c l => exact isChain_cons_cons.mpr ⟨hbnext.trans h.next_eq, hrest⟩

theorem Circle.remove (h : Circle next a (b :: l)) (ha : a ∉ b :: l) :
    Circle (update next a (next b)) a l := by
  have hkeep : ∀ u ∈ l, update next a (next b) u = next u := by
    intro u hu
    refine update_of_ne ?_ ..
    rintro rfl
    exact ha (mem_cons_of_mem b hu)
  have htail := (isChain_cons_cons.mp h).2
  have hrest := isChain_congr htail.tail hkeep
  have hself : update next a (next b) a = next b := update_self ..
  cases l with
  | nil | cons => exact isChain_cons_cons.mpr ⟨hself.trans (isChain_cons_cons.mp htail).1, hrest⟩

end

end Xv6Threads.Circular
