import Xv6Threads.Umalloc

namespace Xv6Threads.Umalloc

open Tiling Circular Function List Nat

variable {s t : Heap} {base bp u : ℕ} {L live A C : List ℕ}

/-- The block with its header at `a`. -/
def blk (s : Heap) (a : ℕ) : Block := (a, s.size a)

/-- The free list is `L`, behind `base`, in order of addresses and with no two blocks adjacent. The
blocks of `L` and of `live` are what there is of the areas. -/
structure Ready (base : ℕ) (s : Heap) (L live : List ℕ) : Prop where
  circle : Circle s.ptr base L
  freep : s.freep ∈ base :: L
  base_size : s.size base = 0
  sorted : (base :: L).Pairwise fun u v => u + HEADER * s.size u < v
  tiles : Tiles HEADER ((L ++ live).map (blk s)) s.areas
  low : ∀ c ∈ s.areas, base + HEADER ≤ c.1
  high : ∀ c ∈ s.areas, c.1 + HEADER * c.2 < 2 ^ 32

theorem eight_pos : 0 < HEADER := by decide

section
variable (h : Ready base s L live)
include h

theorem Ready.nodup : (L ++ live).Nodup := Tiles.nodup eight_pos h.tiles

theorem Ready.base_lt {a : ℕ} (ha : a ∈ L ++ live) : base + HEADER ≤ a :=
  h.tiles.ge eight_pos h.low (mem_map_of_mem (f := blk s) ha)

theorem Ready.end_lt {a : ℕ} (ha : a ∈ L ++ live) : a + HEADER * s.size a < 2 ^ 32 := by
  have hend : ∀ c ∈ s.areas, c.1 + HEADER * c.2 ≤ 2 ^ 32 - 1 := fun c hc => by
    have := h.high c hc
    omega
  have hle := h.tiles.le eight_pos hend (mem_map_of_mem (f := blk s) ha)
  change a + HEADER * s.size a ≤ _ at hle
  omega

theorem Ready.size_pos {a : ℕ} (ha : a ∈ L ++ live) : 0 < s.size a :=
  h.tiles.pos (blk s a) (mem_map_of_mem ha)

theorem Ready.nodes_nodup : (base :: L).Nodup := by
  refine nodup_cons.mpr ⟨fun hb => ?_, (nodup_append.mp h.nodup).1⟩
  have hlt := h.base_lt (mem_append_left live hb)
  have hpos := eight_pos
  omega

theorem Ready.length_le : (base :: L).length ≤ bound s := by
  have hle := length_le_units h.tiles.pos
  rw [h.tiles.units, length_map, length_append] at hle
  rw [length_cons, bound]
  omega

end

theorem exists_place {b x : ℕ} {l : List ℕ} (hsorted : (b :: l).Pairwise (· < ·)) (hb : b < x)
    (hx : x ∉ l) :
    ∃ A u C, b :: l = A ++ u :: C ∧ (∀ w ∈ A, w < x) ∧ u < x ∧ ∀ w ∈ C, x < w := by
  induction l generalizing b with
  | nil => exact ⟨[], b, [], rfl, nofun, hb, nofun⟩
  | cons c l ih =>
    obtain ⟨hfirst, hrest⟩ := pairwise_cons.mp hsorted
    have hc : x ≠ c := fun hxc => hx (hxc ▸ mem_cons_self)
    by_cases hcx : c < x
    · obtain ⟨A, u, C, hl, hA, hu, hC⟩ := ih hrest hcx fun hmem => hx (mem_cons_of_mem c hmem)
      refine ⟨b :: A, u, C, by rw [hl, cons_append], fun w hw => ?_, hu, hC⟩
      rcases mem_cons.mp hw with rfl | hw
      · exact hb
      · exact hA w hw
    · refine ⟨[], b, c :: l, rfl, nofun, hb, fun w hw => ?_⟩
      rcases mem_cons.mp hw with rfl | hw
      · omega
      · have := (pairwise_cons.mp hrest).1 w hw
        omega

theorem findPlace_walk {D : List ℕ} {p q : ℕ} (hchain : List.IsChain (fun u v => s.ptr u = v)
    (D ++ [q]))
    (hD : ∀ w ∈ D, ¬ Stop s bp w) (hp : (D ++ [q]).head? = some p) (turns : ℕ) :
    findPlace s bp (D.length + turns) p = findPlace s bp turns q := by
  induction D generalizing p with
  | nil =>
    obtain rfl := Option.some.inj hp
    rw [length_nil, zero_add]
  | cons w D ih =>
    obtain rfl := Option.some.inj hp
    rw [length_cons, add_right_comm, findPlace, if_neg (hD w mem_cons_self)]
    refine ih hchain.tail (fun v hv => hD v (mem_cons_of_mem w hv)) ?_
    cases D with
    | nil | cons v D => rw [(isChain_cons_cons.mp hchain).1]; rfl

theorem findPlace_eq {M : List ℕ} (hcircle : Circle s.ptr u M) (hM : ∀ w ∈ M, ¬ Stop s bp w)
    (hu : Stop s bp u) {f : ℕ} (hf : f ∈ u :: M) {turns : ℕ} (hturns : M.length < turns) :
    findPlace s bp turns f = some u := by
  rcases mem_cons.mp hf with rfl | hf
  · obtain ⟨turns, rfl⟩ : ∃ n, turns = n + 1 := ⟨turns - 1, by omega⟩
    rw [findPlace, if_pos hu]
  · obtain ⟨Y, X, rfl⟩ := append_of_mem hf
    have hchain := (circle_iff.mp (circle_rotate.mp hcircle)).1
    have hX : ∀ w ∈ f :: X, ¬ Stop s bp w := fun w hw => hM w (mem_append_right Y hw)
    rw [length_append, length_cons] at hturns
    obtain ⟨k, rfl⟩ : ∃ k, turns = (f :: X).length + (k + 1) :=
      ⟨turns - (X.length + 2), by rw [length_cons]; omega⟩
    rw [findPlace_walk (D := f :: X) hchain hX rfl, findPlace, if_pos hu]

theorem next_eq (h : Circle s.ptr base L) (hL : base :: L = A ++ u :: C) :
    s.ptr u = C.headD base := by
  have hu := (circle_at hL).mp h
  cases C with
  | cons v C => exact hu.next_eq
  | nil =>
    cases A with
    | nil =>
      obtain ⟨rfl, -⟩ := List.cons.inj hL
      exact hu.next_self
    | cons b A =>
      obtain ⟨rfl, -⟩ := List.cons.inj hL
      exact hu.next_eq

/-- The loop stops at the node behind which `bp` belongs, and at no other. -/
theorem stop_iff (h : Ready base s L live) (hL : base :: L = A ++ u :: C) (hA : ∀ w ∈ A, w < bp)
    (hu : u < bp) (hC : ∀ w ∈ C, bp < w) (hbase : base < bp) :
    Stop s bp u ∧ ∀ w ∈ C ++ A, ¬ Stop s bp w := by
  have hsorted : (A ++ u :: C).Pairwise (· < ·) := by
    rw [← hL]
    exact h.sorted.imp fun {a b} hab => by omega
  constructor
  · unfold Stop
    rw [next_eq h.circle hL]
    cases C with
    | cons v C => exact .inl ⟨hu, hC v mem_cons_self⟩
    | nil =>
      refine .inr ⟨?_, .inl hu⟩
      cases A with
      | nil =>
        obtain ⟨rfl, -⟩ := List.cons.inj hL
        exact le_refl _
      | cons b A =>
        obtain ⟨rfl, -⟩ := List.cons.inj hL
        exact le_of_lt ((pairwise_cons.mp hsorted).1 u (by simp))
  · intro w hw
    rcases mem_append.mp hw with hw | hw
    · -- behind the place: the addresses are above `bp`, up to the wrap
      obtain ⟨C₁, C₂, rfl⟩ := append_of_mem hw
      have hL' : base :: L = (A ++ u :: C₁) ++ w :: C₂ := by rw [hL]; simp
      have hbw := hC w hw
      unfold Stop
      rw [next_eq h.circle hL']
      cases C₂ with
      | nil =>
        rw [headD_nil]
        omega
      | cons v C₂ =>
        rw [hL] at hL'
        have hwv : w < v := by
          rw [hL'] at hsorted
          exact (pairwise_cons.mp (pairwise_append.mp hsorted).2.1).1 v mem_cons_self
        rw [headD_cons]
        omega
    · -- before the place: the next address is not above `bp`
      obtain ⟨A₁, A₂, rfl⟩ := append_of_mem hw
      have hL' : base :: L = A₁ ++ w :: (A₂ ++ u :: C) := by rw [hL]; simp
      have hwnext : ∀ v ∈ A₂ ++ u :: C, w < v := by
        rw [← hL, hL'] at hsorted
        exact (pairwise_cons.mp (pairwise_append.mp hsorted).2.1).1
      unfold Stop
      rw [next_eq h.circle hL']
      cases A₂ with
      | nil =>
        have := hwnext u (by simp)
        rw [nil_append, headD_cons]
        omega
      | cons v A₂ =>
        have hv := hA v (by simp)
        have := hwnext v (by simp)
        rw [cons_append, headD_cons]
        omega

theorem add_eq {p n : ℕ} (h : p + HEADER * n < 2 ^ 32) : add p n = p + HEADER * n := mod_eq_of_lt h

theorem map_blk_congr {l : List ℕ} (h : ∀ a ∈ l, t.size a = s.size a) :
    l.map (blk t) = l.map (blk s) :=
  map_congr_left fun a ha => by rw [blk, blk, h a ha]

theorem tail_eq {X : List ℕ} (hL : base :: L = X) : L = X.tail := by rw [← hL, tail_cons]

theorem tail_perm (A : List ℕ) (u b : ℕ) (C : List ℕ) :
    (A ++ u :: b :: C).tail.Perm (b :: (A ++ u :: C).tail) := by
  cases A with
  | nil => exact List.Perm.refl _
  | cons a A =>
    rw [cons_append, tail_cons, cons_append, tail_cons]
    have hmiddle : (A ++ [u] ++ b :: C).Perm (b :: (A ++ [u] ++ C)) := perm_middle
    simpa using hmiddle

/-- The block `bp` stands in the list behind `u`, and may still touch it. -/
structure Placed (base : ℕ) (s : Heap) (A : List ℕ) (u bp : ℕ) (C live : List ℕ) : Prop where
  circle : Circle (update s.ptr u bp) u (bp :: (C ++ A))
  base_size : s.size base = 0
  sorted : (A ++ u :: C).Pairwise fun u v => u + HEADER * s.size u < v
  before : ∀ w ∈ A, w + HEADER * s.size w < bp
  touch : u + HEADER * s.size u ≤ bp
  behind : ∀ w ∈ C, bp + HEADER * s.size bp < w
  tiles : Tiles HEADER (((A ++ u :: bp :: C).tail ++ live).map (blk s)) s.areas

section
variable (h : Ready base s L (bp :: live)) (hL : base :: L = A ++ u :: C)
include h hL

theorem bp_notMem : bp ∉ A ++ u :: C ∧ bp ∉ live := by
  have hnodup := h.nodup
  have hbase := h.base_lt (mem_append_right L mem_cons_self)
  have hpos := eight_pos
  rw [← hL]
  refine ⟨fun hmem => ?_, fun hmem => ?_⟩
  · rcases mem_cons.mp hmem with heq | hmem
    · omega
    · exact (nodup_append.mp hnodup).2.2 bp hmem bp mem_cons_self rfl
  · exact (nodup_cons.mp (nodup_append.mp hnodup).2.1).1 hmem

theorem touch_of_lt {w : ℕ} (hw : w ∈ A ++ u :: C) (hlt : w < bp) : w + HEADER * s.size w ≤ bp := by
  have hbp := h.base_lt (mem_append_right L mem_cons_self)
  rw [← hL] at hw
  rcases mem_cons.mp hw with rfl | hw
  · rw [h.base_size]
    omega
  · have hapart := (pairwise_append.mp (pairwise_map.mp h.tiles.apart)).2.2 w hw bp mem_cons_self
    unfold Apart blk at hapart
    dsimp only at hapart
    omega

theorem touch_of_gt {w : ℕ} (hw : w ∈ C) (hlt : bp < w) : bp + HEADER * s.size bp ≤ w := by
  have hmem : w ∈ base :: L := by
    rw [hL]
    exact mem_append_right A (mem_cons_of_mem u hw)
  have hbase := h.base_lt (mem_append_right L mem_cons_self)
  have hne : w ≠ base := by omega
  have hapart := (pairwise_append.mp (pairwise_map.mp h.tiles.apart)).2.2 w
    ((mem_cons.mp hmem).resolve_left hne) bp mem_cons_self
  unfold Apart blk at hapart
  dsimp only at hapart
  omega

theorem circle_u : Circle s.ptr u (C ++ A) ∧ u ∉ C ++ A := by
  refine ⟨(circle_at hL).mp h.circle, fun hu => ?_⟩
  have hnodup := h.nodes_nodup
  rw [hL] at hnodup
  obtain ⟨-, hrest, hdisj⟩ := nodup_append.mp hnodup
  rcases mem_append.mp hu with hu | hu
  · exact (nodup_cons.mp hrest).1 hu
  · exact hdisj u hu u mem_cons_self rfl

theorem placed_insert (hu : u < bp) (hgap : ∀ w ∈ C, bp + HEADER * s.size bp < w) :
    Placed base { s with ptr := update s.ptr bp (s.ptr u) } A u bp C live := by
  obtain ⟨hcircle, hucirc⟩ := circle_u h hL
  obtain ⟨hbp, -⟩ := bp_notMem h hL
  have hsorted := h.sorted
  rw [hL] at hsorted
  refine ⟨?_, h.base_size, hsorted, fun w hw => ?_, ?_, hgap, ?_⟩
  · refine hcircle.insert hucirc fun hmem => hbp ?_
    rw [mem_cons, mem_append] at hmem
    rw [mem_append, mem_cons]
    tauto
  · have hwu := (pairwise_append.mp hsorted).2.2 w hw u mem_cons_self
    dsimp only
    omega
  · exact touch_of_lt h hL (by simp) hu
  · refine h.tiles.perm (List.Perm.map _ ?_)
    rw [tail_eq hL]
    refine perm_middle.trans ?_
    rw [← cons_append]
    exact (tail_perm A u bp C).symm.append_right live

theorem placed_join {v : ℕ} {C' : List ℕ} (hCv : C = v :: C') (hv : v = bp + HEADER * s.size bp)
    (hu : u < bp) :
    Placed base { s with
      size := update s.size bp (s.size bp + s.size v),
      ptr := update s.ptr bp (s.ptr v) } A u bp C' live := by
  subst hCv
  obtain ⟨hcircle, hucirc⟩ := circle_u h hL
  obtain ⟨hbp, hbplive⟩ := bp_notMem h hL
  have hsize : ∀ a ≠ bp, update s.size bp (s.size bp + s.size v) a = s.size a :=
    fun a ha => update_of_ne ha ..
  have hbase : base ≠ bp := by
    rintro rfl
    exact hbp (hL ▸ mem_cons_self)
  have hsorted := h.sorted
  rw [hL] at hsorted
  have hsub : (A ++ u :: C').Sublist (A ++ u :: v :: C') :=
    (List.Sublist.refl A).append ((sublist_cons_self v C').cons_cons u)
  have hkeep : ∀ a ∈ A ++ u :: C', update s.size bp (s.size bp + s.size v) a = s.size a := by
    intro a ha
    refine hsize a ?_
    rintro rfl
    exact hbp (hsub.subset ha)
  refine ⟨?_, ?_, ?_, fun w hw => ?_, ?_, fun w hw => ?_, ?_⟩
  · rw [cons_append] at hcircle hucirc
    have hremove := hcircle.remove hucirc
    have hinsert := hremove.insert (b := bp) (fun hmem => hucirc
      (mem_cons_of_mem v hmem)) fun hmem =>
      hbp (by
        rw [mem_cons, mem_append] at hmem
        rw [mem_append, mem_cons, mem_cons]
        tauto)
    rwa [update_self, update_comm hu.ne', update_idem, update_comm hu.ne] at hinsert
  · exact (hsize base hbase).trans h.base_size
  · refine (hsorted.sublist hsub).imp_of_mem fun {a b} ha _ hab => ?_
    dsimp only
    rwa [hkeep a ha]
  · have hwu := (pairwise_append.mp hsorted).2.2 w hw u mem_cons_self
    dsimp only
    rw [hkeep w (mem_append_left _ hw)]
    omega
  · dsimp only
    rw [hkeep u (by simp)]
    exact touch_of_lt h hL (by simp) hu
  · have hvw := (pairwise_cons.mp (pairwise_cons.mp (pairwise_append.mp hsorted).2.1).2).1 w hw
    dsimp only
    rw [update_self, Nat.mul_add]
    omega
  · have hperm : ((L ++ bp :: live).map (blk s)).Perm
        ((bp, s.size bp) :: (bp + HEADER * s.size bp, s.size v) ::
          ((A ++ u :: C').tail ++ live).map (blk s)) := by
      have hnodes : (L ++ bp :: live).Perm (bp :: v :: ((A ++ u :: C').tail ++ live)) := by
        rw [tail_eq hL]
        refine perm_middle.trans (List.Perm.cons bp ?_)
        rw [← cons_append]
        exact (tail_perm A u v C').append_right live
      rw [← hv]
      exact hnodes.map (blk s)
    have hjoin := (h.tiles.perm hperm).join eight_pos
    refine hjoin.perm ?_
    have hmap : ((A ++ u :: C').tail ++ live).map (blk s) = ((A ++ u :: C').tail ++ live).map
        (blk { s with
          size := update s.size bp (s.size bp + s.size v),
          ptr := update s.ptr bp (s.ptr v) }) := by
      refine map_blk_congr fun a ha => ?_
      rcases mem_append.mp ha with ha | ha
      · exact (hkeep a (mem_of_mem_tail ha)).symm
      · refine (hsize a ?_).symm
        rintro rfl
        exact hbplive ha
    have hbp' : (bp, s.size bp + s.size v) = blk { s with
        size := update s.size bp (s.size bp + s.size v),
        ptr := update s.ptr bp (s.ptr v) } bp :=
      congrArg (Prod.mk bp) (update_self bp (s.size bp + s.size v) s.size).symm
    rw [hmap, hbp', ← map_cons]
    refine List.Perm.map _ ?_
    rw [← cons_append]
    exact (tail_perm A u bp C').symm.append_right live

theorem joinNext_placed (hu : u < bp) (hC : ∀ w ∈ C, bp < w) :
    ∃ C', Placed base (joinNext s bp u) A u bp C' live ∧ s.size bp ≤ (joinNext s bp u).size bp ∧
      (joinNext s bp u).areas = s.areas ∧ ∀ a ≠ bp, (joinNext s bp u).size a = s.size a := by
  have hbp := h.end_lt (mem_append_right L mem_cons_self)
  have hbase := h.base_lt (mem_append_right L mem_cons_self)
  have hpos := eight_pos
  have hnext := next_eq h.circle hL
  unfold joinNext
  dsimp only
  rw [add_eq hbp]
  by_cases hjoin : bp + HEADER * s.size bp = s.ptr u
  · rw [if_pos hjoin]
    cases C with
    | nil =>
      rw [hnext, headD_nil] at hjoin
      omega
    | cons v C' =>
      rw [headD_cons] at hnext
      rw [hnext] at hjoin ⊢
      have hv : v ∈ L ++ bp :: live := by
        have hmem : v ∈ base :: L := by rw [hL]; simp
        refine mem_append_left _ ((mem_cons.mp hmem).resolve_left ?_)
        omega
      have hend := h.end_lt hv
      have hsum : (s.size bp + s.size v) % 2 ^ 32 = s.size bp + s.size v := by
        refine mod_eq_of_lt ?_
        change v + 8 * s.size v < 2 ^ 32 at hend
        change bp + 8 * s.size bp = v at hjoin
        omega
      rw [hsum]
      refine ⟨C', placed_join h hL rfl hjoin.symm hu, ?_, rfl, fun a ha => update_of_ne ha ..⟩
      dsimp only
      rw [update_self]
      exact le_add_right _ _
  · rw [if_neg hjoin]
    refine ⟨C, placed_insert h hL hu fun w hw => ?_, le_refl _, rfl, fun _ _ => rfl⟩
    cases C with
    | nil => cases hw
    | cons v C' =>
      rw [hnext, headD_cons] at hjoin
      have hv := touch_of_gt h hL mem_cons_self (hC v mem_cons_self)
      rcases mem_cons.mp hw with rfl | hw
      · omega
      · have hsorted := h.sorted
        rw [hL] at hsorted
        have hvw := (pairwise_cons.mp (pairwise_cons.mp
          (pairwise_append.mp hsorted).2.1).2).1 w hw
        omega

end

theorem exists_cons_tail {X : List ℕ} (hL : base :: L = A ++ u :: C) :
    base :: (A ++ u :: X).tail = A ++ u :: X := by
  cases A with
  | nil =>
    obtain ⟨rfl, -⟩ := List.cons.inj hL
    rfl
  | cons b A =>
    obtain ⟨rfl, -⟩ := List.cons.inj hL
    rfl

section
variable {C' : List ℕ} (hL : base :: L = A ++ u :: C) (h : Placed base s A u bp C' live)
include hL h

theorem Placed.bp_mem : bp ∈ (A ++ u :: bp :: C').tail := by
  cases A with
  | nil => exact mem_cons_self
  | cons b A => simp

omit hL in
theorem Placed.nodup : ((A ++ u :: bp :: C').tail ++ live).Nodup := Tiles.nodup eight_pos h.tiles

theorem Placed.end_lt (hhigh : ∀ c ∈ s.areas, c.1 + HEADER * c.2 < 2 ^ 32) :
    bp + HEADER * s.size bp < 2 ^ 32 := by
  have hend : ∀ c ∈ s.areas, c.1 + HEADER * c.2 ≤ 2 ^ 32 - 1 := fun c hc => by
    have := hhigh c hc
    omega
  have hle := h.tiles.le eight_pos hend
    (mem_map_of_mem (f := blk s) (mem_append_left live (Placed.bp_mem hL h)))
  change bp + HEADER * s.size bp ≤ _ at hle
  omega

section
variable (hlow : ∀ c ∈ s.areas, base + HEADER ≤ c.1)
  (hhigh : ∀ c ∈ s.areas, c.1 + HEADER * c.2 < 2 ^ 32)
include hlow hhigh

theorem Placed.link (hgap : u + HEADER * s.size u < bp) :
    Ready base { s with ptr := update s.ptr u bp, freep := u } (A ++ u :: bp :: C').tail live where
  circle := (circle_at (exists_cons_tail hL)).mpr h.circle
  freep := by
    rw [exists_cons_tail hL]
    simp
  base_size := h.base_size
  sorted := by
    rw [exists_cons_tail hL]
    obtain ⟨hA, huC, hcross⟩ := pairwise_append.mp h.sorted
    obtain ⟨hu, hC⟩ := pairwise_cons.mp huC
    refine pairwise_append.mpr ⟨hA, pairwise_cons.mpr ⟨fun w hw => ?_,
      pairwise_cons.mpr ⟨h.behind, hC⟩⟩, fun w hw v hv => ?_⟩
    · rcases mem_cons.mp hw with rfl | hw
      · exact hgap
      · exact hu w hw
    · rcases mem_cons.mp hv with rfl | hv
      · exact hcross w hw v mem_cons_self
      rcases mem_cons.mp hv with rfl | hv
      · exact h.before w hw
      · exact hcross w hw v (mem_cons_of_mem u hv)
  tiles := h.tiles
  low := hlow
  high := hhigh

theorem Placed.join (hbase : base < bp) (htouch : u + HEADER * s.size u = bp) :
    u ∈ (A ++ u :: C').tail ∧ u ∉ live ∧ Ready base { s with
      size := update s.size u (s.size u + s.size bp),
      ptr := update s.ptr u (s.ptr bp),
      freep := u } (A ++ u :: C').tail live := by
  have hne : u ≠ base := by
    rintro rfl
    rw [h.base_size] at htouch
    omega
  obtain ⟨A, rfl⟩ : ∃ A', A = base :: A' := by
    cases A with
    | nil => exact absurd (List.cons.inj hL).1.symm hne
    | cons b A => exact ⟨A, by rw [(List.cons.inj hL).1]⟩
  have hnodup := h.nodup
  rw [cons_append, tail_cons] at hnodup
  have hperm : (A ++ u :: bp :: C' ++ live).Perm (u :: bp :: (A ++ C' ++ live)) := by
    have hnodes : (A ++ u :: bp :: C').Perm (u :: bp :: (A ++ C')) :=
      perm_middle.trans (List.Perm.cons u perm_middle)
    exact hnodes.append_right live
  have hnodup' := hperm.nodup_iff.mp hnodup
  have hu : u ∉ bp :: (A ++ C' ++ live) := (nodup_cons.mp hnodup').1
  have hubp : u ≠ bp := fun heq => hu (heq ▸ mem_cons_self)
  have hsize : ∀ a ≠ u, update s.size u (s.size u + s.size bp) a = s.size a :=
    fun a ha => update_of_ne ha ..
  have hkeep : ∀ a ∈ A ++ C' ++ live, update s.size u (s.size u + s.size bp) a = s.size a := by
    intro a ha
    refine hsize a ?_
    rintro rfl
    exact hu (mem_cons_of_mem bp ha)
  refine ⟨by simp, fun hmem => hu (by simp [hmem]), ?_⟩
  rw [cons_append, tail_cons]
  refine ⟨?_, ?_, ?_, ?_, ?_, hlow, hhigh⟩
  · have hremove := h.circle.remove fun hmem => ?_
    · rw [update_of_ne hubp.symm, update_idem] at hremove
      exact (circle_at (A := base :: A) rfl).mpr hremove
    · rcases mem_cons.mp hmem with heq | hmem
      · exact hubp heq
      rcases mem_append.mp hmem with hmem | hmem
      · exact hu (by simp [hmem])
      rcases mem_cons.mp hmem with heq | hmem
      · exact hne heq
      · exact hu (by simp [hmem])
  · simp
  · exact (hsize base hne.symm).trans h.base_size
  · have hsorted := h.sorted
    rw [← cons_append]
    obtain ⟨hA, huC, hcross⟩ := pairwise_append.mp hsorted
    obtain ⟨-, hC⟩ := pairwise_cons.mp huC
    refine pairwise_append.mpr ⟨?_, pairwise_cons.mpr ⟨fun w hw => ?_, ?_⟩, fun w hw v hv => ?_⟩
    · refine hA.imp_of_mem fun {a b} ha _ hab => ?_
      dsimp only
      rcases mem_cons.mp ha with rfl | ha
      · rwa [hsize _ hne.symm]
      · rwa [hkeep a (by simp [ha])]
    · have hbehind := h.behind w hw
      dsimp only
      rw [update_self, Nat.mul_add]
      omega
    · refine hC.imp_of_mem fun {a b} ha _ hab => ?_
      dsimp only
      rwa [hkeep a (by simp [ha])]
    · have hwv := hcross w hw v hv
      dsimp only
      rcases mem_cons.mp hw with rfl | hw
      · rwa [hsize _ hne.symm]
      · rwa [hkeep w (by simp [hw])]
  · have htiles := h.tiles
    rw [cons_append, tail_cons] at htiles
    have hpair := htiles.perm (hperm.map (blk s))
    rw [map_cons, map_cons, blk, blk, ← htouch] at hpair
    have hjoin := hpair.join eight_pos
    rw [htouch] at hjoin
    refine hjoin.perm ?_
    have hmap : (A ++ C' ++ live).map (blk s) = (A ++ C' ++ live).map (blk { s with
        size := update s.size u (s.size u + s.size bp),
        ptr := update s.ptr u (s.ptr bp),
        freep := u }) := map_blk_congr fun a ha => (hkeep a ha).symm
    have hu' : (u, s.size u + s.size bp) = blk { s with
        size := update s.size u (s.size u + s.size bp),
        ptr := update s.ptr u (s.ptr bp),
        freep := u } u := congrArg (Prod.mk u) (update_self u (s.size u + s.size bp) s.size).symm
    rw [hmap, hu', ← map_cons]
    exact (perm_middle.append_right live).symm.map _

end

end

theorem joinPrev_ready {C' : List ℕ} (hL : base :: L = A ++ u :: C)
    (h : Placed base s A u bp C' live)
    (hbase : base < bp) (hlow : ∀ c ∈ s.areas, base + HEADER ≤ c.1)
    (hhigh : ∀ c ∈ s.areas, c.1 + HEADER * c.2 < 2 ^ 32) :
    ∃ L', Ready base { joinPrev s bp u with freep := u } L' live ∧
      (joinPrev s bp u).areas = s.areas ∧ (∃ b ∈ L', s.size bp ≤ (joinPrev s bp u).size b) ∧
      ∀ a ∈ live, (joinPrev s bp u).size a = s.size a := by
  have hend := h.end_lt hL hhigh
  have htouch := h.touch
  have hadd : add u (s.size u) = u + HEADER * s.size u := add_eq (by omega)
  unfold joinPrev
  rw [hadd]
  by_cases hjoin : u + HEADER * s.size u = bp
  · have hsum : (s.size u + s.size bp) % 2 ^ 32 = s.size u + s.size bp := by
      refine mod_eq_of_lt ?_
      change bp + 8 * s.size bp < 2 ^ 32 at hend
      change u + 8 * s.size u = bp at hjoin
      omega
    rw [if_pos hjoin, hsum]
    obtain ⟨hu, hulive, hready⟩ := h.join hL hlow hhigh hbase hjoin
    refine ⟨_, hready, rfl, ⟨u, hu, ?_⟩, fun a ha => ?_⟩
    · dsimp only
      rw [update_self]
      exact le_add_left _ _
    · refine update_of_ne ?_ ..
      rintro rfl
      exact hulive ha
  · rw [if_neg hjoin]
    exact ⟨_, h.link hL hlow hhigh (by omega), rfl, ⟨bp, h.bp_mem hL, le_refl _⟩, fun _ _ => rfl⟩

theorem free_ready (h : Ready base s L (bp :: live)) :
    ∃ t L', free s (bp + HEADER) = some t ∧ Ready base t L' live ∧ t.areas = s.areas ∧
      (∃ b ∈ L', s.size bp ≤ t.size b) ∧ ∀ a ∈ live, t.size a = s.size a := by
  have hbase := h.base_lt (mem_append_right L mem_cons_self)
  have hpos := eight_pos
  have hnodup := h.nodup
  have hsorted : (base :: L).Pairwise (· < ·) := h.sorted.imp fun {a b} hab => by omega
  have hbpL : bp ∉ L := fun hmem =>
    (nodup_append.mp hnodup).2.2 bp hmem bp mem_cons_self rfl
  obtain ⟨A, u, C, hL, hA, hu, hC⟩ := exists_place hsorted (by omega) hbpL
  obtain ⟨hstop, hgo⟩ := stop_iff h hL hA hu hC (by omega)
  have hfreep := h.freep
  have hlen := h.length_le
  rw [hL] at hfreep hlen
  have hfind : findPlace s bp (bound s) s.freep = some u := by
    refine findPlace_eq ((circle_at hL).mp h.circle) hgo hstop ?_ ?_
    · rw [mem_append, mem_cons] at hfreep
      rw [mem_cons, mem_append]
      tauto
    · rw [length_append, length_cons] at hlen
      rw [length_append]
      omega
  obtain ⟨C', hplaced, hsize, hareas, hother⟩ := joinNext_placed h hL hu hC
  obtain ⟨L', hready, hareas', ⟨b, hb, hle⟩, hlive⟩ := joinPrev_ready hL hplaced (by omega)
    (by rw [hareas]; exact h.low) (by rw [hareas]; exact h.high)
  refine ⟨_, L', ?_, hready, hareas'.trans hareas, ⟨b, hb, hsize.trans hle⟩, fun a ha => ?_⟩
  · rw [free, Nat.add_sub_cancel, hfind]
  · refine (hlive a ha).trans (hother a ?_)
    rintro rfl
    exact (bp_notMem h hL).2 ha

end Xv6Threads.Umalloc
