import Xv6Threads.UmallocFree

namespace Xv6Threads.Umalloc

open Tiling Circular Function List Option

variable {s t : Heap} {base u w nunits : ℕ} {L live A C : List ℕ} {sbrk : Sbrk}

theorem taken_perm (hL : base :: L = A ++ u :: w :: C) (live : List ℕ) :
    (L ++ live).Perm (w :: ((A ++ u :: C).tail ++ live)) := by
  rw [tail_eq hL]
  exact (tail_perm A u w C).append_right live

theorem taken_mem (hL : base :: L = A ++ u :: w :: C) (live : List ℕ) : w ∈ L ++ live :=
  (taken_perm hL live).mem_iff.mpr mem_cons_self

section
variable (h : Ready base s L live) (hL : base :: L = A ++ u :: w :: C)
include h hL

theorem Ready.unlink :
    Ready base { s with ptr := update s.ptr u (s.ptr w), freep := u } (A ++ u :: C).tail
      (w :: live) := by
  obtain ⟨hcircle, hu⟩ : Circle s.ptr u (w :: (C ++ A)) ∧ u ∉ w :: (C ++ A) := by
    refine ⟨(circle_at hL).mp h.circle, fun hmem => ?_⟩
    have hnodup := h.nodes_nodup
    rw [hL] at hnodup
    obtain ⟨-, hrest, hdisj⟩ := nodup_append.mp hnodup
    rw [← cons_append] at hmem
    rcases mem_append.mp hmem with hmem | hmem
    · exact (nodup_cons.mp hrest).1 hmem
    · exact hdisj u hmem u mem_cons_self rfl
  have hsub : (A ++ u :: C).Sublist (A ++ u :: w :: C) :=
    (List.Sublist.refl A).append ((sublist_cons_self w C).cons_cons u)
  refine ⟨(circle_at (exists_cons_tail hL)).mpr (hcircle.remove hu), ?_, h.base_size, ?_, ?_, h.low,
    h.high⟩
  · rw [exists_cons_tail hL]
    simp
  · rw [exists_cons_tail hL]
    have hsorted := h.sorted
    rw [hL] at hsorted
    exact hsorted.sublist hsub
  · refine h.tiles.perm (((taken_perm hL live).trans ?_).map _)
    exact perm_middle.symm

theorem Ready.cut {left : ℕ} (hleft : 0 < left) (hn : 0 < nunits)
    (hsize : s.size w = left + nunits) :
    w + HEADER * left ∉ L ++ live ∧ Ready base { s with
      size := update (update s.size w left) (w + HEADER * left) nunits,
      freep := u } L ((w + HEADER * left) :: live) := by
  have hperm := taken_perm hL live
  have hsplit := h.tiles.perm (hperm.map (blk s))
  rw [map_cons, blk, hsize] at hsplit
  replace hsplit := hsplit.split eight_pos hleft hn
  have hnew : w + HEADER * left ∉ L ++ live := by
    have hapart := (pairwise_cons.mp (pairwise_cons.mp hsplit.apart).2).1
    have hpos := eight_pos
    have hpos' := Nat.mul_pos eight_pos hn
    intro hmem
    rcases mem_cons.mp (hperm.mem_iff.mp hmem) with heq | hmem'
    · have := Nat.mul_pos eight_pos hleft
      omega
    · have hother := hapart (blk s (w + HEADER * left)) (mem_map_of_mem hmem')
      have hsz := Nat.mul_pos eight_pos (h.size_pos hmem)
      unfold Apart blk at hother
      dsimp only at hother
      omega
  have hwbase : base ≠ w := by
    have := h.base_lt (taken_mem hL live)
    have := eight_pos
    omega
  have hqbase : base ≠ w + HEADER * left := by
    have := h.base_lt (taken_mem hL live)
    have := eight_pos
    omega
  have hold : ∀ a ≠ w, a ≠ w + HEADER * left →
      update (update s.size w left) (w + HEADER * left) nunits a = s.size a := by
    intro a ha ha'
    rw [update_of_ne ha', update_of_ne ha]
  have hwq : w ≠ w + HEADER * left := by
    have := Nat.mul_pos eight_pos hleft
    omega
  have hw : update (update s.size w left) (w + HEADER * left) nunits w = left := by
    rw [update_of_ne hwq, update_self]
  refine ⟨hnew, h.circle, ?_, (hold base hwbase hqbase).trans h.base_size, ?_, ?_, h.low, h.high⟩
  · rw [hL]
    simp
  · refine h.sorted.imp_of_mem fun {a b} ha _ hab => ?_
    dsimp only
    by_cases haw : a = w
    · rw [haw, hsize, Nat.mul_add] at hab
      rw [haw, hw]
      omega
    · have haq : a ≠ w + HEADER * left := by
        rintro rfl
        rcases mem_cons.mp ha with heq | ha
        · exact hqbase heq.symm
        · exact hnew (mem_append_left live ha)
      rwa [hold a haw haq]
  · generalize ht : ({ s with
      size := update (update s.size w left) (w + HEADER * left) nunits,
      freep := u } : Heap) = t
    have htsize : t.size = update (update s.size w left) (w + HEADER * left) nunits := by
      rw [← ht]
    have hareas : t.areas = s.areas := by rw [← ht]
    have hrest : ((A ++ u :: C).tail ++ live).map (blk s) =
        ((A ++ u :: C).tail ++ live).map (blk t) := by
      refine map_blk_congr fun a ha => ?_
      have hnodup := hperm.nodup_iff.mp h.nodup
      rw [htsize]
      refine (hold a ?_ ?_).symm
      · rintro rfl
        exact (nodup_cons.mp hnodup).1 ha
      · rintro rfl
        exact hnew (hperm.mem_iff.mpr (mem_cons_of_mem w ha))
    have hfirst : (w, left) = blk t w := by rw [blk, htsize, hw]
    have hsecond : (w + HEADER * left, nunits) = blk t (w + HEADER * left) := by
      rw [blk, htsize, update_self]
    rw [hrest, hfirst, hsecond, ← map_cons, ← map_cons] at hsplit
    rw [hareas]
    refine hsplit.perm (List.Perm.map _ ?_)
    exact (List.Perm.swap _ _ _).trans ((List.Perm.cons _ hperm.symm).trans perm_middle.symm)

/-- What `malloc` returns is a block with the units that were asked for. -/
theorem Ready.taken (hn : 0 < nunits) (hsize : nunits ≤ s.size w) :
    ∃ q L', (take s u w nunits).1 = q + HEADER ∧ Ready base (take s u w nunits).2 L' (q :: live) ∧
      (take s u w nunits).2.size q = nunits ∧ ∀ a ∈ live, (take s u w nunits).2.size a =
      s.size a := by
  have hend := h.end_lt (taken_mem hL live)
  change w + 8 * s.size w < 2 ^ 32 at hend
  unfold Umalloc.take
  by_cases hexact : s.size w = nunits
  · rw [if_pos hexact]
    have hadd : add w 1 = w + HEADER := add_eq (by change w + 8 * 1 < 2 ^ 32; omega)
    exact ⟨w, _, hadd, h.unlink hL, hexact, fun _ _ => rfl⟩
  · rw [if_neg hexact]
    obtain ⟨left, hleft⟩ : ∃ left, s.size w = left + nunits := ⟨s.size w - nunits, by omega⟩
    have hpos : 0 < left := by omega
    rw [hleft, Nat.add_sub_cancel]
    have hq : add w left = w + HEADER * left := add_eq (by change w + 8 * left < 2 ^ 32; omega)
    have hadd : add (w + HEADER * left) 1 = w + HEADER * left + HEADER :=
      add_eq (by change w + 8 * left + 8 * 1 < 2 ^ 32; omega)
    dsimp only
    rw [hq, hadd]
    obtain ⟨hnew, hready⟩ := h.cut hL hpos hn hleft
    refine ⟨w + HEADER * left, L, rfl, hready, update_self .., fun a ha => ?_⟩
    have hwlive : a ≠ w := by
      rintro rfl
      have hnodup := (taken_perm hL live).nodup_iff.mp h.nodup
      exact (nodup_cons.mp hnodup).1 (mem_append_right _ ha)
    have hqlive : a ≠ w + HEADER * left := by
      rintro rfl
      exact hnew (mem_append_right L ha)
    rw [update_of_ne hqlive, update_of_ne hwlive]

end

theorem search_walk {D : List ℕ} {prevp p q : ℕ}
    (hchain : List.IsChain (fun u v => s.ptr u = v) (D ++ [q]))
    (hD : ∀ w ∈ D, s.size w < nunits ∧ w ≠ s.freep) (hp : (D ++ [q]).head? = some p) (turns : ℕ) :
    search sbrk nunits (D.length + turns) prevp p s =
      search sbrk nunits turns (D.getLastD prevp) q s := by
  induction D generalizing p prevp with
  | nil =>
    obtain rfl := some.inj hp
    rw [length_nil, Nat.zero_add, getLastD_nil]
  | cons w D ih =>
    obtain rfl := some.inj hp
    obtain ⟨hsmall, hne⟩ := hD w mem_cons_self
    rw [length_cons, Nat.add_right_comm, search, if_neg (by omega), if_neg hne, getLastD_cons]
    refine ih hchain.tail (fun v hv => hD v (mem_cons_of_mem w hv)) ?_
    cases D with
    | nil | cons v D => rw [(isChain_cons_cons.mp hchain).1]; rfl

theorem Ready.round (h : Ready base s L live) :
    ∃ R, (R ++ [s.freep]).Perm (base :: L) ∧ Circle s.ptr s.freep R ∧ (R ++ [s.freep]).Nodup := by
  obtain ⟨A, C, hL⟩ := append_of_mem h.freep
  have hperm : (C ++ A ++ [s.freep]).Perm (base :: L) := by
    rw [hL]
    refine (perm_append_singleton _ _).trans (List.Perm.trans ?_ perm_middle.symm)
    exact List.Perm.cons _ perm_append_comm
  exact ⟨C ++ A, hperm, (circle_at hL).mp h.circle, hperm.nodup_iff.mpr h.nodes_nodup⟩

theorem head?_of_chain {R : List ℕ} {f q : ℕ}
    (h : List.IsChain (fun u v => s.ptr u = v) (f :: (R ++ [q]))) : (R ++ [q]).head? =
    some (s.ptr f) := by
  cases R with
  | nil | cons v R => exact congrArg some (isChain_cons_cons.mp h).1.symm

/-- A block that is large enough is found, with the one before it. -/
theorem Ready.search_found (h : Ready base s L live) (sbrk : Sbrk) (hn : 0 < nunits)
    (hlarge : ∃ w ∈ L, nunits ≤ s.size w) {turns : ℕ} (hturns : (base :: L).length ≤ turns) :
    ∃ A u w C, base :: L = A ++ u :: w :: C ∧ nunits ≤ s.size w ∧
      search sbrk nunits turns s.freep (s.ptr s.freep) s = some (take s u w nunits) := by
  obtain ⟨R, hperm, hcircle, hnodup⟩ := h.round
  obtain ⟨v, hv, hvsize⟩ := hlarge
  cases hfind : (R ++ [s.freep]).find? fun w => decide (nunits ≤ s.size w) with
  | none =>
    have hno := List.find?_eq_none.mp hfind v (hperm.mem_iff.mpr (mem_cons_of_mem base hv))
    exact absurd hvsize (by simpa using hno)
  | some w =>
    obtain ⟨hw, R₁, R₂, hR, hsmall⟩ := List.find?_eq_some_iff_append.mp hfind
    replace hw : nunits ≤ s.size w := by simpa using hw
    have hwmem : w ∈ base :: L := hperm.mem_iff.mp (by rw [hR]; simp)
    -- the search has not come back to `freep`
    have hfreep : s.freep ∉ R₁ := by
      intro hmem
      have hlast : s.freep ∈ w :: R₂ := by
        have hget : (R₁ ++ w :: R₂).getLast? = some s.freep := by rw [← hR]; simp
        rw [List.getLast?_append_of_ne_nil _ (cons_ne_nil w R₂)] at hget
        exact mem_of_getLast? hget
      rw [hR] at hnodup
      exact (nodup_append.mp hnodup).2.2 _ hmem _ hlast rfl
    have hchain : List.IsChain (fun u v => s.ptr u = v) (s.freep :: (R₁ ++ [w])) := by
      have hall : List.IsChain (fun u v => s.ptr u = v) (s.freep :: (R ++ [s.freep])) := hcircle
      rw [hR, ← cons_append] at hall
      exact (isChain_split.mp hall).1
    have hD : ∀ v ∈ R₁, s.size v < nunits ∧ v ≠ s.freep := by
      intro v hv
      refine ⟨by simpa using hsmall v hv, ?_⟩
      rintro rfl
      exact hfreep hv
    have hwbase : w ≠ base := by
      rintro rfl
      rw [h.base_size] at hw
      omega
    obtain ⟨B, C, hB⟩ := append_of_mem ((mem_cons.mp hwmem).resolve_left hwbase)
    obtain ⟨A, u, hA⟩ : ∃ A u, base :: B = A ++ [u] :=
      ⟨(base :: B).dropLast, (base :: B).getLast (cons_ne_nil base B),
        (dropLast_append_getLast (cons_ne_nil base B)).symm⟩
    have hL : base :: L = A ++ u :: w :: C := by
      rw [hB, ← cons_append, hA, append_assoc]
      rfl
    have hprev : R₁.getLastD s.freep = u := by
      have hmem : R₁.getLastD s.freep ∈ base :: L := by
        refine hperm.mem_iff.mp ?_
        rcases mem_cons.mp (getLastD_mem_cons : R₁.getLastD s.freep ∈ s.freep :: R₁) with heq | hmem
        · rw [heq]
          simp
        · rw [hR]
          exact mem_append_left _ hmem
      refine h.circle.injOn h.nodes_nodup hmem (by rw [hL]; simp) ?_
      rw [next_getLastD hchain, next_eq h.circle hL, headD_cons]
    have hlen : R₁.length < turns := by
      have hcount := hperm.length_eq
      rw [hR, length_append, length_cons] at hcount
      omega
    obtain ⟨k, rfl⟩ : ∃ k, turns = R₁.length + (k + 1) := ⟨turns - R₁.length - 1, by omega⟩
    refine ⟨A, u, w, C, hL, hw, ?_⟩
    rw [search_walk hchain.tail hD (head?_of_chain hchain), search, if_pos hw, hprev]

/-- When no block is large enough, the search comes back to `freep`. -/
theorem Ready.search_full (h : Ready base s L live) (hsmall : ∀ w ∈ base :: L, s.size w < nunits)
    (turns : ℕ) :
    search sbrk nunits ((base :: L).length + turns) s.freep (s.ptr s.freep) s =
      match morecore sbrk s nunits with
      | none => none
      | some none => some (0, s)
      | some (some s) => search sbrk nunits turns s.freep (s.ptr s.freep) s := by
  obtain ⟨R, hperm, hcircle, hnodup⟩ := h.round
  have hD : ∀ v ∈ R, s.size v < nunits ∧ v ≠ s.freep := by
    intro v hv
    refine ⟨hsmall v (hperm.mem_iff.mp (mem_append_left _ hv)), ?_⟩
    rintro rfl
    exact (nodup_append.mp hnodup).2.2 _ hv _ mem_cons_self rfl
  have hlen : (base :: L).length + turns = R.length + (turns + 1) := by
    rw [← hperm.length_eq, length_append, length_singleton]
    omega
  have hfreep := hsmall s.freep h.freep
  rw [hlen, search_walk (List.IsChain.tail hcircle) hD (head?_of_chain hcircle), search,
    if_neg (by omega)]
  exact if_pos rfl

theorem le_coreUnits (nu : ℕ) : nu ≤ coreUnits nu ∧ 0 < coreUnits nu := by
  unfold coreUnits
  split_ifs <;> omega

theorem amount_eq {nu : ℕ} (h : HEADER * nu < 2 ^ 31) : amount nu = (HEADER * nu : ℕ) := by
  rw [amount, BitVec.toInt_ofNat', Nat.mul_comm, Int.bmod_eq_of_le (by omega) (by omega)]

theorem coreUnits_small {nu : ℕ} (h : HEADER * nu < 2 ^ 31) : HEADER * coreUnits nu < 2 ^ 31 := by
  unfold coreUnits
  split_ifs
  · decide
  · exact h

theorem Ready.grow (h : Ready base s L live) {hp nu : ℕ} (hnu : 0 < nu) (hbase : base + HEADER ≤ hp)
    (habove : ∀ c ∈ s.areas, c.1 + HEADER * c.2 ≤ hp) (hend : hp + HEADER * nu < 2 ^ 32) :
    hp ∉ live ∧ Ready base { s with size := update s.size hp nu, areas := (hp, nu) :: s.areas } L
      (hp :: live) := by
  have hbelow : ∀ a ∈ L ++ live, a ≠ hp := by
    rintro a ha rfl
    have hle := h.tiles.le eight_pos habove (mem_map_of_mem (f := blk s) ha)
    have hpos := Nat.mul_pos eight_pos (h.size_pos ha)
    change a + HEADER * s.size a ≤ a at hle
    omega
  have hne : base ≠ hp := by
    have := eight_pos
    omega
  have hsize : ∀ a ≠ hp, update s.size hp nu a = s.size a :=
    fun a ha => update_of_ne ha ..
  refine ⟨fun hmem => hbelow hp (mem_append_right L hmem) rfl, h.circle, h.freep,
    (hsize base hne).trans h.base_size, ?_, ?_, ?_, ?_⟩
  · refine h.sorted.imp_of_mem fun {a b} ha _ hab => ?_
    dsimp only
    rcases mem_cons.mp ha with rfl | ha
    · rwa [hsize _ hne]
    · rwa [hsize a (hbelow a (mem_append_left live ha))]
  · have hextend := h.tiles.extend eight_pos (b := (hp, nu)) hnu habove
    generalize ht : ({ s with size := update s.size hp nu, areas := (hp, nu) :: s.areas } : Heap) =
      t
    have htsize : t.size = update s.size hp nu := by rw [← ht]
    have hareas : t.areas = (hp, nu) :: s.areas := by rw [← ht]
    have hrest : (L ++ live).map (blk s) = (L ++ live).map (blk t) := by
      refine map_blk_congr fun a ha => ?_
      rw [htsize, hsize a (hbelow a ha)]
    have hfirst : (hp, nu) = blk t hp := by rw [blk, htsize, update_self]
    rw [hareas]
    rw [hrest] at hextend
    refine hextend.perm ?_
    rw [hfirst, ← map_cons]
    exact perm_middle.symm.map _
  · intro c hc
    rcases mem_cons.mp hc with rfl | hc
    · exact hbase
    · exact h.low c hc
  · intro c hc
    rcases mem_cons.mp hc with rfl | hc
    · exact hend
    · exact h.high c hc

theorem Ready.morecore (h : Ready base s L live) (hsbrk : Fresh base sbrk) {nu : ℕ}
    (hnu : HEADER * nu < 2 ^ 31) :
    morecore sbrk s nu = some none ∨
    ∃ t L', morecore sbrk s nu = some (some t) ∧ Ready base t L' live ∧
      bound t = bound s + coreUnits nu ∧ (∃ b ∈ L', nu ≤ t.size b) ∧
      ∀ a ∈ live, t.size a = s.size a := by
  obtain ⟨hle, hpos⟩ := le_coreUnits nu
  unfold Umalloc.morecore
  dsimp only
  rw [amount_eq (coreUnits_small hnu), Int.toNat_natCast, Nat.mul_div_cancel_left _ eight_pos]
  cases hp : sbrk s.areas (HEADER * coreUnits nu : ℕ) with
  | none => exact .inl rfl
  | some p =>
    obtain ⟨hbase, habove, hend⟩ := hsbrk _ _ _ hp
    rw [Int.toNat_natCast] at hend
    obtain ⟨hplive, hgrown⟩ := h.grow hpos hbase habove hend
    obtain ⟨t, L', hfree, hready, hareas, ⟨b, hb, hbsize⟩, hsize⟩ := free_ready hgrown
    dsimp only at hareas hbsize
    rw [update_self] at hbsize
    refine .inr ⟨t, L', by simp only [hfree, map_some], hready, ?_, ⟨b, hb, hle.trans hbsize⟩,
      fun a ha => ?_⟩
    · rw [bound, bound, hareas, map_cons, sum_cons]
      omega
    · refine (hsize a ha).trans (update_of_ne ?_ ..)
      rintro rfl
      exact hplive ha

/-- The block that is returned, if there is one, has the units that were asked for. -/
def Returned (base : ℕ) (s : Heap) (live : List ℕ) (nunits : ℕ) (r : ℕ × Heap) : Prop :=
  (∀ a ∈ live, r.2.size a = s.size a) ∧
  ((r.1 = 0 ∧ r.2 = s ∧ ∃ L, Ready base r.2 L live) ∨
    ∃ q L, r.1 = q + HEADER ∧ Ready base r.2 L (q :: live) ∧ r.2.size q = nunits)

theorem Ready.search (h : Ready base s L live) (hsbrk : Fresh base sbrk) (hn : 0 < nunits)
    (hsize : HEADER * nunits < 2 ^ 31) :
    ∃ r, search sbrk nunits (2 * bound s + coreUnits nunits) s.freep (s.ptr s.freep) s = some r ∧
      Returned base s live nunits r := by
  have hlen := h.length_le
  by_cases hlarge : ∃ w ∈ L, nunits ≤ s.size w
  · obtain ⟨A, u, w, C, hL, hw, hsearch⟩ := h.search_found sbrk hn hlarge
      (by omega : (base :: L).length ≤ 2 * bound s + coreUnits nunits)
    obtain ⟨q, L', hq, hready, hsize, hkeep⟩ := h.taken hL hn hw
    exact ⟨_, hsearch, hkeep, .inr ⟨q, L', hq, hready, hsize⟩⟩
  · have hsmall : ∀ w ∈ base :: L, s.size w < nunits := by
      intro w hw
      rcases mem_cons.mp hw with rfl | hw
      · rw [h.base_size]
        exact hn
      · exact Nat.lt_of_not_le fun hle => hlarge ⟨w, hw, hle⟩
    obtain ⟨k, hk⟩ : ∃ k, 2 * bound s + coreUnits nunits = (base :: L).length + k :=
      ⟨2 * bound s + coreUnits nunits - (base :: L).length, by omega⟩
    rw [hk, h.search_full hsmall]
    rcases h.morecore hsbrk hsize with
      hnone | ⟨t, L', hmore, hready, hbound, ⟨b, hb, hbsize⟩, hkeep⟩
    · rw [hnone]
      exact ⟨_, rfl, fun _ _ => rfl, .inl ⟨rfl, rfl, L, h⟩⟩
    · rw [hmore]
      have hlen' := hready.length_le
      obtain ⟨A, u, w, C, hL, hw, hsearch⟩ := hready.search_found sbrk hn ⟨b, hb, hbsize⟩
        (by omega : (base :: L').length ≤ k)
      obtain ⟨q, L'', hq, hready', hsize, hkeep'⟩ := hready.taken hL hn hw
      exact ⟨_, hsearch, fun a ha => (hkeep' a ha).trans (hkeep a ha),
        .inr ⟨q, L'', hq, hready', hsize⟩⟩

theorem Ready.setup (h : Ready base s L live) (hbase : 0 < base) : setup base s = s := by
  have hne : s.freep ≠ 0 := by
    rcases mem_cons.mp h.freep with heq | hmem
    · omega
    · have := h.base_lt (mem_append_left live hmem)
      omega
  rw [Umalloc.setup, if_neg hne]

theorem ready_setup (base : ℕ) (hfreep : s.freep = 0) (hareas : s.areas = []) :
    Ready base (setup base s) [] [] := by
  rw [setup, if_pos hfreep]
  refine ⟨?_, mem_cons_self, update_self .., pairwise_singleton _ _, ?_, ?_, ?_⟩
  · exact isChain_cons_cons.mpr ⟨update_self .., isChain_singleton _⟩
  · dsimp only
    rw [hareas]
    exact ⟨nofun, List.Pairwise.nil, fun _ => Iff.rfl, rfl⟩
  · dsimp only
    rw [hareas]
    exact nofun
  · dsimp only
    rw [hareas]
    exact nofun

/-- The free list and the blocks in use of a program. -/
structure Kept (base : ℕ) (s : Sys) (L : List ℕ) : Prop where
  ready : Ready base s.heap L (s.live.map header)
  live : ∀ q ∈ s.live, header q + HEADER = q.1

/-- A block in use has room for what was asked for. -/
structure Good (base : ℕ) (s : Sys) (L : List ℕ) : Prop extends Kept base s L where
  room : ∀ q ∈ s.live, q.2 + HEADER ≤ HEADER * s.heap.size (header q)

def Inv (base : ℕ) (s : Sys) : Prop := Start s ∨ ∃ L, Kept base s L

theorem units_eq {n : ℕ} (h : Small n) : units n = (n + HEADER - 1) / HEADER + 1 := by
  change 8 * ((n + 8 - 1) / 8 + 1) < 2 ^ 31 at h
  change (n + 8 - 1) % 2 ^ 32 / 8 + 1 = (n + 8 - 1) / 8 + 1
  rw [Nat.mod_eq_of_lt (by omega)]

theorem Small.runnable {n : ℕ} (h : Small n) : Runnable n := by
  rw [Runnable, units_eq h]
  exact h

theorem units_le {n : ℕ} (h : Small n) : n + HEADER ≤ HEADER * units n := by
  rw [units_eq h]
  change n + 8 ≤ 8 * ((n + 8 - 1) / 8 + 1)
  omega

theorem Inv.returned {s : Sys} (h : Inv base s) (hbase : 0 < base) (hsbrk : Fresh base sbrk)
    {nbytes : ℕ} (hsize : Runnable nbytes) : (∃ r, malloc base sbrk s.heap nbytes = some r ∧
      Returned base (setup base s.heap) (s.live.map header) (units nbytes) r) ∧
    (setup base s.heap).areas = s.heap.areas ∧
    ∀ q ∈ s.live, (setup base s.heap).size (header q) = s.heap.size (header q) ∧
      header q + HEADER = q.1 := by
  have hpos : 0 < units nbytes := Nat.succ_pos _
  rcases h with ⟨hfreep, hareas, hempty⟩ | ⟨L, hready, hlive⟩
  · refine ⟨?_, by rw [setup, if_pos hfreep], ?_⟩
    · rw [hempty]
      exact (ready_setup base hfreep hareas).search hsbrk hpos hsize
    · rw [hempty]
      exact nofun
  · rw [Umalloc.malloc, hready.setup hbase]
    exact ⟨hready.search hsbrk hpos hsize, rfl, fun q hq => ⟨rfl, hlive q hq⟩⟩

/-- Each block in use after the step was in use before, with the same units, or has just been
allocated with the units for its request. -/
def Frame (s : Sys) (a : Act) (t : Sys) : Prop := ∀ q ∈ t.live,
  q ∈ s.live ∧ t.heap.size (header q) = s.heap.size (header q) ∨
  ∃ sbrk, a = .malloc q.2 sbrk ∧ t.heap.size (header q) = units q.2

theorem Inv.malloc {s : Sys} (h : Inv base s) (hbase : 0 < base) {nbytes : ℕ}
    (hsize : Runnable nbytes) (hsbrk : Fresh base sbrk) :
    ∃ t, step base s (.malloc nbytes sbrk) = some t ∧ Inv base t ∧
      Frame s (.malloc nbytes sbrk) t := by
  obtain ⟨⟨⟨p, heap⟩, hr, hkeep, hcase⟩, -, hlive⟩ := h.returned hbase hsbrk hsize
  have hold : ∀ q ∈ s.live, heap.size (header q) = s.heap.size (header q) := fun q hq =>
    (hkeep (header q) (mem_map_of_mem hq)).trans (hlive q hq).1
  refine ⟨⟨heap, if p = 0 then s.live else (p, nbytes) :: s.live⟩,
    by rw [Umalloc.step, hr, map_some], ?_⟩
  rcases hcase with ⟨hnull, -, L, hready⟩ | ⟨q, L, hq, hready, hunits⟩
  · rw [if_pos hnull]
    exact ⟨.inr ⟨L, hready, fun q hq => (hlive q hq).2⟩, fun q hq => .inl ⟨hq, hold q hq⟩⟩
  · dsimp only at hq hunits
    have hheader : header (p, nbytes) = q := by rw [header, hq, Nat.add_sub_cancel]
    rw [if_neg (by rw [hq]; exact Nat.succ_ne_zero _)]
    refine ⟨.inr ⟨L, by rwa [map_cons, hheader], fun q' hq' => ?_⟩, fun q' hq' => ?_⟩
    · rcases mem_cons.mp hq' with rfl | hq'
      · rw [hheader]
        exact hq.symm
      · exact (hlive q' hq').2
    · rcases mem_cons.mp hq' with rfl | hq'
      · exact .inr ⟨sbrk, rfl, by rw [hheader]; exact hunits⟩
      · exact .inl ⟨hq', hold q' hq'⟩

theorem Ready.perm {live' : List ℕ} (h : Ready base s L live) (hp : live.Perm live') :
    Ready base s L live' :=
  { h with tiles := h.tiles.perm ((hp.append_left L).map _) }

theorem Kept.free {s : Sys} (h : Kept base s L) {ap n : ℕ} (hap : (ap, n) ∈ s.live) :
    ∃ t L', step base s (.free ap) = some t ∧ Kept base t L' ∧ Frame s (.free ap) t := by
  obtain ⟨l₁, l₂, hl⟩ := append_of_mem hap
  have hheader := h.live _ hap
  have hnodup := (nodup_append.mp h.ready.nodup).2.1
  -- the pointer is in the list once
  have hother : ∀ q ∈ l₁ ++ l₂, q.1 ≠ ap := by
    intro q hq heq
    have hmem : header (ap, n) ∈ (l₁ ++ l₂).map header := by
      rw [show header (ap, n) = header q by rw [header, header, heq]]
      exact mem_map_of_mem hq
    rw [hl, map_append, map_cons] at hnodup
    have hperm := perm_middle.nodup_iff.mp hnodup
    rw [← map_append] at hperm
    exact (nodup_cons.mp hperm).1 hmem
  have hfilter : (s.live.filter fun q => q.1 ≠ ap) = l₁ ++ l₂ := by
    rw [hl, filter_append, filter_cons_of_neg (by simp), ← filter_append]
    exact filter_eq_self.mpr fun q hq => by simpa using hother q hq
  have hready : Ready base s.heap L (header (ap, n) :: (l₁ ++ l₂).map header) := by
    refine h.ready.perm ?_
    rw [hl, map_append, map_cons, map_append]
    exact perm_middle
  obtain ⟨heap, L', hfree, hready', -, -, hkeep⟩ := free_ready hready
  rw [hheader] at hfree
  have hold : ∀ q ∈ l₁ ++ l₂, q ∈ s.live := by
    intro q hq
    rw [hl]
    rcases mem_append.mp hq with hq | hq
    · exact mem_append_left _ hq
    · exact mem_append_right _ (mem_cons_of_mem _ hq)
  refine ⟨⟨heap, l₁ ++ l₂⟩, L', by rw [Umalloc.step, hfree, map_some, hfilter],
    ⟨hready', fun q hq => h.live q (hold q hq)⟩, fun q hq => .inl ⟨hold q hq, ?_⟩⟩
  exact hkeep (header q) (mem_map_of_mem hq)

/-- What a program writes to its blocks is not part of a header. -/
theorem Kept.write {s : Sys} (h : Kept base s L) {ptr size : ℕ → ℕ}
    (hwrite : ∀ x, (∀ q ∈ s.live, x ≤ header q ∨ header q + HEADER * s.heap.size (header q) ≤ x) →
      ptr x = s.heap.ptr x ∧ size x = s.heap.size x) :
    Kept base { s with heap := { s.heap with ptr := ptr, size := size } } L ∧
    Frame s (.write ptr size) { s with heap := { s.heap with ptr := ptr, size := size } } := by
  have hsame : ∀ x ∈ L ++ s.live.map header, ptr x = s.heap.ptr x ∧ size x = s.heap.size x := by
    intro x hx
    refine hwrite x fun q hq => ?_
    by_cases heq : x = header q
    · exact .inl heq.le
    · have hq' : header q ∈ L ++ s.live.map header := mem_append_right L (mem_map_of_mem hq)
      have hapart := h.ready.tiles.apart_of_ne (mem_map_of_mem (f := blk s.heap) hx)
        (mem_map_of_mem hq') fun hblk => heq (congrArg Prod.fst hblk)
      unfold Apart blk at hapart
      dsimp only at hapart
      omega
  have hbase : ptr base = s.heap.ptr base ∧ size base = s.heap.size base := by
    refine hwrite base fun q hq => .inl ?_
    have := h.ready.base_lt (mem_append_right L (mem_map_of_mem (f := header) hq))
    omega
  have hnodes : ∀ x ∈ base :: L, ptr x = s.heap.ptr x ∧ size x = s.heap.size x := by
    intro x hx
    rcases mem_cons.mp hx with rfl | hx
    · exact hbase
    · exact hsame x (mem_append_left _ hx)
  refine ⟨⟨⟨?_, h.ready.freep, hbase.2.trans h.ready.base_size, ?_, ?_, h.ready.low, h.ready.high⟩,
    h.live⟩, fun q hq => .inl ⟨hq, ?_⟩⟩
  · exact h.ready.circle.congr fun x hx => (hnodes x hx).1
  · refine h.ready.sorted.imp_of_mem fun {a b} ha _ hab => ?_
    dsimp only
    rwa [(hnodes a ha).2]
  · have hmap : (L ++ s.live.map header).map (blk s.heap) =
        (L ++ s.live.map header).map (blk { s.heap with ptr := ptr, size := size }) :=
      map_blk_congr fun a ha => (hsame a ha).2.symm
    have htiles := h.ready.tiles
    rwa [hmap] at htiles
  · exact (hsame (header q) (mem_append_right L (mem_map_of_mem hq))).2

theorem Inv.step {s : Sys} (h : Inv base s) (hbase : 0 < base) {a : Act}
    (ha : Allowed Runnable base s a) : ∃ t, step base s a = some t ∧ Inv base t ∧ Frame s a t := by
  cases a with
  | malloc nbytes sbrk => exact h.malloc hbase ha.1 ha.2
  | free ap =>
    obtain ⟨n, hap⟩ := ha
    rcases h with ⟨-, -, hempty⟩ | ⟨L, hkept⟩
    · rw [hempty] at hap
      cases hap
    · obtain ⟨t, L', hstep, hkept', hframe⟩ := hkept.free hap
      exact ⟨t, hstep, .inr ⟨L', hkept'⟩, hframe⟩
  | write ptr size =>
    refine ⟨_, rfl, ?_⟩
    rcases h with hstart | ⟨L, hkept⟩
    · refine ⟨.inl hstart, fun q hq => ?_⟩
      rw [show s.live = [] from hstart.2.2] at hq
      cases hq
    · exact ⟨.inr ⟨L, (hkept.write ha).1⟩, (hkept.write ha).2⟩

theorem Running.inv (hbase : 0 < base) {s : Sys} (h : Running base s) : Inv base s := by
  apply Reach.invariant (P := Inv base) _ _ h
  · intro s hs
    exact .inl hs
  · intro s a t hs ha hstep
    obtain ⟨t', hstep', hinv, -⟩ := hs.step hbase ha
    rw [hstep] at hstep'
    obtain rfl := some.inj hstep'
    exact hinv

theorem Allowed.runnable {s : Sys} {a : Act} (h : Allowed Small base s a) :
    Allowed Runnable base s a := by
  cases a with
  | malloc nbytes sbrk => exact ⟨h.1.runnable, h.2⟩
  | free ap => exact h
  | write ptr size => exact h

theorem Reachable.running {s : Sys} (h : Reachable base s) : Running base s :=
  Reach.invariant (P := Running base) (fun _ hs => .start hs)
    (fun _ _ _ hs ha hstep => .step hs ha.runnable hstep) h

theorem Reachable.room (hbase : 0 < base) {s : Sys} (h : Reachable base s) :
    Inv base s ∧ ∀ q ∈ s.live, q.2 + HEADER ≤ HEADER * s.heap.size (header q) := by
  apply Reach.invariant (P := fun s => Inv base s ∧ ∀ q ∈ s.live,
    q.2 + HEADER ≤ HEADER * s.heap.size (header q)) _ _ h
  · intro s hs
    refine ⟨.inl hs, fun q hq => ?_⟩
    rw [hs.2.2] at hq
    cases hq
  · rintro s a t ⟨hs, hroom⟩ ha hstep
    obtain ⟨t', hstep', hinv, hframe⟩ := hs.step hbase ha.runnable
    rw [hstep] at hstep'
    obtain rfl := some.inj hstep'
    refine ⟨hinv, fun q hq => ?_⟩
    rcases hframe q hq with ⟨hq', hsize⟩ | ⟨sbrk, rfl, hsize⟩
    · rw [hsize]
      exact hroom q hq'
    · rw [hsize]
      exact units_le ha.1

/-- In every run the free list is a circle through `base`, in order of addresses but for one wrap
and with no two blocks adjacent, which with the blocks in use makes up the areas of `sbrk`; a block
in use has the bytes that were asked for; and every call returns. -/
theorem heap_ok {base : ℕ} (hbase : 0 < base) {s : Sys} (h : Reachable base s) :
    (Start s ∨ ∃ L, Good base s L) ∧ ∀ a, Allowed Small base s a → ∃ t, step base s a = some t := by
  obtain ⟨hinv, hroom⟩ := h.room hbase
  refine ⟨hinv.imp_right ?_, fun a ha => ?_⟩
  · rintro ⟨L, hkept⟩
    exact ⟨L, hkept, hroom⟩
  obtain ⟨t, hstep, -⟩ := hinv.step hbase ha.runnable
  exact ⟨t, hstep⟩

/-- Before the first `malloc`. -/
def empty : Heap := ⟨fun _ => 0, fun _ => 0, 0, []⟩

def oneArea : Sbrk := fun areas n => if areas = [] ∧ n = 32768 then some 8192 else none

theorem oneArea_fresh : Fresh 4096 oneArea := by
  intro areas n p hp
  unfold oneArea at hp
  split_ifs at hp with h
  obtain ⟨rfl, rfl⟩ := h
  obtain rfl := some.inj hp
  exact ⟨by decide, nofun, by decide⟩

/-- Requests for 10 and 20 bytes get the last units of the area, and the first block comes back. -/
theorem heap_ok_freed :
    ∃ s, Reachable 4096 s ∧ s.live = [(40912, 20)] ∧
      ((Start s ∨ ∃ L, Good 4096 s L) ∧
        ∀ a, Allowed Small 4096 s a → ∃ t, step 4096 s a = some t) := by
  have hstart : Reachable 4096 ⟨empty, []⟩ := .start ⟨rfl, rfl, rfl⟩
  have hrun : ((step 4096 ⟨empty, []⟩ (.malloc 10 oneArea)).bind fun s =>
      (step 4096 s (.malloc 20 oneArea)).bind fun t =>
        (step 4096 t (.free 40944)).map fun u => (t.live, u.live)) =
      some ([(40912, 20), (40944, 10)], [(40912, 20)]) := by decide +kernel
  obtain ⟨s, hs, hrun⟩ := bind_eq_some_iff.mp hrun
  obtain ⟨t, ht, hrun⟩ := bind_eq_some_iff.mp hrun
  obtain ⟨u, hu, hlive⟩ := map_eq_some_iff.mp hrun
  obtain ⟨htlive, hulive⟩ := Prod.mk.inj hlive
  have h1 : Reachable 4096 s := .step (a := .malloc 10 oneArea) hstart
    ⟨by unfold Small; decide, oneArea_fresh⟩ hs
  have h2 : Reachable 4096 t := .step (a := .malloc 20 oneArea) h1
    ⟨by unfold Small; decide, oneArea_fresh⟩ ht
  have h3 : Reachable 4096 u := .step (a := .free 40944) h2
    ⟨10, by rw [htlive]; exact mem_cons_of_mem _ mem_cons_self⟩ hu
  exact ⟨u, h3, hulive, heap_ok (by decide) h3⟩

/-- `malloc` has changed no block in use, and has returned 0 without more memory, or a block of the
areas that is apart from those in use. -/
def Right (s : Sys) (nbytes : ℕ) (r : Option (ℕ × Heap)) : Prop :=
  ∃ p heap, r = some (p, heap) ∧
    (∀ q ∈ s.live, heap.size (header q) = s.heap.size (header q)) ∧
    (p = 0 ∧ heap.areas = s.heap.areas ∨
      p ≠ 0 ∧ (∀ x, p ≤ x → x < p + nbytes → ∃ c ∈ heap.areas, Within HEADER c x) ∧
      ∀ q ∈ s.live, p + nbytes ≤ header q ∨ header q + HEADER * heap.size (header q) ≤ p)

theorem Inv.right {s : Sys} (h : Inv base s) (hbase : 0 < base) (hsbrk : Fresh base sbrk)
    {nbytes : ℕ} (hsmall : Small nbytes) : Right s nbytes
    (Umalloc.malloc base sbrk s.heap nbytes) := by
  obtain ⟨⟨⟨p, heap⟩, hr, hkeep, hcase⟩, hareas, hlive⟩ := h.returned hbase hsbrk hsmall.runnable
  refine ⟨p, heap, hr, fun q hq => ?_, ?_⟩
  · rw [hkeep _ (mem_map_of_mem hq), (hlive q hq).1]
  rcases hcase with ⟨hnull, hsame, -⟩ | ⟨b, L, hb, hready, hsize⟩
  · exact .inl ⟨hnull, (congrArg Heap.areas hsame).trans hareas⟩
  have hle := units_le hsmall
  have hpos := eight_pos
  dsimp only at hb hready hsize
  have hmem : b ∈ L ++ b :: s.live.map header := mem_append_right L mem_cons_self
  refine .inr ⟨by omega, fun x hx hlt => ?_, fun q hq => ?_⟩
  · rw [← hready.tiles.cover]
    refine ⟨blk heap b, mem_map_of_mem hmem, ?_, ?_⟩
    · change b ≤ x
      omega
    · change x < b + HEADER * heap.size b
      rw [hsize]
      omega
  · have hq' := mem_map_of_mem (f := header) hq
    have hne : b ≠ header q := by
      rintro rfl
      exact (nodup_cons.mp hready.nodup.of_append_right).1 hq'
    have hapart := hready.tiles.apart_of_ne (mem_map_of_mem hmem)
      (mem_map_of_mem (mem_append_right L (mem_cons_of_mem b hq')))
      fun heq => hne (congrArg Prod.fst heq)
    change b + HEADER * heap.size b ≤ header q ∨
      header q + HEADER * heap.size (header q) ≤ b at hapart
    rw [hsize] at hapart
    omega

theorem joinNext_areas (s : Heap) (bp p : ℕ) : (joinNext s bp p).areas = s.areas := by
  unfold joinNext
  dsimp only
  split_ifs <;> rfl

theorem joinPrev_areas (s : Heap) (bp p : ℕ) : (joinPrev s bp p).areas = s.areas := by
  unfold joinPrev
  split_ifs <;> rfl

theorem free_areas {ap : ℕ} (h : free s ap = some t) : t.areas = s.areas := by
  unfold free at h
  dsimp only at h
  split at h
  · cases h
  · obtain rfl := some.inj h
    exact (joinPrev_areas _ _ _).trans (joinNext_areas _ _ _)

theorem setup_areas (base : ℕ) (s : Heap) : (setup base s).areas = s.areas := by
  unfold setup
  split_ifs <;> rfl

/-- Whatever the request, the areas stay where `sbrk` may put them. -/
theorem search_areas {P : Block → Prop} (hsbrk : ∀ areas n p, sbrk areas n = some p →
      P (p, n.toNat / HEADER)) {r : ℕ × Heap} (turns : ℕ) : ∀ {prevp p : ℕ} {s : Heap},
    (∀ c ∈ s.areas, P c) → search sbrk nunits turns prevp p s = some r → ∀ c ∈ r.2.areas, P c := by
  induction turns with
  | zero =>
    intro prevp p s _ hrun
    cases hrun
  | succ turns ih =>
    intro prevp p s hs hrun
    rw [Umalloc.search] at hrun
    split_ifs at hrun with hlarge hround
    · obtain rfl := some.inj hrun
      unfold take
      split_ifs <;> exact hs
    · unfold morecore at hrun
      dsimp only at hrun
      cases hp : sbrk s.areas (amount (coreUnits nunits)) with
      | none =>
        rw [hp] at hrun
        obtain rfl := some.inj hrun
        exact hs
      | some hp' =>
        rw [hp] at hrun
        dsimp only at hrun
        generalize hfree : free _ _ = f at hrun
        cases f with
        | none => cases hrun
        | some t =>
          refine ih (fun c hc => ?_) hrun
          rw [free_areas hfree] at hc
          rcases mem_cons.mp hc with rfl | hc
          · exact hsbrk _ _ _ hp
          · exact hs c hc
    · exact ih hs hrun

/-- The end of user memory, `KERNBASE`. -/
abbrev userTop : ℕ := 2 ^ 31

/-- A stretch of the areas without blocks in use lies in one free block. -/
theorem Ready.stretch (h : Ready base s L live) {x n : ℕ} (hn : 0 < HEADER * n)
    (hfree : ∀ y, x ≤ y → y < x + HEADER * n →
      (∃ c ∈ s.areas, Within HEADER c y) ∧ ∀ a ∈ live, ¬Within HEADER (blk s a) y) :
    ∃ w ∈ L, n ≤ s.size w := by
  have hin : ∀ y, x ≤ y → y < x + HEADER * n → ∃ w ∈ L, w ≤ y ∧ y < w + HEADER * s.size w := by
    intro y hy hlt
    obtain ⟨b, hb, hwithin⟩ := (h.tiles.cover y).mpr (hfree y hy hlt).1
    obtain ⟨w, hw, rfl⟩ := mem_map.mp hb
    rcases mem_append.mp hw with hw | hw
    · exact ⟨w, hw, hwithin⟩
    · exact absurd hwithin ((hfree y hy hlt).2 w hw)
  obtain ⟨w, hw, hle, hlt⟩ := hin x le_rfl (by omega)
  refine ⟨w, hw, Nat.le_of_mul_le_mul_left ?_ eight_pos⟩
  by_contra hshort
  -- the free block that has the end of `w` would be adjacent to it
  obtain ⟨v, hv, hvle, hvlt⟩ := hin (w + HEADER * s.size w) (by omega) (by omega)
  have hsymm : Std.Symm fun u v => u + HEADER * s.size u < v ∨ v + HEADER * s.size v < u :=
    ⟨fun _ _ => Or.symm⟩
  have hgap := @Pairwise.forall _ _ _ hsymm ((pairwise_cons.mp h.sorted).2.imp Or.inl) w hw v hv
    (by rintro rfl; omega)
  omega

/-- But for the blocks in use there is no fragmentation: if they leave a stretch of the areas that
is long enough, then `malloc` succeeds without more memory. -/
theorem malloc_fits (hbase : 0 < base) {s : Sys} (h : Reachable base s) (sbrk : Sbrk)
    (nbytes x : ℕ) (hfree : ∀ y, x ≤ y → y < x + HEADER * units nbytes →
      (∃ c ∈ s.heap.areas, Within HEADER c y) ∧
        ∀ q ∈ s.live, ¬Within HEADER (blk s.heap (header q)) y) :
    ∃ p heap, malloc base sbrk s.heap nbytes = some (p, heap) ∧ p ≠ 0 ∧
      heap.areas = s.heap.areas := by
  have hunits : 0 < units nbytes := Nat.succ_pos _
  have hpos := Nat.mul_pos eight_pos hunits
  rcases h.running.inv hbase with ⟨-, hareas, -⟩ | ⟨L, hready, -⟩
  · obtain ⟨⟨c, hc, -⟩, -⟩ := hfree x le_rfl (by omega)
    rw [hareas] at hc
    cases hc
  · have hlarge := hready.stretch hpos (x := x) (by simpa only [List.forall_mem_map] using hfree)
    have hlen := hready.length_le
    obtain ⟨A, u, w, C, hL, hw, hsearch⟩ := hready.search_found sbrk hunits hlarge
      (by omega : _ ≤ 2 * bound s.heap + coreUnits (units nbytes))
    obtain ⟨q, -, hq, -⟩ := hready.taken hL hunits hw
    refine ⟨_, _, by rw [malloc, hready.setup hbase, hsearch], by rw [hq]; simp, ?_⟩
    unfold take
    split_ifs <;> rfl

/-- After a request for 10 bytes the rest of the area is there for the next one. -/
theorem malloc_fits_rest : ∃ s p heap, Reachable 4096 s ∧ s.live = [(40944, 10)] ∧
    malloc 4096 (fun _ _ => none) s.heap 32736 = some (p, heap) ∧ p ≠ 0 := by
  have hrun : (step 4096 ⟨empty, []⟩ (.malloc 10 oneArea)).map
      (fun s => (s.live, s.heap.areas)) = some ([(40944, 10)], [(8192, 4096)]) := by
    decide +kernel
  obtain ⟨s, hs, hvalues⟩ := map_eq_some_iff.mp hrun
  obtain ⟨hlive, hareas⟩ := Prod.mk.inj hvalues
  have hreach : Reachable 4096 s :=
    .step (.start ⟨rfl, rfl, rfl⟩) (a := .malloc 10 oneArea)
      ⟨by unfold Small; decide, oneArea_fresh⟩ hs
  have hunits : HEADER * units 32736 = 32744 := by decide
  obtain ⟨p, heap, hmalloc, hp, -⟩ := malloc_fits (by decide) hreach (fun _ _ => none)
    32736 8192 fun y hy hlt => by
      simp only [hareas, hlive, mem_singleton, exists_eq_left, forall_eq, Within, blk, header,
        HEADER]
      omega
  exact ⟨s, p, heap, hreach, hlive, hmalloc, hp⟩

end Xv6Threads.Umalloc
