import Xv6Threads.Fs.Calls
import Xv6Threads.Fs.Nodes

namespace Xv6Threads.Fs

open Bytes Function List Node

variable {sb : Superblock} {H H' : Multiset Ix} {L : Finset Ix} {V V' V'' : ℕ → Node}
  {s t u : Vol} {e : Ix} {n inum : ℕ} {name : Name} {E : Stop → Prop}

def Reaped (V V' : ℕ → Node) : Prop := ∀ m, V' m = V m ∨ (V m).nlink = 0 ∧ V' m = free

/-- File `n` has a link, or somebody holds it. -/
def Tended (H : Multiset Ix) (V : ℕ → Node) (s : Vol) (n : ℕ) : Prop :=
  (V n).type ≠ 0 → (V n).nlink = 0 → ∃ e ∈ H, (s.icache e).inum = n

theorem Reaped.refl (V : ℕ → Node) : Reaped V V := fun _ => .inl rfl

theorem Reaped.trans (h : Reaped V V') (h' : Reaped V' V'') : Reaped V V'' := by
  intro m
  rcases h' m with h' | ⟨hlink, hfree⟩
  · rw [h']
    exact h m
  · rcases h m with h | ⟨hlink', -⟩
    · rw [h] at hlink
      exact .inr ⟨hlink, hfree⟩
    · exact .inr ⟨hlink', hfree⟩

theorem Reaped.eq (h : Reaped V V') (ht : (V' n).type ≠ 0) : V' n = V n := by
  rcases h n with h | ⟨-, hfree⟩
  · exact h
  · rw [hfree] at ht
    exact absurd rfl ht

theorem Tended.mono (h : Tended H V s n) (hH : ∀ e ∈ H, e ∈ H') (hkept : Kept H s t) :
    Tended H' V t n := by
  intro ht hlink
  obtain ⟨e, he, hn⟩ := h ht hlink
  exact ⟨e, hH e he, (hkept.inum e he).trans hn⟩

/-- Part of a call is done: it has freed files, but none that has a link or is held. -/
structure Passed (H : Multiset Ix) (V : ℕ → Node) (s : Vol) (V' : ℕ → Node) (t : Vol) : Prop where
  reaped : Reaped V V'
  kept : Kept H s t
  tended : ∀ n, Tended H V s n → V' n = V n

theorem Passed.trans (h : Passed H V s V' t) (h' : Passed H V' t V'' u) : Passed H V s V'' u := by
  refine ⟨h.reaped.trans h'.reaped, h.kept.trans h'.kept, fun n htend => ?_⟩
  have hsame := h.tended n htend
  rw [h'.tended n, hsame]
  intro ht hlink
  rw [hsame] at ht hlink
  exact htend.mono (fun _ => id) h.kept ht hlink

theorem Passed.of_kept (hkept : Kept H s t) : Passed H V s V t :=
  ⟨Reaped.refl V, hkept, fun _ _ => rfl⟩

theorem iput_reaps (h : Rep sb (e ::ₘ H) L V s) (hl : e ∈ L → e ∈ H) :
    wp (iput e) (fun _ t => ∃ V', Rep sb H L V' t ∧ Passed H V s V' t) E s := by
  apply wp_conseq (iput_rep h hl rfl)
  rintro _ t ⟨V', hrep, hkept, ⟨-, rfl, -⟩ | ⟨hlast, rfl, -⟩⟩
  · exact ⟨V', hrep, Passed.of_kept hkept⟩
  · refine ⟨_, hrep, ⟨?_, hkept, ?_⟩⟩
    · intro m
      by_cases hm : m = (s.icache e).inum
      · rw [hm, update_self]
        exact .inr ⟨hlast.2.2, rfl⟩
      · rw [update_of_ne hm]
        exact .inl rfl
    · -- the reference to a file that is held was not the last one
      intro n htended
      apply update_of_ne
      rintro rfl
      obtain ⟨e', he', hn⟩ := htended
        (h.type_ne (Multiset.mem_cons_self e H) hlast.2.1 rfl) hlast.2.2
      have heq := h.one (Multiset.mem_cons_of_mem he') (Multiset.mem_cons_self e H) hn
      exact absurd (heq ▸ he') hlast.1

theorem iunlockput_reaps (h : Rep sb (e ::ₘ H) L V s) (hlocked : e ∉ L → E (.panic "iunlock")) :
    wp (iunlockput e) (fun _ t => ∃ V', Rep sb H (L.erase e) V' t ∧ Passed H V s V' t) E s := by
  unfold iunlockput
  apply wp_call (iunlock_rep h hlocked (Multiset.mem_cons_self e H))
  rintro _ t ⟨hrep, -, hkept⟩
  have hpassed : Passed H V s V t :=
    Passed.of_kept (hkept.mono fun _ => Multiset.mem_cons_of_mem)
  apply wp_conseq (iput_reaps hrep fun hl => absurd hl (Finset.notMem_erase e L))
  rintro _ u ⟨V', hrep', hpassed'⟩
  exact ⟨V', hrep', hpassed.trans hpassed'⟩

namespace Node

def slots (v : Node) : ℕ := v.size / DIRENTSIZE

def slot (v : Node) (i : ℕ) : ℕ → Byte := fun k => v.data (DIRENTSIZE * i + k)

def inumAt (v : Node) (i : ℕ) : ℕ := direntInum (v.slot i)

def nameAt (v : Node) (i : ℕ) : Name := direntName (v.slot i)

def hasName (v : Node) (name : Name) (i : ℕ) : Bool := v.inumAt i ≠ 0 ∧ v.nameAt i = name

/-- The slot that `dirlookup` finds. -/
def find (v : Node) (name : Name) : Option ℕ := (List.range v.slots).find? (v.hasName name)

/-- The slot that `dirlink` fills. -/
def emptySlot (v : Node) : ℕ :=
  ((List.range v.slots).find? fun i => v.inumAt i = 0).getD v.slots

def Whole (v : Node) : Prop := v.size = DIRENTSIZE * v.slots

def setSlot (v : Node) (k : ℕ) (de : ℕ → Byte) : Node := v.write de (DIRENTSIZE * k) DIRENTSIZE

end Node

theorem direntInum_congr {f g : ℕ → Byte} (h : ∀ k < DIRENTSIZE, f k = g k) :
    direntInum f = direntInum g := by
  apply leNat_congr
  intro k hk
  exact h k (hk.trans (by decide))

theorem direntName_congr {f g : ℕ → Byte} (h : ∀ k < DIRENTSIZE, f k = g k) :
    direntName f = direntName g := by
  have hmap : ((List.range DIRSIZ).map fun k => f (2 + k)) =
      (List.range DIRSIZ).map fun k => g (2 + k) := by
    apply map_congr_left
    intro k hk
    apply h
    rw [mem_range] at hk
    simp only [DIRENTSIZE]
    omega
  rw [direntName, hmap, direntName]

section
variable (h : Rep sb H L V s) (he : e ∈ H) (hv : (s.icache e).valid = true)
  (hn : (s.icache e).inum = n) (htype : (V n).type = T_DIR)
include h he hv hn

theorem size_eq : (s.icache e).d.size = (V n).size := by
  rw [h.node he hv hn]
  rfl

include htype

theorem readi_dirent (i : ℕ) :
    wp (readi e (DIRENTSIZE * i) DIRENTSIZE) (fun r t => s = t ∧
      (r.1 = DIRENTSIZE ↔ i < (V n).slots) ∧
      (r.1 = DIRENTSIZE → direntInum r.2 = (V n).inumAt i ∧
        direntName r.2 = (V n).nameAt i)) E s := by
  have hsize := h.size_lt n
  apply wp_conseq (readi_rep h he hv hn (by decide))
  rintro r _ ⟨rfl, hr⟩
  refine ⟨rfl, ?_⟩
  rw [hr (by rw [htype]; decide), Node.read, Node.slots, Nat.lt_div_iff_mul_lt (by decide)]
  by_cases hbad : (V n).size < DIRENTSIZE * i ∨ 2 ^ 32 ≤ DIRENTSIZE * i + DIRENTSIZE
  · rw [if_pos hbad]
    refine ⟨iff_of_false (by decide) ?_, fun hfull => absurd hfull (by decide)⟩
    simp only [DIRENTSIZE, DIRSIZ] at hbad ⊢
    omega
  · rw [if_neg hbad]
    refine ⟨?_, fun hfull => ?_⟩
    · simp only [DIRENTSIZE, DIRSIZ]
      omega
    · have hmin : min DIRENTSIZE ((V n).size - DIRENTSIZE * i) = DIRENTSIZE := Int.ofNat.inj hfull
      have hbytes : ∀ k < DIRENTSIZE, (if k < min DIRENTSIZE ((V n).size - DIRENTSIZE * i) then
          (V n).data (DIRENTSIZE * i + k) else 0) = (V n).slot i k := by
        intro k hk
        rw [hmin, if_pos hk]
        rfl
      exact ⟨direntInum_congr hbytes, direntName_congr hbytes⟩

/-- The body of a loop over the slots; a part of a slot at the end is not read. -/
theorem wp_dirent {α : Type} {Q : α → Vol → Prop} {i : ℕ} {msg : String} {k : (ℕ → Byte) → M α}
    {f : ℤ × (ℕ → Byte) → M α} (hlt : DIRENTSIZE * i < (V n).size)
    (hread : (V n).Whole ∨ E (.panic msg))
    (hf : ∀ r de, f (r, de) = if r ≠ DIRENTSIZE then panic msg else k de)
    (hk : ∀ de, i < (V n).slots → direntInum de = (V n).inumAt i → direntName de = (V n).nameAt i →
      wp (k de) Q E s) : wp (readi e (DIRENTSIZE * i) DIRENTSIZE >>= f) Q E s := by
  apply wp_call (readi_dirent h he hv hn htype i)
  rintro ⟨r, de⟩ _ ⟨rfl, hfull, hslot⟩
  rw [hf]
  apply wp_ite
  · intro hshort
    refine wp_throw (hread.resolve_left fun hwhole => hshort (hfull.mpr ?_))
    rw [Node.Whole] at hwhole
    exact Nat.lt_of_mul_lt_mul_left (hwhole ▸ hlt)
  · intro hr
    rw [not_not] at hr
    exact hk de (hfull.mp hr) (hslot hr).1 (hslot hr).2

end

theorem slot_setSlot (v : Node) (k j : ℕ) (de : ℕ → Byte) {i : ℕ} (hi : i < DIRENTSIZE) :
    (v.setSlot k de).slot j i = if j = k then de i else v.slot j i := by
  simp only [slot, setSlot, write]
  by_cases hj : j = k
  · rw [if_pos hj, hj, if_pos (by omega), Nat.add_sub_cancel_left]
  · rw [if_neg hj, if_neg]
    simp only [DIRENTSIZE, DIRSIZ] at *
    omega

theorem inumAt_setSlot (v : Node) (k j : ℕ) (de : ℕ → Byte) :
    (v.setSlot k de).inumAt j = if j = k then direntInum de else v.inumAt j := by
  have hslot := fun i (hi : i < DIRENTSIZE) => slot_setSlot v k j de hi
  by_cases hj : j = k
  · rw [if_pos hj]
    exact direntInum_congr fun i hi => (hslot i hi).trans (if_pos hj)
  · rw [if_neg hj]
    exact direntInum_congr fun i hi => (hslot i hi).trans (if_neg hj)

theorem nameAt_setSlot (v : Node) (k j : ℕ) (de : ℕ → Byte) :
    (v.setSlot k de).nameAt j = if j = k then direntName de else v.nameAt j := by
  have hslot := fun i (hi : i < DIRENTSIZE) => slot_setSlot v k j de hi
  by_cases hj : j = k
  · rw [if_pos hj]
    exact direntName_congr fun i hi => (hslot i hi).trans (if_pos hj)
  · rw [if_neg hj]
    exact direntName_congr fun i hi => (hslot i hi).trans (if_neg hj)

theorem slots_setSlot (v : Node) (k : ℕ) (de : ℕ → Byte) :
    (v.setSlot k de).slots = max v.slots (k + 1) := by
  simp only [slots, setSlot, write, DIRENTSIZE, DIRSIZ]
  omega

theorem direntInum_dirent (name : Name) (inum : ℕ) :
    direntInum (dirent name inum) = inum % 2 ^ 16 := by
  have hcongr : direntInum (dirent name inum) = leNat (leBytes inum) 2 :=
    leNat_congr fun i hi => if_pos hi
  rw [hcongr, leNat_leBytes, show 256 ^ 2 = 2 ^ 16 from rfl]

theorem dirent_bytes (hlen : name.length ≤ DIRSIZ) (inum : ℕ) :
    ((List.range DIRSIZ).map fun i => dirent name inum (2 + i)) =
      name ++ List.replicate (DIRSIZ - name.length) 0 := by
  apply ext_getElem
  · simp
    omega
  · intro i h1 h2
    simp only [length_map, length_range] at h1
    rw [getElem_map, getElem_range, dirent, if_neg (by omega), Nat.add_sub_cancel_left,
      getElem_append]
    split_ifs with hi
    · rw [getD_eq_getElem _ _ hi]
    · rw [getElem_replicate, getD_eq_default _ _ (by omega)]

/-- A name of at most `DIRSIZ` bytes without NUL is read back. -/
theorem direntName_dirent (hlen : name.length ≤ DIRSIZ) (hnul : ∀ c ∈ name, c ≠ 0) (inum : ℕ) :
    direntName (dirent name inum) = name := by
  rw [direntName, dirent_bytes hlen, takeWhile_append_of_pos (by simpa using hnul)]
  cases DIRSIZ - name.length with
  | zero => simp
  | succ k => simp [replicate_succ]

/-- What `dirlookup` returns and leaves behind. -/
def LookupPost (sb : Superblock) (H : Multiset Ix) (L : Finset Ix) (V : ℕ → Node) (s : Vol)
    (n : ℕ) (name : Name) : Option (Ix × ℕ) → Vol → Prop
  | none, t => (V n).find name = none ∧ s = t
  | some (e, off), t => ∃ i, (V n).find name = some i ∧ off = DIRENTSIZE * i ∧
    (t.icache e).inum = (V n).inumAt i ∧ Rep sb (e ::ₘ H) L V t ∧ Calm s t ∧ Kept H s t

section
variable (h : Rep sb H L V s) (he : e ∈ H) (hv : (s.icache e).valid = true)
  (hn : (s.icache e).inum = n)
include h he hv hn

/-- The loop ends at the slot with the name, and there with `iget`. -/
theorem wp_lookupLoop {Q : Option (Ix × ℕ) → Vol → Prop} (htype : (V n).type = T_DIR)
    (hread : (V n).Whole ∨ E (.panic "dirlink read")) (hnone : (V n).find name = none → Q none s)
    (hsome : ∀ i, (V n).find name = some i →
      wp (iget ((V n).inumAt i)) (fun ip t => Q (some (ip, DIRENTSIZE * i)) t) E s) (fuel : ℕ) :
    ∀ i, (V n).slots < i + fuel → (∀ j < i, (V n).hasName name j = false) →
      wp (lookupLoop e name fuel (DIRENTSIZE * i)) Q E s := by
  have hend : ∀ i, (V n).slots ≤ i → (∀ j < i, (V n).hasName name j = false) → Q none s := by
    intro i hi hbefore
    apply hnone
    rw [find, List.find?_range_eq_none]
    intro j hj
    rw [hbefore j (by omega)]
    rfl
  induction fuel with
  | zero =>
    intro i hfuel hbefore
    exact wp_pure (hend i (by omega) hbefore)
  | succ fuel ih =>
    intro i hfuel hbefore
    unfold lookupLoop
    apply wp_bind (wp_inode _)
    rw [size_eq h he hv hn]
    apply wp_ite
    · intro hlt
      apply wp_dirent h he hv hn htype hlt hread fun _ _ => rfl
      intro de hi hinum hname
      have hnext : ¬((V n).inumAt i ≠ 0 ∧ (V n).nameAt i = name) →
          ∀ j < i + 1, (V n).hasName name j = false := by
        intro hno j hj
        rcases Nat.lt_succ_iff_lt_or_eq.mp hj with hj | rfl
        · exact hbefore j hj
        · exact decide_eq_false hno
      rw [hinum, hname, ← Nat.mul_succ]
      apply wp_ite
      · intro hzero
        exact ih (i + 1) (by omega) (hnext fun hyes => hyes.1 hzero)
      · intro hused
        apply wp_ite
        · intro hmatch
          apply wp_call (hsome i ?_) fun _ _ hpost => wp_pure hpost
          rw [find, List.find?_range_eq_some]
          refine ⟨decide_eq_true ⟨hused, hmatch⟩, mem_range.mpr hi, ?_⟩
          intro j hj
          rw [hbefore j hj]
          rfl
        · intro hno
          exact ih (i + 1) (by omega) (hnext fun hyes => hno hyes.2)
    · intro hover
      exact wp_pure (hend i (Nat.div_le_of_le_mul (not_lt.mp hover)) hbefore)

theorem wp_dirlookup {Q : Option (Ix × ℕ) → Vol → Prop}
    (hdir : (V n).type = T_DIR ∨ E (.panic "dirlookup not DIR"))
    (hread : (V n).Whole ∨ E (.panic "dirlink read"))
    (hnone : (V n).type = T_DIR → (V n).find name = none → Q none s)
    (hsome : (V n).type = T_DIR → ∀ i, (V n).find name = some i →
      wp (iget ((V n).inumAt i)) (fun ip t => Q (some (ip, DIRENTSIZE * i)) t) E s) :
    wp (dirlookup e name) Q E s := by
  unfold dirlookup
  apply wp_bind (wp_inode _)
  rw [show (s.icache e).d.type = (V n).type by rw [h.node he hv hn]; rfl, size_eq h he hv hn]
  apply wp_ite
  · intro hno
    exact wp_throw (hdir.resolve_left hno)
  · intro htype
    rw [not_not] at htype
    apply wp_lookupLoop h he hv hn htype hread (hnone htype) (hsome htype) _ 0 _ (by simp)
    rw [slots]
    omega

theorem dirlookup_rep (hfull : (∀ e, e ∈ H) → E (.panic "iget: no inodes"))
    (hdir : (V n).type = T_DIR ∨ E (.panic "dirlookup not DIR"))
    (hread : (V n).Whole ∨ E (.panic "dirlink read"))
    (hin : (V n).type = T_DIR → ∀ i < (V n).slots, (V n).inumAt i < sb.ninodes) :
    wp (dirlookup e name) (fun r t => (V n).type = T_DIR ∧
      LookupPost sb H L V s n name r t) E s := by
  apply wp_dirlookup h he hv hn hdir hread
  · intro htype hfind
    exact ⟨htype, hfind, rfl⟩
  · intro htype i hfind
    have hi : i < (V n).slots := by
      rw [find, List.find?_range_eq_some] at hfind
      exact mem_range.mp hfind.2.1
    apply wp_conseq (iget_rep h hfull (hin htype i hi))
    rintro ip t ⟨hrep, hinum, hcalm, hkept⟩
    exact ⟨htype, i, hfind, rfl, hinum, hrep, hcalm, hkept⟩

theorem emptyLoop_rep (htype : (V n).type = T_DIR) (hread : (V n).Whole ∨ E (.panic "dirlink read"))
    (fuel : ℕ) : ∀ i, (V n).slots < i + fuel → i ≤ (V n).slots → (∀ j < i, (V n).inumAt j ≠ 0) →
      wp (emptyLoop e fuel (DIRENTSIZE * i))
        (fun off t => s = t ∧ off = DIRENTSIZE * (V n).emptySlot) E s := by
  induction fuel with
  | zero =>
    intro i hfuel hle
    omega
  | succ fuel ih =>
    intro i hfuel hle hbefore
    unfold emptyLoop
    apply wp_bind (wp_inode _)
    rw [size_eq h he hv hn]
    apply wp_ite
    · intro hlt
      apply wp_dirent h he hv hn htype hlt hread fun _ _ => rfl
      intro de hi hinum _
      rw [hinum, ← Nat.mul_succ]
      apply wp_ite
      · intro hzero
        have hfind : (V n).emptySlot = i := by
          rw [emptySlot, List.find?_range_eq_some.mpr ⟨decide_eq_true hzero,
            mem_range.mpr hi, fun j hj => by simpa using hbefore j hj⟩]
          rfl
        rw [hfind]
        exact wp_pure ⟨rfl, rfl⟩
      · intro hused
        apply ih (i + 1) (by omega) hi
        intro j hj
        rcases Nat.lt_succ_iff_lt_or_eq.mp hj with hj | rfl
        · exact hbefore j hj
        · exact hused
    · intro hend
      have hi : i = (V n).slots := le_antisymm hle (Nat.div_le_of_le_mul (not_lt.mp hend))
      have hfind : (V n).emptySlot = (V n).slots := by
        rw [emptySlot, List.find?_range_eq_none.mpr fun j hj => by
          simpa using hbefore j (hi ▸ hj)]
        rfl
      rw [hfind, hi]
      exact wp_pure ⟨rfl, rfl⟩

end

end Xv6Threads.Fs
