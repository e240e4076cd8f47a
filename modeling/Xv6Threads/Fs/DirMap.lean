import Xv6Threads.Fs.FileContents
import Xv6Threads.Fs.PathWalk

namespace Xv6Threads.Fs

open Bytes Function Nat

/-- The result of `strncmp`; a string is the bytes its pointer reaches. -/
def strncmp (p q : ℕ → Byte) : ℕ → ℤ
  | 0 => 0
  | n + 1 =>
    if p 0 ≠ 0 ∧ p 0 = q 0 then strncmp (fun i => p (i + 1)) (fun i => q (i + 1)) n
    else (p 0).toNat - (q 0).toNat

def namecmp (s t : ℕ → Byte) : ℤ := strncmp s t DIRSIZ

/-- The `n` bytes that `strncpy` stores. -/
def strncpy (t : ℕ → Byte) : ℕ → List Byte
  | 0 => []
  | n + 1 => t 0 :: if t 0 ≠ 0 then strncpy (fun i => t (i + 1)) n else List.replicate n 0

def cstr (name : Name) : ℕ → Byte := fun i => name.getD i 0

variable {sb : Superblock} {H : Multiset Ix} {L : Finset Ix} {V : ℕ → Node} {s : Vol} {e : Ix}
  {n i j k m inum : ℕ} {name x : Name} {v : Node} {E : Stop → Prop}

theorem strncmp_eq_zero_iff (n : ℕ) : ∀ p q, strncmp p q n = 0 ↔
    ((List.range n).map p).takeWhile (· ≠ 0) = ((List.range n).map q).takeWhile (· ≠ 0) := by
  induction n with
  | zero => simp [strncmp]
  | succ n ih =>
    intro p q
    rw [strncmp, List.range_succ_eq_map, List.map_cons, List.map_cons, List.map_map, List.map_map]
    by_cases hstep : p 0 ≠ 0 ∧ p 0 = q 0
    · have hkeep : ∀ l, (p 0 :: l).takeWhile (· ≠ 0) = p 0 :: l.takeWhile (· ≠ 0) := by
        intro l
        exact List.takeWhile_cons_of_pos (decide_eq_true hstep.1)
      rw [if_pos hstep, ih, ← hstep.2, hkeep, hkeep, List.cons_inj_right]
      rfl
    · rw [if_neg hstep]
      by_cases heq : p 0 = q 0
      · -- both strings end here
        have hend : p 0 = 0 := by
          by_contra hne
          exact hstep ⟨hne, heq⟩
        rw [← heq, hend]
        simp
      · have hnat : (p 0).toNat ≠ (q 0).toNat := fun h => heq (BitVec.eq_of_toNat_eq h)
        refine iff_of_false (by omega) fun hsame => ?_
        have hhead := congrArg List.head? hsame
        simp only [List.takeWhile_cons] at hhead
        grind

theorem map_cstr (hnul : ∀ c ∈ name, c ≠ 0) (n : ℕ) :
    ((List.range n).map (cstr name)).takeWhile (· ≠ 0) = name.take n := by
  induction n generalizing name with
  | zero => rfl
  | succ n ih =>
    rw [List.range_succ_eq_map, List.map_cons, List.map_map]
    cases name with
    | nil => simp [cstr]
    | cons c cs =>
      have hc : c ≠ 0 := hnul c List.mem_cons_self
      have hnext := ih fun c hc => hnul c (List.mem_cons_of_mem _ hc)
      rw [show cstr (c :: cs) 0 = c from rfl,
        show cstr (c :: cs) ∘ succ = cstr cs from funext fun _ => rfl,
        List.takeWhile_cons_of_pos (by simpa using hc), hnext, List.take_succ_cons]

theorem strncpy_cstr (hnul : ∀ c ∈ name, c ≠ 0) (n : ℕ) :
    strncpy (cstr name) n = name.take n ++ List.replicate (n - (name.take n).length) 0 := by
  induction n generalizing name with
  | zero => simp [strncpy]
  | succ n ih =>
    cases name with
    | nil => simp [strncpy, cstr, List.replicate_succ]
    | cons c cs =>
      have hc : cstr (c :: cs) 0 ≠ 0 := hnul c List.mem_cons_self
      have hnext := ih fun c hc => hnul c (List.mem_cons_of_mem _ hc)
      rw [strncpy, if_pos hc, show (fun i => cstr (c :: cs) (i + 1)) = cstr cs from rfl, hnext,
        List.take_succ_cons, List.length_cons, Nat.add_sub_add_right, List.cons_append]
      rfl

namespace Node

/-- Slot `i` says that `x` is the name of inode `m`. -/
def Entry (v : Node) (i m : ℕ) (x : Name) : Prop :=
  i < v.slots ∧ v.inumAt i = m ∧ m ≠ 0 ∧ v.nameAt i = x

/-- A directory of whole slots, with no name in two of them. -/
structure IsMap (v : Node) : Prop where
  dir : v.type = T_DIR
  whole : v.Whole
  distinct : ∀ i j m m' x, v.Entry i m x → v.Entry j m' x → i = j

def lookup (v : Node) (x : Name) : Option ℕ := (v.find x).map v.inumAt

def link (v : Node) (name : Name) (inum : ℕ) : Node := v.setSlot v.emptySlot (dirent name inum)

def erase (v : Node) (i : ℕ) : Node := v.setSlot i fun _ => 0

end Node

open Node

theorem find_eq_some (hfind : v.find x = some i) : v.Entry i (v.inumAt i) x := by
  rw [find, List.find?_range_eq_some, hasName, decide_eq_true_eq] at hfind
  exact ⟨List.mem_range.mp hfind.2.1, rfl, hfind.1⟩

theorem lookup_eq_some (hmap : v.IsMap) : v.lookup x = some m ↔ ∃ i, v.Entry i m x := by
  rw [lookup, Option.map_eq_some_iff]
  constructor
  · rintro ⟨i, hfind, rfl⟩
    exact ⟨i, find_eq_some hfind⟩
  · rintro ⟨i, hentry⟩
    cases hfind : v.find x with
    | none =>
      rw [find, List.find?_range_eq_none] at hfind
      have hno := hfind i hentry.1
      simp [hasName, hentry.2.1, hentry.2.2] at hno
    | some j =>
      rw [hmap.distinct i j m _ x hentry (find_eq_some hfind)] at hentry
      exact ⟨j, rfl, hentry.2.1⟩

theorem lookup_eq_none (hmap : v.IsMap) : v.lookup x = none ↔ ∀ i m, ¬v.Entry i m x := by
  rw [Option.eq_none_iff_forall_ne_some]
  simp only [ne_eq, lookup_eq_some hmap, not_exists]
  exact forall_comm

theorem emptySlot_spec (v : Node) : v.emptySlot ≤ v.slots ∧ ∀ m x, ¬v.Entry v.emptySlot m x := by
  rw [emptySlot]
  cases hfind : (List.range v.slots).find? fun i => decide (v.inumAt i = 0) with
  | none => exact ⟨le_rfl, fun m x hentry => absurd hentry.1 (lt_irrefl _)⟩
  | some i =>
    rw [List.find?_range_eq_some, decide_eq_true_eq] at hfind
    exact ⟨(List.mem_range.mp hfind.2.1).le, fun m x hentry =>
      hentry.2.2.1 (hentry.2.1.symm.trans hfind.1)⟩

theorem whole_setSlot (hw : v.Whole) (hk : k ≤ v.slots) (de : ℕ → Byte) :
    (v.setSlot k de).Whole := by
  unfold Whole at *
  rw [slots_setSlot]
  simp only [setSlot, write, DIRENTSIZE, DIRSIZ] at *
  omega

section
variable (hmap : v.IsMap) (hlen : name.length ≤ DIRSIZ) (hnul : ∀ c ∈ name, c ≠ 0)
  (hpos : 0 < inum) (hlt : inum < 2 ^ 16)
include hlen hnul hpos hlt

theorem entry_link : (v.link name inum).Entry j m x ↔
    j = v.emptySlot ∧ m = inum ∧ x = name ∨ v.Entry j m x := by
  obtain ⟨hle, hempty⟩ := emptySlot_spec v
  unfold Entry link at *
  rw [slots_setSlot, inumAt_setSlot, nameAt_setSlot]
  by_cases hj : j = v.emptySlot
  · subst hj
    rw [if_pos rfl, if_pos rfl, direntInum_dirent, direntName_dirent hlen hnul,
      mod_eq_of_lt hlt, or_iff_left (hempty m x)]
    refine ⟨fun h => ⟨rfl, h.2.1.symm, h.2.2.2.symm⟩, ?_⟩
    rintro ⟨-, rfl, rfl⟩
    exact ⟨by omega, rfl, hpos.ne', rfl⟩
  · rw [if_neg hj, if_neg hj]
    have hslots : j < max v.slots (v.emptySlot + 1) ↔ j < v.slots := by omega
    rw [hslots, or_iff_right fun h => hj h.1]

include hmap

theorem Node.IsMap.link (hnew : v.lookup name = none) : (v.link name inum).IsMap ∧
    ∀ x, (v.link name inum).lookup x = if x = name then some inum else v.lookup x := by
  rw [lookup_eq_none hmap] at hnew
  have hentry := fun j m x => entry_link (v := v) (j := j) (m := m) (x := x) hlen hnul hpos hlt
  have hmap' : (v.link name inum).IsMap := by
    refine ⟨hmap.dir, whole_setSlot hmap.whole (emptySlot_spec v).1 _, ?_⟩
    intro i j m m' x hi hj
    rw [hentry] at hi hj
    rcases hi with ⟨rfl, -, rfl⟩ | hi
    · rcases hj with ⟨rfl, -, -⟩ | hj
      · rfl
      · exact absurd hj (hnew j m')
    · rcases hj with ⟨rfl, -, rfl⟩ | hj
      · exact absurd hi (hnew i m)
      · exact hmap.distinct i j m m' x hi hj
  refine ⟨hmap', fun x => Option.ext fun m => ?_⟩
  rw [lookup_eq_some hmap']
  simp only [hentry]
  by_cases hx : x = name
  · subst hx
    rw [if_pos rfl, Option.some.injEq]
    constructor
    · rintro ⟨j, ⟨-, rfl, -⟩ | hj⟩
      · rfl
      · exact absurd hj (hnew j m)
    · rintro rfl
      exact ⟨_, .inl ⟨rfl, rfl, rfl⟩⟩
  · rw [if_neg hx, lookup_eq_some hmap]
    apply exists_congr
    intro j
    exact or_iff_right fun h => hx h.2.2

end

theorem Node.IsMap.erase (hmap : v.IsMap) (hfind : v.find name = some i) : (v.erase i).IsMap ∧
    ∀ x, (v.erase i).lookup x = if x = name then none else v.lookup x := by
  have hold := find_eq_some hfind
  have hentry : ∀ j m x, (v.erase i).Entry j m x ↔ j ≠ i ∧ v.Entry j m x := by
    intro j m x
    have hi := hold.1
    unfold Entry Node.erase
    rw [slots_setSlot, inumAt_setSlot, nameAt_setSlot]
    by_cases hj : j = i
    · rw [if_pos hj]
      refine iff_of_false ?_ fun h => h.1 hj
      rintro ⟨-, hzero, hne, -⟩
      exact hne (hzero.symm.trans (leNat_zero 2))
    · rw [if_neg hj, if_neg hj, max_eq_left (by omega), and_iff_right hj]
  have hmap' : (v.erase i).IsMap := by
    refine ⟨hmap.dir, whole_setSlot hmap.whole hold.1.le _, ?_⟩
    intro j k m m' x hj hk
    rw [hentry] at hj hk
    exact hmap.distinct j k m m' x hj.2 hk.2
  refine ⟨hmap', fun x => Option.ext fun m => ?_⟩
  rw [lookup_eq_some hmap']
  simp only [hentry]
  by_cases hx : x = name
  · subst hx
    rw [if_pos rfl]
    refine iff_of_false ?_ (by simp)
    rintro ⟨j, hj, hj'⟩
    exact hj (hmap.distinct j i m _ x hj' hold)
  · rw [if_neg hx, lookup_eq_some hmap]
    apply exists_congr
    intro j
    refine and_iff_right_of_imp ?_
    rintro hj rfl
    exact hx (hj.2.2.2.symm.trans hold.2.2.2)

/-- A name is linked, or found and its slot erased as in `sys_unlink`. The write does not use the
reference to the file, so it is given back first. -/
inductive DirOp
  | link (name : Name) (inum : ℕ)
  | unlink (name : Name)

def DirOp.run (e : Ix) : DirOp → M Unit
  | link name inum => do
    let _ ← dirlink e (name.take DIRSIZ) inum
  | unlink name => do
    match ← dirlookup e (name.take DIRSIZ) with
    | none => pure ()
    | some (ip, off) => do
      iput ip
      let r ← writei e (fun _ => 0) off DIRENTSIZE
      if r ≠ DIRENTSIZE then panic "unlink: writei" else pure ()

def DirOp.runAll (e : Ix) : List DirOp → M Unit
  | [] => pure ()
  | op :: ops => do
    op.run e
    runAll e ops

/-- The name has no NUL, and the inode number fits into a slot. -/
def DirOp.Ok : DirOp → Prop
  | link name inum => (∀ c ∈ name, c ≠ 0) ∧ 0 < inum ∧ inum < 2 ^ 16
  | unlink _ => True

def Full (H : Multiset Ix) (x : Stop) : Prop := x = .panic "iget: no inodes" ∧ ∀ e, e ∈ H

/-- One more slot is within the size of a file, and the blocks for it are free. -/
def Room (sb : Superblock) (e : Ix) (k : ℕ) (s : Vol) : Prop :=
  DIRENTSIZE * k + DIRENTSIZE ≤ MAXFILE * BSIZE ∧
    Enough sb (s.icache e).d s.blk (DIRENTSIZE * k) DIRENTSIZE

/-- A reference that has been taken is given back, also one to an inode the disk does not have. -/
theorem iget_iput (h : Rep sb H L V s) (hfull : (∀ e, e ∈ H) → E (.panic "iget: no inodes")) :
    wp (iget m) (fun ip t => (t.icache ip).inum = m ∧
      wp (iput ip) (fun _ u => Rep sb H L V u ∧ Calm s u ∧ Kept H s u) E t) E s := by
  obtain ⟨D, hd⟩ := h
  have hc := hd.cached
  apply wp_iget hc hfull
  · intro ip hip hinum
    refine ⟨by simpa using hinum, ?_⟩
    have hrep : Rep sb (ip ::ₘ H) L V _ := hd.calm (hc.addRef hip) rfl
    apply wp_conseq (iput_rep hrep (fun _ => hip) rfl)
    rintro _ u ⟨V', hrep', hkept, ⟨-, rfl, hcalm⟩ | ⟨hlast, -, -⟩⟩
    · have hput : Kept H s (s.put ip { s.icache ip with ref := (s.icache ip).ref + 1 }) :=
        Kept.put (fun _ => rfl) fun _ => id
      exact ⟨hrep', (Calm.put ..).trans hcalm, hput.trans hkept⟩
    · exact absurd hip hlast.1
  · intro ip hip _
    refine ⟨by simp, ?_⟩
    -- the entry has not been read from the disk, so nothing is freed
    unfold iput ifree
    apply wp_bind
    apply wp_bind (wp_inode _)
    simp only [Vol.put_icache, if_true, Bool.false_eq_true, false_and, and_false, if_false]
    apply wp_pure
    apply wp_setInode
    have hput : ∀ y : Inode, y.ref = 0 → y.busy = false → Cached sb none H L D (s.put ip y) := by
      intro y href hbusy
      have hl : ip ∉ L := fun hl => hip (hc.locked ip hl)
      refine hc.put (fun _ _ => rfl) ?_ (fun _ _ => Iff.rfl) (by simp [hbusy, hl])
        (fun h' => absurd h' hl) (fun h' => absurd h' hip) (fun h' => absurd h' hip)
        fun h' => absurd h' hip
      rw [href, Multiset.count_eq_zero.mpr hip]
      rfl
    have htwice : ∀ y z : Inode, (s.put ip y).put ip z = s.put ip z := by
      intro y z
      simp only [Vol.put]
      congr 1
      funext k
      by_cases hk : k = ip
      · rw [if_pos hk, if_pos hk]
      · rw [if_neg hk, if_neg hk, if_neg hk]
    rw [htwice]
    refine ⟨hd.calm (hput _ ?_ ?_) rfl, Calm.put .., Kept.put (fun h' => absurd h' hip)
      fun h' => absurd h' hip⟩
    · simp
    · simp

section
variable (h : Rep sb H L V s) (he : e ∈ H) (hv : (s.icache e).valid = true)
  (hn : (s.icache e).inum = n) (hmap : (V n).IsMap)
include h he hv hn hmap

theorem dirlookup_map (hfull : (∀ e, e ∈ H) → E (.panic "iget: no inodes")) (x : Name) :
    wp (dirlookup e x) (fun r t => r = none ∧ (V n).find x = none ∧ t = s ∨
      ∃ ip i, r = some (ip, DIRENTSIZE * i) ∧ (V n).find x = some i ∧
        (t.icache ip).inum = (V n).inumAt i ∧
        wp (iput ip) (fun _ u => Rep sb H L V u ∧ Calm s u ∧ Kept H s u) E t) E s := by
  apply wp_dirlookup h he hv hn (.inl hmap.dir) (.inl hmap.whole)
  · intro _ hfind
    exact .inl ⟨rfl, hfind, rfl⟩
  · intro _ i hfind
    apply wp_conseq (iget_iput h hfull)
    rintro ip t ⟨hinum, hput⟩
    exact .inr ⟨ip, i, rfl, hfind, hinum, hput⟩

theorem writei_dirent (k : ℕ) (de : ℕ → Byte) :
    wp (writei e de (DIRENTSIZE * k) DIRENTSIZE) (fun r t => r = DIRENTSIZE →
      Rep sb H L (update V n ((V n).setSlot k de)) t ∧ Kept H s t) (fun _ => True) s := by
  apply wp_conseq (writei_rep h tolerant_true he hv hn (by decide))
  rintro r t (⟨-, hdev | ⟨rfl, -⟩⟩ | ⟨-, -, -, -, hrep, hkept⟩) hr
  · rw [hmap.dir] at hdev
    exact absurd hdev (by decide)
  · exact absurd hr (by decide)
  · exact ⟨hrep, hkept⟩

theorem writei_dirent_room (hk : k ≤ (V n).slots) (hroom : Room sb e k s) (de : ℕ → Byte) :
    wp (writei e de (DIRENTSIZE * k) DIRENTSIZE) (fun r t => r = DIRENTSIZE ∧
      Rep sb H L (update V n ((V n).setSlot k de)) t ∧ Kept H s t) (fun _ => False) s := by
  have hsize : DIRENTSIZE * k ≤ (V n).size :=
    (mul_le_mul_left _ hk).trans (mul_div_le _ _)
  apply wp_conseq (wp_total (writei_rep h tolerant_true he hv hn (by decide))
    (writei_room h he hv (by decide) hroom.2))
  rintro r t ⟨⟨-, hdev | ⟨-, hbad⟩⟩ | ⟨rfl, -, -, -, hrep, hkept⟩, -⟩
  · rw [hmap.dir] at hdev
    exact absurd hdev (by decide)
  · have hfit := hroom.1
    omega
  · exact ⟨rfl, hrep, hkept⟩

/-- `dirlink` either finds the name or fills a slot, by a write that may stop. -/
theorem dirlink_map (hfull : (∀ e, e ∈ H) → E (.panic "iget: no inodes"))
    (hwrite : wp (writei e (dirent name inum) (DIRENTSIZE * (V n).emptySlot) DIRENTSIZE) (fun r t =>
      (r ≠ DIRENTSIZE → E (.panic "dirlink")) ∧
      (r = DIRENTSIZE → Rep sb H L (update V n ((V n).link name inum)) t ∧ Kept H s t)) E s) :
    wp (dirlink e name inum) (fun r t =>
      r = -1 ∧ (V n).lookup name ≠ none ∧ Rep sb H L V t ∧ Calm s t ∧ Kept H s t ∨
      r = 0 ∧ (V n).lookup name = none ∧ Rep sb H L (update V n ((V n).link name inum)) t ∧
        Kept H s t) E s := by
  unfold dirlink
  apply wp_call (dirlookup_map h he hv hn hmap hfull name)
  rintro r t (⟨rfl, hfind, rfl⟩ | ⟨ip, i, rfl, hfind, -, hput⟩)
  · dsimp only
    apply wp_bind (wp_inode _)
    rw [size_eq h he hv hn]
    apply wp_call (emptyLoop_rep h he hv hn hmap.dir (.inl hmap.whole) _ 0
      (by rw [slots]; omega) (zero_le _) (by simp))
    rintro off _ ⟨rfl, rfl⟩
    apply wp_call hwrite
    rintro r t ⟨hstop, hdone⟩
    apply wp_ite
    · intro hr
      exact wp_throw (hstop hr)
    · intro hr
      obtain ⟨hrep, hkept⟩ := hdone (not_not.mp hr)
      refine wp_pure (.inr ⟨rfl, ?_, hrep, hkept⟩)
      rw [lookup, hfind, Option.map_none]
  · dsimp only
    apply wp_call hput
    rintro _ u ⟨hrep, hcalm, hkept⟩
    refine wp_pure (.inl ⟨rfl, ?_, hrep, hcalm, hkept⟩)
    rw [lookup, hfind]
    simp

/-- One operation leaves a map, whether or not there is room for it. -/
theorem DirOp.run_map {op : DirOp} (hok : op.Ok) :
    wp (op.run e) (fun _ t => Kept H s t ∧ ∃ V', Rep sb H L V' t ∧ (V' n).IsMap)
      (fun _ => True) s := by
  cases op with
  | link name inum =>
    obtain ⟨hnul, hpos, hlt⟩ := hok
    have hwrite := writei_dirent h he hv hn hmap (V n).emptySlot (dirent (name.take DIRSIZ) inum)
    apply wp_call (dirlink_map h he hv hn hmap (fun _ => trivial)
      (wp_conseq hwrite fun r t hdone => ⟨fun _ => trivial, hdone⟩))
    rintro r t (⟨-, -, hrep, -, hkept⟩ | ⟨-, hnew, hrep, hkept⟩)
    · exact wp_pure ⟨hkept, V, hrep, hmap⟩
    · refine wp_pure ⟨hkept, _, hrep, ?_⟩
      rw [update_self]
      exact (hmap.link (List.length_take_le ..) (fun c hc => hnul c (List.mem_of_mem_take hc)) hpos
        hlt hnew).1
  | unlink name =>
    apply wp_call (dirlookup_map h he hv hn hmap (fun _ => trivial) _)
    rintro r t (⟨rfl, -, rfl⟩ | ⟨ip, i, rfl, hfind, -, hput⟩)
    · exact wp_pure ⟨Kept.refl H _, V, h, hmap⟩
    · dsimp only
      apply wp_call hput
      rintro _ u ⟨hrep, -, hkept⟩
      apply wp_call (writei_dirent hrep he (hkept.valid e he hv)
        ((hkept.inum e he).trans hn) hmap i _)
      intro r w hdone
      apply wp_ite
      · intro _
        exact wp_throw trivial
      · intro hr
        obtain ⟨hrep', hkept'⟩ := hdone (not_not.mp hr)
        refine wp_pure ⟨hkept.trans hkept', _, hrep', ?_⟩
        rw [update_self]
        exact (hmap.erase hfind).1

end

theorem DirOp.runAll_map (he : e ∈ H) (ops : List DirOp) :
    ∀ V s, Rep sb H L V s → (s.icache e).valid = true → (s.icache e).inum = n → (V n).IsMap →
      (∀ op ∈ ops, op.Ok) →
      wp (runAll e ops) (fun _ t => ∃ V', Rep sb H L V' t ∧ (V' n).IsMap) (fun _ => True) s := by
  induction ops with
  | nil =>
    intro V s h _ _ hmap _
    exact wp_pure ⟨V, h, hmap⟩
  | cons op ops ih =>
    intro V s h hv hn hmap hok
    apply wp_call (run_map h he hv hn hmap (hok op List.mem_cons_self))
    rintro _ t ⟨hkept, V', hrep, hmap'⟩
    exact ih V' t hrep (hkept.valid e he hv) ((hkept.inum e he).trans hn) hmap'
      fun op hop => hok op (List.mem_cons_of_mem _ hop)

/-- Directory `e` answers lookups as `f` does. -/
def Answers (H : Multiset Ix) (e : Ix) (t : Vol) (f : Name → Option ℕ) : Prop :=
  ∀ x, wp (dirlookup e x) (fun r u => (r.map fun p => (u.icache p.1).inum) = f x) (Full H) t

theorem answers_lookup (h : Rep sb H L V s) (he : e ∈ H) (hv : (s.icache e).valid = true)
    (hn : (s.icache e).inum = n) (hmap : (V n).IsMap) : Answers H e s (V n).lookup := by
  intro x
  apply wp_conseq (dirlookup_map h he hv hn hmap (fun hall => ⟨rfl, hall⟩) x)
  rintro r t (⟨rfl, hfind, -⟩ | ⟨ip, i, rfl, hfind, hinum, -⟩)
  · rw [lookup, hfind]
    rfl
  · rw [lookup, hfind, Option.map_some, Option.map_some, hinum]

/-- Directories are maps from names to inode numbers. The calls are made inside a transaction in
which the log has room for the blocks they write. -/
theorem directory_map (h : Rep sb H L V s) (he : e ∈ H) (hv : (s.icache e).valid = true)
    (hn : (s.icache e).inum = n) (hmap : (V n).IsMap) (hnul : ∀ c ∈ name, c ≠ 0) :
    (∀ de, namecmp (cstr name) (fun i => de (2 + i)) = 0 ↔ direntName de = name.take DIRSIZ) ∧
    (∀ inum, strncpy (cstr name) DIRSIZ =
      (List.range DIRSIZ).map fun i => dirent (name.take DIRSIZ) inum (2 + i)) ∧
    Answers H e s (V n).lookup ∧
    (∀ inum, 0 < inum → inum < 2 ^ 16 → Room sb e (V n).emptySlot s →
      wp (dirlink e (name.take DIRSIZ) inum) (fun r t =>
        (r = -1 ↔ (V n).lookup (name.take DIRSIZ) ≠ none) ∧
        (r = -1 → Rep sb H L V t ∧ Calm s t ∧ Answers H e t (V n).lookup) ∧
        (r ≠ -1 → r = 0 ∧ (∃ V', Rep sb H L V' t ∧ (V' n).IsMap ∧ ∀ m ≠ n, V' m = V m) ∧
          Answers H e t fun x => if x = name.take DIRSIZ then some inum else (V n).lookup x))
        (Full H) s) ∧
    wp (dirlookup e (name.take DIRSIZ)) (fun r _ => r.map Prod.snd =
      ((V n).find (name.take DIRSIZ)).map (DIRENTSIZE * ·)) (Full H) s ∧
    (∀ i, (V n).find (name.take DIRSIZ) = some i →
      wp (writei e (fun _ => 0) (DIRENTSIZE * i) DIRENTSIZE) (fun r t => r = DIRENTSIZE ∧
        (∃ V', Rep sb H L V' t ∧ (V' n).IsMap ∧ ∀ m ≠ n, V' m = V m) ∧
        Answers H e t fun x => if x = name.take DIRSIZ then none else (V n).lookup x)
        (fun _ => False) s) ∧
    ∀ ops : List DirOp, (∀ op ∈ ops, op.Ok) →
      wp (DirOp.runAll e ops) (fun _ t => ∃ V', Rep sb H L V' t ∧ (V' n).IsMap)
        (fun _ => True) s := by
  have hlen : (name.take DIRSIZ).length ≤ DIRSIZ := List.length_take_le ..
  have hnul' : ∀ c ∈ name.take DIRSIZ, c ≠ 0 := fun c hc => hnul c (List.mem_of_mem_take hc)
  -- the answers after a slot has been set
  have hafter : ∀ {t v} {f : Name → Option ℕ}, Rep sb H L (update V n v) t → Kept H s t →
      v.IsMap ∧ (∀ x, v.lookup x = f x) →
      (∃ V', Rep sb H L V' t ∧ (V' n).IsMap ∧ ∀ m ≠ n, V' m = V m) ∧ Answers H e t f := by
    rintro t v f hrep hkept ⟨hmap', hf⟩
    have hmap'' : ((update V n v) n).IsMap := by rwa [update_self]
    refine ⟨⟨_, hrep, hmap'', fun m hm => update_of_ne hm ..⟩, ?_⟩
    have hanswers := answers_lookup hrep he (hkept.valid e he hv)
      ((hkept.inum e he).trans hn) hmap''
    rw [update_self, show v.lookup = f from funext hf] at hanswers
    exact hanswers
  refine ⟨fun de => ?_, fun inum => ?_, answers_lookup h he hv hn hmap, ?_, ?_, ?_, ?_⟩
  · rw [namecmp, strncmp_eq_zero_iff, map_cstr hnul, eq_comm]
    rfl
  · rw [strncpy_cstr hnul, dirent_bytes hlen]
  · intro inum hpos hlt hroom
    have hwrite := writei_dirent_room h he hv hn hmap (emptySlot_spec (V n)).1 hroom
      (dirent (name.take DIRSIZ) inum)
    apply wp_conseq (dirlink_map h he hv hn hmap (fun hall => ⟨rfl, hall⟩)
      (wp_mono hwrite (fun r t hdone => ⟨fun hr => absurd hdone.1 hr, fun _ => hdone.2⟩)
        fun _ => False.elim))
    rintro r t (⟨rfl, hold, hrep, hcalm, hkept⟩ | ⟨rfl, hnew, hrep, hkept⟩)
    · exact ⟨iff_of_true rfl hold, fun _ => ⟨hrep, hcalm, answers_lookup hrep he
        (hkept.valid e he hv) ((hkept.inum e he).trans hn) hmap⟩, fun hne => absurd rfl hne⟩
    · exact ⟨iff_of_false (by decide) (not_not.mpr hnew), fun hr => absurd hr (by decide),
        fun _ => ⟨rfl, hafter hrep hkept (hmap.link hlen hnul' hpos hlt hnew)⟩⟩
  · apply wp_conseq (dirlookup_map h he hv hn hmap (fun hall => ⟨rfl, hall⟩) _)
    rintro r t (⟨rfl, hfind, -⟩ | ⟨ip, i, rfl, hfind, -⟩)
    · rw [hfind]
      rfl
    · rw [hfind]
      rfl
  · intro i hfind
    have hi := (find_eq_some hfind).1
    have hsize := hmap.whole
    have hwithin : DIRENTSIZE * i + DIRENTSIZE ≤ (V n).size := by
      rw [hsize, ← mul_succ]
      exact mul_le_mul_left _ hi
    have hroom : Room sb e i s := by
      have hdev : (V n).type ≠ T_DEV := by
        rw [hmap.dir]
        decide
      exact ⟨hwithin.trans (size_le h he hv hn hdev), enough_within h he hv hn hdev hwithin⟩
    apply wp_conseq (writei_dirent_room h he hv hn hmap hi.le hroom _)
    rintro r t ⟨hr, hrep, hkept⟩
    exact ⟨hr, hafter hrep hkept (hmap.erase hfind)⟩
  · exact fun ops hok => DirOp.runAll_map he ops V s h hv hn hmap hok

/-- A name of 16 bytes is linked in an empty directory; its first 14 are found. -/
theorem directory_map_long : ∃ t u, ilock 0 dirProc.vol = .ok ((), t) ∧
    dirlink 0 (List.replicate DIRSIZ 0x61) 7 t = .ok (0, u) ∧
    Answers {0} 0 u fun x => if x = List.replicate DIRSIZ 0x61 then some 7 else none := by
  have hcheck : ((ilock 0 dirProc.vol).toOption.any fun (r : Unit × Vol) =>
      decide (missing (r.2.icache 0).d r.2.blk (span 0 DIRENTSIZE) ≤
        (freeBlocks smallDisk r.2.blk).card)) = true := by decide +kernel
  have hheld : (0 : Ix) ∈ ({0} : Multiset Ix) := Multiset.mem_singleton_self 0
  have hroot : (dirFiles 1).type = T_DIR ∧ (dirFiles 1).size = 0 := by decide +kernel
  have hslots : (dirFiles 1).slots = 0 := dirFiles_slots (by rw [hroot.1]; decide)
  have hmap : (dirFiles 1).IsMap := by
    refine ⟨hroot.1, by rw [Whole, hroot.2, hslots, mul_zero], fun i j m m' x hi => ?_⟩
    have hlt := hi.1
    omega
  cases hlock : ilock 0 dirProc.vol with
  | error e =>
    rw [hlock] at hcheck
    exact absurd hcheck Bool.false_ne_true
  | ok p =>
    obtain ⟨⟨⟩, t⟩ := p
    rw [hlock] at hcheck
    obtain ⟨hrep, hv, -, -, -, hkept⟩ := wp_ok (ilock_rep (n := 1) (E := fun _ => True)
      dirFiles_rep (fun _ => trivial) hheld rfl (.inr trivial)) hlock
    have hn : (t.icache 0).inum = 1 := hkept.inum 0 hheld
    have hempty : (dirFiles 1).emptySlot = 0 := by
      have hle := (emptySlot_spec (dirFiles 1)).1
      omega
    have hroom : Room smallDisk 0 (dirFiles 1).emptySlot t := by
      rw [hempty]
      exact ⟨by decide, fun _ _ => of_decide_eq_true hcheck⟩
    have hnone : ∀ x, (dirFiles 1).lookup x = none := by
      intro x
      rw [lookup_eq_none hmap]
      intro i m hi
      have hlt := hi.1
      omega
    have hnul : ∀ c ∈ List.replicate 16 (0x61 : Byte), c ≠ 0 := by decide
    obtain ⟨-, -, -, hlink, -⟩ := directory_map hrep hheld hv hn hmap hnul
    obtain ⟨r, u, hrun, hiff, -, hdone⟩ := exists_ok (wp_mono
      (hlink 7 (by decide) (by decide) hroom)
      (fun _ _ hpost => hpost) fun x hfull => absurd (hfull.2 1) (by decide))
    have hr : r ≠ -1 := fun h => hiff.mp h (hnone _)
    obtain ⟨rfl, -, hanswers⟩ := hdone hr
    refine ⟨t, u, rfl, hrun, ?_⟩
    simp only [hnone] at hanswers
    exact hanswers

end Xv6Threads.Fs
