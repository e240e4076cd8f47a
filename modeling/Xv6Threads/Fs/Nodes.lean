import Mathlib.Order.Interval.Finset.Nat
import Xv6Threads.Fs.Content
import Xv6Threads.Fs.Inodes

namespace Xv6Threads.Fs

open Bytes Function

@[ext] structure Node where
  type : ℕ
  major : ℕ
  minor : ℕ
  nlink : ℕ
  size : ℕ
  data : ℕ → Byte

def Node.free : Node := ⟨0, 0, 0, 0, 0, fun _ => 0⟩

def Dinode.node (d : Dinode) (B : ℕ → Block) : Node where
  type := d.type
  major := d.major
  minor := d.minor
  nlink := d.nlink
  size := d.size
  data x := if d.type ≠ T_DEV ∧ x < d.size then d.byte B x else 0

def nodes (sb : Superblock) (D : ℕ → Dinode) (B : ℕ → Block) (n : ℕ) : Node :=
  if n < sb.ninodes ∧ (D n).type ≠ 0 then (D n).node B else Node.free

/-- Cache and disk together hold the files `V`. -/
structure Holds (sb : Superblock) (H : Multiset Ix) (L : Finset Ix) (D : ℕ → Dinode)
    (V : ℕ → Node) (s : Vol) : Prop where
  geometry : Geometry sb
  cached : Cached sb none H L D s
  owned : Owned sb D s.blk
  mapped : Mapped sb D s.blk
  view : nodes sb D s.blk = V

def Rep (sb : Superblock) (H : Multiset Ix) (L : Finset Ix) (V : ℕ → Node) (s : Vol) : Prop :=
  ∃ D, Holds sb H L D V s

variable {sb : Superblock} {H H' : Multiset Ix} {L L' : Finset Ix} {D D' : ℕ → Dinode}
  {B B' : ℕ → Block} {V V' : ℕ → Node} {s t u : Vol} {e e' : Ix} {m n off len : ℕ}
  {src : ℕ → Byte} {E : Stop → Prop}

theorem nodes_of_live (h : Live sb D n) : nodes sb D B n = (D n).node B := if_pos h

theorem nodes_of_not_live (h : ¬Live sb D n) : nodes sb D B n = Node.free := if_neg h

theorem node_of_keeps (hmap : Mapped sb D B) (hm : Live sb D m) (hk : Keeps D D' B B' m)
    (hd : D' m = { D m with addrs := (D' m).addrs }) : (D' m).node B' = (D m).node B := by
  have hmajor : (D' m).major = (D m).major := by rw [hd]
  have hminor : (D' m).minor = (D m).minor := by rw [hd]
  have hnlink : (D' m).nlink = (D m).nlink := by rw [hd]
  ext : 1
  case data =>
    funext x
    simp only [Dinode.node, hk.type, hk.size]
    split_ifs with hx
    · exact hk.byte (hmap.byte hm hx.1 hx.2)
    · rfl
  case type => exact hk.type
  case size => exact hk.size
  case major => exact hmajor
  case minor => exact hminor
  case nlink => exact hnlink

theorem nodes_of_keeps (hmap : Mapped sb D B) (hk : Live sb D m → Keeps D D' B B' m)
    (hd : D' m = { D m with addrs := (D' m).addrs }) : nodes sb D' B' m = nodes sb D B m := by
  have hlive : Live sb D' m ↔ Live sb D m := by
    unfold Live
    rw [hd]
  by_cases hm : Live sb D m
  · rw [nodes_of_live hm, nodes_of_live (hlive.mpr hm)]
    exact node_of_keeps hmap hm (hk hm) hd
  · rw [nodes_of_not_live hm, nodes_of_not_live (mt hlive.mp hm)]

theorem Owned.keeps (ho : Owned sb D B) (hB : ∀ b, dataStart sb ≤ b → B' b = B b)
    (hm : Live sb D m) : Keeps D D B B' m := by
  refine ⟨rfl, rfl, ?_⟩
  intro k _ h0
  refine ⟨?_, hB _ (ho.ptr_range hm h0).1⟩
  apply ptr_frame hm
  intro j hj
  exact hB _ (ho.range j hj).1

namespace Rep

section

variable (h : Rep sb H L V s)
include h

theorem one (he : e ∈ H) (he' : e' ∈ H) (heq : (s.icache e).inum = (s.icache e').inum) :
    e = e' := by
  obtain ⟨D, hd⟩ := h
  exact hd.cached.one e he e' he' heq

theorem node (he : e ∈ H) (hv : (s.icache e).valid = true)
    (hn : (s.icache e).inum = n) : V n = (s.icache e).d.node s.blk := by
  obtain ⟨D, hd⟩ := h
  rw [← hd.view, hd.cached.d_eq he hv, ← hn]
  exact nodes_of_live (hd.cached.live he hv)

theorem type_ne (he : e ∈ H) (hv : (s.icache e).valid = true)
    (hn : (s.icache e).inum = n) : (V n).type ≠ 0 := by
  obtain ⟨D, hd⟩ := h
  have hlive := hd.cached.live he hv
  rw [← hd.view, ← hn, nodes_of_live hlive]
  exact hlive.2

theorem lt_of_type (ht : (V n).type ≠ 0) : n < sb.ninodes := by
  obtain ⟨D, hd⟩ := h
  rw [← hd.view] at ht
  by_contra hn
  rw [nodes_of_not_live fun hlive => hn hlive.1] at ht
  exact ht rfl

theorem size_lt (n : ℕ) : (V n).size < 2 ^ 32 := by
  obtain ⟨D, hd⟩ := h
  rw [← hd.view]
  by_cases hlive : Live sb D n
  · rw [nodes_of_live hlive]
    exact (hd.cached.fits n hlive.1).size
  · rw [nodes_of_not_live hlive]
    exact Nat.two_pow_pos 32

end

end Rep

theorem Holds.calm (h : Holds sb H L D V s) (hc : Cached sb none H' L' D t) (hblk : t.blk = s.blk) :
    Rep sb H' L' V t := by
  refine ⟨D, h.geometry, hc, ?_, ?_, ?_⟩
  · rw [hblk]
    exact h.owned
  · rw [hblk]
    exact h.mapped
  · rw [hblk]
    exact h.view

theorem iget_rep (h : Rep sb H L V s) (hfull : (∀ e, e ∈ H) → E (.panic "iget: no inodes"))
    (hn : n < sb.ninodes) :
    wp (iget n) (fun e t => Rep sb (e ::ₘ H) L V t ∧ (t.icache e).inum = n ∧ Calm s t ∧
      Kept H s t) E s := by
  obtain ⟨D, hd⟩ := h
  apply wp_conseq (iget_spec hd.cached hfull hn)
  rintro e t ⟨hc, hinum, hcalm, hkept⟩
  exact ⟨hd.calm hc hcalm.blk, hinum, hcalm, hkept⟩

theorem idup_rep (h : Rep sb H L V s) (he : e ∈ H) :
    wp (idup e) (fun e' t => e' = e ∧ Rep sb (e ::ₘ H) L V t ∧ Calm s t ∧ Kept H s t) E s := by
  obtain ⟨D, hd⟩ := h
  apply wp_conseq (idup_spec hd.cached he)
  rintro e' t ⟨rfl, hc, hcalm, hkept⟩
  exact ⟨rfl, hd.calm hc hcalm.blk, hcalm, hkept⟩

theorem ilock_rep (h : Rep sb H L V s) (hsleep : e ∈ L → E .sleep) (he : e ∈ H)
    (hn : (s.icache e).inum = n) (ht : (V n).type ≠ 0 ∨ E (.panic "ilock: no type")) :
    wp (ilock e) (fun _ t => Rep sb H (insert e L) V t ∧ (t.icache e).valid = true ∧
      (V n).type ≠ 0 ∧ e ∉ L ∧ Calm s t ∧ Kept H s t) E s := by
  obtain ⟨D, hd⟩ := h
  have ht' : (D (s.icache e).inum).type ≠ 0 ∨ E (.panic "ilock: no type") := by
    apply ht.imp_left
    rw [← hd.view, hn]
    intro h0 hzero
    rw [nodes_of_not_live fun hlive => hlive.2 hzero] at h0
    exact h0 rfl
  apply wp_conseq (ilock_spec hd.cached hsleep he (.inr (by simp)) ht')
  rintro _ t ⟨hc, hv, hl, hcalm, hkept⟩
  have hrep := hd.calm hc hcalm.blk
  exact ⟨hrep, hv, hrep.type_ne he hv ((hkept.inum e he).trans hn), hl, hcalm, hkept⟩

theorem iunlock_rep (h : Rep sb H L V s) (hlocked : e ∉ L → E (.panic "iunlock")) (he : e ∈ H) :
    wp (iunlock e) (fun _ t => Rep sb H (L.erase e) V t ∧ Calm s t ∧ Kept H s t) E s := by
  obtain ⟨D, hd⟩ := h
  apply wp_conseq (iunlock_spec hd.cached hlocked he)
  rintro _ t ⟨hc, hcalm, hkept⟩
  exact ⟨hd.calm hc hcalm.blk, hcalm, hkept⟩

theorem nodes_update (hmap : Mapped sb D B) {d : Dinode} {v : Node}
    (hother : ∀ m ≠ n, Live sb D m → Keeps D (update D n d) B B' m)
    (hself : nodes sb (update D n d) B' n = v) :
    nodes sb (update D n d) B' = update (nodes sb D B) n v := by
  funext m
  by_cases hm : m = n
  · rw [hm, update_self, hself]
  · rw [update_of_ne hm]
    apply nodes_of_keeps hmap (hother m hm)
    rw [update_of_ne hm]

theorem Keeps.update (h : Keeps D D B B' m) (hm : m ≠ n) (d : Dinode) :
    Keeps D (Function.update D n d) B B' m := by
  refine ⟨?_, ?_, ?_⟩
  · rw [update_of_ne hm]
  · rw [update_of_ne hm]
  · rw [update_of_ne hm]
    exact h.data

theorem Touches.data {A : Finset ℕ} (h : Touches A s t) (g : Geometry sb) (hn : n < sb.ninodes)
    (hA : A ⊆ freeing sb n) (b : ℕ) (hb : dataStart sb ≤ b) : t.blk b = s.blk b := by
  apply h.blk
  intro hmem
  rcases Finset.mem_insert.mp (hA hmem) with heq | hbm
  · have hlt := g.iblock_lt hn
    have hlt' := g.bmapstart_lt
    omega
  · exact data_notMem_bitmap g hb hbm

theorem iput_rep (h : Rep sb (e ::ₘ H) L V s) (hl : e ∈ L → e ∈ H) (hn : (s.icache e).inum = n) :
    wp (iput e) (fun _ t => ∃ V', Rep sb H L V' t ∧ Kept H s t ∧
      (¬(e ∉ H ∧ (s.icache e).valid = true ∧ (V n).nlink = 0) ∧ V' = V ∧ Calm s t ∨
        (e ∉ H ∧ (s.icache e).valid = true ∧ (V n).nlink = 0) ∧
          V' = update V n Node.free ∧ Touches (freeing sb n) s t)) E s := by
  obtain ⟨D, hd⟩ := h
  have he : e ∈ e ::ₘ H := Multiset.mem_cons_self e H
  have hlast : Last H D s e ↔ e ∉ H ∧ (s.icache e).valid = true ∧ (V n).nlink = 0 := by
    unfold Last
    rw [← hd.view]
    constructor
    · rintro ⟨hlast, hv, hzero⟩
      rw [← hn, nodes_of_live (hd.cached.live he hv)]
      exact ⟨hlast, hv, hzero⟩
    · rintro ⟨hlast, hv, hzero⟩
      rw [← hn, nodes_of_live (hd.cached.live he hv)] at hzero
      exact ⟨hlast, hv, hzero⟩
  apply wp_conseq (iput_spec hd.cached hd.geometry hd.owned hl hn)
  rintro _ t ⟨hkept, ⟨hnot, hc, hcalm⟩ | ⟨hyes, hc, howned, htouch⟩⟩
  · exact ⟨V, hd.calm hc hcalm.blk, hkept, .inl ⟨mt hlast.mpr hnot, rfl, hcalm⟩⟩
  · have hlt : n < sb.ninodes := hn ▸ hd.cached.inum e he
    have hdata := htouch.data hd.geometry hlt (Finset.Subset.refl _)
    have hkeeps : ∀ m ≠ n, Live sb D m →
        Keeps D (update D n (D n).freed) s.blk t.blk m :=
      fun m hm hlive => (hd.owned.keeps hdata hlive).update hm _
    have hdead : ¬Live sb (update D n (D n).freed) n := by
      rintro ⟨-, htype⟩
      rw [update_self] at htype
      exact htype rfl
    have hview := nodes_update hd.mapped hkeeps (nodes_of_not_live hdead)
    rw [hd.view] at hview
    refine ⟨_, ⟨_, hd.geometry, hc, howned, ?_, hview⟩, hkept, .inr ⟨hlast.mp hyes, rfl, htouch⟩⟩
    apply hd.mapped.of_keeps
    intro m hm
    by_cases hmn : m = n
    · exact absurd (hmn ▸ hm) hdead
    · right
      apply hkeeps m hmn
      rwa [Live, update_of_ne hmn] at hm

theorem nodes_frame (ho : Owned sb D B) (hmap : Mapped sb D B)
    (hB : ∀ b, dataStart sb ≤ b → B' b = B b) : nodes sb D B' = nodes sb D B := by
  funext m
  exact nodes_of_keeps hmap (ho.keeps hB) rfl

theorem Mapped.frame (h : Mapped sb D B) (ho : Owned sb D B)
    (hB : ∀ b, dataStart sb ≤ b → B' b = B b) : Mapped sb D B' :=
  h.of_keeps fun _ hm => .inr (ho.keeps hB hm)

def Node.read (v : Node) (off len : ℕ) : ℤ × (ℕ → Byte) :=
  if v.size < off ∨ 2 ^ 32 ≤ off + len then (-1, fun _ => 0)
  else ((min len (v.size - off) : ℕ),
    fun i => if i < min len (v.size - off) then v.data (off + i) else 0)

theorem w32_lt_iff {off len : ℕ} (hoff : off < 2 ^ 32) (hlen : len < 2 ^ 32) :
    w32 (off + len) < off ↔ 2 ^ 32 ≤ off + len := by
  unfold w32
  omega

theorem readi_rep (h : Rep sb H L V s) (he : e ∈ H) (hv : (s.icache e).valid = true)
    (hn : (s.icache e).inum = n) (hlen : len < 2 ^ 32) :
    wp (readi e off len) (fun r t => s = t ∧ ((V n).type ≠ T_DEV →
      r = (V n).read off len)) E s := by
  have hnode := h.node he hv hn
  have hsize := h.size_lt n
  obtain ⟨D, hd⟩ := h
  have hlive : Live sb D n := hn ▸ hd.cached.live he hv
  have hdn : (s.icache e).d = D n := hn ▸ hd.cached.d_eq he hv
  rw [hdn] at hnode
  have hszeq : (V n).size = (D n).size := by rw [hnode]; rfl
  have htyeq : (V n).type = (D n).type := by rw [hnode]; rfl
  rw [hszeq] at hsize
  unfold readi
  apply wp_bind (wp_inode _)
  rw [hdn]
  apply wp_ite
  · intro hdev
    apply wp_bind (wp_get _)
    cases (deviceOf s (D n)).bind DevSw.read with
    | none | some read => exact wp_pure ⟨rfl, fun hnot => absurd (htyeq.trans hdev) hnot⟩
  · intro hdev
    apply wp_ite
    · intro hbad
      refine wp_pure ⟨rfl, fun _ => ?_⟩
      rw [Node.read, if_pos]
      rw [hszeq]
      rcases hbad with hlt | hwrap
      · exact .inl hlt
      · by_cases hoff : (D n).size < off
        · exact .inl hoff
        · exact .inr ((w32_lt_iff (by omega) hlen).mp hwrap)
    · intro hok
      rw [not_or, not_lt, w32_lt_iff (by omega) hlen, not_le] at hok
      have hw : w32 (off + len) = off + len := Nat.mod_eq_of_lt hok.2
      have hmin : (if (D n).size < w32 (off + len) then (D n).size - off else len) =
          min len ((D n).size - off) := by
        rw [hw]
        split_ifs <;> omega
      simp only [hmin]
      apply wp_call (readLoop_spec hd.cached he hn hv _ 0 off _ (by omega) fun y _ hy =>
        hd.mapped.byte hlive hdev (by omega))
      rintro dst _ ⟨rfl, rfl⟩
      refine wp_pure ⟨rfl, fun _ => ?_⟩
      rw [Node.read, hszeq, if_neg (by omega)]
      simp only [Prod.mk.injEq, Nat.zero_le, true_and, Nat.sub_zero]
      funext i
      split_ifs with hi
      · rw [hnode]
        exact (if_pos ⟨hdev, by omega⟩).symm
      · rfl

def Node.write (v : Node) (src : ℕ → Byte) (off len : ℕ) : Node :=
  { v with
    size := max v.size (off + len)
    data := fun y => if off ≤ y ∧ y < off + len then src (y - off) else v.data y }

section
variable (h : Writing sb H L D s n src off len D' t) (hn : Live sb D n)
  (hdev : (D n).type ≠ T_DEV) (hoff : off ≤ (D n).size)

include h hn hdev hoff

theorem Writing.node (hB : ∀ b, dataStart sb ≤ b → u.blk b = t.blk b) :
    Dinode.node { D' n with size := max (D n).size (off + len) } u.blk =
      ((D n).node s.blk).write src off len := by
  have hkeeps := h.owned.keeps hB (h.live hn)
  have hself := h.self
  have hbyte : ∀ y < max (D n).size (off + len), (D' n).byte u.blk y =
      if off ≤ y ∧ y < off + len then src (y - off) else (D n).byte s.blk y := by
    intro y hy
    rw [← h.bytes y hy]
    exact hkeeps.byte (h.mapped _ ((Nat.div_mul_le_self y BSIZE).trans_lt hy))
  ext : 1
  case data =>
    funext y
    have htype : (D' n).type = (D n).type := by rw [hself]
    simp only [Dinode.node, Node.write, htype]
    by_cases hy : y < max (D n).size (off + len)
    · rw [if_pos ⟨hdev, hy⟩]
      refine (hbyte y hy).trans ?_
      split_ifs with hin hold
      · rfl
      · rfl
      · omega
    · rw [if_neg fun hlt => hy hlt.2, if_neg (by omega), if_neg (by omega)]
  case size => rfl
  all_goals
    simp only [Dinode.node, Node.write]
    rw [hself]

theorem Writing.rep (hd : Holds sb H L D V s) (hB : ∀ b, sb.bmapstart ≤ b → u.blk b = t.blk b)
    (hc : Cached sb none H L (update D' n { D' n with size := max (D n).size (off + len) }) u) :
    Rep sb H L (update V n ((V n).write src off len)) u := by
  have hdata : ∀ b, dataStart sb ≤ b → u.blk b = t.blk b :=
    fun b hb => hB b (hd.geometry.bmapstart_lt.le.trans hb)
  have hlive := h.live hn
  have hlive_iff : ∀ m, Live sb
      (update D' n { D' n with size := max (D n).size (off + len) }) m ↔ Live sb D' m :=
    fun m => live_update (n := n) Iff.rfl
  have hback : ∀ m ≠ n, Live sb D' m → Live sb D m := by
    intro m hm hm'
    rwa [Live, h.other m hm] at hm'
  have hkeeps : ∀ m ≠ n, Live sb D m → Keeps D
      (update D' n { D' n with size := max (D n).size (off + len) }) s.blk u.blk m := by
    intro m hm hmlive
    exact (h.keeps m hm hmlive).trans ((h.owned.keeps hdata (h.live hmlive)).update hm _)
  refine ⟨_, hd.geometry, hc, ?_, ?_, ?_⟩
  · apply h.owned.frame hd.geometry hlive_iff _ hB
    intro m
    by_cases hm : m = n
    · rw [hm, update_self]
    · rw [update_of_ne hm]
  · intro m hm hmdev bn hbn
    by_cases hmn : m = n
    · rw [hmn, update_self] at hbn ⊢
      have h0 := h.mapped bn hbn
      have hsame := ((h.owned.keeps hdata hlive).fileBlk h0).1
      change (D' n).fileBlk u.blk bn ≠ 0
      rwa [hsame]
    · have hmlive := hback m hmn ((hlive_iff m).mp hm)
      have hk := hkeeps m hmn hmlive
      rw [hk.size] at hbn
      have h0 := hd.mapped m hmlive (hk.type ▸ hmdev) bn hbn
      rwa [(hk.fileBlk h0).1]
  · rw [← hd.view]
    funext m
    by_cases hm : m = n
    · rw [hm, update_self, nodes_of_live ((hlive_iff n).mpr hlive), update_self, nodes_of_live hn]
      exact h.node hn hdev hoff hdata
    · rw [update_of_ne hm]
      apply nodes_of_keeps hd.mapped (hkeeps m hm)
      rw [update_of_ne hm, h.other m hm]

end

theorem writeSize_rep (h : Writing sb H L D s n src off len D' t) (hd : Holds sb H L D V s)
    (he : e ∈ H) (hinum : (s.icache e).inum = n) (hv : (s.icache e).valid = true)
    (hdev : (D n).type ≠ T_DEV) (hoff : off ≤ (D n).size) (hmax : off + len ≤ MAXFILE * BSIZE) :
    wp (writeSize e len (off + len)) (fun _ u =>
      Rep sb H L (update V n ((V n).write src off len)) u ∧ Kept H s u) E t := by
  have hn : Live sb D n := hinum ▸ hd.cached.live he hv
  have hinum' : (t.icache e).inum = n := (h.kept.inum e he).trans hinum
  have hvt := h.kept.valid e he hv
  have hdt : (t.icache e).d = D' n := hinum' ▸ h.cached.d_eq he hvt
  have hsize : (D' n).size = (D n).size := by rw [h.self]
  unfold writeSize
  apply wp_bind (wp_inode _)
  rw [hdt, hsize]
  apply wp_ite
  · intro hgrow
    have hfits : Dinode.Fits { D' n with size := off + len } := by
      have hf := h.cached.fits n hn.1
      have hbound : MAXFILE * BSIZE < 2 ^ 32 := by decide
      exact ⟨hf.type, hf.major, hf.minor, hf.nlink, hmax.trans_lt hbound, hf.addrs⟩
    apply wp_bind (wp_setD _)
    rw [hdt]
    have hset := h.cached.setD he hinum' (.inr rfl) hfits (h.live hn).2
    have hinum'' :
      ((t.put e { t.icache e with d := { D' n with size := off + len } }).icache e).inum
        = n := by simpa using hinum'
    apply wp_conseq (iupdate_spec hset hd.geometry he (by simpa using hvt) (.inr (by rw [hinum''])))
    rintro _ u ⟨hc, hic, htouch⟩
    rw [hinum''] at htouch
    have hmaxeq : max (D n).size (off + len) = off + len := by omega
    constructor
    · apply h.rep hn hdev hoff hd _ (by rwa [hmaxeq])
      intro b hb
      have hlt := hd.geometry.iblock_lt hn.1
      exact htouch.blk b (by rw [Finset.mem_singleton]; omega)
    · have hput : Kept H t (t.put e { t.icache e with d := { D' n with size := off + len } }) :=
        Kept.put (fun _ => rfl) fun _ => id
      exact (h.kept.trans hput).trans (Kept.of_icache hic)
  · intro hstay
    have hle : off + len ≤ (D n).size := by omega
    refine wp_pure ⟨?_, h.kept⟩
    apply h.rep hn hdev hoff hd fun _ _ => rfl
    have hsame : ({ D' n with size := max (D n).size (off + len) } : Dinode) = D' n := by
      rw [max_eq_left hle, ← hsize]
    rw [hsame, update_eq_self]
    exact h.sync hle

theorem writei_rep (h : Rep sb H L V s) (hE : Tolerant E) (he : e ∈ H)
    (hv : (s.icache e).valid = true) (hn : (s.icache e).inum = n) (hlen : len < 2 ^ 32) :
    wp (writei e src off len) (fun r t =>
      s = t ∧ ((V n).type = T_DEV ∨ r = -1 ∧ ((V n).size < off ∨ MAXFILE * BSIZE < off + len)) ∨
      r = len ∧ (V n).type ≠ T_DEV ∧ off ≤ (V n).size ∧ off + len ≤ MAXFILE * BSIZE ∧
        Rep sb H L (update V n ((V n).write src off len)) t ∧ Kept H s t) E s := by
  have hnode := h.node he hv hn
  have hsize := h.size_lt n
  obtain ⟨D, hd⟩ := h
  have hlive : Live sb D n := hn ▸ hd.cached.live he hv
  have hdn : (s.icache e).d = D n := hn ▸ hd.cached.d_eq he hv
  rw [hdn] at hnode
  have hszeq : (V n).size = (D n).size := by rw [hnode]; rfl
  have htyeq : (V n).type = (D n).type := by rw [hnode]; rfl
  rw [hszeq] at hsize
  simp only [hszeq, htyeq]
  unfold writei
  apply wp_bind (wp_inode _)
  rw [hdn]
  apply wp_ite
  · intro hdev
    apply wp_bind (wp_get _)
    cases (deviceOf s (D n)).bind DevSw.write with
    | none | some write => exact wp_pure (.inl ⟨rfl, .inl hdev⟩)
  · intro hdev
    have hmaxlt : MAXFILE * BSIZE < 2 ^ 32 := by decide
    apply wp_ite
    · intro hbad
      refine wp_pure (.inl ⟨rfl, .inr ⟨rfl, ?_⟩⟩)
      by_cases hoff : (D n).size < off
      · exact .inl hoff
      · have hwrap := (w32_lt_iff (by omega) hlen).mp (hbad.resolve_left hoff)
        exact .inr (by omega)
    · intro hok
      rw [not_or, not_lt, w32_lt_iff (by omega) hlen, not_le] at hok
      rw [show w32 (off + len) = off + len from Nat.mod_eq_of_lt hok.2]
      apply wp_ite
      · intro hbig
        exact wp_pure (.inl ⟨rfl, .inr ⟨rfl, .inr hbig⟩⟩)
      · intro hfit
        have hstart : Writing sb H L D s n src off 0 D s :=
          Writing.start hd.cached hd.owned (fun bn hbn => hd.mapped n hlive hdev bn hbn) hok.1
        apply wp_call (writeLoop_spec hd.geometry hE he hn hv hlive len 0 D s (by omega) (by omega)
          hstart)
        rintro _ t ⟨rfl, D', hw⟩
        apply wp_call (writeSize_rep hw hd he hn hv hdev hok.1 (by omega))
        rintro _ u ⟨hrep, hkept⟩
        exact wp_pure (.inr ⟨rfl, hdev, hok.1, by omega, hrep, hkept⟩)

end Xv6Threads.Fs
