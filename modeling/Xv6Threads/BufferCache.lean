import Mathlib.Data.Fintype.Basic
import Xv6Threads.Param

namespace Xv6Threads.BufferCache

open Function Option Except

abbrev NBUF : ℕ := MAXOPBLOCKS * 3

/-- The position of a buffer in `bcache.buf`. -/
abbrev Ix : Type := Fin NBUF

/-- `struct buf`; `B_BUSY` is set while there is a holder. `touched` is not in the source: the
holder has changed the data and has called neither `log_write` nor `bwrite` since. -/
structure Buf (P D : Type) where
  /-- `none`: `dev` is -1 -/
  blockno : Option ℕ
  holder : Option P
  valid : Bool
  dirty : Bool
  data : D
  touched : Bool

/-- `bcache` and the one disk, which does not fail; `order` is the list from `head.next` on, so most
recently used first. -/
structure Cache (P D : Type) where
  buf : Ix → Buf P D
  order : List Ix
  disk : ℕ → D
  flat : ℕ → D

/-- What a process does with buffers. It names the buffers it holds by their block numbers. -/
inductive Instr (D : Type)
  | bread (b : ℕ)
  | modify (b : ℕ) (d : D)
  /-- `write_log`'s `memmove` -/
  | copy (src dst : ℕ)
  /-- `install_trans`'s `memmove` -/
  | install (src dst : ℕ)
  /-- the assignments of `write_head` to the buffer of block `b`, for the header `ns` -/
  | head (b : ℕ) (ns : List ℕ)
  | bwrite (b : ℕ)
  | brelse (b : ℕ)
  deriving DecidableEq

/-- `panic("bget: no buffers")` -/
inductive Panic
  | noBuffers
  deriving DecidableEq

section
variable {P D : Type}

def setBuf (s : Cache P D) (i : Ix) (x : Buf P D) : Cache P D :=
  { s with buf := update s.buf i x }

/-- `none` when the caller goes to sleep on a busy buffer. -/
def bget (s : Cache P D) (p : P) (b : ℕ) : Option (Except Panic (Cache P D × Ix)) :=
  match s.order.find? fun i => (s.buf i).blockno = some b with
  | some i =>
    match (s.buf i).holder with
    | none => some (.ok (setBuf s i { s.buf i with holder := some p }, i))
    | some _ => none
  | none =>
    match s.order.reverse.find? fun i => (s.buf i).holder.isNone && !(s.buf i).dirty with
    | some i =>
      some (.ok (setBuf s i { s.buf i with
        blockno := some b, holder := some p, valid := false, dirty := false }, i))
    | none => some (.error .noBuffers)

/-- `iderw` and the interrupt that ends it: a dirty buffer is written, another one is read. -/
def iderw (s : Cache P D) (i : Ix) (b : ℕ) : Cache P D :=
  if (s.buf i).dirty then
    { setBuf s i { s.buf i with valid := true, dirty := false } with
      disk := update s.disk b (s.buf i).data }
  else setBuf s i { s.buf i with valid := true, data := s.disk b }

/-- Until `bread` returns the buffer is busy, so its two halves are one step. -/
def bread (s : Cache P D) (p : P) (b : ℕ) : Option (Except Panic (Cache P D)) :=
  (bget s p b).map fun r => r.map fun (t, i) => if (t.buf i).valid then t else iderw t i b

def bwrite (s : Cache P D) (i : Ix) (b : ℕ) : Cache P D :=
  let t := iderw (setBuf s i { s.buf i with dirty := true }) i b
  setBuf t i { t.buf i with touched := false }

def brelse (s : Cache P D) (i : Ix) : Cache P D :=
  { setBuf s i { s.buf i with holder := none } with order := i :: s.order.erase i }

/-- The buffer of block `b`, if `p` holds it. -/
def held [DecidableEq P] (s : Cache P D) (p : P) (b : ℕ) : Option Ix :=
  s.order.find? fun i => (s.buf i).blockno = some b ∧ (s.buf i).holder = some p

def store (s : Cache P D) (i : Ix) (d : D) : Cache P D :=
  setBuf s i { s.buf i with data := d, touched := true }

/-- New content that counts as a modification of block `b`. -/
def modify (s : Cache P D) (i : Ix) (b : ℕ) (d : D) : Cache P D :=
  { store s i d with flat := update s.flat b d }

/-- One instruction of `p`; `none` when `p` sleeps or does not hold the buffers. `enc ns d` is a
header block `d` in which `write_head` has put the header `ns`. -/
def exec [DecidableEq P] (enc : List ℕ → D → D) (s : Cache P D) (p : P) :
    Instr D → Option (Except Panic (Cache P D))
  | .bread b => bread s p b
  | .modify b d => (held s p b).map fun i => .ok (modify s i b d)
  | .copy src dst =>
    (held s p src).bind fun i => (held s p dst).map fun j => .ok (modify s j dst (s.buf i).data)
  | .install src dst =>
    (held s p src).bind fun i => (held s p dst).map fun j => .ok (store s j (s.buf i).data)
  | .head b ns => (held s p b).map fun i => .ok (modify s i b (enc ns (s.buf i).data))
  | .bwrite b => (held s p b).map fun i => .ok (bwrite s i b)
  | .brelse b => (held s p b).map fun i => .ok (brelse s i)

/-- `log_write` pins the buffer in the cache. -/
def setDirty (s : Cache P D) (i : Ix) : Cache P D :=
  setBuf s i { s.buf i with dirty := true, touched := false }

/-- No buffer of block `b` differs from the disk. -/
def Cache.Clean (s : Cache P D) (b : ℕ) : Prop :=
  ∀ i, (s.buf i).blockno = some b → (s.buf i).dirty = false ∧ (s.buf i).touched = false

/-- Cache and disk together are the flat map. -/
structure Coherent (s : Cache P D) : Prop where
  listed : ∀ i, i ∈ s.order
  one : ∀ i j b, (s.buf i).blockno = some b → (s.buf j).blockno = some b → i = j
  valid : ∀ i b, (s.buf i).blockno = some b → (s.buf i).valid = true
  data : ∀ i b, (s.buf i).blockno = some b → (s.buf i).data = s.flat b
  busy : ∀ i, (s.buf i).touched = true → (s.buf i).holder ≠ none
  disk : ∀ b, s.Clean b → s.disk b = s.flat b

/-- A logged block stays in the cache as long as its buffer is dirty. -/
def Cache.Pinned (s : Cache P D) (b : ℕ) : Prop :=
  ∃ i, (s.buf i).blockno = some b ∧ (s.buf i).dirty = true

variable {s s' : Cache P D} {p : P} {i j : Ix} {b : ℕ} {x : Buf P D}

@[simp] theorem setBuf_buf (s : Cache P D) (i j : Ix) (x : Buf P D) :
    (setBuf s i x).buf j = if j = i then x else s.buf j := by
  simp only [setBuf, update_apply]

/-- The rule for a step on the buffer of block `b`, which stays the buffer of block `b`. -/
theorem Coherent.update (h : Coherent s) (hb : (s.buf i).blockno = some b)
    (hbuf : s'.buf = Function.update s.buf i x) (hlisted : ∀ j ∈ s.order, j ∈ s'.order)
    (hblk : x.blockno = some b) (hvalid : x.valid = true) (hdata : x.data = s'.flat b)
    (hbusy : x.touched = true → x.holder ≠ none)
    (hclean : x.dirty = false → x.touched = false → s'.disk b = s'.flat b)
    (hflat : ∀ c ≠ b, s'.flat c = s.flat c) (hdisk : ∀ c ≠ b, s'.disk c = s.disk c) :
    Coherent s' := by
  have hself : s'.buf i = x := by rw [hbuf, update_self]
  have hother : ∀ j ≠ i, s'.buf j = s.buf j := by
    intro j hj
    rw [hbuf, update_of_ne hj]
  -- block numbers have not changed anywhere
  have hno : ∀ j, (s'.buf j).blockno = (s.buf j).blockno := by
    intro j
    by_cases hj : j = i
    · rw [hj, hself, hblk, hb]
    · rw [hother j hj]
  have hne : ∀ j c, j ≠ i → (s.buf j).blockno = some c → c ≠ b := by
    intro j c hj hc hcb
    exact hj (h.one j i c hc (hcb ▸ hb))
  refine ⟨fun j => hlisted j (h.listed j), ?_, ?_, ?_, ?_, ?_⟩
  · intro j k c hj hk
    rw [hno] at hj hk
    exact h.one j k c hj hk
  · intro j c hj
    by_cases hji : j = i
    · rw [hji, hself]
      exact hvalid
    · rw [hother j hji]
      exact h.valid j c ((hno j).symm.trans hj)
  · intro j c hj
    rw [hno] at hj
    by_cases hji : j = i
    · rw [hji] at hj ⊢
      rw [hself, some.inj (hj.symm.trans hb)]
      exact hdata
    · rw [hother j hji, hflat c (hne j c hji hj)]
      exact h.data j c hj
  · intro j hj
    by_cases hji : j = i
    · rw [hji, hself] at hj ⊢
      exact hbusy hj
    · rw [hother j hji] at hj ⊢
      exact h.busy j hj
  · intro c hc
    by_cases hcb : c = b
    · have hx := hc i (by rw [hno, hb, hcb])
      rw [hself] at hx
      rw [hcb]
      exact hclean hx.1 hx.2
    · rw [hflat c hcb, hdisk c hcb]
      apply h.disk
      intro j hj
      have hji : j ≠ i := fun hji => hcb (some.inj ((hji ▸ hj).symm.trans hb))
      have hcj := hc j ((hno j).trans hj)
      rwa [hother j hji] at hcj

theorem Coherent.untouched (h : Coherent s) (hfree : (s.buf i).holder = none) :
    (s.buf i).touched = false := by
  by_contra ht
  exact h.busy i (by simpa using ht) hfree

/-- The rule for recycling: a clean buffer nobody holds is filled with an uncached block. -/
theorem Coherent.recycle (h : Coherent s) (hfree : (s.buf i).holder = none)
    (hclean : (s.buf i).dirty = false) (hnew : ∀ j, (s.buf j).blockno ≠ some b)
    (hblk : x.blockno = some b) (hvalid : x.valid = true) (hdata : x.data = s.disk b)
    (hx : x.touched = false) : Coherent (setBuf s i x) := by
  have htouched := h.untouched hfree
  have hself : (setBuf s i x).buf i = x := by simp
  have hother : ∀ j ≠ i, (setBuf s i x).buf j = s.buf j := by
    intro j hj
    simp [hj]
  have hflat : s.disk b = s.flat b := h.disk b fun j hj => absurd hj (hnew j)
  refine ⟨h.listed, ?_, ?_, ?_, ?_, ?_⟩
  · intro j k c hj hk
    by_cases hji : j = i <;> by_cases hki : k = i
    · rw [hji, hki]
    · rw [hji, hself, hblk] at hj
      rw [hother k hki, ← hj] at hk
      exact absurd hk (hnew k)
    · rw [hki, hself, hblk] at hk
      rw [hother j hji, ← hk] at hj
      exact absurd hj (hnew j)
    · rw [hother j hji] at hj
      rw [hother k hki] at hk
      exact h.one j k c hj hk
  · intro j c hj
    by_cases hji : j = i
    · rw [hji, hself]
      exact hvalid
    · rw [hother j hji] at hj ⊢
      exact h.valid j c hj
  · intro j c hj
    by_cases hji : j = i
    · rw [hji, hself] at hj ⊢
      rw [hdata, hflat, some.inj (hblk.symm.trans hj)]
      rfl
    · rw [hother j hji] at hj ⊢
      exact h.data j c hj
  · intro j hj
    by_cases hji : j = i
    · rw [hji, hself, hx] at hj
      cases hj
    · rw [hother j hji] at hj ⊢
      exact h.busy j hj
  · intro c hc
    by_cases hcb : c = b
    · rw [hcb]
      exact hflat
    · -- the block that was in the buffer was clean, so the disk holds it
      apply h.disk
      intro j hj
      by_cases hji : j = i
      · rw [hji]
        exact ⟨hclean, htouched⟩
      · have hcj := hc j (by rw [hother j hji, hj])
        rwa [hother j hji] at hcj

/-- A `bread` that returns: the buffer was cached, or a free clean one is recycled. -/
theorem bread_cases (hr : bread s p b = some (.ok s')) (h : Coherent s) :
    (∃ i, (s.buf i).blockno = some b ∧ (s.buf i).holder = none ∧
      s' = setBuf s i { s.buf i with holder := some p }) ∨
    (∃ i, (s.buf i).holder = none ∧ (s.buf i).dirty = false ∧
      (∀ j, (s.buf j).blockno ≠ some b) ∧
      s' = setBuf s i { s.buf i with
        blockno := some b, holder := some p, valid := true, dirty := false,
        data := s.disk b }) := by
  unfold bread bget at hr
  cases hfind : s.order.find? fun i => (s.buf i).blockno = some b with
  | some i =>
    have hi : (s.buf i).blockno = some b := by simpa using List.find?_some hfind
    simp only [hfind] at hr
    cases hh : (s.buf i).holder with
    | some q => simp [hh] at hr
    | none =>
      refine .inl ⟨i, hi, hh, ?_⟩
      simp only [hh, map_some, Except.map, setBuf_buf, if_true, h.valid i b hi,
        some.injEq, ok.injEq] at hr
      simp only [← hr, h.valid i b hi]
  | none =>
    simp only [hfind] at hr
    cases hvic : s.order.reverse.find? fun i => (s.buf i).holder.isNone && !(s.buf i).dirty with
    | none => simp [hvic, Except.map] at hr
    | some i =>
      have hi : (s.buf i).holder = none ∧ (s.buf i).dirty = false := by
        simpa using List.find?_some hvic
      refine .inr ⟨i, hi.1, hi.2, ?_, ?_⟩
      · intro j hj
        have hnot := List.find?_eq_none.mp hfind j (h.listed j)
        simp [hj] at hnot
      · simp only [hvic, map_some, Except.map, setBuf_buf, if_true, some.injEq,
          Except.ok.injEq, Bool.false_eq_true, if_false, iderw] at hr
        rw [← hr]
        simp [setBuf]

theorem held_some [DecidableEq P] (hi : held s p b = some i) :
    (s.buf i).blockno = some b ∧ (s.buf i).holder = some p := by
  simpa using List.find?_some hi

theorem Coherent.held [DecidableEq P] (h : Coherent s) (hb : (s.buf i).blockno = some b)
    (hp : (s.buf i).holder = some p) : held s p b = some i := by
  have hsome : (BufferCache.held s p b).isSome := by
    rw [BufferCache.held, List.find?_isSome]
    exact ⟨i, h.listed i, by simp [hb, hp]⟩
  obtain ⟨j, hj⟩ := isSome_iff_exists.mp hsome
  rw [hj, h.one j i b (held_some hj).1 hb]

/-- `bread` hands out the flat map's content and leaves the map as it is. -/
theorem Coherent.bread [DecidableEq P] (h : Coherent s) (hr : bread s p b = some (.ok s')) :
    Coherent s' ∧ s'.flat = s.flat ∧
      ∃ i, BufferCache.held s' p b = some i ∧ (s'.buf i).data = s.flat b := by
  rcases bread_cases hr h with ⟨i, hb, hfree, rfl⟩ | ⟨i, hfree, hclean, hnew, rfl⟩
  · have hcoh : Coherent (setBuf s i { s.buf i with holder := some p }) := by
      refine h.update hb rfl (fun _ => id) hb (h.valid i b hb) (h.data i b hb) (by simp) ?_
        (fun _ _ => rfl) (fun _ _ => rfl)
      intro hd ht
      apply h.disk
      intro j hj
      rw [h.one j i b hj hb]
      exact ⟨hd, ht⟩
    refine ⟨hcoh, rfl, i, hcoh.held (by simpa using hb) (by simp), ?_⟩
    simpa using h.data i b hb
  · have hcoh := h.recycle hfree hclean hnew (x := { s.buf i with
      blockno := some b, holder := some p, valid := true, dirty := false, data := s.disk b })
      rfl rfl rfl (h.untouched hfree)
    refine ⟨hcoh, rfl, i, hcoh.held (by simp) (by simp), ?_⟩
    simpa using h.disk b fun j hj => absurd hj (hnew j)

/-- `bread` never gives a pinned buffer to another block. -/
theorem Coherent.bread_keeps (h : Coherent s) (hr : BufferCache.bread s p b = some (.ok s'))
    (hd : (s.buf j).dirty = true) : (s'.buf j).blockno = (s.buf j).blockno ∧
      (s'.buf j).dirty = true ∧ (s'.buf j).data = (s.buf j).data := by
  rcases bread_cases hr h with ⟨i, hb, hfree, rfl⟩ | ⟨i, hfree, hclean, hnew, rfl⟩
  · by_cases hji : j = i <;> simp [hji, hd]
    rw [← hji, hd]
  · have hji : j ≠ i := by
      rintro rfl
      rw [hclean] at hd
      cases hd
    simp [hji, hd]

theorem Coherent.store (h : Coherent s) (hb : (s.buf i).blockno = some b)
    (hheld : (s.buf i).holder ≠ none) {d : D} (hd : d = s.flat b) : Coherent (store s i d) :=
  h.update hb rfl (fun _ => id) hb (h.valid i b hb) hd (fun _ => hheld) (by simp)
    (fun _ _ => rfl) (fun _ _ => rfl)

theorem Coherent.modify (h : Coherent s) (hb : (s.buf i).blockno = some b)
    (hheld : (s.buf i).holder ≠ none) (d : D) : Coherent (modify s i b d) := by
  refine h.update hb rfl (fun _ => id) hb (h.valid i b hb) ?_ (fun _ => hheld) (by simp) ?_
    (fun _ _ => rfl)
  · simp [BufferCache.modify]
  · intro c hc
    simp [BufferCache.modify, hc]

theorem bwrite_eq (s : Cache P D) (i : Ix) (b : ℕ) : bwrite s i b =
    { setBuf s i { s.buf i with valid := true, dirty := false, touched := false } with
      disk := update s.disk b (s.buf i).data } := by
  simp [bwrite, iderw, setBuf]

section
variable (h : Coherent s) (hb : (s.buf i).blockno = some b)
include h hb

theorem Coherent.bwrite : Coherent (bwrite s i b) := by
  rw [bwrite_eq]
  refine h.update hb rfl (fun _ => id) hb rfl (h.data i b hb) (by simp) ?_ (fun _ _ => rfl) ?_
  · intro _ _
    simpa [setBuf] using h.data i b hb
  · intro c hc
    simp [hc]

/-- The holder must have passed its changes to `log_write` or `bwrite`. -/
theorem Coherent.brelse (ht : (s.buf i).touched = false) : Coherent (brelse s i) := by
  refine h.update hb rfl ?_ hb (h.valid i b hb) (h.data i b hb) (by simp [ht]) ?_
    (fun _ _ => rfl) (fun _ _ => rfl)
  · intro j hj
    by_cases hji : j = i
    · simp [BufferCache.brelse, hji]
    · simp [BufferCache.brelse, List.mem_erase_of_ne hji, hj]
  · intro hd _
    apply h.disk
    intro j hj
    rw [h.one j i b hj hb]
    exact ⟨hd, ht⟩

theorem Coherent.setDirty : Coherent (setDirty s i) :=
  h.update hb rfl (fun _ => id) hb (h.valid i b hb) (h.data i b hb) (by simp) (by simp)
    (fun _ _ => rfl) (fun _ _ => rfl)

end

/-- The instruction changes the flat map at block `c`. -/
def Instr.Alters : Instr D → ℕ → Prop
  | .modify b _, c | .copy _ b, c | .head b _, c => c = b
  | _, _ => False

/-- The instruction puts new content into the buffer of block `c`. -/
def Instr.Stores : Instr D → ℕ → Prop
  | .install _ b, c => c = b
  | x, c => x.Alters c

/-- What an instruction of `p` does to the flat map, to pinned blocks and to held buffers. -/
structure Effect (x : Instr D) (p : P) (s s' : Cache P D) : Prop where
  coherent : Coherent s'
  flat : ∀ c, ¬ x.Alters c → s'.flat c = s.flat c
  copied : ∀ src dst, x = .copy src dst → s'.flat dst = s.flat src
  pinned : ∀ c, x ≠ .bwrite c → s.Pinned c → s'.Pinned c
  others : ∀ q i, q ≠ p → (s'.buf i).holder = some q → s'.buf i = s.buf i
  own : ∀ i c, (s'.buf i).blockno = some c → (s'.buf i).holder = some p →
    (s'.buf i).touched = true → x.Stores c ∨
      (s.buf i).blockno = some c ∧ (s.buf i).holder = some p ∧ (s.buf i).touched = true ∧
        x ≠ .bread c ∧ x ≠ .bwrite c

/-- The rule for an instruction that works on one buffer which `p` holds. -/
theorem Effect.of_update {x : Instr D} {y : Buf P D} (hcoh : Coherent s')
    (hb : (s.buf i).blockno = some b) (hp : (s.buf i).holder = some p)
    (hbuf : s'.buf = update s.buf i y) (hblk : y.blockno = some b)
    (hholder : y.holder = some p ∨ y.holder = none)
    (hflat : ∀ c, ¬ x.Alters c → s'.flat c = s.flat c)
    (hcopied : ∀ src dst, x = .copy src dst → s'.flat dst = s.flat src)
    (hdirty : y.dirty = (s.buf i).dirty ∨ x = .bwrite b)
    (htouched : y.touched = true → x.Stores b ∨ y.holder = none ∧ x = .brelse b)
    (hone : ∀ j, (s.buf j).blockno = some b → j = i) (hread : ∀ c, x ≠ .bread c)
    (hwrite : ∀ c, x = .bwrite c → c = b) : Effect x p s s' := by
  have hself : s'.buf i = y := by rw [hbuf, update_self]
  have hother : ∀ j ≠ i, s'.buf j = s.buf j := by
    intro j hj
    rw [hbuf, update_of_ne hj]
  refine ⟨hcoh, hflat, hcopied, ?_, ?_, ?_⟩
  · rintro c hc ⟨j, hj, hd⟩
    refine ⟨j, ?_⟩
    by_cases hji : j = i
    · rw [hji] at hj hd ⊢
      have hcb : c = b := some.inj (hj.symm.trans hb)
      rw [hself, hcb]
      refine ⟨hblk, ?_⟩
      rcases hdirty with hdirty | hx
      · rw [hdirty, hd]
      · exact absurd hx (hcb ▸ hc)
    · rw [hother j hji]
      exact ⟨hj, hd⟩
  · intro q j hq hj
    refine hother j ?_
    rintro rfl
    rw [hself] at hj
    rcases hholder with hh | hh <;> rw [hh] at hj
    · exact hq (some.inj hj).symm
    · cases hj
  · intro j c hj hpj htj
    by_cases hji : j = i
    · rw [hji, hself] at hj hpj htj
      obtain rfl : b = c := some.inj (hblk.symm.trans hj)
      rcases htouched htj with hst | ⟨hnone, -⟩
      · exact .inl hst
      · rw [hnone] at hpj
        cases hpj
    · rw [hother j hji] at hj hpj htj
      refine .inr ⟨hj, hpj, htj, hread c, ?_⟩
      intro hx
      rw [hwrite c hx] at hj
      exact hji (hone j hj)

theorem Coherent.bread_effect [DecidableEq P] (h : Coherent s)
    (hr : BufferCache.bread s p b = some (.ok s')) : Effect (.bread b) p s s' := by
  obtain ⟨hcoh, hflat, -⟩ := h.bread hr
  -- the buffer handed out was free, so it is untouched
  have hbuf : ∃ i y, s'.buf = Function.update s.buf i y ∧ y.blockno = some b ∧
      y.holder = some p ∧ y.touched = false := by
    rcases bread_cases hr h with ⟨i, hb, hfree, rfl⟩ | ⟨i, hfree, hclean, hnew, rfl⟩
    · exact ⟨i, _, rfl, hb, rfl, h.untouched hfree⟩
    · exact ⟨i, _, rfl, rfl, rfl, h.untouched hfree⟩
  obtain ⟨i, y, hbuf, hblk, hp, ht⟩ := hbuf
  have hself : s'.buf i = y := by rw [hbuf, update_self]
  have hother : ∀ j ≠ i, s'.buf j = s.buf j := by
    intro j hj
    rw [hbuf, update_of_ne hj]
  refine ⟨hcoh, fun c _ => congrFun hflat c, by simp, ?_, ?_, ?_⟩
  · rintro c - ⟨j, hj, hd⟩
    obtain ⟨hblkj, hdj, -⟩ := h.bread_keeps hr hd
    exact ⟨j, hblkj.trans hj, hdj⟩
  · intro q j hq hj
    refine hother j ?_
    rintro rfl
    rw [hself, hp] at hj
    exact hq (some.inj hj).symm
  · intro j c hj hpj htj
    by_cases hji : j = i
    · rw [hji, hself, ht] at htj
      cases htj
    · refine .inr ?_
      have hcb : c ≠ b := by
        rintro rfl
        exact hji (hcoh.one j i c hj (by rw [hself, hblk]))
      rw [hother j hji] at hj hpj htj
      refine ⟨hj, hpj, htj, ?_, by simp⟩
      intro hx
      exact hcb (Instr.bread.inj hx).symm

/-- Every instruction keeps the simulation, as long as what `install_trans` copies is what the
flat map says and nobody drops changes in `brelse`. -/
theorem Coherent.exec [DecidableEq P] {enc : List ℕ → D → D} {x : Instr D} (h : Coherent s)
    (hr : exec enc s p x = some (.ok s'))
    (hinst : ∀ src dst, x = .install src dst → s.flat src = s.flat dst)
    (hrel : ∀ c i, x = .brelse c → BufferCache.held s p c = some i → (s.buf i).touched = false) :
    Effect x p s s' := by
  have hbusy : ∀ {i b}, BufferCache.held s p b = some i → (s.buf i).holder ≠ none := by
    intro i b hi
    rw [(held_some hi).2]
    simp
  have hone : ∀ {i b}, BufferCache.held s p b = some i → ∀ j, (s.buf j).blockno = some b → j = i :=
    fun hi j hj => h.one j _ _ hj (held_some hi).1
  cases x with
  | bread b => exact h.bread_effect hr
  | modify b | head b =>
    obtain ⟨i, hi, hs'⟩ := map_eq_some_iff.mp hr
    obtain rfl := ok.inj hs'
    obtain ⟨hb, hp⟩ := held_some hi
    refine .of_update (h.modify hb (hbusy hi) _) hb hp rfl hb (.inl hp) ?_ (by simp) (.inl rfl)
      (fun _ => .inl rfl) (hone hi) (by simp) (by simp)
    intro c hc
    exact update_of_ne hc _ _
  | copy src dst =>
    obtain ⟨i, hi, hs'⟩ := bind_eq_some_iff.mp hr
    obtain ⟨j, hj, hs'⟩ := map_eq_some_iff.mp hs'
    obtain rfl := ok.inj hs'
    obtain ⟨hb, hp⟩ := held_some hj
    refine .of_update (h.modify hb (hbusy hj) _) hb hp rfl hb (.inl hp) ?_ ?_ (.inl rfl)
      (fun _ => .inl rfl) (hone hj) (by simp) (by simp)
    · intro c hc
      exact update_of_ne hc _ _
    · rintro _ _ ⟨⟩
      simpa [BufferCache.modify] using h.data i src (held_some hi).1
  | install src dst =>
    obtain ⟨i, hi, hs'⟩ := bind_eq_some_iff.mp hr
    obtain ⟨j, hj, hs'⟩ := map_eq_some_iff.mp hs'
    obtain rfl := ok.inj hs'
    obtain ⟨hb, hp⟩ := held_some hj
    have hd : (s.buf i).data = s.flat dst :=
      (h.data i src (held_some hi).1).trans (hinst src dst rfl)
    exact .of_update (h.store hb (hbusy hj) hd) hb hp rfl hb (.inl hp) (fun _ _ => rfl) (by simp)
      (.inl rfl) (fun _ => .inl rfl) (hone hj) (by simp) (by simp)
  | bwrite b =>
    obtain ⟨i, hi, hs'⟩ := map_eq_some_iff.mp hr
    obtain rfl := ok.inj hs'
    obtain ⟨hb, hp⟩ := held_some hi
    have hcoh := h.bwrite hb
    rw [bwrite_eq] at hcoh ⊢
    exact .of_update hcoh hb hp rfl hb (.inl hp) (fun _ _ => rfl) (by simp) (.inr rfl) (by simp)
      (hone hi) (by simp) (fun c hc => (Instr.bwrite.inj hc).symm)
  | brelse b =>
    obtain ⟨i, hi, hs'⟩ := map_eq_some_iff.mp hr
    obtain rfl := ok.inj hs'
    obtain ⟨hb, hp⟩ := held_some hi
    exact .of_update (h.brelse hb (hrel b i rfl hi)) hb hp rfl hb (.inr rfl) (fun _ _ => rfl)
      (by simp) (.inl rfl) (fun _ => .inr ⟨rfl, rfl⟩) (hone hi) (by simp) (by simp)

end

end Xv6Threads.BufferCache
