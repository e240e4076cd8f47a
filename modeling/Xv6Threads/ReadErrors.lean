import Xv6Threads.BufferCache
import Xv6Threads.Loop

namespace Xv6Threads.BufferCache

variable {P D : Type} [DecidableEq P] {s s' : Cache P D} {p : P} {b : ℕ}

/-- `iderw` when the status has `IDE_DF` or `IDE_ERR` set if `err`: a read then stores nothing. -/
def iderwErr (s : Cache P D) (i : Ix) (b : ℕ) (err : Bool) : Cache P D :=
  if err && !(s.buf i).dirty then setBuf s i { s.buf i with valid := true } else iderw s i b

def breadErr (s : Cache P D) (p : P) (b : ℕ) (err : Bool) : Option (Except Panic (Cache P D)) :=
  (bget s p b).map fun r => r.map fun (t, i) => if (t.buf i).valid then t else iderwErr t i b err

inductive Read (P : Type)
  /-- the device reports an error if asked and `err` -/
  | bread (p : P) (b : ℕ) (err : Bool)
  | brelse (p : P) (b : ℕ)

def Read.err : Read P → Bool
  | .bread _ _ err => err
  | .brelse _ _ => false

def readStep (s : Cache P D) : Read P → Option (Except Panic (Cache P D))
  | .bread p b err => breadErr s p b err
  | .brelse p b => (held s p b).map fun i => .ok (brelse s i)

/-- After `binit`. -/
structure Start (s : Cache P D) : Prop where
  listed : ∀ i, i ∈ s.order
  unused : ∀ i, (s.buf i).blockno = none
  idle : ∀ i, (s.buf i).touched = false
  flat : s.flat = s.disk

/-- The states reached by reads of which `ok` says which may fail. -/
def Reads (ok : Read P → Prop) : Cache P D → Prop :=
  Reach Start (fun _ a => ok a) fun s a s' => readStep s a = some (.ok s')

/-- Nothing has been changed, so the disk is the flat map. -/
structure Unchanged (s : Cache P D) : Prop where
  coherent : Coherent s
  idle : ∀ i, (s.buf i).touched = false
  flat : s.flat = s.disk

omit [DecidableEq P] in
theorem Start.unchanged (h : Start s) : Unchanged s where
  coherent := by
    have hno : ∀ i c, (s.buf i).blockno ≠ some c := fun i c hc => by
      rw [h.unused] at hc
      cases hc
    refine ⟨h.listed, fun i _ c hi _ => absurd hi (hno i c), fun i c hi => absurd hi (hno i c),
      fun i c hi => absurd hi (hno i c), fun i hi => ?_, fun c _ => by rw [h.flat]⟩
    rw [h.idle] at hi
    cases hi
  idle := h.idle
  flat := h.flat

omit [DecidableEq P] in
theorem breadErr_false (s : Cache P D) (p : P) (b : ℕ) : breadErr s p b false = bread s p b := rfl

omit [DecidableEq P] in
theorem Unchanged.setBuf {i : Ix} {x : Buf P D} (h : Unchanged s) (hx : x.touched = false)
    (j : Ix) :
    ((setBuf s i x).buf j).touched = false := by
  rw [setBuf_buf]
  split_ifs
  · exact hx
  · exact h.idle j

theorem Unchanged.bread (h : Unchanged s) (hr : bread s p b = some (.ok s')) : Unchanged s' := by
  have hcoherent := (h.coherent.bread hr).1
  obtain ⟨i, -, -, rfl⟩ | ⟨i, -, -, -, rfl⟩ := bread_cases hr h.coherent
  · exact ⟨hcoherent, h.setBuf (h.idle i), h.flat⟩
  · exact ⟨hcoherent, h.setBuf (h.idle i), h.flat⟩

theorem Unchanged.brelse {i : Ix} (h : Unchanged s) (hi : held s p b = some i) :
    Unchanged (brelse s i) :=
  ⟨h.coherent.brelse (held_some hi).1 (h.idle i), h.setBuf (h.idle i), h.flat⟩

theorem Reads.unchanged (h : Reads (·.err = false) s) : Unchanged s := by
  refine Reach.invariant (fun _ hs => hs.unchanged) ?_ h
  intro s a s' hs ha hstep
  cases a with
  | bread p b err =>
    obtain rfl : err = false := ha
    exact hs.bread hstep
  | brelse p b =>
    obtain ⟨i, hi, hs'⟩ := Option.map_eq_some_iff.mp hstep
    obtain rfl := Except.ok.inj hs'
    exact hs.brelse hi

/-- As long as no read has failed, `bread` returns the block on the disk. -/
theorem bread_reads_disk (h : Reads (·.err = false) s) (hr : breadErr s p b false = some (.ok s')) :
    ∃ i, held s' p b = some i ∧ (s'.buf i).valid = true ∧ (s'.buf i).data = s'.disk b := by
  rw [breadErr_false] at hr
  have h' := h.unchanged.bread hr
  obtain ⟨-, hflat, i, hi, hdata⟩ := h.unchanged.coherent.bread hr
  refine ⟨i, hi, h'.coherent.valid i b (held_some hi).1, ?_⟩
  rw [hdata, ← hflat, h'.flat]

/-- `binit`, with a disk whose block `b` is all `b + 1`. -/
def afterBinit : Cache ℕ ℕ where
  buf _ := ⟨none, none, false, false, 0, false⟩
  order := (List.finRange NBUF).reverse
  disk b := b + 1
  flat b := b + 1

theorem start_afterBinit : Start afterBinit where
  listed i := List.mem_reverse.mpr (List.mem_finRange i)
  unused _ := rfl
  idle _ := rfl
  flat := rfl

/-- Process 0 reads and releases the blocks below `n`, and none of the reads fails. -/
def readsBelow (n : ℕ) : List (Read ℕ) :=
  (List.range n).flatMap fun b => [.bread 0 b false, .brelse 0 b]

/-- Process 0 has read one block more than there are buffers. Block 30 is in the buffer that block
0 was in, block 5 is still in its own; process 1 finds these two in the cache and gets block 0 from
the disk again. -/
theorem bread_reads_disk_recycled : ∃ s, Reads (·.err = false) s ∧
    (∀ i, (s.buf i).blockno ≠ some 0) ∧ ∀ b ∈ [0, 5, 30], ∃ t i,
      breadErr s 1 b false = some (.ok t) ∧ held t 1 b = some i ∧ (t.buf i).data = b + 1 := by
  have hstart : Reads (·.err = false) afterBinit := .start start_afterBinit
  obtain ⟨s, hs, hp⟩ := Reach.exists_of_execs (fun _ (a : Read ℕ) => !a.err) _
    (fun s : Cache ℕ ℕ => decide (∀ i, (s.buf i).blockno ≠ some 0) &&
      [0, 5, 30].all fun b =>
        (reached (breadErr s 1 b false)).any fun t => decide (t.disk b = b + 1))
    (fun _ a ha => (Bool.not_eq_true' a.err).mp ha) (fun _ _ _ => eq_of_reached)
    (readsBelow 31) hstart (by decide +kernel)
  rw [Bool.and_eq_true, decide_eq_true_eq, List.all_eq_true] at hp
  refine ⟨s, hs, hp.1, fun b hb => ?_⟩
  obtain ⟨t, ht, hdisk⟩ := (Option.any_eq_true _ _).mp (hp.2 b hb)
  have hread : breadErr s 1 b false = some (.ok t) := eq_of_reached ht
  obtain ⟨i, hi, -, hdata⟩ := bread_reads_disk hs hread
  exact ⟨t, i, hread, hi, hdata.trans (of_decide_eq_true hdisk)⟩

/-- After a failed read of block 5 the buffer is valid, and is what the next `bread` returns. -/
theorem bread_keeps_old : ∃ s t i, Reads (fun _ => True) s ∧ breadErr s 1 5 false = some (.ok t) ∧
    held t 1 5 = some i ∧ (t.buf i).valid = true ∧ (t.buf i).data = 0 ∧ t.disk 5 = 6 := by
  refine ⟨_, _, _, .step (.step (.start start_afterBinit) trivial (a := .bread 0 5 true) rfl)
    trivial (a := .brelse 0 5) rfl, rfl, rfl, rfl, rfl, rfl⟩

end Xv6Threads.BufferCache
