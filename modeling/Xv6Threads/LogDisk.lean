import Mathlib.Tactic.NormNum
import Xv6Threads.Param
import Xv6Threads.Bytes
import Xv6Threads.Loop
import Xv6Threads.Crash

namespace Xv6Threads.LogDisk
open Bytes Crash Function List Buf

abbrev Block := Buf BSIZE
abbrev Disk := ℕ → Block

/-- The disk, whose block writes are atomic and ordered, the buffer cache as one block map, the
in-memory header and the images the disk went through. A crash keeps `disk` only. -/
structure Mem where
  disk : Disk
  buf : ℕ → Block
  lh : List ℕ
  hist : List Disk

namespace Mem

/-- `memmove(b->data, v, BSIZE)` into the buffer of block `b`. -/
def fill (m : Mem) (b : ℕ) (v : Block) : Mem := { m with buf := update m.buf b v }

def bwrite (m : Mem) (b : ℕ) : Mem :=
  let d := update m.disk b (m.buf b)
  { m with disk := d, hist := m.hist ++ [d] }

@[simp] theorem fill_bwrite_disk (m : Mem) (b : ℕ) (v : Block) :
    ((m.fill b v).bwrite b).disk = update m.disk b v := by
  simp [fill, bwrite]

@[simp] theorem fill_bwrite_buf (m : Mem) (b : ℕ) (v : Block) :
    ((m.fill b v).bwrite b).buf = update m.buf b v := rfl

end Mem

/-- `lh->n` read as an `int`: a negative count runs no loop. -/
def headCount (b : Block) : ℕ := if b.field 0 4 < 2 ^ 31 then b.field 0 4 else 0

/-- The header `read_head` copies out of the block. -/
def decodeHead (b : Block) : List ℕ :=
  (List.range (headCount b)).map fun i => b.field (4 + 4 * i) 4

/-- The stores `write_head` makes into the block. -/
def encodeHead (lh : List ℕ) (b : Block) : Block :=
  forLoop (fun b i => b.setField (4 + 4 * i) 4 (lh.getD i 0)) (b.setField 0 4 lh.length) lh.length

variable (start : ℕ)

def readHead (m : Mem) : Mem := { m with lh := decodeHead (m.buf start) }

def writeHead (m : Mem) : Mem :=
  (m.fill start (encodeHead m.lh (m.buf start))).bwrite start

def writeLog (m : Mem) : Mem :=
  forLoop (fun m tail =>
    (m.fill (start + tail + 1) (m.buf (m.lh.getD tail 0))).bwrite (start + tail + 1)) m m.lh.length

def installTrans (m : Mem) : Mem :=
  forLoop (fun m tail =>
    (m.fill (m.lh.getD tail 0) (m.buf (start + tail + 1))).bwrite (m.lh.getD tail 0)) m m.lh.length

def recoverFromLog (m : Mem) : Mem :=
  writeHead start { installTrans start (readHead start m) with lh := [] }

def commit (m : Mem) : Mem :=
  if 0 < m.lh.length then
    writeHead start { installTrans start (writeHead start (writeLog start m)) with lh := [] }
  else m

/-- The machine after a reboot: nothing cached, no header read yet. -/
def boot (d : Disk) : Mem := ⟨d, d, [], []⟩

/-- The machine that enters `commit`: the listed blocks are modified in the cache only. -/
def running (D C : Disk) (lh : List ℕ) : Mem := ⟨D, fun b => if b ∈ lh then C b else D b, lh, []⟩

abbrev Recovered : Disk → Disk → Prop :=
  Recovers (fun d => (recoverFromLog start (boot d)).hist)
    (fun d => (recoverFromLog start (boot d)).disk)

theorem encodeHead_fields (lh : List ℕ) (b : Block) (hlen : lh.length ≤ LOGSIZE)
    (hw : ∀ x ∈ lh, x < 2 ^ 32) : (encodeHead lh b).field 0 4 = lh.length ∧
      ∀ i < lh.length, (encodeHead lh b).field (4 + 4 * i) 4 = lh.getD i 0 := by
  have hL : LOGSIZE = 30 := rfl
  apply forLoop_invariant (fun k (c : Block) =>
    c.field 0 4 = lh.length ∧ ∀ i < k, c.field (4 + 4 * i) 4 = lh.getD i 0)
  · exact ⟨field_setField_self _ (by decide) (by norm_num; omega), fun i hi => absurd hi (by omega)⟩
  · rintro k c hk ⟨hn, hc⟩
    refine ⟨?_, fun i hi => ?_⟩
    · rw [field_setField_of_disjoint _ (by omega), hn]
    · rcases Nat.lt_succ_iff_lt_or_eq.mp hi with hi | rfl
      · rw [field_setField_of_disjoint _ (by omega), hc i hi]
      · have hmem : lh.getD i 0 ∈ lh := by
          rw [getD_eq_getElem _ _ hk]
          exact getElem_mem hk
        exact field_setField_self _ (by simp only [BSIZE]; omega) (hw _ hmem)

theorem decodeHead_encodeHead (lh : List ℕ) (b : Block) (hlen : lh.length ≤ LOGSIZE)
    (hw : ∀ x ∈ lh, x < 2 ^ 32) : decodeHead (encodeHead lh b) = lh := by
  obtain ⟨hn, hf⟩ := encodeHead_fields lh b hlen hw
  have hL : LOGSIZE = 30 := rfl
  have hc : headCount (encodeHead lh b) = lh.length := by
    rw [headCount, hn, if_pos (by omega)]
  rw [decodeHead, hc]
  apply ext_getElem (by simp)
  intro i hi hi'
  simp only [getElem_map, getElem_range]
  rw [hf i hi', getD_eq_getElem _ _ hi']

theorem decodeHead_encodeHead_nil (b : Block) : decodeHead (encodeHead [] b) = [] :=
  decodeHead_encodeHead [] b (by simp) (by simp)

section Transaction

/-- Blocks outside the log area `[start, start + nlog)`. -/
def Outside (start nlog b : ℕ) : Prop := b < start ∨ start + nlog ≤ b

variable (nlog : ℕ) (D C : Disk) (lh : List ℕ)

/-- No transaction in the log and the home blocks as in `D`. -/
def Clean (d : Disk) : Prop :=
  decodeHead (d start) = [] ∧ ∀ b, Outside start nlog b → d b = D b

/-- The log holds the whole transaction; some home blocks may have been installed. -/
structure Committed (d : Disk) : Prop where
  head : decodeHead (d start) = lh
  log : ∀ i < lh.length, d (start + i + 1) = C (lh.getD i 0)
  home : ∀ b, Outside start nlog b → d b = D b ∨ (b ∈ lh ∧ d b = C b)

/-- The transaction is installed and erased from the log. -/
def Installed (d : Disk) : Prop :=
  decodeHead (d start) = [] ∧ ∀ b, Outside start nlog b → d b = if b ∈ lh then C b else D b

/-- The images added to the history from `m` to `t` all satisfy `P`. -/
def Adds (P : Disk → Prop) (m t : Mem) : Prop := ∃ l, t.hist = m.hist ++ l ∧ ∀ d ∈ l, P d

variable {start nlog D C lh}

theorem Adds.refl {P : Disk → Prop} (m : Mem) : Adds P m m := ⟨[], by simp, by simp⟩

theorem Adds.trans {P : Disk → Prop} {m t u : Mem} (h : Adds P m t) (h' : Adds P t u) :
    Adds P m u := by
  obtain ⟨l, hl, hall⟩ := h
  obtain ⟨l', hl', hall'⟩ := h'
  refine ⟨l ++ l', by rw [hl', hl, append_assoc], ?_⟩
  intro d hd
  rcases mem_append.mp hd with hd | hd
  · exact hall d hd
  · exact hall' d hd

theorem Adds.fill_bwrite {P : Disk → Prop} (m : Mem) (b : ℕ) (v : Block)
    (hP : P (update m.disk b v)) : Adds P m ((m.fill b v).bwrite b) := by
  refine ⟨[update m.disk b v], by simp [Mem.bwrite, Mem.fill], ?_⟩
  simpa using hP

theorem getD_mem {i : ℕ} (hi : i < lh.length) : lh.getD i 0 ∈ lh := by
  rw [getD_eq_getElem _ _ hi]
  exact getElem_mem hi

variable (hlen : lh.length ≤ LOGSIZE) (hroom : lh.length < nlog)
  (hout : ∀ b ∈ lh, Outside start nlog b) (hw : ∀ b ∈ lh, b < 2 ^ 32)

include hroom hout in
theorem Committed.install {d : Disk} (h : Committed start nlog D C lh d) {x : ℕ} (hx : x ∈ lh) :
    Committed start nlog D C lh (update d x (C x)) := by
  have ho := hout x hx
  unfold Outside at ho
  constructor
  · rw [update_of_ne (by omega)]
    exact h.head
  · intro i hi
    rw [update_of_ne (by omega)]
    exact h.log i hi
  · intro b hb
    by_cases hbx : b = x
    · subst hbx
      right
      exact ⟨hx, by simp⟩
    · rw [update_of_ne hbx]
      exact h.home b hb

include hroom hout in
/-- Redoing the installation from a committed image, whatever part of it was done before. -/
theorem installTrans_committed {m : Mem} (hlh : m.lh = lh)
    (hbuf : ∀ i < lh.length, m.buf (start + i + 1) = C (lh.getD i 0))
    (hd : Committed start nlog D C lh m.disk) :
    Adds (Committed start nlog D C lh) m (installTrans start m) ∧
      Committed start nlog D C lh (installTrans start m).disk ∧
      ∀ b ∈ lh, (installTrans start m).disk b = C b := by
  have hloop : (installTrans start m).lh = lh ∧
      (∀ i < lh.length, (installTrans start m).buf (start + i + 1) = C (lh.getD i 0)) ∧
      Adds (Committed start nlog D C lh) m (installTrans start m) ∧
      Committed start nlog D C lh (installTrans start m).disk ∧
      ∀ i < lh.length, (installTrans start m).disk (lh.getD i 0) = C (lh.getD i 0) := by
    unfold installTrans
    rw [hlh]
    apply forLoop_invariant (fun k (t : Mem) => t.lh = lh ∧
      (∀ i < lh.length, t.buf (start + i + 1) = C (lh.getD i 0)) ∧
      Adds (Committed start nlog D C lh) m t ∧ Committed start nlog D C lh t.disk ∧
      ∀ i < k, t.disk (lh.getD i 0) = C (lh.getD i 0))
    · exact ⟨hlh, hbuf, Adds.refl m, hd, fun i hi => absurd hi (by omega)⟩
    · rintro k t hk ⟨htl, htb, hta, htd, hti⟩
      have hx := getD_mem hk
      have ho := hout _ hx
      unfold Outside at ho
      rw [htl, htb k hk]
      refine ⟨htl, fun i hi => ?_, hta.trans (Adds.fill_bwrite t _ _ ?_), ?_, fun i hi => ?_⟩
      · rw [Mem.fill_bwrite_buf, update_of_ne (by omega)]
        exact htb i hi
      · exact htd.install hroom hout hx
      · rw [Mem.fill_bwrite_disk]
        exact htd.install hroom hout hx
      · rw [Mem.fill_bwrite_disk]
        by_cases he : lh.getD i 0 = lh.getD k 0
        · rw [he, update_self]
        · rw [update_of_ne he]
          rcases Nat.lt_succ_iff_lt_or_eq.mp hi with hi | rfl
          · exact hti i hi
          · exact absurd rfl he
  obtain ⟨-, -, ha, hc, hi⟩ := hloop
  refine ⟨ha, hc, fun b hb => ?_⟩
  obtain ⟨i, hilt, rfl⟩ := getElem_of_mem hb
  rw [← getD_eq_getElem lh 0 hilt]
  exact hi i hilt

include hroom in
theorem writeHead_clear (m : Mem) :
    decodeHead ((writeHead start { m with lh := [] }).disk start) = [] ∧
      ∀ b, Outside start nlog b → (writeHead start { m with lh := [] }).disk b = m.disk b := by
  unfold writeHead
  rw [Mem.fill_bwrite_disk]
  refine ⟨?_, fun b hb => ?_⟩
  · rw [update_self]
    exact decodeHead_encodeHead_nil _
  · unfold Outside at hb
    rw [update_of_ne (by omega)]

theorem recoverFromLog_hist (start : ℕ) (m : Mem) : (recoverFromLog start m).hist =
    (installTrans start (readHead start m)).hist ++ [(recoverFromLog start m).disk] := rfl

include hroom in
theorem recoverFromLog_clean {d : Disk} (h : Clean start nlog D d) :
    (∀ d' ∈ (recoverFromLog start (boot d)).hist, Clean start nlog D d') ∧
      Clean start nlog D (recoverFromLog start (boot d)).disk := by
  have hread : readHead start (boot d) = boot d := by
    simp only [readHead, boot, h.1]
  have hfinal : Clean start nlog D (recoverFromLog start (boot d)).disk := by
    obtain ⟨hhead, hhome⟩ := writeHead_clear hroom (boot d)
    rw [recoverFromLog, hread]
    exact ⟨hhead, fun b hb => (hhome b hb).trans (h.2 b hb)⟩
  refine ⟨fun d' hd' => ?_, hfinal⟩
  rw [recoverFromLog_hist, hread] at hd'
  obtain rfl := mem_singleton.mp hd'
  exact hfinal

include hroom hout in
theorem recoverFromLog_committed {d : Disk} (h : Committed start nlog D C lh d) :
    (∀ d' ∈ (recoverFromLog start (boot d)).hist,
      Committed start nlog D C lh d' ∨ Installed start nlog D C lh d') ∧
      Installed start nlog D C lh (recoverFromLog start (boot d)).disk := by
  have hlh : (readHead start (boot d)).lh = lh := h.head
  obtain ⟨⟨l, hl, hall⟩, hc, hi⟩ :=
    installTrans_committed hroom hout hlh (fun i hi => h.log i hi) h
  have hfinal : Installed start nlog D C lh (recoverFromLog start (boot d)).disk := by
    obtain ⟨hhead, hhome⟩ := writeHead_clear hroom (installTrans start (readHead start (boot d)))
    refine ⟨hhead, fun b hb => (hhome b hb).trans ?_⟩
    split_ifs with hmem
    · exact hi b hmem
    · rcases hc.home b hb with hb | hb
      · exact hb
      · exact absurd hb.1 hmem
  refine ⟨fun d' hd' => ?_, hfinal⟩
  rw [recoverFromLog_hist, hl] at hd'
  rcases mem_append.mp hd' with hd' | hd'
  · exact Or.inl (hall d' (by simpa [readHead, boot] using hd'))
  · obtain rfl := mem_singleton.mp hd'
    exact Or.inr hfinal

include hroom in
/-- Before the commit point every crash is recovered to the old contents. -/
theorem Clean.recovered {d e : Disk} (h : Clean start nlog D d) (he : Recovered start d e) :
    Clean start nlog D e :=
  he.post (P := Clean start nlog D) (fun _ hd => (recoverFromLog_clean hroom hd).1)
    (fun _ hd => (recoverFromLog_clean hroom hd).2) h

include hroom hout in
/-- From the commit point on every crash is recovered to the new contents. -/
theorem Committed.recovered {d e : Disk}
    (h : Committed start nlog D C lh d ∨ Installed start nlog D C lh d)
    (he : Recovered start d e) : Installed start nlog D C lh e := by
  -- an installed image is a clean one whose home blocks are the new contents
  have hinst : ∀ d', Installed start nlog D C lh d' =
      Clean start nlog (fun b => if b ∈ lh then C b else D b) d' := fun _ => rfl
  refine he.post (P := fun d => Committed start nlog D C lh d ∨ Installed start nlog D C lh d)
    (fun d hd d' hd' => ?_) (fun d hd => ?_) h
  · rcases hd with hd | hd
    · exact (recoverFromLog_committed hroom hout hd).1 d' hd'
    · rw [hinst] at hd
      exact Or.inr ((recoverFromLog_clean hroom hd).1 d' hd')
  · rcases hd with hd | hd
    · exact (recoverFromLog_committed hroom hout hd).2
    · rw [hinst] at hd
      exact (recoverFromLog_clean hroom hd).2

include hroom hout in
theorem writeLog_running (hhead : decodeHead (D start) = []) :
    (writeLog start (running D C lh)).lh = lh ∧
      (writeLog start (running D C lh)).hist.length = lh.length ∧
      Adds (Clean start nlog D) (running D C lh) (writeLog start (running D C lh)) ∧
      (∀ i < lh.length, (writeLog start (running D C lh)).buf (start + i + 1) = C (lh.getD i 0)) ∧
      (∀ i < lh.length, (writeLog start (running D C lh)).disk (start + i + 1) = C (lh.getD i 0)) ∧
      Clean start nlog D (writeLog start (running D C lh)).disk := by
  obtain ⟨hlh, hlen, hadds, hclean, -, hlog⟩ : (writeLog start (running D C lh)).lh = lh ∧
      (writeLog start (running D C lh)).hist.length = lh.length ∧
      Adds (Clean start nlog D) (running D C lh) (writeLog start (running D C lh)) ∧
      Clean start nlog D (writeLog start (running D C lh)).disk ∧
      (∀ b ∈ lh, (writeLog start (running D C lh)).buf b = C b) ∧
      ∀ i < lh.length, (writeLog start (running D C lh)).buf (start + i + 1) = C (lh.getD i 0) ∧
        (writeLog start (running D C lh)).disk (start + i + 1) = C (lh.getD i 0) := by
    apply forLoop_invariant (fun k (t : Mem) => t.lh = lh ∧ t.hist.length = k ∧
      Adds (Clean start nlog D) (running D C lh) t ∧ Clean start nlog D t.disk ∧
      (∀ b ∈ lh, t.buf b = C b) ∧
      ∀ i < k, t.buf (start + i + 1) = C (lh.getD i 0) ∧ t.disk (start + i + 1) = C (lh.getD i 0))
    · exact ⟨rfl, rfl, Adds.refl _, ⟨hhead, fun _ _ => rfl⟩, fun b hb => if_pos hb,
        fun i hi => absurd hi (by omega)⟩
    · rintro k t hk ⟨htl, hth, hta, htd, htb, hti⟩
      replace hk : k < lh.length := hk
      rw [htl, htb _ (getD_mem hk)]
      have hclean : Clean start nlog D
          (update t.disk (start + k + 1) (C (lh.getD k 0))) := by
        refine ⟨?_, fun b hb => ?_⟩
        · rw [update_of_ne (by omega)]
          exact htd.1
        · unfold Outside at hb
          rw [update_of_ne (by omega)]
          exact htd.2 b hb
      refine ⟨htl, by simp [Mem.bwrite, Mem.fill, hth], hta.trans (Adds.fill_bwrite t _ _ hclean),
        by rwa [Mem.fill_bwrite_disk], fun b hb => ?_, fun i hi => ?_⟩
      · have ho := hout b hb
        unfold Outside at ho
        rw [Mem.fill_bwrite_buf, update_of_ne (by omega)]
        exact htb b hb
      · rw [Mem.fill_bwrite_buf, Mem.fill_bwrite_disk]
        rcases Nat.lt_succ_iff_lt_or_eq.mp hi with hi | rfl
        · rw [update_of_ne (by omega), update_of_ne (by omega)]
          exact hti i hi
        · simp
  exact ⟨hlh, hlen, hadds, fun i hi => (hlog i hi).1, fun i hi => (hlog i hi).2, hclean⟩

include hlen hroom hout hw in
/-- The header write is the commit point: the image it leaves holds the transaction. -/
theorem writeHead_committed (hhead : decodeHead (D start) = []) :
    Committed start nlog D C lh (writeHead start (writeLog start (running D C lh))).disk := by
  obtain ⟨hlh, -, -, -, hlog, -, hhome⟩ := writeLog_running (C := C) hroom hout hhead
  unfold writeHead
  rw [Mem.fill_bwrite_disk, hlh]
  constructor
  · rw [update_self]
    exact decodeHead_encodeHead lh _ hlen hw
  · intro i hi
    rw [update_of_ne (by omega)]
    exact hlog i hi
  · intro b hb
    left
    rw [update_of_ne (by unfold Outside at hb; omega)]
    exact hhome b hb

include hlen hroom hout hw in
/-- The images of a commit: clean ones up to the header write, committed or installed ones
from there on. -/
theorem commit_hist (hhead : decodeHead (D start) = []) (hpos : 0 < lh.length) :
    ∃ l l', (commit start (running D C lh)).hist = l ++ l' ∧
      l.length + 1 = (writeHead start (writeLog start (running D C lh))).hist.length ∧
      (∀ d ∈ l, Clean start nlog D d) ∧
      ∀ d ∈ l', Committed start nlog D C lh d ∨ Installed start nlog D C lh d := by
  obtain ⟨hlh, -, ⟨l, hl, hclean⟩, hbuf, -, -⟩ := writeLog_running (C := C) hroom hout hhead
  have hcommit := writeHead_committed (C := C) hlen hroom hout hw hhead
  have hbuf' : ∀ i < lh.length,
      (writeHead start (writeLog start (running D C lh))).buf (start + i + 1) = C
      (lh.getD i 0) := by
    intro i hi
    rw [writeHead, Mem.fill_bwrite_buf, update_of_ne (by omega)]
    exact hbuf i hi
  obtain ⟨⟨l', hl', hall⟩, hc, hi⟩ := installTrans_committed hroom hout
    (m := writeHead start (writeLog start (running D C lh))) hlh hbuf' hcommit
  obtain ⟨hclear, hhome⟩ := writeHead_clear hroom
    (installTrans start (writeHead start (writeLog start (running D C lh))))
  have hdone : Installed start nlog D C lh (commit start (running D C lh)).disk := by
    rw [commit, if_pos (show 0 < (running D C lh).lh.length from hpos)]
    refine ⟨hclear, fun b hb => (hhome b hb).trans ?_⟩
    split_ifs with hmem
    · exact hi b hmem
    · rcases hc.home b hb with hb | hb
      · exact hb
      · exact absurd hb.1 hmem
  have hhist : (commit start (running D C lh)).hist =
      (installTrans start (writeHead start (writeLog start (running D C lh)))).hist ++
        [(commit start (running D C lh)).disk] := by
    rw [commit, if_pos (show 0 < (running D C lh).lh.length from hpos)]
    rfl
  have hheadHist : (writeHead start (writeLog start (running D C lh))).hist =
      l ++ [(writeHead start (writeLog start (running D C lh))).disk] := by
    rw [show l = (writeLog start (running D C lh)).hist by simpa [running] using hl.symm]
    rfl
  refine ⟨l, (writeHead start (writeLog start (running D C lh))).disk ::
    (l' ++ [(commit start (running D C lh)).disk]), ?_, by simp [hheadHist], hclean, ?_⟩
  · rw [hhist, hl', hheadHist]
    simp
  · intro d hd
    rcases mem_cons.mp hd with rfl | hd
    · exact Or.inl hcommit
    · rcases mem_append.mp hd with hd | hd
      · exact Or.inl (hall d hd)
      · obtain rfl := mem_singleton.mp hd
        exact Or.inr hdone

end Transaction

/-- Crash atomicity. `D` is the disk before the commit and `d` the image left by a crash after
`k` block writes of `commit`; `e` is what any number of interrupted recoveries and a complete
one leave. The new contents appear exactly when the first header write was among the `k`. -/
theorem commit_crash_atomic (start nlog : ℕ) (D C : Disk) (lh : List ℕ)
    (hhead : (D start).field 0 4 = 0) (hlen : lh.length ≤ LOGSIZE) (hroom : lh.length < nlog)
    (hout : ∀ b ∈ lh, Outside start nlog b) (hw : ∀ b ∈ lh, b < 2 ^ 32) (k : ℕ) (d e : Disk)
    (hk : (D :: (commit start (running D C lh)).hist)[k]? = some d) (he : Recovered start d e) :
    if (writeHead start (writeLog start (running D C lh))).hist.length ≤ k then
      ∀ b, Outside start nlog b → e b = if b ∈ lh then C b else D b
    else ∀ b, Outside start nlog b → e b = D b := by
  have hempty : decodeHead (D start) = [] := by simp [decodeHead, headCount, hhead]
  have hold : Clean start nlog D D := ⟨hempty, fun _ _ => rfl⟩
  rcases Nat.eq_zero_or_pos lh.length with hz | hpos
  · obtain rfl := length_eq_zero_iff.mp hz
    have hhist : (commit start (running D C [])).hist = [] := rfl
    have hk0 : k = 0 := by
      rw [hhist] at hk
      have := (List.getElem?_eq_some_iff.mp hk).1
      simpa using this
    subst hk0
    obtain rfl : D = d := by simpa using hk
    rw [if_neg (by simp [writeHead, Mem.bwrite])]
    exact (hold.recovered hroom he).2
  · obtain ⟨l, l', hhist, hlength, hclean, hnew⟩ :=
      commit_hist (C := C) hlen hroom hout hw hempty hpos
    rw [hhist, ← cons_append] at hk
    split_ifs with hreached
    · rw [List.getElem?_append_right (by simp; omega)] at hk
      exact (Committed.recovered hroom hout (hnew d (mem_of_getElem? hk)) he).2
    · rw [List.getElem?_append_left (by simp; omega)] at hk
      rcases mem_cons.mp (mem_of_getElem? hk) with rfl | hd
      · exact (hold.recovered hroom he).2
      · exact ((hclean d hd).recovered hroom he).2

/-- Two blocks committed on an empty disk, a crash right after the header write and a second
one at the end of the recovery: both blocks arrive. -/
theorem commit_crash_atomic_two_blocks :
    ∃ e : Disk, Recovered 2
        (writeHead 2 (writeLog 2 (running (fun _ => zero) (fun _ _ => 7) [40, 50]))).disk e ∧
      e 40 = (fun _ => 7) ∧ e 50 = (fun _ => 7) ∧ e 60 = zero := by
  let d := (writeHead 2 (writeLog 2 (running (fun _ => zero) (fun _ _ => 7) [40, 50]))).disk
  have hmem : (recoverFromLog 2 (boot d)).disk ∈ d :: (recoverFromLog 2 (boot d)).hist := by
    rw [recoverFromLog_hist]
    simp
  have he : Recovered 2 d (recoverFromLog 2 (boot (recoverFromLog 2 (boot d)).disk)).disk :=
    Recovers.crash hmem (Recovers.done _)
  have h := commit_crash_atomic 2 30 (fun _ => zero) (fun _ _ => 7) [40, 50] (by simp)
    (by decide) (by decide) (by simp [Outside]) (by simp) 3 d _ rfl he
  rw [if_pos (by decide)] at h
  exact ⟨_, he, h 40 (by simp [Outside]), h 50 (by simp [Outside]), h 60 (by simp [Outside])⟩

end Xv6Threads.LogDisk
