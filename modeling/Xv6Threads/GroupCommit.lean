import Mathlib.Data.Finset.Card
import Xv6Threads.Param
import Xv6Threads.Loop

namespace Xv6Threads.GroupCommit

open Function List Except Nat

inductive LogPanic
  /-- "too big a transaction" -/
  | tooBig
  /-- "log_write outside of trans" -/
  | outsideTrans
  /-- "log.committing" -/
  | logCommitting
  deriving DecidableEq

inductive Pos
  | idle
  /-- sleeping in `begin_op` -/
  | asleep
  | inOp
  /-- in `log_write` of block `b`, past the tests -/
  | tested (b : ℕ)
  /-- in `commit`, the header not written yet -/
  | commit
  /-- in `commit`, the header written and not cleared yet -/
  | install
  deriving DecidableEq

/-- A `log_write`: the operation it belongs to, the block, and how many transactions had been
committed before. -/
structure Write where
  op : ℕ
  block : ℕ
  trans : ℕ
  deriving DecidableEq

/-- `struct log`, the position of each process, and the history. -/
structure State (P : Type*) where
  size : ℕ
  outstanding : ℤ
  committing : Bool
  lh : List ℕ
  pos : P → Pos
  /-- the operation a process is in, and the number of operations so far -/
  op : P → ℕ
  ops : ℕ
  writes : List Write
  /-- the headers of the committed transactions, the first one first -/
  commits : List (List ℕ)

inductive Act (P : Type*)
  | beginOp (p : P)
  | test (p : P) (b : ℕ)
  | logWrite (p : P)
  | endOp (p : P)
  | writeHead (p : P)
  | commitDone (p : P)

variable {P : Type*} [DecidableEq P]

def setPos (s : State P) (p : P) (x : Pos) : State P := { s with pos := update s.pos p x }

/-- The loop of `log_write`: the first entry equal to `b`, or a new one at the end. -/
def absorb (lh : List ℕ) (b : ℕ) : List ℕ :=
  let i := lh.findIdx (· == b)
  if i = lh.length then lh ++ [b] else lh.set i b

/-- One turn of the loop of `begin_op`: sleep, or be admitted. -/
def beginOp (s : State P) (p : P) : State P :=
  if s.committing then setPos s p .asleep
  else if (LOGSIZE : ℤ) < s.lh.length + (s.outstanding + 1) * MAXOPBLOCKS then setPos s p .asleep
  else { setPos s p .inOp with
    outstanding := s.outstanding + 1, op := update s.op p s.ops, ops := s.ops + 1 }

def test (s : State P) (p : P) (b : ℕ) : Except LogPanic (State P) :=
  if LOGSIZE ≤ s.lh.length ∨ (s.size : ℤ) - 1 ≤ s.lh.length then .error .tooBig
  else if s.outstanding < 1 then .error .outsideTrans
  else .ok (setPos s p (.tested b))

/-- The part of `log_write` that holds the lock. -/
def logWrite (s : State P) (p : P) (b : ℕ) : State P :=
  { setPos s p .inOp with
    lh := absorb s.lh b, writes := s.writes ++ [⟨s.op p, b, s.commits.length⟩] }

def endOp (s : State P) (p : P) : Except LogPanic (State P) :=
  let outstanding := s.outstanding - 1
  if s.committing then .error .logCommitting
  else if outstanding = 0 then
    .ok { setPos s p .commit with outstanding := outstanding, committing := true }
  else .ok { setPos s p .idle with outstanding := outstanding }

/-- `write_log` and the first `write_head` of `commit`; an empty log is not written. -/
def writeHead (s : State P) (p : P) : State P :=
  if s.lh = [] then setPos s p .install
  else { setPos s p .install with commits := s.commits ++ [s.lh] }

def commitDone (s : State P) (p : P) : State P :=
  { setPos s p .idle with lh := [], committing := false }

/-- One step of one process; `none` when the process is not at that point. `log_write` makes its
tests before it takes `log.lock`, so they are a step of their own; `commit` runs without the lock.
A sleeping `begin_op` may be woken at any time. -/
def step (s : State P) : Act P → Option (Except LogPanic (State P))
  | .beginOp p =>
    match s.pos p with
    | .idle | .asleep => some (.ok (beginOp s p))
    | _ => none
  | .test p b =>
    match s.pos p with
    | .inOp => some (test s p b)
    | _ => none
  | .logWrite p =>
    match s.pos p with
    | .tested b => some (.ok (logWrite s p b))
    | _ => none
  | .endOp p =>
    match s.pos p with
    | .inOp => some (endOp s p)
    | _ => none
  | .writeHead p =>
    match s.pos p with
    | .commit => some (.ok (writeHead s p))
    | _ => none
  | .commitDone p =>
    match s.pos p with
    | .install => some (.ok (commitDone s p))
    | _ => none

/-- After `initlog`. -/
def init (s : State P) : Prop :=
  ∃ size, s = { size := size, outstanding := 0, committing := false, lh := [],
                pos := fun _ => .idle, op := fun _ => 0, ops := 0, writes := [], commits := [] }

abbrev Reachable : State P → Prop :=
  Reach init (fun _ _ => True) fun s (a : Act P) s' => step s a = some (.ok s')

theorem absorb_eq (lh : List ℕ) (b : ℕ) : absorb lh b = if b ∈ lh then lh else lh ++ [b] := by
  unfold absorb
  by_cases h : b ∈ lh
  · have hlt : lh.findIdx (· == b) < lh.length := findIdx_lt_length_of_exists ⟨b, h, by simp⟩
    have hget : lh[lh.findIdx (· == b)] = b := by
      simpa using findIdx_getElem (w := hlt)
    simp only [h, ↓reduceIte, Nat.ne_of_lt hlt]
    conv_rhs => rw [← set_getElem_self hlt]
    rw [hget]
  · have he : lh.findIdx (· == b) = lh.length :=
      findIdx_eq_length.mpr fun x hx => by
        simpa using fun hxb : x = b => h (hxb ▸ hx)
    simp [h, he]

def Pos.inside : Pos → Bool
  | .inOp | .tested _ => true
  | .idle | .asleep | .commit | .install => false

def Pos.inCommit : Pos → Bool
  | .commit | .install => true
  | .idle | .asleep | .inOp | .tested _ => false

inductive Move (s : State P) : Act P → State P → Prop
  | asleep {p : P} (hp : s.pos p = .idle ∨ s.pos p = .asleep) :
      Move s (.beginOp p) (setPos s p .asleep)
  | enter {p : P} (hp : s.pos p = .idle ∨ s.pos p = .asleep) (hc : s.committing = false)
      (hfit : (s.lh.length : ℤ) + (s.outstanding + 1) * MAXOPBLOCKS ≤ LOGSIZE) :
      Move s (.beginOp p) { setPos s p .inOp with
        outstanding := s.outstanding + 1, op := update s.op p s.ops, ops := s.ops + 1 }
  | test {p : P} {b : ℕ} (hp : s.pos p = .inOp) : Move s (.test p b) (setPos s p (.tested b))
  | logWrite {p : P} {b : ℕ} (hp : s.pos p = .tested b) : Move s (.logWrite p) (logWrite s p b)
  | last {p : P} (hp : s.pos p = .inOp) (hc : s.committing = false) (h1 : s.outstanding = 1) :
      Move s (.endOp p) { setPos s p .commit with outstanding := 0, committing := true }
  | leave {p : P} (hp : s.pos p = .inOp) (h1 : s.outstanding ≠ 1) :
      Move s (.endOp p) { setPos s p .idle with outstanding := s.outstanding - 1 }
  | writeHead {p : P} (hp : s.pos p = .commit) : Move s (.writeHead p) (writeHead s p)
  | commitDone {p : P} (hp : s.pos p = .install) : Move s (.commitDone p) (commitDone s p)

theorem step_move {s s' : State P} {a : Act P} (h : step s a = some (.ok s')) : Move s a s' := by
  cases a with
  | beginOp p =>
    have hb : (s.pos p = .idle ∨ s.pos p = .asleep) ∧ beginOp s p = s' := by
      cases hp : s.pos p <;> simp_all [step]
    obtain ⟨hp, rfl⟩ := hb
    unfold beginOp
    split_ifs with hc hfull
    · exact .asleep hp
    · exact .asleep hp
    · exact .enter hp (by simpa using hc) (not_lt.mp hfull)
  | test p b =>
    cases hp : s.pos p with
    | inOp =>
      simp only [step, hp, test] at h
      split_ifs at h
      · cases h
      · cases h
      · cases h
        exact .test hp
    | _ => simp [step, hp] at h
  | logWrite p =>
    cases hp : s.pos p with
    | tested b =>
      simp only [step, hp, Option.some.injEq, ok.injEq] at h
      rw [← h]
      exact .logWrite hp
    | _ => simp [step, hp] at h
  | endOp p =>
    cases hp : s.pos p with
    | inOp =>
      simp only [step, hp, endOp] at h
      split_ifs at h with hc hz
      · cases h
      · simp only [Option.some.injEq, ok.injEq] at h
        rw [← h, hz]
        exact .last hp (by simpa using hc) (by omega)
      · simp only [Option.some.injEq, ok.injEq] at h
        rw [← h]
        exact .leave hp (by omega)
    | _ => simp [step, hp] at h
  | writeHead p =>
    cases hp : s.pos p with
    | commit =>
      simp only [step, hp, Option.some.injEq, ok.injEq] at h
      rw [← h]
      exact .writeHead hp
    | _ => simp [step, hp] at h
  | commitDone p =>
    cases hp : s.pos p with
    | install =>
      simp only [step, hp, Option.some.injEq, ok.injEq] at h
      rw [← h]
      exact .commitDone hp
    | _ => simp [step, hp] at h

theorem setPos_pos (s : State P) (p q : P) (x : Pos) :
    (setPos s p x).pos q = if q = p then x else s.pos q := by
  by_cases h : q = p <;> simp [setPos, h]

/-- The operations in progress are those of `S`; a commit only runs when there are none. -/
structure Gate (s : State P) (S : Finset P) : Prop where
  mem : ∀ p, p ∈ S ↔ (s.pos p).inside = true
  count : s.outstanding = S.card
  closed : s.committing = true → S = ∅
  flag : ∀ p, (s.pos p).inCommit = true → s.committing = true
  one : ∀ p q, (s.pos p).inCommit = true → (s.pos q).inCommit = true → p = q

section
variable {s s' : State P} {S : Finset P} {p : P} {x : Pos}

section

variable (h : Gate s S)
include h

omit [DecidableEq P] in
theorem Gate.congr (hin : ∀ q, (s'.pos q).inside = (s.pos q).inside)
    (hcom : ∀ q, (s'.pos q).inCommit = (s.pos q).inCommit) (hout : s'.outstanding = s.outstanding)
    (hflag : s'.committing = s.committing) : Gate s' S := by
  refine ⟨?_, hout.trans h.count, ?_, ?_, ?_⟩
  · intro q
    rw [hin, h.mem]
  · rw [hflag]
    exact h.closed
  · intro q
    rw [hcom, hflag]
    exact h.flag q
  · intro q r
    rw [hcom, hcom]
    exact h.one q r

theorem Gate.stay (hin : x.inside = (s.pos p).inside)
    (hcom : x.inCommit = (s.pos p).inCommit) (hpos : s'.pos = (setPos s p x).pos)
    (hout : s'.outstanding = s.outstanding) (hflag : s'.committing = s.committing) : Gate s' S := by
  refine h.congr ?_ ?_ hout hflag
  · intro q
    rw [hpos, setPos_pos]
    split_ifs with hq
    · rw [hq, hin]
    · rfl
  · intro q
    rw [hpos, setPos_pos]
    split_ifs with hq
    · rw [hq, hcom]
    · rfl

omit [DecidableEq P] in
theorem Gate.not_inCommit (hc : s.committing = false) (q : P) : (s.pos q).inCommit = false := by
  by_contra hq
  have hflag := h.flag q (by simpa using hq)
  rw [hc] at hflag
  cases hflag

omit [DecidableEq P] in
/-- A process inside an operation keeps `outstanding` above zero and the commit away. -/
theorem Gate.of_inside (hp : (s.pos p).inside = true) :
    1 ≤ s.outstanding ∧ s.committing = false := by
  have hpS := (h.mem p).mpr hp
  refine ⟨?_, ?_⟩
  · have hcard := Finset.card_pos.mpr ⟨p, hpS⟩
    have hcount := h.count
    omega
  · by_contra hc
    rw [h.closed (by simpa using hc)] at hpS
    simp at hpS

theorem Gate.enter (hp : (s.pos p).inside = false) (hc : s.committing = false) :
    Gate { setPos s p .inOp with
      outstanding := s.outstanding + 1, op := update s.op p s.ops, ops := s.ops + 1 }
      (insert p S) := by
  have hpS : p ∉ S := by
    rw [h.mem, hp]
    decide
  have hnone := h.not_inCommit hc
  have hcom : ∀ q, ((setPos s p .inOp).pos q).inCommit = false := by
    intro q
    rw [setPos_pos]
    split_ifs
    · rfl
    · exact hnone q
  refine ⟨?_, ?_, ?_, ?_, ?_⟩
  · intro q
    rw [setPos_pos, Finset.mem_insert, h.mem]
    by_cases hq : q = p <;> simp [hq, Pos.inside]
  · simp only [Finset.card_insert_of_notMem hpS, h.count]
    push_cast
    rfl
  · intro hflag
    exact absurd (hc.symm.trans hflag) (by decide)
  · intro q hq
    exact absurd ((hcom q).symm.trans hq) (by decide)
  · intro q r hq
    exact absurd ((hcom q).symm.trans hq) (by decide)

/-- `end_op` by `p`, which goes on to commit exactly when it was the last one. -/
theorem Gate.endOp (hp : s.pos p = .inOp) {c : Bool}
    (hx : s.outstanding = 1 ∧ s.committing = false ∧ x = .commit ∧ c = true ∨
      s.outstanding ≠ 1 ∧ x = .idle ∧ c = s.committing) :
    Gate { setPos s p x with outstanding := s.outstanding - 1, committing := c } (S.erase p) := by
  have hpS : p ∈ S := (h.mem p).mpr (by rw [hp]; rfl)
  have hcard := Finset.card_erase_add_one hpS
  have hcount := h.count
  have hcom : ∀ q, ((setPos s p x).pos q).inCommit = true →
      q = p ∧ x = .commit ∨ q ≠ p ∧ (s.pos q).inCommit = true := by
    intro q hq
    rw [setPos_pos] at hq
    split_ifs at hq with hqp
    · rcases hx with ⟨-, -, hx, -⟩ | ⟨-, hx, -⟩
      · exact .inl ⟨hqp, hx⟩
      · rw [hx] at hq
        cases hq
    · exact .inr ⟨hqp, hq⟩
  refine ⟨?_, ?_, ?_, ?_, ?_⟩
  · intro q
    rw [setPos_pos, Finset.mem_erase, h.mem]
    by_cases hq : q = p
    · rcases hx with ⟨-, -, hx, -⟩ | ⟨-, hx, -⟩ <;> simp [hq, hx, Pos.inside]
    · simp [hq]
  · simp only
    omega
  · intro hflag
    apply Finset.card_eq_zero.mp
    rcases hx with ⟨h1, -⟩ | ⟨-, -, hx⟩
    · omega
    · rw [h.closed (hx.symm.trans hflag)] at hpS
      simp at hpS
  · intro q hq
    rcases hx with ⟨-, -, -, hx⟩ | ⟨-, hx', hx⟩
    · exact hx
    · rcases hcom q hq with ⟨-, hcommit⟩ | ⟨-, hq⟩
      · rw [hx'] at hcommit
        cases hcommit
      · exact hx.trans (h.flag q hq)
  · intro q r hq hr
    rcases hcom q hq with ⟨hq, hxq⟩ | ⟨-, hq⟩ <;> rcases hcom r hr with ⟨hr, hxr⟩ | ⟨-, hr⟩
    · rw [hq, hr]
    · rcases hx with ⟨-, hc, -⟩ | ⟨-, hx, -⟩
      · exact absurd ((h.not_inCommit hc r).symm.trans hr) (by decide)
      · rw [hx] at hxq
        cases hxq
    · rcases hx with ⟨-, hc, -⟩ | ⟨-, hx, -⟩
      · exact absurd ((h.not_inCommit hc q).symm.trans hq) (by decide)
      · rw [hx] at hxr
        cases hxr
    · exact h.one q r hq hr

theorem Gate.commitDone (hp : s.pos p = .install) : Gate (commitDone s p) S := by
  have hpc : (s.pos p).inCommit = true := by rw [hp]; rfl
  have hcom : ∀ q, ((GroupCommit.commitDone s p).pos q).inCommit = false := by
    intro q
    rw [GroupCommit.commitDone, setPos_pos]
    split_ifs with hq
    · rfl
    · by_contra hq'
      exact hq (h.one q p (by simpa using hq') hpc)
  refine ⟨?_, h.count, ?_, ?_, ?_⟩
  · intro q
    rw [GroupCommit.commitDone, setPos_pos, h.mem]
    by_cases hq : q = p <;> simp [hq, hp, Pos.inside]
  · intro hflag
    cases hflag
  · intro q hq
    exact absurd ((hcom q).symm.trans hq) (by decide)
  · intro q r hq
    exact absurd ((hcom q).symm.trans hq) (by decide)

theorem Gate.move {a : Act P} (hm : Move s a s') : ∃ S', Gate s' S' := by
  cases hm with
  | asleep hp =>
    refine ⟨S, ?_⟩
    rcases hp with hp | hp <;>
      exact h.stay (by simp [hp, Pos.inside]) (by simp [hp, Pos.inCommit]) rfl rfl rfl
  | @enter p hp hc _ =>
    exact ⟨insert p S, h.enter (by rcases hp with hp | hp <;> rw [hp] <;> rfl) hc⟩
  | test hp | logWrite hp => exact ⟨S, h.stay (by rw [hp]; rfl) (by rw [hp]; rfl) rfl rfl rfl⟩
  | @last p hp hc h1 =>
    have hend := h.endOp hp (.inl ⟨h1, hc, rfl, rfl⟩)
    rw [h1] at hend
    exact ⟨S.erase p, hend⟩
  | @leave p hp h1 => exact ⟨S.erase p, h.endOp hp (.inr ⟨h1, rfl, rfl⟩)⟩
  | @writeHead p hp =>
    refine ⟨S, ?_⟩
    unfold GroupCommit.writeHead
    split_ifs <;> exact h.stay (by rw [hp]; rfl) (by rw [hp]; rfl) rfl rfl rfl
  | commitDone hp => exact ⟨S, h.commitDone hp⟩

end

end

/-- The blocks of the `log_write`s made while `t` transactions were committed. -/
def State.logged (s : State P) (t : ℕ) (b : ℕ) : Prop := ∃ w ∈ s.writes, w.trans = t ∧ w.block = b

structure History (s : State P) : Prop where
  fresh : ∀ w ∈ s.writes, w.op < s.ops
  started : ∀ p, (s.pos p).inside = true → s.op p < s.ops
  own : ∀ p q, (s.pos p).inside = true → (s.pos q).inside = true → s.op p = s.op q → p = q
  current : ∀ p, (s.pos p).inside = true → ∀ w ∈ s.writes, w.op = s.op p →
    w.trans = s.commits.length
  same : ∀ w ∈ s.writes, ∀ w' ∈ s.writes, w.op = w'.op → w.trans = w'.trans
  le : ∀ w ∈ s.writes, w.trans ≤ s.commits.length
  header : (∀ p, s.pos p ≠ .install) → ∀ b, b ∈ s.lh ↔ s.logged s.commits.length b
  past : ∀ p, s.pos p = .install → ∀ w ∈ s.writes, w.trans < s.commits.length
  committed : ∀ t c, s.commits[t]? = some c → ∀ b, b ∈ c ↔ s.logged t b

section
variable {s s' : State P} {S : Finset P} {p : P}

omit [DecidableEq P] in
theorem History.frame (h : History s) (hin : ∀ q, (s'.pos q).inside = true →
      (s.pos q).inside = true) (hinst : ∀ q, s'.pos q = .install ↔ s.pos q = .install)
    (hop : s'.op = s.op) (hops : s'.ops = s.ops) (hw : s'.writes = s.writes)
    (hlh : s'.lh = s.lh) (hc : s'.commits = s.commits) : History s' := by
  have hlogged : s'.logged = s.logged := by
    funext t b
    simp only [State.logged, hw]
  refine ⟨?_, ?_, ?_, ?_, ?_, ?_, ?_, ?_, ?_⟩
  · rw [hw, hops]
    exact h.fresh
  · rw [hop, hops]
    exact fun q hq => h.started q (hin q hq)
  · rw [hop]
    exact fun q r hq hr => h.own q r (hin q hq) (hin r hr)
  · rw [hw, hop, hc]
    exact fun q hq => h.current q (hin q hq)
  · rw [hw]
    exact h.same
  · rw [hw, hc]
    exact h.le
  · intro hno
    rw [hlh, hc, hlogged]
    exact h.header fun q hq => hno q ((hinst q).mpr hq)
  · rw [hw, hc]
    exact fun q hq => h.past q ((hinst q).mp hq)
  · rw [hc, hlogged]
    exact h.committed

theorem History.enter (h : History s) (hp : s.pos p = .idle ∨ s.pos p = .asleep) :
    History { setPos s p .inOp with
      outstanding := s.outstanding + 1, op := update s.op p s.ops, ops := s.ops + 1 } := by
  have hin : ∀ q ≠ p, ((setPos s p .inOp).pos q).inside = true → (s.pos q).inside = true := by
    intro q hq
    rw [setPos_pos, if_neg hq]
    exact id
  have hinst : ∀ q, (setPos s p .inOp).pos q = .install ↔ s.pos q = .install := by
    intro q
    rw [setPos_pos]
    split_ifs with hq
    · rcases hp with hp | hp <;> simp [hq, hp]
    · rfl
  refine ⟨?_, ?_, ?_, ?_, h.same, h.le, ?_, ?_, h.committed⟩
  · intro w hw
    exact (h.fresh w hw).trans (lt_succ_self _)
  · intro q hq
    by_cases hqp : q = p
    · simp [hqp]
    · simp only [update_of_ne hqp]
      exact (h.started q (hin q hqp hq)).trans (lt_succ_self _)
  · intro q r hq hr hqr
    by_cases hqp : q = p <;> by_cases hrp : r = p
    · rw [hqp, hrp]
    · simp only [hqp, update_self, update_of_ne hrp] at hqr
      exact absurd hqr (ne_of_gt (h.started r (hin r hrp hr)))
    · simp only [hrp, update_self, update_of_ne hqp] at hqr
      exact absurd hqr (Nat.ne_of_lt (h.started q (hin q hqp hq)))
    · simp only [update_of_ne hqp, update_of_ne hrp] at hqr
      exact h.own q r (hin q hqp hq) (hin r hrp hr) hqr
  · intro q hq w hw hwq
    by_cases hqp : q = p
    · simp only [hqp, update_self] at hwq
      exact absurd hwq (Nat.ne_of_lt (h.fresh w hw))
    · simp only [update_of_ne hqp] at hwq
      exact h.current q (hin q hqp hq) w hw hwq
  · exact fun hno => h.header fun q hq => hno q ((hinst q).mpr hq)
  · exact fun q hq => h.past q ((hinst q).mp hq)

theorem logWrite_logged (s : State P) (p : P) (b t x : ℕ) :
    (logWrite s p b).logged t x ↔ s.logged t x ∨ t = s.commits.length ∧ x = b := by
  simp only [State.logged, logWrite, mem_append, mem_singleton, or_and_right, exists_or,
    exists_eq_left]
  rw [eq_comm (a := s.commits.length), eq_comm (a := b)]

/-- The operation of `p` logs one more block for the next transaction. -/
theorem History.logWrite (h : History s) {b : ℕ} (hp : s.pos p = .tested b)
    (hno : ∀ q, s.pos q ≠ .install) : History (logWrite s p b) := by
  have hpin : (s.pos p).inside = true := by rw [hp]; rfl
  have hin : ∀ q, ((setPos s p .inOp).pos q).inside = true → (s.pos q).inside = true := by
    intro q
    rw [setPos_pos]
    split_ifs with hq
    · rw [hq]
      exact fun _ => hpin
    · exact id
  have hmem : ∀ w, w ∈ (GroupCommit.logWrite s p b).writes →
      w ∈ s.writes ∨ w = ⟨s.op p, b, s.commits.length⟩ := by
    intro w hw
    simpa [GroupCommit.logWrite] using hw
  refine ⟨?_, ?_, ?_, ?_, ?_, ?_, ?_, ?_, ?_⟩
  · intro w hw
    rcases hmem w hw with hw | rfl
    · exact h.fresh w hw
    · exact h.started p hpin
  · exact fun q hq => h.started q (hin q hq)
  · exact fun q r hq hr => h.own q r (hin q hq) (hin r hr)
  · intro q hq w hw hwq
    rcases hmem w hw with hw | rfl
    · exact h.current q (hin q hq) w hw hwq
    · rfl
  · intro w hw w' hw' heq
    rcases hmem w hw with hw | rfl <;> rcases hmem w' hw' with hw' | rfl
    · exact h.same w hw w' hw' heq
    · exact h.current p hpin w hw heq
    · exact (h.current p hpin w' hw' heq.symm).symm
    · rfl
  · intro w hw
    rcases hmem w hw with hw | rfl
    · exact h.le w hw
    · exact le_rfl
  · intro _ x
    have hlen : (GroupCommit.logWrite s p b).commits.length = s.commits.length := rfl
    rw [hlen, logWrite_logged, ← h.header hno x]
    simp only [GroupCommit.logWrite, absorb_eq, true_and]
    split_ifs with hb
    · refine ⟨.inl, ?_⟩
      rintro (hx | rfl)
      · exact hx
      · exact hb
    · rw [mem_append, mem_singleton]
  · intro q hq
    rw [GroupCommit.logWrite, setPos_pos] at hq
    split_ifs at hq
    exact absurd hq (hno q)
  · intro t c hc x
    have hlt : t < s.commits.length := (List.getElem?_eq_some_iff.mp hc).1
    rw [logWrite_logged, h.committed t c hc x]
    refine ⟨.inl, ?_⟩
    rintro (hx | ⟨ht, -⟩)
    · exact hx
    · omega

theorem inside_setPos {c : Pos} (hnone : ∀ q, (s.pos q).inside = false) (hc : c.inside = false)
    (q : P) :
    ((setPos s p c).pos q).inside = false := by
  rw [setPos_pos]
  split_ifs
  · exact hc
  · exact hnone q

/-- The header that is written lists what the operations logged since the last commit, and none
of them is still in progress. -/
theorem History.writeHead (h : History s) (hnone : ∀ q, (s.pos q).inside = false)
    (hno : ∀ q, s.pos q ≠ .install) : History (writeHead s p) := by
  have hhead := h.header hno
  have hin := inside_setPos (p := p) (c := .install) hnone rfl
  have habsurd {q : P} {a : Prop} (hq : ((setPos s p .install).pos q).inside = true) : a :=
    absurd ((hin q).symm.trans hq) (by decide)
  unfold GroupCommit.writeHead
  split_ifs with hlh
  · -- nothing was logged
    refine ⟨h.fresh, fun q hq => habsurd hq, fun q r hq => habsurd hq, fun q hq => habsurd hq,
      h.same, h.le, ?_, ?_, h.committed⟩
    · intro hinst
      exact absurd (by rw [setPos_pos, if_pos rfl]) (hinst p)
    · intro q _ w hw
      apply lt_of_le_of_ne (h.le w hw)
      intro heq
      have hmem := (hhead w.block).mpr ⟨w, hw, heq, rfl⟩
      rw [hlh] at hmem
      cases hmem
  · refine ⟨h.fresh, fun q hq => habsurd hq, fun q r hq => habsurd hq, fun q hq => habsurd hq,
      h.same, ?_, ?_, ?_, ?_⟩
    · intro w hw
      rw [length_append]
      exact (h.le w hw).trans (le_add_right _ _)
    · intro hinst
      exact absurd (by rw [setPos_pos, if_pos rfl]) (hinst p)
    · intro q _ w hw
      rw [length_append]
      exact lt_succ_of_le (h.le w hw)
    · intro t c hc x
      rcases lt_trichotomy t s.commits.length with ht | ht | ht
      · rw [List.getElem?_append_left ht] at hc
        exact h.committed t c hc x
      · rw [List.getElem?_append_right ht.ge, ht, Nat.sub_self] at hc
        obtain rfl := Option.some.inj hc
        rw [ht]
        exact hhead x
      · rw [List.getElem?_append_right ht.le] at hc
        have hlt := (List.getElem?_eq_some_iff.mp hc).1
        simp only [length_singleton] at hlt
        omega

theorem History.commitDone (h : History s) (hnone : ∀ q, (s.pos q).inside = false)
    (hp : s.pos p = .install) : History (commitDone s p) := by
  have hin := inside_setPos (p := p) (c := .idle) hnone rfl
  have habsurd {q : P} {a : Prop} (hq : ((setPos s p .idle).pos q).inside = true) : a :=
    absurd ((hin q).symm.trans hq) (by decide)
  have hpast := h.past p hp
  refine ⟨h.fresh, fun q hq => habsurd hq, fun q r hq => habsurd hq, fun q hq => habsurd hq,
    h.same, h.le, ?_, ?_, h.committed⟩
  · intro _ b
    refine ⟨fun hb => absurd hb (by simp [GroupCommit.commitDone]), ?_⟩
    rintro ⟨w, hw, ht, -⟩
    exact absurd ht (Nat.ne_of_lt (hpast w hw))
  · intro q _
    exact hpast

theorem History.move {a : Act P} (h : History s) (hg : Gate s S) (hm : Move s a s') :
    History s' := by
  -- in a commit nobody is inside an operation
  have hnone : ∀ p, (s.pos p).inCommit = true → ∀ q, (s.pos q).inside = false := by
    intro p hp q
    have hS := hg.closed (hg.flag p hp)
    have hq : q ∉ S := by rw [hS]; simp
    rw [hg.mem] at hq
    simpa using hq
  have hset : ∀ {p x}, x ≠ .install → s.pos p ≠ .install → ∀ q,
      (setPos s p x).pos q = .install ↔ s.pos q = .install := by
    intro p x hx hp q
    rw [setPos_pos]
    split_ifs with hq
    · rw [hq]
      exact iff_of_false hx hp
    · rfl
  have hin : ∀ {p x}, (x.inside = true → (s.pos p).inside = true) → ∀ q,
      ((setPos s p x).pos q).inside = true → (s.pos q).inside = true := by
    intro p x hx q
    rw [setPos_pos]
    split_ifs with hq
    · rw [hq]
      exact hx
    · exact id
  cases hm with
  | @asleep p hp =>
    have hinst : s.pos p ≠ .install := by rcases hp with hp | hp <;> rw [hp] <;> decide
    exact h.frame (hin fun hx => by cases hx) (hset (by decide) hinst) rfl rfl rfl rfl rfl
  | enter hp => exact h.enter hp
  | test hp =>
    exact h.frame (hin fun _ => by rw [hp]; rfl) (hset (by simp) (by rw [hp]; decide))
      rfl rfl rfl rfl rfl
  | @logWrite p b hp =>
    apply h.logWrite hp
    intro q hq
    have hp' := hnone q (by rw [hq]; rfl) p
    rw [hp] at hp'
    cases hp'
  | last hp hc h1 | leave hp h1 =>
    exact h.frame (hin fun hx => by cases hx) (hset (by decide) (by rw [hp]; decide))
      rfl rfl rfl rfl rfl
  | @writeHead p hp =>
    have hpc : (s.pos p).inCommit = true := by rw [hp]; rfl
    apply h.writeHead (hnone p hpc)
    intro q hq
    have hqp := hg.one q p (by rw [hq]; rfl) hpc
    rw [hqp, hp] at hq
    cases hq
  | @commitDone p hp =>
    have hpc : (s.pos p).inCommit = true := by rw [hp]; rfl
    exact h.commitDone (hnone p hpc) hp

end

theorem reachable_inv {s : State P} (h : Reachable s) : History s ∧ ∃ S, Gate s S := by
  apply Reach.invariant (P := fun s : State P => History s ∧ ∃ S, Gate s S) _ _ h
  · rintro s ⟨size, rfl⟩
    refine ⟨?_, ∅, ?_⟩
    · constructor <;> simp [Pos.inside, State.logged]
    · constructor <;> simp [Pos.inside, Pos.inCommit]
  · rintro s a s' ⟨hh, S, hg⟩ - hs
    exact ⟨hh.move hg (step_move hs), hg.move (step_move hs)⟩

def State.Completed (s : State P) (o : ℕ) : Prop :=
  o < s.ops ∧ ∀ p, (s.pos p).inside = true → s.op p ≠ o

/-- While a process is in `commit` no operation is in progress, nobody can enter or leave
`log_write`, and no second process is in `commit`. The blocks of a committed transaction are the
blocks of the `log_write`s of completed operations, and each of these operations has all its
`log_write`s in that transaction. Neither "log.committing" nor "log_write outside of trans" is
reached. -/
theorem commit_never_splits_operation {s : State P} (h : Reachable s) :
    (∀ p, (s.pos p).inCommit = true → s.outstanding = 0 ∧
      (∀ q b, step s (.test q b) = none ∧ step s (.logWrite q) = none) ∧
      ∀ q, (s.pos q).inCommit = true → q = p) ∧
    (∀ t c, s.commits[t]? = some c → ∃ O : Finset ℕ, (∀ o ∈ O, s.Completed o) ∧
      (∀ b, b ∈ c ↔ ∃ w ∈ s.writes, w.op ∈ O ∧ w.block = b) ∧
      ∀ w ∈ s.writes, w.op ∈ O ↔ w.trans = t) ∧
    (∀ w ∈ s.writes, ∀ w' ∈ s.writes, w.op = w'.op → w.trans = w'.trans) ∧
    ∀ a, step s a ≠ some (.error .logCommitting) ∧ step s a ≠ some (.error .outsideTrans) := by
  obtain ⟨hh, S, hg⟩ := reachable_inv h
  have hclosed : ∀ p, (s.pos p).inCommit = true → S = ∅ := fun p hp => hg.closed (hg.flag p hp)
  refine ⟨?_, ?_, hh.same, ?_⟩
  · intro p hp
    have hS := hclosed p hp
    refine ⟨by rw [hg.count, hS]; rfl, ?_, fun q hq => hg.one q p hq hp⟩
    intro q b
    have hq : (s.pos q).inside = false := by
      have hq : q ∉ S := by rw [hS]; simp
      rw [hg.mem] at hq
      simpa using hq
    cases hpos : s.pos q with
    | inOp | tested b =>
      rw [hpos] at hq
      cases hq
    | _ => simp only [step, hpos, and_self]
  · intro t c hc
    have hlt : t < s.commits.length := (List.getElem?_eq_some_iff.mp hc).1
    refine ⟨((s.writes.filter fun w => w.trans = t).map Write.op).toFinset, ?_, ?_, ?_⟩
    all_goals simp only [mem_toFinset, mem_map, mem_filter, decide_eq_true_eq]
    · rintro o ⟨w, ⟨hw, ht⟩, rfl⟩
      refine ⟨hh.fresh w hw, ?_⟩
      intro p hp hop
      have hcur := hh.current p hp w hw hop.symm
      omega
    · intro b
      rw [hh.committed t c hc b]
      constructor
      · rintro ⟨w, hw, ht, hb⟩
        exact ⟨w, hw, ⟨w, ⟨hw, ht⟩, rfl⟩, hb⟩
      · rintro ⟨w, hw, ⟨w', ⟨hw', ht⟩, hop⟩, hb⟩
        exact ⟨w, hw, (hh.same w hw w' hw' hop.symm).trans ht, hb⟩
    · intro w hw
      constructor
      · rintro ⟨w', ⟨hw', ht⟩, hop⟩
        exact (hh.same w hw w' hw' hop.symm).trans ht
      · exact fun ht => ⟨w, ⟨hw, ht⟩, rfl⟩
  · intro a
    cases a with
    | test p b =>
      cases hpos : s.pos p with
      | inOp =>
        have hp := hg.of_inside (p := p) (by rw [hpos]; rfl)
        simp only [step, hpos, test]
        rw [if_neg (show ¬s.outstanding < 1 by omega)]
        split_ifs <;> simp
      | _ => simp [step, hpos]
    | endOp p =>
      cases hpos : s.pos p with
      | inOp =>
        have hp := hg.of_inside (p := p) (by rw [hpos]; rfl)
        simp only [step, hpos, endOp, hp.2]
        split_ifs <;> simp_all
      | _ => simp [step, hpos]
    | beginOp p | logWrite p | writeHead p | commitDone p =>
      cases hpos : s.pos p <;> simp [step, hpos]

/-- Two operations, the second one begun before the first one ends. -/
def twoOps : List (Act (Fin 2)) :=
  [.beginOp 0, .test 0 7, .beginOp 1, .logWrite 0, .endOp 0, .test 1 9, .logWrite 1, .endOp 1,
    .writeHead 1]

/-- The last one to end commits for both. -/
theorem commit_never_splits_operation_two :
    ∃ s : State (Fin 2), Reachable s ∧ s.commits = [[7, 9]] ∧ (s.pos 1).inCommit = true ∧
      s.outstanding = 0 := by
  have hinit : Reachable (P := Fin 2) ⟨nlog, 0, false, [], fun _ => .idle, fun _ => 0, 0, [], []⟩ :=
    .start ⟨nlog, rfl⟩
  have hrun := Reach.exists_of_execs (fun _ _ => true) _
    (fun s => decide (s.commits = [[7, 9]] ∧ (s.pos 1).inCommit = true)) (fun _ _ _ => trivial)
    (fun _ _ _ => eq_of_reached) twoOps hinit (by decide +kernel)
  obtain ⟨s, hs, hcheck⟩ := hrun
  obtain ⟨hc, hp⟩ := of_decide_eq_true hcheck
  exact ⟨s, hs, hc, hp, ((commit_never_splits_operation hs).1 1 hp).1⟩

end Xv6Threads.GroupCommit
