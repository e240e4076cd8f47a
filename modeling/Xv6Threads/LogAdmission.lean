import Mathlib.Algebra.Order.BigOperators.Group.Finset
import Xv6Threads.GroupCommit

namespace Xv6Threads.GroupCommit

open Finset List Except

variable {P : Type*} [DecidableEq P] {s s' : State P} {S : Finset P} {p q : P} {b : ℕ}

/-- The blocks that the current operation of `p` has logged. -/
def State.wrote (s : State P) (p : P) : Finset ℕ :=
  ((s.writes.filter fun w => w.op = s.op p).map Write.block).toFinset

/-- The block with which `log_write` has got past its tests. -/
def Pos.block : Pos → Option ℕ
  | .tested b => some b
  | .idle | .asleep | .inOp | .commit | .install => none

/-- An operation passes at most `m` distinct blocks to `log_write`. -/
def AtMost (m : ℕ) (s : State P) : Act P → Prop
  | .test p b => (insert b (s.wrote p)).card ≤ m
  | .logWrite p => ∀ b ∈ (s.pos p).block, (insert b (s.wrote p)).card ≤ m
  | _ => True

/-- The tests of `log_write` find fewer than `log.size - 1` blocks in the log, and so does its
locked part, unless the block is there already. -/
def Room (s : State P) : Act P → Prop
  | .test _ _ => s.lh.length + 1 < s.size
  | .logWrite p => ∀ b ∈ (s.pos p).block, b ∈ s.lh ∨ s.lh.length + 1 < s.size
  | _ => True

/-- The states reached on an image of `mkfs`. -/
abbrev Admitted (ok : State P → Act P → Prop) : State P → Prop :=
  Reach (fun s => init s ∧ s.size = nlog) ok fun s a s' => step s a = some (.ok s')

omit [DecidableEq P] in
theorem mem_wrote : b ∈ s.wrote p ↔ ∃ w ∈ s.writes, w.op = s.op p ∧ w.block = b := by
  simp [State.wrote, and_assoc]

theorem Move.size {a : Act P} (hm : Move s a s') : s'.size = s.size := by
  cases hm with
  | writeHead =>
    unfold GroupCommit.writeHead
    split_ifs <;> rfl
  | _ => rfl

theorem Admitted.reachable {ok : State P → Act P → Prop} (h : Admitted ok s) :
    Reachable s ∧ s.size = nlog := by
  apply Reach.invariant (P := fun s : State P => Reachable s ∧ s.size = nlog) _ _ h
  · exact fun s hs => ⟨.start hs.1, hs.2⟩
  · rintro s a s' ⟨hr, hsize⟩ - hs
    exact ⟨.step hr trivial hs, (step_move hs).size.trans hsize⟩

theorem test_tooBig_iff (hsize : s.size = nlog) (hp : s.pos p = .inOp) :
    step s (.test p b) = some (.error .tooBig) ↔ ¬Room s (.test p b) := by
  have hn : nlog = 30 := rfl
  have hL : LOGSIZE = 30 := rfl
  simp only [step, hp, test, Room]
  split_ifs with hbig hout
  · simp only [true_iff]
    omega
  · simp only [Option.some.injEq, Except.error.injEq, reduceCtorEq, false_iff]
    omega
  · simp only [Option.some.injEq, reduceCtorEq, false_iff]
    omega

/-- The locked part of `log_write` tests nothing. -/
theorem logWrite_fits_iff (hlt : s.lh.length < s.size) (hp : s.pos p = .tested b) :
    (logWrite s p b).lh.length < s.size ↔ Room s (.logWrite p) := by
  have hroom : Room s (.logWrite p) ↔ b ∈ s.lh ∨ s.lh.length + 1 < s.size := by
    rw [Room, hp]
    simp [Pos.block]
  rw [hroom, logWrite, absorb_eq]
  split_ifs with hb
  · simp [hb, hlt]
  · simp [hb]

theorem fits_step {a : Act P} (hroom : Room s a) (hs : step s a = some (.ok s'))
    (h : s.lh.length < s.size ∧ ∀ c ∈ s.commits, c.length < s.size) :
    s'.lh.length < s'.size ∧ ∀ c ∈ s'.commits, c.length < s'.size := by
  have hm := step_move hs
  rw [hm.size]
  cases hm with
  | logWrite hp => exact ⟨(logWrite_fits_iff h.1 hp).mpr hroom, h.2⟩
  | @writeHead p hp =>
    unfold writeHead
    split_ifs
    · exact h
    · refine ⟨h.1, fun c hc => ?_⟩
      rcases List.mem_append.mp hc with hc | hc
      · exact h.2 c hc
      · rw [List.mem_singleton.mp hc]
        exact h.1
  | commitDone hp => exact ⟨Nat.zero_lt_of_lt h.1, h.2⟩
  | _ => exact h

/-- What the operations of `S` may still log, counted with `MAXOPBLOCKS - 1` blocks each. -/
def State.spare (s : State P) (S : Finset P) : ℕ := ∑ p ∈ S, (MAXOPBLOCKS - 1 - (s.wrote p).card)

theorem spare_erase (hp : p ∈ S) :
    MAXOPBLOCKS - 1 - (s.wrote p).card + s.spare (S.erase p) = s.spare S :=
  add_sum_erase S (fun p => MAXOPBLOCKS - 1 - (s.wrote p).card) hp

omit [DecidableEq P] in
theorem spare_congr (h : ∀ q ∈ S, s'.wrote q = s.wrote q) : s'.spare S = s.spare S :=
  sum_congr rfl fun q hq => by rw [h q hq]

omit [DecidableEq P] in
theorem spare_le (s : State P) (S : Finset P) : s.spare S ≤ S.card * (MAXOPBLOCKS - 1) :=
  sum_le_card_nsmul S _ _ fun _ _ => Nat.sub_le _ _

/-- The limit of `log_write` is kept by what is in the log and what may still come. -/
structure Spare (s : State P) (S : Finset P) : Prop where
  empty : S = ∅ → s.committing = false → s.lh = []
  room : S.Nonempty → s.lh.length + s.spare S + 1 < nlog

/-- A step of `p` leaves the other operations where they are. -/
theorem Gate.erase_eq {S' : Finset P} (hg : Gate s S) (hg' : Gate s' S')
    (hpos : ∀ q ≠ p, s'.pos q = s.pos q) : S'.erase p = S.erase p := by
  ext q
  simp only [mem_erase, hg.mem, hg'.mem]
  exact and_congr_right fun hq => by rw [hpos q hq]

omit [DecidableEq P] in
theorem Spare.of_not_nonempty (h : ¬S.Nonempty) (hlh : s.committing = false → s.lh = []) :
    Spare s S := ⟨fun _ => hlh, fun hS => absurd hS h⟩

theorem wrote_logWrite_self :
    (logWrite s p b).wrote p = insert b (s.wrote p) := by
  ext x
  rw [mem_insert, mem_wrote, mem_wrote]
  simp only [logWrite, mem_append, List.mem_singleton, or_and_right, exists_or, exists_eq_left]
  rw [or_comm]
  exact or_congr ⟨fun h => h.2.symm, fun h => ⟨rfl, h.symm⟩⟩ Iff.rfl

theorem wrote_logWrite_of_ne (hne : s.op q ≠ s.op p) : (logWrite s p b).wrote q = s.wrote q := by
  ext x
  rw [mem_wrote, mem_wrote]
  simp only [logWrite, mem_append, List.mem_singleton, or_and_right, exists_or, exists_eq_left]
  exact or_iff_left fun h => hne h.1.symm

/-- A logged block uses up one of the blocks its operation may still log. -/
theorem Spare.logWrite (h : Spare s S) (hg : Gate s S) (hh : History s) (hp : s.pos p = .tested b)
    (hcard : (insert b (s.wrote p)).card ≤ MAXOPBLOCKS - 1) : Spare (logWrite s p b) S := by
  have hin : (s.pos p).inside = true := by rw [hp]; rfl
  have hpS : p ∈ S := (hg.mem p).mpr hin
  refine ⟨fun hS => absurd hpS (hS ▸ notMem_empty p), fun hS => ?_⟩
  have hroom := h.room hS
  have hothers : (GroupCommit.logWrite s p b).spare (S.erase p) = s.spare (S.erase p) := by
    apply spare_congr
    intro q hq
    apply wrote_logWrite_of_ne
    intro heq
    exact ne_of_mem_erase hq (hh.own q p ((hg.mem q).mp (mem_of_mem_erase hq)) hin heq)
  have hself := spare_erase (s := s) hpS
  have hself' := spare_erase (s := GroupCommit.logWrite s p b) hpS
  rw [hothers, wrote_logWrite_self] at hself'
  have hlen : (GroupCommit.logWrite s p b).lh.length =
      s.lh.length + if b ∈ s.lh then 0 else 1 := by
    change (absorb s.lh b).length = _
    rw [absorb_eq]
    split_ifs <;> simp
  rw [hlen]
  split_ifs with hb
  · have hle : (s.wrote p).card ≤ (insert b (s.wrote p)).card :=
      card_le_card (Finset.subset_insert b _)
    omega
  · -- the block is new to its operation too
    have hnew : b ∉ s.wrote p := by
      intro hmem
      obtain ⟨w, hw, hop, hblock⟩ := mem_wrote.mp hmem
      apply hb
      rw [hh.header _ b]
      · exact ⟨w, hw, hh.current p hin w hw hop, hblock⟩
      · intro q hq
        have hflag := hg.flag q (by rw [hq]; rfl)
        rw [(hg.of_inside hin).2] at hflag
        cases hflag
    rw [card_insert_of_notMem hnew] at hcard hself'
    omega

theorem Spare.enter {S' : Finset P} (h : Spare s S) (hg : Gate s S) (hpS' : p ∈ S')
    (herase : S'.erase p = S) (hc : s.committing = false)
    (hfit : (s.lh.length : ℤ) + (s.outstanding + 1) * MAXOPBLOCKS ≤ LOGSIZE) :
    s.lh.length + s'.spare S' + 1 < nlog := by
  have hle := spare_le s' S'
  have hcard := card_erase_add_one hpS'
  rw [herase] at hcard
  have hcount := hg.count
  simp only [LOGSIZE, MAXOPBLOCKS, nlog] at *
  -- on an empty log one operation is admitted with 9 blocks; a second one needs `lh.n ≤ 10`
  rcases S.eq_empty_or_nonempty with hS | hS
  · have hz : s.lh.length = 0 := by rw [h.empty hS hc]; rfl
    have h0 : S.card = 0 := by rw [hS]; rfl
    omega
  · have hpos := hS.card_pos
    omega

theorem Spare.move {S' : Finset P} {a : Act P} (h : Spare s S) (hg : Gate s S) (hh : History s)
    (hg' : Gate s' S') (hm : Move s a s') (hle : AtMost (MAXOPBLOCKS - 1) s a) : Spare s' S' := by
  have hmem : ∀ p x, s'.pos = (setPos s p x).pos → (p ∈ S' ↔ x.inside = true) ∧
      S'.erase p = S.erase p := by
    intro p x hpos
    rw [hg'.mem, hpos, setPos_pos, if_pos rfl]
    refine ⟨Iff.rfl, hg.erase_eq hg' fun q hq => ?_⟩
    rw [hpos, setPos_pos, if_neg hq]
  have hnone : s'.outstanding = 0 → ¬S'.Nonempty := by
    intro h0 hS
    have hcount := hg'.count
    have hpos := hS.card_pos
    omega
  cases hm with
  | @asleep p hp =>
    obtain ⟨hp', herase⟩ := hmem p _ rfl
    have hpS : p ∉ S := by rw [hg.mem]; rcases hp with hp | hp <;> simp [hp, Pos.inside]
    rw [erase_eq_of_notMem hpS, erase_eq_of_notMem (by simp [hp', Pos.inside])] at herase
    rw [herase]
    exact ⟨h.empty, h.room⟩
  | @enter p hp hc hfit =>
    obtain ⟨hp', herase⟩ := hmem p _ rfl
    have hpS : p ∉ S := by rw [hg.mem]; rcases hp with hp | hp <;> simp [hp, Pos.inside]
    rw [erase_eq_of_notMem hpS] at herase
    have hpS' : p ∈ S' := hp'.mpr rfl
    exact ⟨fun hS => absurd hpS' (hS ▸ notMem_empty p),
      fun _ => h.enter hg hpS' herase hc hfit⟩
  | @test p b hp =>
    obtain ⟨hp', herase⟩ := hmem p _ rfl
    have hpS : p ∈ S := (hg.mem p).mpr (by rw [hp]; rfl)
    rw [← insert_erase (hp'.mpr rfl), herase, insert_erase hpS]
    exact ⟨h.empty, h.room⟩
  | @logWrite p b hp =>
    obtain ⟨hp', herase⟩ := hmem p _ rfl
    have hpS : p ∈ S := (hg.mem p).mpr (by rw [hp]; rfl)
    rw [← insert_erase (hp'.mpr rfl), herase, insert_erase hpS]
    exact h.logWrite hg hh hp (hle b (by rw [hp]; rfl))
  | last hp hc h1 => exact .of_not_nonempty (hnone rfl) fun hc => by cases hc
  | @leave p hp h1 =>
    obtain ⟨hp', herase⟩ := hmem p _ rfl
    have hpS : p ∈ S := (hg.mem p).mpr (by rw [hp]; rfl)
    rw [erase_eq_of_notMem (by simp [hp', Pos.inside])] at herase
    have hcount := hg.count
    have hcard := card_erase_add_one hpS
    rw [herase]
    constructor
    · intro hS
      have h0 : (S.erase p).card = 0 := by rw [hS]; rfl
      omega
    · intro _
      have hroom := h.room ⟨p, hpS⟩
      have hself := spare_erase (s := s) hpS
      change s.lh.length + s.spare (S.erase p) + 1 < nlog
      omega
  | @writeHead p hp =>
    have hflag := hg.flag p (by rw [hp]; rfl)
    have h0 : s.outstanding = 0 := by rw [hg.count, hg.closed hflag]; rfl
    have hout : (GroupCommit.writeHead s p).outstanding = s.outstanding ∧
        (GroupCommit.writeHead s p).committing = s.committing := by
      unfold GroupCommit.writeHead
      split_ifs <;> exact ⟨rfl, rfl⟩
    refine .of_not_nonempty (hnone (hout.1.trans h0)) fun hc => ?_
    rw [hout.2, hflag] at hc
    cases hc
  | @commitDone p hp =>
    have hflag := hg.flag p (by rw [hp]; rfl)
    have h0 : s.outstanding = 0 := by rw [hg.count, hg.closed hflag]; rfl
    exact .of_not_nonempty (hnone h0) fun _ => rfl

theorem Admitted.spare (h : Admitted (AtMost (MAXOPBLOCKS - 1)) s) : ∃ S, Gate s S ∧ Spare s S := by
  have hinv : Reachable s ∧ ∃ S, Gate s S ∧ Spare s S := by
    apply Reach.invariant (P := fun s : State P => Reachable s ∧ ∃ S, Gate s S ∧ Spare s S) _ _ h
    · rintro s ⟨hinit, -⟩
      refine ⟨.start hinit, ∅, ?_⟩
      obtain ⟨size, rfl⟩ := hinit
      exact ⟨by constructor <;> simp [Pos.inside, Pos.inCommit], .of_not_nonempty (by simp) fun _ =>
        rfl⟩
    · rintro s a s' ⟨hr, S, hg, hspare⟩ ha hs
      have hm := step_move hs
      obtain ⟨S', hg'⟩ := hg.move hm
      exact ⟨.step hr trivial hs, S', hg', hspare.move hg (reachable_inv hr).1 hg' hm ha⟩
  exact hinv.2

/-- For operations of at most `MAXOPBLOCKS` blocks on an image of `mkfs`. While every `log_write`
has room, no test finds the transaction too big and every committed transaction fits in the log
area. Without room the tests panic, and the locked part, which tests nothing, lists more blocks
than the log area holds. Operations of `MAXOPBLOCKS - 1` blocks always have room. -/
theorem log_write_panics_iff_log_full :
    (∀ s : State P, Admitted (fun s a => AtMost MAXOPBLOCKS s a ∧ Room s a) s →
      (s.lh.length < s.size ∧ ∀ c ∈ s.commits, c.length < s.size) ∧
        ∀ a, Room s a → step s a ≠ some (.error .tooBig)) ∧
    (∀ s : State P, Admitted (AtMost MAXOPBLOCKS) s →
      (∀ p b, s.pos p = .inOp →
        (step s (.test p b) = some (.error .tooBig) ↔ ¬Room s (.test p b))) ∧
      ∀ p b, s.pos p = .tested b → s.lh.length < s.size →
        ((logWrite s p b).lh.length < s.size ↔ Room s (.logWrite p))) ∧
    ∀ s : State P, Admitted (AtMost (MAXOPBLOCKS - 1)) s → ∀ p b,
      (s.pos p = .inOp → Room s (.test p b)) ∧ Room s (.logWrite p) := by
  refine ⟨fun s h => ⟨?_, fun a hroom => ?_⟩, fun s h => ⟨?_, ?_⟩, fun s h p b => ?_⟩
  · apply Reach.invariant (P := fun s : State P => s.lh.length < s.size ∧
      ∀ c ∈ s.commits, c.length < s.size) _ _ h
    · rintro s ⟨⟨size, rfl⟩, hsize⟩
      exact ⟨hsize ▸ (by decide : 0 < nlog), by simp⟩
    · exact fun s a s' hfits ha hs => fits_step ha.2 hs hfits
  · cases a with
    | test p b =>
      cases hp : s.pos p with
      | inOp => exact fun hs => (test_tooBig_iff h.reachable.2 hp).mp hs hroom
      | _ => simp [step, hp]
    | endOp p =>
      cases hp : s.pos p with
      | inOp =>
        simp only [step, hp, endOp]
        split_ifs <;> simp
      | _ => simp [step, hp]
    | beginOp p | logWrite p | writeHead p | commitDone p => cases hp : s.pos p <;> simp [step, hp]
  · exact fun p b => test_tooBig_iff h.reachable.2
  · exact fun p b hp hlt => logWrite_fits_iff hlt hp
  · obtain ⟨S, hg, hspare⟩ := h.spare
    have hsize := h.reachable.2
    have hroom : (s.pos p).inside = true → s.lh.length + 1 < s.size := by
      intro hin
      have hlt := hspare.room ⟨p, (hg.mem p).mpr hin⟩
      omega
    refine ⟨fun hp => hroom (by rw [hp]; rfl), fun c hc => .inr (hroom ?_)⟩
    cases hp : s.pos p with
    | tested b => rfl
    | _ =>
      rw [hp] at hc
      cases hc

instance (m : ℕ) (s : State P) : DecidablePred (AtMost m s)
  | .test p b => inferInstanceAs (Decidable ((insert b (s.wrote p)).card ≤ m))
  | .logWrite p => inferInstanceAs
      (Decidable (∀ b ∈ (s.pos p).block, (insert b (s.wrote p)).card ≤ m))
  | .beginOp _ | .endOp _ | .writeHead _ | .commitDone _ => isTrue trivial

instance (s : State P) : DecidablePred (Room s)
  | .test _ _ => inferInstanceAs (Decidable (s.lh.length + 1 < s.size))
  | .logWrite p => inferInstanceAs
      (Decidable (∀ b ∈ (s.pos p).block, b ∈ s.lh ∨ s.lh.length + 1 < s.size))
  | .beginOp _ | .endOp _ | .writeHead _ | .commitDone _ => isTrue trivial

def empty (P : Type*) : State P :=
  ⟨nlog, 0, false, [], fun _ => .idle, fun _ => 0, 0, [], []⟩

theorem exists_admitted (ok : State P → Act P → Prop) [∀ s, DecidablePred (ok s)]
    (check : State P → Bool) (as : List (Act P))
    (h : (execs (fun s a => decide (ok s a)) (fun s a => reached (step s a)) (empty P) as).any
      check = true) :
    ∃ s, Admitted ok s ∧ check s = true :=
  Reach.exists_of_execs (fun s a => decide (ok s a)) _ check
    (fun _ _ ha => of_decide_eq_true ha) (fun _ _ _ => eq_of_reached) as
    (.start ⟨⟨nlog, rfl⟩, rfl⟩) h

/-- The operations of `twoOps` have room, and their transaction fits. -/
theorem log_write_has_room_two : ∃ s : State (Fin 2), s.commits = [[7, 9]] ∧
    ∀ c ∈ s.commits, c.length < s.size := by
  obtain ⟨s, hs, hcheck⟩ := exists_admitted (fun s a => AtMost MAXOPBLOCKS s a ∧ Room s a)
    (fun s => decide (s.commits = [[7, 9]])) twoOps (by decide +kernel)
  exact ⟨s, of_decide_eq_true hcheck, (log_write_panics_iff_log_full.1 s hs).1.2⟩

/-- A whole `log_write` of block `100 + i`, by the process whose tenth it is part of. -/
def logs (i : ℕ) : List (Act (Fin 3)) :=
  [.test (Fin.ofNat 3 (i / 10)) (100 + i), .logWrite (Fin.ofNat 3 (i / 10))]

/-- Three processes are admitted on an empty log; `n` blocks of their thirty are logged. -/
def threeFullOps (n : ℕ) : List (Act (Fin 3)) :=
  (List.finRange 3).map .beginOp ++ (List.range n).flatMap logs

/-- Within every reservation the thirtieth distinct block panics. When it is tested before the
twenty-ninth is listed, thirty blocks are committed to a log area that holds twenty-nine. -/
theorem log_write_too_big_within_reservation :
    (∃ s : State (Fin 3), Admitted (AtMost MAXOPBLOCKS) s ∧ AtMost MAXOPBLOCKS s (.test 2 129) ∧
      step s (.test 2 129) = some (.error .tooBig)) ∧
    ∃ s : State (Fin 3), Admitted (AtMost MAXOPBLOCKS) s ∧ ∃ c ∈ s.commits, c.length = s.size := by
  constructor
  · obtain ⟨s, hs, hcheck⟩ := exists_admitted (AtMost MAXOPBLOCKS)
      (fun s => decide (AtMost MAXOPBLOCKS s (.test 2 129) ∧ s.pos 2 = .inOp ∧
        ¬Room s (.test 2 129))) (threeFullOps 29) (by decide +kernel)
    obtain ⟨hle, hpos, hfull⟩ := of_decide_eq_true hcheck
    exact ⟨s, hs, hle, (test_tooBig_iff hs.reachable.2 hpos).mpr hfull⟩
  · obtain ⟨s, hs, hcheck⟩ := exists_admitted (AtMost MAXOPBLOCKS)
      (fun s => decide (∃ c ∈ s.commits, c.length = s.size))
      (threeFullOps 19 ++ [.test 1 119] ++ ((List.range 9).map (· + 20)).flatMap logs ++
        [.test 2 129, .logWrite 1, .logWrite 2, .endOp 0, .endOp 1, .endOp 2, .writeHead 2])
      (by decide +kernel)
    exact ⟨s, hs, of_decide_eq_true hcheck⟩

end Xv6Threads.GroupCommit
