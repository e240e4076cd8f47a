import Xv6Threads.BufferCache
import Xv6Threads.GroupCommit

namespace Xv6Threads.CacheCommit

open BufferCache Function List Option GroupCommit CacheCommit Except

inductive Loop
  | writeLog
  | writeHead
  | installTrans
  | clearHead
  deriving DecidableEq

/-- What is left to do of turn `k` of the current part, for the process that commits. -/
inductive Pc (D : Type)
  | user
  | commit (l : Loop) (k : ℕ) (code : List (Instr D))
  deriving DecidableEq

/-- The cache, the log and where it begins on the disk. -/
structure Sys (P D : Type) where
  cache : Cache P D
  log : GroupCommit.State P
  start : ℕ
  pc : P → Pc D

/-- The body of turn `k`; the two calls of `write_head` have one turn each. -/
def turn {D : Type} (start : ℕ) (lh : List ℕ) (l : Loop) (k : ℕ) : List (Instr D) :=
  let log := start + k + 1
  let home := lh.getD k 0
  match l with
  | .writeLog =>
    [.bread log, .bread home, .copy home log, .bwrite log, .brelse home, .brelse log]
  | .writeHead => [.bread start, .head start lh, .bwrite start, .brelse start]
  | .installTrans =>
    [.bread log, .bread home, .install log home, .bwrite home, .brelse log, .brelse home]
  | .clearHead => [.bread start, .head start [], .bwrite start, .brelse start]

inductive Act (P D : Type)
  | use (p : P) (x : Instr D)
  | beginOp (p : P)
  | test (p : P) (b : ℕ)
  | logWrite (p : P)
  | endOp (p : P)
  | commit (p : P)

inductive Fault
  | cache (e : Panic)
  | log (e : LogPanic)
  deriving DecidableEq

variable {P D : Type} [DecidableEq P] {enc : List ℕ → D → D} {log : GroupCommit.State P}

/-- A process outside `commit` uses `bread`, `bwrite` and `brelse` and changes the data in place;
a change is followed by `log_write` or `bwrite` before the buffer is released. -/
def permitted (s : Cache P D) (p : P) : Instr D → Bool
  | .bread _ | .modify _ _ | .bwrite _ => true
  | .brelse b => (held s p b).any fun i => !(s.buf i).touched
  | .copy _ _ | .install _ _ | .head _ _ => false

def enter (s : Sys P D) (p : P) (l : Loop) (k : ℕ) : Sys P D :=
  { s with pc := update s.pc p (.commit l k (turn s.start s.log.lh l k)) }

/-- `commit` does nothing when the log is empty. -/
def startCommit (s : Sys P D) (p : P) : Sys P D :=
  if s.log.lh = [] then { s with pc := update s.pc p (.commit .clearHead 0 []) }
  else enter s p .writeLog 0

def finish (s : Sys P D) (p : P) : Sys P D :=
  let log := if s.log.pos p = .commit then writeHead s.log p else s.log
  { s with log := commitDone log p, pc := update s.pc p .user }

/-- From the end of turn `k` to the next one. -/
def next (s : Sys P D) (p : P) (l : Loop) (k : ℕ) : Sys P D :=
  match l with
  | .writeLog => if k + 1 < s.log.lh.length then enter s p .writeLog (k + 1)
    else enter s p .writeHead 0
  | .writeHead => enter { s with log := writeHead s.log p } p .installTrans 0
  | .installTrans => if k + 1 < s.log.lh.length then enter s p .installTrans (k + 1)
    else enter s p .clearHead 0
  | .clearHead => finish s p

def onLog (s : Sys P D) (r : Option (Except LogPanic (GroupCommit.State P))) :
    Option (Except Fault (Sys P D)) :=
  r.map fun r => match r with
    | .ok log => .ok { s with log := log }
    | .error e => .error (.log e)

def onCache (s : Sys P D) (r : Option (Except Panic (Cache P D))) :
    Option (Except Fault (Sys P D)) :=
  r.map fun r => match r with
    | .ok cache => .ok { s with cache := cache }
    | .error e => .error (.cache e)

/-- One step of one process; `none` when it cannot take it. -/
def step (enc : List ℕ → D → D) (s : Sys P D) : Act P D → Option (Except Fault (Sys P D))
  | .use p x =>
    match s.log.pos p with
    | .idle | .inOp => if permitted s.cache p x then onCache s (exec enc s.cache p x) else none
    | _ => none
  | .beginOp p => onLog s (GroupCommit.step s.log (.beginOp p))
  | .test p b =>
    (held s.cache p b).bind fun _ => onLog s (GroupCommit.step s.log (.test p b))
  | .logWrite p =>
    match s.log.pos p with
    | .tested b => (held s.cache p b).map fun i =>
      .ok { s with cache := setDirty s.cache i, log := logWrite s.log p b }
    | _ => none
  | .endOp p =>
    (onLog s (GroupCommit.step s.log (.endOp p))).map fun r => r.map fun t =>
      if t.log.pos p = .commit then startCommit t p else t
  | .commit p =>
    match s.pc p with
    | .user => none
    | .commit l k [] => some (.ok (next s p l k))
    | .commit l k (x :: code) =>
      onCache { s with pc := update s.pc p (.commit l k code) } (exec enc s.cache p x)

/-- After `binit` and `initlog`: nobody holds a buffer and what is cached is on the disk. -/
def init (s : Sys P D) : Prop :=
  Coherent s.cache ∧ s.cache.flat = s.cache.disk ∧
  (∀ i, (s.cache.buf i).holder = none ∧ (s.cache.buf i).dirty = false) ∧
  GroupCommit.init s.log ∧ ∀ p, s.pc p = .user

abbrev Reachable (enc : List ℕ → D → D) (ok : Sys P D → Act P D → Prop) : Sys P D → Prop :=
  Reach init ok fun s a s' => step enc s a = some (.ok s')

def Sys.Outside (s : Sys P D) (b : ℕ) : Prop := b < s.start ∨ s.start + s.log.size ≤ b

/-- The blocks of the log are only changed by `commit`; a block of the transaction is written by
`commit` alone and does not change while it is being committed; the transaction fits in the
log. -/
def Disciplined (s : Sys P D) : Act P D → Prop
  | .use _ (.modify b _) => s.Outside b ∧ (s.log.committing = true → b ∉ s.log.lh)
  | .use _ (.bwrite b) => b ∉ s.log.lh
  | .logWrite p =>
    match s.log.pos p with
    | .tested b => s.Outside b ∧ (absorb s.log.lh b).length < s.log.size
    | _ => True
  | _ => True

instance (s : Sys P D) (b : ℕ) : Decidable (s.Outside b) :=
  inferInstanceAs (Decidable (_ ∨ _))

instance (s : Sys P D) : DecidablePred (Disciplined s)
  | .use _ (.modify b _) =>
    inferInstanceAs (Decidable (s.Outside b ∧ (s.log.committing = true → b ∉ s.log.lh)))
  | .use _ (.bwrite b) => inferInstanceAs (Decidable (b ∉ s.log.lh))
  | .logWrite p =>
    match hp : s.log.pos p with
    | .tested b =>
      decidable_of_iff (s.Outside b ∧ (absorb s.log.lh b).length < s.log.size)
        (by simp only [Disciplined, hp])
    | .idle | .asleep | .inOp | .commit | .install =>
      .isTrue (by simp only [Disciplined, hp])
  | .use _ (.bread _) | .use _ (.copy _ _) | .use _ (.install _ _) | .use _ (.head _ _)
  | .use _ (.brelse _) | .beginOp _ | .test _ _ | .endOp _ | .commit _ => .isTrue trivial

section
variable {start : ℕ} {lh : List ℕ} {l : Loop} {k c : ℕ} {x : Instr D} {code : List (Instr D)}

omit [DecidableEq P] in
/-- Where an instruction can stand in a turn, and what still follows it. -/
theorem turn_cases (h : x :: code <:+ turn start lh l k) : (∃ b, x = .bread b) ∨
    (l = .writeLog ∧ x = .copy (lh.getD k 0) (start + k + 1) ∧ .bwrite (start + k + 1) ∈ code ∧
      ∀ src dst, .copy src dst ∉ code) ∨
    (l = .installTrans ∧ x = .install (start + k + 1) (lh.getD k 0) ∧
      .bwrite (lh.getD k 0) ∈ code) ∨
    (∃ ns, x = .head start ns ∧ .bwrite start ∈ code ∧ (l = .writeHead ∨ l = .clearHead)) ∨
    (∃ b, x = .bwrite b ∧ .bwrite b ∉ code ∧
      (l = .installTrans ∧ b = lh.getD k 0 ∨ l = .writeLog ∧ b = start + k + 1 ∨
        (l = .writeHead ∨ l = .clearHead) ∧ b = start)) ∨
    (∃ b, x = .brelse b ∧ ∀ c, .bread c ∉ code ∧ .bwrite c ∉ code) := by
  cases l <;> simp only [turn, suffix_cons_iff, List.cons.injEq, suffix_nil] at h <;>
    aesop

theorem bread_mem_turn (h : .brelse c ∈ (turn start lh l k : List (Instr D))) :
    .bread c ∈ (turn start lh l k : List (Instr D)) := by
  cases l <;> simp_all [turn, or_comm]

/-- Only the copies of `write_log` and the header are modifications, and they are in the log. -/
theorem alters_turn (h : x :: code <:+ turn start lh l k) (hx : x.Alters c) :
    c = start ∧ (l = .writeHead ∨ l = .clearHead) ∨
      l = .writeLog ∧ c = start + k + 1 ∧ x = .copy (lh.getD k 0) c := by
  rcases turn_cases h with ⟨b, rfl⟩ | ⟨hw, rfl, -⟩ | ⟨-, rfl, -⟩ | ⟨ns, rfl, -, hw⟩ |
    ⟨b, rfl, -⟩ | ⟨b, rfl, -⟩
  · exact hx.elim
  · exact .inr ⟨hw, hx, by rw [hx]⟩
  · exact hx.elim
  · exact .inl ⟨hx, hw⟩
  · exact hx.elim
  · exact hx.elim

theorem bwrite_turn (h : .bwrite c :: code <:+ (turn start lh l k : List (Instr D))) :
    .bwrite c ∉ code ∧ (l = .installTrans ∧ c = lh.getD k 0 ∨
      l = .writeLog ∧ c = start + k + 1 ∨ c = start) := by
  rcases turn_cases h with ⟨b, hx⟩ | ⟨-, hx, -⟩ | ⟨-, hx, -⟩ | ⟨ns, hx, -⟩ |
    ⟨b, hx, hnot, hw⟩ | ⟨b, hx, -⟩
  case inr.inr.inr.inr.inl =>
    obtain rfl := Instr.bwrite.inj hx
    exact ⟨hnot, hw.imp_right (Or.imp_right And.right)⟩
  all_goals cases hx

theorem bwrite_mem_of_stores (h : x :: code <:+ turn start lh l k) (hx : x.Stores c) :
    .bwrite c ∈ code := by
  rcases turn_cases h with ⟨b, rfl⟩ | ⟨-, rfl, hw, -⟩ | ⟨-, rfl, hw⟩ | ⟨ns, rfl, hw, -⟩ |
    ⟨b, rfl, -⟩ | ⟨b, rfl, -⟩
  · exact hx.elim
  · exact hx ▸ hw
  · exact hx ▸ hw
  · exact hx ▸ hw
  · exact hx.elim
  · exact hx.elim

end

/-- The log holds the current content of the `j`-th block of the transaction. -/
def Sys.Copied (s : Sys P D) (j : ℕ) : Prop :=
  ∀ b, s.log.lh[j]? = some b → s.cache.flat (s.start + j + 1) = s.cache.flat b

/-- `write_log` is past the `memmove` of turn `j`. -/
def Loop.copied : Loop → ℕ → List (Instr D) → ℕ → Prop
  | .writeLog, k, code, j => j < k ∨ j = k ∧ ∀ src dst, .copy src dst ∉ code
  | _, _, _, _ => True

/-- `install_trans` is past the `bwrite` of turn `j`, whose block is `b`. -/
def Loop.installed : Loop → ℕ → List (Instr D) → ℕ → ℕ → Prop
  | .writeLog, _, _, _, _ | .writeHead, _, _, _, _ => False
  | .installTrans, k, code, j, b => j < k ∨ j = k ∧ .bwrite b ∉ code
  | .clearHead, _, _, _, _ => True

def Loop.At (l : Loop) (log : GroupCommit.State P) (p : P) : Prop :=
  match l with
  | .writeLog | .writeHead => log.pos p = .commit
  | .installTrans => log.pos p = .install
  | .clearHead => log.pos p = .install ∨ log.pos p = .commit ∧ log.lh = []

structure Stage (s : Sys P D) (p : P) (l : Loop) (k : ℕ) (code : List (Instr D)) : Prop where
  pos : l.At s.log p
  lt : l ≠ .clearHead → k < s.log.lh.length
  suffix : code <:+ turn s.start s.log.lh l k
  copied : ∀ j, l.copied k code j → s.Copied j
  pinned : ∀ j b, s.log.lh[j]? = some b → ¬ l.installed k code j b → s.cache.Pinned b
  /-- what the commit has changed it still has to write -/
  clean : ∀ b i, .bread b ∉ code → .brelse b ∈ code → (s.cache.buf i).blockno = some b →
    (s.cache.buf i).holder = some p → (s.cache.buf i).touched = true → .bwrite b ∈ code

/-- The list of the transaction: no block twice, none of the log's own, and it fits. -/
structure Listed (s : Sys P D) : Prop where
  nodup : s.log.lh.Nodup
  outside : ∀ b ∈ s.log.lh, s.Outside b
  fits : s.log.lh ≠ [] → s.log.lh.length < s.log.size

structure Inv (s : Sys P D) : Prop where
  coherent : Coherent s.cache
  log : GroupCommit.Reachable s.log
  listed : Listed s
  user : ∀ p, s.pc p = .user → (s.log.pos p).inCommit = false
  stage : ∀ p l k code, s.pc p = .commit l k code → Stage s p l k code
  pinned : (∀ p, s.pc p = .user) → ∀ b ∈ s.log.lh, s.cache.Pinned b

variable {s s' : Sys P D} {p q : P} {l : Loop} {k : ℕ} {x : Instr D} {code : List (Instr D)}

omit [DecidableEq P] in
/-- The `j`-th block of the log is not a block of the transaction. -/
theorem Listed.log_ne (h : Listed s) {j k b : ℕ} (hj : s.log.lh[j]? = some b)
    (hk : k < s.log.lh.length) : b ≠ s.start + k + 1 := by
  have hb := mem_of_getElem? hj
  have hfits := h.fits (ne_nil_of_mem hb)
  have hout := h.outside b hb
  unfold Sys.Outside at hout
  omega

omit [DecidableEq P] in
theorem Listed.start_ne (h : Listed s) {b : ℕ} (hb : b ∈ s.log.lh) : b ≠ s.start := by
  have hfits := h.fits (ne_nil_of_mem hb)
  have hout := h.outside b hb
  unfold Sys.Outside at hout
  omega

omit [DecidableEq P] in
/-- The rule for a step that leaves the commit of `p` where it is. -/
theorem Stage.frame (h : Stage s p l k code) (hpos : s'.log.pos p = s.log.pos p)
    (hlh : s'.log.lh = s.log.lh) (hstart : s'.start = s.start)
    (hflat : ∀ b ∈ s.log.lh, s'.cache.flat b = s.cache.flat b) (hlog : ∀ j, j < s.log.lh.length →
      s'.cache.flat (s.start + j + 1) = s.cache.flat (s.start + j + 1))
    (hpin : ∀ b ∈ s.log.lh, s.cache.Pinned b → s'.cache.Pinned b)
    (hheld : ∀ i, (s'.cache.buf i).holder = some p → s'.cache.buf i = s.cache.buf i) :
    Stage s' p l k code := by
  refine ⟨?_, ?_, ?_, ?_, ?_, ?_⟩
  · have hat := h.pos
    cases l <;> simp only [Loop.At, hpos, hlh] at hat ⊢ <;> exact hat
  · rw [hlh]
    exact h.lt
  · rw [hlh, hstart]
    exact h.suffix
  · intro j hj b hb
    rw [hlh] at hb
    rw [hstart, hflat b (mem_of_getElem? hb), hlog j (List.getElem?_eq_some_iff.mp hb).1]
    exact h.copied j hj b hb
  · intro j b hb hj
    rw [hlh] at hb
    exact hpin b (mem_of_getElem? hb) (h.pinned j b hb hj)
  · intro b i hread hrel hb hp ht
    rw [hheld i hp] at hb ht hp
    exact h.clean b i hread hrel hb hp ht

omit [DecidableEq P] in
theorem getD_of_lt {lh : List ℕ} {k : ℕ} (hk : k < lh.length) : lh[k]? = some (lh.getD k 0) := by
  rw [getD_eq_getElem?_getD, List.getElem?_eq_getElem hk, getD_some]

section
variable {t : Cache P D} {pc : P → Pc D}

section

variable (h : Stage s p l k (x :: code))
include h

omit [DecidableEq P] in
theorem Stage.flat_home (hl : Listed s)
    (he : Effect x p s.cache t) {b : ℕ} (hb : b ∈ s.log.lh) : t.flat b = s.cache.flat b := by
  apply he.flat
  intro hc
  rcases alters_turn h.suffix hc with ⟨hs, -⟩ | ⟨hw, hs, -⟩
  · exact hl.start_ne hb hs
  · obtain ⟨j, hj⟩ := mem_iff_getElem?.mp hb
    exact hl.log_ne hj (h.lt (by simp [hw])) hs

omit [DecidableEq P] in
theorem Stage.exec_copied (hl : Listed s) (he : Effect x p s.cache t)
    {j : ℕ} (hj : l.copied k code j) : Sys.Copied { s with cache := t, pc := pc } j := by
  intro b hb
  simp only at hb ⊢
  rw [h.flat_home hl he (mem_of_getElem? hb)]
  by_cases hx : x.Alters (s.start + j + 1)
  · -- the `memmove` of turn `j` itself
    rcases alters_turn h.suffix hx with ⟨hs, -⟩ | ⟨rfl, hs, rfl⟩
    · omega
    · obtain rfl : j = k := by omega
      have hhome := getD_of_lt (h.lt (by simp))
      rw [he.copied _ _ rfl, some.inj (hhome.symm.trans hb)]
  · rw [he.flat _ hx]
    refine h.copied j ?_ b hb
    cases l with
    | writeLog =>
      rcases hj with hj | ⟨hj, hnot⟩
      · exact .inl hj
      · refine .inr ⟨hj, ?_⟩
        intro src dst hmem
        rcases mem_cons.mp hmem with rfl | hmem
        · -- a `memmove` of this turn would have changed block `j` of the log
          rcases turn_cases h.suffix with ⟨c, hc⟩ | ⟨-, hc, -⟩ | ⟨-, hc, -⟩ | ⟨ns, hc, -⟩ |
            ⟨c, hc, -⟩ | ⟨c, hc, -⟩
          case inr.inl =>
            obtain ⟨rfl, rfl⟩ := Instr.copy.inj hc
            exact hx (by rw [hj]; rfl)
          all_goals cases hc
        · exact hnot src dst hmem
    | _ => trivial

omit [DecidableEq P] in
theorem Stage.exec_pinned (hl : Listed s) (he : Effect x p s.cache t)
    {j b : ℕ} (hb : s.log.lh[j]? = some b) (hj : ¬ l.installed k code j b) : t.Pinned b := by
  have hbw : x ≠ .bwrite b := by
    rintro rfl
    obtain ⟨hnot, hw⟩ := bwrite_turn h.suffix
    rcases hw with ⟨rfl, hk⟩ | ⟨rfl, hk⟩ | hk
    · -- the block of this turn, which is on the list once
      have hhome := getD_of_lt (h.lt (by simp))
      have hjk : j = k := by
        refine (List.getElem?_inj (List.getElem?_eq_some_iff.mp hb).1 hl.nodup).mp ?_
        rw [hb, hhome, hk]
      exact hj (.inr ⟨hjk, hnot⟩)
    · exact hl.log_ne hb (h.lt (by simp)) hk
    · exact hl.start_ne (mem_of_getElem? hb) hk
  refine he.pinned b hbw (h.pinned j b hb ?_)
  intro hinst
  apply hj
  cases l with
  | installTrans =>
    rcases hinst with hinst | ⟨hjk, hnot⟩
    · exact .inl hinst
    · exact .inr ⟨hjk, fun hmem => hnot (mem_cons_of_mem _ hmem)⟩
  | clearHead => trivial
  | _ => exact hinst.elim

omit [DecidableEq P] in
theorem Stage.exec (hl : Listed s) (he : Effect x p s.cache t) :
    Stage { s with cache := t, pc := pc } p l k code := by
  refine ⟨h.pos, h.lt, (suffix_cons x code).trans h.suffix,
    fun j hj => h.exec_copied hl he hj, fun j b hb hj => h.exec_pinned hl he hb hj, ?_⟩
  intro b i hread hrel hb hp ht
  rcases he.own i b hb hp ht with hst | ⟨hb, hp, ht, hxr, hxw⟩
  · exact bwrite_mem_of_stores h.suffix hst
  · have hmem := h.clean b i (by simpa [hread] using Ne.symm hxr) (mem_cons_of_mem _ hrel)
      hb hp ht
    exact (mem_cons.mp hmem).resolve_left (Ne.symm hxw)

/-- What a commit needs of the state to run its next instruction: the log's copy is current where
it is installed, and nothing is released that has not been written. -/
theorem Stage.effect (hcoh : Coherent s.cache)
    (hr : BufferCache.exec enc s.cache p x = some (.ok t)) : Effect x p s.cache t := by
  refine hcoh.exec hr ?_ ?_
  · rintro src dst rfl
    rcases turn_cases h.suffix with ⟨c, hc⟩ | ⟨-, hc, -⟩ | ⟨rfl, hc, -⟩ | ⟨ns, hc, -⟩ |
      ⟨c, hc, -⟩ | ⟨c, hc, -⟩
    case inr.inr.inl =>
      obtain ⟨rfl, rfl⟩ := Instr.install.inj hc
      exact h.copied k trivial _ (getD_of_lt (h.lt (by simp)))
    all_goals cases hc
  · rintro c i rfl hi
    obtain ⟨hb, hp⟩ := held_some hi
    rcases turn_cases h.suffix with ⟨b, hc⟩ | ⟨-, hc, -⟩ | ⟨-, hc, -⟩ | ⟨ns, hc, -⟩ |
      ⟨b, hc, -⟩ | ⟨b, -, hnot⟩
    case inr.inr.inr.inr.inr =>
      by_contra ht
      have hmem := h.clean c i (by simpa using (hnot c).1) (by simp) hb hp (by simpa using ht)
      exact (hnot c).2 (by simpa using hmem)
    all_goals cases hc

end

end

section
variable {pc : P → Pc D}

omit [DecidableEq P] in
theorem Stage.begin (hpos : l.At s.log p) (hlt : l ≠ .clearHead → k < s.log.lh.length)
    (hcopied : ∀ j, l.copied k (turn s.start s.log.lh l k : List (Instr D)) j → s.Copied j)
    (hpinned : ∀ j b, s.log.lh[j]? = some b →
      ¬ l.installed k (turn s.start s.log.lh l k : List (Instr D)) j b → s.cache.Pinned b) :
    Stage s p l k (turn s.start s.log.lh l k) :=
  ⟨hpos, hlt, suffix_refl _, hcopied, hpinned, fun _ _ hread hrel =>
    absurd (bread_mem_turn hrel) hread⟩

theorem copy_mem_turn (start : ℕ) (lh : List ℕ) (k : ℕ) :
    .copy (lh.getD k 0) (start + k + 1) ∈ (turn start lh .writeLog k : List (Instr D)) := by
  simp [turn]

theorem not_copied_turn {start : ℕ} {lh : List ℕ} {j : ℕ}
    (h : Loop.writeLog.copied k (turn start lh .writeLog k : List (Instr D)) j) : j < k := by
  rcases h with h | ⟨-, hnot⟩
  · exact h
  · exact absurd (copy_mem_turn start lh k) (hnot _ _)

/-- `commit` is called with every block of the transaction pinned. -/
theorem Stage.startCommit (hpos : s.log.pos p = .commit) (hpin : ∀ b ∈ s.log.lh, s.cache.Pinned b) :
    ∃ l k code, (startCommit s p).pc p = .commit l k code ∧ Stage (startCommit s p) p l k code := by
  unfold CacheCommit.startCommit
  split_ifs with hempty
  · refine ⟨.clearHead, 0, [], update_self .., ?_⟩
    refine ⟨.inr ⟨hpos, hempty⟩, by simp, nil_suffix, ?_, by simp [Loop.installed], by simp⟩
    intro j _ b hb
    simp [hempty] at hb
  · refine ⟨.writeLog, 0, _, update_self .., ?_⟩
    refine Stage.begin (s := enter s p .writeLog 0) hpos ?_ ?_ ?_
    · intro _
      exact length_pos_iff.mpr hempty
    · intro j hj
      exact absurd (not_copied_turn hj) (Nat.not_lt_zero j)
    · intro j b hb _
      exact hpin b (mem_of_getElem? hb)

theorem Stage.next (h : Stage s p l k []) (hl : l ≠ .clearHead) :
    ∃ l' k', (next s p l k).pc p = .commit l' k' (turn s.start s.log.lh l' k') ∧
      Stage (next s p l k) p l' k' (turn s.start s.log.lh l' k') := by
  -- `write_head` leaves list and cache as they are
  have hlh : (writeHead s.log p).lh = s.log.lh := by
    unfold writeHead
    split_ifs <;> rfl
  cases l with
  | writeLog =>
    have hpos : 0 < s.log.lh.length := Nat.zero_lt_of_lt (h.lt (by simp))
    have hdone : ∀ j < k + 1, s.Copied j := by
      intro j hj
      refine h.copied j ?_
      by_cases hjk : j < k
      · exact .inl hjk
      · exact .inr ⟨by omega, by simp⟩
    have hpin : ∀ j b, s.log.lh[j]? = some b → s.cache.Pinned b :=
      fun j b hb => h.pinned j b hb id
    unfold next
    split_ifs with hk
    · refine ⟨.writeLog, k + 1, update_self .., ?_⟩
      refine Stage.begin (s := enter s p .writeLog (k + 1)) h.pos (fun _ => hk) ?_
        (fun j b hb _ => hpin j b hb)
      intro j hj
      exact hdone j (not_copied_turn hj)
    · refine ⟨.writeHead, 0, update_self .., ?_⟩
      refine Stage.begin (s := enter s p .writeHead 0) h.pos (fun _ => hpos) ?_
        (fun j b hb _ => hpin j b hb)
      intro j _ b hb
      have hj : j < s.log.lh.length := (List.getElem?_eq_some_iff.mp hb).1
      exact hdone j (by omega) b hb
  | writeHead =>
    refine ⟨.installTrans, 0, ?_, ?_⟩
    · simp only [next, enter, update_self, hlh]
    · have hst := Stage.begin (l := .installTrans) (k := 0) (p := p)
        (s := next s p .writeHead k) ?_ ?_ ?_ ?_
      · simpa only [next, enter, hlh] using hst
      · simp only [next, enter, Loop.At, writeHead]
        split_ifs <;> simp [setPos]
      · intro _
        simp only [next, enter, hlh]
        exact Nat.zero_lt_of_lt (h.lt (by simp))
      · intro j _ b hb
        simp only [next, enter, hlh] at hb ⊢
        exact h.copied j trivial b hb
      · intro j b hb _
        simp only [next, enter, hlh] at hb
        exact h.pinned j b hb id
  | installTrans =>
    unfold next
    split_ifs with hk
    · refine ⟨.installTrans, k + 1, update_self .., ?_⟩
      refine Stage.begin (s := enter s p .installTrans (k + 1)) h.pos (fun _ => hk)
        (fun j _ => h.copied j trivial) ?_
      intro j b hb hj
      refine h.pinned j b hb ?_
      rintro (hjk | ⟨hjk, -⟩)
      · exact hj (.inl (by omega))
      · exact hj (.inl (by omega))
    · refine ⟨.clearHead, 0, update_self .., ?_⟩
      exact Stage.begin (s := enter s p .clearHead 0) (.inl h.pos) (by simp)
        (fun j _ => h.copied j trivial) (fun j b _ hj => absurd trivial hj)
  | clearHead => exact absurd rfl hl

end

omit [DecidableEq P] in
theorem Loop.At.inCommit (h : l.At log p) : (log.pos p).inCommit = true := by
  cases l with
  | writeLog | writeHead | installTrans =>
    simp only [Loop.At] at h
    rw [h]
    rfl
  | clearHead => rcases h with h | ⟨h, -⟩ <;> rw [h] <;> rfl

theorem Inv.committing (h : Inv s) (hp : s.pc p = .commit l k code) : s.log.committing = true := by
  obtain ⟨-, S, hg⟩ := reachable_inv h.log
  exact hg.flag p (h.stage p l k code hp).pos.inCommit

theorem Inv.one (h : Inv s) {l' : Loop} {k' : ℕ} {code' : List (Instr D)}
    (hp : s.pc p = .commit l k code) (hq : s.pc q = .commit l' k' code') : q = p := by
  obtain ⟨-, S, hg⟩ := reachable_inv h.log
  exact hg.one q p (h.stage q l' k' code' hq).pos.inCommit (h.stage p l k code hp).pos.inCommit

theorem Inv.all_user (h : Inv s) (hc : s.log.committing = false) (p : P) : s.pc p = .user := by
  cases hp : s.pc p with
  | user => rfl
  | commit l k code => exact absurd (hc.symm.trans (h.committing hp)) (by decide)

theorem Inv.committing_of_inside (h : Inv s) (hp : (s.log.pos p).inside = true) :
    s.log.committing = false := by
  obtain ⟨-, S, hg⟩ := reachable_inv h.log
  exact (hg.of_inside hp).2

theorem Inv.use {t : Cache P D} (h : Inv s) (hpos : (s.log.pos p).inCommit = false)
    (hd : Disciplined s (.use p x)) (hper : permitted s.cache p x = true)
    (hr : exec enc s.cache p x = some (.ok t)) : Inv { s with cache := t } := by
  have he : Effect x p s.cache t := by
    refine h.coherent.exec hr ?_ ?_
    · rintro src dst rfl
      cases hper
    · rintro c i rfl hi
      simpa [permitted, hi] using hper
  have hwrite : ∀ b ∈ s.log.lh, x ≠ .bwrite b := by
    rintro b hb rfl
    exact hd hb
  have hmodify : ∀ c, x.Alters c → s.Outside c ∧ (s.log.committing = true → c ∉ s.log.lh) := by
    intro c hc
    cases x with
    | modify b d =>
      obtain rfl : c = b := hc
      exact hd
    | copy _ _ | head _ _ => cases hper
    | _ => exact hc.elim
  refine ⟨he.coherent, h.log, ⟨h.listed.nodup, h.listed.outside, h.listed.fits⟩, h.user, ?_, ?_⟩
  · intro q l k code hq
    have hst := h.stage q l k code hq
    have hqp : q ≠ p := by
      rintro rfl
      exact absurd (hpos.symm.trans hst.pos.inCommit) (by decide)
    refine hst.frame rfl rfl rfl ?_ ?_ (fun b hb => he.pinned b (hwrite b hb))
      (fun i hi => he.others q i hqp hi)
    · intro b hb
      exact he.flat b fun hc => (hmodify b hc).2 (h.committing hq) hb
    · intro j hj
      refine he.flat _ fun hc => ?_
      have hout := (hmodify _ hc).1
      have hfits := h.listed.fits (ne_nil_of_length_pos (Nat.zero_lt_of_lt hj))
      unfold Sys.Outside at hout
      omega
  · intro hc b hb
    exact he.pinned b (hwrite b hb) (h.pinned hc b hb)

theorem Inv.onLog (h : Inv s) (hlog : GroupCommit.Reachable log)
    (hsize : log.size = s.log.size) (hlh : log.lh = s.log.lh)
    (hp : (s.log.pos p).inCommit = false) (hp' : (log.pos p).inCommit = false)
    (hother : ∀ q ≠ p, log.pos q = s.log.pos q) : Inv { s with log := log } := by
  refine ⟨h.coherent, hlog, ⟨?_, ?_, ?_⟩, ?_, ?_, ?_⟩
  · simp only [hlh]
    exact h.listed.nodup
  · simp only [hlh, Sys.Outside, hsize]
    exact h.listed.outside
  · simp only [hlh, hsize]
    exact h.listed.fits
  · intro q hq
    by_cases hqp : q = p
    · rw [hqp]
      exact hp'
    · simp only [hother q hqp]
      exact h.user q hq
  · intro q l k code hq
    have hst := h.stage q l k code hq
    have hqp : q ≠ p := by
      rintro rfl
      exact absurd (hp.symm.trans hst.pos.inCommit) (by decide)
    exact hst.frame (hother q hqp) hlh rfl (fun _ _ => rfl) (fun _ _ => rfl) (fun _ _ => id)
      (fun _ _ => rfl)
  · simp only [hlh]
    exact h.pinned

theorem mem_absorb {lh : List ℕ} {b c : ℕ} : c ∈ absorb lh b ↔ c ∈ lh ∨ c = b := by
  rw [absorb_eq]
  split_ifs with hb
  · constructor
    · exact .inl
    · rintro (hc | rfl)
      · exact hc
      · exact hb
  · simp

theorem nodup_absorb {lh : List ℕ} (h : lh.Nodup) (b : ℕ) : (absorb lh b).Nodup := by
  rw [absorb_eq]
  split_ifs with hb
  · exact h
  · refine nodup_append.mpr ⟨h, nodup_singleton b, ?_⟩
    rintro c hc _ hcb rfl
    exact hb (mem_singleton.mp hcb ▸ hc)

theorem Inv.logWrite {b : ℕ} {i : Ix} (h : Inv s) (hpos : s.log.pos p = .tested b)
    (hi : held s.cache p b = some i) (hd : Disciplined s (.logWrite p)) :
    Inv { s with cache := setDirty s.cache i, log := logWrite s.log p b } := by
  obtain ⟨hb, -⟩ := held_some hi
  obtain ⟨hout, hfits⟩ : s.Outside b ∧ (absorb s.log.lh b).length < s.log.size := by
    simpa only [Disciplined, hpos] using hd
  have hc : s.log.committing = false := h.committing_of_inside (p := p) (by rw [hpos]; rfl)
  refine ⟨h.coherent.setDirty hb, ?_, ⟨nodup_absorb h.listed.nodup b, ?_, fun _ => hfits⟩, ?_, ?_,
    ?_⟩
  · exact .step h.log trivial (show GroupCommit.step s.log (.logWrite p) = _ by
      simp only [GroupCommit.step, hpos])
  · intro c hcmem
    rcases mem_absorb.mp hcmem with hcmem | rfl
    · exact h.listed.outside c hcmem
    · exact hout
  · intro q hq
    simp only [GroupCommit.logWrite, GroupCommit.setPos_pos]
    split_ifs
    · rfl
    · exact h.user q hq
  · intro q l k code hq
    exact absurd (hq.symm.trans (h.all_user hc q)) (by simp)
  · intro huser c hcmem
    rcases mem_absorb.mp hcmem with hcmem | rfl
    · obtain ⟨j, hj, hdj⟩ := h.pinned huser c hcmem
      refine ⟨j, ?_⟩
      by_cases hji : j = i <;> simp_all [setDirty]
    · exact ⟨i, by simpa [setDirty] using hb, by simp [setDirty]⟩

theorem Inv.leave (h : Inv s) (hlog : GroupCommit.Reachable log) (hpos : s.log.pos p = .inOp)
    (heq : log = { setPos s.log p .idle with outstanding := s.log.outstanding - 1 }) :
    Inv { s with log := log } := by
  refine h.onLog (p := p) hlog ?_ ?_ (by rw [hpos]; rfl) ?_ ?_
  · rw [heq]
    rfl
  · rw [heq]
    rfl
  · simp [heq, setPos_pos, GroupCommit.Pos.inCommit]
  · intro q hq
    simp [heq, setPos_pos, hq]

/-- The rule for a step that takes `p` to another turn of its commit. -/
theorem Inv.enter (h : Inv s) (hcache : s'.cache = s.cache) (hstart : s'.start = s.start)
    (hlog : GroupCommit.Reachable s'.log) (hlh : s'.log.lh = s.log.lh)
    (hsize : s'.log.size = s.log.size) (hpos : ∀ q ≠ p, s'.log.pos q = s.log.pos q)
    (hpc : ∀ q ≠ p, s'.pc q = s.pc q) (halone : ∀ q l k code, q ≠ p → s.pc q ≠ .commit l k code)
    (hst : ∃ l k code, s'.pc p = .commit l k code ∧ Stage s' p l k code) : Inv s' := by
  obtain ⟨l, k, code, hp, hst⟩ := hst
  refine ⟨?_, hlog, ⟨?_, ?_, ?_⟩, ?_, ?_, ?_⟩
  · rw [hcache]
    exact h.coherent
  · rw [hlh]
    exact h.listed.nodup
  · rw [hlh]
    simp only [Sys.Outside, hstart, hsize]
    exact h.listed.outside
  · rw [hlh, hsize]
    exact h.listed.fits
  · intro q hq
    have hqp : q ≠ p := by
      rintro rfl
      rw [hp] at hq
      cases hq
    rw [hpos q hqp]
    exact h.user q ((hpc q hqp).symm.trans hq)
  · intro q l' k' code' hq
    by_cases hqp : q = p
    · rw [hqp] at hq ⊢
      obtain ⟨rfl, rfl, rfl⟩ := Pc.commit.inj (hp.symm.trans hq)
      exact hst
    · exact absurd ((hpc q hqp).symm.trans hq) (halone q l' k' code' hqp)
  · intro huser
    exact absurd (hp.symm.trans (huser p)) (by simp)

theorem Inv.last (h : Inv s) (hlog : GroupCommit.Reachable log) (hpos : s.log.pos p = .inOp)
    (heq : log = { setPos s.log p .commit with outstanding := 0, committing := true }) :
    Inv (startCommit { s with log := log } p) := by
  have hc : s.log.committing = false := h.committing_of_inside (p := p) (by rw [hpos]; rfl)
  have hlh : log.lh = s.log.lh := by rw [heq]; rfl
  have hpc : ∀ q ≠ p, (startCommit { s with log := log } p).pc q = s.pc q := by
    intro q hq
    unfold startCommit
    split_ifs <;> exact update_of_ne hq _ _
  have hsame : (startCommit { s with log := log } p).cache = s.cache ∧
      (startCommit { s with log := log } p).start = s.start ∧
      (startCommit { s with log := log } p).log = log := by
    unfold startCommit
    split_ifs <;> exact ⟨rfl, rfl, rfl⟩
  obtain ⟨hcache, hstart, hlog'⟩ := hsame
  refine h.enter (p := p) hcache hstart (hlog'.symm ▸ hlog) (by rw [hlog', hlh]) ?_ ?_ hpc
    (fun q l k code _ hq => absurd (hq.symm.trans (h.all_user hc q)) (by simp)) ?_
  · rw [hlog', heq]
    rfl
  · intro q hq
    rw [hlog', heq]
    simp [setPos_pos, hq]
  · refine Stage.startCommit (s := { s with log := log }) ?_ ?_
    · simp [heq, setPos_pos]
    · simp only [hlh]
      exact h.pinned (h.all_user hc)

theorem Inv.instr {t : Cache P D} (h : Inv s)
    (hp : s.pc p = .commit l k (x :: code)) (hr : exec enc s.cache p x = some (.ok t)) :
    Inv { s with cache := t, pc := update s.pc p (.commit l k code) } := by
  have hst := h.stage p l k (x :: code) hp
  have he := hst.effect h.coherent hr
  refine ⟨he.coherent, h.log, ⟨h.listed.nodup, h.listed.outside, h.listed.fits⟩, ?_, ?_, ?_⟩
  · intro q hq
    by_cases hqp : q = p
    · simp [hqp] at hq
    · exact h.user q (by simpa [hqp] using hq)
  · intro q l' k' code' hq
    by_cases hqp : q = p
    · rw [hqp] at hq ⊢
      simp only [update_self, Pc.commit.injEq] at hq
      obtain ⟨rfl, rfl, rfl⟩ := hq
      exact hst.exec h.listed he
    · exact absurd (h.one hp (by simpa [hqp] using hq)) hqp
  · intro huser
    simpa using huser p

theorem reachable_writeHead (h : GroupCommit.Reachable log)
    (hp : log.pos p = .commit) : GroupCommit.Reachable (writeHead log p) :=
  .step h trivial (show GroupCommit.step log (.writeHead p) = _ by simp only [GroupCommit.step, hp])

theorem reachable_commitDone (h : GroupCommit.Reachable log)
    (hp : log.pos p = .install) : GroupCommit.Reachable (commitDone log p) :=
  .step h trivial (show GroupCommit.step log (.commitDone p) = _ by
    simp only [GroupCommit.step, hp])

theorem writeHead_spec (log : GroupCommit.State P) (p : P) :
    (writeHead log p).lh = log.lh ∧ (writeHead log p).size = log.size ∧
      (writeHead log p).pos = (setPos log p .install).pos := by
  unfold writeHead
  split_ifs <;> exact ⟨rfl, rfl, rfl⟩

theorem next_eq (s : Sys P D) (p : P) (k : ℕ) (hl : l ≠ .clearHead) :
    ∃ log l' k', next s p l k = enter { s with log := log } p l' k' ∧
      (log = s.log ∨ l = .writeHead ∧ log = writeHead s.log p) := by
  cases l with
  | writeLog | installTrans =>
    unfold next
    split_ifs <;> exact ⟨s.log, _, _, rfl, .inl rfl⟩
  | writeHead => exact ⟨_, _, _, rfl, .inr ⟨rfl, rfl⟩⟩
  | clearHead => exact absurd rfl hl

theorem Inv.next (h : Inv s) (hp : s.pc p = .commit l k []) (hl : l ≠ .clearHead) :
    Inv (next s p l k) := by
  have hst := h.stage p l k [] hp
  obtain ⟨l', k', hpc, hst'⟩ := hst.next hl
  have halone : ∀ q l k code, q ≠ p → s.pc q ≠ .commit l k code :=
    fun q l k code hqp hq => hqp (h.one hp hq)
  obtain ⟨log, l₁, k₁, heq, hlog⟩ := next_eq s p k hl
  have hfacts : GroupCommit.Reachable log ∧ log.lh = s.log.lh ∧ log.size = s.log.size ∧
      ∀ q ≠ p, log.pos q = s.log.pos q := by
    rcases hlog with rfl | ⟨rfl, rfl⟩
    · exact ⟨h.log, rfl, rfl, fun _ _ => rfl⟩
    · obtain ⟨hlh, hsize, hpos⟩ := writeHead_spec s.log p
      refine ⟨reachable_writeHead h.log hst.pos, hlh, hsize, ?_⟩
      intro q hq
      rw [hpos, setPos_pos, if_neg hq]
  obtain ⟨hreach, hlh, hsize, hpos⟩ := hfacts
  rw [heq] at hpc hst' ⊢
  exact h.enter (p := p) rfl rfl hreach hlh hsize hpos
    (fun q hq => update_of_ne hq _ _) halone ⟨l', k', _, hpc, hst'⟩

/-- The end of `commit`: the list is empty and operations may begin again. -/
theorem Inv.finish (h : Inv s) (hp : s.pc p = .commit .clearHead k []) : Inv (finish s p) := by
  have hst := h.stage p .clearHead k [] hp
  have hlog : ∃ log, GroupCommit.Reachable log ∧ log.pos p = .install ∧
      log.size = s.log.size ∧ (∀ q ≠ p, log.pos q = s.log.pos q) ∧
      CacheCommit.finish s p = { s with
        log := commitDone log p, pc := update s.pc p .user } := by
    rcases hst.pos with hpos | ⟨hpos, -⟩
    · exact ⟨s.log, h.log, hpos, rfl, fun _ _ => rfl, by simp [CacheCommit.finish, hpos]⟩
    · obtain ⟨-, hsize, hother⟩ := writeHead_spec s.log p
      refine ⟨writeHead s.log p, reachable_writeHead h.log hpos, ?_, hsize, ?_, ?_⟩
      · rw [hother, setPos_pos, if_pos rfl]
      · intro q hq
        rw [hother, setPos_pos, if_neg hq]
      · simp [CacheCommit.finish, hpos]
  obtain ⟨log, hreach, hpos, hsize, hother, heq⟩ := hlog
  rw [heq]
  refine ⟨h.coherent, reachable_commitDone hreach hpos, ⟨nodup_nil, ?_, ?_⟩, ?_, ?_, ?_⟩
  · intro b hb
    cases hb
  · intro hne
    exact absurd rfl hne
  · intro q hq
    simp only [commitDone, setPos_pos]
    split_ifs with hqp
    · rfl
    · rw [hother q hqp]
      exact h.user q (by simpa [hqp] using hq)
  · intro q l' k' code' hq
    by_cases hqp : q = p
    · simp [hqp] at hq
    · exact absurd (h.one hp (by simpa [hqp] using hq)) hqp
  · intro _ b hb
    cases hb

omit [DecidableEq P] in
theorem onCache_ok {r : Option (Except Panic (Cache P D))} (h : onCache s r = some (.ok s')) :
    ∃ t, r = some (.ok t) ∧ s' = { s with cache := t } := by
  obtain ⟨r', hr, hr'⟩ := map_eq_some_iff.mp h
  cases r' with
  | error e => cases hr'
  | ok t => exact ⟨t, hr, (ok.inj hr').symm⟩

omit [DecidableEq P] in
theorem onLog_ok {r : Option (Except LogPanic (GroupCommit.State P))}
    (h : onLog s r = some (.ok s')) : ∃ log, r = some (.ok log) ∧ s' = { s with log := log } := by
  obtain ⟨r', hr, hr'⟩ := map_eq_some_iff.mp h
  cases r' with
  | error e => cases hr'
  | ok log => exact ⟨log, hr, (ok.inj hr').symm⟩

theorem Inv.step {a : Act P D} (h : Inv s) (hd : Disciplined s a)
    (hs : step enc s a = some (.ok s')) : Inv s' := by
  cases a with
  | use p x =>
    have hpos : (s.log.pos p = .idle ∨ s.log.pos p = .inOp) ∧ permitted s.cache p x = true ∧
        onCache s (exec enc s.cache p x) = some (.ok s') := by
      cases hpos : s.log.pos p <;> simp_all [CacheCommit.step]
    obtain ⟨hpos, hper, hcache⟩ := hpos
    obtain ⟨t, hr, rfl⟩ := onCache_ok hcache
    exact h.use (by rcases hpos with hpos | hpos <;> rw [hpos] <;> rfl) hd hper hr
  | beginOp p =>
    obtain ⟨log, hr, rfl⟩ := onLog_ok hs
    have hlog : GroupCommit.Reachable log := .step h.log trivial hr
    have hb : (s.log.pos p = .idle ∨ s.log.pos p = .asleep) ∧
        GroupCommit.beginOp s.log p = log := by
      cases hpos : s.log.pos p <;> simp_all [GroupCommit.step]
    obtain ⟨hpos, hb⟩ := hb
    refine h.onLog (p := p) hlog ?_ ?_ ?_ ?_ ?_
    case refine_3 => rcases hpos with hpos | hpos <;> rw [hpos] <;> rfl
    all_goals
      rw [← hb]
      unfold beginOp
      split_ifs <;> simp_all [setPos, GroupCommit.Pos.inCommit]
  | test p b =>
    obtain ⟨i, -, honLog⟩ := bind_eq_some_iff.mp hs
    obtain ⟨log, hr, rfl⟩ := onLog_ok honLog
    have hlog : GroupCommit.Reachable log := .step h.log trivial hr
    have hb : s.log.pos p = .inOp ∧ GroupCommit.test s.log p b = .ok log := by
      cases hpos : s.log.pos p <;> simp_all [GroupCommit.step]
    obtain ⟨hpos, hb⟩ := hb
    have heq : log = setPos s.log p (.tested b) := by
      unfold test at hb
      split_ifs at hb
      exact (ok.inj hb).symm
    refine h.onLog (p := p) hlog ?_ ?_ ?_ ?_ ?_
    case refine_3 => rw [hpos]; rfl
    all_goals
      rw [heq]
      simp_all [setPos, GroupCommit.Pos.inCommit]
  | logWrite p =>
    cases hpos : s.log.pos p with
    | tested b =>
      simp only [CacheCommit.step, hpos] at hs
      obtain ⟨i, hi, hs⟩ := map_eq_some_iff.mp hs
      rw [← ok.inj hs]
      exact h.logWrite hpos hi hd
    | _ => simp [CacheCommit.step, hpos] at hs
  | endOp p =>
    obtain ⟨r, honLog, hs⟩ := map_eq_some_iff.mp hs
    cases r with
    | error e => cases hs
    | ok t =>
      obtain ⟨log, hr, rfl⟩ := onLog_ok honLog
      have hlog : GroupCommit.Reachable log := .step h.log trivial hr
      have hs' : (if log.pos p = .commit then startCommit { s with log := log } p
          else { s with log := log }) = s' := ok.inj hs
      have hb : s.log.pos p = .inOp ∧ GroupCommit.endOp s.log p = .ok log := by
        cases hpos : s.log.pos p <;> simp_all [GroupCommit.step]
      obtain ⟨hpos, hb⟩ := hb
      simp only [endOp] at hb
      split_ifs at hb with hc hz
      · have heq := (ok.inj hb).symm
        rw [hz] at heq
        rw [← hs', if_pos (by simp [heq, setPos])]
        exact h.last hlog hpos heq
      · have heq := (ok.inj hb).symm
        rw [← hs', if_neg (by simp [heq, setPos])]
        exact h.leave hlog hpos heq
  | commit p =>
    cases hp : s.pc p with
    | user => simp [CacheCommit.step, hp] at hs
    | commit l k code =>
      cases code with
      | nil =>
        simp only [CacheCommit.step, hp, some.injEq, ok.injEq] at hs
        rw [← hs]
        by_cases hl : l = .clearHead
        · rw [hl] at hp ⊢
          exact h.finish hp
        · exact h.next hp hl
      | cons x code =>
        simp only [CacheCommit.step, hp] at hs
        obtain ⟨t, hr, rfl⟩ := onCache_ok hs
        exact h.instr hp hr

theorem Inv.init (hs : init s) : Inv s := by
  obtain ⟨hcoh, -, -, hlog, hpc⟩ := hs
  obtain ⟨size, heq⟩ := id hlog
  have hlh : s.log.lh = [] := by rw [heq]
  refine ⟨hcoh, .start hlog, ⟨by simp [hlh], by simp [hlh], by simp [hlh]⟩, ?_, ?_, by simp [hlh]⟩
  · intro p _
    rw [heq]
    rfl
  · intro p l k code hp
    rw [hpc p] at hp
    cases hp

theorem Reachable.inv (h : Reachable enc Disciplined s) : Inv s :=
  h.invariant (fun _ => Inv.init) (fun _ _ _ hi hd hs => hi.step hd hs)

/-- Block `b` of the transaction has reached its place on the disk. -/
def Sys.Installed (s : Sys P D) (b : ℕ) : Prop :=
  ∃ p l k code j, s.pc p = .commit l k code ∧ s.log.lh[j]? = some b ∧ l.installed k code j b

theorem Inv.pending (h : Inv s) {b : ℕ} (hb : b ∈ s.log.lh) (hnot : ¬ s.Installed b) :
    s.cache.Pinned b := by
  by_cases hc : ∃ p l k code, s.pc p = .commit l k code
  · obtain ⟨p, l, k, code, hp⟩ := hc
    obtain ⟨j, hj⟩ := mem_iff_getElem?.mp hb
    exact (h.stage p l k code hp).pinned j b hj fun hinst => hnot ⟨p, l, k, code, j, hp, hj, hinst⟩
  · -- nobody commits, so nothing of the transaction has been installed
    refine h.pinned (fun p => ?_) b hb
    cases hp : s.pc p with
    | user => rfl
    | commit l k code => exact absurd ⟨p, l, k, code, hp⟩ hc

/-- In every run in which the log's blocks and the blocks being committed are left to `commit`:
`bread` returns the last modification; a logged block that is not yet installed is not recycled;
`write_log` copies the current content, and the copies are current until they are installed. -/
theorem bread_returns_last_modification {enc : List ℕ → D → D} {s : Sys P D}
    (h : Reachable enc Disciplined s) :
    (∀ p b t, exec enc s.cache p (.bread b) = some (.ok t) →
      ∃ i, held t p b = some i ∧ (t.buf i).data = s.cache.flat b) ∧
    (∀ b ∈ s.log.lh, ¬ s.Installed b → ∃ i, (s.cache.buf i).blockno = some b ∧
      ∀ p c t, exec enc s.cache p (.bread c) = some (.ok t) → (t.buf i).blockno = some b) ∧
    (∀ p k src dst code t, s.pc p = .commit .writeLog k (.copy src dst :: code) →
      exec enc s.cache p (.copy src dst) = some (.ok t) →
      s.log.lh[k]? = some src ∧ dst = s.start + k + 1 ∧
        ∃ i, held t p dst = some i ∧ (t.buf i).data = s.cache.flat src) ∧
    ∀ p l k code, s.pc p = .commit l k code → l = .writeHead ∨ l = .installTrans →
      ∀ j b, s.log.lh[j]? = some b → s.cache.flat (s.start + j + 1) = s.cache.flat b := by
  have hi := h.inv
  refine ⟨?_, ?_, ?_, ?_⟩
  · intro p b t hr
    exact (hi.coherent.bread hr).2.2
  · intro b hb hnot
    obtain ⟨i, hblk, hdirty⟩ := hi.pending hb hnot
    refine ⟨i, hblk, ?_⟩
    intro p c t hr
    exact (hi.coherent.bread_keeps hr hdirty).1.trans hblk
  · intro p k src dst code t hp hr
    have hst := hi.stage p _ k _ hp
    have he := hst.effect hi.coherent hr
    rcases turn_cases hst.suffix with ⟨c, hc⟩ | ⟨-, hc, -⟩ | ⟨-, hc, -⟩ | ⟨ns, hc, -⟩ |
      ⟨c, hc, -⟩ | ⟨c, hc, -⟩
    case inr.inl =>
      obtain ⟨rfl, rfl⟩ := Instr.copy.inj hc
      refine ⟨getD_of_lt (hst.lt (by simp)), rfl, ?_⟩
      obtain ⟨i, -, hr⟩ := bind_eq_some_iff.mp hr
      obtain ⟨j, hj, hr⟩ := map_eq_some_iff.mp hr
      obtain rfl := ok.inj hr
      obtain ⟨hblk, hholder⟩ := held_some hj
      have hheld : held _ p _ = some j := he.coherent.held (i := j)
        (by simpa [BufferCache.modify, store] using hblk)
        (by simpa [BufferCache.modify, store] using hholder)
      refine ⟨j, hheld, ?_⟩
      rw [he.coherent.data j _ (held_some hheld).1, he.copied _ _ rfl]
    all_goals cases hc
  · intro p l k code hp hl j b hb
    refine (hi.stage p l k code hp).copied j ?_ b hb
    rcases hl with rfl | rfl <;> trivial

/-- After `binit`, on a disk of zeros whose log begins at block 2. -/
def booted : Sys (Fin 2) ℕ where
  cache :=
    { buf := fun _ => ⟨none, none, false, false, 0, false⟩
      order := (List.finRange NBUF).reverse
      disk := fun _ => 0
      flat := fun _ => 0 }
  log := ⟨nlog, 0, false, [], fun _ => .idle, fun _ => 0, 0, [], []⟩
  start := 2
  pc := fun _ => .user

theorem init_booted : init booted := by
  refine ⟨⟨?_, ?_, ?_, ?_, ?_, ?_⟩, rfl, fun _ => ⟨rfl, rfl⟩, ⟨nlog, rfl⟩, fun _ => rfl⟩
  · intro i
    simp [booted, mem_finRange]
  all_goals simp [booted]

def header (ns : List ℕ) (_ : ℕ) : ℕ := ns.length

/-- Process 0 logs `v` as the content of block 100 and its `end_op` begins the commit. -/
def logged (v : ℕ) : List (Act (Fin 2) ℕ) :=
  [.beginOp 0, .use 0 (.bread 100), .use 0 (.modify 100 v), .test 0 100, .logWrite 0,
    .use 0 (.brelse 100), .endOp 0]

/-- The content of block 100 that a `bread` by process 1 returns. -/
def reads (s : Sys (Fin 2) ℕ) : Option ℕ :=
  match exec header s.cache 1 (.bread 100) with
  | some (.ok t) => (held t 1 100).map fun i => (t.buf i).data
  | _ => none

theorem exists_of_reads {s : Sys (Fin 2) ℕ} {v : ℕ} (h : reads s = some v) :
    ∃ t i, exec header s.cache 1 (.bread 100) = some (.ok t) ∧ held t 1 100 = some i ∧
      (t.buf i).data = v := by
  unfold reads at h
  split at h
  · next t ht =>
    obtain ⟨i, hi, hv⟩ := map_eq_some_iff.mp h
    exact ⟨t, i, ht, hi, hv⟩
  · cases h

/-- Process 1 reads what process 0 logged while the log's copy is being installed. -/
theorem bread_returns_last_modification_in_commit :
    ∃ s : Sys (Fin 2) ℕ, Reachable header Disciplined s ∧ s.log.lh = [100] ∧
      s.cache.flat 100 = 7 ∧ s.cache.disk 100 = 0 ∧ s.cache.flat 3 = 7 ∧
      ∃ t i, exec header s.cache 1 (.bread 100) = some (.ok t) ∧ held t 1 100 = some i ∧
        (t.buf i).data = 7 := by
  have hrun := Reach.exists_of_execs (fun s a => decide (Disciplined s a))
    (fun s a => reached (step header s a))
    (fun s => decide (s.log.lh = [100] ∧ s.cache.flat 100 = 7 ∧ s.cache.disk 100 = 0 ∧
      s.start = 2 ∧ s.pc 0 = .commit .writeHead 0 (turn 2 [100] .writeHead 0) ∧
      reads s = some 7))
    (fun _ _ => of_decide_eq_true) (fun _ _ _ => eq_of_reached)
    (logged 7 ++ List.replicate 7 (.commit 0)) (.start init_booted) (by decide +kernel)
  obtain ⟨s, hs, hcheck⟩ := hrun
  obtain ⟨hlh, hflat, hdisk, hstart, hpc, hreads⟩ := of_decide_eq_true hcheck
  obtain ⟨t, -, ht, -⟩ := exists_of_reads hreads
  obtain ⟨hbread, -, -, hcopied⟩ := bread_returns_last_modification hs
  have hcopy := hcopied 0 _ _ _ hpc (.inl rfl) 0 100 (by rw [hlh]; rfl)
  rw [hstart, hflat] at hcopy
  obtain ⟨i, hi, hdata⟩ := hbread 1 100 t ht
  exact ⟨s, hs, hlh, hflat, hdisk, hcopy, t, i, ht, hi, hdata.trans hflat⟩

/-- Process 1 changes the block between `write_log` and `install_trans` and writes it with
`bwrite`; `install_trans` puts the log's copy over it, and the change is lost. -/
def overwritten : List (Act (Fin 2) ℕ) :=
  logged 7 ++ List.replicate 7 (.commit 0) ++
    [.use 1 (.bread 100), .use 1 (.modify 100 8), .use 1 (.bwrite 100), .use 1 (.brelse 100)] ++
    List.replicate 17 (.commit 0)

/-- Without the discipline `bread` can return an older modification. -/
theorem install_trans_overwrites_bwrite :
    ∃ s : Sys (Fin 2) ℕ, Reachable header (fun _ _ => True) s ∧ s.cache.flat 100 = 8 ∧
      ∃ t i, exec header s.cache 1 (.bread 100) = some (.ok t) ∧ held t 1 100 = some i ∧
        (t.buf i).data = 7 := by
  have hrun := Reach.exists_of_execs (fun _ _ => true) (fun s a => reached (step header s a))
    (fun s => decide (s.cache.flat 100 = 8 ∧ reads s = some 7))
    (fun _ _ _ => trivial) (fun _ _ _ => eq_of_reached) overwritten (.start init_booted)
    (by decide +kernel)
  obtain ⟨s, hs, hcheck⟩ := hrun
  obtain ⟨hflat, hreads⟩ := of_decide_eq_true hcheck
  exact ⟨s, hs, hflat, exists_of_reads hreads⟩

end Xv6Threads.CacheCommit
