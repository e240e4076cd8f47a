import Xv6Threads.ProcTable

namespace Xv6Threads.SleepWakeup

open Option Bool

open Function (update update_apply update_of_ne update_self)
open ProcTable (ProcState)

variable {P Cpu Ch : Type*}

/-- Who has `ptable.lock`: `sched` and `scheduler` hand it to each other across `swtch`. -/
inductive Owner (P Cpu : Type*)
  | proc (p : P)
  | scheduler (i : Cpu)
  deriving DecidableEq

inductive Pc (Ch : Type*)
  /-- not started, or in `sched` of `yield` -/
  | parked
  /-- just dispatched, in `forkret` or `yield`: about to release `ptable.lock` -/
  | back
  | idle
  /-- has `lk` -/
  | locked
  /-- in `sleep(c, lk)`: about to acquire `ptable.lock` -/
  | sleepEnter (c : Ch)
  /-- about to release `lk` -/
  | sleepHeld (c : Ch)
  /-- about to become SLEEPING -/
  | sleepSet (c : Ch)
  | asleep (c : Ch)
  /-- back from `sched` of `sleep`, with `ptable.lock` -/
  | woke
  | reacquire
  /-- in `wakeup(c)`; `held` tells whether `lk` is held as well -/
  | wakeAcquire (c : Ch) (held : Bool)
  | wakeScan (c : Ch) (held : Bool)
  | wakeRelease (held : Bool)
  /-- in `yield`, with `ptable.lock` -/
  | yieldSet
  deriving DecidableEq

structure State (P Cpu Ch : Type*) where
  state : P → ProcState
  chan : P → Option Ch
  cond : Ch → Bool
  lk : Option P
  ptable : Option (Owner P Cpu)
  /-- the process each CPU runs -/
  on : Cpu → Option P
  pc : P → Pc Ch
  /-- steps so far -/
  clock : ℕ
  /-- when a process last found a condition false, and the channel it goes to sleep on -/
  check : P → Option (ℕ × Ch)
  /-- when a process last acquired `lk` -/
  acq : P → Option ℕ
  /-- made RUNNABLE since that check -/
  woken : P → Bool

inductive Act (P Cpu Ch : Type*)
  | acquire (p : P)
  | test (p : P) (c : Ch)
  | change (p : P) (c : Ch) (b : Bool)
  | release (p : P)
  | sleepAcquire (p : P)
  | sleepRelease (p : P)
  | sleepSched (p : P) (i : Cpu)
  | resume (p : P)
  | reacquire (p : P)
  | wakeup (p : P) (c : Ch)
  | wakeAcquire (p : P)
  | wakeup1 (p : P)
  | wakeRelease (p : P)
  | yield (p : P)
  | yieldSched (p : P) (i : Cpu)
  | back (p : P)
  | schedAcquire (i : Cpu)
  | dispatch (i : Cpu) (p : P)
  | schedRelease (i : Cpu)

section
variable [DecidableEq P] [DecidableEq Cpu] [DecidableEq Ch]

def State.goto (s : State P Cpu Ch) (p : P) (x : Pc Ch) : State P Cpu Ch :=
  { s with pc := update s.pc p x, clock := s.clock + 1 }

/-- `acquire(&ptable.lock)` by `p`, who goes on at `x`. -/
def acquirePtable (same : Bool) (s : State P Cpu Ch) (p : P) (x : Pc Ch) :
    Option (State P Cpu Ch) :=
  if s.ptable = none then
    some { s.goto p x with
      ptable := some (.proc p)
      acq := if same then update s.acq p (some s.clock) else s.acq }
  else none

def releasePtable (s : State P Cpu Ch) (p : P) (x : Pc Ch) : State P Cpu Ch :=
  { s.goto p x with ptable := none }

def acquireLk (same : Bool) (s : State P Cpu Ch) (p : P) : Option (State P Cpu Ch) :=
  if same then acquirePtable same s p .locked
  else if s.lk = none then
    some { s.goto p .locked with lk := some p, acq := update s.acq p (some s.clock) }
  else none

/-- `sched` by `p` on CPU `i`: the scheduler of that CPU goes on, with `ptable.lock`. -/
def sched (s : State P Cpu Ch) (p : P) (i : Cpu) (x : Pc Ch) : Option (State P Cpu Ch) :=
  if s.on i = some p then
    some { s.goto p x with ptable := some (.scheduler i), on := update s.on i none }
  else none

def wakeup1 (s : State P Cpu Ch) (c : Ch) : State P Cpu Ch :=
  let hit q : Bool := s.state q = .SLEEPING ∧ s.chan q = some c
  { s with
    state := fun q => if hit q then .RUNNABLE else s.state q
    woken := fun q => if hit q then true else s.woken q }

def procStep (same : Bool) (s : State P Cpu Ch) : Act P Cpu Ch → Option (State P Cpu Ch)
  | .acquire p =>
    match s.pc p with
    | .idle => acquireLk same s p
    | _ => none
  | .test p c =>
    match s.pc p with
    | .locked =>
      if s.cond c then some (s.goto p .locked)
      else some { s.goto p (if same then .sleepSet c else .sleepEnter c) with
        check := update s.check p (some (s.clock, c))
        woken := update s.woken p false }
    | _ => none
  | .change p c b =>
    match s.pc p with
    | .locked => some { s.goto p .locked with cond := update s.cond c b }
    | _ => none
  | .release p =>
    match s.pc p with
    | .locked =>
      if same then some (releasePtable s p .idle) else some { s.goto p .idle with lk := none }
    | _ => none
  | .sleepAcquire p =>
    match s.pc p with
    | .sleepEnter c => acquirePtable same s p (.sleepHeld c)
    | _ => none
  | .sleepRelease p =>
    match s.pc p with
    | .sleepHeld c => some { s.goto p (.sleepSet c) with lk := none }
    | _ => none
  | .sleepSched p i =>
    match s.pc p with
    | .sleepSet c => sched { s with
        chan := update s.chan p (some c)
        state := update s.state p .SLEEPING } p i (.asleep c)
    | _ => none
  | .resume p =>
    match s.pc p with
    | .woke =>
      let s := { s with chan := update s.chan p none }
      if same then some (s.goto p .locked) else some (releasePtable s p .reacquire)
    | _ => none
  | .reacquire p =>
    match s.pc p with
    | .reacquire => acquireLk same s p
    | _ => none
  | .wakeup p c =>
    match s.pc p with
    | .locked => some (s.goto p (if same then .wakeScan c true else .wakeAcquire c true))
    | .idle => some (s.goto p (.wakeAcquire c false))
    | _ => none
  | .wakeAcquire p =>
    match s.pc p with
    | .wakeAcquire c held => acquirePtable same s p (.wakeScan c held)
    | _ => none
  | .wakeup1 p =>
    match s.pc p with
    | .wakeScan c held =>
      -- with `ptable.lock` as `lk` the caller of `wakeup1` keeps it
      some ((wakeup1 s c).goto p (if same && held then .locked else .wakeRelease held))
    | _ => none
  | .wakeRelease p =>
    match s.pc p with
    | .wakeRelease held => some (releasePtable s p (if held then .locked else .idle))
    | _ => none
  | .yield p =>
    match s.pc p with
    | .idle => acquirePtable same s p .yieldSet
    | _ => none
  | .yieldSched p i =>
    match s.pc p with
    | .yieldSet =>
      sched { s with state := update s.state p .RUNNABLE } p i .parked
    | _ => none
  | .back p =>
    match s.pc p with
    | .back => some (releasePtable s p .idle)
    | _ => none
  | _ => none

/-- Where a process goes on when the scheduler switches to it. -/
def Pc.resumed : Pc Ch → Option (Pc Ch)
  | .parked => some .back
  | .asleep _ => some .woke
  | _ => none

def Act.proc : Act P Cpu Ch → Option P
  | .acquire p | .test p _ | .change p _ _ | .release p | .sleepAcquire p | .sleepRelease p
  | .sleepSched p _ | .resume p | .reacquire p | .wakeup p _ | .wakeAcquire p | .wakeup1 p
  | .wakeRelease p | .yield p | .yieldSched p _ | .back p => some p
  | .schedAcquire _ | .dispatch _ _ | .schedRelease _ => none

/-- Each `acquire` and `release` is a step of its own. With `same`, `lk` is `ptable.lock` itself. -/
def step (same : Bool) (s : State P Cpu Ch) : Act P Cpu Ch → Option (State P Cpu Ch)
  | .schedAcquire i =>
    if s.ptable = none ∧ s.on i = none then
      some { s with ptable := some (.scheduler i), clock := s.clock + 1 }
    else none
  | .dispatch i p =>
    if s.ptable = some (.scheduler i) ∧ s.state p = .RUNNABLE then
      (s.pc p).resumed.map fun x => { s.goto p x with
        state := update s.state p .RUNNING
        on := update s.on i (some p)
        ptable := some (.proc p) }
    else none
  | .schedRelease i =>
    if s.ptable = some (.scheduler i) then some { s with ptable := none, clock := s.clock + 1 }
    else none
  | a =>
    match a.proc with
    | some p => if s.state p = .RUNNING then procStep same s a else none
    | none => none

structure Initial (s : State P Cpu Ch) : Prop where
  parked : ∀ p, s.pc p = .parked ∧ s.state p = .RUNNABLE ∧ s.chan p = none
  on : ∀ i, s.on i = none
  ptable : s.ptable = none
  lk : s.lk = none
  check : ∀ p, s.check p = none
  acq : ∀ p, s.acq p = none

abbrev Reachable (same : Bool) : State P Cpu Ch → Prop :=
  Reach Initial (fun _ _ => True) fun s (a : Act P Cpu Ch) s' => step same s a = some s'

end

/-- `ptable.lock` is held at this point. -/
def Pc.holdsPtable (same : Bool) : Pc Ch → Bool
  | .back | .sleepHeld _ | .sleepSet _ | .woke | .wakeScan _ _ | .wakeRelease _ | .yieldSet => true
  | .locked => same
  | _ => false

/-- `lk` is held at this point, as a lock of its own. -/
def Pc.holdsLk : Pc Ch → Bool
  | .locked | .sleepEnter _ | .sleepHeld _ => true
  | .wakeAcquire _ held | .wakeScan _ held | .wakeRelease held => held
  | _ => false

/-- In `wakeup` with `lk` held as well, which only happens to a lock of its own. -/
def Pc.holdsBoth : Pc Ch → Bool
  | .wakeAcquire _ held | .wakeRelease held => held
  | _ => false

variable {same : Bool} {s s' : State P Cpu Ch} {p q w : P} {c : Ch} {t : ℕ} {x y : Pc Ch}

/-- How far a process is that found its condition false at time `t`, before it is woken: while it
still has `lk`, nobody has acquired it since. -/
def Pending (same : Bool) (s : State P Cpu Ch) (p : P) (t : ℕ) (c : Ch) : Prop :=
  (same = false ∧ (s.pc p = .sleepEnter c ∨ s.pc p = .sleepHeld c) ∧
    ∀ w t', s.acq w = some t' → t' < t) ∨
  s.pc p = .sleepSet c ∨
  s.pc p = .asleep c ∧ s.state p = .SLEEPING ∧ s.chan p = some c

structure Inv (same : Bool) (s : State P Cpu Ch) : Prop where
  ptable : ∀ p, (s.pc p).holdsPtable same = true → s.ptable = some (.proc p)
  lk : same = false → ∀ p, (s.pc p).holdsLk = true → s.lk = some p
  both : same = true → ∀ p, (s.pc p).holdsBoth = false
  acq : ∀ w t, s.acq w = some t → t < s.clock
  pending : ∀ p t c, s.check p = some (t, c) → s.woken p = false → Pending same s p t c

theorem Initial.inv (h : Initial s) : Inv same s where
  ptable p hp := by
    rw [(h.parked p).1] at hp
    cases hp
  lk _ p hp := by
    rw [(h.parked p).1] at hp
    cases hp
  both _ p := by
    rw [(h.parked p).1]
    rfl
  acq w t ht := by
    rw [h.acq w] at ht
    cases ht
  pending p t c hc := by
    rw [h.check p] at hc
    cases hc

/-- A step of process `p`, or of the scheduler on its behalf: nobody else moves, and a lock that
changes hands was free, held by `p` or held by a scheduler. -/
structure Turn [DecidableEq P] (same : Bool) (s : State P Cpu Ch) (p : P) (s' : State P Cpu Ch) :
    Prop where
  pc : ∀ q, q ≠ p → s'.pc q = s.pc q
  ptable : s'.ptable = s.ptable ∨ ∀ q, s.ptable = some (.proc q) → q = p
  lk : same = false → s'.lk = s.lk ∨ ∀ q, s.lk = some q → q = p
  clock : s'.clock = s.clock + 1
  acq : s'.acq = s.acq ∨ s'.acq = update s.acq p (some s.clock) ∧
    (same = false → s.lk = none)
  check : ∀ q, q ≠ p → s'.check q = s.check q
  sleep : ∀ q, q ≠ p → s'.woken q = true ∨
    s'.woken q = s.woken q ∧ s'.state q = s.state q ∧ s'.chan q = s.chan q

section
variable [DecidableEq P]

theorem Turn.acq_lt (ht : Turn same s p s') (h : Inv same s) (ha : s'.acq w = some t) :
    t < s'.clock := by
  rw [ht.clock]
  rcases ht.acq with hacq | ⟨hacq, -⟩
  · rw [hacq] at ha
    exact (h.acq w t ha).trans (Nat.lt_succ_self _)
  · rw [hacq, update_apply] at ha
    split_ifs at ha
    · obtain rfl := some.inj ha
      exact Nat.lt_succ_self _
    · exact (h.acq w t ha).trans (Nat.lt_succ_self _)

/-- The others are where they were on the way to sleep, or have been woken. -/
theorem Turn.pending (ht : Turn same s p s') (h : Inv same s) (hq : q ≠ p)
    (hc : s'.check q = some (t, c)) (hw : s'.woken q = false) : Pending same s' q t c := by
  rw [ht.check q hq] at hc
  obtain hwoken | ⟨hwoken, hstate, hchan⟩ := ht.sleep q hq
  · rw [hw] at hwoken
    cases hwoken
  rw [hwoken] at hw
  rcases h.pending q t c hc hw with ⟨hsame, hpc, hacq⟩ | hpc | ⟨hpc, hs, hch⟩
  · refine .inl ⟨hsame, by rwa [ht.pc q hq], ?_⟩
    -- `lk` is taken by `q`
    have hlk : s.lk = some q := by
      apply h.lk hsame
      rcases hpc with hpc | hpc <;> rw [hpc] <;> rfl
    rcases ht.acq with heq | ⟨-, hnone⟩
    · rwa [heq]
    · rw [hnone hsame] at hlk
      cases hlk
  · exact .inr (.inl (by rwa [ht.pc q hq]))
  · exact .inr (.inr ⟨by rwa [ht.pc q hq], hstate.trans hs, hchan.trans hch⟩)

theorem Inv.turn (h : Inv same s) (ht : Turn same s p s')
    (hptable : (s'.pc p).holdsPtable same = true → s'.ptable = some (.proc p))
    (hlk : same = false → (s'.pc p).holdsLk = true → s'.lk = some p)
    (hboth : same = true → (s'.pc p).holdsBoth = false)
    (hp : ∀ t c, s'.check p = some (t, c) → s'.woken p = false → Pending same s' p t c) :
    Inv same s' where
  ptable q hq := by
    by_cases hqp : q = p
    · subst hqp
      exact hptable hq
    · rw [ht.pc q hqp] at hq
      have howner := h.ptable q hq
      rcases ht.ptable with heq | hfree
      · rwa [heq]
      · exact absurd (hfree q howner) hqp
  lk hsame q hq := by
    by_cases hqp : q = p
    · subst hqp
      exact hlk hsame hq
    · rw [ht.pc q hqp] at hq
      have howner := h.lk hsame q hq
      rcases ht.lk hsame with heq | hfree
      · rwa [heq]
      · exact absurd (hfree q howner) hqp
  both hsame q := by
    by_cases hqp : q = p
    · subst hqp
      exact hboth hsame
    · rw [ht.pc q hqp]
      exact h.both hsame q
  acq w t ha := ht.acq_lt h ha
  pending q t c hc hw := by
    by_cases hqp : q = p
    · subst hqp
      exact hp t c hc hw
    · exact ht.pending h hqp hc hw

end

def Pc.sleeps : Pc Ch → Bool
  | .sleepEnter _ | .sleepHeld _ | .sleepSet _ | .asleep _ => true
  | _ => false

theorem Inv.woken (h : Inv same s) (hpc : (s.pc p).sleeps = false)
    (hc : s.check p = some (t, c)) : s.woken p = true := by
  by_contra hw
  rcases h.pending p t c hc (eq_false_of_not_eq_true hw) with
    ⟨-, hpc' | hpc', -⟩ | hpc' | ⟨hpc', -, -⟩ <;> rw [hpc'] at hpc <;> cases hpc

theorem Inv.schedule (h : Inv same s) (o : Option (Owner P Cpu))
    (hfree : ∀ q, s.ptable ≠ some (.proc q)) :
    Inv same { s with ptable := o, clock := s.clock + 1 } where
  ptable q hq := absurd (h.ptable q hq) (hfree q)
  lk := h.lk
  both := h.both
  acq w t ha := (h.acq w t ha).trans (Nat.lt_succ_self _)
  pending := h.pending

section
variable [DecidableEq P]

/-- A step of a process that is not on its way to sleep, to the point `x`. -/
theorem Inv.awake (h : Inv same s) (ht : Turn same s p s') (hpc : (s.pc p).sleeps = false)
    (hcheck : s'.check p = s.check p) (hwoken : s'.woken p = s.woken p ∨ s'.woken p = true)
    (hx : s'.pc p = x) (hptable : x.holdsPtable same = true → s'.ptable = some (.proc p))
    (hlk : same = false → x.holdsLk = true → s'.lk = some p)
    (hboth : same = true → x.holdsBoth = false) : Inv same s' := by
  subst hx
  apply h.turn ht hptable hlk hboth
  intro t c hc hw
  rw [hcheck] at hc
  have htrue := h.woken hpc hc
  rcases hwoken with hwoken | hwoken
  · rw [hwoken, htrue] at hw
    cases hw
  · rw [hwoken] at hw
    cases hw

theorem goto_pc (s : State P Cpu Ch) (p : P) (x : Pc Ch) : (s.goto p x).pc p = x :=
  update_self _ _ _

theorem goto_turn (same : Bool) (s : State P Cpu Ch) (p : P) (x : Pc Ch) :
    Turn same s p (s.goto p x) where
  pc _ hq := update_of_ne hq _ _
  ptable := .inl rfl
  lk _ := .inl rfl
  clock := rfl
  acq := .inl rfl
  check _ _ := rfl
  sleep _ _ := .inr ⟨rfl, rfl, rfl⟩

theorem releasePtable_turn {x : Pc Ch} (h : s.ptable = some (.proc p)) :
    Turn same s p (releasePtable s p x) :=
  { goto_turn same s p x with
    ptable := by
      right
      intro q hq
      rw [h] at hq
      cases hq
      rfl }

theorem Inv.goto (h : Inv same s) (hpc : s.pc p = y) (hy : y.sleeps = false)
    (hptable : x.holdsPtable same = true → y.holdsPtable same = true)
    (hlk : same = false → x.holdsLk = true → y.holdsLk = true)
    (hboth : same = true → x.holdsBoth = false) : Inv same (s.goto p x) := by
  subst hpc
  exact h.awake (goto_turn same s p x) hy rfl (.inl rfl) (goto_pc s p x)
    (fun hx => h.ptable p (hptable hx)) (fun hsame hx => h.lk hsame p (hlk hsame hx)) hboth

theorem Inv.release (h : Inv same s) (hpc : s.pc p = y) (hy : y.sleeps = false)
    (hptable : y.holdsPtable same = true) (hx : x.holdsPtable same = false)
    (hlk : same = false → x.holdsLk = true → y.holdsLk = true)
    (hboth : same = true → x.holdsBoth = false) : Inv same (releasePtable s p x) := by
  subst hpc
  apply h.awake (releasePtable_turn (h.ptable p hptable)) hy rfl (.inl rfl)
    (goto_pc s p x) _ _ hboth
  · intro hx'
    rw [hx] at hx'
    cases hx'
  · exact fun hsame hx => h.lk hsame p (hlk hsame hx)

theorem acquirePtable_turn {x : Pc Ch} (h : acquirePtable same s p x = some s') :
    Turn same s p s' ∧ s'.pc p = x ∧ s'.ptable = some (.proc p) ∧ s'.lk = s.lk ∧
      s'.check = s.check ∧ s'.woken = s.woken ∧ s'.state = s.state ∧ s'.chan = s.chan ∧
      (same = false → s'.acq = s.acq) := by
  unfold acquirePtable at h
  split_ifs at h with hfree
  · obtain rfl := some.inj h
    refine ⟨{ goto_turn same s p x with ptable := ?_, acq := ?_ }, goto_pc s p x, rfl, rfl, rfl,
      rfl,
      rfl, rfl, ?_⟩
    · right
      intro q hq
      rw [hfree] at hq
      cases hq
    · rename_i hsame
      exact .inr ⟨rfl, fun hs => by rw [hs] at hsame; cases hsame⟩
    · rename_i hsame
      intro hs
      rw [hs] at hsame
      cases hsame
  · obtain rfl := some.inj h
    refine ⟨{ goto_turn same s p x with ptable := ?_, acq := .inl rfl }, goto_pc s p x, rfl, rfl,
      rfl,
      rfl, rfl, rfl, fun _ => rfl⟩
    right
    intro q hq
    rw [hfree] at hq
    cases hq

theorem Inv.of_acquirePtable (h : Inv same s) (hs : acquirePtable same s p x = some s')
    (hpc : (s.pc p).sleeps = false) (hlk : same = false → x.holdsLk = true → s.lk = some p)
    (hboth : same = true → x.holdsBoth = false) : Inv same s' := by
  obtain ⟨hturn, hx, howner, hlk', hcheck, hwoken, -⟩ := acquirePtable_turn hs
  apply h.awake hturn hpc (congrFun hcheck p) (.inl (congrFun hwoken p)) hx
    (fun _ => howner) _ hboth
  rw [hlk']
  exact hlk

theorem Inv.of_acquireLk (h : Inv same s) (hs : acquireLk same s p = some s')
    (hpc : (s.pc p).sleeps = false) : Inv same s' := by
  unfold acquireLk at hs
  split_ifs at hs with hsame hfree
  · apply h.of_acquirePtable hs hpc
    · intro hfalse
      rw [hsame] at hfalse
      cases hfalse
    · exact fun _ => rfl
  · obtain rfl := some.inj hs
    have hturn : Turn same s p { s.goto p .locked with
        lk := some p, acq := update s.acq p (some s.clock) } :=
      { goto_turn same s p .locked with
        lk := fun _ => .inr fun q hq => by rw [hfree] at hq; cases hq
        acq := .inr ⟨rfl, fun _ => hfree⟩ }
    exact h.awake hturn hpc rfl (.inl rfl) (goto_pc s p _) (fun hpt => absurd hpt hsame)
      (fun _ _ => rfl) fun _ => rfl

theorem Inv.test (h : Inv same s) (hpc : s.pc p = .locked) :
    Inv same { s.goto p (if same then .sleepSet c else .sleepEnter c) with
      check := update s.check p (some (s.clock, c))
      woken := update s.woken p false } := by
  have hturn : Turn same s p { s.goto p (if same then .sleepSet c else .sleepEnter c) with
      check := update s.check p (some (s.clock, c))
      woken := update s.woken p false } :=
    { goto_turn same s p _ with
      check := fun q hq => update_of_ne hq _ _
      sleep := fun q hq => .inr ⟨update_of_ne hq _ _, rfl, rfl⟩ }
  apply h.turn hturn
  · intro hx
    apply h.ptable p
    rw [hpc]
    cases same
    · simp only [goto_pc, Pc.holdsPtable, false_eq_true, if_false] at hx
    · rfl
  · exact fun hsame _ => h.lk hsame p (by rw [hpc]; rfl)
  · intro hsame
    rw [goto_pc, hsame]
    rfl
  · intro t c' hc _
    simp only [update_self, some.injEq, Prod.mk.injEq] at hc
    obtain ⟨rfl, rfl⟩ := hc
    cases same
    · exact .inl ⟨rfl, .inl (goto_pc s p _), h.acq⟩
    · exact .inr (.inl (goto_pc s p _))

theorem Inv.sleepAcquire (h : Inv same s) (hpc : s.pc p = .sleepEnter c)
    (hs : acquirePtable same s p (.sleepHeld c) = some s') : Inv same s' := by
  obtain ⟨hturn, hx, howner, hlk, hcheck, hwoken, hstate, hchan, hacq⟩ := acquirePtable_turn hs
  apply h.turn hturn
  · exact fun _ => howner
  · intro hsame _
    rw [hlk]
    exact h.lk hsame p (by rw [hpc]; rfl)
  · rw [hx]
    exact fun _ => rfl
  · intro t c' hc hw
    rw [hcheck] at hc
    rw [hwoken] at hw
    rcases h.pending p t c' hc hw with ⟨hsame, hpc', hlt⟩ | hpc' | ⟨hpc', -⟩
    · refine .inl ⟨hsame, .inr ?_, by rwa [hacq hsame]⟩
      rw [hx]
      rcases hpc' with hpc' | hpc' <;> rw [hpc] at hpc' <;> cases hpc'
      rfl
    · rw [hpc] at hpc'
      cases hpc'
    · rw [hpc] at hpc'
      cases hpc'

theorem Inv.sleepRelease (h : Inv same s) (hpc : s.pc p = .sleepHeld c) :
    Inv same { s.goto p (.sleepSet c) with lk := none } := by
  have howner := fun hsame => h.lk hsame p (by rw [hpc]; rfl)
  have hturn : Turn same s p { s.goto p (.sleepSet c) with lk := none } :=
    { goto_turn same s p (.sleepSet c) with
      lk := fun hsame => .inr fun q hq => by rw [howner hsame] at hq; cases hq; rfl }
  apply h.turn hturn
  · exact fun _ => h.ptable p (by rw [hpc]; rfl)
  · intro _ hx
    rw [goto_pc] at hx
    cases hx
  · rw [goto_pc]
    exact fun _ => rfl
  · intro t c' hc hw
    rcases h.pending p t c' hc hw with ⟨-, hpc', -⟩ | hpc' | ⟨hpc', -⟩
    · rcases hpc' with hpc' | hpc' <;> rw [hpc] at hpc' <;> cases hpc'
      exact .inr (.inl (goto_pc s p _))
    · rw [hpc] at hpc'
      cases hpc'
    · rw [hpc] at hpc'
      cases hpc'

theorem Inv.wakeup1 [DecidableEq Ch] (h : Inv same s) {held : Bool}
    (hpc : s.pc p = .wakeScan c held) :
    Inv same ((wakeup1 s c).goto p (if same && held then .locked else .wakeRelease held)) := by
  have hwoken : ∀ q, (SleepWakeup.wakeup1 s c).woken q = true ∨
      (SleepWakeup.wakeup1 s c).woken q = s.woken q ∧
        (SleepWakeup.wakeup1 s c).state q = s.state q := by
    intro q
    by_cases hit : s.state q = .SLEEPING ∧ s.chan q = some c
    · exact .inl (if_pos (decide_eq_true hit))
    · refine .inr ⟨if_neg ?_, if_neg ?_⟩ <;> simpa using hit
  have hturn : Turn same s p
      ((SleepWakeup.wakeup1 s c).goto p (if same && held then .locked else .wakeRelease held)) :=
    { goto_turn same s p _ with
      sleep := fun q _ => (hwoken q).imp_right fun hq => ⟨hq.1, hq.2, rfl⟩ }
  apply h.awake hturn (by rw [hpc]; rfl) rfl ((hwoken p).imp_right And.left).symm (goto_pc _ p _)
  · exact fun _ => h.ptable p (by rw [hpc]; rfl)
  · intro hsame hx
    rw [hsame, Bool.false_and, if_neg Bool.false_ne_true] at hx
    exact h.lk hsame p (by rw [hpc]; exact hx)
  · intro hsame
    rw [hsame, Bool.true_and]
    cases held <;> rfl

variable [DecidableEq Cpu]

theorem sched_turn (same : Bool) {i : Cpu} {x : Pc Ch} (h : sched s p i x = some s')
    (howner : s.ptable = some (.proc p)) :
    Turn same s p s' ∧ s'.pc p = x ∧ s'.lk = s.lk ∧ s'.check = s.check ∧ s'.woken = s.woken ∧
      s'.state = s.state ∧ s'.chan = s.chan := by
  unfold sched at h
  split_ifs at h
  obtain rfl := some.inj h
  refine ⟨{ goto_turn same s p x with ptable := ?_ }, goto_pc s p x, rfl, rfl, rfl, rfl, rfl⟩
  right
  intro q hq
  rw [howner] at hq
  cases hq
  rfl

theorem Inv.sleepSched (h : Inv same s) (hpc : s.pc p = .sleepSet c) {i : Cpu} (hs : sched { s with
      chan := update s.chan p (some c)
      state := update s.state p .SLEEPING } p i (.asleep c) = some s') : Inv same s' := by
  have howner := h.ptable p (by rw [hpc]; rfl)
  obtain ⟨hturn, hx, hlk, hcheck, hwoken, hstate, hchan⟩ := sched_turn same hs howner
  have hturn' : Turn same s p s' :=
    { hturn with
      sleep := by
        intro q hq
        refine .inr ⟨congrFun hwoken q, ?_, ?_⟩
        · rw [hstate]
          exact update_of_ne hq _ _
        · rw [hchan]
          exact update_of_ne hq _ _ }
  apply h.turn hturn'
  · rw [hx]
    exact fun hx => by cases hx
  · rw [hx]
    exact fun _ hx => by cases hx
  · rw [hx]
    exact fun _ => rfl
  · intro t c' hc hw
    rw [hcheck] at hc
    rw [hwoken] at hw
    rcases h.pending p t c' hc hw with ⟨-, hpc', -⟩ | hpc' | ⟨hpc', -⟩
    · rcases hpc' with hpc' | hpc' <;> rw [hpc] at hpc' <;> cases hpc'
    · rw [hpc] at hpc'
      cases hpc'
      refine .inr (.inr ⟨hx, ?_, ?_⟩)
      · rw [hstate]
        exact update_self _ _ _
      · rw [hchan]
        exact update_self _ _ _
    · rw [hpc] at hpc'
      cases hpc'

theorem Inv.dispatch (h : Inv same s) {i : Cpu} (hptable : s.ptable = some (.scheduler i))
    (hstate : s.state p = .RUNNABLE) (hx : (s.pc p).resumed = some x) : Inv same { s.goto p x with
      state := update s.state p .RUNNING
      on := update s.on i (some p)
      ptable := some (.proc p) } := by
  have hturn : Turn same s p { s.goto p x with
      state := update s.state p .RUNNING
      on := update s.on i (some p)
      ptable := some (.proc p) } :=
    { goto_turn same s p x with
      ptable := .inr fun q hq => by rw [hptable] at hq; cases hq
      sleep := fun q hq => .inr ⟨rfl, update_of_ne hq _ _, rfl⟩ }
  have hplain : x.holdsLk = false ∧ x.holdsBoth = false := by
    cases hpc : s.pc p <;> rw [hpc] at hx <;> cases hx <;> exact ⟨rfl, rfl⟩
  apply h.turn hturn
  · exact fun _ => rfl
  · intro _ hlk
    rw [goto_pc, hplain.1] at hlk
    cases hlk
  · rw [goto_pc]
    exact fun _ => hplain.2
  · -- a process that is RUNNABLE is not on its way to sleep any more
    intro t c hc hw
    rcases h.pending p t c hc hw with ⟨-, hpc, -⟩ | hpc | ⟨-, hs, -⟩
    · rcases hpc with hpc | hpc <;> rw [hpc] at hx <;> cases hx
    · rw [hpc] at hx
      cases hx
    · rw [hstate] at hs
      cases hs

variable [DecidableEq Ch]

theorem Inv.procStep {a : Act P Cpu Ch} (h : Inv same s) (hs : procStep same s a = some s') :
    Inv same s' := by
  cases a with dsimp only [SleepWakeup.procStep] at hs
  | acquire p | reacquire p =>
    split at hs
    · rename_i hpc
      exact h.of_acquireLk hs (by rw [hpc]; rfl)
    · cases hs
  | test p c =>
    split at hs
    · rename_i hpc
      split at hs <;> obtain rfl := some.inj hs
      · exact h.goto hpc rfl id (fun _ => id) fun _ => rfl
      · exact h.test hpc
    · cases hs
  | change p c b =>
    split at hs
    · rename_i hpc
      obtain rfl := some.inj hs
      have hturn : Turn same s p { s.goto p .locked with cond := update s.cond c b } :=
        { goto_turn same s p .locked with }
      apply h.awake hturn (by rw [hpc]; rfl) rfl (.inl rfl) (goto_pc s p _)
      · rw [← hpc]
        exact h.ptable p
      · rw [← hpc]
        exact fun hsame => h.lk hsame p
      · exact fun _ => rfl
    · cases hs
  | release p =>
    split at hs
    · rename_i hpc
      split_ifs at hs with hsame <;> obtain rfl := some.inj hs
      · exact h.release hpc rfl hsame rfl (fun _ hx => by cases hx) fun _ => rfl
      · have howner := h.lk (eq_false_of_not_eq_true hsame) p (by rw [hpc]; rfl)
        have hturn : Turn same s p { s.goto p .idle with lk := none } :=
          { goto_turn same s p .idle with
            lk := fun _ => .inr fun q hq => by rw [howner] at hq; cases hq; rfl }
        exact h.awake hturn (by rw [hpc]; rfl) rfl (.inl rfl) (goto_pc s p _)
          (fun hx => by cases hx) (fun _ hx => by cases hx) fun _ => rfl
    · cases hs
  | sleepAcquire p =>
    split at hs
    · exact h.sleepAcquire ‹_› hs
    · cases hs
  | sleepRelease p =>
    split at hs
    · obtain rfl := some.inj hs
      exact h.sleepRelease ‹_›
    · cases hs
  | sleepSched p i =>
    split at hs
    · exact h.sleepSched ‹_› hs
    · cases hs
  | resume p =>
    split at hs
    · rename_i hpc
      -- only the channel of `p` changes besides, and `p` is awake
      have hchan : ∀ x, Turn same s p
          (({ s with chan := update s.chan p none } : State P Cpu Ch).goto p x) := fun x =>
        { goto_turn same s p x with
          sleep := fun q hq => .inr ⟨rfl, rfl, update_of_ne hq _ _⟩ }
      have howner := h.ptable p (by rw [hpc]; rfl)
      split_ifs at hs with hsame <;> obtain rfl := some.inj hs
      · exact h.awake (hchan .locked) (by rw [hpc]; rfl) rfl (.inl rfl) (goto_pc _ p _)
          (fun _ => howner) (fun hfalse => by rw [hsame] at hfalse; cases hfalse) fun _ => rfl
      · have hturn : Turn same s p (releasePtable { s with
            chan := update s.chan p none } p .reacquire) :=
          { hchan .reacquire with
            ptable := .inr fun q hq => by rw [howner] at hq; cases hq; rfl }
        exact h.awake hturn (by rw [hpc]; rfl) rfl (.inl rfl) (goto_pc _ p _)
          (fun hx => by cases hx) (fun _ hx => by cases hx) fun _ => rfl
    · cases hs
  | wakeup p c =>
    split at hs
    · rename_i hpc
      obtain rfl := some.inj hs
      cases same
      · exact h.goto hpc rfl (fun hx => by cases hx) (fun _ _ => rfl) fun hsame => by cases hsame
      · exact h.goto hpc rfl (fun _ => rfl) (fun hsame => by cases hsame) fun _ => rfl
    · rename_i hpc
      obtain rfl := some.inj hs
      exact h.goto hpc rfl (fun hx => by cases hx) (fun _ hx => by cases hx) fun _ => rfl
    · cases hs
  | wakeAcquire p =>
    split at hs
    · rename_i c held hpc
      apply h.of_acquirePtable hs (by rw [hpc]; rfl)
      · exact fun hsame hx => h.lk hsame p (by rw [hpc]; exact hx)
      · exact fun _ => rfl
    · cases hs
  | wakeup1 p =>
    split at hs
    · obtain rfl := some.inj hs
      exact h.wakeup1 ‹_›
    · cases hs
  | wakeRelease p =>
    split at hs
    · rename_i held hpc
      obtain rfl := some.inj hs
      cases held
      · exact h.release hpc rfl rfl rfl (fun _ hx => by cases hx) fun _ => rfl
      · have hsame : same = false := by
          by_contra hsame
          have hboth := h.both (eq_true_of_not_eq_false hsame) p
          rw [hpc] at hboth
          cases hboth
        exact h.release hpc rfl rfl hsame (fun _ _ => rfl) fun _ => rfl
    · cases hs
  | yield p =>
    split at hs
    · rename_i hpc
      exact h.of_acquirePtable hs (by rw [hpc]; rfl) (fun _ hx => by cases hx) fun _ => rfl
    · cases hs
  | yieldSched p i =>
    split at hs
    · rename_i hpc
      have howner := h.ptable p (by rw [hpc]; rfl)
      obtain ⟨hturn, hx, hlk, hcheck, hwoken, hstate, hchan⟩ := sched_turn same hs howner
      have hturn' : Turn same s p s' :=
        { hturn with
          sleep := fun q hq => .inr ⟨congrFun hwoken q,
            (congrFun hstate q).trans (update_of_ne hq _ _), congrFun hchan q⟩ }
      exact h.awake hturn' (by rw [hpc]; rfl) (congrFun hcheck p) (.inl (congrFun hwoken p)) hx
        (fun hx => by cases hx) (fun _ hx => by cases hx) fun _ => rfl
    · cases hs
  | back p =>
    split at hs
    · rename_i hpc
      obtain rfl := some.inj hs
      exact h.release hpc rfl rfl rfl (fun _ hx => by cases hx) fun _ => rfl
    · cases hs
  | schedAcquire i | dispatch i p | schedRelease i => cases hs

theorem Inv.step {a : Act P Cpu Ch} (h : Inv same s) (hs : step same s a = some s') :
    Inv same s' := by
  cases a with dsimp only [SleepWakeup.step] at hs
  | schedAcquire i | schedRelease i =>
    split_ifs at hs with howner
    obtain rfl := some.inj hs
    apply h.schedule
    intro q
    simp [howner]
  | dispatch i p =>
    split_ifs at hs with hp
    obtain ⟨x, hx, rfl⟩ := map_eq_some_iff.mp hs
    exact h.dispatch hp.1 hp.2 hx
  | _ =>
    dsimp only [Act.proc] at hs
    split_ifs at hs
    exact h.procStep hs

theorem reachable_inv (h : Reachable same s) : Inv same s := by
  apply Reach.invariant (P := Inv same) _ _ h
  · exact fun s hs => hs.inv
  · exact fun s a s' hs _ hstep => hs.step hstep

/-- When `w`, who has acquired `lk` after `p` found its condition false, comes to `wakeup1`, then
`p` is asleep on the channel and becomes RUNNABLE, or has been made RUNNABLE since. -/
theorem no_lost_wakeup {same : Bool} {s s' : State P Cpu Ch} (h : Reachable same s) {w p : P}
    {c : Ch} {held : Bool} {t t' : ℕ} (hw : s.pc w = .wakeScan c held)
    (hs : step same s (.wakeup1 w) = some s') (hp : s.check p = some (t, c))
    (ha : s.acq w = some t') (hlt : t < t') :
    s.state p = .SLEEPING ∧ s.chan p = some c ∧ s'.state p = .RUNNABLE ∨ s.woken p = true := by
  have hinv := reachable_inv h
  by_cases hwoken : s.woken p = true
  · exact .inr hwoken
  have howner : s.ptable = some (.proc w) := hinv.ptable w (by rw [hw]; rfl)
  rcases hinv.pending p t c hp (eq_false_of_not_eq_true hwoken) with
    ⟨-, -, hacq⟩ | hpc | ⟨-, hstate, hchan⟩
  · -- `p` still has `lk`
    have hle := hacq w t' ha
    omega
  · -- `p` has `ptable.lock`
    have howner' := hinv.ptable p (by rw [hpc]; rfl)
    rw [howner] at howner'
    cases howner'
    rw [hw] at hpc
    cases hpc
  · left
    refine ⟨hstate, hchan, ?_⟩
    simp only [step, Act.proc, procStep, hw] at hs
    rw [if_pos (by by_contra hrun; rw [if_neg hrun] at hs; cases hs)] at hs
    obtain rfl := some.inj hs
    exact if_pos (decide_eq_true ⟨hstate, hchan⟩)

def start : State Bool Unit Unit where
  state _ := .RUNNABLE
  chan _ := none
  cond _ := false
  lk := none
  ptable := none
  on _ := none
  pc _ := .parked
  clock := 0
  check _ := none
  acq _ := none
  woken _ := false

/-- On one CPU, process `false` tests its condition and goes to sleep; `true` makes the condition
true and is about to wake it. -/
def handOver (same : Bool) : List (Act Bool Unit Unit) :=
  [.schedAcquire (), .dispatch () false, .back false, .acquire false, .test false ()] ++
    (if same then [] else [.sleepAcquire false, .sleepRelease false]) ++
    [.sleepSched false (), .dispatch () true, .back true, .acquire true, .change true () true,
      .wakeup true ()] ++
    if same then [] else [.wakeAcquire true]

theorem handOver_reaches (same : Bool) : ∃ s s' : State Bool Unit Unit, Reachable same s ∧
    s.pc true = .wakeScan () true ∧ step same s (.wakeup1 true) = some s' ∧
    (∃ t t', s.check false = some (t, ()) ∧ s.acq true = some t' ∧ t < t') ∧
    s.woken false = false := by
  have hstart : Reachable same start := .start ⟨fun _ => ⟨rfl, rfl, rfl⟩, fun _ => rfl, rfl, rfl,
    fun _ => rfl, fun _ => rfl⟩
  obtain ⟨s, hs, hp⟩ := Reach.exists_of_execs (fun _ _ => true) (step same)
    (fun s => decide (s.pc true = .wakeScan () true ∧ s.woken false = false ∧
        s.check false = some (4, ()) ∧ s.acq true = some (if same then 8 else 10)) &&
      (step same s (.wakeup1 true)).isSome)
    (fun _ _ _ => trivial) (fun _ _ _ => id) (handOver same) hstart
    (by cases same <;> decide +kernel)
  obtain ⟨hp, hsome⟩ := and_eq_true_iff.mp hp
  obtain ⟨hpc, hwoken, hcheck, hacq⟩ := of_decide_eq_true hp
  obtain ⟨s', hstep⟩ := isSome_iff_exists.mp hsome
  refine ⟨s, s', hs, hpc, hstep, ⟨4, _, hcheck, hacq, ?_⟩, hwoken⟩
  cases same <;> decide

/-- Both with a lock of its own and with `ptable.lock`. -/
theorem no_lost_wakeup_two_processes :
    (∃ s s' : State Bool Unit Unit, Reachable false s ∧
      step false s (.wakeup1 true) = some s' ∧ s'.state false = .RUNNABLE) ∧
    ∃ s s' : State Bool Unit Unit, Reachable true s ∧
      step true s (.wakeup1 true) = some s' ∧ s'.state false = .RUNNABLE := by
  constructor
  · obtain ⟨s, s', hs, hpc, hstep, ⟨t, t', hc, ha, hlt⟩, hwoken⟩ := handOver_reaches false
    rcases no_lost_wakeup hs hpc hstep hc ha hlt with ⟨-, -, hrun⟩ | htrue
    · exact ⟨s, s', hs, hstep, hrun⟩
    · rw [hwoken] at htrue
      cases htrue
  · obtain ⟨s, s', hs, hpc, hstep, ⟨t, t', hc, ha, hlt⟩, hwoken⟩ := handOver_reaches true
    rcases no_lost_wakeup hs hpc hstep hc ha hlt with ⟨-, -, hrun⟩ | htrue
    · exact ⟨s, s', hs, hstep, hrun⟩
    · rw [hwoken] at htrue
      cases htrue

end

end Xv6Threads.SleepWakeup
