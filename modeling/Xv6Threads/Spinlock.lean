import Mathlib.Data.Finset.Card
import Xv6Threads.Loop

namespace Xv6Threads.Spinlock

open Function

/-- What a CPU does next. Both `acquire` and `release` call `holding`. -/
inductive Pos (L : Type)
  | run
  | cli (l : L) (eflags : Bool)
  | locked (l : L) (release : Bool)
  | owner (l : L) (release : Bool)
  | xchg (l : L)
  | setCpu (l : L)
  | clearCpu (l : L)
  | unlock (l : L)
  | popcli
  deriving DecidableEq

/-- `frames` are the places where interrupt handlers return to. `proc` is `none` in the scheduler,
and otherwise whether the state of the process is RUNNING. -/
structure Cpu (L : Type) where
  pos : Pos L
  ncli : ℕ
  intena : Bool
  eflags : Bool
  frames : List (Pos L)
  proc : Option Bool
  deriving DecidableEq

/-- A process that is switched out, with the `intena` of `sched` unless it is new. -/
structure Context (L : Type) where
  frames : List (Pos L)
  intena : Option Bool
  deriving DecidableEq

/-- The locks, the CPUs and the processes that wait for one. The locks that a CPU has set and not
yet cleared are in `held`. -/
structure Sys (C L : Type) where
  locked : L → Bool
  owner : L → Option C
  cpu : C → Cpu L
  ready : List (Context L)
  held : C → Finset L

inductive Act (C L : Type)
  | acquire (c : C) (l : L)
  | release (c : C) (l : L)
  | go (c : C)
  | interrupt (c : C)
  | iret (c : C)
  | sti (c : C)
  | setState (c : C) (running : Bool)
  | sched (c : C)
  | swtch (c : C) (x : Context L)

variable {C L : Type} [DecidableEq C] [DecidableEq L]

def Sys.set (s : Sys C L) (c : C) (x : Cpu L) : Sys C L := { s with cpu := update s.cpu c x }

def Sys.goto (s : Sys C L) (c : C) (p : Pos L) : Sys C L := s.set c { s.cpu c with pos := p }

/-- The next access in `acquire` or `release`. -/
def go (s : Sys C L) (c : C) : Option (Except String (Sys C L)) :=
  let x := s.cpu c
  match x.pos with
  | .run => none
  | .cli l eflags => some (.ok (s.set c { x with
      pos := .locked l false, eflags := false, ncli := x.ncli + 1
      intena := if x.ncli = 0 then eflags else x.intena }))
  | .locked l release =>
    if s.locked l then some (.ok (s.goto c (.owner l release)))
    else if release then some (.error "release")
    else some (.ok (s.goto c (.xchg l)))
  | .owner l release =>
    if s.owner l = some c then
      if release then some (.ok (s.goto c (.clearCpu l))) else some (.error "acquire")
    else if release then some (.error "release")
    else some (.ok (s.goto c (.xchg l)))
  | .xchg l =>
    if s.locked l then some (.ok s)
    else some (.ok { s.goto c (.setCpu l) with
      locked := update s.locked l true, held := update s.held c (insert l (s.held c)) })
  | .setCpu l => some (.ok { s.goto c .run with owner := update s.owner l (some c) })
  | .clearCpu l => some (.ok { s.goto c (.unlock l) with owner := update s.owner l none })
  | .unlock l => some (.ok { s.goto c .popcli with
      locked := update s.locked l false, held := update s.held c ((s.held c).erase l) })
  | .popcli =>
    if x.eflags then some (.error "popcli - interruptible")
    else if x.ncli = 0 then some (.error "popcli")
    else some (.ok (s.set c { x with
      pos := .run, ncli := x.ncli - 1, eflags := x.ncli - 1 = 0 && x.intena }))

/-- What is assumed of the callers: a handler returns when it has given back its locks; the
scheduler and the return to user space enable interrupts without locks and not in a handler; the
scheduler switches with `ptable.lock` alone, to a process that it has made RUNNING. -/
def step (ptable : L) (s : Sys C L) : Act C L → Option (Except String (Sys C L))
  | .acquire c l =>
    if (s.cpu c).pos = .run then some (.ok (s.goto c (.cli l (s.cpu c).eflags))) else none
  | .release c l => if (s.cpu c).pos = .run then some (.ok (s.goto c (.locked l true))) else none
  | .go c => go s c
  | .interrupt c =>
    let x := s.cpu c
    if x.eflags then
      some (.ok (s.set c { x with pos := .run, eflags := false, frames := x.pos :: x.frames }))
    else none
  | .iret c =>
    let x := s.cpu c
    match x.frames with
    | [] => none
    | p :: ps =>
      if x.pos = .run ∧ s.held c = ∅ then
        some (.ok (s.set c { x with pos := p, eflags := true, frames := ps }))
      else none
  | .sti c =>
    let x := s.cpu c
    if x.pos = .run ∧ s.held c = ∅ ∧ x.frames = [] then
      some (.ok (s.set c { x with eflags := true }))
    else none
  | .setState c running =>
    let x := s.cpu c
    if x.pos = .run ∧ x.proc.isSome then some (.ok (s.set c { x with proc := some running }))
    else none
  | .sched c =>
    let x := s.cpu c
    if x.pos = .run ∧ x.proc.isSome then
      if ¬(s.locked ptable ∧ s.owner ptable = some c) then some (.error "sched ptable.lock")
      else if x.ncli ≠ 1 then some (.error "sched locks")
      else if x.proc = some true then some (.error "sched running")
      else if x.eflags then some (.error "sched interruptible")
      else some (.ok { s.set c { x with frames := [], proc := none } with
        ready := ⟨x.frames, some x.intena⟩ :: s.ready })
    else none
  | .swtch c y =>
    let x := s.cpu c
    if x.pos = .run ∧ s.held c = {ptable} ∧ x.frames = [] ∧ x.proc = none ∧ y ∈ s.ready then
      some (.ok { s.set c { x with
        frames := y.frames, intena := y.intena.getD x.intena, proc := some true } with
        ready := s.ready.erase y })
    else none

/-- Processes that `fork` makes later are there from the start. -/
def Start (s : Sys C L) : Prop :=
  (∀ l, s.locked l = false ∧ s.owner l = none) ∧ (∀ y ∈ s.ready, y = ⟨[], none⟩) ∧
    ∀ c, s.held c = ∅ ∧ ∃ b, s.cpu c = ⟨.run, 0, b, false, [], none⟩

abbrev Reachable (ptable : L) : Sys C L → Prop :=
  Reach Start (fun _ _ => True) fun s a s' => step ptable s a = some (.ok s')

/-- How often `pushcli` has been called for a lock that is not in `held`. -/
def Pos.depth : Pos L → ℕ
  | .locked _ false | .owner _ false | .xchg _ | .popcli => 1
  | _ => 0

def Pos.Fits (eflags : Bool) (H : Finset L) : Pos L → Prop
  | .cli _ e => e = eflags
  | .xchg l => l ∉ H
  | .setCpu l | .clearCpu l | .unlock l => l ∈ H
  | _ => True

/-- An interrupt may come here. -/
def Pos.Open (p : Pos L) : Prop := p.depth = 0 ∧ p.Fits true ∅

/-- In a handler interrupts are off, and the locks it acquires leave them off. -/
structure Cpu.Ok (x : Cpu L) (H : Finset L) : Prop where
  ncli : x.ncli = H.card + x.pos.depth
  fits : x.pos.Fits x.eflags H
  enabled : x.eflags = true → x.ncli = 0
  handler : x.frames = [] ∨
    ∃ p, p.Open ∧ x.frames = [p] ∧ x.eflags = false ∧ (0 < x.ncli → x.intena = false)

def Context.Ok (y : Context L) : Prop :=
  y.frames = [] ∨ ∃ p, p.Open ∧ y.frames = [p] ∧ y.intena = some false

/-- The lock is set, and `holding` does not know it. -/
def Pos.Part (l : L) (p : Pos L) : Prop := p = .setCpu l ∨ p = .unlock l

structure Inv (s : Sys C L) : Prop where
  cpu : ∀ c, (s.cpu c).Ok (s.held c)
  locked : ∀ l, s.locked l = true ↔ ∃ c, l ∈ s.held c
  one : ∀ c d l, l ∈ s.held c → l ∈ s.held d → c = d
  owner : ∀ c l, s.owner l = some c ↔ l ∈ s.held c ∧ ¬(s.cpu c).pos.Part l
  ready : ∀ y ∈ s.ready, y.Ok

/-- When `acquire`, `release` and `sched` panic. -/
def Fault (ptable : L) (s : Sys C L) : Act C L → String → Prop
  | .go c, e =>
    e = "acquire" ∧ (∃ l ∈ s.held c, (s.cpu c).pos = .owner l false) ∨
    e = "release" ∧ ∃ l ∉ s.held c, (s.cpu c).pos = .locked l true ∨ (s.cpu c).pos = .owner l true
  | .sched c, e =>
    e = "sched ptable.lock" ∧ ptable ∉ s.held c ∨
    e = "sched locks" ∧ ptable ∈ s.held c ∧ (∃ l ∈ s.held c, l ≠ ptable) ∨
    e = "sched running" ∧ s.held c = {ptable} ∧ (s.cpu c).proc = some true
  | _, _ => False

def Good (ptable : L) (s : Sys C L) (a : Act C L) : Except String (Sys C L) → Prop
  | .ok s' => Inv s'
  | .error e => Fault ptable s a e

variable {ptable l : L} {s : Sys C L} {a : Act C L} {r : Except String (Sys C L)} {c : C}
  {x : Cpu L} {p : Pos L}

omit [DecidableEq L] in
theorem Inv.moved {H : Finset L} {held : C → Finset L} (h : Inv s) (hx : x.Ok H)
    (hheld : held = update s.held c H) (d : C) : ((s.set c x).cpu d).Ok (held d) := by
  subst hheld
  by_cases hd : d = c
  · subst hd
    simpa only [Sys.set, update_self] using hx
  · simpa only [Sys.set, update_of_ne hd] using h.cpu d

omit [DecidableEq L] in
/-- A step that moves one CPU and no lock. -/
theorem Inv.set (h : Inv s) (hx : x.Ok (s.held c))
    (hpart : ∀ l, x.pos.Part l ↔ (s.cpu c).pos.Part l) : Inv (s.set c x) := by
  refine ⟨h.moved hx (update_eq_self ..).symm, h.locked, h.one, fun d l => ?_, h.ready⟩
  refine (h.owner d l).trans (and_congr_right' (not_congr ?_))
  by_cases hd : d = c
  · simp [hd, Sys.set, hpart]
  · simp [hd, Sys.set]

omit [DecidableEq L] in
theorem Inv.goto (h : Inv s) (hdepth : p.depth = (s.cpu c).pos.depth)
    (hfits : p.Fits (s.cpu c).eflags (s.held c)) (hpart : ∀ l, p.Part l ↔ (s.cpu c).pos.Part l) :
    Inv (s.goto c p) := by
  obtain ⟨hncli, -, henabled, hhandler⟩ := h.cpu c
  exact h.set ⟨by rw [hncli, hdepth], hfits, henabled, hhandler⟩ hpart

theorem Inv.go (h : Inv s) (hgo : go s c = some r) : Good ptable s (.go c) r := by
  obtain ⟨hncli, hfits, henabled, hhandler⟩ := h.cpu c
  have ⟨_, hlocked, hone, howner, hready⟩ := h
  unfold Spinlock.go at hgo
  dsimp only at hgo
  split at hgo
  next => cases hgo
  next l e hpos =>
    cases hgo
    rw [hpos] at hncli hfits
    refine h.set ⟨by rw [hncli]; rfl, trivial, by simp, ?_⟩ (by simp [Pos.Part, hpos])
    -- a handler calls `pushcli` with interrupts off
    refine hhandler.imp_right ?_
    rintro ⟨p, hp, hframes, hoff, hintena⟩
    refine ⟨p, hp, hframes, rfl, fun _ => ?_⟩
    dsimp only
    split_ifs with h0
    · exact (show e = _ from hfits).trans hoff
    · exact hintena (Nat.pos_of_ne_zero h0)
  next l r hpos =>
    split_ifs at hgo with hl hr <;> cases hgo
    · exact h.goto (by rw [hpos]; cases r <;> rfl) trivial (by simp [Pos.Part, hpos])
    all_goals have hnot : l ∉ s.held c := fun hmem => hl ((hlocked l).mpr ⟨c, hmem⟩)
    · exact .inr ⟨rfl, l, hnot, .inl (hr ▸ hpos)⟩
    · exact h.goto (by rw [hpos]; simp [Pos.depth, hr]) hnot (by simp [Pos.Part, hpos])
  next l r hpos =>
    have howner : s.owner l = some c ↔ l ∈ s.held c := by simp [howner, hpos, Pos.Part]
    split_ifs at hgo with hl hr hr <;> cases hgo <;> rw [howner] at hl
    · exact h.goto (by rw [hpos, hr]; rfl) hl (by simp [Pos.Part, hpos])
    · exact .inl ⟨rfl, l, hl, by simpa [hr] using hpos⟩
    · exact .inr ⟨rfl, l, hl, .inr (hr ▸ hpos)⟩
    · exact h.goto (by rw [hpos]; simp [Pos.depth, hr]) hl (by simp [Pos.Part, hpos])
  next l hpos =>
    split_ifs at hgo with hl <;> cases hgo
    · exact h
    rw [hpos] at hncli
    have hfree : ∀ d, l ∉ s.held d := fun d hd => hl ((hlocked l).mpr ⟨d, hd⟩)
    have hcard := Finset.card_insert_of_notMem (hfree c)
    refine ⟨h.moved ⟨by rw [hcard, hncli]; rfl, Finset.mem_insert_self l _, henabled, hhandler⟩ rfl,
      fun m => ?_, fun d e m => ?_, fun d m => ?_, hready⟩
    all_goals
      simp only [Sys.goto, Sys.set, Pos.Part, update_apply] at *
      grind
  next l hpos =>
    cases hgo
    rw [hpos] at hncli hfits
    refine ⟨h.moved ⟨hncli, trivial, henabled, hhandler⟩ (update_eq_self ..).symm, hlocked, hone,
      fun d m => ?_, hready⟩
    simp only [Sys.goto, Sys.set, Pos.Part, Pos.Fits, update_apply] at *
    grind
  next l hpos =>
    cases hgo
    rw [hpos] at hncli hfits
    refine ⟨h.moved ⟨hncli, hfits, henabled, hhandler⟩ (update_eq_self ..).symm, hlocked, hone,
      fun d m => ?_, hready⟩
    simp only [Sys.goto, Sys.set, Pos.Part, Pos.Fits, update_apply] at *
    grind
  next l hpos =>
    cases hgo
    rw [hpos] at hncli hfits
    have hcard := Finset.card_erase_add_one hfits
    refine ⟨h.moved ⟨by rw [hncli, ← hcard]; rfl, trivial, henabled, hhandler⟩ rfl,
      fun m => ?_, fun d e m => ?_, fun d m => ?_, hready⟩
    all_goals
      simp only [Sys.goto, Sys.set, Pos.Part, Pos.Fits, update_apply] at *
      grind
  next hpos =>
    rw [hpos] at hncli
    split_ifs at hgo with he h0 <;> cases hgo
    · rw [henabled he] at hncli
      cases hncli
    · rw [h0] at hncli
      cases hncli
    refine h.set ⟨by rw [hncli]; rfl, trivial, ?_, hhandler.imp_right ?_⟩ (by simp [Pos.Part, hpos])
    · simp +contextual
    · rintro ⟨p, hp, hframes, -, hintena⟩
      have hoff := hintena (Nat.pos_of_ne_zero h0)
      exact ⟨p, hp, hframes, by simp [hoff], fun _ => hoff⟩

omit [DecidableEq L] in
theorem Pos.not_part {e : Bool} (h : p.Fits e ∅) : ¬p.Part l := by
  rintro (rfl | rfl) <;> exact absurd h (Finset.notMem_empty l)

theorem Inv.next (h : Inv s) (hstep : step ptable s a = some r) : Good ptable s a r := by
  cases a with
  | acquire c l | release c l =>
    simp only [step] at hstep
    split_ifs at hstep with hpos
    cases hstep
    exact h.goto (by rw [hpos]; rfl) (by constructor) (by simp [Pos.Part, hpos])
  | go c => exact h.go hstep
  | interrupt c =>
    simp only [step] at hstep
    split_ifs at hstep with hon
    cases hstep
    obtain ⟨hncli, hfits, henabled, hhandler⟩ := h.cpu c
    have h0 := henabled hon
    have hempty : s.held c = ∅ := Finset.card_eq_zero.mp (by omega)
    rw [hon, hempty] at hfits
    have hframes : (s.cpu c).frames = [] := by simpa [hon] using hhandler
    refine h.set ⟨by rw [h0, hempty]; rfl, trivial, by simp, .inr ⟨_, ⟨?_, hfits⟩, ?_⟩⟩ fun l => ?_
    · omega
    · simp [hframes, h0]
    · exact iff_of_false (by simp [Pos.Part]) (Pos.not_part hfits)
  | iret c =>
    simp only [step] at hstep
    split at hstep
    · cases hstep
    split_ifs at hstep with hc
    cases hstep
    rename_i p ps hframes
    obtain ⟨hncli, -, -, hhandler⟩ := h.cpu c
    rw [hc.1, hc.2] at hncli
    rw [hframes] at hhandler
    obtain ⟨q, ⟨hdepth, hfits⟩, hq, -⟩ := hhandler.resolve_left (by simp)
    obtain ⟨rfl, rfl⟩ := List.cons.inj hq
    refine h.set ⟨?_, by rw [hc.2]; exact hfits, fun _ => hncli, .inl rfl⟩ fun l => ?_
    · rw [hncli, hc.2, hdepth]
      rfl
    · exact iff_of_false (Pos.not_part hfits) (by simp [Pos.Part, hc.1])
  | sti c =>
    simp only [step] at hstep
    split_ifs at hstep with hc
    cases hstep
    obtain ⟨hpos, hheld, hframes⟩ := hc
    have hncli := (h.cpu c).ncli
    have h0 := hncli
    rw [hpos, hheld] at h0
    exact h.set ⟨hncli, by rw [hpos]; trivial, fun _ => h0, .inl hframes⟩ fun _ => .rfl
  | setState c running =>
    simp only [step] at hstep
    split_ifs at hstep
    cases hstep
    obtain ⟨hncli, hfits, henabled, hhandler⟩ := h.cpu c
    exact h.set ⟨hncli, hfits, henabled, hhandler⟩ fun _ => .rfl
  | sched c =>
    simp only [step] at hstep
    obtain ⟨hncli, hfits, henabled, hhandler⟩ := h.cpu c
    have hmem : s.locked ptable = true ∧ s.owner ptable = some c → ptable ∈ s.held c := fun hp =>
      ((h.owner c ptable).mp hp.2).1
    split_ifs at hstep with hc hp hn hrun he <;> cases hstep
    · have hpos := Finset.card_pos.mpr ⟨ptable, hmem hp⟩
      rw [hc.1] at hncli
      have hdepth : (Pos.run : Pos L).depth = 0 := rfl
      exact .inr (.inl ⟨rfl, hmem hp, Finset.exists_mem_ne (by omega) ptable⟩)
    · rw [hc.1] at hncli
      have hcard : (s.held c).card = 1 := hncli.symm.trans (not_not.mp hn)
      obtain ⟨l, hl⟩ := Finset.card_eq_one.mp hcard
      have hl' := hmem hp
      rw [hl, Finset.mem_singleton] at hl'
      exact .inr (.inr ⟨rfl, hl'.symm ▸ hl, hrun⟩)
    · have h0 := henabled he
      omega
    on_goal 2 =>
      refine .inl ⟨rfl, fun hmem => hp ⟨(h.locked ptable).mpr ⟨c, hmem⟩, ?_⟩⟩
      exact (h.owner c ptable).mpr ⟨hmem, by simp [Pos.Part, hc.1]⟩
    have hinv := h.set (c := c) (x := { s.cpu c with frames := [], proc := none })
      ⟨hncli, hfits, henabled, .inl rfl⟩ fun _ => .rfl
    refine ⟨hinv.cpu, hinv.locked, hinv.one, hinv.owner, ?_⟩
    rintro y (_ | ⟨_, hy⟩)
    · refine hhandler.imp_right ?_
      rintro ⟨p, hp, hframes, -, hintena⟩
      exact ⟨p, hp, hframes, congrArg some (hintena (by omega))⟩
    · exact h.ready y hy
  | swtch c y =>
    simp only [step] at hstep
    split_ifs at hstep with hc
    cases hstep
    obtain ⟨hpos, hheld, -, -, hy⟩ := hc
    obtain ⟨hncli, hfits, henabled, -⟩ := h.cpu c
    have hone : (s.cpu c).ncli = 1 := by rw [hncli, hpos, hheld]; rfl
    have hinv := h.set (c := c) (x := { s.cpu c with
      frames := y.frames, intena := y.intena.getD (s.cpu c).intena, proc := some true })
      ⟨hncli, hfits, henabled, (h.ready y hy).imp_right ?_⟩ fun _ => .rfl
    · exact ⟨hinv.cpu, hinv.locked, hinv.one, hinv.owner,
        fun z hz => h.ready z (List.mem_of_mem_erase hz)⟩
    rintro ⟨p, hp, hframes, hintena⟩
    have hoff : (s.cpu c).eflags = false := by
      by_contra hon
      rw [henabled (by simpa using hon)] at hone
      cases hone
    exact ⟨p, hp, hframes, hoff, by simp [hintena]⟩

theorem Reachable.inv (h : Reachable ptable s) : Inv s := by
  refine Reach.invariant (P := Inv) ?_ (fun s a s' hs _ hstep => ?_) h
  on_goal 2 => exact show Good ptable s a (.ok s') from hs.next hstep
  rintro s ⟨hlocks, hready, hcpu⟩
  have hheld : ∀ c l, l ∉ s.held c := fun c l => by simp [(hcpu c).1]
  refine ⟨fun c => ?_, by simp [hlocks, hheld], fun c d l hc => absurd hc (hheld c l),
    by simp [hlocks, hheld], fun y hy => .inl (by rw [hready y hy])⟩
  obtain ⟨hc, b, hb⟩ := hcpu c
  rw [hc, hb]
  exact ⟨rfl, trivial, by simp, .inl rfl⟩

/-- A lock is set while some CPU has it, which is one only, and no CPU waits for a lock that it has
itself. `holding` answers for its own CPU although others change the lock between its two reads:
`acquire` panics only if the CPU has the lock, `release` only if it does not, and `popcli` never. -/
theorem locks_exclusive (h : Reachable ptable s) :
    (∀ l, s.locked l = true ↔ ∃ c, l ∈ s.held c) ∧
    (∀ c d l, l ∈ s.held c → l ∈ s.held d → c = d) ∧
    (∀ c l, (s.cpu c).pos = .xchg l → l ∉ s.held c) ∧
    ∀ c e, go s c = some (.error e) → Fault ptable s (.go c) e := by
  have hinv := h.inv
  refine ⟨hinv.locked, hinv.one, fun c l hpos => ?_, fun c e hgo => ?_⟩
  · have hfits := (hinv.cpu c).fits
    rwa [hpos] at hfits
  · exact show Good ptable s (.go c) (.error e) from hinv.go hgo

/-- With interrupts enabled a CPU has no lock, does not wait for one and is in no handler, so that
handlers are not nested and find every lock free or with another CPU. It stays like this when a
handler calls `sched`, which panics only for the locks (another one is held, or not `ptable.lock`)
and for a process that is still RUNNING. -/
theorem interrupts_masked (h : Reachable ptable s) (c : C) :
    ((s.cpu c).eflags = true → s.held c = ∅ ∧ (s.cpu c).pos.depth = 0 ∧ (s.cpu c).frames = []) ∧
    (s.cpu c).frames.length ≤ 1 ∧
    ∀ e, step ptable s (.sched c) = some (.error e) → Fault ptable s (.sched c) e := by
  obtain ⟨hncli, -, henabled, hhandler⟩ := h.inv.cpu c
  refine ⟨fun hon => ?_, ?_, fun e hstep => ?_⟩
  · have h0 := henabled hon
    exact ⟨Finset.card_eq_zero.mp (by omega), by omega, by simpa [hon] using hhandler⟩
  · rcases hhandler with hframes | ⟨p, -, hframes, -⟩ <;> simp [hframes]
  · exact show Good ptable s (.sched c) (.error e) from h.inv.next hstep

/-- Two CPUs and one lock, at the start. -/
def twoCpus : Sys Bool Unit :=
  ⟨fun _ => false, fun _ => none, fun _ => ⟨.run, 0, false, false, [], none⟩, [], fun _ => ∅⟩

/-- The first CPU has the lock, and a handler on the second one has begun to wait for it. -/
theorem contended : ∃ s : Sys Bool Unit, Reachable () s ∧ () ∈ s.held false ∧
    (s.cpu true).pos = .xchg () ∧ (s.cpu true).frames = [.run] := by
  have hstart : Reachable () twoCpus :=
    .start ⟨by simp [twoCpus], by simp [twoCpus], fun _ => ⟨rfl, false, rfl⟩⟩
  have hcli := hstart.step (a := .acquire false ()) trivial rfl
  have hread := hcli.step (a := .go false) trivial rfl
  have hxchg := hread.step (a := .go false) trivial rfl
  have hset := hxchg.step (a := .go false) trivial rfl
  have hheld := hset.step (a := .go false) trivial rfl
  have hsti := hheld.step (a := .sti true) trivial rfl
  have hhandler := hsti.step (a := .interrupt true) trivial rfl
  have hcli' := hhandler.step (a := .acquire true ()) trivial rfl
  have hread' := hcli'.step (a := .go true) trivial rfl
  have howner := hread'.step (a := .go true) trivial rfl
  have hspin := howner.step (a := .go true) trivial rfl
  exact ⟨_, hspin, by decide, rfl, rfl⟩

theorem locks_exclusive_contended : ∃ s : Sys Bool Unit, Reachable () s ∧ s.locked () = true ∧
    (s.cpu true).pos = .xchg () ∧ () ∉ s.held true := by
  obtain ⟨s, hs, hheld, hspin, -⟩ := contended
  obtain ⟨hlocked, -, hwait, -⟩ := locks_exclusive hs
  exact ⟨s, hs, (hlocked ()).mpr ⟨false, hheld⟩, hspin, hwait true () hspin⟩

theorem interrupts_masked_contended : ∃ s : Sys Bool Unit, Reachable () s ∧
    (s.cpu true).pos = .xchg () ∧ (s.cpu true).frames = [.run] ∧ (s.cpu true).eflags ≠ true := by
  obtain ⟨s, hs, -, hspin, hframes⟩ := contended
  refine ⟨s, hs, hspin, hframes, fun hon => ?_⟩
  have hnone := ((interrupts_masked hs true).1 hon).2.2
  rw [hframes] at hnone
  cases hnone

end Xv6Threads.Spinlock
