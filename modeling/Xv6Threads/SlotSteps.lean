import Xv6Threads.TableMoves

namespace Xv6Threads.ProcTable

open Function Option Prod

variable {k k' : Kernel} {a : Act} {es : List Event} {i p q : Slot}

@[simp] theorem setProc_proc (k : Kernel) (p : Slot) (x : Proc) (q : Slot) :
    (setProc k p x).proc q = if q = p then x else k.proc q := update_apply k.proc p x q

@[simp] theorem setPc_pc (k : Kernel) (p : Slot) (c : Pc) (q : Slot) :
    (setPc k p c).pc q = if q = p then c else k.pc q := update_apply k.pc p c q

@[simp] theorem setProc_pc (k : Kernel) (p : Slot) (x : Proc) : (setProc k p x).pc = k.pc := rfl
@[simp] theorem setPc_proc (k : Kernel) (p : Slot) (c : Pc) : (setPc k p c).proc = k.proc := rfl

theorem find_slot {f : Slot → Bool} (hq : f q = true) (hunique : ∀ r, f r = true → r = q) :
    slots.find? f = some q := by
  cases hfind : slots.find? f with
  | none =>
    rw [List.find?_eq_none] at hfind
    exact absurd hq (hfind q (List.mem_finRange q))
  | some r => rw [hunique r (List.find?_some hfind)]

theorem find_slot_none {f : Slot → Bool} (h : ∀ q, f q = false) : slots.find? f = none := by
  rw [List.find?_eq_none]
  intro q _ hq
  rw [h q] at hq
  cases hq

def Act.slot : Act → Option Slot
  | .wakeup _ => none
  | .dispatch i | .yield i | .sleep i _ | .sbrk i _ | .kill i _ | .fork i _ | .forkCopy i _ _
  | .clone i _ _ _ _ | .clonePid i | .cloneNext i | .cloneDone i | .exit i | .threadExit i _
  | .wait i | .threadJoin i _ _ | .lockAcquire i | .waitThread i | .lockRelease i
  | .exec i _ _ _ _ _ => some i

theorem allocproc_pc_of_used (k : Kernel) (kalloc : Bool) (hq : (k.proc q).state ≠ .UNUSED) :
    (allocproc k kalloc).1.pc q = k.pc q := by
  unfold allocproc
  split
  · rfl
  · rename_i p hp
    have hqp : q ≠ p := by
      rintro rfl
      exact hq (by simpa using List.find?_some hp)
    cases kalloc
    · rfl
    · simp [hqp]

theorem pc_of_step (h : step k a = some (k', es)) (hq : (k.proc q).state ≠ .UNUSED)
    (hne : a.slot ≠ some q) : k'.pc q = k.pc q := by
  have hset : ∀ (k : Kernel) (i : Slot) (c : Pc), i ≠ q → (setPc k i c).pc q = k.pc q := by
    intro k i c hi
    rw [setPc_pc, if_neg hi.symm]
  cases a with
  | fork i kalloc | clone i f a s kalloc =>
    have hi : i ≠ q := fun hi => hne (congrArg some hi)
    have hpc := allocproc_pc_of_used k kalloc hq
    cases stepped_of_step h <;> try rfl
    all_goals
      rename_i hk
      rw [hk] at hpc
    · exact hpc
    · rw [hset _ _ _ hi, hpc]
  | wakeup c =>
    cases stepped_of_step h
    rfl
  | dispatch i | yield i | sleep i c | sbrk i sz | kill i pid | forkCopy i pg ok | clonePid i
  | cloneNext i | cloneDone i | exit i | threadExit i r | wait i | threadJoin i tid r
  | lockAcquire i | waitThread i | lockRelease i | exec i pg ok sz entry sp =>
    have hi : q ≠ i := fun hi => hne (congrArg some hi.symm)
    simp only [step, kill, forkCopy, clonePid, cloneDone, exit, exitThread, wait, waitThread,
      joinReturn, exec, sleepSelf, setState, freevm] at h
    repeat' split at h
    all_goals cases h
    all_goals simp [hi]

theorem allocproc_lock (k : Kernel) (kalloc : Bool) : (allocproc k kalloc).1.lock = k.lock := by
  unfold allocproc
  split
  · rfl
  · cases kalloc <;> rfl

theorem lock_of_step (h : step k a = some (k', es)) (hacquire : ∀ i, a ≠ .lockAcquire i)
    (hrelease : ∀ i, a ≠ .lockRelease i) : k'.lock = k.lock := by
  cases a with
  | fork i kalloc | clone i f arg s kalloc =>
    have hlock := allocproc_lock k kalloc
    cases stepped_of_step h <;> try rfl
    all_goals
      rename_i hk
      rw [hk] at hlock
      exact hlock
  | lockAcquire i => exact absurd rfl (hacquire i)
  | lockRelease i => exact absurd rfl (hrelease i)
  | _ =>
    simp only [step, kill, forkCopy, clonePid, cloneDone, exit, exitThread, wait, waitThread,
      joinReturn, exec, sleepSelf, setState, freevm] at h
    repeat' split at h
    all_goals cases h
    all_goals rfl

theorem allocproc_taken {kalloc : Bool} (h : allocproc k kalloc = (k', some p)) :
    (k.proc p).state = .UNUSED ∧ k'.nextpid = k.nextpid + 1 ∧
      (∀ q ≠ p, k'.proc q = k.proc q) ∧ (k'.proc p).kstack = true := by
  unfold allocproc at h
  split at h
  · simp at h
  · rename_i q hfind
    have hq : (k.proc q).state = .UNUSED := by simpa using List.find?_some hfind
    cases kalloc
    · simp at h
    · simp only [if_true, mk.injEq, some.injEq] at h
      obtain ⟨rfl, rfl⟩ := h
      refine ⟨hq, rfl, fun r hr => ?_, ?_⟩
      · rw [setPc_proc, setProc_proc, if_neg hr]
      · rw [setPc_proc, setProc_proc, if_pos rfl]

theorem allocproc_full (h : allocproc k true = (k', none)) :
    k' = k ∧ ∀ q, (k.proc q).state ≠ .UNUSED := by
  unfold allocproc at h
  split at h
  · rename_i hfind
    rw [List.find?_eq_none] at hfind
    refine ⟨(mk.inj h).1.symm, fun q hq => ?_⟩
    exact hfind q (List.mem_finRange q) (decide_eq_true hq)
  · simp at h

/-- With a page for the stack `clone` fails on a full process or a full table, and then changes
nothing. -/
theorem clone_cases {f arg st : Word} (h : step k (.clone i f arg st true) = some (k', es)) :
    running k i = true ∧ k.pc i = .user ∧ ((k' = k ∧ es = [.ret i (-1)] ∧
        ((k.proc i).numOfThread = 7 ∨ ∀ q, (k.proc q).state ≠ .UNUSED)) ∨
      ∃ np, (k.proc i).numOfThread ≠ 7 ∧ (k.proc np).state = .UNUSED ∧
        k'.nextpid = k.nextpid + 1 ∧ (∀ q ≠ np, k'.proc q = k.proc q) ∧
        (k'.proc np).kstack = true ∧ k'.pc i = .cloneAlloc np f arg st) := by
  cases stepped_of_step h with
  | cloneFull hi hn => exact ⟨hi.1, hi.2, .inl ⟨rfl, rfl, .inl hn⟩⟩
  | cloneNone hi hn hk =>
    obtain ⟨hsame, hfull⟩ := allocproc_full hk
    exact ⟨hi.1, hi.2, .inl ⟨hsame, rfl, .inr hfull⟩⟩
  | clone hi hn hk =>
    obtain ⟨hu, hnext, hother, hstack⟩ := allocproc_taken hk
    exact ⟨hi.1, hi.2, .inr ⟨_, hn, hu, hnext, hother, hstack, by simp⟩⟩

structure Body where
  killed : Bool
  ofile : Fin NOFILE → Option ℕ
  cwd : Option ℕ
  exitStatus : Word
  kstack : Bool

def Proc.body (x : Proc) : Body := ⟨x.killed, x.ofile, x.cwd, x.exitStatus, x.kstack⟩

theorem body_state (x : Proc) (s : ProcState) : { x with state := s }.body = x.body := rfl

def ProcState.Unborn (s : ProcState) : Prop := s = .UNUSED ∨ s = .EMBRYO

instance (s : ProcState) : Decidable s.Unborn := inferInstanceAs (Decidable (_ ∨ _))

structure Proc.Stirs (x y : Proc) : Prop where
  body : y.body = x.body
  unborn : y.state.Unborn → x.state = y.state

theorem Proc.Stirs.of_state {x y : Proc} (h : y.body = x.body) (hs : y.state = x.state) :
    x.Stirs y := ⟨h, fun _ => hs.symm⟩

theorem Proc.Stirs.refl (x : Proc) : x.Stirs x := .of_state rfl rfl

theorem Proc.Stirs.trans {x y z : Proc} (h : x.Stirs y) (h' : y.Stirs z) : x.Stirs z := by
  refine ⟨h'.body.trans h.body, fun hz => ?_⟩
  have hy := h'.unborn hz
  rw [← hy] at hz ⊢
  exact h.unborn hz

theorem stirs_of_ne {x y : Proc} (h : y.body = x.body) (hs : ¬y.state.Unborn) : x.Stirs y :=
  ⟨h, fun h => absurd h hs⟩

theorem Proc.Stirs.ended (x : Proc) (parent : Option Slot) :
    x.Stirs { x with parent := parent, state := .ZOMBIE } :=
      stirs_of_ne rfl (by simp [ProcState.Unborn])

theorem Proc.Stirs.passed (x : Proc) (parent : Option Slot) :
    x.Stirs { x with parent := parent } := .of_state rfl rfl

inductive Change (k : Kernel) (q : Slot) : Act → Proc → Prop
  | stir {a : Act} {x : Proc} (h : (k.proc q).Stirs x) : Change k q a x
  | kill {i : Slot} {pid : ℤ} {x : Proc}
      (hq : slots.find? (fun p => (k.proc p).pid = pid) = some q)
      (hx : x.body = { (k.proc q).body with killed := true })
      (hs : x.state.Unborn → (k.proc q).state = x.state) : Change k q (.kill i pid) x
  | alloc {a : Act} {x : Proc} (kalloc : Bool) (hq : (k.proc q).state = .UNUSED)
      (hx : x.body = { (k.proc q).body with kstack := kalloc })
      (hs : x.state = if kalloc then .EMBRYO else .UNUSED) (ha : a.starts = true) : Change k q a x
  | forkFail {i : Slot} {pg : Option ℕ} {ok : Bool} {x : Proc} (hpc : k.pc i = .fork q)
      (hi : running k i = true) (hx : x.body = { (k.proc q).body with kstack := false })
      (hs : x.state = .UNUSED) : Change k q (.forkCopy i pg ok) x
  | forkDone {i : Slot} {pg : Option ℕ} {x : Proc} (hpc : k.pc i = .fork q)
      (hi : running k i = true)
      (hx : x.body = { (k.proc q).body with
        ofile := dupFiles (k.proc i) (k.proc q), cwd := (k.proc i).cwd })
      (hs : x.state = .RUNNABLE) : Change k q (.forkCopy i pg true) x
  | clonePid {i : Slot} {f a s : Word} {x : Proc} (hpc : k.pc i = .cloneAlloc q f a s)
      (hi : running k i = true)
      (hx : x.body = { (k.proc q).body with
        ofile := dupFiles (k.proc i) (k.proc q), cwd := (k.proc i).cwd })
      (hs : x.state = (k.proc q).state) : Change k q (.clonePid i) x
  | exit {x : Proc} (hx : x.body = { (k.proc q).body with ofile := fun _ => none, cwd := none })
      (hs : x.state = .ZOMBIE) : Change k q (.exit q) x
  | threadExit {r : Word} {x : Proc} (hx : x.body = { (k.proc q).body with exitStatus := r })
      (hs : x.state = .ZOMBIE) : Change k q (.threadExit q r) x
  | reap {i : Slot} {x : Proc} (hparent : (k.proc q).parent = some i)
      (hq : (k.proc q).state = .ZOMBIE)
      (hx : x.body = { (k.proc q).body with kstack := false, killed := false })
      (hs : x.state = .UNUSED) : Change k q (.wait i) x
  | join {i : Slot} {x : Proc} (hparent : (k.proc q).parent = some i)
      (hq : (k.proc q).state = .ZOMBIE)
      (hx : x.body = { (k.proc q).body with kstack := false, killed := false, exitStatus := 0 })
      (hs : x.state = .UNUSED) : Change k q (.waitThread i) x

theorem wakeup1_stirs (t : Table) (c : Option Chan) (q : Slot) : (t q).Stirs (wakeup1 t c q) := by
  unfold wakeup1
  split_ifs
  · exact stirs_of_ne rfl (by simp [ProcState.Unborn])
  · exact .refl _

theorem update_stirs {t : Table} {p : Slot} {x : Proc} (h : (t p).Stirs x) (q : Slot) :
    (t q).Stirs (update t p x q) := by
  by_cases hq : q = p
  · subst hq
    rwa [update_self]
  · rw [update_of_ne hq]
    exact .refl _

theorem foldl_stirs (body : Table → Slot → Table) (h : ∀ (t : Table) p q, (t q).Stirs (body t p q))
    (l : List Slot) (t : Table) (q : Slot) : (t q).Stirs (l.foldl body t q) := by
  induction l generalizing t with
  | nil => exact .refl _
  | cons p l ih => exact (h t p q).trans (ih (body t p))

theorem exitThreads_stirs (t : Table) (pid : ℤ) (q : Slot) : (t q).Stirs (exitThreads t pid q) := by
  apply foldl_stirs
  intro t p q
  split_ifs
  · exact (update_stirs (.ended (t p) (t p).parent) q).trans (wakeup1_stirs _ _ q)
  · exact update_stirs (.ended (t p) none) q
  · exact .refl _

theorem reparent_stirs (t : Table) (init i : Slot) (keep : Proc → Bool) (q : Slot) :
    (t q).Stirs (reparent t init i keep q) := by
  apply foldl_stirs
  intro t p q
  dsimp only
  split_ifs
  · exact (update_stirs (.passed (t p) (some init)) q).trans (wakeup1_stirs _ _ q)
  · exact update_stirs (.passed (t p) (some init)) q
  · exact update_stirs (.ended (t p) none) q
  · exact .refl _

theorem setProc_stirs {k : Kernel} {p : Slot} {x : Proc} (h : (k.proc p).Stirs x) (q : Slot) :
    (k.proc q).Stirs ((setProc k p x).proc q) := update_stirs h q

theorem setState_stirs (k : Kernel) (p : Slot) {s : ProcState} (hs : ¬s.Unborn) (q : Slot) :
    (k.proc q).Stirs ((setState k p s).proc q) := by
  have hp : (k.proc p).Stirs { k.proc p with state := s } := stirs_of_ne rfl hs
  exact setProc_stirs hp q

theorem sleepSelf_stirs (k : Kernel) (i q : Slot) : (k.proc q).Stirs ((sleepSelf k i).proc q) := by
  have hi : (k.proc i).Stirs { k.proc i with chan := some (.slot i), state := .SLEEPING } :=
    stirs_of_ne rfl (by simp [ProcState.Unborn])
  exact setProc_stirs hi q

theorem change_setProc {k : Kernel} {p : Slot} {x : Proc} {a : Act} (h : Change k p a x)
    (q : Slot) : Change k q a ((setProc k p x).proc q) := by
  rw [setProc_proc]
  split_ifs with hq
  · subst hq
    exact h
  · exact .stir (.refl _)

theorem allocproc_change (k : Kernel) (kalloc : Bool) {a : Act} (ha : a.starts = true) (q : Slot) :
    Change k q a ((allocproc k kalloc).1.proc q) := by
  unfold allocproc
  split
  · exact .stir (.refl _)
  · rename_i p hp
    have hp : (k.proc p).state = .UNUSED := by simpa using List.find?_some hp
    cases kalloc
    · exact change_setProc (.alloc false hp rfl rfl ha) q
    · exact change_setProc (.alloc true hp rfl rfl ha) q

theorem exit_change (k : Kernel) (i q : Slot) : Change k q (.exit i) ((exit k i).proc q) := by
  have hloop : ∀ t : Table, (t q).Stirs ((if (k.proc i).isThread then exitThreads t (k.proc i).pid
      else reparent t k.initproc i fun p => p.pgdir != (k.proc i).pgdir) q) := by
    intro t
    split_ifs
    · exact exitThreads_stirs t _ q
    · exact reparent_stirs t _ _ _ q
  have h := (wakeup1_stirs (update k.proc i { k.proc i with
    ofile := fun _ => none, cwd := none }) (slotChan (k.proc i).parent) q).trans (hloop _)
  unfold exit
  dsimp only
  rw [setPc_proc, setState, setProc_proc]
  by_cases hq : q = i
  · subst hq
    rw [update_self] at h
    rw [if_pos rfl]
    exact .exit h.body rfl
  · rw [update_of_ne hq] at h
    rw [if_neg hq]
    exact .stir h

theorem exitThread_stirs (k : Kernel) (i : Slot) (x : Proc) (c : Option Chan) (q : Slot) :
    (update k.proc i x q).Stirs (reparent (wakeup1 (update k.proc i x) c) k.initproc i
      (fun _ => true) q) :=
  (wakeup1_stirs _ c q).trans (reparent_stirs _ _ _ _ q)

theorem exitThread_body (k : Kernel) (i : Slot) (r : Word) :
    ((exitThread k i r).proc i).body = { (k.proc i).body with exitStatus := r } := by
  have h : ∀ (x : Proc) c, x.Stirs (reparent (wakeup1 (update k.proc i x) c) k.initproc i
      (fun _ => true) i) := by
    intro x c
    have hx := exitThread_stirs k i x c i
    rwa [update_self] at hx
  unfold exitThread
  simp only [setPc_proc, setState, setProc_proc]
  rw [if_pos trivial]
  exact (body_state _ _).trans (h _ _).body

theorem exitThread_change (k : Kernel) (i : Slot) (r : Word) (q : Slot) :
    Change k q (.threadExit i r) ((exitThread k i r).proc q) := by
  by_cases hq : q = i
  · subst hq
    refine .threadExit (exitThread_body k q r) ?_
    simp [exitThread, setState]
  · have h := fun x c => exitThread_stirs k i x c q
    unfold exitThread
    simp only [setPc_proc, setState, setProc_proc]
    simp only [update_of_ne hq] at h
    rw [if_neg hq]
    exact .stir (h _ _)

theorem cloneDone_stirs (k : Kernel) (i np : Slot) (f a s : Word) (q : Slot) :
    (k.proc q).Stirs ((cloneDone k i np f a s).1.proc q) := by
  -- the new slot and the caller become RUNNABLE, the main slot counts
  have hend : ∀ (t : Table) (tid : ℤ) (tf : Trapframe), (t q).Stirs
      ((setState (setProc { k with proc := t } np { t np with
        tid := tid, tf := tf, state := .RUNNABLE }) i .RUNNABLE).proc q) := by
    intro t tid tf
    have hnp : (t np).Stirs { t np with tid := tid, tf := tf, state := .RUNNABLE } :=
      stirs_of_ne rfl (by simp [ProcState.Unborn])
    refine Proc.Stirs.trans ?_ (setState_stirs _ i (by decide) q)
    exact update_stirs hnp q
  unfold cloneDone
  cases mainSlot k.proc (k.proc i).pid with
  | none => exact hend _ _ _
  | some m =>
    have hm : (k.proc m).Stirs { k.proc m with numOfThread := (k.proc m).numOfThread + 1 } :=
      .of_state rfl rfl
    exact (update_stirs hm q).trans (hend _ _ _)

theorem wait_change (k : Kernel) (i q : Slot) : Change k q (.wait i) ((wait k i).1.proc q) := by
  unfold wait
  split
  · rename_i z hz
    have hz := List.find?_some hz
    simp only [decide_eq_true_eq] at hz
    exact change_setProc (k := k) (.reap hz.1 hz.2 rfl rfl) q
  · split_ifs
    · exact .stir (.refl _)
    · exact .stir (sleepSelf_stirs k i q)

theorem joinReturn_proc (k : Kernel) (i : Slot) (r : ℤ) : (joinReturn k i r).1.proc = k.proc := by
  unfold joinReturn
  split_ifs <;> rfl

theorem waitThread_change (k : Kernel) (i : Slot) (tid : ℤ) (r : Word) (q : Slot) :
    Change k q (.waitThread i) ((waitThread k i tid r).1.proc q) := by
  unfold waitThread
  dsimp only
  split
  · rename_i z hz
    have hz := List.find?_some hz
    simp only [decide_eq_true_eq, Bool.and_eq_true, Bool.decide_and] at hz
    have hcount : ∀ p, (k.proc p).Stirs ((setProc k i { k.proc i with
        numOfThread := (k.proc i).numOfThread - 1 }).proc p) := setProc_stirs (.of_state rfl rfl)
    rw [joinReturn_proc, setProc_proc]
    split_ifs with hq
    · subst hq
      refine .join hz.1.1 hz.2 ?_ rfl
      have hb := (hcount q).body
      simp only [Proc.body, Body.mk.injEq] at hb ⊢
      exact ⟨trivial, hb.2.1, hb.2.2.1, trivial, trivial⟩
    · exact .stir (hcount q)
  · split_ifs
    · rw [joinReturn_proc]
      exact .stir (.refl _)
    · exact .stir (sleepSelf_stirs k i q)

theorem kill_change (k : Kernel) (i : Slot) (pid : ℤ) (q : Slot) :
    Change k q (.kill i pid) ((kill k i pid).1.proc q) := by
  unfold kill
  split
  · rename_i p hp
    apply change_setProc (k := k)
    dsimp only
    split_ifs with hs
    · exact .kill hp rfl fun h => absurd h (by simp [ProcState.Unborn])
    · exact .kill hp rfl fun _ => rfl
  · exact .stir (.refl _)

theorem forkCopy_change {np : Slot} {pg : Option ℕ} {ok : Bool} (hi : running k i = true)
    (hpc : k.pc i = .fork np) (h : forkCopy k i np pg ok = some (k', es)) (q : Slot) :
    Change k q (.forkCopy i pg ok) (k'.proc q) := by
  unfold forkCopy at h
  cases pg with
  | none =>
    rw [some_pair] at h
    rw [← h.1, setPc_proc]
    exact change_setProc (.forkFail hpc hi rfl rfl) q
  | some g =>
    dsimp only at h
    split_ifs at h with hg hok
    · rw [some_pair] at h
      subst hok
      rw [← h.1, setPc_proc]
      exact change_setProc (k := k) (.forkDone hpc hi rfl rfl) q
    · rw [some_pair] at h
      rw [← h.1, setPc_proc]
      exact change_setProc (k := k) (.forkFail hpc hi rfl rfl) q

theorem exec_stirs {pg : Option ℕ} {ok : Bool} {sz entry sp : Word}
    (h : exec k i pg ok sz entry sp = some (k', es)) (q : Slot) : (k.proc q).Stirs (k'.proc q) := by
  unfold exec at h
  cases pg with
  | none =>
    rw [some_pair] at h
    rw [← h.1]
    exact .refl _
  | some g =>
    dsimp only at h
    split_ifs at h with hg hok
    · rw [some_pair] at h
      have hi : (k.proc i).Stirs { k.proc i with
          pgdir := g, sz := sz, tf := { (k.proc i).tf with eip := entry, esp := sp } } :=
            .of_state rfl rfl
      rw [← h.1]
      exact setProc_stirs hi q
    · rw [some_pair] at h
      rw [← h.1]
      exact .refl _

theorem forkDone_child {np : Slot} {g : ℕ} (hpc : k.pc i = .fork np)
    (h : step k (.forkCopy i (some g) true) = some (k', es)) :
    running k i = true ∧ (k'.proc np).state = .RUNNABLE ∧
      (k'.proc np).isThread = (k.proc i).isThread ∧ (k'.proc np).parent = some i := by
  simp only [step, hpc, forkCopy] at h
  split_ifs at h with hi
  rw [some_pair] at h
  refine ⟨hi, ?_⟩
  rw [← h.1]
  simp

theorem step_change (h : step k a = some (k', es)) (q : Slot) : Change k q a (k'.proc q) := by
  cases stepped_of_step h with
  | @forkNone i kalloc _ _ hk | @fork i kalloc _ _ _ hk =>
    have halloc := allocproc_change k kalloc (a := .fork i kalloc) rfl q
    rwa [hk] at halloc
  | @cloneNone i f arg s kalloc _ _ _ hk | @clone i f arg s kalloc _ _ _ _ hk =>
    have halloc := allocproc_change k kalloc (a := .clone i f arg s kalloc) rfl q
    rwa [hk] at halloc
  | dispatch | yield | sleep =>
    refine .stir (setProc_stirs ?_ q)
    exact stirs_of_ne rfl (by simp [ProcState.Unborn])
  | wakeup => exact .stir (wakeup1_stirs k.proc _ q)
  | sbrk =>
    refine .stir (setProc_stirs ?_ q)
    exact .of_state rfl rfl
  | @kill i pid => exact kill_change k i pid q
  | forkCopy hi hpc hcopy => exact forkCopy_change hi hpc hcopy q
  | clonePid hi hpc =>
    rw [setPc_proc]
    refine change_setProc ?_ q
    exact .clonePid hpc hi rfl rfl
  | @cloneDone i np f arg s => exact .stir (cloneDone_stirs k i np f arg s q)
  | @exit i => exact exit_change k i q
  | @threadExit i r => exact exitThread_change k i r q
  | @wait i => exact wait_change k i q
  | cloneFull | cloneNext | threadJoin | lockTaken | lockBusy | lockRelease => exact .stir (.refl _)
  | @waitThread i tid r => exact waitThread_change k i tid r q
  | exec _ hexec => exact .stir (exec_stirs hexec q)

end Xv6Threads.ProcTable
