import Xv6Threads.SlotSteps

namespace Xv6Threads.ProcTable

open Function Option List

variable {k k' : Kernel} {a : Act} {es : List Event} {i p q z : Slot} {t t' : Table}

/-- Whoever sleeps in `t'` slept in `t`. -/
def SleepOn (t t' : Table) : Prop :=
  ∀ q, (t' q).state = .SLEEPING → (t q).state = .SLEEPING ∧ (t' q).chan = (t q).chan

theorem SleepOn.refl (t : Table) : SleepOn t t := fun _ hq => ⟨hq, rfl⟩

theorem SleepOn.trans {t'' : Table} (h : SleepOn t t') (h' : SleepOn t' t'') : SleepOn t t'' := by
  intro q hq
  obtain ⟨hs, hc⟩ := h' q hq
  obtain ⟨hs', hc'⟩ := h q hs
  exact ⟨hs', hc.trans hc'⟩

def NoneAsleep (t : Table) (c : Option Chan) : Prop :=
  ∀ q, (t q).state = .SLEEPING → (t q).chan ≠ c

theorem NoneAsleep.sleepOn {c : Option Chan} (h : NoneAsleep t c) (hs : SleepOn t t') :
    NoneAsleep t' c := by
  intro q hq
  obtain ⟨hq', hc⟩ := hs q hq
  rw [hc]
  exact h q hq'

theorem wakeup1_sleepOn (t : Table) (c : Option Chan) : SleepOn t (wakeup1 t c) := by
  intro q hq
  unfold wakeup1 at hq ⊢
  by_cases hw : (t q).state = .SLEEPING ∧ (t q).chan = c
  · rw [if_pos hw] at hq
    cases hq
  · rw [if_neg hw] at hq ⊢
    exact ⟨hq, rfl⟩

theorem wakeup1_noneAsleep (t : Table) (c : Option Chan) : NoneAsleep (wakeup1 t c) c := by
  intro q hq
  unfold wakeup1 at hq ⊢
  by_cases hw : (t q).state = .SLEEPING ∧ (t q).chan = c
  · rw [if_pos hw] at hq
    cases hq
  · rw [if_neg hw] at hq ⊢
    exact fun hc => hw ⟨hq, hc⟩

theorem update_sleepOn (t : Table) (p : Slot) (x : Proc)
    (hx : x.state = .SLEEPING → (t p).state = .SLEEPING ∧ x.chan = (t p).chan) :
    SleepOn t (update t p x) := by
  intro q hq
  by_cases hqp : q = p
  · subst hqp
    rw [update_self] at hq ⊢
    exact hx hq
  · rw [update_of_ne hqp] at hq ⊢
    exact ⟨hq, rfl⟩

theorem foldl_sleepOn (body : Table → Slot → Table) (h : ∀ t p, SleepOn t (body t p))
    (l : List Slot) (t : Table) : SleepOn t (l.foldl body t) := by
  induction l generalizing t with
  | nil => exact .refl t
  | cons p l ih => exact (h t p).trans (ih _)

theorem exitThreads_sleepOn (t : Table) (pid : ℤ) : SleepOn t (exitThreads t pid) := by
  apply foldl_sleepOn
  intro t p
  split_ifs
  · exact (update_sleepOn t p _ fun h => by cases h).trans (wakeup1_sleepOn _ _)
  · exact update_sleepOn t p _ fun h => by cases h
  · exact .refl t

def passOn (init i : Slot) (keep : Proc → Bool) (t : Table) (p : Slot) : Table :=
  if (t p).parent = some i then
    if keep (t p) then
      let t := update t p { t p with parent := some init }
      if (t p).state = .ZOMBIE then wakeup1 t (some (.slot init)) else t
    else update t p { t p with parent := none, state := .ZOMBIE }
  else t

theorem reparent_eq (t : Table) (init i : Slot) (keep : Proc → Bool) :
    reparent t init i keep = slots.foldl (passOn init i keep) t := rfl

theorem passOn_sleepOn (init i : Slot) (keep : Proc → Bool) (t : Table) (p : Slot) :
    SleepOn t (passOn init i keep t p) := by
  have hpass := update_sleepOn t p { t p with parent := some init } fun h => ⟨h, rfl⟩
  unfold passOn
  dsimp only
  split_ifs
  · exact hpass.trans (wakeup1_sleepOn _ _)
  · exact hpass
  · exact update_sleepOn t p _ fun h => by cases h
  · exact .refl t

theorem reparent_sleepOn (t : Table) (init i : Slot) (keep : Proc → Bool) :
    SleepOn t (reparent t init i keep) :=
  foldl_sleepOn _ (passOn_sleepOn init i keep) _ t

theorem passOn_zombie (init i : Slot) (keep : Proc → Bool) (t : Table) (hz : z ≠ p)
    (hs : (t z).state = .ZOMBIE) : passOn init i keep t p z = t z := by
  have hwake : ∀ t : Table, (t z).state = .ZOMBIE → wakeup1 t (some (.slot init)) z = t z := by
    intro t hs
    rw [wakeup1, if_neg]
    rintro ⟨hsleep, -⟩
    rw [hs] at hsleep
    cases hsleep
  unfold passOn
  dsimp only
  split_ifs
  · rw [hwake _ (by rw [update_of_ne hz]; exact hs), update_of_ne hz]
  · rw [update_of_ne hz]
  · rw [update_of_ne hz]
  · rfl

theorem reparent_wakes {init : Slot} {keep : Proc → Bool} (hparent : (t z).parent = some i)
    (hs : (t z).state = .ZOMBIE) (hkeep : keep (t z) = true) :
    NoneAsleep (reparent t init i keep) (some (.slot init)) := by
  rw [reparent_eq]
  have hmem : z ∈ slots := mem_finRange z
  generalize slots = l at hmem
  induction l generalizing t with
  | nil => cases hmem
  | cons p l ih =>
    rw [foldl_cons]
    by_cases hzp : z = p
    · subst hzp
      have hturn : NoneAsleep (passOn init i keep t z) (some (.slot init)) := by
        unfold passOn
        simp only [hparent, hkeep, if_true, update_self, hs]
        exact wakeup1_noneAsleep _ _
      exact hturn.sleepOn (foldl_sleepOn _ (passOn_sleepOn init i keep) l _)
    · have hz := passOn_zombie init i keep t hzp hs
      apply ih
      · rw [hz, hparent]
      · rw [hz, hs]
      · rw [hz, hkeep]
      · exact (mem_cons.mp hmem).resolve_left hzp

theorem awake_of_step (h : step k a = some (k', es)) (ha : a.slot = some q) :
    (k.proc q).state ≠ .SLEEPING := by
  have hrun : running k q = true → (k.proc q).state ≠ .SLEEPING := by
    intro hq hs
    rw [running, hs] at hq
    cases hq
  cases a with (cases ha <;> simp only [step] at h)
  | dispatch i =>
    split_ifs at h with hs
    rw [hs]
    simp
  | yield i | forkCopy i pg ok | clonePid i | cloneNext i | cloneDone i | lockAcquire i
  | waitThread i =>
    split_ifs at h with hi <;> exact hrun hi
  | sleep i c | sbrk i sz | kill i pid | fork i kalloc | clone i f arg s kalloc | exit i
  | threadExit i r | wait i | threadJoin i tid r | lockRelease i | exec i pg ok sz entry sp =>
    split_ifs at h with hi
    exact hrun hi.1

theorem setProc_sleepOn (k : Kernel) (p : Slot) (x : Proc) (hx : x.state ≠ .SLEEPING) :
    SleepOn k.proc (setProc k p x).proc := update_sleepOn k.proc p x fun h => absurd h hx

theorem setState_sleepOn (k : Kernel) (p : Slot) {s : ProcState} (hs : s ≠ .SLEEPING) :
    SleepOn k.proc (setState k p s).proc := setProc_sleepOn k p { k.proc p with state := s } hs

theorem setProc_sleepOn_same (k : Kernel) (p : Slot) (x : Proc)
    (hs : x.state = (k.proc p).state) (hc : x.chan = (k.proc p).chan) :
    SleepOn k.proc (setProc k p x).proc := update_sleepOn k.proc p x fun h => ⟨hs ▸ h, hc⟩

theorem allocproc_sleepOn (k : Kernel) (kalloc : Bool) :
    SleepOn k.proc (allocproc k kalloc).1.proc := by
  unfold allocproc
  split
  · exact .refl _
  · cases kalloc
    · exact update_sleepOn k.proc _ _ fun h => by cases h
    · exact update_sleepOn k.proc _ _ fun h => by cases h

theorem exit_sleepOn (k : Kernel) (i : Slot) : SleepOn k.proc (exit k i).proc := by
  have hfiles := update_sleepOn k.proc i { k.proc i with ofile := fun _ => none, cwd := none }
    fun h => ⟨h, rfl⟩
  have hwake := hfiles.trans (wakeup1_sleepOn _ (slotChan (k.proc i).parent))
  unfold exit
  dsimp only
  rw [setPc_proc]
  refine SleepOn.trans ?_ (setState_sleepOn _ i (by decide))
  dsimp only
  split_ifs
  · exact hwake.trans (exitThreads_sleepOn _ _)
  · exact hwake.trans (reparent_sleepOn _ _ _ _)

theorem exitThread_sleepOn (k : Kernel) (i : Slot) (r : Word) :
    SleepOn k.proc (exitThread k i r).proc := by
  have hstatus := update_sleepOn k.proc i { k.proc i with exitStatus := r } fun h => ⟨h, rfl⟩
  have hwake := hstatus.trans (wakeup1_sleepOn _ (slotChan (k.proc i).parent))
  unfold exitThread
  rw [setPc_proc]
  refine SleepOn.trans ?_ (setState_sleepOn _ i (by decide))
  dsimp only
  exact hwake.trans (reparent_sleepOn _ _ _ _)

theorem kill_sleepOn (k : Kernel) (i : Slot) (pid : ℤ) : SleepOn k.proc (kill k i pid).1.proc := by
  unfold kill
  split
  · dsimp only
    split_ifs with hs
    · exact setProc_sleepOn k _ _ (by simp)
    · exact setProc_sleepOn k _ _ hs
  · exact .refl _

theorem cloneDone_sleepOn (k : Kernel) (i np : Slot) (f a s : Word) :
    SleepOn k.proc (cloneDone k i np f a s).1.proc := by
  -- the new slot and the caller become RUNNABLE
  have hend : ∀ (t : Table) (x : Proc), x.state = .RUNNABLE → SleepOn t
      (setState (setProc { k with proc := t } np x) i .RUNNABLE).proc := by
    intro t x hx
    have hnp := update_sleepOn t np x fun h => by rw [hx] at h; cases h
    exact hnp.trans (setState_sleepOn _ i (by decide))
  unfold cloneDone
  cases mainSlot k.proc (k.proc i).pid with
  | none => exact hend _ _ rfl
  | some m =>
    have hcount := update_sleepOn k.proc m { k.proc m with
      numOfThread := (k.proc m).numOfThread + 1 } fun h => ⟨h, rfl⟩
    exact hcount.trans (hend _ _ rfl)

theorem forkCopy_sleepOn {np : Slot} {pg : Option ℕ} {ok : Bool}
    (h : forkCopy k i np pg ok = some (k', es)) : SleepOn k.proc k'.proc := by
  unfold forkCopy at h
  cases pg with
  | none =>
    rw [some_pair] at h
    rw [← h.1]
    exact setProc_sleepOn k np _ (by simp)
  | some g =>
    dsimp only at h
    split_ifs at h with hg hok <;> rw [some_pair] at h <;> rw [← h.1]
    · exact setProc_sleepOn { k with pgLive := _ } np _ (by simp)
    · exact setProc_sleepOn k np _ (by simp)

theorem exec_sleepOn {pg : Option ℕ} {ok : Bool} {sz entry sp : Word}
    (h : exec k i pg ok sz entry sp = some (k', es)) : SleepOn k.proc k'.proc := by
  unfold exec at h
  cases pg with
  | none =>
    rw [some_pair] at h
    rw [← h.1]
    exact .refl _
  | some g =>
    dsimp only at h
    split_ifs at h with hg hok <;> rw [some_pair] at h <;> rw [← h.1]
    · exact setProc_sleepOn_same { k with pgLive := _ } i _ rfl rfl
    · exact .refl _

theorem wait_cases (h : step k (.wait i) = some (k', es)) :
    running k i = true ∧ k.view.hold i = none ∧
    ((∃ z, (k.proc z).parent = some i ∧ (k.proc z).state = .ZOMBIE ∧
        k' = setPc (setProc (freevm k (k.proc z).pgdir) z { k.proc z with
          kstack := false, state := .UNUSED, pid := 0, parent := none, killed := false }) i .user ∧
        es = [.freevm k (k.proc z).pgdir, .ret i (k.proc z).pid]) ∨
      (∀ z, (k.proc z).parent = some i → (k.proc z).state ≠ .ZOMBIE) ∧
        (((∀ z, (k.proc z).parent ≠ some i) ∨ (k.proc i).killed = true) ∧
            k' = setPc k i .user ∧ es = [.ret i (-1)] ∨
          ((∃ z, (k.proc z).parent = some i) ∧ (k.proc i).killed = false) ∧
            k' = setPc (sleepSelf k i) i .wait ∧ es = [])) := by
  simp only [step] at h
  split_ifs at h with hi
  rw [some.injEq, wait] at h
  refine ⟨hi.1, by rcases hi.2 with hpc | hpc <;> rw [view_hold, hpc] <;> rfl, ?_⟩
  split at h
  · rename_i z hz
    have hz := List.find?_some hz
    simp only [decide_eq_true_eq] at hz
    obtain ⟨rfl, rfl⟩ := Prod.mk.inj h
    exact .inl ⟨z, hz.1, hz.2, rfl, rfl⟩
  · rename_i hnone
    rw [List.find?_eq_none] at hnone
    refine .inr ⟨fun z hz hs => hnone z (mem_finRange z) (by simp [hz, hs]), ?_⟩
    split_ifs at h with hchild
    · obtain ⟨rfl, rfl⟩ := Prod.mk.inj h
      refine .inl ⟨hchild.imp_left fun hall z => ?_, rfl, rfl⟩
      simpa using all_eq_true.mp hall z (mem_finRange z)
    · obtain ⟨rfl, rfl⟩ := Prod.mk.inj h
      rw [not_or] at hchild
      refine .inr ⟨⟨?_, by simpa using hchild.2⟩, rfl, rfl⟩
      simpa [List.all_eq_true, slots] using hchild.1

/-- A scan of `wait_thread` that finds nothing to free puts its caller to sleep. -/
theorem waitThread_sleepOn (k : Kernel) (i : Slot) (tid : ℤ) (r : Word) :
    SleepOn k.proc (waitThread k i tid r).1.proc ∨ (waitThread k i tid r).1 = sleepSelf k i := by
  unfold waitThread
  dsimp only
  split
  · left
    rename_i z hz
    rw [joinReturn_proc]
    exact (setProc_sleepOn_same k i { k.proc i with numOfThread := (k.proc i).numOfThread - 1 }
      rfl rfl).trans (setProc_sleepOn _ z _ (by simp))
  · split_ifs
    · left
      rw [joinReturn_proc]
      exact .refl _
    · exact .inr rfl

/-- Who sleeps after a step slept before, or has just called `sleep`. -/
theorem sleeps_of_step (h : step k a = some (k', es)) (hq : (k'.proc q).state = .SLEEPING) :
    ((k.proc q).state = .SLEEPING ∧ (k'.proc q).chan = (k.proc q).chan) ∨
    (∃ c, a = .sleep q c ∧ k'.pc q = .user) ∨ (a = .wait q ∧ k' = setPc (sleepSelf k q) q .wait ∧
      ∀ z, (k.proc z).parent = some q → (k.proc z).state ≠ .ZOMBIE) ∨
    ∃ tid r, a = .waitThread q ∧ k.pc q = .join tid r ∧ k' = sleepSelf k q := by
  have hsame : ∀ i x, q ≠ i → (setProc k i x).proc q = k.proc q := by
    intro i x hqi
    rw [setProc_proc, if_neg hqi]
  cases stepped_of_step h with
  | @sleep i c hi =>
    by_cases hqi : q = i
    · subst hqi
      exact .inr (.inl ⟨c, rfl, hi.2⟩)
    · rw [hsame i _ hqi] at hq ⊢
      exact .inl ⟨hq, rfl⟩
  | @wait i =>
    obtain ⟨-, -, ⟨z, -, -, heq, -⟩ | ⟨hnone, ⟨-, heq, -⟩ | ⟨-, heq, -⟩⟩⟩ := wait_cases h <;>
      rw [heq] at hq ⊢
    · exact .inl (setProc_sleepOn (freevm k _) z _ (by simp) q hq)
    · exact .inl ⟨hq, rfl⟩
    · by_cases hqi : q = i
      · subst hqi
        exact .inr (.inr (.inl ⟨rfl, rfl, hnone⟩))
      · rw [setPc_proc, sleepSelf, hsame i _ hqi] at hq ⊢
        exact .inl ⟨hq, rfl⟩
  | @waitThread i tid r hi hpc =>
    obtain hon | heq := waitThread_sleepOn k i tid r
    · exact .inl (hon q hq)
    · rw [heq] at hq ⊢
      by_cases hqi : q = i
      · subst hqi
        exact .inr (.inr (.inr ⟨tid, r, rfl, hpc, rfl⟩))
      · rw [sleepSelf, hsame i _ hqi] at hq ⊢
        exact .inl ⟨hq, rfl⟩
  | @forkNone i kalloc _ _ hk | @fork i kalloc _ _ _ hk | @cloneNone i _ _ _ kalloc _ _ _ hk
  | @clone i _ _ _ kalloc _ _ _ _ hk =>
    have halloc := allocproc_sleepOn k kalloc q
    rw [hk] at halloc
    exact .inl (halloc hq)
  | @dispatch i | @yield i => exact .inl (setProc_sleepOn k i _ (by simp) q hq)
  | wakeup => exact .inl (wakeup1_sleepOn _ _ q hq)
  | @sbrk i sz => exact .inl (setProc_sleepOn_same k i { k.proc i with sz := sz } rfl rfl q hq)
  | @kill i pid => exact .inl (kill_sleepOn k i pid q hq)
  | forkCopy _ _ hcopy => exact .inl (forkCopy_sleepOn hcopy q hq)
  | @clonePid i np =>
    rw [setPc_proc] at hq ⊢
    left
    refine setProc_sleepOn_same k np _ ?_ ?_ q hq <;> rfl
  | @cloneDone i np f arg s => exact .inl (cloneDone_sleepOn k i np f arg s q hq)
  | @exit i => exact .inl (exit_sleepOn k i q hq)
  | @threadExit i r => exact .inl (exitThread_sleepOn k i r q hq)
  | cloneFull | cloneNext | threadJoin | lockTaken | lockBusy | lockRelease => exact .inl ⟨hq, rfl⟩
  | exec _ hexec => exact .inl (exec_sleepOn hexec q hq)

/-- The parent of a process that calls `exit` is awake afterwards. -/
theorem exit_wakes_parent (k : Kernel) (i : Slot) :
    NoneAsleep (exit k i).proc (slotChan (k.proc i).parent) := by
  have hwake := wakeup1_noneAsleep (update k.proc i { k.proc i with
    ofile := fun _ => none, cwd := none }) (slotChan (k.proc i).parent)
  unfold exit
  dsimp only
  rw [setPc_proc]
  refine NoneAsleep.sleepOn ?_ (setState_sleepOn _ i (by decide))
  dsimp only
  split_ifs
  · exact hwake.sleepOn (exitThreads_sleepOn _ _)
  · exact hwake.sleepOn (reparent_sleepOn _ _ _ _)

theorem exitThread_wakes_parent (k : Kernel) (i : Slot) (r : Word) :
    NoneAsleep (exitThread k i r).proc (slotChan (k.proc i).parent) := by
  have hwake := wakeup1_noneAsleep (update k.proc i { k.proc i with exitStatus := r })
    (slotChan (k.proc i).parent)
  unfold exitThread
  rw [setPc_proc]
  refine NoneAsleep.sleepOn ?_ (setState_sleepOn _ i (by decide))
  dsimp only
  exact hwake.sleepOn (reparent_sleepOn _ _ _ _)

theorem exit_wakes_init (ht : (k.proc i).isThread = false) (hz : (k.proc z).parent = some i)
    (hzi : z ≠ i) (hs : (k.proc z).state = .ZOMBIE) (hpg : (k.proc z).pgdir ≠ (k.proc i).pgdir) :
    NoneAsleep (exit k i).proc (some (.slot k.initproc)) := by
  unfold exit
  dsimp only
  rw [setPc_proc, if_neg (by simp [ht])]
  refine NoneAsleep.sleepOn ?_ (setState_sleepOn _ i (by decide))
  dsimp only
  have hkeep : wakeup1 (update k.proc i { k.proc i with
      ofile := fun _ => none, cwd := none }) (slotChan (k.proc i).parent) z = k.proc z := by
    rw [wakeup1, update_of_ne hzi, if_neg]
    simp [hs]
  apply reparent_wakes (z := z)
  · rw [hkeep, hz]
  · rw [hkeep, hs]
  · rw [hkeep]
    simpa using hpg

end Xv6Threads.ProcTable
