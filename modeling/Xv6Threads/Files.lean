import Mathlib.Data.Finset.Erase
import Mathlib.Data.Finset.Insert
import Xv6Threads.SlotSteps

namespace Xv6Threads.Files

open Function Option ProcTable
open ProcTable (Slot Proc Kernel Pc running slots setProc)

structure Sys where
  k : Kernel
  /-- `f->ref` -/
  ref : ℕ → ℕ
  /-- `f->ip` of a file of type FD_INODE -/
  ip : ℕ → Option ℕ
  /-- `ip->ref` -/
  iref : ℕ → ℕ
  /-- the free list of `kalloc` -/
  free : Finset ℕ
  /-- the page of `p->kstack` -/
  kstack : Slot → ℕ

inductive Act
  /-- `page` is what `kalloc` returns when the step asks for a kernel stack. -/
  | table (a : ProcTable.Act) (page : ℕ)
  | sysOpen (i : Slot) (ip : Option ℕ)
  | sysDup (i : Slot) (fd : ℤ)
  | sysPipe (i : Slot) (kalloc : Bool)
  | sysClose (i : Slot) (fd : ℤ)
  | sysChdir (i : Slot) (ip : Option ℕ)
  | pages (free : Finset ℕ)

def filealloc (s : Sys) : Option (Sys × ℕ) :=
  ((List.range NFILE).find? fun f => s.ref f = 0).map fun f =>
    ({ s with ref := update s.ref f 1 }, f)

/-- `none` is a panic. -/
def filedup (s : Sys) (f : ℕ) : Option Sys :=
  if s.ref f < 1 then none else some { s with ref := update s.ref f (s.ref f + 1) }

def idup (s : Sys) (d : ℕ) : Sys := { s with iref := update s.iref d (s.iref d + 1) }

def iput (s : Sys) (d : ℕ) : Sys := { s with iref := update s.iref d (s.iref d - 1) }

/-- `none` is a panic. -/
def fileclose (s : Sys) (f : ℕ) : Option Sys :=
  if s.ref f < 1 then none
  else if 0 < s.ref f - 1 then some { s with ref := update s.ref f (s.ref f - 1) }
  else
    let s' := { s with ref := update s.ref f 0, ip := update s.ip f none }
    match s.ip f with
    | some d => some (iput s' d)
    | none => some s'

def argfd (p : Proc) (fd : ℤ) : Option (Fin NOFILE × ℕ) :=
  if h : fd.toNat < NOFILE then
    if fd < 0 then none else (p.ofile ⟨fd.toNat, h⟩).map fun f => (⟨fd.toNat, h⟩, f)
  else none

def fdalloc (p : Proc) : Option (Fin NOFILE) :=
  (List.finRange NOFILE).find? fun fd => p.ofile fd = none

/-- `proc->ofile[fd] = f` -/
def setFd (s : Sys) (i : Slot) (fd : Fin NOFILE) (f : Option ℕ) : Sys :=
  { s with k := setProc s.k i { s.k.proc i with
      ofile := update (s.k.proc i).ofile fd f } }

/-- `ip` is what `namei` or `create` returned, with a reference of its own. -/
def sysOpen (s : Sys) (i : Slot) (ip : Option ℕ) : Option Sys :=
  match ip with
  | none => some s
  | some d =>
    match filealloc s with
    | none => some s
    | some (s₁, f) =>
      match fdalloc (s.k.proc i) with
      | none => fileclose s₁ f
      | some fd =>
        some (setFd { idup s₁ d with ip := update s₁.ip f (some d) } i fd (some f))

def sysDup (s : Sys) (i : Slot) (fd : ℤ) : Option Sys :=
  match argfd (s.k.proc i) fd with
  | none => some s
  | some (_, f) =>
    match fdalloc (s.k.proc i) with
    | none => some s
    | some fd => (filedup s f).map fun s => setFd s i fd (some f)

def sysPipe (s : Sys) (i : Slot) (kalloc : Bool) : Option Sys :=
  match filealloc s with
  | none => some s
  | some (s₁, rf) =>
    match filealloc s₁ with
    | none => fileclose s₁ rf
    | some (s₂, wf) =>
      let bad (s : Sys) : Option Sys := (fileclose s rf).bind fun s => fileclose s wf
      if kalloc then
        match fdalloc (s.k.proc i) with
        | none => bad s₂
        | some fd0 =>
          let s₃ := setFd s₂ i fd0 (some rf)
          match fdalloc (s₃.k.proc i) with
          | none => bad (setFd s₃ i fd0 none)
          | some fd1 => some (setFd s₃ i fd1 (some wf))
      else bad s₂

def sysClose (s : Sys) (i : Slot) (fd : ℤ) : Option Sys :=
  match argfd (s.k.proc i) fd with
  | none => some s
  | some (fd, f) => fileclose (setFd s i fd none) f

def sysChdir (s : Sys) (i : Slot) (ip : Option ℕ) : Option Sys :=
  match ip, (s.k.proc i).cwd with
  | none, _ => some s
  | some d, some c =>
    some { iput (idup s d) c with k := setProc s.k i { s.k.proc i with cwd := some d } }
  | some _, none => none

/-- The open files of a process in the order of its descriptors. -/
def filesOf (p : Proc) : List ℕ := (List.finRange NOFILE).filterMap p.ofile

/-- `fork` and `clone` take a reference to each file and to the directory of `p`. -/
def dupAll (s : Sys) (p : Proc) : Option Sys :=
  ((filesOf p).foldlM filedup s).bind fun s => p.cwd.map fun d => idup s d

/-- `exit` gives them back. -/
def closeAll (s : Sys) (p : Proc) : Option Sys :=
  ((filesOf p).foldlM fileclose s).bind fun s => p.cwd.map fun d => iput s d

/-- What a step of `proc.c` does to files and inodes. -/
def refs (s : Sys) : ProcTable.Act → Option Sys
  | .forkCopy i (some _) true | .clonePid i => dupAll s (s.k.proc i)
  | .exit i => closeAll s (s.k.proc i)
  | _ => some s

/-- The slot that gets a kernel stack between `k` and `k'`. -/
def stackTaken (k k' : Kernel) : Option Slot :=
  slots.find? fun q => !(k.proc q).kstack && (k'.proc q).kstack

def stackGiven (k k' : Kernel) : Option Slot :=
  slots.find? fun q => (k.proc q).kstack && !(k'.proc q).kstack

/-- The table becomes `k'`, with `kalloc` and `kfree` of the stacks. -/
def setTable (s : Sys) (k' : Kernel) (page : ℕ) : Option Sys :=
  match stackTaken s.k k', stackGiven s.k k' with
  | some q, _ =>
    if page ∈ s.free then
      some { s with k := k', free := s.free.erase page, kstack := update s.kstack q page }
    else none
  | none, some q => some { s with k := k', free := insert (s.kstack q) s.free }
  | none, none => some { s with k := k' }

/-- The environment says which inode `namei` or `create` returns. Pages of user memory and of
pipes come and go by a step of their own. -/
def step (s : Sys) : Act → Option Sys
  | .table a page =>
    (ProcTable.step s.k a).bind fun r => (refs s a).bind fun s => setTable s r.1 page
  | .sysOpen i ip => if running s.k i ∧ s.k.pc i = .user then sysOpen s i ip else none
  | .sysDup i fd => if running s.k i ∧ s.k.pc i = .user then sysDup s i fd else none
  | .sysPipe i kalloc => if running s.k i ∧ s.k.pc i = .user then sysPipe s i kalloc else none
  | .sysClose i fd => if running s.k i ∧ s.k.pc i = .user then sysClose s i fd else none
  | .sysChdir i ip => if running s.k i ∧ s.k.pc i = .user then sysChdir s i ip else none
  | .pages free => some { s with free := free }

def init (s : Sys) : Prop :=
  s.k = boot ∧ s.ref = (fun _ => 0) ∧ s.ip = (fun _ => none) ∧
    s.iref = fun d => if d = 0 then 1 else 0

abbrev Reachable (ok : Sys → Act → Prop) : Sys → Prop :=
  Reach init ok fun s a s' => step s a = some s'

variable {s s' : Sys} {i : Slot} {f : ℕ}

theorem filealloc_k {s₁ : Sys} (h : filealloc s = some (s₁, f)) : s₁.k = s.k := by
  obtain ⟨f', -, hf⟩ := map_eq_some_iff.mp h
  rw [← (Prod.mk.inj hf).1]

theorem filedup_k (h : filedup s f = some s') : s'.k = s.k := by
  unfold filedup at h
  split_ifs at h
  rw [← some.inj h]

theorem fileclose_k (h : fileclose s f = some s') : s'.k = s.k := by
  unfold fileclose at h
  split_ifs at h
  · rw [← some.inj h]
  · dsimp only at h
    split at h
    · rw [← some.inj h, iput]
    · rw [← some.inj h]

theorem setTable_k {k' : Kernel} {page : ℕ} (h : setTable s k' page = some s') : s'.k = k' := by
  unfold setTable at h
  split at h
  · split_ifs at h
    rw [← some.inj h]
  · rw [← some.inj h]
  · rw [← some.inj h]

theorem step_table {a : ProcTable.Act} {page : ℕ} (h : step s (.table a page) = some s') :
    ∃ es, ProcTable.step s.k a = some (s'.k, es) := by
  obtain ⟨⟨k', es⟩, hk, hrest⟩ := bind_eq_some_iff.mp h
  obtain ⟨t, -, ht⟩ := bind_eq_some_iff.mp hrest
  rw [setTable_k ht]
  exact ⟨es, hk⟩

/-- The process whose descriptors or directory a call changes. -/
def Act.caller : Act → Option Slot
  | .table _ _ | .pages _ => none
  | .sysOpen i _ | .sysDup i _ | .sysPipe i _ | .sysClose i _ | .sysChdir i _ => some i

/-- Only the caller's own descriptors and directory change. -/
def Rewrites (k k' : Kernel) (i : Slot) : Prop :=
  ∃ ofile cwd, k' = setProc k i { k.proc i with ofile := ofile, cwd := cwd }

theorem Rewrites.refl (k : Kernel) (i : Slot) : Rewrites k k i :=
  ⟨(k.proc i).ofile, (k.proc i).cwd, by
    simp only [setProc, update_eq_self]⟩

theorem Rewrites.of_ne {k k' : Kernel} {q : Slot} (h : Rewrites k k' i) (hq : q ≠ i) :
    k'.proc q = k.proc q := by
  obtain ⟨ofile, cwd, rfl⟩ := h
  rw [setProc_proc, if_neg hq]

theorem Rewrites.view {k k' : Kernel} (h : Rewrites k k' i) : k'.view = k.view := by
  obtain ⟨ofile, cwd, rfl⟩ := h
  exact view_setProc_alike k i { k.proc i with ofile := ofile, cwd := cwd } rfl

theorem setFd_rewrites {k : Kernel} (h : Rewrites k s.k i) (fd : Fin NOFILE) (x : Option ℕ) :
    Rewrites k (setFd s i fd x).k i := by
  obtain ⟨ofile, cwd, hk⟩ := h
  refine ⟨update ofile fd x, cwd, ?_⟩
  rw [setFd, hk]
  simp [setProc]

theorem Rewrites.of_eq {k : Kernel} (h : Rewrites k s.k i) (heq : s'.k = s.k) :
    Rewrites k s'.k i := heq ▸ h

theorem step_rewrites {a : Act} (h : step s a = some s') (ha : a.caller = some i) :
    running s.k i = true ∧ s.k.pc i = .user ∧ Rewrites s.k s'.k i := by
  have hrefl := Rewrites.refl s.k i
  cases a with (cases ha <;> simp only [step] at h <;> split_ifs at h with hi <;>
    refine ⟨hi.1, hi.2, ?_⟩)
  | sysOpen =>
    unfold sysOpen at h
    split at h
    · exact hrefl.of_eq (by rw [← some.inj h])
    · split at h
      · exact hrefl.of_eq (by rw [← some.inj h])
      · rename_i s₁ f halloc
        have hs₁ := hrefl.of_eq (filealloc_k halloc)
        split at h
        · exact hs₁.of_eq (fileclose_k h)
        · rw [← some.inj h]
          exact setFd_rewrites hs₁ _ _
  | sysDup =>
    unfold sysDup at h
    split at h
    · exact hrefl.of_eq (by rw [← some.inj h])
    · split at h
      · exact hrefl.of_eq (by rw [← some.inj h])
      · obtain ⟨t, ht, rfl⟩ := map_eq_some_iff.mp h
        exact setFd_rewrites (hrefl.of_eq (filedup_k ht)) _ _
  | sysPipe =>
    unfold sysPipe at h
    split at h
    · exact hrefl.of_eq (by rw [← some.inj h])
    · rename_i s₁ rf halloc₁
      have hs₁ := hrefl.of_eq (filealloc_k halloc₁)
      split at h
      · exact hs₁.of_eq (fileclose_k h)
      · rename_i s₂ wf halloc₂
        have hs₂ := hs₁.of_eq (filealloc_k halloc₂)
        have hbad : ∀ t : Sys, Rewrites s.k t.k i →
            (fileclose t rf).bind (fun t => fileclose t wf) = some s' → Rewrites s.k s'.k i := by
          intro t ht hclose
          obtain ⟨u, hu, hrest⟩ := bind_eq_some_iff.mp hclose
          exact (ht.of_eq (fileclose_k hu)).of_eq (fileclose_k hrest)
        dsimp only at h
        split_ifs at h
        · split at h
          · exact hbad _ hs₂ h
          · split at h
            · exact hbad _ (setFd_rewrites (setFd_rewrites hs₂ _ _) _ _) h
            · rw [← some.inj h]
              exact setFd_rewrites (setFd_rewrites hs₂ _ _) _ _
        · exact hbad _ hs₂ h
  | sysClose =>
    unfold sysClose at h
    split at h
    · exact hrefl.of_eq (by rw [← some.inj h])
    · exact (setFd_rewrites hrefl _ _).of_eq (fileclose_k h)
  | sysChdir =>
    unfold sysChdir at h
    split at h
    · exact hrefl.of_eq (by rw [← some.inj h])
    · rw [← some.inj h]
      exact ⟨(s.k.proc i).ofile, _, rfl⟩
    · cases h

end Xv6Threads.Files
