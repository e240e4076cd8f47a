import Mathlib.Tactic.Abel
import Xv6Threads.FileRefs

namespace Xv6Threads.OpenFiles

open Atomic Function List Finset

def logic : Logic ops Tokens where
  inv := Inv
  view _ _ := True
  panics msg := msg = "init exiting"

section
variable {α β : Type} {Q : α → Tokens → Prop} {P : β → Tokens → Prop} {r g : Tokens}

theorem safe_op {o : Op} {Q : Res o → Tokens → Prop}
    (h : ∀ R s x b t, Inv s (r + R) → exec o x s = some (b, t) → ∃ q, Inv t (q + R) ∧ Q b q) :
    Safe logic Q (op o) r := Safe.perform trivial h

theorem safe_call {c : C α} {k : α → C β} (h : Safe logic Q c r)
    (hk : ∀ a q, Q a q → Safe logic P (k a) (q + g)) : Safe logic P (c >>= k) (r + g) :=
  h.call (fun _ _ _ _ => trivial) hk

theorem safe_same {o : Op} (h : ∀ x s b t, exec o x s = some (b, t) → t = s) :
    Safe logic (fun _ r => r = 0) (op o) 0 :=
  safe_op fun R s x b t hs hx => ⟨0, by rwa [h x s b t hx], rfl⟩

theorem safe_iput : Safe logic (fun _ r => r = 0) (op .iput) 0 :=
  safe_same fun x s b t hx => by cases hx; rfl

end

section
variable {f : FileIx}

theorem safe_filedup : Safe logic (fun _ r => r = {.ref f} + {.ref f}) (filedup f) {.ref f} := by
  refine (safe_op (Q := fun b r => b = true ∧ r = {.ref f} + {.ref f}) ?_).bind ?_
  · intro R s x b t hs hx
    have hpos := hs.ref_pos
    simp only [exec, if_neg (Nat.not_lt.mpr hpos), Option.some.injEq, Prod.mk.injEq] at hx
    obtain ⟨rfl, rfl⟩ := hx
    exact ⟨_, hs.filedup, rfl, rfl⟩
  · rintro b r ⟨rfl, hr⟩
    exact hr

theorem safe_pipeclose {p : ℕ} {w : Bool} :
    Safe logic (fun _ r => r = 0) (pipeclose p w) {.shut p w} := by
  refine (safe_op (Q := fun b r => r = if b = true then {.page p} else 0) ?_).bind ?_
  · intro R s x b t hs hx
    cases hx
    refine ⟨_, hs.pipeclose, ?_⟩
    simp
  · rintro b r rfl
    cases b with
    | false => exact rfl
    | true =>
      refine safe_op fun R s x b t hs hx => ?_
      cases hx
      exact ⟨0, by rw [zero_add]; exact hs.kfree, rfl⟩

theorem safe_fileclose {c : Token} (hc : c = .ref f ∨ c = .new f) :
    Safe logic (fun _ r => r = 0) (fileclose f) {c} := by
  refine (safe_op (o := .fileclose f) (Q := fun (b : Closed) r => b = .shared ∧ r = 0 ∨
    ∃ type, b = .last type ∧ r = dropped type) ?_).bind ?_
  · intro R s x b t hs hx
    have hpos : 1 ≤ (s.file f).ref := by
      rcases hc with rfl | rfl
      · exact hs.ref_pos
      · exact hs.new_one.1.ge
    simp only [exec, if_neg (Nat.not_lt.mpr hpos)] at hx
    split_ifs at hx with hshared
    · cases hx
      refine ⟨0, ?_, Or.inl ⟨rfl, rfl⟩⟩
      rw [zero_add]
      rcases hc with rfl | rfl
      · exact hs.close_shared hshared
      · rw [hs.new_one.1] at hshared
        exact absurd hshared (lt_irrefl _)
    · cases hx
      exact ⟨_, hs.close_last hc (by omega), Or.inr ⟨_, rfl, rfl⟩⟩
  · rintro b r (⟨rfl, rfl⟩ | ⟨type, rfl, rfl⟩)
    · exact rfl
    · cases type with
      | FD_NONE => exact rfl
      | FD_INODE => exact safe_iput
      | FD_PIPE p w => exact safe_pipeclose

theorem safe_filealloc : Safe logic (fun b r => r = b.elim 0 fun f =>
    {.new f}) (op .filealloc) 0 := by
  refine safe_op fun R s x b t hs hx => ?_
  rw [zero_add] at hs
  simp only [exec] at hx
  split at hx
  · cases hx
    exact ⟨0, by rwa [zero_add], rfl⟩
  · rename_i f hf
    cases hx
    have hzero := List.find?_some hf
    exact ⟨{.new f}, hs.filealloc (by simpa using hzero), rfl⟩

theorem safe_setPipe {p : ℕ} {w : Bool} :
    Safe logic (fun _ r => r = {.ref f}) (op (.setPipe f p w)) ({.new f} + {.shut p w}) := by
  refine safe_op fun R s x b t hs hx => ?_
  cases hx
  exact ⟨{.ref f}, Inv.setType (.FD_PIPE p w) hs, rfl⟩

theorem safe_setInode : Safe logic (fun _ r => r = {.ref f}) (op (.setInode f)) {.new f} := by
  refine safe_op fun R s x b t hs hx => ?_
  cases hx
  refine ⟨{.ref f}, Inv.setType .FD_INODE ?_, rfl⟩
  rwa [show dropped .FD_INODE = 0 from rfl, add_zero]

theorem safe_newPipe : Safe logic
    (fun b r => r = b.elim 0 fun p => {.shut p false} + {.shut p true}) (op .newPipe) 0 := by
  refine safe_op fun R s x b t hs hx => ?_
  rw [zero_add] at hs
  cases x with
  | none =>
    cases hx
    exact ⟨0, by rwa [zero_add], rfl⟩
  | some n =>
    cases hx
    exact ⟨_, hs.newPipe, rfl⟩

theorem safe_pipealloc : Safe logic
    (fun b r => r = b.elim 0 fun p => {.ref p.1} + {.ref p.2}) pipealloc 0 := by
  refine safe_filealloc.bind ?_
  rintro (_ | f0) r rfl
  · exact rfl
  change Safe logic _ _ {.new f0}
  rw [← zero_add ({.new f0} : Tokens)]
  refine safe_call safe_filealloc ?_
  rintro (_ | f1) r rfl
  · -- the first file is given back
    change Safe logic _ _ (0 + {.new f0})
    rw [zero_add]
    refine (safe_fileclose (Or.inr rfl)).bind ?_
    rintro _ r rfl
    exact rfl
  change Safe logic _ _ ({.new f1} + {.new f0})
  rw [← zero_add ({.new f1} + {.new f0} : Tokens)]
  refine safe_call safe_newPipe ?_
  rintro (_ | p) r rfl
  · change Safe logic _ _ (0 + ({.new f1} + {.new f0}))
    rw [zero_add, add_comm]
    refine safe_call (safe_fileclose (Or.inr rfl)) ?_
    rintro _ r rfl
    rw [zero_add]
    refine (safe_fileclose (Or.inr rfl)).bind ?_
    rintro _ r rfl
    exact rfl
  · change Safe logic _ _ ({.shut p false} + {.shut p true} + ({.new f1} + {.new f0}))
    rw [show ({.shut p false} + {.shut p true} + ({.new f1} + {.new f0}) : Tokens) =
      ({.new f0} + {.shut p false}) + ({.new f1} + {.shut p true}) by abel]
    refine safe_call safe_setPipe ?_
    rintro _ r rfl
    rw [add_comm]
    refine safe_call safe_setPipe ?_
    rintro _ r rfl
    exact add_comm _ _

end

section
variable {ofile : Ofile} {f : FileIx} {fd : Fin NOFILE}

theorem argfd_some {n : ℤ} (h : argfd ofile n = some (fd, f)) : ofile fd = some f := by
  unfold argfd at h
  split_ifs at h
  obtain ⟨g, hg, heq⟩ := Option.map_eq_some_iff.mp h
  cases heq
  exact hg

theorem fdalloc_some {ofile' : Ofile} (h : fdalloc ofile f = some (fd, ofile')) :
    ofile fd = none ∧ ofile' = update ofile fd (some f) := by
  unfold fdalloc at h
  obtain ⟨fd', hfind, heq⟩ := Option.map_eq_some_iff.mp h
  cases heq
  exact ⟨by simpa using List.find?_some hfind, rfl⟩

/-- What a call on the descriptors has to do: end with the references it stores. -/
abbrev Keeps (ofile : Ofile) (c : C Ofile) : Prop :=
  Safe logic (fun ofile' r => r = owned ofile') c (owned ofile)

theorem sysOpen_keeps : Keeps ofile (sysOpen ofile) := by
  have hsame : ∀ {r : Tokens}, r = owned ofile → Safe logic (fun ofile' r => r = owned ofile')
      (pure ofile : C Ofile) r := fun h => h
  unfold Keeps sysOpen
  rw [← zero_add (owned ofile)]
  refine safe_call (safe_same fun x s b t hx => by cases hx; rfl) ?_
  rintro b r rfl
  cases b with
  | false => exact hsame (zero_add _)
  | true =>
    refine safe_call safe_filealloc ?_
    rintro (_ | f) r rfl
    · refine safe_call safe_iput ?_
      rintro _ r rfl
      exact hsame (zero_add _)
    · change Safe logic _ _ ({.new f} + owned ofile)
      cases hfd : fdalloc ofile f with
      | none =>
        simp only [hfd]
        refine safe_call (safe_fileclose (Or.inr rfl)) ?_
        rintro _ r rfl
        refine safe_call safe_iput ?_
        rintro _ r rfl
        exact hsame (zero_add _)
      | some p =>
        simp only [hfd]
        obtain ⟨hnone, heq⟩ := fdalloc_some hfd
        refine safe_call safe_setInode ?_
        rintro _ r rfl
        change _ = owned p.2
        rw [heq, owned_set hnone]

theorem sysDup_keeps (n : ℤ) : Keeps ofile (sysDup ofile n) := by
  unfold Keeps sysDup
  cases hn : argfd ofile n with
  | none => exact rfl
  | some p =>
    have hfile := owned_clear (argfd_some hn)
    cases hfd : fdalloc ofile p.2 with
    | none =>
      simp only [hfd]
      exact rfl
    | some p' =>
      simp only [hfd]
      obtain ⟨hnone, heq⟩ := fdalloc_some hfd
      rw [hfile]
      refine safe_call safe_filedup ?_
      rintro _ r rfl
      change _ = owned p'.2
      rw [heq, owned_set hnone, add_assoc, ← hfile]

theorem sysClose_keeps (n : ℤ) : Keeps ofile (sysClose ofile n) := by
  unfold Keeps sysClose
  cases hn : argfd ofile n with
  | none => exact rfl
  | some p =>
    rw [owned_clear (argfd_some hn)]
    refine safe_call (safe_fileclose (Or.inl rfl)) ?_
    rintro _ r rfl
    exact zero_add _

theorem sysPipe_keeps : Keeps ofile (sysPipe ofile) := by
  unfold Keeps sysPipe
  rw [← zero_add (owned ofile)]
  refine safe_call safe_pipealloc ?_
  rintro (_ | ⟨rf, wf⟩) r rfl
  · exact zero_add _
  have hboth : ∀ ofile', owned ofile' = owned ofile →
      Safe logic (fun ofile' r => r = owned ofile') (do
        fileclose rf
        fileclose wf
        pure ofile') ({.ref rf} + {.ref wf} + owned ofile) := fun ofile' heq => by
    rw [add_assoc]
    refine safe_call (safe_fileclose (Or.inl rfl)) ?_
    rintro _ r rfl
    rw [zero_add]
    refine safe_call (safe_fileclose (Or.inl rfl)) ?_
    rintro _ r rfl
    rw [zero_add]
    exact heq.symm
  change Safe logic _ _ ({.ref rf} + {.ref wf} + owned ofile)
  cases hfd : fdalloc ofile rf with
  | none =>
    simp only [hfd]
    exact hboth ofile rfl
  | some p =>
    obtain ⟨hnone, heq⟩ := fdalloc_some hfd
    cases hfd' : fdalloc p.2 wf with
    | none =>
      simp only [hfd, hfd']
      refine hboth _ ?_
      rw [heq, update_idem, ← hnone, update_eq_self]
    | some p' =>
      obtain ⟨hnone', heq'⟩ := fdalloc_some hfd'
      simp only [hfd, hfd']
      change _ = owned p'.2
      rw [heq', owned_set hnone', heq, owned_set hnone]
      abel

end

section
variable {i np : Slot} {ofile : Ofile}

theorem safe_allocproc :
    Safe logic (fun b r => (b = none ∧ r = 0) ∨ ∃ np, b = some (np, fun _ => none) ∧
      r = {.embryo np false}) (op .allocproc) 0 := by
  refine safe_op fun R s x b t hs hx => ?_
  rw [zero_add] at hs
  simp only [exec] at hx
  split at hx
  · cases hx
    exact ⟨0, by rwa [zero_add], Or.inl ⟨rfl, rfl⟩⟩
  · rename_i np hnp
    have hunused := List.find?_some hnp
    obtain ⟨hofile, hs'⟩ := hs.allocproc (i := np) (by simpa using hunused)
    cases hx
    exact ⟨_, hs', Or.inr ⟨np, by rw [hofile], rfl⟩⟩

theorem safe_copyuvm :
    Safe logic (fun b r => r = {.embryo np b}) (op (.copyuvm np)) {.embryo np false} := by
  refine safe_op fun R s x b t hs hx => ?_
  cases x with
  | none =>
    cases hx
    exact ⟨_, hs, rfl⟩
  | some g =>
    simp only [exec] at hx
    split_ifs at hx with hfree
    cases hx
    exact ⟨_, hs.copyuvm hfree, rfl⟩

theorem safe_unused :
    Safe logic (fun _ r => r = 0) (op (.unused np fun _ => none)) {.embryo np false} := by
  refine safe_op fun R s x b t hs hx => ?_
  cases hx
  exact ⟨0, by rw [zero_add]; exact hs.unused, rfl⟩

theorem safe_runnable : Safe logic (fun _ r => r = 0) (op (.runnable np i ofile))
    ({.embryo np true} + owned ofile) := by
  refine safe_op fun R s x b t hs hx => ?_
  cases hx
  exact ⟨0, by rw [zero_add]; exact hs.runnable, rfl⟩

/-- Every descriptor that the child gets comes with a reference of its own. -/
theorem safe_dupTurns (ofile : Ofile) (l : List (Fin NOFILE)) (hl : l.Nodup) (nofile : Ofile)
    (hnone : ∀ fd ∈ l, nofile fd = none) :
    Safe logic (fun nofile r => r = owned ofile + owned nofile) (l.foldlM (dupTurn ofile) nofile)
      (owned ofile + owned nofile) := by
  have hloop := Safe.foldlM (L := logic) (g := dupTurn ofile)
    (J := fun l nofile r => l.Nodup ∧ (∀ fd ∈ l, nofile fd = none) ∧
      r = owned ofile + owned nofile) ?_ l nofile ⟨hl, hnone, rfl⟩
  · exact hloop.mono fun nofile r h => h.2.2
  rintro fd l nofile r ⟨hl, hnone, rfl⟩
  rw [nodup_cons] at hl
  unfold dupTurn
  cases hfd : ofile fd with
  | none => exact ⟨hl.2, fun fd' hfd' => hnone fd' (mem_cons_of_mem _ hfd'), rfl⟩
  | some f =>
    have hfile := owned_clear hfd
    rw [show owned ofile + owned nofile = {.ref f} + (owned (update ofile fd none) +
      owned nofile) by rw [hfile, add_assoc]]
    refine safe_call safe_filedup ?_
    rintro _ r rfl
    refine ⟨hl.2, fun fd' hfd' => ?_, ?_⟩
    · have hne : fd' ≠ fd := fun heq => hl.1 (heq ▸ hfd')
      rw [update_of_ne hne]
      exact hnone fd' (mem_cons_of_mem _ hfd')
    · rw [owned_set (hnone fd mem_cons_self), hfile]
      abel

theorem safe_fork : Safe logic (fun _ r => r = owned ofile) (fork i ofile) (owned ofile) := by
  unfold fork
  rw [← zero_add (owned ofile)]
  refine safe_call safe_allocproc ?_
  rintro b r (⟨rfl, rfl⟩ | ⟨np, rfl, rfl⟩)
  · exact rfl
  have hfail : Safe logic (fun _ r => r = 0 + owned ofile) (op (.unused np fun _ => none))
      ({.embryo np false} + owned ofile) :=
    (safe_unused.frame (fun _ _ _ _ => trivial) _).mono fun _ r h => by
      obtain ⟨q, rfl, rfl⟩ := h
      rfl
  change Safe logic _ (op .kstack >>= _) _
  rw [← zero_add ({.embryo np false} + owned ofile : Tokens)]
  refine safe_call (safe_same fun x s b t hx => by cases hx; rfl) ?_
  rintro b r rfl
  rw [zero_add ({.embryo np false} + owned ofile : Tokens)]
  cases b with
  | false => exact hfail
  | true =>
    refine safe_call safe_copyuvm ?_
    rintro b r rfl
    cases b with
    | false => exact hfail
    | true =>
      have hdup := safe_dupTurns ofile (List.finRange NOFILE) (nodup_finRange _)
        (fun _ => none) fun _ _ => rfl
      rw [owned_none, add_zero] at hdup
      rw [add_comm ({.embryo np true} : Tokens)]
      refine safe_call hdup ?_
      rintro nofile r rfl
      rw [show owned ofile + owned nofile + {.embryo np true} =
        {.embryo np true} + owned nofile + owned ofile by abel]
      exact (safe_runnable.frame (fun _ _ _ _ => trivial) _).mono fun _ r h => by
        obtain ⟨q, rfl, rfl⟩ := h
        rfl

theorem safe_closeTurns :
    Safe logic (fun ofile r => ofile = (fun _ => none) ∧ r = 0)
      ((List.finRange NOFILE).foldlM closeTurn ofile) (owned ofile) := by
  have hloop := Safe.foldlM (L := logic) (g := closeTurn) (J := fun l ofile r =>
    (∀ fd ∉ l, ofile fd = none) ∧ r = owned ofile) ?_ (List.finRange NOFILE) ofile
    ⟨fun fd hfd => absurd (mem_finRange fd) hfd, rfl⟩
  · refine hloop.mono fun ofile r h => ?_
    have hall : ofile = fun _ => none := funext fun fd => h.1 fd not_mem_nil
    exact ⟨hall, by rw [h.2, hall, owned_none]⟩
  rintro fd l ofile r ⟨hnone, rfl⟩
  unfold closeTurn
  cases hfd : ofile fd with
  | none =>
    refine ⟨fun fd' hfd' => ?_, rfl⟩
    by_cases heq : fd' = fd
    · rw [heq, hfd]
    · exact hnone fd' (by simp [heq, hfd'])
  | some f =>
    rw [owned_clear hfd]
    refine safe_call (safe_fileclose (Or.inl rfl)) ?_
    rintro _ r rfl
    refine ⟨fun fd' hfd' => ?_, zero_add _⟩
    by_cases heq : fd' = fd
    · rw [heq, update_self]
    · rw [update_of_ne heq]
      exact hnone fd' (by simp [heq, hfd'])

theorem safe_exit : Safe logic (fun _ r => r = 0) (exit i ofile) (owned ofile + {.self i}) := by
  unfold exit
  split_ifs
  · exact rfl
  refine safe_call safe_closeTurns ?_
  rintro ofile r ⟨rfl, rfl⟩
  refine safe_call safe_iput ?_
  rintro _ r rfl
  rw [zero_add]
  refine safe_op fun R s x b t hs hx => ?_
  cases hx
  exact ⟨0, by rw [zero_add]; exact hs.zombie, rfl⟩

theorem safe_reap : Safe logic (fun _ r => r = 0) (op (.reap i)) 0 := by
  refine safe_op fun R s x b t hs hx => ⟨0, ?_, rfl⟩
  rw [zero_add] at hs ⊢
  cases x with
  | none =>
    cases hx
    exact hs
  | some n =>
    simp only [exec] at hx
    split_ifs at hx with hn hchild
    cases hx
    exact hs.reap hchild.2

theorem safe_leave :
    Safe logic (fun _ r => r = 0) (op (.leave i ofile)) (owned ofile + {.self i}) := by
  refine safe_op fun R s x b t hs hx => ⟨0, ?_, rfl⟩
  cases hx
  rw [zero_add]
  rw [add_comm (owned ofile)] at hs
  exact hs.leave

theorem safe_body (i : Slot) (c : Call) : Safe logic (fun _ r => r = 0) (body i c) 0 := by
  refine (safe_op (o := .enter i) (Q := fun (ofile : Ofile) r => r = owned ofile + {.self i})
    ?_).bind ?_
  · intro R s x b t hs hx
    simp only [exec] at hx
    split_ifs at hx with hrun
    cases hx
    rw [zero_add] at hs
    exact ⟨_, hs.enter hrun.1 hrun.2, add_comm _ _⟩
  rintro ofile r rfl
  have hdone : ∀ {c : C Ofile}, Keeps ofile c → Safe logic (fun _ r => r = 0)
      (c >>= fun ofile => op (.leave i ofile)) (owned ofile + {.self i}) := fun h =>
    safe_call h fun ofile' r hr => by rw [hr]; exact safe_leave
  cases c with
  | sysOpen => exact hdone sysOpen_keeps
  | sysDup fd => exact hdone (sysDup_keeps fd)
  | sysClose fd => exact hdone (sysClose_keeps fd)
  | sysPipe => exact hdone sysPipe_keeps
  | fork => exact safe_call safe_fork fun _ r hr => by rw [hr]; exact safe_leave
  | exit => exact safe_exit
  | wait =>
    rw [← zero_add (owned ofile + {.self i})]
    refine safe_call safe_reap ?_
    rintro _ r rfl
    rw [zero_add]
    exact safe_leave

end

theorem inv_boot : Inv boot 0 := by
  constructor
  · constructor
    · intro f
      simp [boot, tabled, entries]
    · intro f _
      rfl
    · intro f hf
      simp at hf
    · intro p w
      simp [boot, endFiles]
    · intro p
      simp [boot]
  · constructor
    · intro j
      by_cases hj : j = initproc
      · constructor <;> simp [boot, hj]
      · constructor <;> simp [boot, hj]
    · intro j k hj hk _
      simp only [boot, decide_eq_true_eq] at hj hk
      rw [hj, hk]

theorem Reachable.inv {s : Sys} (h : Reachable s) : Atomic.Inv logic s :=
  Inv.of_reach safe_body (fun s hs => ⟨by rw [hs.1]; exact inv_boot, hs.2⟩) h

section
variable {s : Table}

theorem Inv.not_held (h : Inv s 0) (j : Slot) : s.held j = false := by
  have hslot := h.proc.slot j
  have hself := hslot.self
  have hembryo := hslot.embryo (s.mapped j)
  simp only [Multiset.count_zero] at hself hembryo
  cases hstate : (s.proc j).state with
  | UNUSED => exact (hslot.idle (Or.inl hstate)).1
  | ZOMBIE => exact (hslot.idle (Or.inr hstate)).1
  | RUNNABLE => simpa [hstate] using hself
  | EMBRYO => simp [hstate] at hembryo

theorem Inv.ref_eq (h : Inv s 0) (f : FileIx) : (s.file f).ref = ∑ j,
    entries (s.proc j).ofile f := by
  have hrefs := h.file.refs f
  simp only [tabled, h.not_held] at hrefs
  simpa using hrefs

theorem entries_eq_zero {ofile : Ofile} {f : FileIx} :
    entries ofile f = 0 ↔ ∀ fd, ofile fd ≠ some f := by
  simp [entries, filter_eq_empty_iff]

/-- While no call has the end of a pipe in hand, the end is open as long as it has a file. -/
theorem Inv.open_iff (h : Inv s 0) {p : ℕ} (hp : p < s.npipe) (w : Bool) :
    (s.pipe p).isOpen w = true ↔ ∃ f, 0 < (s.file f).ref ∧ (s.file f).type = .FD_PIPE p w := by
  have hends := h.file.ends p w
  simp only [hp, true_and, Multiset.count_zero, add_zero] at hends
  constructor
  · intro hopen
    rw [if_pos hopen] at hends
    obtain ⟨f, -, hf⟩ := exists_ne_zero_of_sum_ne_zero (hends ▸ one_ne_zero)
    have htype : (s.file f).type = .FD_PIPE p w := by
      by_contra hno
      exact hf (if_neg hno)
    refine ⟨f, Nat.pos_of_ne_zero fun hzero => ?_, htype⟩
    rw [h.file.closed f hzero] at htype
    cases htype
  · rintro ⟨f, -, hf⟩
    by_contra hno
    rw [if_neg hno] at hends
    have hzero := (Finset.sum_eq_zero_iff.mp hends) f (Finset.mem_univ f)
    rw [if_pos hf] at hzero
    cases hzero

end

/-- The counts of the table of open files, and the pages of pipes. -/
theorem open_files_counted {s : Sys} (h : Reachable s) :
    (∀ t, s.code t ≠ some (.panic "filedup") ∧ s.code t ≠ some (.panic "fileclose")) ∧
    (∀ p, (s.shared.pipe p).freed ≤ 1 ∧ ((s.shared.pipe p).freed = 1 →
      (s.shared.pipe p).readopen = false ∧ (s.shared.pipe p).writeopen = false)) ∧
    ((∀ t, s.code t = none) →
      (∀ f, (s.shared.file f).ref = ∑ j, entries (s.shared.proc j).ofile f) ∧
      (∀ f, (s.shared.file f).ref = 0 → ∀ j fd, (s.shared.proc j).ofile fd ≠ some f) ∧
      (∀ p < s.shared.npipe,
        ((s.shared.pipe p).readopen = true ↔
          ∃ f, 0 < (s.shared.file f).ref ∧ (s.shared.file f).type = .FD_PIPE p false) ∧
        ((s.shared.pipe p).writeopen = true ↔
          ∃ f, 0 < (s.shared.file f).ref ∧ (s.shared.file f).type = .FD_PIPE p true) ∧
        (s.shared.pipe p).freed =
          if (s.shared.pipe p).readopen = false ∧ (s.shared.pipe p).writeopen = false then 1
          else 0)) := by
  have hinv := h.inv
  refine ⟨fun t => ⟨fun ht => ?_, fun ht => ?_⟩, fun p => ?_, fun hquiet => ?_⟩
  · exact absurd (hinv.panics ht) (show "filedup" ≠ "init exiting" by decide)
  · exact absurd (hinv.panics ht) (show "fileclose" ≠ "init exiting" by decide)
  · obtain ⟨own, hs, -⟩ := hinv
    have hfreed := hs.file.freed p
    split_ifs at hfreed with hboth
    · exact ⟨by omega, fun _ => hboth.2⟩
    · exact ⟨by omega, fun hone => by omega⟩
  · have hs : Inv s.shared 0 := hinv.quiet hquiet
    refine ⟨hs.ref_eq, fun f hf j => ?_, fun p hp => ⟨hs.open_iff hp false, hs.open_iff hp true,
      ?_⟩⟩
    · rw [hs.ref_eq, Finset.sum_eq_zero_iff] at hf
      exact entries_eq_zero.mp (hf j (mem_univ j))
    · simpa [hp] using hs.file.freed p

/-- A pipe, a child that inherits it, and both ends closed twice. -/
theorem open_files_counted_pipe : ∃ s : Sys, Reachable s ∧ (∀ t, s.code t = none) ∧
    s.shared.npipe = 1 ∧ (s.shared.pipe 0).readopen = false ∧ (s.shared.pipe 0).writeopen = false ∧
    (s.shared.pipe 0).freed = 1 := by
  have hstart : Reachable ⟨boot, fun _ => none⟩ := .start ⟨rfl, fun _ => rfl⟩
  let go (t : Slot) (n : ℕ) : List Act := List.replicate n (.go t none)
  obtain ⟨s, hs, hp⟩ := Reach.exists_of_execs (fun _ _ => true) (Atomic.step body can)
    (fun s => (List.finRange NPROC).all (fun t => (s.code t).isNone) && s.shared.npipe == 1 &&
      !(s.shared.pipe 0).readopen && !(s.shared.pipe 0).writeopen)
    (fun _ _ _ => trivial) (fun _ _ _ h => h)
    ([.call 0 .sysPipe] ++ go 0 3 ++ [.go 0 (some 0)] ++ go 0 3 ++ [.ret 0] ++
      [.call 0 .fork] ++ go 0 2 ++ [.go 0 (some 0), .go 0 (some 7)] ++ go 0 4 ++ [.ret 0] ++
      [.call 0 (.sysClose 0), .call 1 (.sysClose 1), .go 0 none, .go 1 none, .go 0 none, .go 1 none,
        .go 1 none, .go 0 none, .ret 0, .ret 1] ++
      [.call 1 .exit] ++ go 1 5 ++ [.ret 1] ++
      [.call 0 (.sysClose 1)] ++ go 0 5 ++ [.ret 0] ++
      [.call 0 .wait, .go 0 none, .go 0 (some 1), .go 0 none, .ret 0]) hstart (by decide +kernel)
  simp only [Bool.and_eq_true, all_eq_true, Option.isNone_iff_eq_none, beq_iff_eq,
    Bool.not_eq_true'] at hp
  obtain ⟨⟨⟨hquiet, hone⟩, hr⟩, hw⟩ := hp
  have hq : ∀ t, s.code t = none := fun t => hquiet t (mem_finRange t)
  obtain ⟨-, -, hend⟩ := open_files_counted hs
  obtain ⟨-, -, hpipes⟩ := hend hq
  have hfreed := (hpipes 0 (by omega)).2.2
  rw [if_pos ⟨hr, hw⟩] at hfreed
  exact ⟨s, hs, hq, hone, hr, hw, hfreed⟩

end Xv6Threads.OpenFiles
