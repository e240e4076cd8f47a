import Xv6Threads.Descriptors
import Xv6Threads.Lineage
import Xv6Threads.Survival

namespace Xv6Threads.Files

open ProcTable

/-- The machine with a number for the process each slot belongs to. -/
structure Shared where
  s : Sys
  family : Slot → ℕ
  next : ℕ

def Shared.lineage (x : Shared) : Lineage := ⟨x.s.k, x.family, x.next⟩

def Shared.follow (x : Shared) (a : Act) (s' : Sys) : Shared :=
  match a with
  | .table a _ => ⟨s', (x.lineage.follow a s'.k).family, (x.lineage.follow a s'.k).next⟩
  | _ => { x with s := s' }

/-- Slot `i` is the only running thread of its process. -/
def Shared.Alone (x : Shared) (i : Slot) : Prop :=
  ∀ q, q ≠ i → (x.s.k.proc q).state.Runs → x.family q ≠ x.family i

/-- Slots are freed without open descriptors, and a call that changes the descriptors of its
caller is only made by the one running thread of a process. -/
def Apart (x : Shared) (a : Act) : Prop :=
  Tidy x.s a ∧ ∀ i ∈ a.caller, ∀ s', step x.s a = some s' →
    (s'.k.proc i).ofile ≠ (x.s.k.proc i).ofile → x.Alone i

/-- The running threads of a process have the same descriptors. -/
def Shared.Agree (x : Shared) : Prop :=
  ∀ p q, (x.s.k.proc p).state.Runs → (x.s.k.proc q).state.Runs → x.family p = x.family q →
    (x.s.k.proc p).ofile = (x.s.k.proc q).ofile

def Shared.start (x : Shared) : Prop := init x.s ∧ x.family = (fun _ => 0) ∧ x.next = 1

abbrev SharedReachable (ok : Shared → Act → Prop) : Shared → Prop :=
  Reach Shared.start ok fun x a x' => ∃ s', step x.s a = some s' ∧ x' = x.follow a s'

/-- A slot that is being made has a number of its own until `clone` ties it to its creator. -/
structure Kin (x : Shared) : Prop where
  clean : Clean x.s.k
  bound : ∀ q, x.family q < x.next
  lone : ∀ i s np, x.s.k.view.Live i → x.s.k.view.hold i = some (s, np) → s.tied = false →
    ∀ q, q ≠ np → x.family q ≠ x.family np
  tied : ∀ i s np, x.s.k.view.Live i → x.s.k.view.hold i = some (s, np) → s.tied = true →
    x.family np = x.family i
  agree : x.Agree

variable {x : Shared} {s' : Sys} {i p q np : Slot}

theorem family_cases (x : Shared) (a : ProcTable.Act) (page : ℕ) (s' : Sys) (q : Slot) :
    ((x.s.k.proc q).state = .UNUSED ∧ (s'.k.proc q).state = .EMBRYO ∧
      (x.follow (.table a page) s').family q = x.next) ∨
    (∃ i, tiedBy x.s.k a = some (i, q) ∧ (x.follow (.table a page) s').family q = x.family i) ∨
    (x.follow (.table a page) s').family q = x.family q := by
  by_cases hfresh : (x.s.k.proc q).state = .UNUSED ∧ (s'.k.proc q).state = .EMBRYO
  · exact .inl ⟨hfresh.1, hfresh.2, if_pos hfresh⟩
  · cases htied : tiedBy x.lineage.k a with
    | none =>
      refine .inr (.inr ((if_neg hfresh).trans ?_))
      rw [htied]
      rfl
    | some e =>
      obtain ⟨i, np⟩ := e
      by_cases hq : q = np
      · subst hq
        refine .inr (.inl ⟨i, htied, (if_neg hfresh).trans ?_⟩)
        rw [htied]
        exact if_pos rfl
      · refine .inr (.inr ((if_neg hfresh).trans ?_))
        rw [htied]
        exact if_neg hq

theorem Kin.family_live (h : Kin x) {a : ProcTable.Act} {page : ℕ}
    (hstep : step x.s (.table a page) = some s') (hq : x.s.k.view.Live q) :
    (x.follow (.table a page) s').family q = x.family q := by
  obtain ⟨es, hk⟩ := step_table hstep
  rcases family_cases x a page s' q with ⟨hu, -, -⟩ | ⟨i, htied, -⟩ | heq
  · exact absurd rfl (hq.ne_unused (phase_unused.mpr hu))
  · obtain ⟨-, hi, hold, -⟩ := tiedBy_cases hk htied
    exact absurd rfl ((h.clean.sane.held i _ q (running_live hi) hold).ne_live hq)
  · exact heq

theorem Kin.family_held (h : Kin x) {a : ProcTable.Act} {page : ℕ} {st : Stage}
    (hstep : step x.s (.table a page) = some s') (hi : x.s.k.view.Live i)
    (hold : x.s.k.view.hold i = some (st, np)) (htied : tiedBy x.s.k a ≠ some (i, np)) :
    (x.follow (.table a page) s').family np = x.family np := by
  obtain ⟨es, hk⟩ := step_table hstep
  have hheld := h.clean.sane.held i st np hi hold
  rcases family_cases x a page s' np with ⟨hu, -, -⟩ | ⟨j, hj, -⟩ | heq
  · exact absurd rfl (hheld.ne_unused (phase_unused.mpr hu))
  · obtain ⟨-, hrun, hjold, -⟩ := tiedBy_cases hk hj
    obtain rfl := h.clean.sane.unique i j _ _ np hi (running_live hrun) hold hjold
    exact absurd hj htied
  · exact heq

/-- The number a slot has after a step is new, or that of a slot before the step. -/
theorem family_from {a : ProcTable.Act} {page : ℕ}
    (hstep : step x.s (.table a page) = some s') (q : Slot) :
    (x.follow (.table a page) s').family q = x.next ∨
    ∃ p, (p = q ∨ x.s.k.view.Live p) ∧ (x.follow (.table a page) s').family q = x.family p := by
  obtain ⟨es, hk⟩ := step_table hstep
  rcases family_cases x a page s' q with ⟨-, -, heq⟩ | ⟨i, htied, heq⟩ | heq
  · exact .inl heq
  · obtain ⟨-, hi, -⟩ := tiedBy_cases hk htied
    exact .inr ⟨i, .inr (running_live hi), heq⟩
  · exact .inr ⟨q, .inl rfl, heq⟩

section
variable {a : ProcTable.Act} {page : ℕ} (h : Kin x) (hstep : step x.s (.table a page) = some s')
include h hstep

theorem Kin.lone_next {st : Stage} (hi : s'.k.view.Live i)
    (hs : s'.k.view.hold i = some (st, np)) (hbare : st.tied = false) (hq : q ≠ np) :
    (x.follow (.table a page) s').family q ≠ (x.follow (.table a page) s').family np := by
  obtain ⟨es, hk⟩ := step_table hstep
  have hsane := h.clean.sane
  obtain ⟨hlive, hold | ⟨-, hu, hembryo, hsame⟩ | ⟨rfl, -⟩ | ⟨rfl, -⟩⟩ :=
    hsane.hold_cases (step_move hk) hi hs
  · have hnp : (x.follow (.table a page) s').family np = x.family np := by
      apply h.family_held hstep hlive hold
      intro htied
      obtain ⟨-, -, -, hnamed⟩ := tiedBy_cases hk htied
      rw [hnamed] at hs
      obtain ⟨rfl, -⟩ := some_pair.mp hs
      cases hbare
    rw [hnp]
    rcases family_from hstep q with heq | ⟨p, hp, heq⟩
    · have hb := h.bound np
      omega
    · rw [heq]
      apply h.lone i st np hlive hold hbare
      rcases hp with rfl | hp
      · exact hq
      · exact ((hsane.held i st np hlive hold).ne_live hp).symm
  · -- the slot is new, and so is its number
    have hnp : (x.follow (.table a page) s').family np = x.next :=
      if_pos ⟨phase_unused.mp hu, phase_embryo.mp hembryo⟩
    rw [hnp]
    rcases family_cases x a page s' q with ⟨hqu, hqe, -⟩ | ⟨j, -, heq⟩ | heq
    · have hnode : (s'.k.proc q).node = (x.s.k.proc q).node := hsame q hq
      have hphase := congrArg Node.phase hnode
      rw [node_phase, node_phase, hqu, hqe] at hphase
      cases hphase
    · have hb := h.bound j
      omega
    · have hb := h.bound q
      omega
  · cases hbare
  · cases hbare

theorem Kin.tied_next {st : Stage} (hi : s'.k.view.Live i)
    (hs : s'.k.view.hold i = some (st, np)) (htied : st.tied = true) :
    (x.follow (.table a page) s').family np = (x.follow (.table a page) s').family i := by
  obtain ⟨es, hk⟩ := step_table hstep
  have hsane := h.clean.sane
  obtain ⟨hlive, hold | ⟨hbare, -⟩ | ⟨-, hold, rfl⟩ | ⟨rfl, hold, rfl⟩⟩ :=
    hsane.hold_cases (step_move hk) hi hs
  · rw [h.family_live hstep hlive, h.family_held hstep hlive hold]
    · exact h.tied i st np hlive hold htied
    · intro hby
      obtain ⟨-, -, halloc, -⟩ := tiedBy_cases hk hby
      rw [hold] at halloc
      obtain ⟨rfl, -⟩ := some_pair.mp halloc
      cases htied
  · rw [hbare] at htied
    cases htied
  · rw [h.family_live hstep hlive]
    have hused : ¬((x.s.k.proc np).state = .UNUSED ∧ (s'.k.proc np).state = .EMBRYO) := fun hu =>
      (hsane.held i _ np hlive hold).ne_unused (phase_unused.mpr hu.1) rfl
    refine (if_neg hused).trans ?_
    rw [show tiedBy x.lineage.k (.clonePid i) = _ from tiedBy_clonePid hold]
    exact if_pos rfl
  · rw [h.family_live hstep hlive, h.family_held hstep hlive hold]
    · exact h.tied i .named np hlive hold rfl
    · intro hby
      cases hby

/-- A process that runs after a step has number and descriptors of one that ran before, or was
made by `fork` and has a number of its own. -/
theorem Kin.like (hq : s'.k.view.Live q) :
    (∃ p, x.s.k.view.Live p ∧ (s'.k.proc q).ofile = (x.s.k.proc p).ofile ∧
      (x.follow (.table a page) s').family q = x.family p) ∨
    ∀ p ≠ q, (x.follow (.table a page) s').family p ≠ (x.follow (.table a page) s').family q := by
  obtain ⟨es, hk⟩ := step_table hstep
  have hsane := h.clean.sane
  rcases live_cases hsane (step_move hk) hq with hlive | ⟨i, st, hi, hold, hst⟩
  · exact .inl ⟨q, hlive, h.clean.ofile_live hk hlive hq, h.family_live hstep hlive⟩
  have hnot : tiedBy x.s.k a ≠ some (i, q) := by
    intro hby
    obtain ⟨-, -, halloc, -⟩ := tiedBy_cases hk hby
    rw [hold] at halloc
    rcases hst with rfl | ⟨rfl, -⟩ <;> cases halloc
  rcases hst with rfl | ⟨rfl, -⟩
  · right
    intro p hp
    rw [h.family_held hstep hi hold hnot]
    rcases family_from hstep p with heq | ⟨r, hr, heq⟩
    · have hb := h.bound q
      omega
    · rw [heq]
      apply h.lone i .fork q hi hold rfl
      rcases hr with rfl | hr
      · exact hp
      · exact ((hsane.held i _ q hi hold).ne_live hr).symm
  · left
    refine ⟨i, hi, ?_, ?_⟩
    · rw [h.clean.ofile_held hk hi hold (.inl rfl)]
      exact h.clean.tied i _ q hi hold rfl
    · rw [h.family_held hstep hi hold hnot]
      exact h.tied i _ q hi hold rfl

end

theorem Kin.table {a : ProcTable.Act} {page : ℕ} (h : Kin x) (hok : Tidy x.s (.table a page))
    (hstep : step x.s (.table a page) = some s') : Kin (x.follow (.table a page) s') := by
  obtain ⟨es, hk⟩ := step_table hstep
  refine ⟨h.clean.next hk hok, ?_, ?_, ?_, ?_⟩
  · intro q
    show _ < x.next + 1
    rcases family_from hstep q with heq | ⟨p, -, heq⟩
    · omega
    · have hp := h.bound p
      omega
  · exact fun i st np hi hs hbare q hq => h.lone_next hstep hi hs hbare hq
  · exact fun i st np hi hs htied => h.tied_next hstep hi hs htied
  · intro p q hp hq heq
    by_cases hpq : p = q
    · rw [hpq]
    · rw [runs_iff] at hp hq
      rcases h.like hstep hp with ⟨p', hp', hpo, hpf⟩ | hlone
      · rcases h.like hstep hq with ⟨q', hq', hqo, hqf⟩ | hlone
        · show (s'.k.proc p).ofile = (s'.k.proc q).ofile
          rw [hpo, hqo]
          exact h.agree p' q' ((runs_iff _ _).mpr hp') ((runs_iff _ _).mpr hq') (hpf ▸ hqf ▸ heq)
        · exact absurd heq (hlone p hpq)
      · exact absurd heq.symm (hlone q (Ne.symm hpq))

theorem follow_call {a : Act} (ha : a.caller = some i) : x.follow a s' = { x with s := s' } := by
  cases a with
  | table | pages => cases ha
  | _ => rfl

theorem runs_of_view {k k' : Kernel} (h : k'.view = k.view) (q : Slot) :
    (k'.proc q).state.Runs ↔ (k.proc q).state.Runs := by
  rw [runs_iff, runs_iff, h]

/-- After a call that changes its caller's descriptors, the threads agree exactly when there is
no other. -/
theorem Kin.agree_iff {a : Act} (h : Kin x) (hstep : step x.s a = some s') (ha : a.caller = some i)
    (hne : (s'.k.proc i).ofile ≠ (x.s.k.proc i).ofile) : (x.follow a s').Agree ↔ x.Alone i := by
  obtain ⟨hi, -, hk⟩ := step_rewrites hstep ha
  have hview := hk.view
  have hirun := (runs_iff _ _).mpr (running_live hi)
  rw [follow_call ha]
  constructor
  · intro hagree q hq hrun hf
    apply hne
    have hsame : (s'.k.proc q).ofile = (s'.k.proc i).ofile :=
      hagree q i ((runs_of_view hview q).mpr hrun) ((runs_of_view hview i).mpr hirun) hf
    rw [← hsame, hk.of_ne hq]
    exact h.agree q i hrun hirun hf
  · intro halone p q hp hq hf
    have hp := (runs_of_view hview p).mp hp
    have hq := (runs_of_view hview q).mp hq
    show (s'.k.proc p).ofile = (s'.k.proc q).ofile
    by_cases hpi : p = i <;> by_cases hqi : q = i
    · rw [hpi, hqi]
    · exact absurd (hpi ▸ hf.symm) (halone q hqi hq)
    · exact absurd (hqi ▸ hf) (halone p hpi hp)
    · rw [hk.of_ne hpi, hk.of_ne hqi]
      exact h.agree p q hp hq hf

theorem Kin.call {a : Act} (h : Kin x) (hok : Apart x a) (hstep : step x.s a = some s')
    (ha : a.caller = some i) : Kin (x.follow a s') := by
  obtain ⟨hi, hpc, hk⟩ := step_rewrites hstep ha
  have hview := hk.view
  have hagree : (x.follow a s').Agree := by
    by_cases hsame : (s'.k.proc i).ofile = (x.s.k.proc i).ofile
    · rw [follow_call ha]
      have hofile : ∀ q, (s'.k.proc q).ofile = (x.s.k.proc q).ofile := by
        intro q
        by_cases hq : q = i
        · rw [hq, hsame]
        · rw [hk.of_ne hq]
      intro p q hp hq hf
      show (s'.k.proc p).ofile = (s'.k.proc q).ofile
      rw [hofile, hofile]
      exact h.agree p q ((runs_of_view hview p).mp hp) ((runs_of_view hview q).mp hq) hf
    · exact (h.agree_iff hstep ha hsame).mpr (hok.2 i ha s' hstep hsame)
  rw [follow_call ha] at hagree ⊢
  refine ⟨h.clean.rewrites hi hpc hk, h.bound, ?_, ?_, hagree⟩
  · intro j st np hj hs
    rw [hview] at hj hs
    exact h.lone j st np hj hs
  · intro j st np hj hs
    rw [hview] at hj hs
    exact h.tied j st np hj hs

theorem reachable_kin (h : SharedReachable Apart x) : Kin x := by
  apply Reach.invariant (P := Kin) _ _ h
  · rintro x ⟨hs, hf, hnext⟩
    have hboot : x.s.k = ProcTable.boot := hs.1
    refine ⟨hboot ▸ clean_boot, ?_, ?_, ?_, ?_⟩
    · intro q
      rw [hf, hnext]
      exact Nat.one_pos
    · intro i st np _ hs
      rw [hboot] at hs
      cases hs
    · intro i st np _ hs
      rw [hboot] at hs
      cases hs
    · intro p q _ _ _
      have hnone : ∀ q, (ProcTable.boot.proc q).ofile = fun _ => none := by
        intro q
        by_cases hq : q = 0 <;> simp [ProcTable.boot, hq, unused]
      rw [hboot, hnone, hnone]
  · rintro x a x' hx hok ⟨s', hstep, rfl⟩
    cases hcaller : a.caller with
    | some i => exact hx.call hok hstep hcaller
    | none =>
      cases a with
      | table a page => exact hx.table hok.1 hstep
      | pages free =>
        obtain rfl := Option.some.inj hstep
        exact ⟨hx.clean, hx.bound, hx.lone, hx.tied, hx.agree⟩
      | _ => cases hcaller

def Shared.exec1 (x : Shared) (a : Act) : Option Shared := (step x.s a).map fun s' => x.follow a s'

theorem exists_shared (ok : Shared → Act → Prop) (okb : Shared → Act → Bool)
    (hok : ∀ x a, okb x a = true → ok x a) (p : Shared → Bool) (as : List Act)
    (h : (execs okb Shared.exec1 ⟨boot, fun _ => 0, 1⟩ as).any p = true) :
    ∃ x, SharedReachable ok x ∧ p x = true := by
  have hboot : SharedReachable ok ⟨boot, fun _ => 0, 1⟩ := .start ⟨⟨rfl, rfl, rfl, rfl⟩, rfl, rfl⟩
  apply Reach.exists_of_execs okb Shared.exec1 p hok _ as hboot h
  intro x a x' hs
  obtain ⟨s', hs', rfl⟩ := Option.map_eq_some_iff.mp hs
  exact ⟨s', hs', rfl⟩

instance (x : Shared) (i : Slot) : Decidable (x.Alone i) := inferInstanceAs (Decidable (∀ _, _))

end Xv6Threads.Files
