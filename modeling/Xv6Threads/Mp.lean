import Mathlib.Algebra.Group.Nat.Defs
import Mathlib.Tactic.Common

namespace Xv6Threads.Mp

open Function

abbrev Byte := BitVec 8
abbrev NCPU : ℕ := 8

abbrev MPPROC : Byte := 0
abbrev MPBUS : Byte := 1
abbrev MPIOAPIC : Byte := 2
abbrev MPIOINTR : Byte := 3
abbrev MPLINTR : Byte := 4
abbrev MPBOOT : Byte := 2

/-- `sizeof(struct mpconf)` -/
abbrev MPCONF : ℕ := 44

def length (conf : ℕ → Byte) : ℕ := (conf 4).toNat + 2 ^ 8 * (conf 5).toNat

def lapicaddr (conf : ℕ → Byte) : BitVec 32 := conf 39 ++ conf 38 ++ conf 37 ++ conf 36

def sum (addr : ℕ → Byte) : ℕ → Byte
  | 0 => 0
  | n + 1 => sum addr n + addr n

def mpconfig (conf : ℕ → Byte) : Bool :=
  [conf 0, conf 1, conf 2, conf 3] == [0x50, 0x43, 0x4D, 0x50] && (conf 6 == 1 || conf 6 == 4) &&
    sum conf (length conf) == 0

/-- The variables of `mp.c`; `bcpu` is an index. -/
structure Vars where
  ismp : Bool
  ncpu : ℕ
  bcpu : ℕ
  id : ℕ → Byte
  lapic : BitVec 32
  ioapicid : Byte

inductive Outcome
  | done (s : Vars)
  | overrun
  | running

/-- The processor at `p`. -/
def addCpu (conf : ℕ → Byte) (p : ℕ) (s : Vars) : Vars :=
  { s with
    ismp := s.ismp && s.ncpu == (conf (p + 1)).toNat
    bcpu := if conf (p + 3) &&& MPBOOT ≠ 0 then s.ncpu else s.bcpu
    id := update s.id s.ncpu (BitVec.ofNat 8 s.ncpu)
    ncpu := s.ncpu + 1 }

/-- One turn of the loop: `none` is a processor without a place in `cpus`. -/
def entry (conf : ℕ → Byte) (p : ℕ) (s : Vars) : Option (ℕ × Vars) :=
  if conf p = MPPROC then if s.ncpu < NCPU then some (p + 20, addCpu conf p s) else none
  else if conf p = MPIOAPIC then some (p + 8, { s with ioapicid := conf (p + 1) })
  else if conf p = MPBUS ∨ conf p = MPIOINTR ∨ conf p = MPLINTR then some (p + 8, s)
  -- `default` leaves the pointer where it is
  else some (p, { s with ismp := false })

/-- At most `n` turns of the loop. -/
def scan (conf : ℕ → Byte) : ℕ → ℕ → Vars → Outcome
  | 0, _, _ => .running
  | n + 1, p, s =>
    if p < length conf then
      match entry conf p s with
      | some (p, s) => scan conf n p s
      | none => .overrun
    else .done s

/-- `mpinit`, from the table on, with at most `n` turns of its loop. -/
def mpinit (conf : ℕ → Byte) (n : ℕ) (s : Vars) : Outcome :=
  match scan conf n MPCONF { s with bcpu := 0, ismp := true, lapic := lapicaddr conf } with
  | .done s => .done (if s.ismp then s else { s with ncpu := 1, lapic := 0, ioapicid := 0 })
  | r => r

/-- The scan from `p` meets known entries only, of which `l` are the processors. -/
inductive Entries (conf : ℕ → Byte) : ℕ → List ℕ → Prop
  | nil {p : ℕ} : length conf ≤ p → Entries conf p []
  | proc {p : ℕ} {l : List ℕ} : p < length conf → conf p = MPPROC → Entries conf (p + 20) l →
      Entries conf p (p :: l)
  | other {p : ℕ} {l : List ℕ} : p < length conf →
      conf p ∈ [MPBUS, MPIOAPIC, MPIOINTR, MPLINTR] → Entries conf (p + 8) l → Entries conf p l

/-- The `i`-th of the processors, counted from `n`, has another number. -/
def Mismatch (conf : ℕ → Byte) (n : ℕ) (l : List ℕ) : Prop :=
  ∃ i p, l[i]? = some p ∧ (conf (p + 1)).toNat ≠ n + i

variable {conf : ℕ → Byte}

theorem Mismatch.cons {n p : ℕ} {l : List ℕ} (h : Mismatch conf n (p :: l)) :
    n ≠ (conf (p + 1)).toNat ∨ Mismatch conf (n + 1) l := by
  obtain ⟨i, q, hq, hne⟩ := h
  cases i with
  | zero =>
    obtain rfl := Option.some.inj hq
    exact Or.inl hne.symm
  | succ i => exact Or.inr ⟨i, q, hq, by rwa [Nat.add_assoc, Nat.add_comm 1]⟩

theorem entry_other {p : ℕ} {s : Vars} (hp : conf p ∈ [MPBUS, MPIOAPIC, MPIOINTR, MPLINTR]) :
    ∃ s', entry conf p s = some (p + 8, s') ∧ s'.ncpu = s.ncpu ∧ s'.ismp = s.ismp := by
  simp only [List.mem_cons, List.not_mem_nil, or_false] at hp
  obtain hp | hp | hp | hp := hp <;> rw [entry, hp] <;> exact ⟨_, rfl, rfl, rfl⟩

/-- A scan of known entries ends, and has counted the processors. -/
theorem Entries.scan {p : ℕ} {l : List ℕ} (h : Entries conf p l) :
    ∀ s : Vars, s.ncpu + l.length ≤ NCPU →
      ∃ s', (∀ n, length conf - p < n → Mp.scan conf n p s = .done s') ∧
        s'.ncpu = s.ncpu + l.length ∧
        (s.ismp = false ∨ Mismatch conf s.ncpu l → s'.ismp = false) := by
  induction h with
  | nil hp =>
    intro s _
    refine ⟨s, fun n hn => ?_, rfl, fun h => h.resolve_right ?_⟩
    · cases n with
      | zero => omega
      | succ n => exact if_neg (by omega)
    · rintro ⟨i, q, hq, -⟩
      cases hq
  | @proc p l hp htype _ ih =>
    intro s hs
    rw [List.length_cons] at hs
    obtain ⟨s', hscan, hncpu, hismp⟩ := ih (addCpu conf p s) (by dsimp only [addCpu]; omega)
    refine ⟨s', fun n hn => ?_, by rw [hncpu, List.length_cons]; dsimp only [addCpu]; omega,
      fun h => hismp ?_⟩
    · cases n with
      | zero => omega
      | succ n =>
        rw [Mp.scan, if_pos hp, entry, if_pos htype, if_pos (by omega)]
        exact hscan n (by omega)
    · dsimp only [addCpu]
      obtain h | h := h
      · exact Or.inl (by rw [h, Bool.false_and])
      · obtain h | h := h.cons
        · exact Or.inl (by rw [beq_false_of_ne h, Bool.and_false])
        · exact Or.inr h
  | other hp htype _ ih =>
    intro s hs
    obtain ⟨t, hentry, hncpu, hismp⟩ := entry_other (s := s) htype
    obtain ⟨s', hscan, hncpu', hismp'⟩ := ih t (by omega)
    refine ⟨s', fun n hn => ?_, by omega, by rwa [hncpu, hismp] at hismp'⟩
    cases n with
    | zero => omega
    | succ n =>
      rw [Mp.scan, if_pos hp, hentry]
      exact hscan n (by omega)

theorem Entries.known {p : ℕ} {l : List ℕ} (h : Entries conf p l) (hp : p < length conf) :
    conf p ∈ [MPPROC, MPBUS, MPIOAPIC, MPIOINTR, MPLINTR] := by
  cases h with
  | nil hle => omega
  | proc _ htype _ =>
    rw [htype]
    exact List.mem_cons_self
  | other _ htype _ => exact List.mem_cons_of_mem MPPROC htype

/-- A scan that ends has met known entries only, and has found a place for every processor. -/
theorem entries_of_scan (n : ℕ) : ∀ {p : ℕ} {s s' : Vars}, scan conf n p s = .done s' →
    ∃ l, Entries conf p l ∧ (s.ncpu ≤ NCPU → s.ncpu + l.length ≤ NCPU) := by
  induction n with
  | zero =>
    intro p s s' h
    cases h
  | succ n ih =>
    intro p s s' h
    rw [scan] at h
    split_ifs at h with hp
    · cases hentry : entry conf p s with
      | none =>
        rw [hentry] at h
        cases h
      | some r =>
        rw [hentry] at h
        obtain ⟨l, hl, hcount⟩ := ih h
        unfold entry at hentry
        split_ifs at hentry with hproc hplace hioapic hother
        · obtain rfl := Option.some.inj hentry
          refine ⟨p :: l, .proc hp hproc hl, fun _ => ?_⟩
          have hle := hcount hplace
          rw [List.length_cons]
          dsimp only [addCpu] at hle
          omega
        · obtain rfl := Option.some.inj hentry
          exact ⟨l, .other hp (by rw [hioapic]; decide) hl, hcount⟩
        · obtain rfl := Option.some.inj hentry
          exact ⟨l, .other hp (by obtain h | h | h := hother <;> rw [h] <;> decide) hl, hcount⟩
        · -- the scan is still at `p`, and has ended from there
          obtain rfl := Option.some.inj hentry
          have hknown := hl.known hp
          simp only [List.mem_cons, List.not_mem_nil, or_false] at hknown
          tauto
    · exact ⟨[], .nil (by omega), id⟩

/-- `mpinit` ends within `cpus` exactly on a table of known entries with a place for every
processor. It then falls back to one processor if their numbers do not count up. -/
theorem mpinit_ends (conf : ℕ → Byte) (s : Vars) (hncpu : s.ncpu = 0) :
    ((∃ n s', mpinit conf n s = .done s') ↔
      ∃ l, Entries conf MPCONF l ∧ l.length ≤ NCPU) ∧
    ∀ l, Entries conf MPCONF l → l.length ≤ NCPU →
      ∃ s', (∀ n, length conf < n → mpinit conf n s = .done s') ∧ s'.ncpu ≤ NCPU ∧
        (Mismatch conf 0 l → s'.ncpu = 1 ∧ s'.lapic = 0) := by
  have hends : ∀ l, Entries conf MPCONF l → l.length ≤ NCPU →
      ∃ s', (∀ n, length conf < n → mpinit conf n s = .done s') ∧ s'.ncpu ≤ NCPU ∧
        (Mismatch conf 0 l → s'.ncpu = 1 ∧ s'.lapic = 0) := by
    intro l hentries hl
    obtain ⟨t, hscan, ht, hismp⟩ := hentries.scan
      { s with bcpu := 0, ismp := true, lapic := lapicaddr conf } (by dsimp only; omega)
    dsimp only at ht hismp
    rw [hncpu] at ht hismp
    have hconf : MPCONF = 44 := rfl
    refine ⟨_, fun n hn => by rw [mpinit, hscan n (by omega)], ?_, fun h => ?_⟩
    · split_ifs
      · omega
      · exact (by decide : 1 ≤ NCPU)
    · rw [hismp (Or.inr h)]
      exact ⟨rfl, rfl⟩
  refine ⟨⟨?_, ?_⟩, hends⟩
  · rintro ⟨n, s', hdone⟩
    unfold mpinit at hdone
    cases hscan : scan conf n MPCONF { s with
      bcpu := 0, ismp := true, lapic := lapicaddr conf } with
    | done t =>
      obtain ⟨l, hl, hcount⟩ := entries_of_scan n hscan
      dsimp only at hcount
      exact ⟨l, hl, by omega⟩
    | overrun => rw [hscan] at hdone; cases hdone
    | running => rw [hscan] at hdone; cases hdone
  · rintro ⟨l, hentries, hl⟩
    obtain ⟨s', hdone, -⟩ := hends l hentries hl
    exact ⟨_, s', hdone _ (Nat.lt_succ_self _)⟩

def boot : Vars := ⟨false, 0, 0, fun _ => 0, 0, 0⟩

/-- A table whose bytes are zero but for its header and the first two of its first entry. -/
def table (length check type apicid : Byte) (i : ℕ) : Byte :=
  [0x50, 0x43, 0x4D, 0x50, length, 0, 1, check].getD i
    (if i = MPCONF then type else if i = MPCONF + 1 then apicid else 0)

/-- A single processor with number 3. -/
theorem mpinit_ends_three : mpconfig (table 64 140 MPPROC 3) = true ∧
    ∃ s', (∀ n, 64 < n → mpinit (table 64 140 MPPROC 3) n boot = .done s') ∧
      s'.ncpu = 1 ∧ s'.lapic = 0 := by
  refine ⟨by decide +kernel, ?_⟩
  obtain ⟨-, hends⟩ := mpinit_ends (table 64 140 MPPROC 3) boot rfl
  obtain ⟨s', hdone, -, hone⟩ := hends [MPCONF] (.proc (by decide) rfl (.nil (by decide)))
    (by decide)
  exact ⟨s', hdone, hone ⟨0, MPCONF, rfl, by decide⟩⟩

/-- On an entry of type 5 the scan does not end, and a ninth processor is past the end of `cpus`. -/
theorem mpinit_hangs : mpconfig (table 52 150 5 0) = true ∧
    (∀ n, mpinit (table 52 150 5 0) n boot = .running) ∧ mpconfig (table 224 239 MPPROC 0) = true ∧
    mpinit (table 224 239 MPPROC 0) 9 boot = .overrun := by
  have hscan : ∀ n s, scan (table 52 150 5 0) n MPCONF s = .running := by
    intro n
    induction n with
    | zero => exact fun s => rfl
    | succ n ih => exact fun s => ih _
  refine ⟨by decide +kernel, fun n => ?_, by decide +kernel, rfl⟩
  rw [mpinit, hscan]

end Xv6Threads.Mp
