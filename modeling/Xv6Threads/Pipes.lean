import Xv6Threads.Bytes
import Xv6Threads.Loop
import Xv6Threads.Param
import Xv6Threads.Ring

namespace Xv6Threads.Pipes

open Option List Prod

open Bytes (Byte)

abbrev PIPESIZE : ℕ := 512

/-- `struct pipe`: the ring holds `data`, `nread` and `nwrite`. -/
structure Pipe where
  ring : Ring Byte PIPESIZE 32
  readopen : Bool
  writeopen : Bool

/-- `&p->nread` and `&p->nwrite`. -/
inductive Chan
  | nread | nwrite
  deriving DecidableEq

/-- The call a process is in; `rest` are the bytes of `pipewrite` not stored yet. -/
inductive Call
  | none
  | write (n : ℕ) (rest : List Byte)
  | read (n : ℕ)
  deriving DecidableEq

/-- `asleep` is the channel of a SLEEPING process. -/
structure Proc where
  asleep : Option Chan
  killed : Bool
  call : Call

/-- The pipe, the processes, and the bytes stored by `pipewrite` and delivered by `piperead` so
far. -/
structure Sys (P : Type*) where
  pipe : Pipe
  proc : P → Proc
  stored : List Byte
  delivered : List Byte

inductive Out
  | none
  | write (r : ℤ)
  | read (r : ℤ) (addr : List Byte)

inductive Act (P : Type*)
  | pipewrite (p : P) (addr : List Byte)
  | piperead (p : P) (n : ℕ)
  /-- a process that was woken takes the lock again -/
  | resume (p : P)
  | pipeclose (writable : Bool)
  | kill (p : P)

/-- `p->nwrite == p->nread + PIPESIZE`. -/
def full (r : Ring Byte PIPESIZE 32) : Bool := r.nwrite = r.nread + BitVec.ofNat 32 PIPESIZE

/-- The loop of `pipewrite` up to the point where it is done or finds the buffer full: the
buffer, and the bytes that are left. -/
def store : Ring Byte PIPESIZE 32 → List Byte → Ring Byte PIPESIZE 32 × List Byte
  | r, [] => (r, [])
  | r, c :: cs => if full r then (r, c :: cs) else store (r.push c) cs

/-- The copying loop of `piperead`. -/
def load : Ring Byte PIPESIZE 32 → ℕ → Ring Byte PIPESIZE 32 × List Byte
  | r, 0 => (r, [])
  | r, n + 1 =>
    if r.nread = r.nwrite then (r, [])
    else
      let (r', cs) := load r.pop n
      (r', r.head :: cs)

variable {P : Type*} [DecidableEq P]

def wakeup (t : P → Proc) (c : Chan) : P → Proc := fun p =>
  if (t p).asleep = some c then { t p with asleep := none } else t p

def setProc (s : Sys P) (p : P) (x : Proc) : Sys P := { s with proc := Function.update s.proc p x }

def finish (s : Sys P) (p : P) : Sys P := setProc s p { s.proc p with call := .none }

def pipewrite (s : Sys P) (p : P) (n : ℕ) (rest : List Byte) : Sys P × Out :=
  let (r, left) := store s.pipe.ring rest
  let s := { s with
    pipe := { s.pipe with ring := r },
    stored := s.stored ++ rest.take (rest.length - left.length) }
  if left = [] then (finish { s with proc := wakeup s.proc .nread } p, .write n)
  else if s.pipe.readopen = false ∨ (s.proc p).killed then (finish s p, .write (-1))
  else
    let s := { s with proc := wakeup s.proc .nread }
    (setProc s p { s.proc p with asleep := some .nwrite, call := .write n left }, .none)

def piperead (s : Sys P) (p : P) (n : ℕ) : Sys P × Out :=
  if s.pipe.ring.nread = s.pipe.ring.nwrite ∧ s.pipe.writeopen then
    if (s.proc p).killed then (finish s p, .read (-1) [])
    else (setProc s p { s.proc p with asleep := some .nread, call := .read n }, .none)
  else
    let (r, cs) := load s.pipe.ring n
    let s := { s with
      pipe := { s.pipe with ring := r }, proc := wakeup s.proc .nwrite,
      delivered := s.delivered ++ cs }
    (finish s p, .read cs.length cs)

def pipeclose (s : Sys P) (writable : Bool) : Sys P :=
  if writable then
    { s with pipe := { s.pipe with writeopen := false }, proc := wakeup s.proc .nread }
  else { s with pipe := { s.pipe with readopen := false }, proc := wakeup s.proc .nwrite }

/-- `kill`: the process is marked and does not sleep on. -/
def kill (s : Sys P) (p : P) : Sys P :=
  setProc s p { s.proc p with killed := true, asleep := none }

/-- What one process does between taking `p->lock` and giving it up; `none` when it is not at that
point. -/
def step (s : Sys P) : Act P → Option (Sys P × Out)
  | .pipewrite p addr =>
    match (s.proc p).call with
    | .none => some (pipewrite s p addr.length addr)
    | _ => none
  | .piperead p n =>
    match (s.proc p).call with
    | .none => some (piperead s p n)
    | _ => none
  | .resume p =>
    if (s.proc p).asleep = none then
      match (s.proc p).call with
      | .write n rest => some (pipewrite s p n rest)
      | .read n => some (piperead s p n)
      | .none => none
    else none
  | .pipeclose writable => some (pipeclose s writable, .none)
  | .kill p => some (kill s p, .none)

/-- After `pipealloc`: the counters are zero, the page holds anything. -/
def init (s : Sys P) : Prop :=
  s.pipe.ring.nread = 0 ∧ s.pipe.ring.nwrite = 0 ∧ s.pipe.readopen = true ∧
    s.pipe.writeopen = true ∧ s.stored = [] ∧ s.delivered = [] ∧
    ∀ p, (s.proc p).asleep = none ∧ (s.proc p).call = .none

abbrev Reachable (ok : Sys P → Act P → Prop) : Sys P → Prop :=
  Reach init ok fun s a s' => ∃ out, step s a = some (s', out)

theorem dvd_wrap : PIPESIZE ∣ 2 ^ 32 := by decide

theorem full_iff (r : Ring Byte PIPESIZE 32) : full r = true ↔ r.len = PIPESIZE := by
  rw [full, decide_eq_true_eq, r.len_eq (by decide)]

/-- The bytes stored are appended, until the buffer is full or no byte is left. -/
theorem store_spec (r : Ring Byte PIPESIZE 32) (cs : List Byte) (hr : r.len ≤ PIPESIZE) :
    ∃ st, cs = st ++ (store r cs).2 ∧ (store r cs).1.toList = r.toList ++ st ∧
      (store r cs).1.len = r.len + st.length ∧ (store r cs).1.len ≤ PIPESIZE ∧
      ((store r cs).2 ≠ [] → (store r cs).1.len = PIPESIZE) := by
  have hP : PIPESIZE = 512 := rfl
  induction cs generalizing r with
  | nil => exact ⟨[], by simp [store, hr]⟩
  | cons c cs ih =>
    rw [store]
    split_ifs with hfull
    · rw [full_iff] at hfull
      exact ⟨[], by simp [hfull]⟩
    · have hlt : r.len < PIPESIZE := lt_of_le_of_ne hr (mt (full_iff r).mpr hfull)
      have hlen : (r.push c).len = r.len + 1 := r.len_push c (by omega)
      obtain ⟨st, hst, hlist, hlen', hle, hleft⟩ := ih (r.push c) (by omega)
      refine ⟨c :: st, by rw [cons_append, ← hst], ?_, ?_, hle, hleft⟩
      · rw [hlist, Ring.toList_push dvd_wrap r c hlt (by omega), append_assoc, singleton_append]
      · rw [hlen', hlen, length_cons]
        omega

theorem load_spec (r : Ring Byte PIPESIZE 32) (n : ℕ) :
    r.toList = (load r n).2 ++ (load r n).1.toList ∧ (load r n).1.len ≤ r.len := by
  induction n generalizing r with
  | zero => exact ⟨rfl, le_rfl⟩
  | succ n ih =>
    rw [load]
    split_ifs with hempty
    · exact ⟨rfl, le_rfl⟩
    · have h0 : r.len ≠ 0 := mt r.len_eq_zero.mp hempty
      have hpop := r.len_pop h0
      obtain ⟨hlist, hle⟩ := ih r.pop
      refine ⟨?_, by dsimp only; omega⟩
      rw [Ring.toList_pop dvd_wrap r h0, hlist, cons_append]

/-- What a turn of `pipewrite` can do: it stores `st` and is done, gives up, or goes to sleep on
a full buffer. -/
inductive Wrote (s : Sys P) (p : P) (n : ℕ) (rest : List Byte) : Sys P → Prop
  | done {r : Ring Byte PIPESIZE 32} (hlist : r.toList = s.pipe.ring.toList ++ rest)
      (hlen : r.len = s.pipe.ring.len + rest.length) (hle : r.len ≤ PIPESIZE) :
      Wrote s p n rest (finish { s with
        pipe := { s.pipe with ring := r }, stored := s.stored ++ rest,
        proc := wakeup s.proc .nread } p)
  | gaveUp {r : Ring Byte PIPESIZE 32} {st left : List Byte} (hrest : rest = st ++ left)
      (hleft : left ≠ []) (hlist : r.toList = s.pipe.ring.toList ++ st)
      (hlen : r.len = s.pipe.ring.len + st.length) (hle : r.len = PIPESIZE)
      (hstop : s.pipe.readopen = false ∨ (s.proc p).killed = true) :
      Wrote s p n rest (finish { s with
        pipe := { s.pipe with ring := r }, stored := s.stored ++ st } p)
  | slept {r : Ring Byte PIPESIZE 32} {st left : List Byte} (hrest : rest = st ++ left)
      (hleft : left ≠ []) (hlist : r.toList = s.pipe.ring.toList ++ st)
      (hlen : r.len = s.pipe.ring.len + st.length) (hle : r.len = PIPESIZE)
      (hopen : s.pipe.readopen = true) (hkilled : (s.proc p).killed = false) :
      Wrote s p n rest (setProc { s with
        pipe := { s.pipe with ring := r }, stored := s.stored ++ st,
        proc := wakeup s.proc .nread } p
        { wakeup s.proc .nread p with asleep := some .nwrite, call := .write n left })

theorem pipewrite_wrote {s : Sys P} (hlen : s.pipe.ring.len ≤ PIPESIZE) (p : P) (n : ℕ)
    (rest : List Byte) : Wrote s p n rest (pipewrite s p n rest).1 := by
  obtain ⟨st, hrest, hlist, hlen', hle, hleft⟩ := store_spec s.pipe.ring rest hlen
  have htake : rest.take (rest.length - (store s.pipe.ring rest).2.length) = st := by
    have hl : rest.length - (store s.pipe.ring rest).2.length = st.length := by
      have hl := congrArg List.length hrest
      rw [length_append] at hl
      omega
    rw [hl]
    conv_lhs => rw [hrest]
    exact take_left
  rw [pipewrite]
  dsimp only
  rw [htake]
  split_ifs with hdone hstop
  · rw [hdone, append_nil] at hrest
    subst hrest
    exact .done hlist hlen' hle
  · exact .gaveUp hrest hdone hlist hlen' (hleft hdone) hstop
  · rw [not_or] at hstop
    exact .slept hrest hdone hlist hlen' (hleft hdone) (by simpa using hstop.1)
      (by simpa using hstop.2)

/-- What a turn of `piperead` can do: it gives up or goes to sleep on an empty buffer, or takes
the bytes `cs`. -/
inductive Took (s : Sys P) (p : P) (n : ℕ) : Sys P → Prop
  | gaveUp (hempty : s.pipe.ring.len = 0) (hkilled : (s.proc p).killed = true) :
      Took s p n (finish s p)
  | slept (hempty : s.pipe.ring.len = 0) (hopen : s.pipe.writeopen = true) :
      Took s p n (setProc s p { s.proc p with asleep := some .nread, call := .read n })
  | done {r : Ring Byte PIPESIZE 32} {cs : List Byte}
      (hlist : s.pipe.ring.toList = cs ++ r.toList) (hle : r.len ≤ s.pipe.ring.len)
      (hdata : s.pipe.ring.len ≠ 0 ∨ s.pipe.writeopen = false) :
      Took s p n (finish { s with
        pipe := { s.pipe with ring := r }, proc := wakeup s.proc .nwrite,
        delivered := s.delivered ++ cs } p)

theorem piperead_took (s : Sys P) (p : P) (n : ℕ) : Took s p n (piperead s p n).1 := by
  have hempty := s.pipe.ring.len_eq_zero
  rw [piperead]
  split_ifs with hwait hkilled
  · exact .gaveUp (hempty.mpr hwait.1) hkilled
  · exact .slept (hempty.mpr hwait.1) hwait.2
  · obtain ⟨hlist, hle⟩ := load_spec s.pipe.ring n
    apply Took.done hlist hle
    rw [not_and_or] at hwait
    rcases hwait with hwait | hwait
    · exact .inl (mt hempty.mp hwait)
    · exact .inr (by simpa using hwait)

/-- The process that goes on with `pipewrite` and the bytes it has left. -/
def writing (s : Sys P) : Act P → Option (P × List Byte)
  | .pipewrite p addr => some (p, addr)
  | .resume p =>
    match (s.proc p).call with
    | .write _ rest => some (p, rest)
    | _ => none
  | _ => none

inductive Move (s : Sys P) (a : Act P) : Sys P → Prop
  | write {p : P} {n : ℕ} {rest : List Byte} {s' : Sys P} (ha : writing s a = some (p, rest))
      (hw : Wrote s p n rest s') : Move s a s'
  | read {p : P} {n : ℕ} {s' : Sys P} (ha : writing s a = none) (ht : Took s p n s') : Move s a s'
  | close {w : Bool} (ha : writing s a = none) : Move s a (pipeclose s w)
  | kill {p : P} (ha : writing s a = none) : Move s a (kill s p)

theorem step_move {s s' : Sys P} {a : Act P} {out : Out} (h : step s a = some (s', out))
    (hlen : s.pipe.ring.len ≤ PIPESIZE) : Move s a s' := by
  cases a with
  | pipewrite p addr =>
    simp only [step] at h
    split at h
    · obtain rfl := congrArg fst (some.inj h)
      exact .write rfl (pipewrite_wrote hlen p _ addr)
    · cases h
  | piperead p n =>
    simp only [step] at h
    split at h
    · obtain rfl := congrArg fst (some.inj h)
      exact .read rfl (piperead_took s p n)
    · cases h
  | resume p =>
    simp only [step] at h
    split_ifs at h
    split at h
    · next n rest hcall =>
      obtain rfl := congrArg fst (some.inj h)
      exact .write (by simp only [writing, hcall]) (pipewrite_wrote hlen p n rest)
    · next n hcall =>
      obtain rfl := congrArg fst (some.inj h)
      exact .read (by simp only [writing, hcall]) (piperead_took s p n)
    · cases h
  | pipeclose w =>
    obtain rfl := congrArg fst (some.inj h)
    exact .close rfl
  | kill p =>
    obtain rfl := congrArg fst (some.inj h)
    exact .kill rfl

/-- What was stored is what was delivered and then what is in the buffer. -/
structure Fifo (s : Sys P) : Prop where
  len : s.pipe.ring.len ≤ PIPESIZE
  order : s.stored = s.delivered ++ s.pipe.ring.toList

theorem Fifo.move {s s' : Sys P} {a : Act P} (h : Fifo s) (hm : Move s a s') : Fifo s' := by
  cases hm with
  | @write p n rest _ ha hw =>
    cases hw with
    | @done r hlist hlen hle =>
      refine ⟨hle, ?_⟩
      change s.stored ++ rest = s.delivered ++ r.toList
      rw [hlist, h.order, append_assoc]
    | @gaveUp r st left hrest hleft hlist hlen hle
    | @slept r st left hrest hleft hlist hlen hle =>
      refine ⟨hle.le, ?_⟩
      change s.stored ++ st = s.delivered ++ r.toList
      rw [hlist, h.order, append_assoc]
  | read ha ht =>
    cases ht with
    | gaveUp | slept => exact ⟨h.len, h.order⟩
    | @done r cs hlist hle =>
      refine ⟨hle.trans h.len, ?_⟩
      change s.stored = s.delivered ++ cs ++ r.toList
      rw [append_assoc, ← hlist, h.order]
  | @close w =>
    cases w <;> exact ⟨h.len, h.order⟩
  | kill => exact ⟨h.len, h.order⟩

theorem reachable_fifo {ok : Sys P → Act P → Prop} {s : Sys P} (h : Reachable ok s) : Fifo s := by
  apply Reach.invariant (P := fun s : Sys P => Fifo s) _ _ h
  · rintro s ⟨hr, hw, -, -, hst, hdel, -⟩
    have h0 : s.pipe.ring.len = 0 := by rw [s.pipe.ring.len_eq_zero, hr, hw]
    refine ⟨by rw [h0]; decide, ?_⟩
    rw [hst, hdel, Ring.toList, h0]
    rfl
  · rintro s a s' hs - ⟨out, hstep⟩
    exact hs.move (step_move hstep hs.len)

/-- In every run the buffer holds at most `PIPESIZE` bytes and the bytes stored, in order, are
the bytes delivered, in order, followed by those in the buffer. -/
theorem pipe_fifo {s : Sys P} (h : Reachable (fun _ _ => True) s) :
    (s.pipe.ring.nwrite - s.pipe.ring.nread).toNat ≤ PIPESIZE ∧
      s.stored = s.delivered ++ s.pipe.ring.toList :=
  ⟨(reachable_fifo h).len, (reachable_fifo h).order⟩

def newPipe : Sys (Fin 2) :=
  ⟨⟨⟨fun _ => 0, 0, 0⟩, true, true⟩, fun _ => ⟨none, false, .none⟩, [], []⟩

theorem init_newPipe : init newPipe := ⟨rfl, rfl, rfl, rfl, rfl, rfl, fun _ => ⟨rfl, rfl⟩⟩

theorem exists_run (p : Sys (Fin 2) → Bool) (as : List (Act (Fin 2)))
    (h : (execs (fun _ _ => true) (fun s a => (step s a).map fst) newPipe as).any p = true) :
    ∃ s, Reachable (fun _ _ => True) s ∧ p s = true := by
  have hinit : Reachable (fun _ _ => True) newPipe := .start init_newPipe
  apply Reach.exists_of_execs _ _ p (fun _ _ _ => trivial) _ as hinit h
  intro s a s' hs
  obtain ⟨⟨s₁, out⟩, hs₁, rfl⟩ := map_eq_some_iff.mp hs
  exact ⟨out, hs₁⟩

/-- Three bytes are written and two of them read. -/
theorem pipe_fifo_three_bytes :
    ∃ s : Sys (Fin 2), Reachable (fun _ _ => True) s ∧ s.delivered = [1, 2] ∧
      s.stored = s.delivered ++ s.pipe.ring.toList := by
  have hrun := exists_run (fun s => decide (s.delivered = [1, 2]))
    [.pipewrite 0 [1, 2, 3], .piperead 1 2] (by decide +kernel)
  obtain ⟨s, hs, hcheck⟩ := hrun
  exact ⟨s, hs, of_decide_eq_true hcheck, (pipe_fifo hs).2⟩

/-- A reader sleeps only on an empty pipe that may still be written, a writer only on a full one
that may still be read. -/
structure Served (s : Sys P) : Prop where
  reader : ∀ p, (s.proc p).asleep = some .nread →
    s.pipe.ring.nread = s.pipe.ring.nwrite ∧ s.pipe.writeopen = true
  writer : ∀ p, (s.proc p).asleep = some .nwrite →
    s.pipe.ring.nwrite = s.pipe.ring.nread + BitVec.ofNat 32 PIPESIZE ∧ s.pipe.readopen = true

/-- `pipewrite` is about to fill the buffer and give up without waking the readers, and there is
one that sleeps. -/
def Unheard (s : Sys P) (a : Act P) : Prop :=
  ∃ p rest, writing s a = some (p, rest) ∧ PIPESIZE < s.pipe.ring.len + rest.length ∧
    (s.pipe.readopen = false ∨ (s.proc p).killed = true) ∧ ∃ q, (s.proc q).asleep = some .nread

section
variable {s s' : Sys P} {a : Act P} {p q : P}

omit [DecidableEq P] in
theorem asleep_wakeup (t : P → Proc) (c d : Chan) :
    (wakeup t c q).asleep = some d ↔ (t q).asleep = some d ∧ d ≠ c := by
  unfold wakeup
  split_ifs with h
  · simp only [h, some.injEq, false_iff, not_and, not_not]
    exact Eq.symm
  · constructor
    · intro hd
      exact ⟨hd, fun hdc => h (hdc ▸ hd)⟩
    · exact And.left

theorem asleep_setProc (x : Proc) :
    ((setProc s p x).proc q).asleep = if q = p then x.asleep else (s.proc q).asleep := by
  rw [setProc]
  by_cases hq : q = p <;> simp [hq]

theorem asleep_finish : ((finish s p).proc q).asleep = (s.proc q).asleep := by
  rw [finish, asleep_setProc]
  split_ifs with hq
  · rw [hq]
  · rfl

omit [DecidableEq P] in
/-- The property in terms of the number of bytes in the buffer. -/
theorem served_iff : Served s ↔
    (∀ p, (s.proc p).asleep = some .nread → s.pipe.ring.len = 0 ∧ s.pipe.writeopen = true) ∧
    ∀ p, (s.proc p).asleep = some .nwrite →
      s.pipe.ring.len = PIPESIZE ∧ s.pipe.readopen = true := by
  have h0 := s.pipe.ring.len_eq_zero
  have hP := s.pipe.ring.len_eq (k := PIPESIZE) (by decide)
  rw [h0, hP]
  exact ⟨fun h => ⟨h.reader, h.writer⟩, fun h => ⟨h.1, h.2⟩⟩

/-- A turn of `pipewrite` leaves a sleeping reader behind exactly when it gives up. -/
theorem Wrote.served {n : ℕ} {rest : List Byte} (hw : Wrote s p n rest s') (hs : Served s)
    (ha : writing s a = some (p, rest)) : Served s' ↔ ¬Unheard s a := by
  rw [served_iff] at hs ⊢
  have hP : PIPESIZE = 512 := rfl
  cases hw with
  | @done r hlist hlen hle =>
    refine iff_of_true ⟨?_, ?_⟩ ?_
    · intro q hq
      rw [asleep_finish, asleep_wakeup] at hq
      exact absurd rfl hq.2
    · intro q hq
      rw [asleep_finish, asleep_wakeup] at hq
      obtain ⟨hfull, hopen⟩ := hs.2 q hq.1
      exact ⟨show r.len = PIPESIZE by omega, hopen⟩
    · rintro ⟨p', rest', ha', hroom, -, q, hq⟩
      obtain ⟨rfl, rfl⟩ := mk.inj (some.inj (ha.symm.trans ha'))
      omega
  | @gaveUp r st left hrest hleft hlist hlen hle hstop =>
    have hpos : 0 < left.length := length_pos_of_ne_nil hleft
    have hlrest : rest.length = st.length + left.length := by rw [hrest, length_append]
    constructor
    · rintro ⟨hr, -⟩ ⟨-, -, -, -, -, q, hq⟩
      have h0 : r.len = 0 := (hr q (by rw [asleep_finish]; exact hq)).1
      omega
    · intro hun
      refine ⟨?_, ?_⟩
      · intro q hq
        rw [asleep_finish] at hq
        exact absurd ⟨p, rest, ha, by omega, hstop, q, hq⟩ hun
      · intro q hq
        rw [asleep_finish] at hq
        exact ⟨hle, (hs.2 q hq).2⟩
  | @slept r st left hrest hleft hlist hlen hle hopen hkilled =>
    refine iff_of_true ⟨?_, ?_⟩ ?_
    · intro q hq
      rw [asleep_setProc] at hq
      split_ifs at hq
      · cases hq
      · rw [asleep_wakeup] at hq
        exact absurd rfl hq.2
    · intro q _
      exact ⟨hle, hopen⟩
    · rintro ⟨p', rest', ha', -, hstop, -⟩
      obtain ⟨rfl, rfl⟩ := mk.inj (some.inj (ha.symm.trans ha'))
      rw [hopen, hkilled] at hstop
      rcases hstop with hstop | hstop <;> cases hstop

theorem Took.served {n : ℕ} (ht : Took s p n s') (hs : Served s) : Served s' := by
  rw [served_iff] at hs ⊢
  cases ht with
  | gaveUp hempty hkilled =>
    refine ⟨?_, ?_⟩ <;> intro q hq <;> rw [asleep_finish] at hq
    · exact hs.1 q hq
    · exact hs.2 q hq
  | slept hempty hopen =>
    refine ⟨?_, ?_⟩ <;> intro q hq <;> rw [asleep_setProc] at hq <;> split_ifs at hq
    · exact ⟨hempty, hopen⟩
    · exact hs.1 q hq
    · cases hq
    · exact hs.2 q hq
  | @done r cs hlist hle hdata =>
    refine ⟨?_, ?_⟩ <;> intro q hq <;> rw [asleep_finish, asleep_wakeup] at hq
    · obtain ⟨hempty, hopen⟩ := hs.1 q hq.1
      rw [hopen] at hdata
      rcases hdata with hdata | hdata
      · exact absurd hempty hdata
      · cases hdata
    · exact absurd rfl hq.2

theorem Move.served (hm : Move s a s') (hs : Served s) : Served s' ↔ ¬Unheard s a := by
  -- only `pipewrite` can go unheard
  have hother : writing s a = none → ¬Unheard s a := by
    rintro ha ⟨p, rest, ha', -⟩
    rw [ha] at ha'
    cases ha'
  cases hm with
  | write ha hw => exact hw.served hs ha
  | read ha ht => exact iff_of_true (ht.served hs) (hother ha)
  | @close w ha =>
    refine iff_of_true ?_ (hother ha)
    cases w
    · refine ⟨fun q hq => ?_, fun q hq => ?_⟩ <;> rw [pipeclose] at hq <;>
        rw [if_neg (by decide), asleep_wakeup] at hq
      · exact hs.reader q hq.1
      · exact absurd rfl hq.2
    · refine ⟨fun q hq => ?_, fun q hq => ?_⟩ <;> rw [pipeclose] at hq <;>
        rw [if_pos rfl, asleep_wakeup] at hq
      · exact absurd rfl hq.2
      · exact hs.writer q hq.1
  | @kill p ha =>
    refine iff_of_true ?_ (hother ha)
    refine ⟨fun q hq => ?_, fun q hq => ?_⟩ <;> rw [Pipes.kill, asleep_setProc] at hq <;>
      split_ifs at hq
    · exact hs.reader q hq
    · exact hs.writer q hq

end

theorem reachable_served {s : Sys P} (h : Reachable (fun s a => ¬Unheard s a) s) : Served s := by
  have hinv : Fifo s ∧ Served s := by
    apply Reach.invariant (P := fun s : Sys P => Fifo s ∧ Served s) _ _ h
    · intro s hs
      refine ⟨@reachable_fifo P _ (fun _ _ => True) s (.start hs), ?_⟩
      obtain ⟨-, -, -, -, -, -, hidle⟩ := hs
      refine ⟨fun p hp => ?_, fun p hp => ?_⟩ <;> rw [(hidle p).1] at hp <;> cases hp
    · rintro s a s' ⟨hf, hs⟩ hok ⟨out, hstep⟩
      have hm := step_move hstep hf.len
      exact ⟨hf.move hm, (hm.served hs).mpr hok⟩
  exact hinv.2

/-- As long as no `pipewrite` fills the buffer and gives up while a reader sleeps, no reader
sleeps on data and no writer on room; the first call that does so leaves a reader asleep on a
pipe that is not empty. -/
theorem sleepers_served_iff {s : Sys P} (h : Reachable (fun s a => ¬Unheard s a) s) :
    Served s ∧ ∀ a s' out, step s a = some (s', out) → (Served s' ↔ ¬Unheard s a) := by
  have hs := reachable_served h
  refine ⟨hs, ?_⟩
  intro a s' out hstep
  exact (step_move hstep (reachable_fifo h).len).served hs

/-- A reader goes to sleep on the new pipe. -/
theorem sleepers_served_iff_empty :
    ∃ s : Sys (Fin 2), (s.proc 0).asleep = some .nread ∧
      s.pipe.ring.nread = s.pipe.ring.nwrite := by
  have hreach : Reachable (fun s a => ¬Unheard s a) (piperead newPipe 0 5).1 := by
    apply Reach.step (a := Act.piperead 0 5) (.start init_newPipe)
    · rintro ⟨p, rest, ha, -⟩
      cases ha
    · exact ⟨_, rfl⟩
  exact ⟨_, rfl, ((sleepers_served_iff hreach).1.reader 0 rfl).1⟩

/-- A reader sleeps; a writer that is killed writes one byte more than fits. -/
def killedWriter : List (Act (Fin 2)) :=
  [.piperead 0 1, .kill 1, .pipewrite 1 (List.replicate 513 7)]

theorem reader_sleeps_on_full_pipe :
    ∃ s : Sys (Fin 2), Reachable (fun _ _ => True) s ∧ (s.proc 0).asleep = some .nread ∧
      s.pipe.ring.len = PIPESIZE ∧ s.pipe.writeopen = true ∧ ¬Served s := by
  have hrun := exists_run
    (fun s => decide ((s.proc 0).asleep = some .nread ∧ s.pipe.ring.len = PIPESIZE ∧
      s.pipe.writeopen = true)) killedWriter (by decide +kernel)
  obtain ⟨s, hs, hcheck⟩ := hrun
  obtain ⟨hsleep, hlen, hopen⟩ := of_decide_eq_true hcheck
  refine ⟨s, hs, hsleep, hlen, hopen, ?_⟩
  intro hserved
  have hempty := (served_iff.mp hserved).1 0 hsleep
  rw [hlen] at hempty
  exact absurd hempty.1 (by decide)

/-- A writer sleeps only on a full pipe that may still be read, and not while a reader sleeps. -/
structure Alive (s : Sys P) : Prop where
  writer : ∀ p, (s.proc p).asleep = some .nwrite →
    s.pipe.ring.len = PIPESIZE ∧ s.pipe.readopen = true
  one : ∀ p q, (s.proc p).asleep = some .nread → (s.proc q).asleep ≠ some .nwrite

/-- A writer that goes to sleep wakes the readers, and a reader goes to sleep on an empty pipe. -/
theorem Move.alive {s s' : Sys P} {a : Act P} (hm : Move s a s') (hs : Alive s) : Alive s' := by
  obtain ⟨hwriter, hone⟩ := hs
  cases hm with
  | write ha hw =>
    cases hw <;> constructor <;> simp only [asleep_finish, asleep_setProc] <;>
      grind [asleep_wakeup, finish, setProc]
  | read ha ht =>
    cases ht <;> constructor <;> simp only [asleep_finish, asleep_setProc] <;>
      grind [asleep_wakeup, finish, setProc]
  | close ha =>
    unfold pipeclose
    split_ifs <;> constructor <;> dsimp only <;> grind [asleep_wakeup]
  | kill ha => constructor <;> simp only [Pipes.kill, asleep_setProc] <;> grind [setProc]

/-- A reader and a writer of one pipe never wait for each other, whoever is killed or closes the
pipe: while a writer sleeps the pipe is full, may still be read, and no reader sleeps. -/
theorem pipe_alive {s : Sys P} (h : Reachable (fun _ _ => True) s) : Alive s := by
  have hinv : Fifo s ∧ Alive s := by
    apply Reach.invariant (P := fun s : Sys P => Fifo s ∧ Alive s) _ _ h
    · intro s hs
      refine ⟨@reachable_fifo P _ (fun _ _ => True) s (.start hs), ?_⟩
      obtain ⟨-, -, -, -, -, -, hidle⟩ := hs
      refine ⟨fun p hp => ?_, fun p _ hp => ?_⟩ <;> rw [(hidle p).1] at hp <;> cases hp
    · rintro s a s' ⟨hf, hs⟩ - ⟨out, hstep⟩
      have hm := step_move hstep hf.len
      exact ⟨hf.move hm, hm.alive hs⟩
  exact hinv.2

/-- A reader sleeps, and a writer that fills the pipe wakes it before it sleeps. -/
theorem pipe_alive_woken : ∃ s : Sys (Fin 2), Reachable (fun _ _ => True) s ∧
    (s.proc 1).asleep = some .nwrite ∧ (s.proc 0).asleep ≠ some .nread := by
  obtain ⟨s, hs, hcheck⟩ := exists_run (fun s => decide ((s.proc 1).asleep = some .nwrite))
    [.piperead 0 1, .pipewrite 1 (List.replicate 513 7)] (by decide +kernel)
  have hsleep := of_decide_eq_true hcheck
  exact ⟨s, hs, hsleep, fun hread => (pipe_alive hs).one 0 1 hread hsleep⟩

end Xv6Threads.Pipes
