import Xv6Threads.Fs.SmallVolume

namespace Xv6Threads.Fs.SharedOffset

open Bytes Function List

/-- `max` in `filewrite`. -/
def maxWrite : ℕ := (LOGSIZE - 1 - 1 - 2) / 2 * 512

/-- What `writei` does before its loop: it may return at once. -/
def writeStart (e : Ix) (src : ℕ → Byte) (off n : ℕ) : M (Option ℤ) := do
  let ip ← inode e
  if ip.d.type = T_DEV then
    let s ← get
    match (deviceOf s ip.d).bind DevSw.write with
    | none => return some (-1)
    | some write => return some (write src n)
  else if ip.d.size < off ∨ w32 (off + n) < off then return some (-1)
  else if MAXFILE * BSIZE < w32 (off + n) then return some (-1)
  else return none

inductive Stage
  | locked
  /-- in the loop of `writei`, which was called with the offset `start` -/
  | writing (start tot : ℕ)
  /-- `writei` has returned `r` -/
  | wrote (r : ℤ)
  /-- the offset has been moved -/
  | moved (r : ℤ)

/-- Where a process is in `filewrite(f, buf, n)`; `i` is the local variable. -/
inductive Pos
  | user
  /-- at the test of the loop -/
  | top (buf : List Byte) (i : ℕ)
  /-- after `begin_op` -/
  | begun (buf : List Byte) (i : ℕ)
  /-- between `ilock` and `iunlock` -/
  | inside (buf : List Byte) (i : ℕ) (st : Stage)
  /-- after `iunlock` -/
  | left (buf : List Byte) (i : ℕ) (r : ℤ)

structure Sys (P : Type) where
  vol : Vol
  /-- `f->off` -/
  off : ℕ
  pos : P → Pos
  /-- the buffers passed to `write` so far -/
  calls : P → List (List Byte)
  /-- who has taken the lock of the inode so far, and for which buffer -/
  order : List (P × List Byte)

inductive Act (P : Type)
  | write (p : P) (buf : List Byte)
  /-- the process does the next thing in `filewrite` -/
  | go (p : P)

/-- `n1`. -/
def chunk (buf : List Byte) (i : ℕ) : ℕ := min (buf.length - i) maxWrite

/-- `addr + i`. -/
def source (buf : List Byte) (i k : ℕ) : Byte := bytesOf buf (i + k)

section
variable {P : Type} [DecidableEq P]

def Sys.setPos (s : Sys P) (p : P) (c : Pos) : Sys P := { s with pos := update s.pos p c }

/-- The next thing the process at `c` does. `none` when it has to wait for the inode. -/
def Sys.go (e : Ix) (s : Sys P) (p : P) : Pos → Option (Except Stop (Sys P))
  | .user => none
  | .top buf i => if i < buf.length then some (.ok (s.setPos p (.begun buf i)))
    else some (.ok (s.setPos p .user))
  | .begun buf i =>
    match ilock e s.vol with
    | .ok (_, v) =>
      some (.ok { s.setPos p (.inside buf i .locked) with vol := v, order := s.order ++
        [(p, buf)] })
    | .error .sleep => none
    | .error x => some (.error x)
  | .inside buf i .locked =>
    match writeStart e (source buf i) s.off (chunk buf i) s.vol with
    | .ok (some r, v) => some (.ok { s.setPos p (.inside buf i (.wrote r)) with vol := v })
    | .ok (none, v) => some (.ok { s.setPos p (.inside buf i (.writing s.off 0)) with vol := v })
    | .error x => some (.error x)
  | .inside buf i (.writing start tot) =>
    if tot < chunk buf i then
      match writeTurn e (source buf i) (chunk buf i) tot (start + tot) s.vol with
      | .ok (m, v) =>
        some (.ok { s.setPos p (.inside buf i (.writing start (tot + m))) with vol := v })
      | .error x => some (.error x)
    else
      match writeSize e (chunk buf i) (start + tot) s.vol with
      | .ok (_, v) => some (.ok { s.setPos p (.inside buf i (.wrote (chunk buf i))) with vol := v })
      | .error x => some (.error x)
  | .inside buf i (.wrote r) =>
    let off := if 0 < r then w32 (s.off + r.toNat) else s.off
    some (.ok { s.setPos p (.inside buf i (.moved r)) with off := off })
  | .inside buf i (.moved r) =>
    match iunlock e s.vol with
    | .ok (_, v) => some (.ok { s.setPos p (.left buf i r) with vol := v })
    | .error x => some (.error x)
  | .left buf i r =>
    -- a failed write ends the loop
    if r < 0 then some (.ok (s.setPos p .user))
    else if r ≠ chunk buf i then some (.error (.panic "short filewrite"))
    else some (.ok (s.setPos p (.top buf (i + r.toNat))))

/-- A process can lose the processor before and after `begin_op`, `ilock`, `iunlock` and `end_op`
and inside `writei` between any two blocks. The log and the bitmap have room. -/
def step (e : Ix) (s : Sys P) : Act P → Option (Except Stop (Sys P))
  | .write p buf =>
    match s.pos p with
    | .user =>
      let calls := update s.calls p (s.calls p ++ [buf])
      some (.ok { s.setPos p (.top buf 0) with calls := calls })
    | _ => none
  | .go p => s.go e p (s.pos p)

end

/-- The size of the inode, which may not have been read from the disk yet. -/
def inodeSize (s : Vol) (e : Ix) : ℕ :=
  if (s.icache e).valid then (s.icache e).d.size
  else (diskInode s.sb s.blk (s.icache e).inum).size

/-- The files when `l` has been written to file `n` from `off` on. -/
def written (V : ℕ → Node) (n off : ℕ) (l : List Byte) : ℕ → Node :=
  update V n ((V n).write (bytesOf l) off l.length)

theorem written_nil {V : ℕ → Node} {n off : ℕ} (hoff : off ≤ (V n).size) :
    written V n off [] = V := by
  unfold written
  rw [update_eq_self_iff]
  refine Node.ext rfl rfl rfl rfl ?_ (funext fun y => ?_)
  · exact max_eq_left hoff
  · exact if_neg fun hy => absurd hy.2 (by simpa using hy.1)

theorem written_append (V : ℕ → Node) (n off : ℕ) (l m : List Byte) :
    update (written V n off l) n ((written V n off l n).write (bytesOf m)
      (off + l.length) m.length) =
    written V n off (l ++ m) := by
  unfold written
  rw [update_idem, update_self]
  congr 1
  refine Node.ext rfl rfl rfl rfl ?_ (funext fun y => ?_)
  · simp only [Node.write, length_append]
    omega
  · simp only [Node.write, length_append, bytesOf_append, Nat.sub_sub]
    split_ifs
    all_goals first | rfl | omega

variable {sb : Superblock} {H : Multiset Ix} {L : Finset Ix} {V : ℕ → Node} {e : Ix} {n : ℕ}
  {s t : Vol}

theorem written_size (V : ℕ → Node) (n off : ℕ) (l : List Byte) :
    (written V n off l n).size = max (V n).size (off + l.length) := by
  unfold written
  rw [update_self]
  rfl

theorem written_type (V : ℕ → Node) (n off : ℕ) (l : List Byte) :
    (written V n off l n).type = (V n).type := by
  unfold written
  rw [update_self]
  rfl

theorem inodeSize_eq (h : Rep sb H L V s) (he : e ∈ H) (hn : (s.icache e).inum = n)
    (ht : (V n).type ≠ 0) : inodeSize s e = (V n).size := by
  unfold inodeSize
  split_ifs with hv
  · rw [h.node he hv hn]
    rfl
  · have hlt := h.lt_of_type ht
    obtain ⟨D, hd⟩ := h
    rw [hn, hd.cached.mounted, hd.cached.disk n hlt nofun, ← hd.view]
    have hlive : Live sb D n := by
      by_contra hlive
      rw [← hd.view, nodes_of_not_live hlive] at ht
      exact ht rfl
    rw [nodes_of_live hlive]
    rfl

/-- A regular file of a well-formed volume, opened by a `struct file` with offset `base`. -/
structure Scene where
  sb : Superblock
  H : Multiset Ix
  V : ℕ → Node
  e : Ix
  n : ℕ
  base : ℕ
  held : e ∈ H
  file : (V n).type = T_FILE
  base_le : base ≤ (V n).size

namespace Scene

variable (c : Scene)

/-- The volume after `l` has been written. -/
def Holds (L : Finset Ix) (l : List Byte) (v : Vol) : Prop :=
  Rep c.sb c.H L (written c.V c.n c.base l) v ∧ (v.icache c.e).inum = c.n

/-- What a process that writes `buf` has done since it took the lock; `done` was there before. -/
def At (v : Vol) (off : ℕ) (done buf : List Byte) : Stage → Prop
  | .locked => off = c.base + done.length ∧ c.Holds {c.e} done v ∧ (v.icache c.e).valid = true
  | .writing start tot => start = off ∧ off = c.base + done.length ∧ tot ≤ buf.length ∧
      ∃ D D' v₀, Fs.Holds c.sb c.H {c.e} D (written c.V c.n c.base done) v₀ ∧
        (v₀.icache c.e).inum = c.n ∧ (v₀.icache c.e).valid = true ∧
        Writing c.sb c.H {c.e} D v₀ c.n (bytesOf buf) start tot D' v
  | .wrote r => r = buf.length ∧ off = c.base + done.length ∧ c.Holds {c.e} (done ++ buf) v
  | .moved r => r = buf.length ∧ off = c.base + (done ++ buf).length ∧
      c.Holds {c.e} (done ++ buf) v

variable {c} {v v' : Vol} {off : ℕ} {done buf : List Byte}

theorem type_ne (l : List Byte) : (written c.V c.n c.base l c.n).type ≠ T_DEV ∧
    (written c.V c.n c.base l c.n).type ≠ 0 := by
  rw [written_type, c.file]
  decide

variable {l : List Byte}

theorem Holds.size {L : Finset Ix} (h : c.Holds L l v) :
    inodeSize v c.e = max (c.V c.n).size (c.base + l.length) := by
  rw [inodeSize_eq h.1 c.held h.2 (type_ne l).2, written_size]

theorem Holds.lock (h : c.Holds ∅ l v) (hok : ilock c.e v = .ok ((), v')) :
    c.Holds {c.e} l v' ∧ (v'.icache c.e).valid = true := by
  obtain ⟨hrep, hv, -, -, -, hkept⟩ := wp_ok (ilock_rep (E := fun _ => True) h.1 (fun _ => trivial)
    c.held h.2 (.inr trivial)) hok
  exact ⟨⟨hrep, (hkept.inum c.e c.held).trans h.2⟩, hv⟩

theorem Holds.unlock (h : c.Holds {c.e} l v) (hok : iunlock c.e v = .ok ((), v')) :
    c.Holds ∅ l v' := by
  obtain ⟨hrep, -, hkept⟩ :=
    wp_ok (iunlock_rep (E := fun _ => True) h.1 (fun _ => trivial) c.held) hok
  rw [show ({c.e} : Finset Ix).erase c.e = ∅ from by simp] at hrep
  exact ⟨hrep, (hkept.inum c.e c.held).trans h.2⟩

theorem At.busy {st : Stage} (h : c.At v off done buf st) : ilock c.e v ≠ .ok ((), v') := by
  intro hok
  have hrep : ∀ {l}, c.Holds {c.e} l v → False := by
    intro l hl
    obtain ⟨-, -, -, hnot, -⟩ :=
      wp_ok (ilock_rep (E := fun _ => True) hl.1 (fun _ => trivial) c.held hl.2 (.inr trivial)) hok
    exact hnot (Finset.mem_singleton_self c.e)
  cases st with
  | locked => exact hrep h.2.1
  | wrote r | moved r => exact hrep h.2.2
  | writing start tot =>
    obtain ⟨-, -, -, D, D', v₀, -, hinum, hv, hw⟩ := h
    obtain ⟨-, -, hnot, -⟩ := wp_ok (ilock_spec (E := fun _ => True) hw.cached (fun _ => trivial)
      c.held (.inl (hw.kept.valid c.e c.held hv)) (.inr trivial)) hok
    exact hnot (Finset.mem_singleton_self c.e)

theorem At.off_le {st : Stage} (h : c.At v off done buf st) : off ≤ inodeSize v c.e := by
  cases st with
  | locked =>
    obtain ⟨rfl, hl, -⟩ := h
    rw [hl.size]
    omega
  | wrote r =>
    obtain ⟨-, rfl, hl⟩ := h
    rw [hl.size, length_append]
    omega
  | moved r =>
    obtain ⟨-, rfl, hl⟩ := h
    rw [hl.size]
    omega
  | writing start tot =>
    obtain ⟨rfl, rfl, -, D, D', v₀, hd, hinum, hv, hw⟩ := h
    -- the size is only set when the loop is over
    have hvalid := hw.kept.valid c.e c.held hv
    have hrep : Rep c.sb c.H {c.e} _ v₀ := ⟨D, hd⟩
    have hsize := written_size c.V c.n c.base done
    rw [hrep.node c.held hv hinum, hd.cached.d_eq c.held hv, hinum] at hsize
    unfold inodeSize
    rw [if_pos hvalid, hw.cached.d_eq c.held hvalid, hw.kept.inum c.e c.held, hinum, hw.self]
    exact le_of_le_of_eq (le_max_right _ _) hsize.symm

theorem At.start {r : Option ℤ} (h : c.At v off done buf .locked)
    (hfit : c.base + (done ++ buf).length ≤ MAXFILE * BSIZE)
    (hok : writeStart c.e (bytesOf buf) off buf.length v = .ok (r, v')) :
    r = none ∧ c.At v' off done buf (.writing off 0) := by
  obtain ⟨rfl, ⟨hrep, hinum⟩, hv⟩ := h
  have hnode := hrep.node c.held hv hinum
  have htype : (v.icache c.e).d.type ≠ T_DEV := by
    have ht := (type_ne (c := c) done).1
    rw [hnode] at ht
    exact ht
  have hsize : (v.icache c.e).d.size = max (c.V c.n).size (c.base + done.length) := by
    rw [← written_size, hnode]
    rfl
  rw [length_append] at hfit
  have hmax : MAXFILE * BSIZE < 2 ^ 32 := by decide
  have hw32 : w32 (c.base + done.length + buf.length) = c.base + done.length + buf.length :=
    Nat.mod_eq_of_lt (by omega)
  have hspec : wp (writeStart c.e (bytesOf buf) (c.base + done.length) buf.length)
      (fun r t => r = none ∧ t = v) (fun _ => True) v := by
    unfold writeStart
    apply wp_bind (wp_inode _)
    rw [if_neg htype, if_neg (by rw [hw32, hsize]; omega), if_neg (by rw [hw32]; omega)]
    exact wp_pure ⟨rfl, rfl⟩
  obtain ⟨rfl, rfl⟩ := wp_ok hspec hok
  obtain ⟨D, hd⟩ := hrep
  have hlive : Live c.sb D c.n := hinum ▸ hd.cached.live c.held hv
  have hdn : (v'.icache c.e).d = D c.n := hinum ▸ hd.cached.d_eq c.held hv
  rw [hdn] at htype hsize
  refine ⟨rfl, rfl, rfl, Nat.zero_le _, D, D, v', hd, hinum, hv, ?_⟩
  exact Writing.start hd.cached hd.owned (hd.mapped c.n hlive htype) (by omega)

theorem At.turn {start tot m : ℕ} (h : c.At v off done buf (.writing start tot))
    (hlt : tot < buf.length)
    (hok : writeTurn c.e (bytesOf buf) buf.length tot (start + tot) v = .ok (m, v')) :
    c.At v' off done buf (.writing start (tot + m)) := by
  obtain ⟨rfl, hoff, hle, D, D', v₀, hd, hinum, hv, hw⟩ := h
  have hlive : Live c.sb D c.n := hinum ▸ hd.cached.live c.held hv
  obtain ⟨rfl, D'', hw'⟩ :=
    wp_ok (writeTurn_spec hd.geometry tolerant_true c.held hinum hv hlive hlt hw) hok
  have hturn := turn_le buf.length tot (start + tot)
  exact ⟨rfl, hoff, by omega, D, D'', v₀, hd, hinum, hv, hw'⟩

theorem At.size {start tot : ℕ} (h : c.At v off done buf (.writing start tot))
    (hge : ¬tot < buf.length) (hfit : c.base + (done ++ buf).length ≤ MAXFILE * BSIZE)
    (hok : writeSize c.e buf.length (start + tot) v = .ok ((), v')) :
    c.At v' off done buf (.wrote buf.length) := by
  obtain ⟨rfl, hoff, hle, D, D', v₀, hd, hinum, hv, hw⟩ := h
  obtain rfl : tot = buf.length := by omega
  rw [length_append] at hfit
  have hrep : Rep c.sb c.H {c.e} _ v₀ := ⟨D, hd⟩
  have hnode := hrep.node c.held hv hinum
  have hdn : (v₀.icache c.e).d = D c.n := hinum ▸ hd.cached.d_eq c.held hv
  rw [hdn] at hnode
  have htype : (D c.n).type ≠ T_DEV := by
    have ht := (type_ne (c := c) done).1
    rw [hnode] at ht
    exact ht
  have hsize : (D c.n).size = max (c.V c.n).size (c.base + done.length) := by
    rw [← written_size, hnode]
    rfl
  obtain ⟨hrep', hkept⟩ :=
    wp_ok (writeSize_rep (E := fun _ => True) hw hd c.held hinum hv htype (by omega) (by omega)) hok
  rw [hoff, written_append] at hrep'
  exact ⟨rfl, hoff, hrep', (hkept.inum c.e c.held).trans hinum⟩

theorem At.move {r : ℤ} (h : c.At v off done buf (.wrote r)) (hpos : 0 < buf.length)
    (hfit : c.base + (done ++ buf).length ≤ MAXFILE * BSIZE) :
    c.At v (if 0 < r then w32 (off + r.toNat) else off) done buf (.moved r) := by
  obtain ⟨rfl, rfl, hl⟩ := h
  have hmax : MAXFILE * BSIZE < 2 ^ 32 := by decide
  rw [length_append] at hfit
  refine ⟨rfl, ?_, hl⟩
  rw [if_pos (by omega), Int.toNat_natCast, length_append, w32, Nat.mod_eq_of_lt (by omega)]
  omega

end Scene

def Pos.isInside : Pos → Bool
  | .inside _ _ _ => true
  | _ => false

/-- A buffer that fits in one turn of the loop of `filewrite` is written in one turn. -/
def Pos.Single : Pos → Prop
  | .user => True
  | .top buf i => buf.length ≤ maxWrite ∧ (i = 0 ∨ i = buf.length)
  | .begun buf i | .inside buf i _ => i = 0 ∧ 0 < buf.length ∧ buf.length ≤ maxWrite
  | .left buf i r => i = 0 ∧ 0 < buf.length ∧ buf.length ≤ maxWrite ∧ r = buf.length

def Pos.pending : Pos → List (List Byte)
  | .top buf i => if i < buf.length then [buf] else []
  | .begun buf _ => [buf]
  | _ => []

@[simp] theorem Pos.pending_user : Pos.user.pending = [] := rfl

section
variable {P : Type}

/-- What is written when everybody who took the lock has written. -/
def contents (order : List (P × List Byte)) : List Byte := (order.map Prod.snd).flatten

theorem contents_append (front : List (P × List Byte)) (p : P) (buf : List Byte) :
    contents (front ++ [(p, buf)]) = contents front ++ buf := by
  simp [contents]

variable [DecidableEq P]

/-- The buffers for which process `p` took the lock. -/
def buffersOf (order : List (P × List Byte)) (p : P) : List (List Byte) :=
  (order.filter (·.1 = p)).map Prod.snd

theorem buffersOf_append (order : List (P × List Byte)) (p q : P) (buf : List Byte) :
    buffersOf (order ++ [(p, buf)]) q = buffersOf order q ++ if p = q then [buf] else [] := by
  unfold buffersOf
  split_ifs with hpq <;> simp [hpq]

structure Inv (c : Scene) (s : Sys P) : Prop where
  single : ∀ p, (s.pos p).Single
  free : (∀ p, (s.pos p).isInside = false) →
    s.off = c.base + (contents s.order).length ∧ c.Holds ∅ (contents s.order) s.vol
  held : ∀ p buf i st, s.pos p = .inside buf i st →
    ∃ front, s.order = front ++ [(p, buf)] ∧ c.At s.vol s.off (contents front) buf st
  mine : ∀ p, buffersOf s.order p ++ (s.pos p).pending = (s.calls p).filter (· ≠ [])

variable {c : Scene} {s t : Sys P} {p : P}

theorem Inv.one (h : Inv c s) {q : P} (hp : (s.pos p).isInside = true)
    (hq : (s.pos q).isInside = true) : q = p := by
  cases hpp : s.pos p with
  | inside buf i st =>
    cases hqq : s.pos q with
    | inside buf' i' st' =>
      obtain ⟨front, hfront, -⟩ := h.held p buf i st hpp
      obtain ⟨front', hfront', -⟩ := h.held q buf' i' st' hqq
      rw [hfront] at hfront'
      exact congrArg Prod.fst (append_inj_right' hfront' rfl |> singleton_inj.mp).symm
    | _ => rw [hqq] at hq; cases hq
  | _ => rw [hpp] at hp; cases hp

/-- What the other processes are at, and have done, is not touched by a step of `p`. -/
theorem Inv.change (h : Inv c s) (hpos : ∀ q ≠ p, t.pos q = s.pos q)
    (horder : ∀ q ≠ p, buffersOf t.order q = buffersOf s.order q)
    (hcalls : ∀ q ≠ p, t.calls q = s.calls q) (hsingle : (t.pos p).Single)
    (hmine : buffersOf t.order p ++ (t.pos p).pending = (t.calls p).filter (· ≠ []))
    (hfree : (∀ q, (t.pos q).isInside = false) →
      t.off = c.base + (contents t.order).length ∧ c.Holds ∅ (contents t.order) t.vol)
    (hheld : ∀ q buf i st, t.pos q = .inside buf i st →
      ∃ front, t.order = front ++ [(q, buf)] ∧ c.At t.vol t.off (contents front) buf st) :
    Inv c t := by
  refine ⟨?_, hfree, hheld, ?_⟩
  · intro q
    by_cases hq : q = p
    · exact hq ▸ hsingle
    · exact hpos q hq ▸ h.single q
  · intro q
    by_cases hq : q = p
    · exact hq ▸ hmine
    · rw [hpos q hq, horder q hq, hcalls q hq]
      exact h.mine q

section
variable {x : Pos}

@[simp] theorem setPos_self : (s.setPos p x).pos p = x := update_self ..

theorem setPos_of_ne {q : P} (hq : q ≠ p) : (s.setPos p x).pos q = s.pos q :=
  update_of_ne hq ..

end

theorem Inv.outside (h : Inv c s) (x : Pos) (hp : (s.pos p).isInside = false)
    (hx : x.isInside = false) (hsingle : x.Single) {cs : P → List (List Byte)}
    (hcs : ∀ q ≠ p, cs q = s.calls q)
    (hmine : buffersOf s.order p ++ x.pending = (cs p).filter (· ≠ [])) :
    Inv c { s.setPos p x with calls := cs } := by
  refine h.change (fun q hq => setPos_of_ne hq) (fun _ _ => rfl) hcs ?_ ?_ ?_ ?_
  · rwa [setPos_self]
  · rwa [setPos_self]
  · intro hfree
    apply h.free
    intro q
    by_cases hq : q = p
    · rw [hq]
      exact hp
    · exact setPos_of_ne hq ▸ hfree q
  · intro q buf i st hq
    by_cases hqp : q = p
    · rw [hqp, setPos_self] at hq
      rw [hq] at hx
      cases hx
    · rw [setPos_of_ne hqp] at hq
      exact h.held q buf i st hq

variable {buf : List Byte} {i : ℕ}

theorem Inv.within (h : Inv c s) {st st' : Stage} {v : Vol} {off : ℕ}
    (hp : s.pos p = .inside buf i st)
    (hat : ∀ front, s.order = front ++ [(p, buf)] → c.At s.vol s.off (contents front) buf st →
      c.At v off (contents front) buf st') :
    Inv c { s.setPos p (.inside buf i st') with vol := v, off := off } := by
  have hin : (s.pos p).isInside = true := by rw [hp]; rfl
  have hsingle := h.single p
  have hmine := h.mine p
  rw [hp] at hsingle hmine
  refine h.change (fun q hq => setPos_of_ne hq) (fun _ _ => rfl) (fun _ _ => rfl) ?_ ?_ ?_ ?_
  · rwa [setPos_self]
  · rwa [setPos_self]
  · intro hfree
    have hnot := hfree p
    rw [setPos_self] at hnot
    cases hnot
  · intro q buf' i' st'' hq
    by_cases hqp : q = p
    · rw [hqp, setPos_self] at hq
      cases hq
      obtain ⟨front, hfront, hst⟩ := h.held p buf i st hp
      rw [hqp]
      exact ⟨front, hfront, hat front hfront hst⟩
    · rw [setPos_of_ne hqp] at hq
      exact absurd (h.one hin (by rw [hq]; rfl)) hqp

theorem Inv.lock (h : Inv c s) {v : Vol} (hp : s.pos p = .begun buf i)
    (hok : ilock c.e s.vol = .ok ((), v)) :
    Inv c { s.setPos p (.inside buf i .locked) with vol := v, order := s.order ++ [(p, buf)] } := by
  have hnone : ∀ q, (s.pos q).isInside = false := by
    intro q
    cases hq : s.pos q with
    | inside buf' i' st =>
      obtain ⟨front, -, hat⟩ := h.held q buf' i' st hq
      exact absurd hok hat.busy
    | _ => rfl
  obtain ⟨hoff, hholds⟩ := h.free hnone
  have hsingle := h.single p
  have hmine := h.mine p
  rw [hp] at hsingle hmine
  refine h.change (fun q hq => setPos_of_ne hq) ?_ (fun _ _ => rfl) ?_ ?_ ?_ ?_
  · intro q hq
    rw [buffersOf_append, if_neg (Ne.symm hq), append_nil]
  · rwa [setPos_self]
  · rw [setPos_self, buffersOf_append, if_pos rfl]
    simpa [Sys.setPos, Pos.pending] using hmine
  · intro hfree
    have hnot := hfree p
    rw [setPos_self] at hnot
    cases hnot
  · intro q buf' i' st hq
    by_cases hqp : q = p
    · rw [hqp, setPos_self] at hq
      cases hq
      rw [hqp]
      exact ⟨s.order, rfl, hoff, hholds.lock hok⟩
    · rw [setPos_of_ne hqp] at hq
      have hnot := hnone q
      rw [hq] at hnot
      cases hnot

theorem Inv.unlock (h : Inv c s) {r : ℤ} {v : Vol}
    (hp : s.pos p = .inside buf i (.moved r)) (hok : iunlock c.e s.vol = .ok ((), v)) :
    Inv c { s.setPos p (.left buf i r) with vol := v } := by
  have hin : (s.pos p).isInside = true := by rw [hp]; rfl
  obtain ⟨front, hfront, hr, hoff, hholds⟩ := h.held p buf i _ hp
  have hsingle := h.single p
  have hmine := h.mine p
  rw [hp] at hsingle hmine
  refine h.change (fun q hq => setPos_of_ne hq) (fun _ _ => rfl) (fun _ _ => rfl) ?_ ?_ ?_ ?_
  · rw [setPos_self]
    exact ⟨hsingle.1, hsingle.2.1, hsingle.2.2, hr⟩
  · rwa [setPos_self]
  · intro _
    dsimp only [Sys.setPos]
    rw [hfront, contents_append]
    exact ⟨hoff, hholds.unlock hok⟩
  · intro q buf' i' st hq
    by_cases hqp : q = p
    · rw [hqp, setPos_self] at hq
      cases hq
    · rw [setPos_of_ne hqp] at hq
      exact absurd (h.one hin (by rw [hq]; rfl)) hqp

/-- No write is longer than what `filewrite` writes in one operation. -/
def Small (_ : Sys P) : Act P → Prop
  | .write _ buf => buf.length ≤ maxWrite
  | .go _ => True

theorem chunk_zero (h : buf.length ≤ maxWrite) : chunk buf 0 = buf.length := by
  unfold chunk
  omega

theorem source_zero (buf : List Byte) : source buf 0 = bytesOf buf := by
  funext k
  simp [source]

theorem Inv.fits (h : Inv c s) {st : Stage} (hp : s.pos p = .inside buf i st)
    (hfit : c.base + (contents s.order).length ≤ MAXFILE * BSIZE) :
    (i = 0 ∧ 0 < buf.length ∧ buf.length ≤ maxWrite) ∧ ∀ front, s.order = front ++ [(p, buf)] →
      c.base + (contents front ++ buf).length ≤ MAXFILE * BSIZE := by
  have hsingle := h.single p
  rw [hp] at hsingle
  refine ⟨hsingle, fun front hfront => ?_⟩
  rwa [hfront, contents_append] at hfit

theorem Inv.go (h : Inv c s) (hfit : c.base + (contents s.order).length ≤ MAXFILE * BSIZE)
    (hstep : s.go c.e p (s.pos p) = some (.ok t)) : Inv c t := by
  have hmine := h.mine p
  cases hp : s.pos p with
  | user => rw [hp] at hstep; cases hstep
  | top buf i =>
    have hsingle := h.single p
    rw [hp] at hstep hsingle hmine
    simp only [Sys.go] at hstep
    split_ifs at hstep with hi
    · cases hstep
      have hi0 : i = 0 := by
        rcases hsingle.2 with h0 | hlen
        · exact h0
        · omega
      refine h.outside (.begun buf i) (by rw [hp]; rfl) rfl ⟨hi0, by omega, hsingle.1⟩
        (fun _ _ => rfl) ?_
      rw [Pos.pending, if_pos hi] at hmine
      exact hmine
    · cases hstep
      refine h.outside .user (by rw [hp]; rfl) rfl trivial (fun _ _ => rfl) ?_
      rw [Pos.pending, if_neg hi] at hmine
      exact hmine
  | begun buf i =>
    rw [hp] at hstep
    simp only [Sys.go] at hstep
    split at hstep
    · rename_i v hok
      cases hstep
      exact h.lock hp hok
    · cases hstep
    · cases hstep
  | inside buf i st =>
    obtain ⟨⟨rfl, hpos, hmax⟩, hroom⟩ := h.fits hp hfit
    rw [hp] at hstep
    cases st with
    | locked =>
      simp only [Sys.go, chunk_zero hmax, source_zero] at hstep
      obtain ⟨front, hfront, hat⟩ := h.held p buf 0 _ hp
      split at hstep
      · rename_i r v hok
        cases (hat.start (hroom front hfront) hok).1
      · rename_i v hok
        cases hstep
        exact h.within hp fun front hfront hat => (hat.start (hroom front hfront) hok).2
      · cases hstep
    | writing start tot =>
      simp only [Sys.go, chunk_zero hmax, source_zero] at hstep
      split_ifs at hstep with hlt
      · split at hstep
        · rename_i m v hok
          cases hstep
          exact h.within hp fun front hfront hat => hat.turn hlt hok
        · cases hstep
      · split at hstep
        · rename_i v hok
          cases hstep
          exact h.within hp fun front hfront hat => hat.size hlt (hroom front hfront) hok
        · cases hstep
    | wrote r =>
      cases hstep
      exact h.within hp fun front hfront hat => hat.move hpos (hroom front hfront)
    | moved r =>
      simp only [Sys.go] at hstep
      split at hstep
      · rename_i v hok
        cases hstep
        exact h.unlock hp hok
      · cases hstep
  | left buf i r =>
    obtain ⟨rfl, hpos, hmax, rfl⟩ : Pos.Single (.left buf i r) := hp ▸ h.single p
    rw [hp] at hstep hmine
    simp only [Sys.go, chunk_zero hmax] at hstep
    split_ifs at hstep with hneg hne
    · omega
    · exact absurd rfl hne
    · cases hstep
      have htop : 0 + (buf.length : ℤ).toNat = buf.length := by simp
      rw [htop]
      refine h.outside (.top buf buf.length) (by rw [hp]; rfl) rfl ⟨hmax, .inr rfl⟩
        (fun _ _ => rfl) ?_
      rw [Pos.pending, if_neg (lt_irrefl _)]
      exact hmine

theorem Inv.write (h : Inv c s) (hmax : buf.length ≤ maxWrite)
    (hp : s.pos p = .user) : Inv c { s.setPos p (.top buf 0) with
      calls := update s.calls p (s.calls p ++ [buf]) } := by
  have hmine := h.mine p
  rw [hp, Pos.pending_user, append_nil] at hmine
  refine h.outside (.top buf 0) (by rw [hp]; rfl) rfl ⟨hmax, .inl rfl⟩
    (fun q hq => update_of_ne hq ..) ?_
  rw [update_self, filter_append, ← hmine, Pos.pending]
  cases buf with
  | nil => rfl
  | cons b buf => rfl

theorem Inv.next {a : Act P} (h : Inv c s) (ha : Small s a)
    (hfit : c.base + (contents s.order).length ≤ MAXFILE * BSIZE)
    (hstep : step c.e s a = some (.ok t)) : Inv c t := by
  cases a with
  | go p => exact h.go hfit hstep
  | write p buf =>
    simp only [step] at hstep
    split at hstep
    · rename_i hp
      cases hstep
      exact h.write ha hp
    · cases hstep

/-- Buffers are only added to those for which the lock was taken. -/
theorem order_of_step {a : Act P} {e : Ix} (hstep : step e s a = some (.ok t)) :
    (contents s.order).length ≤ (contents t.order).length := by
  cases a with
  | write p buf =>
    simp only [step] at hstep
    split at hstep
    · cases hstep
      rfl
    · cases hstep
  | go p =>
    simp only [step, Sys.go] at hstep
    split at hstep
    all_goals try split_ifs at hstep
    all_goals try split at hstep
    all_goals cases hstep
    all_goals first | rfl | skip
    rw [contents_append, length_append]
    exact Nat.le_add_right ..

structure Start (c : Scene) (s : Sys P) : Prop where
  vol : Rep c.sb c.H ∅ c.V s.vol
  inum : (s.vol.icache c.e).inum = c.n
  off : s.off = c.base
  pos : ∀ p, s.pos p = .user
  calls : ∀ p, s.calls p = []
  order : s.order = []

theorem Start.inv (h : Start c s) : Inv c s := by
  refine ⟨?_, ?_, ?_, ?_⟩
  · intro p
    rw [h.pos p]
    trivial
  · intro _
    rw [h.order, h.off]
    refine ⟨rfl, ?_, h.inum⟩
    rw [show contents ([] : List (P × List Byte)) = [] from rfl, written_nil c.base_le]
    exact h.vol
  · intro p buf i st hp
    rw [h.pos p] at hp
    cases hp
  · intro p
    rw [h.pos p, h.order, h.calls p]
    rfl

abbrev Reachable (c : Scene) : Sys P → Prop :=
  Reach (Start c) Small fun s a t => step c.e s a = some (.ok t)

theorem Reachable.inv (h : Reachable c s)
    (hfit : c.base + (contents s.order).length ≤ MAXFILE * BSIZE) : Inv c s := by
  induction h with
  | start hs => exact hs.inv
  | step _ ha hstep ih =>
    have hle := order_of_step hstep
    exact (ih (by omega)).next ha (by omega) hstep

/-- Any number of processes write buffers of at most `maxWrite` bytes through one `struct file` to
a regular file, which stays within `MAXFILE` blocks. The offset is never behind the end of the
file. When nobody holds the inode, the offset has advanced by what was written, and the file holds
the buffers one after the other, in the order in which the lock was taken, from where the offset was
on. Every process finds there each of its buffers once, in the order of its calls. -/
theorem shared_offset_loses_nothing (h : Reachable c s)
    (hfit : c.base + (contents s.order).length ≤ MAXFILE * BSIZE) :
    s.off ≤ inodeSize s.vol c.e ∧
    ((∀ p, (s.pos p).isInside = false) →
      s.off = c.base + (contents s.order).length ∧
      Rep c.sb c.H ∅ (update c.V c.n
        ((c.V c.n).write (bytesOf (contents s.order)) c.base (contents s.order).length)) s.vol) ∧
    ∀ p, s.pos p = .user → buffersOf s.order p = (s.calls p).filter (· ≠ []) := by
  have hinv := h.inv hfit
  refine ⟨?_, ?_, ?_⟩
  · by_cases hfree : ∀ p, (s.pos p).isInside = false
    · obtain ⟨hoff, hholds⟩ := hinv.free hfree
      rw [hoff, hholds.size]
      exact le_max_right _ _
    · push Not at hfree
      obtain ⟨p, hp⟩ := hfree
      cases hpos : s.pos p with
      | inside buf i st =>
        obtain ⟨front, -, hat⟩ := hinv.held p buf i st hpos
        exact hat.off_le
      | _ => rw [hpos] at hp; exact absurd rfl hp
  · intro hfree
    obtain ⟨hoff, hholds⟩ := hinv.free hfree
    exact ⟨hoff, hholds.1⟩
  · intro p hp
    have hmine := hinv.mine p
    rwa [hp, Pos.pending_user, append_nil] at hmine

end

def smallScene : Scene where
  sb := smallDisk
  H := {0}
  V := nodes smallDisk (diskInode smallDisk smallBlk) smallBlk
  e := 0
  n := 1
  base := 0
  held := Multiset.mem_singleton_self 0
  file := by decide +kernel
  base_le := Nat.zero_le _

def smallStart : Sys Bool := ⟨smallVol, 0, fun _ => .user, fun _ => [], []⟩

def smallb (_ : Sys Bool) : Act Bool → Bool
  | .write _ buf => buf.length ≤ maxWrite
  | .go _ => true

/-- Both have called `write` when the second one takes the lock first. -/
theorem shared_offset_loses_nothing_two : ∃ s : Sys Bool, Reachable smallScene s ∧
    s.order = [(true, [3]), (false, [1, 2])] ∧ (∀ p, s.pos p = .user) ∧ s.off = 3 ∧
    Rep smallDisk {0} ∅ (update smallScene.V 1
      ((smallScene.V 1).write (bytesOf [3, 1, 2]) 0 3)) s.vol := by
  have hstart : Reachable smallScene smallStart :=
    .start ⟨smallVol_rep, rfl, rfl, fun _ => rfl, fun _ => rfl, rfl⟩
  obtain ⟨s, hs, hp⟩ := Reach.exists_of_execs smallb _
    (fun s => decide (s.order = [(true, [3]), (false, [1, 2])]) &&
      (match s.pos false, s.pos true with | .user, .user => true | _, _ => false))
    (fun s a ha => by cases a with
      | write p buf => exact of_decide_eq_true (p := buf.length ≤ maxWrite) ha
      | go p => trivial)
    (fun _ _ _ => eq_of_reached)
    ([.write false [1, 2], .go false, .write true [3]] ++ List.replicate 9 (.go true) ++
      List.replicate 8 (.go false)) hstart (by decide +kernel)
  simp only [Bool.and_eq_true, decide_eq_true_eq] at hp
  obtain ⟨horder, huser⟩ := hp
  have hpos : ∀ p, s.pos p = .user := by
    split at huser
    · rename_i hfalse htrue
      intro p
      cases p with
      | false => exact hfalse
      | true => exact htrue
    · cases huser
  have hcontents : contents s.order = [3, 1, 2] := by
    rw [horder]
    rfl
  obtain ⟨-, hfree, -⟩ := shared_offset_loses_nothing hs (by rw [hcontents]; decide)
  obtain ⟨hoff, hrep⟩ := hfree fun p => by rw [hpos p]; rfl
  rw [hcontents] at hoff hrep
  exact ⟨s, hs, horder, hpos, hoff, hrep⟩

end Xv6Threads.Fs.SharedOffset
