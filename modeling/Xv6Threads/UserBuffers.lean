import Mathlib.Algebra.Group.Nat.Defs
import Mathlib.Data.List.Range
import Xv6Threads.Param

namespace Xv6Threads.UserBuffers

open Option List Nat
open BitVec (ofNat ofInt toNat_add ofNat_add)

abbrev Word := BitVec 32

abbrev KERNBASE : ℕ := 0x80000000
abbrev T_DEV : ℕ := 3
abbrev CONSOLE : ℤ := 1

structure Inode where
  type : ℕ
  major : ℤ
  size : Word

inductive Kind
  | FD_NONE | FD_PIPE
  | FD_INODE (ip : Inode)

structure File where
  kind : Kind
  readable : Bool
  writable : Bool
  off : Word

/-- The calling process; `word` is what its memory holds at an address. -/
structure Caller where
  sz : Word
  esp : Word
  word : Word → Word
  ofile : Fin NOFILE → Option File

/-- What other processes and the user at the console do during the call. -/
structure Env where
  /-- the number of bytes in the pipe, or none if the reader is killed while it waits -/
  piped : Option ℕ
  /-- how many bytes a writer gets into the pipe before it is closed or the writer killed -/
  room : ℕ
  /-- what is typed before the reader is killed -/
  typed : List (BitVec 8)

/-- What is kept of a call: the result, none after a panic, and the addresses in the order in which
they are touched. -/
structure Outcome where
  ret : Option ℤ
  touched : List Word
  deriving DecidableEq

def fetchint (c : Caller) (addr : Word) : Option Word :=
  if c.sz ≤ addr ∨ c.sz < addr + 4 then none else some (c.word addr)

def argint (c : Caller) (n : ℕ) : Option Word := fetchint c (c.esp + 4 + 4 * ofNat 32 n)

/-- `size` is an `int`, and the sum is unsigned. -/
def argptr (c : Caller) (n : ℕ) (size : Word) : Option Word :=
  (argint c n).bind fun i => if c.sz ≤ i ∨ c.sz < i + size then none else some i

def argfd (c : Caller) (n : ℕ) : Option File :=
  (argint c n).bind fun fd =>
    if h : 0 ≤ fd.toInt ∧ fd.toInt < NOFILE then c.ofile ⟨fd.toInt.toNat, by omega⟩ else none

/-- `m` addresses from `a` on. -/
def block (a : Word) (m : ℕ) : List Word := (List.range m).map fun j => a + ofNat 32 j

/-- The copying loop of `piperead` at `i`, with `avail` bytes in the pipe. -/
def pipereadLoop (addr : Word) (n : ℤ) : ℕ → ℕ → Outcome
  | 0, i => ⟨some i, []⟩
  | avail + 1, i =>
    if i < n then
      let r := pipereadLoop addr n avail (i + 1)
      ⟨r.ret, (addr + ofNat 32 i) :: r.touched⟩
    else ⟨some i, []⟩

def piperead (env : Env) (addr : Word) (n : ℤ) : Outcome :=
  match env.piped with
  | none => ⟨some (-1), []⟩
  | some avail => pipereadLoop addr n avail 0

def pipewriteLoop (addr : Word) (n : ℤ) : ℕ → ℕ → Outcome
  | 0, i => if i < n then ⟨some (-1), []⟩ else ⟨some n, []⟩
  | room + 1, i =>
    if i < n then
      let r := pipewriteLoop addr n room (i + 1)
      ⟨r.ret, (addr + ofNat 32 i) :: r.touched⟩
    else ⟨some n, []⟩

def pipewrite (env : Env) (addr : Word) (n : ℤ) : Outcome := pipewriteLoop addr n env.room 0

/-- The loop of `consoleread`; `target` is the length asked for. -/
def consolereadLoop (target : ℤ) : List (BitVec 8) → Word → ℤ → Outcome
  | [], _, n => if 0 < n then ⟨some (-1), []⟩ else ⟨some (target - n), []⟩
  | c :: typed, dst, n =>
    if 0 < n then
      if c = 4 then ⟨some (target - n), []⟩
      else if c = 10 then ⟨some (target - (n - 1)), [dst]⟩
      else
        let r := consolereadLoop target typed (dst + 1) (n - 1)
        ⟨r.ret, dst :: r.touched⟩
    else ⟨some (target - n), []⟩

def consoleread (env : Env) (dst : Word) (n : ℤ) : Outcome := consolereadLoop n env.typed dst n

def consolewrite (buf : Word) (n : ℤ) : Outcome := ⟨some n, block buf n.toNat⟩

/-- `min(a, b)`. -/
def least (a b : Word) : Word := if a < b then a else b

/-- The loop of `readi` and of `writei` over the blocks of a file. -/
def copyLoop : ℕ → Word → Word → Word → Word → List Word
  | 0, _, _, _, _ => []
  | fuel + 1, n, tot, off, a =>
    if tot < n then
      let m := least (n - tot) (ofNat 32 BSIZE - off % ofNat 32 BSIZE)
      block a m.toNat ++ copyLoop fuel n (tot + m) (off + m) (a + m)
    else []

def readi (env : Env) (ip : Inode) (dst off n : Word) : Outcome :=
  if ip.type = T_DEV then
    if ip.major < 0 ∨ NDEV ≤ ip.major ∨ ip.major ≠ CONSOLE then ⟨some (-1), []⟩
    else consoleread env dst n.toInt
  else if ip.size < off ∨ off + n < off then ⟨some (-1), []⟩
  else
    let n := if ip.size < off + n then ip.size - off else n
    ⟨some n.toInt, copyLoop n.toNat n 0 off dst⟩

/-- The outcome and the size afterwards. -/
def writei (ip : Inode) (src off n : Word) : Outcome × Word :=
  if ip.type = T_DEV then
    if ip.major < 0 ∨ NDEV ≤ ip.major ∨ ip.major ≠ CONSOLE then (⟨some (-1), []⟩, ip.size)
    else (consolewrite src n.toInt, ip.size)
  else if ip.size < off ∨ off + n < off then (⟨some (-1), []⟩, ip.size)
  else if ofNat 32 (MAXFILE * BSIZE) < off + n then (⟨some (-1), []⟩, ip.size)
  else (⟨some n.toInt, copyLoop n.toNat n 0 off src⟩,
    if 0 < n ∧ ip.size < off + n then off + n else ip.size)

def fileread (env : Env) (f : File) (addr n : Word) : Outcome :=
  if f.readable = false then ⟨some (-1), []⟩
  else
    match f.kind with
    | .FD_PIPE => piperead env addr n.toInt
    | .FD_INODE ip => readi env ip addr f.off n
    | .FD_NONE => ⟨none, []⟩

/-- `max` of `filewrite`. -/
abbrev maxWrite : ℕ := (LOGSIZE - 1 - 1 - 2) / 2 * 512

def filewriteLoop (addr : Word) (n : ℤ) : ℕ → Inode → Word → ℤ → Outcome
  | 0, _, _, i => ⟨some (if i = n then n else -1), []⟩
  | fuel + 1, ip, off, i =>
    if i < n then
      let n1 := min (n - i) maxWrite
      let (w, size) := writei ip (addr + ofInt 32 i) off (ofInt 32 n1)
      match w.ret with
      | none => w
      | some r =>
        if r < 0 then ⟨some (if i = n then n else -1), w.touched⟩
        else if r ≠ n1 then ⟨none, w.touched⟩
        else
          let off := if 0 < r then off + ofInt 32 r else off
          let o := filewriteLoop addr n fuel { ip with size := size } off (i + r)
          ⟨o.ret, w.touched ++ o.touched⟩
    else ⟨some (if i = n then n else -1), []⟩

def filewrite (env : Env) (f : File) (addr n : Word) : Outcome :=
  if f.writable = false then ⟨some (-1), []⟩
  else
    match f.kind with
    | .FD_PIPE => pipewrite env addr n.toInt
    | .FD_INODE ip => filewriteLoop addr n.toInt n.toInt.toNat ip f.off 0
    | .FD_NONE => ⟨none, []⟩

/-- The arguments of `sys_read` and of `sys_write`. -/
def ioArgs (c : Caller) : Option (File × Word × Word) :=
  (argfd c 0).bind fun f => (argint c 2).bind fun n => (argptr c 1 n).map fun p => (f, p, n)

def sysRead (env : Env) (c : Caller) : Outcome :=
  match ioArgs c with
  | none => ⟨some (-1), []⟩
  | some (f, p, n) => fileread env f p n

def sysWrite (env : Env) (c : Caller) : Outcome :=
  match ioArgs c with
  | none => ⟨some (-1), []⟩
  | some (f, p, n) => filewrite env f p n

/-- All addresses are among the first `n` from `p` on. -/
def Within (p : Word) (n : ℕ) (l : List Word) : Prop := ∀ x ∈ l, ∃ j < n, x = p + ofNat 32 j

section
variable {p : Word} {n m : ℕ} {l l' : List Word}

theorem within_nil : Within p n [] := fun _ hx => absurd hx not_mem_nil

theorem Within.cons {i : ℕ} (hi : i < n) (h : Within p n l) :
    Within p n ((p + ofNat 32 i) :: l) := by
  intro x hx
  rcases mem_cons.mp hx with rfl | hx
  · exact ⟨i, hi, rfl⟩
  · exact h x hx

theorem Within.append (h : Within p n l) (h' : Within p n l') : Within p n (l ++ l') := by
  intro x hx
  rcases mem_append.mp hx with hx | hx
  · exact h x hx
  · exact h' x hx

theorem Within.shift {k : ℕ} (hk : k + m ≤ n) (h : Within (p + ofNat 32 k) m l) : Within p n l := by
  intro x hx
  obtain ⟨j, hj, rfl⟩ := h x hx
  refine ⟨k + j, by omega, ?_⟩
  rw [BitVec.add_assoc, ofNat_add]

theorem Within.mono (hm : m ≤ n) (h : Within p m l) : Within p n l := by
  intro x hx
  obtain ⟨j, hj, rfl⟩ := h x hx
  exact ⟨j, by omega, rfl⟩

theorem block_within (p : Word) (n : ℕ) : Within p n (block p n) := by
  intro x hx
  obtain ⟨j, hj, rfl⟩ := mem_map.mp hx
  exact ⟨j, mem_range.mp hj, rfl⟩

theorem block_append (p : Word) (m n : ℕ) :
    block p m ++ block (p + ofNat 32 m) n = block p (m + n) := by
  unfold block
  rw [List.range_add, List.map_append, List.map_map]
  congr 1
  refine map_congr_left fun j _ => ?_
  rw [Function.comp_apply, BitVec.add_assoc, ofNat_add]

theorem Within.bounds {sz : Word} (h : Within p n l) (hp : p.toNat + n ≤ sz.toNat) :
    ∀ x ∈ l, p.toNat ≤ x.toNat ∧ x.toNat < p.toNat + n := by
  intro x hx
  obtain ⟨j, hj, rfl⟩ := h x hx
  rw [toNat_add, BitVec.toNat_ofNat]
  have hlt : p.toNat + j < 2 ^ 32 := by omega
  rw [mod_eq_of_lt (a := j) (by omega), mod_eq_of_lt hlt]
  omega

end

theorem toInt_of_nonneg {w : Word} (h : 0 ≤ w.toInt) : w.toInt = w.toNat := by
  rw [BitVec.toInt_eq_toNat_cond] at h ⊢
  split_ifs at h ⊢ <;> omega

theorem copyLoop_eq (fuel : ℕ) (n tot off a : Word) (htot : tot.toNat ≤ n.toNat)
    (hfuel : n.toNat - tot.toNat ≤ fuel) :
    copyLoop fuel n tot off a = block a (n.toNat - tot.toNat) := by
  induction fuel generalizing tot off a with
  | zero =>
    rw [le_zero.mp hfuel]
    rfl
  | succ fuel ih =>
    unfold copyLoop
    by_cases hlt : tot < n
    · rw [if_pos hlt]
      have hlt' : tot.toNat < n.toNat := hlt
      have hsub : (n - tot).toNat = n.toNat - tot.toNat :=
        BitVec.toNat_sub_of_le (BitVec.le_def.mpr hlt'.le)
      have hmod : (off % ofNat 32 BSIZE).toNat = off.toNat % 512 := by
        rw [BitVec.toNat_umod]
        rfl
      have hrest : (ofNat 32 BSIZE - off % ofNat 32 BSIZE).toNat =
          512 - off.toNat % 512 := by
        rw [BitVec.toNat_sub, hmod]
        change (2 ^ 32 - off.toNat % 512 + 512) % 2 ^ 32 = _
        omega
      -- at least one byte is copied, and no more than are left
      have hm : ∃ m : Word, least (n - tot) (ofNat 32 BSIZE - off % ofNat 32 BSIZE) = m ∧
          1 ≤ m.toNat ∧ m.toNat ≤ n.toNat - tot.toNat := by
        unfold least
        split_ifs with hle
        · exact ⟨_, rfl, by omega, by omega⟩
        · have hle' : ¬(n - tot).toNat < (ofNat 32 BSIZE - off % ofNat 32 BSIZE).toNat :=
            hle
          exact ⟨_, rfl, by omega, by omega⟩
      obtain ⟨m, hm, hpos, hmle⟩ := hm
      have hn := n.isLt
      have hadd : (tot + m).toNat = tot.toNat + m.toNat := by
        rw [toNat_add, mod_eq_of_lt (by omega)]
      simp only [hm]
      rw [ih (tot + m) (off + m) (a + m) (by omega) (by omega), hadd]
      have happ := block_append a m.toNat (n.toNat - (tot.toNat + m.toNat))
      rw [BitVec.ofNat_toNat, BitVec.setWidth_eq] at happ
      rw [happ, show m.toNat + (n.toNat - (tot.toNat + m.toNat)) = n.toNat - tot.toNat by omega]
    · rw [if_neg hlt]
      have hle : n.toNat ≤ tot.toNat := Nat.le_of_not_lt hlt
      rw [show n.toNat - tot.toNat = 0 by omega]
      rfl

theorem copyLoop_within (n off a : Word) : Within a n.toNat (copyLoop n.toNat n 0 off a) := by
  rw [copyLoop_eq n.toNat n 0 off a (zero_le _) (sub_le _ _)]
  exact (block_within a _).mono (sub_le _ _)

theorem pipereadLoop_within (addr : Word) (n : ℕ) (avail i : ℕ) :
    Within addr n (pipereadLoop addr n avail i).touched := by
  induction avail generalizing i with
  | zero => exact within_nil
  | succ avail ih =>
    unfold pipereadLoop
    split_ifs with hi
    · exact (ih (i + 1)).cons (by omega)
    · exact within_nil

theorem pipewriteLoop_within (addr : Word) (n : ℕ) (room i : ℕ) :
    Within addr n (pipewriteLoop addr n room i).touched := by
  induction room generalizing i with
  | zero =>
    unfold pipewriteLoop
    split_ifs <;> exact within_nil
  | succ room ih =>
    unfold pipewriteLoop
    split_ifs with hi
    · exact (ih (i + 1)).cons (by omega)
    · exact within_nil

theorem consolereadLoop_within (target : ℤ) (typed : List (BitVec 8)) (p : Word) (k n : ℕ) :
    Within p (k + n) (consolereadLoop target typed (p + ofNat 32 k) n).touched := by
  induction typed generalizing k n with
  | nil =>
    unfold consolereadLoop
    split_ifs <;> exact within_nil
  | cons c typed ih =>
    unfold consolereadLoop
    split_ifs with hn hd hnl
    · exact within_nil
    · exact within_nil.cons (by omega)
    · obtain ⟨n, rfl⟩ : ∃ m, n = m + 1 := ⟨n - 1, by omega⟩
      have hrest := ih (k + 1) n
      rw [show k + 1 + n = k + (n + 1) by omega] at hrest
      refine Within.cons (by omega) ?_
      have hdst : p + ofNat 32 k + 1 = p + ofNat 32 (k + 1) := by
        rw [BitVec.add_assoc, ofNat_add]
        rfl
      rw [hdst, show ((n + 1 : ℕ) : ℤ) - 1 = n by omega]
      exact hrest
    · exact within_nil

theorem readi_within (env : Env) (ip : Inode) (dst off n : Word) (hn : 0 ≤ n.toInt) :
    Within dst n.toNat (readi env ip dst off n).touched := by
  unfold readi
  split_ifs with hdev hmajor hbad hend
  · exact within_nil
  · rw [consoleread, toInt_of_nonneg hn]
    have hloop := consolereadLoop_within n.toNat env.typed dst 0 n.toNat
    simpa using hloop
  · exact within_nil
  · -- the count is cut at the end of the file
    refine (copyLoop_within (ip.size - off) off dst).mono ?_
    rw [not_or] at hbad
    have hoff : off.toNat ≤ ip.size.toNat := Nat.le_of_not_lt hbad.1
    have hwrap : off.toNat ≤ (off + n).toNat := Nat.le_of_not_lt hbad.2
    have hlt : ip.size.toNat < (off + n).toNat := hend
    rw [BitVec.toNat_sub_of_le (BitVec.le_def.mpr hoff)]
    rw [toNat_add] at hwrap hlt
    have := n.isLt
    have := off.isLt
    omega
  · exact copyLoop_within n off dst

theorem writei_within (ip : Inode) (src off n : Word) (hn : 0 ≤ n.toInt) :
    Within src n.toNat (writei ip src off n).1.touched := by
  unfold writei
  split_ifs
  · exact within_nil
  · rw [consolewrite, toInt_of_nonneg hn]
    exact block_within src n.toNat
  · exact within_nil
  · exact within_nil
  · exact copyLoop_within n off src
  · exact copyLoop_within n off src

theorem filewriteLoop_within (addr : Word) (n : ℕ) (hlt : n < 2 ^ 31) (fuel : ℕ) (ip : Inode)
    (off : Word) (i : ℕ) : Within addr n (filewriteLoop addr n fuel ip off i).touched := by
  induction fuel generalizing ip off i with
  | zero => exact within_nil
  | succ fuel ih =>
    unfold filewriteLoop
    by_cases hi : (i : ℤ) < n
    · rw [if_pos hi]
      -- the piece that is written next
      obtain ⟨m, hm, hmn⟩ : ∃ m : ℕ, min ((n : ℤ) - i) maxWrite = m ∧ i + m ≤ n :=
        ⟨(min ((n : ℤ) - i) maxWrite).toNat, by omega, by omega⟩
      have hword : (ofInt 32 (m : ℤ)) = ofNat 32 m := BitVec.ofInt_natCast ..
      have hnat : (ofNat 32 m).toNat = m := by
        rw [BitVec.toNat_ofNat, mod_eq_of_lt (by omega)]
      have hint : 0 ≤ (ofNat 32 m).toInt := by
        rw [BitVec.toInt_eq_toNat_cond, hnat, if_pos (by omega)]
        omega
      have hpiece := writei_within ip (addr + ofNat 32 i) off (ofNat 32 m) hint
      rw [hnat] at hpiece
      have hpiece := hpiece.shift hmn
      simp only [hm, hword, BitVec.ofInt_natCast]
      generalize hw : writei ip (addr + ofNat 32 i) off (ofNat 32 m) = w at hpiece
      obtain ⟨⟨ret, touched⟩, size⟩ := w
      cases ret with
      | none => exact hpiece
      | some r =>
        by_cases hneg : r < 0
        · simp only [if_pos hneg]
          exact hpiece
        · by_cases hr : r ≠ m
          · simp only [if_neg hneg, if_pos hr]
            exact hpiece
          · obtain rfl : r = m := not_not.mp hr
            simp only [if_neg hneg, if_neg hr]
            refine hpiece.append ?_
            have := ih { ip with size := size }
              (if 0 < (m : ℤ) then off + ofInt 32 m else off) (i + m)
            push_cast at this
            exact this
    · rw [if_neg hi]
      exact within_nil

theorem fileread_within (env : Env) (f : File) (addr n : Word) (hn : 0 ≤ n.toInt) :
    Within addr n.toNat (fileread env f addr n).touched := by
  unfold fileread
  split_ifs
  · exact within_nil
  · split
    · rw [piperead, toInt_of_nonneg hn]
      split
      · exact within_nil
      · exact pipereadLoop_within addr n.toNat _ 0
    · exact readi_within env _ addr f.off n hn
    · exact within_nil

theorem filewrite_within (env : Env) (f : File) (addr n : Word) (hn : 0 ≤ n.toInt) :
    Within addr n.toNat (filewrite env f addr n).touched := by
  have hlt : n.toNat < 2 ^ 31 := by
    have := toInt_of_nonneg hn
    have := BitVec.toInt_lt (x := n)
    omega
  unfold filewrite
  split_ifs
  · exact within_nil
  · split
    · rw [pipewrite, toInt_of_nonneg hn]
      exact pipewriteLoop_within addr n.toNat _ 0
    · rw [toInt_of_nonneg hn]
      exact filewriteLoop_within addr n.toNat hlt _ _ f.off 0
    · exact within_nil

/-- `p` and `n` are arguments, and `[p, p + n)` lies below `sz`. -/
def Describes (c : Caller) (p n : Word) : Prop :=
  argint c 1 = some p ∧ argint c 2 = some n ∧ 0 ≤ n.toInt ∧ p.toNat + n.toNat ≤ c.sz.toNat

theorem ioArgs_describes {c : Caller} {f : File} {p n : Word} (hsz : c.sz.toNat < KERNBASE)
    (h : ioArgs c = some (f, p, n)) : argint c 2 = some n ∧ (0 ≤ n.toInt → Describes c p n) := by
  unfold ioArgs at h
  obtain ⟨f', -, h⟩ := bind_eq_some_iff.mp h
  obtain ⟨n', hn', h⟩ := bind_eq_some_iff.mp h
  obtain ⟨p', hp', heq⟩ := map_eq_some_iff.mp h
  cases heq
  unfold argptr at hp'
  obtain ⟨i, hi, hif⟩ := bind_eq_some_iff.mp hp'
  split_ifs at hif with hbad
  cases hif
  refine ⟨hn', fun hn => ⟨hi, hn', hn, ?_⟩⟩
  rw [not_or] at hbad
  have hlow : p.toNat < c.sz.toNat := Nat.lt_of_not_le hbad.1
  have hend : (p + n).toNat ≤ c.sz.toNat := Nat.le_of_not_lt hbad.2
  have hnat := toInt_of_nonneg hn
  have := BitVec.toInt_lt (x := n)
  have hsz : c.sz.toNat < 2 ^ 31 := hsz
  rw [toNat_add, mod_eq_of_lt (by omega)] at hend
  exact hend

/-- The call failed and touched nothing. -/
abbrev failed : Outcome := ⟨some (-1), []⟩

def Respects (c : Caller) (o : Outcome) : Prop :=
  (∀ p n, Describes c p n → ∀ x ∈ o.touched, p.toNat ≤ x.toNat ∧ x.toNat < p.toNat + n.toNat) ∧
  ((∀ p n, ¬Describes c p n) → o = failed)

/-- `argptr` lets a negative length pass only if the sum wraps; then the call itself has to fail. -/
theorem respects_iff {c : Caller} {o : Outcome} (hsz : c.sz.toNat < KERNBASE)
    (hnone : ioArgs c = none → o = failed)
    (hsome : ∀ f p n, ioArgs c = some (f, p, n) → 0 ≤ n.toInt → Within p n.toNat o.touched) :
    Respects c o ↔ ∀ f p n, ioArgs c = some (f, p, n) → n.toInt < 0 → o = failed := by
  cases hargs : ioArgs c with
  | none =>
    rw [hnone hargs]
    exact iff_of_true ⟨fun p n _ x hx => absurd hx not_mem_nil, fun _ => rfl⟩
      fun _ _ _ _ _ => rfl
  | some a =>
    obtain ⟨f, p, n⟩ := a
    obtain ⟨hn, hd⟩ := ioArgs_describes hsz hargs
    have hsame : ∀ p' n', Describes c p' n' → n' = n := fun p' n' hd' =>
      some.inj (hd'.2.1.symm.trans hn)
    constructor
    · rintro ⟨-, hfail⟩ f' p' n' heq hneg
      cases heq
      refine hfail fun p' n' hd' => ?_
      have hpos := hd'.2.2.1
      rw [hsame p' n' hd'] at hpos
      omega
    · intro hneg
      by_cases hpos : 0 ≤ n.toInt
      · refine ⟨fun p' n' hd' => ?_, fun hno => absurd (hd hpos) (hno p n)⟩
        obtain rfl : p = p' := some.inj ((hd hpos).1.symm.trans hd'.1)
        obtain rfl := hsame p n' hd'
        exact (hsome f p n' hargs hpos).bounds (hd hpos).2.2.2
      · rw [hneg f p n rfl (by omega)]
        exact ⟨fun _ _ _ x hx => absurd hx not_mem_nil, fun _ => rfl⟩

/-- When `fileread` fails for a negative length: a pipe and the console return 0 instead. -/
def ReadFails (env : Env) (f : File) (n : Word) : Prop :=
  f.readable = false ∨
  match f.kind with
  | .FD_PIPE => env.piped = none
  | .FD_INODE ip =>
    if ip.type = T_DEV then ip.major ≠ CONSOLE else ip.size < f.off ∨ f.off + n < f.off
  | .FD_NONE => False

/-- When `filewrite` fails for a negative length: a pipe returns the length. -/
def WriteFails (f : File) (n : Word) : Prop :=
  f.writable = false ∨
  match f.kind with
  | .FD_PIPE => n.toInt = -1
  | .FD_INODE _ => True
  | .FD_NONE => False

/-- Nothing is touched only if there is nothing to copy, and then 0 is returned. -/
theorem copied_ne_failed (m off a : Word) :
    (⟨some m.toInt, copyLoop m.toNat m 0 off a⟩ : Outcome) ≠ failed := by
  intro h
  obtain ⟨hret, htouched⟩ := Outcome.mk.inj h
  rw [copyLoop_eq m.toNat m 0 off a (zero_le _) (sub_le _ _)] at htouched
  have hm : m.toNat = 0 := by
    have hlen := congrArg List.length htouched
    simpa [block] using hlen
  have hint : m.toInt = 0 := by
    rw [BitVec.toInt_eq_toNat_cond, hm]
    rfl
  rw [hint] at hret
  cases hret

theorem readi_negative {n : Word} (hn : n.toInt < 0) (env : Env) (ip : Inode) (dst off : Word) :
    readi env ip dst off n = failed ↔
      if ip.type = T_DEV then ip.major ≠ CONSOLE else ip.size < off ∨ off + n < off := by
  unfold readi
  split_ifs with hdev hmajor hbad
  · refine iff_of_true rfl fun hone => ?_
    rw [hone] at hmajor
    revert hmajor
    decide
  · -- the console reads nothing and returns 0
    refine iff_of_false (fun h => ?_) (by tauto)
    have hzero : consoleread env dst n.toInt = ⟨some 0, []⟩ := by
      unfold consoleread
      cases env.typed <;> rw [consolereadLoop, if_neg (by omega), Int.sub_self]
    rw [hzero] at h
    cases h
  · exact iff_of_true rfl hbad
  all_goals exact iff_of_false (copied_ne_failed _ off dst) hbad

theorem fileread_negative {n : Word} (hn : n.toInt < 0) (env : Env) (f : File) (addr : Word) :
    fileread env f addr n = failed ↔ ReadFails env f n := by
  unfold fileread ReadFails
  cases hreadable : f.readable
  · exact iff_of_true rfl (.inl rfl)
  · rw [if_neg (by decide), or_iff_right (by decide)]
    cases f.kind with
    | FD_NONE => exact iff_of_false (fun h => by cases h) id
    | FD_INODE ip => exact readi_negative hn env ip addr f.off
    | FD_PIPE =>
      dsimp only [piperead]
      cases env.piped with
      | none => exact iff_of_true rfl rfl
      | some avail =>
        have hzero : pipereadLoop addr n.toInt avail 0 = ⟨some 0, []⟩ := by
          cases avail with
          | zero => rfl
          | succ avail =>
            rw [pipereadLoop, if_neg (by omega)]
            rfl
        dsimp only
        rw [hzero]
        exact iff_of_false (fun h => by cases h) fun h => by cases h

theorem filewrite_negative {n : Word} (hn : n.toInt < 0) (env : Env) (f : File) (addr : Word) :
    filewrite env f addr n = failed ↔ WriteFails f n := by
  unfold filewrite WriteFails
  cases hwritable : f.writable
  · exact iff_of_true rfl (.inl rfl)
  · rw [if_neg (by decide), or_iff_right (by decide)]
    cases f.kind with
    | FD_NONE => exact iff_of_false (fun h => by cases h) id
    | FD_INODE ip =>
      dsimp only
      rw [Int.toNat_of_nonpos (by omega), filewriteLoop, if_neg (by omega)]
      exact iff_of_true rfl trivial
    | FD_PIPE =>
      have hret : pipewrite env addr n.toInt = ⟨some n.toInt, []⟩ := by
        unfold pipewrite
        cases env.room <;> rw [pipewriteLoop, if_neg (by omega)]
      dsimp only
      rw [hret, Outcome.mk.injEq, some_inj]
      exact and_iff_left rfl

/-- A call touches its buffer only, and fails without touching anything if the buffer does not lie
in the process: exactly if a negative length, where `argptr` lets it pass, makes the call fail. -/
theorem io_within_buffer (env : Env) (c : Caller) (hsz : c.sz.toNat < KERNBASE) :
    (Respects c (sysRead env c) ↔
      ∀ f p n, ioArgs c = some (f, p, n) → n.toInt < 0 → ReadFails env f n) ∧
    (Respects c (sysWrite env c) ↔
      ∀ f p n, ioArgs c = some (f, p, n) → n.toInt < 0 → WriteFails f n) := by
  constructor
  · rw [respects_iff hsz (fun hargs => by rw [sysRead, hargs]) fun f p n hargs hn => by
      rw [sysRead, hargs]
      exact fileread_within env f p n hn]
    refine forall_congr' fun f => forall_congr' fun p => forall_congr' fun n =>
      forall_congr' fun hargs => forall_congr' fun hn => ?_
    rw [sysRead, hargs]
    exact fileread_negative hn env f p
  · rw [respects_iff hsz (fun hargs => by rw [sysWrite, hargs]) fun f p n hargs hn => by
      rw [sysWrite, hargs]
      exact filewrite_within env f p n hn]
    refine forall_congr' fun f => forall_congr' fun p => forall_congr' fun n =>
      forall_congr' fun hargs => forall_congr' fun hn => ?_
    rw [sysWrite, hargs]
    exact filewrite_negative hn env f p

/-- A process of one page with the arguments `0`, `p` and `n` on its stack, and a readable file of
ten bytes as descriptor 0. -/
def onePage (p n : Word) : Caller where
  sz := 4096
  esp := 64
  word a := if a = 72 then p else if a = 76 then n else 0
  ofile fd := if fd = 0 then some ⟨.FD_INODE ⟨2, 0, 10⟩, true, true, 0⟩ else none

def quiet : Env := ⟨none, 0, []⟩

theorem io_within_buffer_file : Respects (onePage 100 4) (sysRead quiet (onePage 100 4)) ∧
    Respects (onePage 100 4) (sysWrite quiet (onePage 100 4)) ∧
    sysRead quiet (onePage 100 4) = ⟨some 4, [100, 101, 102, 103]⟩ := by
  obtain ⟨hread, hwrite⟩ := io_within_buffer quiet (onePage 100 4) (by decide)
  have hpos : ∀ f p n, ioArgs (onePage 100 4) = some (f, p, n) → ¬n.toInt < 0 := by
    intro f p n hargs
    obtain rfl : (4 : Word) = n := some.inj (ioArgs_describes (by decide) hargs).1
    decide
  exact ⟨hread.mpr fun f p n hargs hn => absurd hn (hpos f p n hargs),
    hwrite.mpr fun f p n hargs hn => absurd hn (hpos f p n hargs), by decide⟩

/-- With the length `-1` at offset 0 the whole file is stored, here beyond the process's end. -/
theorem negative_length_overruns :
    sysRead quiet (onePage 4090 (-1)) =
      ⟨some 10, [4090, 4091, 4092, 4093, 4094, 4095, 4096, 4097, 4098, 4099]⟩ ∧
    ¬Respects (onePage 4090 (-1)) (sysRead quiet (onePage 4090 (-1))) := by
  have hread : sysRead quiet (onePage 4090 (-1)) =
      ⟨some 10, [4090, 4091, 4092, 4093, 4094, 4095, 4096, 4097, 4098, 4099]⟩ := by decide
  refine ⟨hread, fun h => ?_⟩
  have hfail := h.2 fun p n hd => by
    obtain rfl : (-1 : Word) = n := some.inj hd.2.1
    exact absurd hd.2.2.1 (by decide)
  rw [hread] at hfail
  exact absurd hfail (by decide)

end Xv6Threads.UserBuffers
