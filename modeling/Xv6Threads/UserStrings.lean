import Mathlib.Data.List.TakeWhile
import Xv6Threads.Fs.Calls
import Xv6Threads.Sbrk

namespace Xv6Threads.Strings

open Bytes Vm Function List
open Fs (slash Name)

abbrev O_CREATE : ℕ := 0x200

/-- `sizeof(proc->name)`. -/
abbrev NAMESIZE : ℕ := 16

/-- The number of addresses. A loop over a string stops at the latest where nothing is mapped. -/
abbrev NADDR : ℕ := 2 ^ 32

/-- A pointer to a string, and where `fetchstr` found the NUL. The kernel keeps the pointer only. -/
structure Str where
  ptr : ℕ
  last : ℕ
  deriving DecidableEq

/-- What a system call still does with its strings. Each begins after a sleep. -/
inductive Task
  /-- `namex`, up to the first `ilock` -/
  | enter (parent : Bool) (p : Str)
  /-- the same, after `ilock` -/
  | locked (parent : Bool) (p : Str)
  /-- the same, after `dirlookup` -/
  | look (parent : Bool) (p : Str)
  /-- the inode is looked at, or the program is loaded -/
  | check
  /-- `exec` from the copying of the arguments on -/
  | copy (path : Str) (argv : List Str)
  deriving DecidableEq

def Task.strings : Task → List Str
  | .enter _ p | .locked _ p | .look _ p => [p]
  | .check => []
  | .copy path argv => path :: argv

inductive Pos
  | user
  /-- in `begin_op`, before the path and the arguments with the numbers `ints` are fetched -/
  | fetch (parent : Bool) (ints : List ℕ) (esp : ℕ)
  | call (todo : List Task)
  /-- `exec` has given the caller another page directory -/
  | gone
  deriving DecidableEq

def Pos.strings : Pos → List Str
  | .call todo => todo.flatMap Task.strings
  | _ => []

structure Sys (L : Link) (T : Type) where
  vm : Sbrk.Sys L T
  /-- the byte at each address that is mapped -/
  mem : ℕ → Byte
  /-- the thread whose calls are followed -/
  me : T
  pos : Pos

/-- The kernel reads an address that is not mapped. -/
inductive Fault
  | trap (a : ℕ)
  deriving DecidableEq

/-- A part of the kernel that reads user memory, with the addresses it has read. -/
abbrev UserRead := Prog (List ℕ) Fault

variable {L : Link} {T : Type}

namespace Sys

variable (s : Sys L T)

def mapped (a : ℕ) : Bool := a < NADDR && (s.vm.img.pteAt a).isSome

def load (a : ℕ) : UserRead Byte := do
  if s.mapped a then
    modify (a :: ·)
    pure (s.mem a)
  else throw (.trap a)

/-- The source of `memmove` of `n` bytes. -/
def loads : ℕ → ℕ → UserRead (List Byte)
  | 0, _ => pure []
  | n + 1, a => do
    let b ← s.load a
    let bs ← loads n (a + 1)
    pure (b :: bs)

def fetchint (addr : ℕ) : UserRead (Option ℕ) :=
  if s.vm.sz s.me ≤ addr ∨ s.vm.sz s.me < w32 (addr + 4) then pure none
  else do
    let bs ← s.loads 4 addr
    pure (some (leNat (fun k => bs.getD k 0) 4))

/-- The loop of `fetchstr` with `n` bytes left below `sz`. -/
def findNul : ℕ → ℕ → UserRead (Option ℕ)
  | 0, _ => pure none
  | n + 1, a => do
    if (← s.load a) = 0 then pure (some a) else findNul n (a + 1)

def fetchstr (addr : ℕ) : UserRead (Option Str) :=
  if s.vm.sz s.me ≤ addr then pure none
  else do
    let last ← s.findNul (s.vm.sz s.me - addr) addr
    pure (last.map fun last => ⟨addr, last⟩)

def argint (esp n : ℕ) : UserRead (Option ℕ) := s.fetchint (w32 (esp + 4 + 4 * n))

def argstr (esp n : ℕ) : UserRead (Option Str) := do
  match ← s.argint esp n with
  | none => pure none
  | some addr => s.fetchstr addr

/-- The loop of `sys_exec` over `argv`, with `fuel` entries left in the kernel's array. -/
def fetchArgv (uargv : ℕ) : ℕ → ℕ → UserRead (Option (List Str))
  | 0, _ => pure none
  | fuel + 1, i => do
    match ← s.fetchint (w32 (uargv + 4 * i)) with
    | none => pure none
    | some uarg =>
      if uarg = 0 then pure (some [])
      else
        match ← s.fetchstr uarg with
        | none => pure none
        | some p =>
          let argv ← fetchArgv uargv fuel (i + 1)
          pure (argv.map (p :: ·))

/-- Whether the arguments with these numbers can be fetched. -/
def argints (esp : ℕ) : List ℕ → UserRead Bool
  | [] => pure true
  | n :: ns => do
    match ← s.argint esp n with
    | none => pure false
    | some _ => argints esp ns

/-- `argstr(0, &path)`, then the other arguments. -/
def fetchPath (ints : List ℕ) (esp : ℕ) : UserRead (Option Str) := do
  match ← s.argstr esp 0 with
  | none => pure none
  | some p => pure (if ← s.argints esp ints then some p else none)

end Sys

inductive Syscall
  | sysOpen | sysLink | sysUnlink | sysMkdir | sysMknod | sysChdir | sysExec
  deriving DecidableEq

namespace Sys

variable (s : Sys L T)

/-- `sys_open` up to `begin_op`: with `O_CREATE` it calls `nameiparent`, else `namei`. -/
def sysOpen (esp : ℕ) : UserRead (Option Pos) := do
  match ← s.argstr esp 0 with
  | none => pure none
  | some path =>
    match ← s.argint esp 1 with
    | none => pure none
    | some omode => pure (some (.call [.enter (omode &&& O_CREATE ≠ 0) path]))

/-- `sys_link`: `namei(old)`, a look at the inode, `nameiparent(new)`. -/
def sysLink (esp : ℕ) : UserRead (Option Pos) := do
  match ← s.argstr esp 0 with
  | none => pure none
  | some old =>
    match ← s.argstr esp 1 with
    | none => pure none
    | some new => pure (some (.call [.enter false old, .check, .enter true new]))

def sysUnlink (esp : ℕ) : UserRead (Option Pos) := do
  match ← s.argstr esp 0 with
  | none => pure none
  | some path => pure (some (.call [.enter true path]))

def sysExec (esp : ℕ) : UserRead (Option Pos) := do
  match ← s.argstr esp 0 with
  | none => pure none
  | some path =>
    match ← s.argint esp 1 with
    | none => pure none
    | some uargv =>
      match ← s.fetchArgv uargv MAXARG 0 with
      | none => pure none
      | some argv => pure (some (.call [.enter false path, .check, .copy path argv]))

/-- A call up to its first sleep; `sys_mkdir`, `sys_mknod` and `sys_chdir` call `begin_op` before
they fetch anything. -/
def begin (esp : ℕ) : Syscall → UserRead (Option Pos)
  | .sysOpen => s.sysOpen esp
  | .sysLink => s.sysLink esp
  | .sysUnlink => s.sysUnlink esp
  | .sysMkdir => pure (some (.fetch true [] esp))
  | .sysMknod => pure (some (.fetch true [1, 2] esp))
  | .sysChdir => pure (some (.fetch false [] esp))
  | .sysExec => s.sysExec esp

/-- `while (p(*a)) a++`. -/
def skipWhile (p : Byte → Bool) : ℕ → ℕ → UserRead ℕ
  | 0, a => throw (.trap a)
  | fuel + 1, a => do
    if p (← s.load a) then skipWhile p fuel (a + 1) else pure a

/-- The name is moved out of user memory after its end has been found. -/
def skipelem (path : ℕ) : UserRead (Option (Name × ℕ)) := do
  let first ← s.skipWhile (· = slash) NADDR path
  if (← s.load first) = 0 then pure none
  else do
    let e ← s.skipWhile (fun c => c ≠ slash ∧ c ≠ 0) NADDR first
    let name ← s.loads (min (e - first) DIRSIZ) first
    let rest ← s.skipWhile (· = slash) NADDR e
    pure (some (name, rest))

def strlen (a : ℕ) : UserRead ℕ := do
  let e ← s.skipWhile (· ≠ 0) NADDR a
  pure (e - a)

/-- `for (last=s=path; *s; s++) if (*s == '/') last = s+1`. -/
def lastElem : ℕ → ℕ → ℕ → UserRead ℕ
  | 0, a, _ => throw (.trap a)
  | fuel + 1, a, last => do
    if (← s.load a) = 0 then pure last
    else
      let c ← s.load a
      lastElem fuel (a + 1) (if c = slash then a + 1 else last)

/-- The source of `safestrcpy` of `n + 1` bytes. -/
def safestrcpy : ℕ → ℕ → UserRead Unit
  | 0, _ => pure ()
  | n + 1, a => do
    if (← s.load a) = 0 then pure () else safestrcpy n (a + 1)

/-- The loop of `exec` that pushes the argument strings, and the array after them; `ok` says which
`copyout` succeed. -/
def pushArgs (ok : ℕ → Bool) : ℕ → List Str → UserRead Bool
  | argc, [] => pure (ok argc)
  | argc, p :: argv => do
    let _ ← s.strlen p.ptr
    let len ← s.strlen p.ptr
    let _ ← s.loads (len + 1) p.ptr
    if ok argc then pushArgs ok (argc + 1) argv else pure false

end Sys

inductive Next
  /-- the call fails -/
  | fail
  /-- the next task follows -/
  | done
  /-- the same `namex` goes on -/
  | go (t : Task)
  /-- `exec` succeeds -/
  | commit
  deriving DecidableEq

def Next.strings : Next → List Str
  | .go t => t.strings
  | _ => []

def Next.follow (rest : List Task) : Next → Pos
  | .fail => .call []
  | .done => .call rest
  | .go t => .call (t :: rest)
  | .commit => .gone

namespace Sys

variable (s : Sys L T)

/-- The head of the loop of `namex`. -/
def element (parent : Bool) (p : Str) : UserRead Next := do
  match ← s.skipelem p.ptr with
  | none => pure (if parent then .fail else .done)
  | some (_, ptr) => pure (.go (.locked parent { p with ptr := ptr }))

/-- A task up to the next sleep. `ok` is what the file system and `copyout` answer. -/
def task (ok : ℕ → Bool) : Task → UserRead Next
  | .enter parent p => do
    let _ ← s.load p.ptr
    s.element parent p
  | .locked parent p =>
    if ok 0 then
      if parent then do
        if (← s.load p.ptr) = 0 then pure .done else pure (.go (.look parent p))
      else pure (.go (.look parent p))
    else pure .fail
  | .look parent p => if ok 0 then s.element parent p else pure .fail
  | .check => pure (if ok 0 then .done else .fail)
  | .copy path argv => do
    if ← s.pushArgs ok 0 argv then
      let last ← s.lastElem NADDR path.ptr path.ptr
      s.safestrcpy (NAMESIZE - 1) last
      pure .commit
    else pure .fail

def next : UserRead (Option (Task × List Task)) :=
  match s.pos with
  | .fetch parent ints esp => do
    let path ← s.fetchPath ints esp
    pure (path.map fun p => (.enter parent p, []))
  | .call (t :: rest) => pure (some (t, rest))
  | _ => pure none

end Sys

inductive Act (L : Link) (T : Type)
  | call (c : Syscall) (esp : ℕ)
  /-- the caller goes on after a sleep -/
  | resume (ok : ℕ → Bool)
  | ret
  | sbrk (a : Sbrk.Act L T)
  /-- a store in user mode -/
  | store (i : T) (addr : ℕ) (b : Byte)

variable [DecidableEq T]

def Sys.remap (s : Sys L T) (vm : Sbrk.Sys L T) : Sys L T :=
  let s' := { s with vm := vm }
  { s' with mem := fun a => if s'.mapped a ∧ ¬s.mapped a then 0 else s.mem a }

/-- `none`: not possible now, or the kernel stops. -/
def step (s : Sys L T) : Act L T → Option (Sys L T)
  | .call c esp =>
    if s.pos = .user ∧ s.vm.member s.me ∧ s.vm.pos s.me = .idle then
      match s.begin esp c [] with
      | .ok (some pos, _) => some { s with pos := pos }
      | .ok (none, _) => some s
      | .error _ => none
    else none
  | .resume ok =>
    if s.pos = .user ∨ s.pos = .gone then none
    else
      match s.next [] with
      | .ok (some (t, rest), _) =>
        match s.task ok t [] with
        | .ok (next, _) => some { s with pos := next.follow rest }
        | .error _ => none
      | .ok (none, _) => some { s with pos := .call [] }
      | .error _ => none
  | .ret => if s.pos = .call [] then some { s with pos := .user } else none
  | .sbrk a =>
    if s.pos = .user ∨ s.pos ≠ .gone ∧ ¬a.By s.me then
      match Sbrk.step s.vm a with
      | some (.ok vm) => some (s.remap vm)
      | _ => none
    else none
  | .store i addr b =>
    if s.vm.member i ∧ s.vm.pos i = .idle ∧ (i = s.me → s.pos = .user) ∧ s.pos ≠ .gone ∧
        addr < NADDR ∧ (s.vm.img.pteAt addr).any fun e => e.w && e.u then
      some { s with mem := update s.mem addr b }
    else none

/-- The threads of a directory between calls, with any memory. -/
def Start (s : Sys L T) : Prop := Sbrk.Uniform s.vm ∧ s.pos = .user

abbrev Reachable (ok : Sys L T → Act L T → Prop) : Sys L T → Prop :=
  Reach Start ok fun s a s' => step s a = some s'

/-- Nobody overwrites the NUL of a string that the call still reads, or unmaps a page of it. -/
def Spared (s : Sys L T) : Act L T → Prop
  | .store _ addr b => ∀ p ∈ s.pos.strings, addr = p.last → b = 0
  | .sbrk a => ∀ p ∈ s.pos.strings, ∀ x, p.ptr ≤ x → x ≤ p.last → ¬Sbrk.Unmaps s.vm x a
  | _ => True

/-- The string ends at `last` or before, below `sz`, in memory that is mapped. -/
structure Valid (s : Sys L T) (p : Str) : Prop where
  le : p.ptr ≤ p.last
  lt : p.last < s.vm.sz s.me
  nul : s.mem p.last = 0
  mapped : ∀ x, p.ptr ≤ x → x ≤ p.last → s.mapped x = true

/-- The addresses lie below `sz` and are mapped. -/
def Good (s : Sys L T) (l : List ℕ) : Prop := ∀ a ∈ l, a < s.vm.sz s.me ∧ s.mapped a = true

/-- The bytes from `a` to the NUL. -/
def Text (mem : ℕ → Byte) : ℕ → List Byte → Prop
  | a, [] => mem a = 0
  | a, c :: l => mem a = c ∧ c ≠ 0 ∧ Text mem (a + 1) l

section
variable {mem : ℕ → Byte} {a : ℕ} {l : List Byte}

theorem Text.ne_zero (h : Text mem a l) {c : Byte} (hc : c ∈ l) : c ≠ 0 := by
  induction l generalizing a with
  | nil => cases hc
  | cons b l ih =>
    rcases mem_cons.mp hc with rfl | hc
    · exact h.2.1
    · exact ih h.2.2 hc

theorem Text.dropWhile (h : Text mem a l) (f : Byte → Bool) :
    Text mem (a + (l.takeWhile f).length) (l.dropWhile f) := by
  induction l generalizing a with
  | nil => exact h
  | cons c l ih =>
    by_cases hc : f c = true
    · rw [takeWhile_cons_of_pos hc, dropWhile_cons_of_pos hc, length_cons,
        show a + ((l.takeWhile f).length + 1) = a + 1 + (l.takeWhile f).length by omega]
      exact ih h.2.2
    · rw [takeWhile_cons_of_neg hc, dropWhile_cons_of_neg hc]
      exact h

omit mem a in
theorem length_takeWhile_add (f : Byte → Bool) (l : List Byte) :
    (l.takeWhile f).length + (l.dropWhile f).length = l.length := by
  rw [← length_append, takeWhile_append_dropWhile]

theorem drop_takeWhile (f : Byte → Bool) (l : List Byte) :
    l.drop (l.takeWhile f).length = l.dropWhile f := by
  have h : (l.takeWhile f ++ l.dropWhile f).drop (l.takeWhile f).length = l.dropWhile f :=
    drop_left
  rwa [takeWhile_append_dropWhile] at h

theorem exists_text {last : ℕ} (hle : a ≤ last) (hnul : mem last = 0) :
    ∃ l, Text mem a l ∧ a + l.length ≤ last := by
  obtain ⟨n, rfl⟩ := Nat.exists_eq_add_of_le hle
  clear hle
  induction n generalizing a with
  | zero => exact ⟨[], hnul, by simp⟩
  | succ n ih =>
    by_cases ha : mem a = 0
    · exact ⟨[], ha, by simp⟩
    · obtain ⟨l, hl, hlen⟩ := ih (a := a + 1) (by rwa [show a + 1 + n = a + (n + 1) by omega])
      refine ⟨mem a :: l, ⟨rfl, ha, hl⟩, ?_⟩
      simp only [length_cons]
      omega

end

section
variable {s : Sys L T} {p : Str} {g : List ℕ}

omit [DecidableEq T] in
theorem Valid.last_lt (hp : Valid s p) : p.last < NADDR := by
  have hmapped := hp.mapped p.last hp.le le_rfl
  simp only [Sys.mapped, Bool.and_eq_true, decide_eq_true_eq] at hmapped
  exact hmapped.1

omit [DecidableEq T] in
theorem load_spec (hp : Valid s p) (hg : Good s g) {a : ℕ} (hlo : p.ptr ≤ a) (hhi : a ≤ p.last) :
    wp (s.load a) (fun b g' => b = s.mem a ∧ Good s g') (fun _ => False) g := by
  have hmapped := hp.mapped a hlo hhi
  unfold Sys.load
  rw [if_pos hmapped]
  apply wp_bind
  apply wp_modify
  refine wp_pure ⟨rfl, ?_⟩
  intro x hx
  rcases mem_cons.mp hx with rfl | hx
  · exact ⟨hhi.trans_lt hp.lt, hmapped⟩
  · exact hg x hx

variable {l : List Byte}

omit [DecidableEq T] in
theorem loads_spec (hp : Valid s p) {n a : ℕ} (hlo : p.ptr ≤ a)
    (htext : Text s.mem a l) (hlen : a + l.length ≤ p.last) (hn : n ≤ l.length + 1)
    (hg : Good s g) :
    wp (s.loads n a) (fun bs g' => (n ≤ l.length → bs = l.take n) ∧ Good s g')
      (fun _ => False) g := by
  induction n generalizing a l g with
  | zero => exact wp_pure ⟨fun _ => rfl, hg⟩
  | succ n ih =>
    apply wp_call (load_spec hp hg hlo (by omega))
    rintro b g' ⟨rfl, hg'⟩
    cases l with
    | nil =>
      obtain rfl : n = 0 := by simpa using hn
      exact wp_bind (wp_pure (wp_pure ⟨by simp, hg'⟩))
    | cons c l =>
      simp only [length_cons] at hlen hn
      apply wp_call (ih (by omega) htext.2.2 (by omega) (by omega) hg')
      rintro bs g'' ⟨hbs, hg''⟩
      refine wp_pure ⟨?_, hg''⟩
      intro hle
      rw [htext.1, take_succ_cons, hbs (by simpa using hle)]

omit [DecidableEq T] in
/-- A loop that a NUL stops leaves the bytes that satisfy its test behind. -/
theorem skipWhile_spec (hp : Valid s p) (f : Byte → Bool) (hf : f 0 = false) (fuel : ℕ) {a : ℕ}
    (hlo : p.ptr ≤ a) (htext : Text s.mem a l) (hlen : a + l.length ≤ p.last)
    (hfuel : l.length < fuel) (hg : Good s g) :
    wp (s.skipWhile f fuel a) (fun r g' => r = a + (l.takeWhile f).length ∧ Good s g')
      (fun _ => False) g := by
  induction fuel generalizing a l g with
  | zero => omega
  | succ fuel ih =>
    apply wp_call (load_spec hp hg hlo (by omega))
    rintro b g' ⟨rfl, hg'⟩
    cases l with
    | nil =>
      rw [htext, hf]
      exact wp_pure ⟨rfl, hg'⟩
    | cons c l =>
      simp only [length_cons] at hlen hfuel
      rw [htext.1]
      apply wp_ite
      · intro hc
        apply wp_conseq (ih (by omega) htext.2.2 (by omega) (by omega) hg')
        rintro r g'' ⟨rfl, hg''⟩
        refine ⟨?_, hg''⟩
        rw [takeWhile_cons_of_pos hc, length_cons]
        omega
      · intro hc
        rw [takeWhile_cons_of_neg hc]
        exact wp_pure ⟨rfl, hg'⟩

/-- The pointers that `skipelem` returns, against the path without them. -/
def SkipsTo (s : Sys L T) (p : Str) (l : List Byte) : Option (Name × ℕ) → Prop
  | none => Fs.skipelem l = none
  | some (name, ptr) => ∃ rest, Fs.skipelem l = some (name, rest) ∧ Text s.mem ptr rest ∧
      p.ptr ≤ ptr ∧ ptr + rest.length ≤ p.last

section

variable (hp : Valid s p)
include hp

omit [DecidableEq T] in
/-- `skipelem` takes the next element off the string that is in memory now. -/
theorem skipelem_spec (htext : Text s.mem p.ptr l)
    (hlen : p.ptr + l.length ≤ p.last) (hg : Good s g) :
    wp (s.skipelem p.ptr) (fun r g' => SkipsTo s p l r ∧ Good s g') (fun _ => False) g := by
  have hlast := hp.last_lt
  have hsplit := length_takeWhile_add (· = slash) l
  have hfirst := htext.dropWhile (· = slash)
  apply wp_call (skipWhile_spec hp (· = slash) (by decide) NADDR le_rfl htext hlen (by omega) hg)
  rintro _ g₁ ⟨rfl, hg₁⟩
  apply wp_call (load_spec hp hg₁ (by omega) (by omega))
  rintro _ g₂ ⟨rfl, hg₂⟩
  cases hl : l.dropWhile (· = slash) with
  | nil =>
    rw [hl] at hfirst
    rw [hfirst, if_pos rfl]
    refine wp_pure ⟨?_, hg₂⟩
    simp only [SkipsTo, Fs.skipelem, hl]
  | cons c q =>
    rw [hl] at hfirst hsplit
    rw [hfirst.1, if_neg hfirst.2.1]
    -- without a NUL in it, the string up to the next slash is what the second loop passes over
    have htake : (c :: q).takeWhile (fun c => c ≠ slash ∧ c ≠ 0) =
        (c :: q).takeWhile (· ≠ slash) := by
      have hself : (c :: q).takeWhile (· ≠ 0) = c :: q := by
        rw [takeWhile_eq_self_iff]
        exact fun x hx => decide_eq_true (hfirst.ne_zero hx)
      nth_rewrite 2 [← hself]
      rw [takeWhile_takeWhile]
      simp only [decide_eq_true_eq]
    have hend := hfirst.dropWhile (· ≠ slash)
    have hsplit' := length_takeWhile_add (· ≠ slash) (c :: q)
    have hskip := skipWhile_spec hp (fun c => c ≠ slash ∧ c ≠ 0) (by decide) NADDR
      (by omega) hfirst (by omega) (by omega) hg₂
    rw [htake] at hskip
    apply wp_call hskip
    rintro _ g₃ ⟨rfl, hg₃⟩
    rw [Nat.add_sub_cancel_left]
    apply wp_call (loads_spec hp (by omega) hfirst (by omega) (by omega) hg₃)
    rintro name g₄ ⟨hname, hg₄⟩
    apply wp_call (skipWhile_spec hp (· = slash) (by decide) NADDR (by omega) hend
      (by omega) (by omega) hg₄)
    rintro _ g₅ ⟨rfl, hg₅⟩
    have hrest := length_takeWhile_add (· = slash) ((c :: q).dropWhile (· ≠ slash))
    refine wp_pure ⟨⟨_, ?_, hend.dropWhile (· = slash), by omega, by omega⟩, hg₅⟩
    have htake := prefix_iff_eq_take.mp <| takeWhile_prefix (l := c :: q) (· ≠ slash)
    have hmove : ((c :: q).takeWhile (· ≠ slash)).take DIRSIZ =
        (c :: q).take (min ((c :: q).takeWhile (· ≠ slash)).length DIRSIZ) := by
      nth_rewrite 1 [htake]
      rw [take_take, min_comm]
    simp only [Fs.skipelem, hl]
    rw [drop_takeWhile, hname (by omega), hmove]

omit [DecidableEq T] in
theorem Valid.text : ∃ l, Text s.mem p.ptr l ∧ p.ptr + l.length ≤ p.last :=
  exists_text hp.le hp.nul

omit [DecidableEq T] in
theorem element_spec (hg : Good s g) (parent : Bool) :
    wp (s.element parent p) (fun n g' => (∀ q ∈ n.strings, Valid s q) ∧ Good s g')
      (fun _ => False) g := by
  obtain ⟨l, htext, hlen⟩ := hp.text
  apply wp_call (skipelem_spec hp htext hlen hg)
  rintro r g' ⟨hr, hg'⟩
  cases r with
  | none =>
    refine wp_pure ⟨?_, hg'⟩
    cases parent <;> simp [Next.strings]
  | some r =>
    obtain ⟨rest, -, -, hlo, hhi⟩ := hr
    refine wp_pure ⟨?_, hg'⟩
    intro q hq
    rw [mem_singleton.mp hq]
    exact ⟨by simp only; omega, hp.lt, hp.nul, fun x hx => hp.mapped x (hlo.trans hx)⟩

omit [DecidableEq T] in
theorem strlen_spec (htext : Text s.mem p.ptr l) (hlen : p.ptr + l.length ≤ p.last)
    (hg : Good s g) :
    wp (s.strlen p.ptr) (fun n g' => n = l.length ∧ Good s g') (fun _ => False) g := by
  have hlast := hp.last_lt
  have hall : l.takeWhile (· ≠ 0) = l := by
    rw [takeWhile_eq_self_iff]
    exact fun c hc => decide_eq_true (htext.ne_zero hc)
  have hskip := skipWhile_spec hp (· ≠ 0) (by decide) NADDR le_rfl htext hlen
    (by omega) hg
  rw [hall] at hskip
  apply wp_call hskip
  rintro _ g' ⟨rfl, hg'⟩
  exact wp_pure ⟨by omega, hg'⟩

omit [DecidableEq T] in
theorem lastElem_spec {fuel a last : ℕ} (hlo : p.ptr ≤ a)
    (htext : Text s.mem a l) (hlen : a + l.length ≤ p.last) (hfuel : l.length < fuel)
    (hlast : p.ptr ≤ last ∧ last ≤ a) (hg : Good s g) :
    wp (s.lastElem fuel a last) (fun r g' => (p.ptr ≤ r ∧ r ≤ p.last) ∧ Good s g')
      (fun _ => False) g := by
  induction fuel generalizing a l last g with
  | zero => omega
  | succ fuel ih =>
    apply wp_call (load_spec hp hg hlo (by omega))
    rintro _ g' ⟨rfl, hg'⟩
    cases l with
    | nil =>
      rw [htext, if_pos rfl]
      exact wp_pure ⟨by omega, hg'⟩
    | cons c l =>
      simp only [length_cons] at hlen hfuel
      rw [htext.1, if_neg htext.2.1]
      apply wp_call (load_spec hp hg' hlo (by omega))
      rintro _ g'' ⟨rfl, hg''⟩
      refine ih (by omega) htext.2.2 (by omega) (by omega) ?_ hg''
      split_ifs <;> omega

omit [DecidableEq T] in
theorem safestrcpy_spec {n a : ℕ} (hlo : p.ptr ≤ a)
    (htext : Text s.mem a l) (hlen : a + l.length ≤ p.last) (hg : Good s g) :
    wp (s.safestrcpy n a) (fun _ g' => Good s g') (fun _ => False) g := by
  induction n generalizing a l g with
  | zero => exact wp_pure hg
  | succ n ih =>
    apply wp_call (load_spec hp hg hlo (by omega))
    rintro _ g' ⟨rfl, hg'⟩
    cases l with
    | nil =>
      rw [htext, if_pos rfl]
      exact wp_pure hg'
    | cons c l =>
      simp only [length_cons] at hlen
      rw [htext.1, if_neg htext.2.1]
      exact ih (by omega) htext.2.2 (by omega) hg'

end

omit [DecidableEq T] in
theorem pushArgs_spec {ok : ℕ → Bool} {argv : List Str} (h : ∀ q ∈ argv, Valid s q) (argc : ℕ)
    (hg : Good s g) : wp (s.pushArgs ok argc argv) (fun _ g' => Good s g') (fun _ => False) g := by
  induction argv generalizing argc g with
  | nil => exact wp_pure hg
  | cons q argv ih =>
    have hq := h q mem_cons_self
    obtain ⟨l, htext, hlen⟩ := hq.text
    apply wp_call (strlen_spec hq htext hlen hg)
    rintro _ g₁ ⟨-, hg₁⟩
    apply wp_call (strlen_spec hq htext hlen hg₁)
    rintro _ g₂ ⟨rfl, hg₂⟩
    apply wp_call (loads_spec hq le_rfl htext hlen le_rfl hg₂)
    rintro _ g₃ ⟨-, hg₃⟩
    apply wp_ite
    · intro _
      exact ih (fun q' hq' => h q' (mem_cons_of_mem q hq')) (argc + 1) hg₃
    · exact fun _ => wp_pure hg₃

omit [DecidableEq T] in
/-- A task on strings that can be read reads only them, and goes on with such a string. -/
theorem task_spec {t : Task} (h : ∀ q ∈ t.strings, Valid s q) (ok : ℕ → Bool) (hg : Good s g) :
    wp (s.task ok t) (fun n g' => (∀ q ∈ n.strings, Valid s q) ∧ Good s g') (fun _ => False) g := by
  cases t with
  | enter parent p =>
    have hp := h p mem_cons_self
    apply wp_call (load_spec hp hg le_rfl hp.le)
    rintro _ g' ⟨-, hg'⟩
    exact element_spec hp hg' parent
  | locked parent p =>
    have hp := h p mem_cons_self
    apply wp_ite
    · intro _
      apply wp_ite
      · intro _
        apply wp_call (load_spec hp hg le_rfl hp.le)
        rintro _ g' ⟨-, hg'⟩
        exact wp_ite (fun _ => wp_pure ⟨by simp [Next.strings], hg'⟩) fun _ => wp_pure ⟨h, hg'⟩
      · exact fun _ => wp_pure ⟨h, hg⟩
    · exact fun _ => wp_pure ⟨by simp [Next.strings], hg⟩
  | look parent p =>
    apply wp_ite
    · exact fun _ => element_spec (h p mem_cons_self) hg parent
    · exact fun _ => wp_pure ⟨by simp [Next.strings], hg⟩
  | check =>
    refine wp_pure ⟨?_, hg⟩
    split_ifs <;> simp [Next.strings]
  | copy path argv =>
    have hp := h path mem_cons_self
    have hlast := hp.last_lt
    obtain ⟨l, htext, hlen⟩ := hp.text
    apply wp_call (pushArgs_spec (fun q hq => h q (mem_cons_of_mem path hq)) 0 hg)
    intro _ g₁ hg₁
    apply wp_ite
    · intro _
      apply wp_call (lastElem_spec hp le_rfl htext hlen (by omega) ⟨le_rfl, le_rfl⟩ hg₁)
      rintro last g₂ ⟨hbound, hg₂⟩
      obtain ⟨l', htext', hlen'⟩ := exists_text hbound.2 hp.nul
      apply wp_call (safestrcpy_spec hp hbound.1 htext' hlen' hg₂)
      intro _ g₃ hg₃
      exact wp_pure ⟨by simp [Next.strings], hg₃⟩
    · exact fun _ => wp_pure ⟨by simp [Next.strings], hg₁⟩

abbrev Fetches (s : Sys L T) {α : Type} (c : UserRead α) (strings : α → List Str) : Prop :=
  ∀ g, wp c (fun r _ => ∀ q ∈ strings r, Valid s q) (fun _ => True) g

omit [DecidableEq T] in
theorem findNul_spec (n a : ℕ) :
    wp (s.findNul n a) (fun r _ => ∀ last ∈ r, a ≤ last ∧ last < a + n ∧ s.mem last = 0 ∧
      ∀ x, a ≤ x → x ≤ last → s.mapped x = true) (fun _ => True) g := by
  induction n generalizing a g with
  | zero => exact wp_pure (by simp)
  | succ n ih =>
    have hload : wp (s.load a) (fun b _ => b = s.mem a ∧ s.mapped a = true) (fun _ => True) g := by
      apply wp_ite
      · intro ha
        exact wp_bind (wp_modify (wp_pure ⟨rfl, ha⟩))
      · exact fun _ => wp_throw trivial
    apply wp_call hload
    rintro _ g' ⟨rfl, ha⟩
    apply wp_ite
    · intro hzero
      apply wp_pure
      rintro last ⟨⟩
      refine ⟨le_rfl, by omega, hzero, fun x hlo hhi => ?_⟩
      rwa [le_antisymm hhi hlo]
    · intro _
      apply wp_conseq (ih (a + 1))
      intro r _ hr last hlast
      obtain ⟨hlo, hhi, hnul, hmapped⟩ := hr last hlast
      refine ⟨by omega, by omega, hnul, fun x hx hle => ?_⟩
      rcases hx.eq_or_lt with rfl | hlt
      · exact ha
      · exact hmapped x hlt hle

omit [DecidableEq T] in
theorem fetchstr_spec (addr : ℕ) : Fetches s (s.fetchstr addr) Option.toList := by
  intro g
  apply wp_ite
  · exact fun _ => wp_pure (by simp)
  · intro hlt
    apply wp_call (findNul_spec _ addr)
    intro r _ hr
    apply wp_pure
    cases r with
    | none => simp
    | some last =>
      obtain ⟨hlo, hhi, hnul, hmapped⟩ := hr last rfl
      intro q hq
      rw [mem_singleton.mp hq]
      exact ⟨hlo, by simp only; omega, hnul, hmapped⟩

omit [DecidableEq T] in
theorem argstr_spec (esp n : ℕ) : Fetches s (s.argstr esp n) Option.toList := by
  intro g
  apply wp_call (wp_true _ _)
  intro r g' _
  cases r with
  | none => exact wp_pure (by simp)
  | some addr => exact fetchstr_spec addr g'

omit [DecidableEq T] in
theorem fetchArgv_spec (uargv fuel i : ℕ) :
    Fetches s (s.fetchArgv uargv fuel i) fun r => r.toList.flatten := by
  induction fuel generalizing i with
  | zero => exact fun g => wp_pure (by simp)
  | succ fuel ih =>
    intro g
    apply wp_call (wp_true _ _)
    intro r g₁ _
    cases r with
    | none => exact wp_pure (by simp)
    | some uarg =>
      apply wp_ite
      · exact fun _ => wp_pure (by simp)
      · intro _
        apply wp_call (fetchstr_spec uarg g₁)
        intro r g₂ hr
        cases r with
        | none => exact wp_pure (by simp)
        | some q =>
          apply wp_call (ih (i + 1) g₂)
          intro argv _ hargv
          apply wp_pure
          cases argv with
          | none => simp
          | some argv =>
            intro q' hq'
            simp only [Option.map_some, Option.toList_some, flatten_cons, flatten_nil,
              append_nil, mem_cons] at hq'
            rcases hq' with rfl | hq'
            · exact hr q' (by simp)
            · exact hargv q' (by simpa using hq')

omit [DecidableEq T] in
theorem fetchPath_spec (ints : List ℕ) (esp : ℕ) :
    Fetches s (s.fetchPath ints esp) Option.toList := by
  intro g
  apply wp_call (argstr_spec esp 0 g)
  intro r g' hr
  cases r with
  | none => exact wp_pure (by simp)
  | some q =>
    apply wp_call (wp_true _ _)
    intro ok _ _
    apply wp_pure
    cases ok with
    | true => exact hr
    | false => simp

omit [DecidableEq T] in
theorem begin_spec (esp : ℕ) (c : Syscall) :
    Fetches s (s.begin esp c) fun r => r.toList.flatMap Pos.strings := by
  intro g
  have hone : ∀ {q : Str} {parent : Bool}, Valid s q →
      ∀ q' ∈ (some (Pos.call [.enter parent q])).toList.flatMap Pos.strings, Valid s q' := by
    intro q parent hq q' hq'
    simp only [Pos.strings, Option.toList_some, flatMap_cons, flatMap_nil,
      append_nil, Task.strings, mem_singleton] at hq'
    rwa [hq']
  cases c with
  | sysOpen =>
    apply wp_call (argstr_spec esp 0 g)
    intro r g₁ hr
    cases r with
    | none => exact wp_pure (by simp)
    | some path =>
      apply wp_call (wp_true _ _)
      intro r _ _
      cases r with
      | none => exact wp_pure (by simp)
      | some omode => exact wp_pure (hone (hr path (by simp)))
  | sysLink =>
    apply wp_call (argstr_spec esp 0 g)
    intro r g₁ hr
    cases r with
    | none => exact wp_pure (by simp)
    | some old =>
      apply wp_call (argstr_spec esp 1 g₁)
      intro r' _ hr'
      cases r' with
      | none => exact wp_pure (by simp)
      | some new =>
        apply wp_pure
        intro q hq
        simp only [Pos.strings, Option.toList_some, flatMap_cons, flatMap_nil,
          append_nil, Task.strings, nil_append, mem_append, mem_singleton] at hq
        rcases hq with rfl | rfl
        · exact hr q (by simp)
        · exact hr' q (by simp)
  | sysUnlink =>
    apply wp_call (argstr_spec esp 0 g)
    intro r _ hr
    cases r with
    | none => exact wp_pure (by simp)
    | some path => exact wp_pure (hone (hr path (by simp)))
  | sysMkdir | sysMknod | sysChdir => exact wp_pure (by simp [Pos.strings])
  | sysExec =>
    apply wp_call (argstr_spec esp 0 g)
    intro r g₁ hr
    cases r with
    | none => exact wp_pure (by simp)
    | some path =>
      apply wp_call (wp_true _ _)
      intro r₁ g₂ _
      cases r₁ with
      | none => exact wp_pure (by simp)
      | some uargv =>
        apply wp_call (fetchArgv_spec uargv MAXARG 0 g₂)
        intro r₂ _ hr₂
        cases r₂ with
        | none => exact wp_pure (by simp)
        | some argv =>
          apply wp_pure
          intro q hq
          simp only [Pos.strings, Option.toList_some, flatMap_cons, flatMap_nil,
            append_nil, Task.strings, nil_append, mem_append, mem_cons,
            not_mem_nil, or_false] at hq
          rcases hq with rfl | rfl | hq
          · exact hr q (by simp)
          · exact hr q (by simp)
          · exact hr₂ q (by simpa using hq)

omit [DecidableEq T] in
theorem next_spec (h : ∀ q ∈ s.pos.strings, Valid s q) :
    Fetches s s.next fun r => r.toList.flatMap fun tr => (tr.1 :: tr.2).flatMap Task.strings := by
  intro g
  unfold Sys.next
  split
  · apply wp_call (fetchPath_spec _ _ g)
    intro r _ hr
    apply wp_pure
    cases r with
    | none => simp
    | some p =>
      intro q hq
      simp only [Option.map_some, Option.toList_some, flatMap_cons, flatMap_nil,
        append_nil, Task.strings, mem_singleton] at hq
      rw [hq]
      exact hr p (by simp)
  · next t rest hpos =>
    rw [hpos] at h
    apply wp_pure
    simpa [Pos.strings] using h
  · exact wp_pure (by simp)

end

/-- The strings that the call still reads can be read, and the caller has the directory. -/
structure Inv (s : Sys L T) : Prop where
  valid : ∀ p ∈ s.pos.strings, Valid s p
  member : s.pos ≠ .user → s.pos ≠ .gone → s.vm.member s.me = true

section
variable {s s' : Sys L T}

omit [DecidableEq T] in
theorem Inv.move {pos : Pos} (hvalid : ∀ p ∈ pos.strings, Valid s p)
    (hmember : s.vm.member s.me = true) : Inv { s with pos := pos } := by
  refine ⟨?_, fun _ _ => hmember⟩
  intro p hp
  obtain ⟨hle, hlt, hnul, hmapped⟩ := hvalid p hp
  exact ⟨hle, hlt, hnul, hmapped⟩

omit [DecidableEq T] in
theorem strings_follow {n : Next} {rest : List Task} {p : Str} (hp : p ∈ (n.follow rest).strings) :
    p ∈ n.strings ∨ p ∈ rest.flatMap Task.strings := by
  cases n with
  | fail | commit => simp [Next.follow, Pos.strings] at hp
  | done => exact .inr hp
  | go t => simpa [Next.follow, Pos.strings, Next.strings] using hp

theorem Inv.resume (h : Inv s) {ok : ℕ → Bool} (hstep : step s (.resume ok) = some s') :
    Inv s' := by
  simp only [step] at hstep
  split_ifs at hstep with hpos
  have hmember := h.member (fun hu => hpos (.inl hu)) fun hg => hpos (.inr hg)
  split at hstep
  · next t rest l hnext =>
    have hstrings := wp_ok (next_spec h.valid []) hnext
    simp only [Option.toList_some, flatMap_cons, flatMap_nil, append_nil, mem_append] at hstrings
    split at hstep
    · next n g htask =>
      have hn := wp_ok (task_spec (fun q hq => hstrings q (.inl hq)) ok (g := [])
        (by simp [Good])) htask
      rw [← Option.some.inj hstep]
      refine Inv.move ?_ hmember
      intro p hp
      rcases strings_follow hp with hp | hp
      · exact hn.1 p hp
      · exact hstrings p (.inr hp)
    · cases hstep
  · rw [← Option.some.inj hstep]
    exact Inv.move (by simp [Pos.strings]) hmember
  · cases hstep

theorem Inv.sbrk (h : Inv s) {a : Sbrk.Act L T} (hok : Spared s (.sbrk a))
    (hstep : step s (.sbrk a) = some s') : Inv s' := by
  simp only [step] at hstep
  split_ifs at hstep with hpos
  split at hstep
  · next vm hvm =>
    rw [← Option.some.inj hstep]
    by_cases hin : s.pos = .user ∨ s.pos = .gone
    · have hnone : s.pos.strings = [] := by rcases hin with hin | hin <;> rw [hin] <;> rfl
      refine ⟨?_, fun hu hg => absurd hin (by rintro (h | h); exacts [hu h, hg h])⟩
      intro p hp
      rw [show (s.remap vm).pos.strings = [] from hnone] at hp
      cases hp
    · have hme := h.member (fun hu => hin (.inl hu)) fun hg => hin (.inr hg)
      have hby : ¬a.By s.me := (hpos.resolve_left fun hu => hin (.inl hu)).2
      obtain ⟨hsz, hmember⟩ := Sbrk.others_of_step hvm hme hby
      refine ⟨?_, fun _ _ => hmember⟩
      intro p hp
      have hvalid := h.valid p hp
      have hmapped : ∀ x, p.ptr ≤ x → x ≤ p.last → (s.remap vm).mapped x = true := by
        intro x hlo hhi
        have hx := hvalid.mapped x hlo hhi
        simp only [Sys.mapped, Bool.and_eq_true, Option.isSome_iff_ne_none] at hx ⊢
        exact ⟨hx.1, Sbrk.mapped_of_step hvm hx.2 (hok p hp x hlo hhi)⟩
      refine ⟨hvalid.le, hvalid.lt.trans_eq hsz.symm, ?_, hmapped⟩
      simp only [Sys.remap]
      rw [if_neg fun hnew => hnew.2 (hvalid.mapped p.last hvalid.le le_rfl)]
      exact hvalid.nul
  · cases hstep

theorem Inv.next {a : Act L T} (h : Inv s) (hok : Spared s a) (hstep : step s a = some s') :
    Inv s' := by
  cases a with
  | call c esp =>
    simp only [step] at hstep
    split_ifs at hstep with hpos
    split at hstep
    · next pos l hbegin =>
      have hstrings := wp_ok (begin_spec esp c []) hbegin
      rw [← Option.some.inj hstep]
      exact Inv.move (by simpa using hstrings) hpos.2.1
    · rw [← Option.some.inj hstep]
      exact h
    · cases hstep
  | resume ok => exact h.resume hstep
  | ret =>
    simp only [step] at hstep
    split_ifs at hstep
    rw [← Option.some.inj hstep]
    exact ⟨by simp [Pos.strings], fun hu => absurd rfl hu⟩
  | sbrk a => exact h.sbrk hok hstep
  | store i addr b =>
    simp only [step] at hstep
    split_ifs at hstep
    rw [← Option.some.inj hstep]
    refine ⟨?_, h.member⟩
    intro p hp
    obtain ⟨hle, hlt, hnul, hmapped⟩ := h.valid p hp
    refine ⟨hle, hlt, ?_, hmapped⟩
    by_cases haddr : p.last = addr
    · rw [haddr]
      exact (update_self _ _ _).trans (hok p hp haddr.symm)
    · exact (update_of_ne haddr _ _).trans hnul

theorem reachable_inv (h : Reachable Spared s) : Inv s := by
  apply Reach.invariant (P := Inv) _ _ h
  · intro s hs
    exact ⟨by simp [hs.2, Pos.strings], fun hu => absurd hs.2 hu⟩
  · exact fun s a s' hs hok hstep => hs.next hok hstep

end

/-- While nobody overwrites the NUL that `fetchstr` found in a string still in use and nobody unmaps
a page of the string: whenever the caller goes on it does not trap, and every byte it reads of its
strings is mapped and below its `sz`. -/
theorem spared_strings_stay_valid {s : Sys L T} (h : Reachable Spared s) {t : Task}
    {rest : List Task} {g : List ℕ} (hnext : s.next [] = .ok (some (t, rest), g)) (ok : ℕ → Bool) :
    ∃ n reads, s.task ok t [] = .ok (n, reads) ∧
      ∀ a ∈ reads, a < s.vm.sz s.me ∧ s.mapped a = true := by
  have hstrings := wp_ok (next_spec (reachable_inv h).valid []) hnext
  simp only [Option.toList_some, flatMap_cons, flatMap_nil, append_nil, mem_append] at hstrings
  obtain ⟨n, reads, hrun, -, hgood⟩ :=
    exists_ok (task_spec (fun q hq => hstrings q (.inl hq)) ok (g := []) (by simp [Good]))
  exact ⟨n, reads, hrun, hgood⟩

/-- The first argument, at address 4, points to the string "a" in the last two bytes of the page;
the second is 0. -/
def args : ℕ → Byte := fun a =>
  if a = 4 then 0xfe else if a = 5 then 0x0f else if a = 4094 then 0x61 else 0

def onePage : Sys smallKernel (Fin 2) := ⟨Sbrk.onePage true, args, 0, .user⟩

theorem exists_run {ok : Sys smallKernel (Fin 2) → Act smallKernel (Fin 2) → Prop}
    (okb : Sys smallKernel (Fin 2) → Act smallKernel (Fin 2) → Bool)
    (hok : ∀ s a, okb s a = true → ok s a) (p : Sys smallKernel (Fin 2) → Bool)
    (as : List (Act smallKernel (Fin 2))) (h : (execs okb step onePage as).any p = true) :
    ∃ s, Reachable ok s ∧ p s = true := by
  have hstart : Reachable ok onePage := .start ⟨Sbrk.onePage_uniform true, rfl⟩
  exact Reach.exists_of_execs okb step p hok (fun _ _ _ hs => hs) as hstart h

/-- A test that implies `Spared`. -/
def spared (s : Sys smallKernel (Fin 2)) : Act smallKernel (Fin 2) → Bool
  | .store _ addr b => s.pos.strings.all fun p => addr ≠ p.last ∨ b = 0
  | .sbrk (.turn i _) => (match s.vm.pos i with | .shrink _ _ _ _ => false | _ => true)
  | _ => true

theorem spared_ok (s : Sys smallKernel (Fin 2)) (a : Act smallKernel (Fin 2))
    (h : spared s a = true) : Spared s a := by
  cases a with
  | store i addr b =>
    simp only [spared, all_eq_true, decide_eq_true_eq] at h
    exact fun p hp haddr => (h p hp).resolve_left (not_not_intro haddr)
  | sbrk a =>
    rintro p - x - - hx
    cases a with
    | turn i K =>
      obtain ⟨oldsz, newsz, a, undo, hpos, -⟩ := hx
      simp only [spared, hpos] at h
      cases h
    | sbrk | clone | leave | other => exact hx
  | call | resume | ret => trivial

/-- The caller goes on and traps at `a`. -/
def traps (s : Sys L T) (a : ℕ) : Bool :=
  match s.next [] with
  | .ok (some (t, _), _) =>
    (match s.task (fun _ => true) t [] with
      | .error e => e = .trap a
      | .ok _ => false)
  | _ => false

omit [DecidableEq T] in
theorem exists_trap {s : Sys L T} {a : ℕ} (h : traps s a = true) :
    ∃ t rest g ok, s.next [] = .ok (some (t, rest), g) ∧ s.task ok t [] = .error (.trap a) := by
  unfold traps at h
  split at h
  · next t rest g hnext =>
    split at h
    · next e he => exact ⟨t, rest, g, _, hnext, by rw [he, of_decide_eq_true h]⟩
    · cases h
  · cases h

/-- Thread 0 sleeps in `open("a")`. Thread 1 overwrites the NUL, and `namex` reads past `sz`; or it
gives the page back with `sbrk`, and `namex` reads memory that is no longer mapped. -/
theorem sibling_invalidates_string :
    (∃ s : Sys smallKernel (Fin 2), Reachable (fun _ _ => True) s ∧ s.vm.sz s.me = 4096 ∧
      ∃ t rest g ok, s.next [] = .ok (some (t, rest), g) ∧ s.task ok t [] = .error (.trap 4096)) ∧
    ∃ s : Sys smallKernel (Fin 2), Reachable (fun _ _ => True) s ∧ s.vm.sz s.me = 4096 ∧
      ∃ t rest g ok, s.next [] = .ok (some (t, rest), g) ∧
        s.task ok t [] = .error (.trap 4094) := by
  have hrun := @exists_run (fun _ _ => True) (fun _ _ => true) (fun _ _ _ => trivial)
    (fun s => s.vm.sz s.me = 4096 && traps s 4096) [.call .sysOpen 0, .store 1 4095 0x62]
    (by decide +kernel)
  have hrun' := @exists_run (fun _ _ => True) (fun _ _ => true) (fun _ _ _ => trivial)
    (fun s => s.vm.sz s.me = 4096 && traps s 4094)
    [.call .sysOpen 0, .sbrk (.sbrk 1 (-4096)), .sbrk (.turn 1 (Sbrk.page none))]
    (by decide +kernel)
  obtain ⟨s, hs, hcheck⟩ := hrun
  obtain ⟨s', hs', hcheck'⟩ := hrun'
  simp only [Bool.and_eq_true, decide_eq_true_eq] at hcheck hcheck'
  exact ⟨⟨s, hs, hcheck.1, exists_trap hcheck.2⟩, s', hs', hcheck'.1, exists_trap hcheck'.2⟩

/-- Thread 1 grows and changes the other byte of the string. -/
theorem spared_strings_stay_valid_open :
    ∃ s : Sys smallKernel (Fin 2), Reachable Spared s ∧ ∃ t rest g,
      s.next [] = .ok (some (t, rest), g) ∧ ∃ n reads, s.task (fun _ => true) t [] = .ok
        (n, reads) ∧
        ∀ a ∈ reads, a < s.vm.sz s.me ∧ s.mapped a = true := by
  have hrun := exists_run spared spared_ok
    (fun s => (s.next []).toOption.any fun r => r.1.isSome)
    (.call .sysOpen 0 :: (Sbrk.grows 1 2).map .sbrk ++ [.store 1 4094 0x62]) (by decide +kernel)
  obtain ⟨s, hs, hcheck⟩ := hrun
  rcases hnext : s.next [] with e | ⟨_ | tr, g⟩ <;> rw [hnext] at hcheck
  · cases hcheck
  · cases hcheck
  · exact ⟨s, hs, tr.1, tr.2, g, hnext, spared_strings_stay_valid hs hnext fun _ => true⟩

end Xv6Threads.Strings
