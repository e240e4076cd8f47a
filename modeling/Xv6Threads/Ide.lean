import Mathlib.Algebra.Group.Nat.Defs
import Xv6Threads.LinkedQueue
import Xv6Threads.Loop
import Xv6Threads.Param

namespace Xv6Threads.Ide

open LinkedQueue Function List

abbrev SECTOR_SIZE : ℕ := 512

structure Buf (D : Type) where
  busy : Bool
  valid : Bool
  dirty : Bool
  dev : ℕ
  blockno : ℕ
  data : D
  deriving DecidableEq

inductive Command (D : Type)
  | read (drive lba : ℕ)
  | write (drive lba : ℕ) (data : D)
  deriving DecidableEq

def Command.exec {D : Type} (disk : ℕ → ℕ → D) : Command D → ℕ → ℕ → D
  | .read _ _ => disk
  | .write drive lba data => update disk drive (update (disk drive) lba data)

structure Dev (D : Type) where
  disk : ℕ → ℕ → D
  /-- the command the device is working on -/
  cmd : Option (Command D)
  /-- what the data port delivers -/
  port : D
  /-- a command was issued to the device while it was working on another one -/
  overrun : Bool

section
variable {D : Type}

def Dev.complete (d : Dev D) : Dev D :=
  match d.cmd with
  | none => d
  | some (.read drive lba) => { d with cmd := none, port := d.disk drive lba }
  | some (.write drive lba data) =>
    { d with cmd := none, disk := (Command.write drive lba data).exec d.disk }

/-- `idewait` spins until the device is not busy. -/
def idewait (d : Dev D) : Dev D := d.complete

def Dev.issue (d : Dev D) (c : Command D) : Dev D :=
  { d with cmd := some c, overrun := d.overrun || d.cmd.isSome }

/-- The sector number as the device puts it together from four registers. -/
def lba (sector : ℕ) : ℕ :=
  sector % 2 ^ 8 + sector / 2 ^ 8 % 2 ^ 8 * 2 ^ 8 + sector / 2 ^ 16 % 2 ^ 8 * 2 ^ 16 +
    sector / 2 ^ 24 % 2 ^ 4 * 2 ^ 24

/-- What `idestart` writes to the device for a buffer. -/
def command (b : Buf D) : Command D :=
  let sector := b.blockno * (BSIZE / SECTOR_SIZE)
  if b.dirty then .write (b.dev % 2) (lba sector) b.data else .read (b.dev % 2) (lba sector)

end

inductive Pos (B : Type)
  | idle
  /-- in the loop that waits for buffer `b` -/
  | wait (b : B) (asleep : Bool)
  deriving DecidableEq

/-- A call of `iderw`: the buffer, its device, and the command it calls for. -/
structure Request (B D : Type) where
  buf : B
  dev : ℕ
  cmd : Command D

/-- What happens to buffers: a process changes one it holds, or a request ends. -/
inductive Event (B D : Type)
  | touch (b : B) (x : Buf D)
  | rw (b : B)

/-- The driver, the device and the processes. The last three fields are not in the source: the
requests in the order they were queued, the commands in the order they were issued, and what
happened to the buffers. -/
structure Sys (P B D : Type) where
  buf : B → Buf D
  qnext : B → Option B
  idequeue : Option B
  havedisk1 : Bool
  dev : Dev D
  pos : P → Pos B
  arrived : List (Request B D)
  issued : List (Command D)
  log : List (Event B D)

inductive Stop
  | panic (msg : String)
  /-- the walk to the end of the queue does not end -/
  | loop
  deriving DecidableEq

variable {P B D : Type}

/-- The buffers whose requests have ended, in that order. -/
def Sys.served (s : Sys P B D) : List B :=
  s.log.filterMap fun
    | .rw b => some b
    | .touch _ _ => none

def idestart (s : Sys P B D) (b : B) : Except Stop (Sys P B D) :=
  if FSSIZE ≤ (s.buf b).blockno then .error (.panic "incorrect blockno")
  else .ok { s with
    dev := (idewait s.dev).issue (command (s.buf b))
    issued := s.issued ++ [command (s.buf b)] }

section
variable [DecidableEq B]

def wakeup (s : Sys P B D) (b : B) : Sys P B D :=
  { s with pos := fun p =>
      match s.pos p with
      | .wait c asleep => .wait c (asleep && c ≠ b)
      | .idle => .idle }

/-- What `ideintr` makes of the buffer `b`, with what `insl` finds at the data port. -/
def Buf.finish (b : Buf D) (port : D) : Buf D :=
  { b with valid := true, dirty := false, data := if b.dirty then b.data else port }

def ideintr (s : Sys P B D) : Except Stop (Sys P B D) :=
  match s.idequeue with
  | none => .ok s
  | some b =>
    let dev := if (s.buf b).dirty then s.dev else idewait s.dev
    let s := wakeup { s with
      idequeue := s.qnext b
      dev := dev
      buf := update s.buf b ((s.buf b).finish dev.port)
      log := s.log ++ [.rw b] } b
    match s.idequeue with
    | none => .ok s
    | some c => idestart s c

/-- `b->qnext = 0`, then the walk to the end of the queue. -/
def enqueue [Fintype B] (s : Sys P B D) (b : B) : Except Stop (Sys P B D) :=
  let s := { s with qnext := update s.qnext b none }
  match s.idequeue with
  | none => .ok { s with idequeue := some b }
  | some h =>
    match last s.qnext (Fintype.card B) h with
    | none => .error .loop
    | some t => .ok { s with qnext := update s.qnext t (some b) }

/-- `iderw` of process `p` until it sleeps; the first test of its loop holds. -/
def iderw [Fintype B] [DecidableEq P] (s : Sys P B D) (p : P) (b : B) :
    Except Stop (Sys P B D) := do
  if (s.buf b).busy = false then throw (.panic "iderw: buf not busy")
  else if (s.buf b).valid ∧ (s.buf b).dirty = false then throw (.panic "iderw: nothing to do")
  else if (s.buf b).dev ≠ 0 ∧ s.havedisk1 = false then
    throw (.panic "iderw: ide disk 1 not present")
  else
    let s ← enqueue s b
    let s ← if s.idequeue = some b then idestart s b else pure s
    pure { s with
      pos := update s.pos p (.wait b true)
      arrived := s.arrived ++ [⟨b, (s.buf b).dev, command (s.buf b)⟩] }

/-- A process that is awake looks at its buffer again. -/
def recheck [DecidableEq P] (s : Sys P B D) (p : P) (b : B) : Sys P B D :=
  let x := if (s.buf b).valid ∧ (s.buf b).dirty = false then .idle else .wait b true
  { s with pos := update s.pos p x }

inductive Act (P B D : Type)
  | iderw (p : P) (b : B)
  | ideintr
  /-- the device completes a command -/
  | complete
  /-- `p` is woken for another reason: `brelse` of its buffer, or `kill` -/
  | wake (p : P)
  | recheck (p : P)
  /-- the holder of `b` changes it, or it changes hands -/
  | touch (b : B) (x : Buf D)

/-- The device completes every command without error, and interrupts at any time. -/
def step [Fintype B] [DecidableEq P] (s : Sys P B D) : Act P B D → Option (Except Stop (Sys P B D))
  | .iderw p b => if s.pos p = .idle then some (iderw s p b) else none
  | .ideintr => some (ideintr s)
  | .complete => some (.ok { s with dev := s.dev.complete })
  | .wake p =>
    match s.pos p with
    | .wait b _ => some (.ok { s with pos := update s.pos p (.wait b false) })
    | .idle => none
  | .recheck p =>
    match s.pos p with
    | .wait b false => some (.ok (recheck s p b))
    | _ => none
  | .touch b x =>
    some (.ok { s with buf := update s.buf b x, log := s.log ++ [.touch b x] })

end

/-- No process is in `iderw` for the buffer. -/
def Free (s : Sys P B D) (b : B) : Prop := ∀ p asleep, s.pos p ≠ .wait b asleep

/-- Each call is for a busy buffer of its own, with a block of the file system; the buffer of a
process in `iderw` is nobody else's. -/
def Proper (s : Sys P B D) : Act P B D → Prop
  | .iderw _ b => Free s b ∧ (s.buf b).busy = true ∧ (s.buf b).blockno < FSSIZE
  | .touch b _ => Free s b
  | _ => True

structure Start (s : Sys P B D) : Prop where
  idle : ∀ p, s.pos p = .idle
  queue : s.idequeue = none
  cmd : s.dev.cmd = none
  overrun : s.dev.overrun = false
  arrived : s.arrived = []
  issued : s.issued = []
  log : s.log = []

structure Mem (B D : Type) where
  buf : B → Buf D
  memdisk : ℕ → D

section
variable [DecidableEq B]

/-- `iderw` of `memide.c`, with the `FSSIZE` blocks of `fs.img`. -/
def memIderw (m : Mem B D) (b : B) : Except String (Mem B D) :=
  let x := m.buf b
  if x.busy = false then .error "iderw: buf not busy"
  else if x.valid ∧ x.dirty = false then .error "iderw: nothing to do"
  else if x.dev ≠ 1 then .error "iderw: request not for disk 1"
  else if FSSIZE ≤ x.blockno then .error "iderw: block out of range"
  else if x.dirty then
    .ok ⟨update m.buf b { x with dirty := false, valid := true },
      update m.memdisk x.blockno x.data⟩
  else .ok ⟨update m.buf b { x with data := m.memdisk x.blockno, valid := true }, m.memdisk⟩

/-- One event after the other, each atomically. -/
def memRun (m : Mem B D) : List (Event B D) → Except String (Mem B D)
  | [] => .ok m
  | .touch b x :: l => memRun ⟨update m.buf b x, m.memdisk⟩ l
  | .rw b :: l => do
    let m ← memIderw m b
    memRun m l

end

section
variable {D : Type}

theorem complete_cmd (d : Dev D) : d.complete.cmd = none := by
  unfold Dev.complete
  split
  · assumption
  all_goals rfl

theorem complete_complete (d : Dev D) : d.complete.complete = d.complete := by
  have hcmd := complete_cmd d
  generalize d.complete = d at hcmd
  unfold Dev.complete
  rw [hcmd]

theorem complete_overrun (d : Dev D) : d.complete.overrun = d.overrun := by
  unfold Dev.complete
  split <;> rfl

theorem complete_issue_disk (d : Dev D) (c : Command D) :
    (d.issue c).complete.disk = c.exec d.disk := by
  cases c <;> rfl

theorem complete_issue_port (d : Dev D) (drive lba : ℕ) :
    (d.issue (.read drive lba)).complete.port = d.disk drive lba := rfl

theorem lba_eq {sector : ℕ} (h : sector < 2 ^ 28) : lba sector = sector := by
  unfold lba
  omega

theorem command_eq {b : Buf D} (h : b.blockno < FSSIZE) : command b =
    if b.dirty then .write (b.dev % 2) b.blockno b.data else .read (b.dev % 2) b.blockno := by
  have hsector : lba (b.blockno * (BSIZE / SECTOR_SIZE)) = b.blockno := by
    rw [show BSIZE / SECTOR_SIZE = 1 from rfl, Nat.mul_one]
    exact lba_eq (by simp only [FSSIZE] at h; omega)
  simp only [command, hsector]

end

section
variable [DecidableEq B] [Fintype B]

theorem enqueue_spec {s : Sys P B D} {q : List B} {b : B} (hchain : Chain s.qnext s.idequeue q)
    (hnodup : q.Nodup) (hb : b ∉ q) :
    ∃ qnext idequeue, enqueue s b = .ok { s with qnext := qnext, idequeue := idequeue } ∧
      Chain qnext idequeue (q ++ [b]) := by
  have hchain' := hchain.update hb none
  have hnone : update s.qnext b none b = none := update_self _ _ _
  unfold enqueue
  cases q with
  | nil =>
    rw [show s.idequeue = none from hchain]
    exact ⟨_, _, rfl, rfl, hnone⟩
  | cons c q =>
    have hcard : q.length < Fintype.card B := hnodup.length_le_card
    rw [hchain.1] at hchain' ⊢
    dsimp only
    rw [hchain'.last hcard]
    exact ⟨_, _, rfl, hchain'.append hnodup hb hnone⟩

end

def request (buf : B → Buf D) (b : B) : Request B D := ⟨b, (buf b).dev, command (buf b)⟩

/-- The disk once the request at the head of the queue has ended too. -/
def ahead (buf : B → Buf D) (disk : ℕ → D) : List B → ℕ → D
  | [] => disk
  | b :: _ => if (buf b).dirty then update disk (buf b).blockno (buf b).data else disk

/-- The memory disk `m` has ended the same requests. -/
structure Agrees [DecidableEq B] (s₀ s : Sys P B D) (q : List B) (m : Mem B D) : Prop where
  run : memRun ⟨s₀.buf, s₀.dev.disk 1⟩ s.log = .ok m
  buf : m.buf = s.buf
  disk : s.dev.complete.disk 1 = ahead s.buf m.memdisk q

/-- `q` is the queue, and `old` are the requests that have ended. -/
structure Inv [DecidableEq B] (s₀ s : Sys P B D) (q : List B) (old : List (Request B D)) :
    Prop where
  chain : Chain s.qnext s.idequeue q
  nodup : q.Nodup
  waiting : ∀ b ∈ q, ¬Free s b
  asleep : ∀ p b, s.pos p = .wait b true → b ∈ q
  ended : ∀ p b asleep, s.pos p = .wait b asleep → b ∉ q →
    (s.buf b).valid = true ∧ (s.buf b).dirty = false
  pending : ∀ b ∈ q, (s.buf b).busy = true ∧ ¬((s.buf b).valid = true ∧ (s.buf b).dirty = false) ∧
    (s.buf b).blockno < FSSIZE
  arrived : s.arrived = old ++ q.map (request s.buf)
  served : old.map Request.buf = s.served
  issued : s.issued = old.map Request.cmd ++ q.head?.toList.map fun b => command (s.buf b)
  overrun : s.dev.overrun = false
  port : ∀ b ∈ q.head?, ∀ drive lba, command (s.buf b) = .read drive lba →
    s.dev.complete.port = s.dev.complete.disk drive lba
  memory : (∀ r ∈ s.arrived, r.dev = 1) → ∃ m, Agrees s₀ s q m

section
variable [DecidableEq B] {s₀ s s' : Sys P B D} {q : List B} {old : List (Request B D)}

theorem Inv.move (h : Inv s₀ s q old) {pos : P → Pos B}
    (hwaiting : ∀ b ∈ q, ∃ p asleep, pos p = .wait b asleep)
    (hasleep : ∀ p b, pos p = .wait b true → b ∈ q)
    (hended : ∀ p b asleep, pos p = .wait b asleep → b ∉ q →
      (s.buf b).valid = true ∧ (s.buf b).dirty = false) : Inv s₀ { s with pos := pos } q old where
  chain := h.chain
  nodup := h.nodup
  waiting b hb hfree := by
    obtain ⟨p, asleep, hp⟩ := hwaiting b hb
    exact hfree p asleep hp
  asleep := hasleep
  ended := hended
  pending := h.pending
  arrived := h.arrived
  served := h.served
  issued := h.issued
  overrun := h.overrun
  port := h.port
  memory hdev := by
    obtain ⟨m, hrun, hbuf, hdisk⟩ := h.memory hdev
    exact ⟨m, hrun, hbuf, hdisk⟩

theorem Inv.exists_waiting (h : Inv s₀ s q old) {b : B} (hb : b ∈ q) :
    ∃ p asleep, s.pos p = .wait b asleep := by
  have hfree := h.waiting b hb
  simpa only [Free, not_forall, not_not] using hfree

theorem Start.inv (h : Start s) : Inv s s [] [] := by
  have hcomplete : s.dev.complete = s.dev := by
    unfold Dev.complete
    rw [h.cmd]
  refine ⟨h.queue, nodup_nil, by simp, ?_, ?_, by simp, h.arrived, ?_, h.issued, h.overrun,
    by simp, ?_⟩
  · intro p b hp
    rw [h.idle p] at hp
    cases hp
  · intro p b asleep hp
    rw [h.idle p] at hp
    cases hp
  · simp [Sys.served, h.log]
  · intro _
    refine ⟨⟨s.buf, s.dev.disk 1⟩, by rw [h.log]; rfl, rfl, ?_⟩
    rw [hcomplete]
    rfl

theorem Inv.complete (h : Inv s₀ s q old) : Inv s₀ { s with dev := s.dev.complete } q old := by
  refine ⟨h.chain, h.nodup, h.waiting, h.asleep, h.ended, h.pending, h.arrived, h.served, h.issued,
    (complete_overrun s.dev).trans h.overrun, ?_, ?_⟩
  · simp only [complete_complete]
    exact h.port
  · intro hdev
    obtain ⟨m, hrun, hbuf, hdisk⟩ := h.memory hdev
    refine ⟨m, hrun, hbuf, ?_⟩
    simp only [complete_complete]
    exact hdisk

theorem memRun_append (m : Mem B D) (l l' : List (Event B D)) :
    memRun m (l ++ l') = (memRun m l).bind fun m => memRun m l' := by
  induction l generalizing m with
  | nil => rfl
  | cons e l ih =>
    cases e with
    | touch b x => exact ih _
    | rw b =>
      simp only [cons_append, memRun]
      cases memIderw m b with
      | error msg => rfl
      | ok m => exact ih m

theorem Inv.touch (h : Inv s₀ s q old) {b : B} {x : Buf D} (hfree : Free s b) :
    Inv s₀ { s with buf := update s.buf b x, log := s.log ++ [.touch b x] } q old := by
  have hq : ∀ c ∈ q, update s.buf b x c = s.buf c := by
    intro c hc
    apply update_of_ne
    rintro rfl
    exact h.waiting c hc hfree
  have hhead : ∀ c ∈ q.head?, update s.buf b x c = s.buf c :=
    fun c hc => hq c (mem_of_mem_head? hc)
  refine ⟨h.chain, h.nodup, h.waiting, h.asleep, ?_, ?_, ?_, ?_, ?_, h.overrun, ?_, ?_⟩
  · intro p c asleep hp hc
    have hcb : c ≠ b := by
      rintro rfl
      exact hfree p asleep hp
    simp only [update_of_ne hcb]
    exact h.ended p c asleep hp hc
  · intro c hc
    simp only [hq c hc]
    exact h.pending c hc
  · rw [h.arrived]
    congr 1
    apply map_congr_left
    intro c hc
    simp only [request, hq c hc]
  · simpa [Sys.served] using h.served
  · rw [h.issued]
    congr 1
    apply map_congr_left
    intro c hc
    simp only [hhead c (by simpa using hc)]
  · intro c hc drive lba
    simp only [hhead c hc]
    exact h.port c hc drive lba
  · intro hdev
    obtain ⟨m, hrun, hbuf, hdisk⟩ := h.memory hdev
    refine ⟨⟨update m.buf b x, m.memdisk⟩, ?_, by rw [hbuf], ?_⟩
    · rw [memRun_append, hrun]
      rfl
    · rw [hdisk]
      cases q with
      | nil => rfl
      | cons c q => simp only [ahead, hq c mem_cons_self]

end

section
variable [DecidableEq B] [Fintype B] [DecidableEq P] {s₀ s s' : Sys P B D} {q : List B}
  {old : List (Request B D)}

omit [Fintype B] in
/-- Buffer `b` is queued last. What is left to show is that the device works on the head. -/
theorem Inv.queued (h : Inv s₀ s q old) {p : P} {b : B} (hok : Proper s (.iderw p b))
    (hidle : s.pos p = .idle) (hready : ¬((s.buf b).valid = true ∧ (s.buf b).dirty = false))
    {qnext : B → Option B} {idequeue : Option B} (hchain : Chain qnext idequeue (q ++ [b]))
    {dev : Dev D} {issued : List (Command D)} (hissued : issued = old.map Request.cmd ++
      (q ++ [b]).head?.toList.map fun c => command (s.buf c)) (hoverrun : dev.overrun = false)
    (hport : ∀ c ∈ (q ++ [b]).head?, ∀ drive lba, command (s.buf c) = .read drive lba →
      dev.complete.port = dev.complete.disk drive lba)
    (hdisk : ∀ disk, (s.buf b).dev = 1 → s.dev.complete.disk 1 = ahead s.buf disk q →
      dev.complete.disk 1 = ahead s.buf disk (q ++ [b])) : Inv s₀ { s with
      qnext := qnext, idequeue := idequeue, dev := dev, issued := issued,
      pos := update s.pos p (.wait b true),
      arrived := s.arrived ++ [request s.buf b] } (q ++ [b]) old := by
  obtain ⟨hfree, hbusy, hblock⟩ := hok
  have hb : b ∉ q := fun hb => h.waiting b hb hfree
  have hpos : ∀ p' c asleep, update s.pos p (.wait b true) p' = .wait c asleep →
      p' = p ∧ c = b ∨ p' ≠ p ∧ s.pos p' = .wait c asleep := by
    intro p' c asleep hp'
    by_cases hpp : p' = p
    · rw [hpp, update_self] at hp'
      cases hp'
      exact .inl ⟨hpp, rfl⟩
    · rw [update_of_ne hpp] at hp'
      exact .inr ⟨hpp, hp'⟩
  refine ⟨hchain, ?_, ?_, ?_, ?_, ?_, ?_, h.served, hissued, hoverrun, hport, ?_⟩
  · rw [nodup_append]
    refine ⟨h.nodup, nodup_singleton b, ?_⟩
    rintro c hc _ hcb rfl
    exact hb (mem_singleton.mp hcb ▸ hc)
  · intro c hc hfree'
    rcases mem_append.mp hc with hc | hc
    · obtain ⟨p', asleep, hp'⟩ := h.exists_waiting hc
      have hpp : p' ≠ p := by
        rintro rfl
        rw [hidle] at hp'
        cases hp'
      exact hfree' p' asleep ((update_of_ne hpp _ _).trans hp')
    · rw [mem_singleton.mp hc] at hfree'
      exact hfree' p true (update_self _ _ _)
  · intro p' c hp'
    rcases hpos p' c true hp' with ⟨-, rfl⟩ | ⟨-, hp'⟩
    · simp
    · exact mem_append_left [b] (h.asleep p' c hp')
  · intro p' c asleep hp' hc
    rcases hpos p' c asleep hp' with ⟨-, rfl⟩ | ⟨-, hp'⟩
    · simp at hc
    · exact h.ended p' c asleep hp' fun hq => hc (mem_append_left [b] hq)
  · intro c hc
    rcases mem_append.mp hc with hc | hc
    · exact h.pending c hc
    · rw [mem_singleton.mp hc]
      exact ⟨hbusy, hready, hblock⟩
  · rw [h.arrived, append_assoc, map_append, map_singleton]
  · intro hdev
    have hlast : (s.buf b).dev = 1 := hdev (request s.buf b) (by simp)
    obtain ⟨m, hrun, hbuf, hdisk'⟩ := h.memory fun r hr => hdev r (mem_append_left _ hr)
    exact ⟨m, hrun, hbuf, hdisk m.memdisk hlast hdisk'⟩

omit [DecidableEq B] [Fintype B] [DecidableEq P] in
theorem exec_command {buf : B → Buf D} {b : B} (hblock : (buf b).blockno < FSSIZE)
    (hdev : (buf b).dev = 1) (disk : ℕ → ℕ → D) (q : List B) :
    (command (buf b)).exec disk 1 = ahead buf (disk 1) (b :: q) := by
  rw [command_eq hblock, hdev]
  simp only [ahead]
  split_ifs
  · exact update_self 1 _ disk
  · rfl

/-- A process queues its buffer. Only the first buffer of the queue is started. -/
theorem Inv.iderw (h : Inv s₀ s q old) {p : P} {b : B} (hok : Proper s (.iderw p b))
    (hidle : s.pos p = .idle) (hready : ¬((s.buf b).valid = true ∧ (s.buf b).dirty = false))
    (hdisk : ¬((s.buf b).dev ≠ 0 ∧ s.havedisk1 = false)) :
    ∃ s', iderw s p b = .ok s' ∧ Inv s₀ s' (q ++ [b]) old := by
  have hb : b ∉ q := fun hb => h.waiting b hb hok.1
  have hblock := hok.2.2
  obtain ⟨qnext, idequeue, henqueue, hchain⟩ := enqueue_spec h.chain h.nodup hb
  have hhead := hchain.head_eq
  unfold Ide.iderw
  rw [if_neg (by simp [hok.2.1]), if_neg hready, if_neg hdisk, henqueue]
  cases q with
  | nil =>
    obtain rfl : idequeue = some b := hhead
    have hstart : idestart { s with qnext := qnext, idequeue := some b } b =
        .ok { s with
          qnext := qnext, idequeue := some b,
          dev := (idewait s.dev).issue (command (s.buf b)),
          issued := s.issued ++ [command (s.buf b)] } := by
      unfold idestart
      rw [if_neg (by simpa using hblock)]
    simp only [bind, Except.bind, if_true, hstart]
    refine ⟨_, rfl, h.queued hok hidle hready hchain ?_ ?_ ?_ ?_⟩
    · rw [h.issued]
      simp
    · simp [Dev.issue, idewait, complete_overrun, complete_cmd, h.overrun]
    · intro c hc drive lba hcmd
      cases hc
      rw [hcmd, complete_issue_port, complete_issue_disk]
      rfl
    · intro disk hdev hd
      rw [complete_issue_disk, exec_command hblock hdev _ []]
      simp only [idewait, hd]
      rfl
  | cons c q =>
    have hne : idequeue ≠ some b := by
      rw [hhead]
      rintro ⟨⟩
      exact hb mem_cons_self
    simp only [bind, Except.bind, if_neg hne]
    refine ⟨_, rfl, h.queued hok hidle hready hchain h.issued h.overrun h.port ?_⟩
    exact fun disk _ hd => hd

end

section
variable [DecidableEq B] {s₀ s s' : Sys P B D} {q : List B} {old : List (Request B D)}

theorem wakeup_pos {b c : B} {p : P} {asleep : Bool} :
    (wakeup s b).pos p = .wait c asleep ↔ ∃ a, s.pos p = .wait c a ∧ asleep = (a && c ≠ b) := by
  simp only [wakeup]
  cases s.pos p with
  | idle => simp
  | wait d a =>
    constructor
    · rintro ⟨⟩
      exact ⟨a, rfl, rfl⟩
    · rintro ⟨_, ⟨⟩, rfl⟩
      rfl

theorem Agrees.rw {m : Mem B D} {b : B} (h : Agrees s₀ s (b :: q) m) (hdev : (s.buf b).dev = 1)
    (hpending : (s.buf b).busy = true ∧ ¬((s.buf b).valid = true ∧ (s.buf b).dirty = false) ∧
      (s.buf b).blockno < FSSIZE) {port : D}
    (hport : (s.buf b).dirty = false → port = s.dev.complete.disk 1 (s.buf b).blockno) :
    ∃ m', memRun ⟨s₀.buf, s₀.dev.disk 1⟩ (s.log ++ [.rw b]) = .ok m' ∧
      m'.buf = update s.buf b ((s.buf b).finish port) ∧ s.dev.complete.disk 1 = m'.memdisk := by
  obtain ⟨hbusy, hready, hblock⟩ := hpending
  obtain ⟨hrun, hbuf, hdisk⟩ := h
  simp only [memRun_append, hrun, Except.bind, memRun, memIderw, hbuf, hbusy, hdev, hready,
    Nat.not_le.mpr hblock, Bool.true_eq_false, ne_eq, not_true_eq_false, if_false]
  cases hdirty : (s.buf b).dirty with
  | true =>
    simp only [ahead, hdirty, if_true] at hdisk
    exact ⟨_, rfl, by simp only [Buf.finish, hdirty, hbusy, hdev, if_true], hdisk⟩
  | false =>
    simp only [ahead, hdirty, Bool.false_eq_true, if_false] at hdisk
    refine ⟨_, rfl, ?_, hdisk⟩
    simp only [Buf.finish, hdirty, hbusy, hdev, Bool.false_eq_true, if_false, hport hdirty, hdisk]

/-- The request at the head has ended. What is left to show is that the device works on the next. -/
theorem Inv.popped {b : B} (h : Inv s₀ s (b :: q) old) {port : D}
    (hread : (s.buf b).dirty = false → port = s.dev.complete.port)
    (dev : Dev D) (issued : List (Command D))
    (hissued : issued = s.issued ++ q.head?.toList.map fun c => command (s.buf c))
    (hoverrun : dev.overrun = false)
    (hport : ∀ c ∈ q.head?, ∀ drive lba, command (s.buf c) = .read drive lba →
      dev.complete.port = dev.complete.disk drive lba) (hdisk : (∀ c ∈ q, (s.buf c).dev = 1) →
      dev.complete.disk 1 = ahead s.buf (s.dev.complete.disk 1) q) : Inv s₀ (wakeup { s with
      idequeue := s.qnext b, dev := dev, issued := issued,
      buf := update s.buf b ((s.buf b).finish port),
      log := s.log ++ [.rw b] } b) q (old ++ [request s.buf b]) := by
  obtain ⟨hbq, hnodup⟩ := nodup_cons.mp h.nodup
  have hq : ∀ c ∈ q, update s.buf b ((s.buf b).finish port) c = s.buf c := by
    intro c hc
    apply update_of_ne
    rintro rfl
    exact hbq hc
  have hhead : ∀ c ∈ q.head?, update s.buf b ((s.buf b).finish port) c = s.buf c :=
    fun c hc => hq c (mem_of_mem_head? hc)
  refine ⟨h.chain.2, hnodup, ?_, ?_, ?_, ?_, ?_, ?_, ?_, hoverrun, ?_, ?_⟩
  · intro c hc hfree
    obtain ⟨p, asleep, hp⟩ := h.exists_waiting (mem_cons_of_mem b hc)
    exact hfree p _ (wakeup_pos.mpr ⟨asleep, hp, rfl⟩)
  · intro p c hp
    obtain ⟨a, hp, ha⟩ := wakeup_pos.mp hp
    have ha := (Bool.and_eq_true _ _).mp ha.symm
    rw [ha.1] at hp
    exact (mem_cons.mp (h.asleep p c hp)).resolve_left (of_decide_eq_true ha.2)
  · intro p c asleep hp hc
    obtain ⟨a, hp, -⟩ := wakeup_pos.mp hp
    change (update s.buf b _ c).valid = true ∧ (update s.buf b _ c).dirty = false
    by_cases hcb : c = b
    · rw [hcb, update_self]
      exact ⟨rfl, rfl⟩
    · rw [update_of_ne hcb]
      exact h.ended p c a hp fun hmem => hc ((mem_cons.mp hmem).resolve_left hcb)
  · intro c hc
    have hpending := h.pending c (mem_cons_of_mem b hc)
    simp only [wakeup, hq c hc]
    exact hpending
  · simp only [wakeup, h.arrived, map_cons, append_assoc, singleton_append]
    congr 2
    apply map_congr_left
    intro c hc
    simp only [request, hq c hc]
  · simp only [map_append, h.served, Sys.served, wakeup, filterMap_append]
    rfl
  · simp only [wakeup, hissued, h.issued, List.head?_cons, map_append]
    congr 1
    apply map_congr_left
    intro c hc
    simp only [hhead c (by simpa using hc)]
  · intro c hc drive lba
    simp only [wakeup, hhead c hc]
    exact hport c hc drive lba
  · intro hdev
    have hdevs : ∀ c ∈ b :: q, (s.buf c).dev = 1 := by
      intro c hc
      apply hdev (request s.buf c)
      simp only [wakeup, h.arrived]
      exact mem_append_right _ (mem_map_of_mem hc)
    obtain ⟨m, hm⟩ := h.memory hdev
    have hpending := h.pending b mem_cons_self
    have hfirst : (s.buf b).dirty = false → port = s.dev.complete.disk 1 (s.buf b).blockno := by
      intro hdirty
      have hcmd : command (s.buf b) = .read 1 (s.buf b).blockno := by
        rw [command_eq hpending.2.2, hdirty, hdevs b mem_cons_self]
        rfl
      exact (hread hdirty).trans (h.port b rfl _ _ hcmd)
    obtain ⟨m', hrun, hbuf, hdisk'⟩ := hm.rw (hdevs b mem_cons_self) hpending hfirst
    refine ⟨m', hrun, hbuf, ?_⟩
    rw [← hdisk']
    refine (hdisk fun c hc => hdevs c (mem_cons_of_mem b hc)).trans ?_
    cases q with
    | nil => rfl
    | cons c q => simp only [ahead, wakeup, hq c mem_cons_self]

/-- An interrupt ends the request at the head of the queue and starts the next one. -/
theorem Inv.ideintr (h : Inv s₀ s q old) : ∃ s' old', ideintr s = .ok s' ∧
    Inv s₀ s' q.tail old' := by
  unfold Ide.ideintr
  cases q with
  | nil =>
    rw [show s.idequeue = none from h.chain]
    exact ⟨s, old, rfl, h⟩
  | cons b q =>
    rw [h.chain.1]
    set dev := if (s.buf b).dirty then s.dev else idewait s.dev with hdev
    have hcomplete : dev.complete = s.dev.complete := by
      rw [hdev]
      split_ifs
      · rfl
      · exact complete_complete s.dev
    have hover : dev.overrun = false := by
      rw [← complete_overrun, hcomplete, complete_overrun, h.overrun]
    have hread : (s.buf b).dirty = false → dev.port = s.dev.complete.port := by
      intro hdirty
      simp only [hdev, hdirty, Bool.false_eq_true, if_false, idewait]
    have hnext : s.qnext b = q.head? := h.chain.2.head_eq
    cases q with
    | nil =>
      have hlast : s.qnext b = none := hnext
      refine ⟨wakeup _ b, _, ?_, h.popped hread dev s.issued (by simp) hover (by simp) ?_⟩
      · dsimp only [wakeup]
        rw [hlast]
      · intro _
        rw [hcomplete]
        rfl
    | cons c q =>
      have hcb : c ≠ b := by
        rintro rfl
        exact (nodup_cons.mp h.nodup).1 mem_cons_self
      have hblock := (h.pending c (mem_cons_of_mem b mem_cons_self)).2.2
      refine ⟨wakeup _ b, _, ?_, h.popped hread ((idewait dev).issue (command (s.buf c)))
        (s.issued ++ [command (s.buf c)]) rfl ?_ ?_ ?_⟩
      · dsimp only [wakeup]
        rw [hnext]
        simp only [List.head?_cons, idestart, update_of_ne hcb]
        rw [if_neg (by omega)]
      · simp [Dev.issue, idewait, complete_overrun, complete_cmd, hover]
      · intro d hd drive lba hcmd
        cases hd
        rw [hcmd, complete_issue_port, complete_issue_disk]
        rfl
      · intro hdevs
        rw [complete_issue_disk, exec_command hblock (hdevs c mem_cons_self) _ q]
        simp only [idewait, hcomplete]

end

section
variable [DecidableEq B] [Fintype B] [DecidableEq P] {s₀ s s' : Sys P B D} {q : List B}
  {old : List (Request B D)}

abbrev Reachable (s₀ : Sys P B D) : Sys P B D → Prop :=
  Reach (· = s₀) Proper fun s a s' => step s a = some (.ok s')

/-- The two panics of a caller whose buffer needs nothing, or whose disk is not there. -/
def Refused (e : Stop) : Prop :=
  e = .panic "iderw: nothing to do" ∨ e = .panic "iderw: ide disk 1 not present"

omit [Fintype B] in
theorem Inv.wake (h : Inv s₀ s q old) {p : P} {b : B} {asleep : Bool}
    (hp : s.pos p = .wait b asleep) :
    Inv s₀ { s with pos := update s.pos p (.wait b false) } q old := by
  have hpos : ∀ p' c a, update s.pos p (.wait b false) p' = .wait c a →
      (a = true → s.pos p' = .wait c true) ∧ ∃ a', s.pos p' = .wait c a' := by
    intro p' c a hp'
    by_cases hpp : p' = p
    · rw [hpp, update_self] at hp'
      cases hp'
      exact ⟨nofun, asleep, hpp ▸ hp⟩
    · rw [update_of_ne hpp] at hp'
      exact ⟨fun ha => ha ▸ hp', a, hp'⟩
  refine h.move ?_ ?_ ?_
  · intro c hc
    obtain ⟨p', a, hp'⟩ := h.exists_waiting hc
    by_cases hpp : p' = p
    · rw [hpp, hp] at hp'
      cases hp'
      exact ⟨p, false, update_self _ _ _⟩
    · exact ⟨p', a, (update_of_ne hpp _ _).trans hp'⟩
  · exact fun p' c hp' => h.asleep p' c ((hpos p' c true hp').1 rfl)
  · intro p' c a hp' hc
    obtain ⟨a', ha'⟩ := (hpos p' c a hp').2
    exact h.ended p' c a' ha' hc

omit [Fintype B] in
/-- A process leaves `iderw` when its request has ended, and sleeps again otherwise. -/
theorem Inv.recheck (h : Inv s₀ s q old) {p : P} {b : B} {asleep : Bool}
    (hp : s.pos p = .wait b asleep) : Inv s₀ (recheck s p b) q old := by
  by_cases hdone : (s.buf b).valid = true ∧ (s.buf b).dirty = false
  · have hb : b ∉ q := fun hb => (h.pending b hb).2.1 hdone
    have hpos : ∀ p' c a, update s.pos p .idle p' = .wait c a → s.pos p' = .wait c a := by
      intro p' c a hp'
      by_cases hpp : p' = p
      · rw [hpp, update_self] at hp'
        cases hp'
      · rwa [update_of_ne hpp] at hp'
    unfold Ide.recheck
    rw [if_pos hdone]
    refine h.move ?_ (fun p' c hp' => h.asleep p' c (hpos p' c true hp'))
      fun p' c a hp' => h.ended p' c a (hpos p' c a hp')
    intro c hc
    obtain ⟨p', a, hp'⟩ := h.exists_waiting hc
    have hpp : p' ≠ p := by
      rintro rfl
      rw [hp] at hp'
      cases hp'
      exact hb hc
    exact ⟨p', a, (update_of_ne hpp _ _).trans hp'⟩
  · have hb : b ∈ q := by
      by_contra hb
      exact hdone (h.ended p b asleep hp hb)
    have hpos : ∀ p' c a, update s.pos p (.wait b true) p' = .wait c a →
        c ∈ q ∨ s.pos p' = .wait c a := by
      intro p' c a hp'
      by_cases hpp : p' = p
      · rw [hpp, update_self] at hp'
        cases hp'
        exact .inl hb
      · rw [update_of_ne hpp] at hp'
        exact .inr hp'
    unfold Ide.recheck
    rw [if_neg hdone]
    refine h.move ?_ ?_ ?_
    · intro c hc
      obtain ⟨p', a, hp'⟩ := h.exists_waiting hc
      by_cases hpp : p' = p
      · rw [hpp, hp] at hp'
        cases hp'
        exact ⟨p, true, update_self _ _ _⟩
      · exact ⟨p', a, (update_of_ne hpp _ _).trans hp'⟩
    · exact fun p' c hp' => (hpos p' c true hp').elim id (h.asleep p' c)
    · exact fun p' c a hp' hc => h.ended p' c a ((hpos p' c a hp').resolve_left hc) hc

theorem Inv.next (h : Inv s₀ s q old) {a : Act P B D} (hok : Proper s a)
    {r : Except Stop (Sys P B D)} (hstep : step s a = some r) :
    (∃ s' q' old', r = .ok s' ∧ Inv s₀ s' q' old') ∨ ∃ e, r = .error e ∧ Refused e := by
  cases a with
  | iderw p b =>
    simp only [step] at hstep
    split_ifs at hstep with hidle
    rw [← Option.some.inj hstep]
    by_cases hready : (s.buf b).valid = true ∧ (s.buf b).dirty = false
    · right
      refine ⟨_, ?_, .inl rfl⟩
      unfold Ide.iderw
      rw [if_neg (by simp [hok.2.1]), if_pos hready]
      rfl
    by_cases hdisk : (s.buf b).dev ≠ 0 ∧ s.havedisk1 = false
    · right
      refine ⟨_, ?_, .inr rfl⟩
      unfold Ide.iderw
      rw [if_neg (by simp [hok.2.1]), if_neg hready, if_pos hdisk]
      rfl
    · obtain ⟨s', hs', hinv⟩ := h.iderw hok hidle hready hdisk
      exact .inl ⟨s', _, _, hs', hinv⟩
  | ideintr =>
    obtain ⟨s', old', hs', hinv⟩ := h.ideintr
    rw [← Option.some.inj hstep]
    exact .inl ⟨s', _, old', hs', hinv⟩
  | complete =>
    rw [← Option.some.inj hstep]
    exact .inl ⟨_, _, _, rfl, h.complete⟩
  | wake p =>
    simp only [step] at hstep
    split at hstep
    · next b asleep hp =>
      rw [← Option.some.inj hstep]
      exact .inl ⟨_, _, _, rfl, h.wake hp⟩
    · cases hstep
  | recheck p =>
    simp only [step] at hstep
    split at hstep
    · next b hp =>
      rw [← Option.some.inj hstep]
      exact .inl ⟨_, _, _, rfl, h.recheck hp⟩
    · cases hstep
  | touch b x =>
    rw [← Option.some.inj hstep]
    exact .inl ⟨_, _, _, rfl, h.touch hok⟩

theorem reachable_inv (h₀ : Start s₀) (h : Reachable s₀ s) : ∃ q old, Inv s₀ s q old := by
  apply Reach.invariant (P := fun s => ∃ q old, Inv s₀ s q old) _ _ h
  · rintro _ rfl
    exact ⟨[], [], h₀.inv⟩
  · rintro s a s' ⟨q, old, hinv⟩ hok hstep
    rcases hinv.next hok hstep with ⟨t, q', old', ht, hinv'⟩ | ⟨e, he, -⟩
    · rw [Except.ok.inj ht]
      exact ⟨q', old', hinv'⟩
    · cases he

/-- The queue holds each buffer at most once. Each request's command is issued once, in the order
of the requests, the next one only when the one before has ended and the device is ready. A
process sleeps only while its buffer is queued, and finds it valid and clean afterwards. And if
the requests are for the disk that `memide.c` has, the buffers are those that its `iderw` leaves,
called for one request after the other in the same order; so is the disk, once the queue is
empty. -/
structure Refines (s₀ s : Sys P B D) (q : List B) : Prop where
  chain : Chain s.qnext s.idequeue q
  nodup : q.Nodup
  order : s.arrived.map Request.buf = s.served ++ q
  issued : s.issued = (s.arrived.take (s.served.length + min 1 q.length)).map Request.cmd
  overrun : s.dev.overrun = false
  asleep : ∀ p b, s.pos p = .wait b true → b ∈ q
  ended : ∀ p b asleep, s.pos p = .wait b asleep → b ∉ q →
    (s.buf b).valid = true ∧ (s.buf b).dirty = false
  memory : (∀ r ∈ s.arrived, r.dev = 1) → ∃ m, memRun ⟨s₀.buf, s₀.dev.disk 1⟩ s.log = .ok m ∧
    m.buf = s.buf ∧ (q = [] → s.dev.complete.disk 1 = m.memdisk)

omit [Fintype B] [DecidableEq P] in
theorem Inv.refines (h : Inv s₀ s q old) : Refines s₀ s q := by
  have hlen : s.served.length = old.length := by rw [← h.served, length_map]
  refine ⟨h.chain, h.nodup, ?_, ?_, h.overrun, h.asleep, h.ended, ?_⟩
  · have hbuf : (q.map (request s.buf)).map Request.buf = q := by
      rw [map_map]
      exact map_id q
    rw [h.arrived, map_append, h.served, hbuf]
  · rw [h.issued, h.arrived, hlen, take_length_add_append, map_append]
    cases q with
    | nil => rfl
    | cons b q =>
      rw [show min 1 (b :: q).length = 1 by simp]
      rfl
  · intro hdev
    obtain ⟨m, hrun, hbuf, hdisk⟩ := h.memory hdev
    refine ⟨m, hrun, hbuf, ?_⟩
    rintro rfl
    exact hdisk

/-- In every run of processes that call `iderw`, each for a busy buffer of its own, and of
interrupts and wakeups at any time, the driver does with queued requests what `memide.c` does at
once; a process leaves `iderw` only with a valid and clean buffer, and no caller panics whose
buffer needs the disk. -/
theorem ide_refines_memory_disk (h₀ : Start s₀) (h : Reachable s₀ s) :
    (∃ q, Refines s₀ s q) ∧
    (∀ p b s', s.pos p = .wait b false → step s (.recheck p) = some (.ok s') → s'.pos p = .idle →
      (s'.buf b).valid = true ∧ (s'.buf b).dirty = false) ∧
    ∀ a e, Proper s a → step s a = some (.error e) → Refused e := by
  obtain ⟨q, old, hinv⟩ := reachable_inv h₀ h
  refine ⟨⟨q, hinv.refines⟩, ?_, ?_⟩
  · intro p b s' hp hstep hidle
    simp only [step, hp] at hstep
    rw [← Except.ok.inj (Option.some.inj hstep)] at hidle ⊢
    by_contra hdone
    change ¬((s.buf b).valid = true ∧ (s.buf b).dirty = false) at hdone
    simp only [recheck, if_neg hdone, update_self] at hidle
    cases hidle
  · intro a e hok hstep
    rcases hinv.next hok hstep with ⟨_, _, _, hr, -⟩ | ⟨e', he', hrefused⟩
    · cases hr
    · rw [Except.error.inj he']
      exact hrefused

end

/-- Buffer 0 is to be read and buffer 1 written, both for block 7 of disk 1, which holds 3. -/
def twoBuffers : Sys (Fin 2) (Fin 2) ℕ where
  buf := fun b => ⟨true, b = 1, b = 1, 1, 7, if b = 1 then 5 else 0⟩
  qnext := fun _ => none
  idequeue := none
  havedisk1 := true
  dev := ⟨fun _ _ => 3, none, 0, false⟩
  pos := fun _ => .idle
  arrived := []
  issued := []
  log := []

theorem twoBuffers_start : Start twoBuffers := ⟨fun _ => rfl, rfl, rfl, rfl, rfl, rfl, rfl⟩

/-- A test that implies `Proper`. -/
def proper (s : Sys (Fin 2) (Fin 2) ℕ) : Act (Fin 2) (Fin 2) ℕ → Bool
  | .iderw _ b => decide ((∀ p asleep, s.pos p ≠ .wait b asleep) ∧ (s.buf b).busy = true ∧
      (s.buf b).blockno < FSSIZE)
  | .touch b _ => decide (∀ p asleep, s.pos p ≠ .wait b asleep)
  | _ => true

theorem proper_ok (s : Sys (Fin 2) (Fin 2) ℕ) (a : Act (Fin 2) (Fin 2) ℕ) (h : proper s a = true) :
    Proper s a := by
  cases a with
  | iderw p b | touch b x =>
    simp only [proper, decide_eq_true_eq] at h
    exact h
  | ideintr | complete | wake | recheck => trivial

/-- Both processes wait; the first gets what was on the disk, the second one's data is there
after it. -/
theorem ide_refines_memory_disk_two :
    ∃ s : Sys (Fin 2) (Fin 2) ℕ, Reachable twoBuffers s ∧ (s.buf 0).data = 3 ∧
      s.dev.disk 1 7 = 5 ∧ s.served = [0, 1] ∧ ∃ q, Refines twoBuffers s q := by
  have hstart : Reachable twoBuffers twoBuffers := .start rfl
  have hrun := Reach.exists_of_execs proper _
    (fun s => decide ((s.buf 0).data = 3 ∧ s.dev.disk 1 7 = 5 ∧ s.served = [0, 1])) proper_ok
    (fun _ _ _ => eq_of_reached)
    [.iderw 0 0, .iderw 1 1, .complete, .ideintr, .recheck 0,
      .touch 0 ⟨false, true, false, 1, 7, 3⟩, .wake 1, .recheck 1, .complete, .ideintr,
      .recheck 1] hstart (by decide +kernel)
  obtain ⟨s, hs, hcheck⟩ := hrun
  obtain ⟨hdata, hdisk, hserved⟩ := of_decide_eq_true hcheck
  exact ⟨s, hs, hdata, hdisk, hserved, (ide_refines_memory_disk twoBuffers_start hs).1⟩

end Xv6Threads.Ide
