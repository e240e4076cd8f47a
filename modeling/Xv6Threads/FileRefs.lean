import Xv6Threads.OpenFiles

namespace Xv6Threads.OpenFiles

open Atomic Function Multiset Finset

inductive Token
  | ref (f : FileIx)
  /-- a file that `filealloc` has returned and that has no type yet -/
  | new (f : FileIx)
  /-- the end of a pipe that has no file -/
  | shut (p : ℕ) (writable : Bool)
  /-- a pipe with both ends closed and its page not yet freed -/
  | page (p : ℕ)
  /-- the process itself, while it has its descriptors in hand -/
  | self (i : Slot)
  | embryo (np : Slot) (mapped : Bool)
  deriving DecidableEq

abbrev Tokens := Multiset Token

def entries (ofile : Ofile) (f : FileIx) :
    ℕ := (Finset.univ.filter fun fd => ofile fd = some f).card

def owned (ofile : Ofile) : Tokens := ∑ fd, (ofile fd).elim 0 fun f => {.ref f}

section
variable {ofile : Ofile} {fd : Fin NOFILE} {f : FileIx}

theorem entries_eq (ofile : Ofile) (f : FileIx) :
    entries ofile f = ∑ fd, if ofile fd = some f then 1 else 0 := card_filter ..

theorem count_elim (x : Option FileIx) (c : Token) :
    (x.elim (0 : Tokens) fun f => {.ref f}).count c = if x.map .ref = some c then 1 else 0 := by
  cases x with
  | none => simp
  | some g => simp [count_singleton, eq_comm]

@[simp] theorem count_ref_owned (ofile : Ofile) (f : FileIx) :
    (owned ofile).count (.ref f) = entries ofile f := by
  rw [entries_eq, owned, count_sum']
  refine sum_congr rfl fun fd _ => ?_
  rw [count_elim]
  cases ofile fd <;> simp

theorem count_owned {c : Token} (hc : ∀ f, Token.ref f ≠ c) (ofile : Ofile) :
    (owned ofile).count c = 0 := by
  rw [owned, count_sum']
  refine Finset.sum_eq_zero fun fd _ => ?_
  rw [count_elim]
  cases ofile fd with
  | none => simp
  | some g => simp [hc g]

@[simp] theorem count_new_owned : (owned ofile).count (.new f) = 0 :=
  count_owned (by simp) ofile

@[simp] theorem count_shut_owned {p : ℕ} {w : Bool} : (owned ofile).count (.shut p w) = 0 :=
  count_owned (by simp) ofile

@[simp] theorem count_page_owned {p : ℕ} : (owned ofile).count (.page p) = 0 :=
  count_owned (by simp) ofile

@[simp] theorem count_self_owned {i : Slot} : (owned ofile).count (.self i) = 0 :=
  count_owned (by simp) ofile

@[simp] theorem count_embryo_owned {i : Slot} {b : Bool} : (owned ofile).count (.embryo i b) = 0 :=
  count_owned (by simp) ofile

@[simp] theorem owned_none : owned (fun _ => none) = 0 :=
  sum_eq_zero fun _ _ => rfl

theorem owned_set (h : ofile fd = none) :
    owned (update ofile fd (some f)) = {.ref f} + owned ofile := by
  have hsum := sum_change (fun x => (ofile x).elim (0 : Tokens) fun f => {.ref f})
    (fun x => (update ofile fd (some f) x).elim 0 fun f => {.ref f}) fd
    (fun x hx => by rw [update_of_ne hx])
  simp only [h, update_self, Option.elim_none, Option.elim_some, add_zero] at hsum
  rw [owned, hsum, owned, add_comm]

theorem owned_clear (h : ofile fd = some f) :
    owned ofile = {.ref f} + owned (update ofile fd none) := by
  have hset : owned (update (update ofile fd none) fd (some f)) =
      {.ref f} + owned (update ofile fd none) := owned_set (update_self ..)
  rwa [update_idem, ← h, update_eq_self] at hset

end

/-- The descriptors in the table that name the file, those of calls in progress apart. -/
def tabled (s : Table) (f : FileIx) : ℕ :=
  ∑ j, if s.held j then 0 else entries (s.proc j).ofile f

def endFiles (s : Table) (p : ℕ) (w : Bool) : ℕ :=
  ∑ f, if (s.file f).type = .FD_PIPE p w then 1 else 0

structure FileInv (s : Table) (R : Tokens) : Prop where
  refs : ∀ f, (s.file f).ref = R.count (.ref f) + R.count (.new f) + tabled s f
  closed : ∀ f, (s.file f).ref = 0 → (s.file f).type = .FD_NONE
  fresh : ∀ f, .new f ∈ R → (s.file f).ref = 1 ∧ (s.file f).type = .FD_NONE
  ends : ∀ p w, endFiles s p w + R.count (.shut p w) =
    if p < s.npipe ∧ (s.pipe p).isOpen w = true then 1 else 0
  freed : ∀ p, (s.pipe p).freed + R.count (.page p) =
    if p < s.npipe ∧ (s.pipe p).readopen = false ∧ (s.pipe p).writeopen = false then 1 else 0

/-- One slot, with the number of tokens of each kind for it. -/
structure SlotInv (x : Proc) (h m : Bool) (n : ℕ) (e : Bool → ℕ) : Prop where
  self : n = if x.state = .RUNNABLE ∧ h = true then 1 else 0
  embryo : ∀ b, e b = if x.state = .EMBRYO ∧ m = b then 1 else 0
  held : x.state = .EMBRYO → h = true
  idle : x.state = .UNUSED ∨ x.state = .ZOMBIE → h = false ∧ x.ofile = fun _ => none
  mapped : x.state = .RUNNABLE ∨ x.state = .ZOMBIE → m = true
  unmapped : x.state = .UNUSED → m = false
  parent : x.parent ≠ none → x.state = .RUNNABLE ∨ x.state = .ZOMBIE

structure ProcInv (s : Table) (R : Tokens) : Prop where
  slot : ∀ j, SlotInv (s.proc j) (s.held j) (s.mapped j) (R.count (.self j))
    fun b => R.count (.embryo j b)
  dirs : ∀ j k, s.mapped j = true → s.mapped k = true → (s.proc j).pgdir = (s.proc k).pgdir → j = k

structure Inv (s : Table) (R : Tokens) : Prop where
  file : FileInv s R
  proc : ProcInv s R

section
variable {s : Table} {R : Tokens} {f : FileIx}

theorem endFiles_setFile (s : Table) (f : FileIx) (x : File) (p : ℕ) (w : Bool) :
    endFiles (s.setFile f x) p w + (if (s.file f).type = .FD_PIPE p w then 1 else 0) =
      endFiles s p w + if x.type = .FD_PIPE p w then 1 else 0 := by
  have h := sum_change (fun g => if (s.file g).type = .FD_PIPE p w then 1 else 0)
    (fun g => if ((s.setFile f x).file g).type = .FD_PIPE p w then 1 else 0) f
    (fun g hg => by simp only [Table.setFile, update_of_ne hg])
  simp only [Table.setFile, update_self] at h
  exact h

theorem tabled_setProc (s : Table) (i : Slot) (x : Proc) (b : Bool) (f : FileIx) :
    tabled (s.setProc i x b) f + (if s.held i then 0 else entries (s.proc i).ofile f) =
      tabled s f + if b then 0 else entries x.ofile f := by
  have h := sum_change (fun j => if s.held j then 0 else entries (s.proc j).ofile f)
    (fun j => if (s.setProc i x b).held j then 0
      else entries ((s.setProc i x b).proc j).ofile f) i
    (fun j hj => by simp only [Table.setProc, update_of_ne hj])
  simp only [Table.setProc, update_self] at h
  exact h

theorem setFile_self (s : Table) (f : FileIx) (x : File) : (s.setFile f x).file f = x :=
  update_self ..

theorem setFile_of_ne {g : FileIx} (h : g ≠ f) (s : Table) (x : File) :
    (s.setFile f x).file g = s.file g := update_of_ne h ..

/-- A change of one file: its count follows the tokens, and the ends of pipes follow its type. -/
theorem FileInv.setFile {x : File} {R' : Tokens} (h : FileInv s R)
    (href : x.ref + R.count (.ref f) + R.count (.new f) = (s.file f).ref + R'.count
      (.ref f) + R'.count (.new f))
    (hothers : ∀ g ≠ f, R'.count (.ref g) = R.count (.ref g) ∧ R'.count (.new g) = R.count (.new g))
    (hclosed : x.ref = 0 → x.type = .FD_NONE) (hfresh : .new f ∈ R' → x.ref = 1 ∧ x.type = .FD_NONE)
    (hends : ∀ p w, (if x.type = .FD_PIPE p w then 1 else 0) + R'.count (.shut p w) =
      (if (s.file f).type = .FD_PIPE p w then 1 else 0) + R.count (.shut p w))
    (hpage : ∀ p, R'.count (.page p) = R.count (.page p)) : FileInv (s.setFile f x) R' where
  refs g := by
    have hg := h.refs g
    rw [show tabled (s.setFile f x) g = tabled s g from rfl]
    by_cases hgf : g = f
    · subst hgf
      rw [setFile_self]
      omega
    · obtain ⟨h₁, h₂⟩ := hothers g hgf
      rw [setFile_of_ne hgf]
      omega
  closed g hg := by
    by_cases hgf : g = f
    · subst hgf
      rw [setFile_self] at hg ⊢
      exact hclosed hg
    · rw [setFile_of_ne hgf] at hg ⊢
      exact h.closed g hg
  fresh g hg := by
    by_cases hgf : g = f
    · subst hgf
      rw [setFile_self]
      exact hfresh hg
    · rw [setFile_of_ne hgf]
      rw [← count_pos, (hothers g hgf).2, count_pos] at hg
      exact h.fresh g hg
  ends p w := by
    have hsum := endFiles_setFile s f x p w
    have hold := h.ends p w
    have hnew := hends p w
    change _ = if p < s.npipe ∧ (s.pipe p).isOpen w = true then 1 else 0
    omega
  freed p := by
    rw [hpage]
    exact h.freed p

theorem ProcInv.of_tokens {t : Table} {R' : Tokens} (h : ProcInv s R) (hproc : t.proc = s.proc)
    (hheld : t.held = s.held) (hmapped : t.mapped = s.mapped)
    (hself : ∀ j, R'.count (.self j) = R.count (.self j))
    (hembryo : ∀ j b, R'.count (.embryo j b) = R.count (.embryo j b)) : ProcInv t R' := by
  constructor
  · simpa only [hproc, hheld, hmapped, hself, hembryo] using h.slot
  · simpa only [hproc, hmapped] using h.dirs

theorem Inv.filealloc (h : Inv s R) (hf : (s.file f).ref = 0) :
    Inv (s.setFile f { s.file f with ref := 1 }) ({.new f} + R) where
  file := by
    have hrefs := h.file.refs f
    refine h.file.setFile ?_ (fun g hg => ?_) (fun h0 => absurd h0 one_ne_zero)
      (fun _ => ⟨rfl, h.file.closed f hf⟩) (by simp) (by simp)
    · simp
      omega
    · simp [hg]
  proc := h.proc.of_tokens rfl rfl rfl (by simp) (by simp)

theorem Inv.ref_pos (h : Inv s ({.ref f} + R)) : 1 ≤ (s.file f).ref := by
  have hrefs := h.file.refs f
  simp only [count_add, count_singleton_self] at hrefs
  omega

theorem Inv.filedup (h : Inv s ({.ref f} + R)) :
    Inv (s.setFile f { s.file f with ref := (s.file f).ref + 1 }) ({.ref f} + {.ref f} + R) where
  file := by
    have hpos := h.ref_pos
    have hrefs := h.file.refs f
    refine h.file.setFile ?_ (fun g hg => ?_) (fun h0 => absurd h0 (Nat.succ_ne_zero _))
      (fun hnew => ?_) (by simp) (by simp)
    · simp
      omega
    · simp [hg]
    · -- a file that is new has no other reference
      have hR : .new f ∈ R := by simpa using hnew
      have hone := (h.file.fresh f (by simp [hR])).1
      have hcount := count_pos.mpr hR
      simp at hrefs
      omega
  proc := h.proc.of_tokens rfl rfl rfl (by simp) (by simp)

/-- What is left to do for a file that was the last one of its kind. -/
def dropped : FileType → Tokens
  | .FD_PIPE p w => {.shut p w}
  | _ => 0

theorem count_shut_dropped (type : FileType) (p : ℕ) (w : Bool) :
    (dropped type).count (.shut p w) = if type = .FD_PIPE p w then 1 else 0 := by
  cases type <;> simp [dropped, count_singleton, eq_comm]

theorem count_dropped {c : Token} (hc : ∀ p w, Token.shut p w ≠ c) (type : FileType) :
    (dropped type).count c = 0 := by
  cases type with
  | FD_PIPE p w => simpa [dropped, count_singleton] using fun h => hc p w h.symm
  | FD_NONE => rfl
  | FD_INODE => rfl

theorem Inv.close_shared (h : Inv s ({.ref f} + R)) (hshared : 0 < (s.file f).ref - 1) :
    Inv (s.setFile f { s.file f with ref := (s.file f).ref - 1 }) R where
  file := by
    have hrefs := h.file.refs f
    refine h.file.setFile ?_ (fun g hg => ?_) (fun h0 => ?_) (fun hnew => ?_) (by simp) (by simp)
    · simp
      omega
    · simp [hg]
    · change (s.file f).ref - 1 = 0 at h0
      omega
    · have hone := (h.file.fresh f (by simp [hnew])).1
      omega
  proc := h.proc.of_tokens rfl rfl rfl (by simp) (by simp)

/-- The last reference is dropped; `c` is the reference that the caller gives up. -/
theorem Inv.close_last {c : Token} (hc : c = .ref f ∨ c = .new f) (h : Inv s ({c} + R))
    (hlast : (s.file f).ref = 1) :
    Inv (s.setFile f ⟨0, .FD_NONE⟩) (dropped (s.file f).type + R) where
  file := by
    have hrefs := h.file.refs f
    have hzero : R.count (.ref f) = 0 ∧ R.count (.new f) = 0 := by
      rcases hc with rfl | rfl <;> simp at hrefs <;> omega
    have hd : ∀ c, (∀ p w, Token.shut p w ≠ c) → (dropped (s.file f).type + R).count c =
        R.count c :=
      fun c hc => by rw [count_add, count_dropped hc, zero_add]
    refine h.file.setFile ?_ (fun g hg => ?_) (fun _ => rfl) (fun hnew => ?_) (fun p w => ?_)
      (fun p => ?_)
    · rw [hd _ (by simp), hd _ (by simp), hzero.1, hzero.2]
      rcases hc with rfl | rfl <;> simp [hzero] <;> omega
    · rw [hd _ (by simp), hd _ (by simp)]
      rcases hc with rfl | rfl <;> simp [hg]
    · have hpos := count_pos.mpr hnew
      rw [hd _ (by simp)] at hpos
      omega
    · rw [count_add, count_shut_dropped]
      rcases hc with rfl | rfl <;> simp
    · rw [hd _ (by simp)]
      rcases hc with rfl | rfl <;> simp
  proc := by
    refine h.proc.of_tokens rfl rfl rfl (fun j => ?_) (fun j b => ?_) <;>
      rw [count_add, count_dropped (by simp)] <;>
      rcases hc with rfl | rfl <;> simp

theorem Inv.setType (type : FileType) (h : Inv s ({.new f} + dropped type + R)) :
    Inv (s.setFile f { s.file f with type := type }) ({.ref f} + R) where
  file := by
    have hrefs := h.file.refs f
    obtain ⟨hone, hnone⟩ := h.file.fresh f (by simp)
    have hzero : R.count (.ref f) = 0 ∧ R.count (.new f) = 0 := by
      simp [count_dropped] at hrefs
      omega
    refine h.file.setFile ?_ (fun g hg => ?_) (fun h0 => ?_) (fun hnew => ?_) (fun p w => ?_)
      (fun p => ?_)
    · simp [count_dropped, hzero]
    · simp [count_dropped, hg]
    · rw [show (s.file f).ref = 0 from h0] at hone
      cases hone
    · have hpos := count_pos.mpr hnew
      simp [hzero] at hpos
    · simp [count_shut_dropped, hnone]
    · simp [count_dropped]
  proc := h.proc.of_tokens rfl rfl rfl (by simp [count_dropped]) (by simp [count_dropped])

theorem Inv.new_one (h : Inv s ({.new f} + R)) : (s.file f).ref = 1 ∧ (s.file f).type = .FD_NONE :=
  h.file.fresh f (by simp)

theorem FileInv.setPipe {p n : ℕ} {x : Pipe} {R' : Tokens} (h : FileInv s R)
    (hpn : p < n) (hsn : ∀ q ≠ p, (q < n ↔ q < s.npipe))
    (hkeep : ∀ f, R'.count (.ref f) = R.count (.ref f) ∧ R'.count (.new f) = R.count (.new f))
    (hothers : ∀ q ≠ p, (∀ w, R'.count (.shut q w) = R.count (.shut q w)) ∧
      R'.count (.page q) = R.count (.page q))
    (hends : ∀ w, endFiles s p w + R'.count (.shut p w) = if x.isOpen w = true then 1 else 0)
    (hfreed : x.freed + R'.count (.page p) = if x.readopen = false ∧
      x.writeopen = false then 1 else 0) :
    FileInv { s.setPipe p x with npipe := n } R' where
  refs f := by
    rw [(hkeep f).1, (hkeep f).2]
    exact h.refs f
  closed := h.closed
  fresh f hf := by
    rw [← count_pos, (hkeep f).2, count_pos] at hf
    exact h.fresh f hf
  ends q w := by
    change endFiles s q w + _ = if q < n ∧ (update s.pipe p x q).isOpen w = true then 1 else 0
    by_cases hq : q = p
    · rw [hq, update_self, hends]
      simp only [hpn, true_and]
    · rw [update_of_ne hq, (hothers q hq).1, h.ends]
      simp only [hsn q hq]
  freed q := by
    change (update s.pipe p x q).freed + _ = if q < n ∧
      (update s.pipe p x q).readopen = false ∧
      (update s.pipe p x q).writeopen = false then 1 else 0
    by_cases hq : q = p
    · rw [hq, update_self, hfreed]
      simp only [hpn, true_and]
    · rw [update_of_ne hq, (hothers q hq).2, h.freed]
      simp only [hsn q hq]

theorem Inv.newPipe (h : Inv s R) :
    Inv { s.setPipe s.npipe ⟨true, true, 0⟩ with npipe := s.npipe + 1 }
      ({.shut s.npipe false} + {.shut s.npipe true} + R) where
  file := by
    have hends : ∀ w, endFiles s s.npipe w + R.count (.shut s.npipe w) = 0 := fun w => by
      simpa using h.file.ends s.npipe w
    have hpage : R.count (.page s.npipe) = 0 := by
      have := h.file.freed s.npipe
      simp at this
      simpa using this.2
    refine h.file.setPipe (Nat.lt_succ_self _) (fun q hq => ?_) (fun f => by simp)
      (fun q hq => ⟨fun w => ?_, by simp⟩) (fun w => ?_) ?_
    · omega
    · simp [hq]
    · have := hends w
      cases w <;> simp [Pipe.isOpen] at this ⊢ <;> simp [this]
    · simpa using hpage
  proc := h.proc.of_tokens rfl rfl rfl (by simp) (by simp)

theorem Pipe.isOpen_shut (x : Pipe) (w w' : Bool) :
    (x.shut w).isOpen w' = if w' = w then false else x.isOpen w' := by
  cases w <;> cases w' <;> rfl

theorem Pipe.freed_shut (x : Pipe) (w : Bool) : (x.shut w).freed = x.freed := by
  cases w <;> rfl

theorem Pipe.both_closed (x : Pipe) :
    x.readopen = false ∧ x.writeopen = false ↔ ∀ w, x.isOpen w = false := by
  simp [Pipe.isOpen]

theorem Inv.pipeclose {p : ℕ} {w : Bool} (h : Inv s ({.shut p w} + R)) :
    Inv (s.setPipe p ((s.pipe p).shut w)) ((if ((s.pipe p).shut w).readopen = false ∧
      ((s.pipe p).shut w).writeopen = false then {.page p} else 0) + R) where
  file := by
    have hends := fun w => h.file.ends p w
    have hfreed := h.file.freed p
    have hopen : p < s.npipe ∧ (s.pipe p).isOpen w = true := by
      by_contra hno
      have := hends w
      rw [if_neg hno] at this
      simp at this
    refine h.file.setPipe hopen.1 (fun q _ => Iff.rfl) (fun f => ?_)
      (fun q hq => ⟨fun w' => ?_, ?_⟩)
      (fun w' => ?_) ?_
    · split_ifs <;> simp
    · split_ifs <;> simp [hq]
    · split_ifs <;> simp [hq]
    · have hw := hends w'
      rw [Pipe.isOpen_shut]
      have hpage : ∀ q : Prop, [Decidable q] →
          ((if q then {.page p} else 0 : Tokens)).count (.shut p w') = 0 := fun q _ => by
        split_ifs <;> simp
      rw [count_add, hpage, zero_add]
      by_cases hww : w' = w
      · subst hww
        rw [if_pos hopen, count_add, count_singleton_self] at hw
        simp only [if_true, Bool.false_eq_true, if_false]
        omega
      · simpa [hopen.1, count_singleton, hww] using hw
    · have hnot : ¬(p < s.npipe ∧ (s.pipe p).readopen = false ∧ (s.pipe p).writeopen = false) := by
        rw [Pipe.both_closed]
        intro hall
        rw [hall.2 w] at hopen
        cases hopen.2
      rw [if_neg hnot] at hfreed
      simp at hfreed
      rw [Pipe.freed_shut, hfreed.1]
      split_ifs <;> simp [hfreed.2]
  proc := by
    refine h.proc.of_tokens rfl rfl rfl (fun j => ?_) (fun j b => ?_) <;> split_ifs <;> simp

theorem Inv.kfree {p : ℕ} (h : Inv s ({.page p} + R)) :
    Inv (s.setPipe p { s.pipe p with freed := (s.pipe p).freed + 1 }) R where
  file := by
    have hends := fun w => h.file.ends p w
    have hfreed := h.file.freed p
    have hboth : p < s.npipe ∧ (s.pipe p).readopen = false ∧ (s.pipe p).writeopen = false := by
      by_contra hno
      rw [if_neg hno] at hfreed
      simp at hfreed
    refine h.file.setPipe hboth.1 (fun q _ => Iff.rfl) (fun f => by simp) (fun q hq => ?_)
      (fun w => ?_) ?_
    · simp [hq]
    · change _ = if (s.pipe p).isOpen w = true then 1 else 0
      simpa [hboth.1] using hends w
    · rw [if_pos hboth] at hfreed
      simp at hfreed
      simp [hboth]
      omega
  proc := h.proc.of_tokens rfl rfl rfl (by simp) (by simp)

theorem FileInv.of_tabled {t : Table} {R' : Tokens} (h : FileInv s R) (hfile : t.file = s.file)
    (hpipe : t.pipe = s.pipe) (hnpipe : t.npipe = s.npipe)
    (hrefs : ∀ f, R'.count (.ref f) + tabled t f = R.count (.ref f) + tabled s f)
    (hnew : ∀ f, R'.count (.new f) = R.count (.new f))
    (hshut : ∀ p w, R'.count (.shut p w) = R.count (.shut p w))
    (hpage : ∀ p, R'.count (.page p) = R.count (.page p)) : FileInv t R' where
  refs f := by
    have hf := h.refs f
    have hr := hrefs f
    rw [hfile, hnew]
    omega
  closed := by
    rw [hfile]
    exact h.closed
  fresh f hf := by
    rw [← count_pos, hnew, count_pos] at hf
    rw [hfile]
    exact h.fresh f hf
  ends p w := by
    have hends := h.ends p w
    rw [hshut, hpipe, hnpipe, ← hends, endFiles, endFiles, hfile]
  freed p := by
    rw [hpage, hpipe, hnpipe]
    exact h.freed p

variable {i : Slot}

/-- One slot changes, and its directory is one that nobody else has. -/
theorem ProcInv.set {x : Proc} {b m : Bool} {R' : Tokens} (h : ProcInv s R)
    (hi : SlotInv x b m (R'.count (.self i)) fun b => R'.count (.embryo i b))
    (hself : ∀ j ≠ i, R'.count (.self j) = R.count (.self j))
    (hembryo : ∀ j b, j ≠ i → R'.count (.embryo j b) = R.count (.embryo j b))
    (hdir : m = true → ∀ j ≠ i, s.mapped j = true → (s.proc j).pgdir ≠ x.pgdir) :
    ProcInv { s.setProc i x b with mapped := update s.mapped i m } R' where
  slot j := by
    change SlotInv (update s.proc i x j) (update s.held i b j)
      (update s.mapped i m j) _ _
    by_cases hj : j = i
    · subst hj
      simpa only [update_self] using hi
    · simpa only [update_of_ne hj, hself j hj, hembryo j _ hj] using h.slot j
  dirs j k hj hk hjk := by
    change update s.mapped i m j = true at hj
    change update s.mapped i m k = true at hk
    change (update s.proc i x j).pgdir = (update s.proc i x k).pgdir at hjk
    by_cases hji : j = i <;> by_cases hki : k = i
    · rw [hji, hki]
    · subst hji
      simp only [update_self, update_of_ne hki] at hj hk hjk
      exact absurd hjk.symm (hdir hj k hki hk)
    · subst hki
      simp only [update_self, update_of_ne hji] at hj hk hjk
      exact absurd hjk (hdir hk j hji hj)
    · simp only [update_of_ne hji, update_of_ne hki] at hj hk hjk
      exact h.dirs j k hj hk hjk

theorem ProcInv.setProc {x : Proc} {b : Bool} {R' : Tokens} (h : ProcInv s R)
    (hi : SlotInv x b (s.mapped i) (R'.count (.self i)) fun b => R'.count (.embryo i b))
    (hself : ∀ j ≠ i, R'.count (.self j) = R.count (.self j))
    (hembryo : ∀ j b, j ≠ i → R'.count (.embryo j b) = R.count (.embryo j b))
    (hpgdir : x.pgdir = (s.proc i).pgdir) : ProcInv (s.setProc i x b) R' := by
  have hset := h.set hi hself hembryo fun hm j hj hmj heq =>
    hj (h.dirs j i hmj hm (heq.trans hpgdir))
  rwa [update_eq_self] at hset

theorem Inv.enter (h : Inv s R) (hrun : (s.proc i).state = .RUNNABLE) (hheld : s.held i = false) :
    Inv (s.setProc i (s.proc i) true) ({.self i} + owned (s.proc i).ofile + R) where
  file := by
    refine h.file.of_tabled rfl rfl rfl (fun f => ?_) (by simp) (by simp) (by simp)
    have ht := tabled_setProc s i (s.proc i) true f
    simp [hheld] at ht ⊢
    omega
  proc := by
    have hslot := h.proc.slot i
    have hself := hslot.self
    have hembryo := hslot.embryo
    simp only [hrun, hheld] at hself hembryo
    refine h.proc.setProc ?_ (fun j hj => by simp [hj]) (by simp) rfl
    constructor <;> simp_all [hslot.mapped]

theorem Inv.running (h : Inv s ({.self i} + R)) :
    (s.proc i).state = .RUNNABLE ∧ s.held i = true ∧ R.count (.self i) = 0 := by
  have hself := (h.proc.slot i).self
  rw [count_add, count_singleton_self] at hself
  split_ifs at hself with hrun
  · exact ⟨hrun.1, hrun.2, by omega⟩
  · omega

theorem Inv.leave {ofile : Ofile} (h : Inv s ({.self i} + owned ofile + R)) :
    Inv (s.setProc i { s.proc i with ofile := ofile } false) R := by
  obtain ⟨hrun, hheld, hzero⟩ := Inv.running (by rwa [add_assoc] at h)
  constructor
  · refine h.file.of_tabled rfl rfl rfl (fun f => ?_) (by simp) (by simp) (by simp)
    have ht := tabled_setProc s i { s.proc i with ofile := ofile } false f
    simp [hheld] at ht ⊢
    omega
  · have hslot := h.proc.slot i
    have hembryo := hslot.embryo
    refine h.proc.setProc ?_ (fun j hj => by simp [hj]) (by simp) rfl
    constructor <;> simp_all [hslot.mapped]

theorem Inv.allocproc (h : Inv s R) (hunused : (s.proc i).state = .UNUSED) :
    (s.proc i).ofile = (fun _ => none) ∧
      Inv (s.setProc i { s.proc i with state := .EMBRYO } true) ({.embryo i false} + R) := by
  have hslot := h.proc.slot i
  obtain ⟨hheld, hofile⟩ := hslot.idle (Or.inl hunused)
  refine ⟨hofile, ?_, ?_⟩
  · refine h.file.of_tabled rfl rfl rfl (fun f => ?_) (by simp) (by simp) (by simp)
    have ht := tabled_setProc s i { s.proc i with state := .EMBRYO } true f
    simp [hheld, hofile, entries] at ht ⊢
    omega
  · have hself := hslot.self
    have hembryo := hslot.embryo
    have hmapped := hslot.unmapped hunused
    have hparent := hslot.parent
    have htoken : ∀ b, ({.embryo i false} + R : Tokens).count (.embryo i b) =
        if false = b then 1 else 0 := fun b => by
      cases b <;> simp [hembryo, hunused]
    refine h.proc.setProc ?_ (by simp) (fun j b hj => by simp [hj]) rfl
    constructor <;> simp_all

theorem Inv.embryo_state {b : Bool} (h : Inv s ({.embryo i b} + R)) :
    (s.proc i).state = .EMBRYO ∧ s.held i = true ∧ s.mapped i = b ∧
      ∀ c, R.count (.embryo i c) = 0 := by
  have hslot := h.proc.slot i
  have hb := hslot.embryo b
  rw [count_add, count_singleton_self] at hb
  split_ifs at hb with hstate
  · refine ⟨hstate.1, hslot.held hstate.1, hstate.2, fun c => ?_⟩
    have hc := hslot.embryo c
    rw [count_add] at hc
    by_cases hbc : b = c
    · subst hbc
      omega
    · rw [if_neg fun hm => hbc (hstate.2.symm.trans hm.2)] at hc
      omega
  · omega

theorem Inv.unused (h : Inv s ({.embryo i false} + R)) :
    Inv (s.setProc i { s.proc i with state := .UNUSED, ofile := fun _ => none } false) R := by
  obtain ⟨hstate, hheld, hmapped, hzero⟩ := h.embryo_state
  constructor
  · refine h.file.of_tabled rfl rfl rfl (fun f => ?_) (by simp) (by simp) (by simp)
    have ht := tabled_setProc s i { s.proc i with state := .UNUSED, ofile := fun _ => none } false f
    simp [hheld, entries] at ht ⊢
    omega
  · have hslot := h.proc.slot i
    have hself := hslot.self
    have hparent := hslot.parent
    refine h.proc.setProc ?_ (by simp) (fun j b hj => by simp [hj]) rfl
    constructor <;> simp_all

theorem Inv.copyuvm {g : ℕ} (h : Inv s ({.embryo i false} + R))
    (hfree : ¬∃ q, s.mapped q ∧ (s.proc q).pgdir = g) :
    Inv { s.setProc i { s.proc i with pgdir := g } (s.held i) with
      mapped := update s.mapped i true } ({.embryo i true} + R) := by
  obtain ⟨hstate, hheld, hmapped, hzero⟩ := h.embryo_state
  constructor
  · refine h.file.of_tabled rfl rfl rfl (fun f => ?_) (by simp) (by simp) (by simp)
    have ht := tabled_setProc s i { s.proc i with pgdir := g } (s.held i) f
    simp [hheld] at ht ⊢
    exact ht
  · have hslot := h.proc.slot i
    have hself := hslot.self
    have hparent := hslot.parent
    have htoken : ∀ b, ({.embryo i true} + R : Tokens).count (.embryo i b) =
        if true = b then 1 else 0 := fun b => by
      cases b <;> simp [hzero]
    refine h.proc.set ?_ (by simp) (fun j b hj => by simp [hj])
      (fun _ j _ hj hg => hfree ⟨j, hj, hg⟩)
    constructor <;> simp_all

theorem Inv.runnable {ofile : Ofile} {parent : Slot} (h : Inv s
    ({.embryo i true} + owned ofile + R)) :
    Inv (s.setProc i { s.proc i with
      state := .RUNNABLE, parent := some parent, ofile := ofile } false)
      R := by
  obtain ⟨hstate, hheld, hmapped, hzero⟩ := Inv.embryo_state (by rwa [add_assoc] at h)
  constructor
  · refine h.file.of_tabled rfl rfl rfl (fun f => ?_) (by simp) (by simp) (by simp)
    have ht := tabled_setProc s i
      { s.proc i with state := .RUNNABLE, parent := some parent, ofile := ofile } false f
    simp [hheld] at ht ⊢
    omega
  · have hslot := h.proc.slot i
    have hself := hslot.self
    refine h.proc.setProc ?_ (by simp) (fun j b hj => by simp [hj]) rfl
    constructor <;> simp_all

/-- The table with the children of `i` passed to init. -/
def adopted (s : Table) (i : Slot) : Table :=
  { s with proc := fun j => { s.proc j with
      parent := if (s.proc j).parent = some i then some initproc else (s.proc j).parent } }

theorem Inv.adopted (h : Inv s R) (i : Slot) : Inv (adopted s i) R where
  file := h.file.of_tabled rfl rfl rfl (fun _ => rfl) (fun _ => rfl) (fun _ _ => rfl) fun _ => rfl
  proc := by
    refine ⟨fun j => ?_, h.proc.dirs⟩
    obtain ⟨h₁, h₂, h₃, h₄, h₅, h₆, h₇⟩ := h.proc.slot j
    refine ⟨h₁, h₂, h₃, h₄, h₅, h₆, fun hparent => h₇ fun hnone => hparent ?_⟩
    change (if (s.proc j).parent = some i then _ else (s.proc j).parent) = none
    rw [hnone]
    rfl

/-- No child has the directory of the process, so none is taken for a thread. -/
theorem Inv.orphan_eq (h : Inv s R) (hrun : (s.proc i).state = .RUNNABLE) {j : Slot} (hj : j ≠ i) :
    s.orphan i (s.proc j) = (OpenFiles.adopted s i).proc j := by
  unfold Table.orphan OpenFiles.adopted
  by_cases hparent : (s.proc j).parent = some i
  · have hstate := (h.proc.slot j).parent (by rw [hparent]; exact Option.some_ne_none i)
    have hdir : (s.proc j).pgdir ≠ (s.proc i).pgdir := fun heq =>
      hj (h.proc.dirs j i ((h.proc.slot j).mapped hstate)
        ((h.proc.slot i).mapped (Or.inl hrun)) heq)
    simp only [hparent, if_true, if_pos hdir]
  · simp only [if_neg hparent]

theorem Inv.zombie (h : Inv s ({.self i} + R)) :
    Inv (Table.setProc { s with proc := fun p => s.orphan i (s.proc p) } i
      { s.orphan i (s.proc i) with state := .ZOMBIE, ofile := fun _ => none } false) R := by
  obtain ⟨hrun, hheld, hzero⟩ := h.running
  have hpgdir : (s.orphan i (s.proc i)).pgdir = (s.proc i).pgdir := by
    unfold Table.orphan
    split_ifs <;> rfl
  have heq : Table.setProc { s with proc := fun p => s.orphan i (s.proc p) } i
      { s.orphan i (s.proc i) with state := .ZOMBIE, ofile := fun _ => none } false =
      (OpenFiles.adopted s i).setProc i
        { s.orphan i (s.proc i) with state := .ZOMBIE, ofile := fun _ => none } false := by
    have hproc : update (fun p => s.orphan i (s.proc p)) i
        { s.orphan i (s.proc i) with state := .ZOMBIE, ofile := fun _ => none } =
        update (OpenFiles.adopted s i).proc i
          { s.orphan i (s.proc i) with state := .ZOMBIE, ofile := fun _ => none } := by
      funext j
      by_cases hj : j = i
      · rw [hj, update_self, update_self]
      · rw [update_of_ne hj, update_of_ne hj, h.orphan_eq hrun hj]
    unfold Table.setProc
    rw [hproc]
    rfl
  rw [heq]
  have ha := h.adopted i
  constructor
  · refine ha.file.of_tabled rfl rfl rfl (fun f => ?_) (by simp) (by simp) (by simp)
    have ht := tabled_setProc (OpenFiles.adopted s i) i
      { s.orphan i (s.proc i) with state := .ZOMBIE, ofile := fun _ => none } false f
    simp [show (OpenFiles.adopted s i).held i = true from hheld, entries] at ht ⊢
    exact ht
  · have hslot := h.proc.slot i
    have hembryo := hslot.embryo
    have hmapped : (OpenFiles.adopted s i).mapped i = true := hslot.mapped (Or.inl hrun)
    refine ha.proc.setProc ?_ (fun j hj => by simp [hj]) (by simp) hpgdir
    constructor <;> simp_all

theorem Inv.reap (h : Inv s R) (hzombie : (s.proc i).state = .ZOMBIE) :
    Inv { s.setProc i { s.proc i with state := .UNUSED, parent := none } (s.held i) with
      mapped := update s.mapped i false } R := by
  have hslot := h.proc.slot i
  obtain ⟨hheld, hofile⟩ := hslot.idle (Or.inr hzombie)
  constructor
  · refine h.file.of_tabled rfl rfl rfl (fun f => ?_) (by simp) (by simp) (by simp)
    have ht := tabled_setProc s i { s.proc i with state := .UNUSED, parent := none } (s.held i) f
    simp at ht ⊢
    exact ht
  · have hself := hslot.self
    have hembryo := hslot.embryo
    refine h.proc.set ?_ (by simp) (by simp) (fun hm => absurd hm Bool.false_ne_true)
    constructor <;> simp_all

end

end Xv6Threads.OpenFiles
