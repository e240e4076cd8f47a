import Mathlib.Data.List.FinRange
import Xv6Threads.Param

namespace Xv6Threads.Icache

open Function

variable {β : Type}

/-- An entry of the cache, a `struct inode *`. -/
abbrev Ix := Fin NINODE

abbrev Key := ℕ × ℕ

/-- What `memset` and `itrunc` do to the fields other than `type` and `nlink`. -/
class Rest (β : Type) where
  zero : β
  trunc : β → β

/-- `struct dinode`; `rest` are the fields that the cache does not look at. -/
@[ext] structure Dinode (β : Type) where
  type : ℕ
  nlink : ℕ
  rest : β

/-- `struct inode`, with the two flags. -/
structure Inode (β : Type) where
  dev : ℕ
  inum : ℕ
  ref : ℤ
  busy : Bool
  valid : Bool
  d : Dinode β

def Inode.key (ip : Inode β) : Key := (ip.dev, ip.inum)

structure Store (β : Type) where
  inode : Ix → Inode β
  disk : Key → Dinode β

namespace Store

def put (s : Store β) (e : Ix) (ip : Inode β) : Store β :=
  { s with inode := update s.inode e ip }

def write (s : Store β) (k : Key) (d : Dinode β) : Store β :=
  { s with disk := update s.disk k d }

/-- `none` if there is neither the inode nor an empty entry. -/
def iget (s : Store β) (k : Key) : Option (Ix × Store β) :=
  match (List.finRange NINODE).find? fun e => 0 < (s.inode e).ref ∧ (s.inode e).key = k with
  | some e => some (e, s.put e { s.inode e with ref := (s.inode e).ref + 1 })
  | none => ((List.finRange NINODE).find? fun e => (s.inode e).ref = 0).map fun e =>
    (e, s.put e { s.inode e with
      dev := k.1, inum := k.2, ref := 1, busy := false, valid := false })

def idup (s : Store β) (e : Ix) : Store β :=
  s.put e { s.inode e with ref := (s.inode e).ref + 1 }

/-- `ip->flags |= I_BUSY`. -/
def lock (s : Store β) (e : Ix) : Store β := s.put e { s.inode e with busy := true }

/-- The second half of `ilock`. -/
def load (s : Store β) (e : Ix) : Store β :=
  if (s.inode e).valid then s
  else s.put e { s.inode e with d := s.disk (s.inode e).key, valid := true }

def unlock (s : Store β) (e : Ix) : Store β := s.put e { s.inode e with busy := false }

def iupdate (s : Store β) (e : Ix) : Store β := s.write (s.inode e).key (s.inode e).d

/-- The fields of a locked inode that its holder changes; `type` is not among them. -/
def change (s : Store β) (e : Ix) (nlink : ℕ) (rest : β) : Store β :=
  s.put e { s.inode e with d := ⟨(s.inode e).d.type, nlink, rest⟩ }

/-- The condition of `iput`. -/
def unused (s : Store β) (e : Ix) : Bool :=
  (s.inode e).ref = 1 && (s.inode e).valid && (s.inode e).d.nlink = 0

/-- `ip->ref--`. -/
def drop (s : Store β) (e : Ix) : Store β :=
  s.put e { s.inode e with ref := (s.inode e).ref - 1 }

/-- `ip->type = 0`. -/
def clearType (s : Store β) (e : Ix) : Store β :=
  s.put e { s.inode e with d := { (s.inode e).d with type := 0 } }

/-- The end of `iput` for an inode that has been freed: `ip->flags = 0` and `ip->ref--`. -/
def release (s : Store β) (e : Ix) : Store β :=
  s.put e { s.inode e with busy := false, valid := false, ref := (s.inode e).ref - 1 }

variable [Rest β]

/-- The part of `itrunc` before its `iupdate`. -/
def itrunc (s : Store β) (e : Ix) : Store β :=
  s.put e { s.inode e with d := { (s.inode e).d with rest := Rest.trunc (s.inode e).d.rest } }

def alloc (s : Store β) (k : Key) (type : ℕ) : Store β := s.write k ⟨type, 0, Rest.zero⟩

end Store

/-- How far the process is that has set `I_BUSY`. -/
inductive Stage
  | unlocked
  /-- `I_BUSY` is set and the dinode not yet read -/
  | busy
  /-- `dirty`: changed since the last `iupdate` -/
  | locked (dirty : Bool)
  /-- in `iput`, before `ip->type = 0` -/
  | freeing
  /-- in `iput`, between `ip->type = 0` and `iupdate` -/
  | cleared
  /-- the copy has type 0 and says nothing about the disk -/
  | void
  deriving DecidableEq

def Stage.ending : Stage → Bool
  | .freeing | .cleared => true
  | _ => false

def Stage.flushed : Stage → Stage
  | .locked _ => .locked false
  | .cleared => .void
  | g => g

def Agree (d : Dinode β) (ip : Inode β) : Stage → Prop
  | .unlocked | .busy => ip.valid = true → d = ip.d ∧ ip.d.type ≠ 0
  | .locked dirty =>
    ip.valid = true ∧ ip.d.type ≠ 0 ∧ d.type = ip.d.type ∧ (dirty = false → d = ip.d)
  | .freeing => ip.valid = true ∧ d.type ≠ 0 ∧ ip.d.type ≠ 0
  | .cleared => ip.valid = true ∧ d.type ≠ 0 ∧ ip.d.type = 0
  | .void => ip.d.type = 0

structure Base (s : Store β) (refs : Ix → ℕ) (stage : Ix → Stage) : Prop where
  ref : ∀ e, (s.inode e).ref = refs e
  busy : ∀ e, (s.inode e).busy = true ↔ stage e ≠ .unlocked
  counted : ∀ e, stage e ≠ .unlocked → 0 < refs e
  uniq : ∀ e e', 0 < refs e → 0 < refs e' → (s.inode e).key = (s.inode e').key → e = e'
  agree : ∀ e, 0 < refs e → Agree (s.disk (s.inode e).key) (s.inode e) (stage e)

section
variable {s : Store β} {refs : Ix → ℕ} {stage : Ix → Stage} {e : Ix}

@[simp] theorem Store.put_self (s : Store β) (e : Ix) (ip : Inode β) : (s.put e ip).inode e = ip :=
  update_self ..

theorem Store.put_of_ne {e' : Ix} (h : e' ≠ e) (s : Store β) (ip : Inode β) :
    (s.put e ip).inode e' = s.inode e' := update_of_ne h ..

variable {g : Stage}

theorem Agree.congr {d : Dinode β} {x y : Inode β} (h : Agree d x g)
    (hvalid : y.valid = x.valid) (hd : y.d = x.d) : Agree d y g := by
  cases g <;> simpa only [Agree, hvalid, hd] using h

variable {y : Inode β}

theorem Base.put {n : ℕ} (h : Base s refs stage)
    (hkey : y.key = (s.inode e).key) (hn : 0 < n → 0 < refs e) (href : y.ref = n)
    (hbusy : y.busy = true ↔ g ≠ .unlocked) (hcounted : g ≠ .unlocked → 0 < n)
    (hagree : 0 < n → Agree (s.disk (s.inode e).key) y g) :
    Base (s.put e y) (update refs e n) (update stage e g) where
  ref e' := by
    by_cases he : e' = e
    · rw [he, Store.put_self, update_self, href]
    · rw [Store.put_of_ne he, update_of_ne he, h.ref]
  busy e' := by
    by_cases he : e' = e
    · rw [he, Store.put_self, update_self, hbusy]
    · rw [Store.put_of_ne he, update_of_ne he, h.busy]
  counted e' := by
    by_cases he : e' = e
    · rw [he, update_self, update_self]
      exact hcounted
    · rw [update_of_ne he, update_of_ne he]
      exact h.counted e'
  uniq e₁ e₂ h₁ h₂ hkeys := by
    have hkeep : ∀ e', ((s.put e y).inode e').key = (s.inode e').key := fun e' => by
      by_cases he : e' = e
      · rw [he, Store.put_self, hkey]
      · rw [Store.put_of_ne he]
    have hpos : ∀ e', 0 < update refs e n e' → 0 < refs e' := fun e' he' => by
      by_cases he : e' = e
      · rw [he, update_self] at he'
        rw [he]
        exact hn he'
      · rwa [update_of_ne he] at he'
    rw [hkeep, hkeep] at hkeys
    exact h.uniq e₁ e₂ (hpos e₁ h₁) (hpos e₂ h₂) hkeys
  agree e' := by
    by_cases he : e' = e
    · subst he
      rw [Store.put_self, update_self, update_self, hkey]
      exact hagree
    · rw [Store.put_of_ne he, update_of_ne he, update_of_ne he]
      exact h.agree e'

theorem Base.put_stage (h : Base s refs stage)
    (hkey : y.key = (s.inode e).key) (hheld : 0 < refs e) (href : y.ref = (s.inode e).ref)
    (hbusy : y.busy = true ↔ g ≠ .unlocked) (hagree : Agree (s.disk (s.inode e).key) y g) :
    Base (s.put e y) refs (update stage e g) := by
  have hput := h.put hkey (fun hn => hn) (by rw [href, h.ref]) hbusy (fun _ => hheld) fun _ =>
    hagree
  rwa [update_eq_self] at hput

theorem Base.put_refs {n : ℕ} (h : Base s refs stage) (hkey : y.key = (s.inode e).key)
    (hn : 0 < n → 0 < refs e) (href : y.ref = n) (hbusy : y.busy = (s.inode e).busy)
    (hcounted : stage e ≠ .unlocked → 0 < n) (hvalid : y.valid = (s.inode e).valid)
    (hd : y.d = (s.inode e).d) : Base (s.put e y) (update refs e n) stage := by
  have hput := h.put hkey hn href (by rw [hbusy, h.busy]) hcounted
    fun hpos => (h.agree e (hn hpos)).congr hvalid hd
  rwa [update_eq_self] at hput

variable {k : Key}

theorem Store.iget_cases {t : Store β} (h : s.iget k = some (e, t)) :
    (0 < (s.inode e).ref ∧ (s.inode e).key = k ∧ t = s.idup e) ∨
    ((∀ e', 0 < (s.inode e').ref → (s.inode e').key ≠ k) ∧ (s.inode e).ref = 0 ∧
      t = s.put e { s.inode e with
        dev := k.1, inum := k.2, ref := 1, busy := false, valid := false }) := by
  unfold Store.iget at h
  split at h
  · rename_i e' hfind
    cases h
    have hmatch := List.find?_some hfind
    simp only [decide_eq_true_eq] at hmatch
    exact Or.inl ⟨hmatch.1, hmatch.2, rfl⟩
  · rename_i hnone
    obtain ⟨e', hfind, heq⟩ := Option.map_eq_some_iff.mp h
    cases heq
    have hzero := List.find?_some hfind
    simp only [decide_eq_true_eq] at hzero
    refine Or.inr ⟨fun e' hpos hkey => ?_, hzero, rfl⟩
    have := List.find?_eq_none.mp hnone e' (List.mem_finRange e')
    simp [hpos, hkey] at this

theorem Base.idup (h : Base s refs stage) (hheld : 0 < refs e) :
    Base (s.idup e) (update refs e (refs e + 1)) stage :=
  h.put_refs rfl (fun _ => hheld) (by simp [h.ref]) rfl (fun _ => Nat.succ_pos _) rfl rfl

theorem Base.unlocked_of_zero (h : Base s refs stage) (hzero : refs e = 0) :
    stage e = .unlocked := by
  by_contra hne
  have := h.counted e hne
  omega

theorem Base.recycle (h : Base s refs stage) (hzero : refs e = 0)
    (hnew : ∀ e', 0 < refs e' → (s.inode e').key ≠ k) :
    Base (s.put e { s.inode e with
      dev := k.1, inum := k.2, ref := 1, busy := false, valid := false })
      (update refs e 1) stage where
  ref e' := by
    by_cases he : e' = e
    · rw [he, Store.put_self, update_self]
      rfl
    · rw [Store.put_of_ne he, update_of_ne he, h.ref]
  busy e' := by
    by_cases he : e' = e
    · rw [he, Store.put_self, h.unlocked_of_zero hzero]
      simp
    · rw [Store.put_of_ne he, h.busy]
  counted e' hst := by
    by_cases he : e' = e
    · rw [he, update_self]
      exact one_pos
    · rw [update_of_ne he]
      exact h.counted e' hst
  uniq e₁ e₂ h₁ h₂ hkeys := by
    by_cases he₁ : e₁ = e <;> by_cases he₂ : e₂ = e
    · rw [he₁, he₂]
    · rw [he₁, Store.put_self, Store.put_of_ne he₂] at hkeys
      rw [update_of_ne he₂] at h₂
      exact absurd hkeys.symm (hnew e₂ h₂)
    · rw [he₂, Store.put_self, Store.put_of_ne he₁] at hkeys
      rw [update_of_ne he₁] at h₁
      exact absurd hkeys (hnew e₁ h₁)
    · rw [Store.put_of_ne he₁, Store.put_of_ne he₂] at hkeys
      rw [update_of_ne he₁] at h₁
      rw [update_of_ne he₂] at h₂
      exact h.uniq e₁ e₂ h₁ h₂ hkeys
  agree e' hpos := by
    by_cases he : e' = e
    · subst he
      rw [Store.put_self, h.unlocked_of_zero hzero]
      intro hvalid
      cases hvalid
    · rw [Store.put_of_ne he]
      rw [update_of_ne he] at hpos
      exact h.agree e' hpos

theorem Base.iget {t : Store β} (h : Base s refs stage) (ht : s.iget k = some (e, t)) :
    Base t (update refs e (refs e + 1)) stage ∧ (t.inode e).key = k := by
  obtain ⟨hpos, hkey, rfl⟩ | ⟨hnew, hzero, rfl⟩ := Store.iget_cases ht
  · rw [h.ref] at hpos
    refine ⟨h.idup (by exact_mod_cast hpos), ?_⟩
    unfold Store.idup
    rw [Store.put_self]
    exact hkey
  · rw [h.ref] at hzero
    have hzero : refs e = 0 := by exact_mod_cast hzero
    rw [hzero, Store.put_self]
    refine ⟨h.recycle hzero fun e' hpos => hnew e' ?_, rfl⟩
    rw [h.ref]
    exact_mod_cast hpos

theorem Base.drop (h : Base s refs stage) (hheld : 0 < refs e)
    (hlocked : stage e ≠ .unlocked → 1 < refs e) :
    Base (s.drop e) (update refs e (refs e - 1)) stage :=
  h.put_refs rfl (fun _ => hheld) (by simp only [h.ref]; omega) rfl
    (fun hst => by have := hlocked hst; omega) rfl rfl

theorem Base.lock (h : Base s refs stage) (hheld : 0 < refs e) (hbusy : (s.inode e).busy = false) :
    stage e = .unlocked ∧ Base (s.lock e) refs (update stage e .busy) := by
  have hst : stage e = .unlocked := by
    by_contra hne
    rw [(h.busy e).mpr hne] at hbusy
    cases hbusy
  refine ⟨hst, h.put_stage rfl hheld rfl (by simp) ?_⟩
  have hagree := h.agree e hheld
  rw [hst] at hagree
  exact hagree

/-- The stage after the dinode has been read: without a type there is a panic. -/
def loaded (d : Dinode β) : Stage := if d.type = 0 then .void else .locked false

theorem Base.load (h : Base s refs stage) (hst : stage e = .busy) :
    Base (s.load e) refs (update stage e (loaded ((s.load e).inode e).d)) := by
  have hheld := h.counted e (by rw [hst]; exact Stage.noConfusion)
  have hagree := h.agree e hheld
  have hbusy : (s.inode e).busy = true := (h.busy e).mpr (by rw [hst]; exact Stage.noConfusion)
  rw [hst] at hagree
  unfold Store.load
  split_ifs with hvalid
  · obtain ⟨hd, htype⟩ := hagree hvalid
    have hput := h.put_stage (e := e) (y := s.inode e) (g := .locked false) rfl hheld rfl
      (by simp [hbusy]) ⟨hvalid, htype, by rw [hd], fun _ => hd⟩
    rwa [Store.put, update_eq_self, show Stage.locked false = loaded (s.inode e).d from
      (if_neg htype).symm] at hput
  · rw [Store.put_self]
    refine h.put_stage rfl hheld rfl ?_ ?_
    · unfold loaded
      split_ifs <;> simp [hbusy]
    · unfold loaded
      split_ifs with htype
      · exact htype
      · exact ⟨rfl, htype, rfl, fun _ => rfl⟩

theorem Base.unlock (h : Base s refs stage) (hst : stage e = .locked false) :
    Base (s.unlock e) refs (update stage e .unlocked) := by
  have hheld := h.counted e (by rw [hst]; exact Stage.noConfusion)
  have hagree := h.agree e hheld
  rw [hst] at hagree
  exact h.put_stage rfl hheld rfl (by simp) fun _ => ⟨hagree.2.2.2 rfl, hagree.2.1⟩

theorem Base.change {b : Bool} (h : Base s refs stage) (hst : stage e = .locked b) (nlink : ℕ)
    (rest : β) : Base (s.change e nlink rest) refs (update stage e (.locked true)) := by
  have hheld := h.counted e (by rw [hst]; exact Stage.noConfusion)
  have hagree := h.agree e hheld
  have hbusy : (s.inode e).busy = true := (h.busy e).mpr (by rw [hst]; exact Stage.noConfusion)
  rw [hst] at hagree
  exact h.put_stage rfl hheld rfl (by simp [hbusy])
    ⟨hagree.1, hagree.2.1, hagree.2.2.1, fun hb => Bool.noConfusion hb⟩

theorem Base.write {d : Dinode β} (h : Base s refs stage) (hheld : 0 < refs e)
    (hst : stage e ≠ .unlocked) (hg : g ≠ .unlocked) (hagree : Agree d (s.inode e) g) :
    Base (s.write (s.inode e).key d) refs (update stage e g) where
  ref := h.ref
  busy e' := by
    by_cases he : e' = e
    · rw [he, update_self]
      exact ⟨fun _ => hg, fun _ => (h.busy e).mpr hst⟩
    · rw [update_of_ne he]
      exact h.busy e'
  counted e' := by
    by_cases he : e' = e
    · rw [he]
      exact fun _ => hheld
    · rw [update_of_ne he]
      exact h.counted e'
  uniq := h.uniq
  agree e' hpos := by
    by_cases he : e' = e
    · subst he
      rw [update_self]
      change Agree (update s.disk (s.inode e').key d (s.inode e').key) _ _
      rw [update_self]
      exact hagree
    · -- another entry is for another inode
      have hkey : (s.inode e').key ≠ (s.inode e).key := fun heq => he (h.uniq e' e hpos hheld heq)
      rw [update_of_ne he]
      change Agree (update s.disk (s.inode e).key d (s.inode e').key) _ _
      rw [update_of_ne hkey]
      exact h.agree e' hpos

theorem Base.iupdate {b : Bool} (h : Base s refs stage) (hst : stage e = .locked b) :
    Base (s.iupdate e) refs (update stage e (.locked false)) := by
  have hne : stage e ≠ .unlocked := by rw [hst]; exact Stage.noConfusion
  have hheld := h.counted e hne
  have hagree := h.agree e hheld
  rw [hst] at hagree
  exact h.write hheld hne Stage.noConfusion ⟨hagree.1, hagree.2.1, rfl, fun _ => rfl⟩

theorem Base.free (h : Base s refs stage) (hunused : s.unused e = true)
    (hbusy : (s.inode e).busy = false) :
    stage e = .unlocked ∧ refs e = 1 ∧ (s.disk (s.inode e).key) = (s.inode e).d ∧
      Base (s.lock e) refs (update stage e .freeing) := by
  simp only [Store.unused, Bool.and_eq_true, decide_eq_true_eq, h.ref] at hunused
  have hone : refs e = 1 := by exact_mod_cast hunused.1.1
  have hheld : 0 < refs e := by omega
  obtain ⟨hst, -⟩ := h.lock hheld hbusy
  have hagree := h.agree e hheld
  rw [hst] at hagree
  obtain ⟨hd, htype⟩ := hagree hunused.1.2
  refine ⟨hst, hone, hd, h.put_stage rfl hheld rfl (by simp) ⟨hunused.1.2, ?_, htype⟩⟩
  rw [hd]
  exact htype

theorem Base.clearType (h : Base s refs stage) (hst : stage e = .freeing) :
    Base (s.clearType e) refs (update stage e .cleared) := by
  have hne : stage e ≠ .unlocked := by rw [hst]; exact Stage.noConfusion
  have hagree := h.agree e (h.counted e hne)
  rw [hst] at hagree
  exact h.put_stage rfl (h.counted e hne) rfl (by simp [(h.busy e).mpr hne])
    ⟨hagree.1, hagree.2.1, rfl⟩

/-- `iupdate` in `iput`: with the type 0 it frees the inode. -/
theorem Base.iupdate_ending (h : Base s refs stage) (hst : (stage e).ending = true) :
    Base (s.iupdate e) refs (update stage e (stage e).flushed) := by
  have hne : stage e ≠ .unlocked := fun heq => by
    rw [heq] at hst
    cases hst
  have hheld := h.counted e hne
  have hagree := h.agree e hheld
  refine h.write hheld hne ?_ ?_
  · cases hg : stage e <;> rw [hg] at hst <;> first | exact Stage.noConfusion | cases hst
  · cases hg : stage e with
    | freeing =>
      rw [hg] at hagree
      exact ⟨hagree.1, hagree.2.2, hagree.2.2⟩
    | cleared =>
      rw [hg] at hagree
      exact hagree.2.2
    | unlocked | busy | locked _ | void =>
      rw [hg] at hst
      cases hst

theorem Base.release (h : Base s refs stage) (hst : stage e = .void) :
    Base (s.release e) (update refs e (refs e - 1)) (update stage e .unlocked) := by
  have hheld := h.counted e (by rw [hst]; exact Stage.noConfusion)
  exact h.put rfl (fun _ => hheld) (by simp only [h.ref]; omega) (by simp)
    (fun hne => absurd rfl hne)
    fun _ hvalid => by cases hvalid

variable [Rest β]

theorem Base.itrunc (h : Base s refs stage) (hst : stage e = .freeing) :
    Base (s.itrunc e) refs stage := by
  have hheld := h.counted e (by rw [hst]; exact Stage.noConfusion)
  have hagree := h.agree e hheld
  have hput := h.put_stage (e := e) (g := stage e)
    (y := { s.inode e with d := { (s.inode e).d with rest := Rest.trunc (s.inode e).d.rest } }) rfl
    hheld rfl (h.busy e) ?_
  · rwa [update_eq_self] at hput
  · rw [hst] at hagree ⊢
    exact hagree

theorem Base.alloc (h : Base s refs stage) (hfree : (s.disk k).type = 0) (type : ℕ) :
    Base (s.alloc k type) refs stage where
  ref := h.ref
  busy := h.busy
  counted := h.counted
  uniq := h.uniq
  agree e hpos := by
    have hagree := h.agree e hpos
    change Agree (update s.disk k _ (s.inode e).key) _ _
    by_cases hkey : (s.inode e).key = k
    · rw [hkey] at hagree
      rw [hkey, update_self]
      cases hst : stage e with rw [hst] at hagree
      | unlocked | busy =>
        intro hvalid
        obtain ⟨hd, htype⟩ := hagree hvalid
        rw [hd] at hfree
        exact absurd hfree htype
      | locked b =>
        rw [hagree.2.2.1] at hfree
        exact absurd hfree hagree.2.1
      | freeing | cleared =>
        exact absurd hfree hagree.2.1
      | void =>
        exact hagree
    · rw [update_of_ne hkey]
      exact hagree

end

end Xv6Threads.Icache
