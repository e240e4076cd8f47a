import Xv6Threads.IcacheProtocol

namespace Xv6Threads.Icache

open Function Finset Stage Store

variable {β T : Type} {s : Store β} {refs : Ix → ℕ} {stage : Ix → Stage} {e : Ix}

/-- `m t` is the dinode that the process has marked and not yet looked up. -/
structure Tidy (s : Store β) (refs : Ix → ℕ) (stage : Ix → Stage) (m : T → Option Key) : Prop where
  vacant : ∀ e, 0 < refs e → (s.disk (s.inode e).key).type = 0 → stage e = .void ∧ refs e = 1
  freeing : ∀ e, (stage e).ending = true →
    refs e = 1 ∧ (s.disk (s.inode e).key).nlink = 0 ∧ (s.inode e).d.nlink = 0
  fresh : ∀ t k, m t = some k → (s.disk k).type ≠ 0 ∧ (s.disk k).nlink = 0 ∧
    ∀ e, 0 < refs e → (s.inode e).key = k → stage e = .void ∧ refs e = 1
  alone : ∀ t u k, m t = some k → m u = some k → t = u

section
variable {m : T → Option Key}

/-- An inode that a directory names is not free, not being freed and not just allocated. -/
theorem Tidy.linked {k : Key} (h : Tidy s refs stage m) (hbase : Base s refs stage)
    (hk : Linked s k) : (s.disk k).type ≠ 0 ∧ (∀ e, 0 < refs e → (s.inode e).key = k →
      (stage e).ending ≠ true) ∧ ∀ t, m t ≠ some k := by
  obtain ⟨htype, hlink⟩ | ⟨e', hpos, hkey, hvalid, htype, hlink⟩ := hk
  · refine ⟨htype, fun e he hek hst => ?_, fun t ht => hlink (h.fresh t k ht).2.1⟩
    have := (h.freeing e hst).2.1
    rw [hek] at this
    exact hlink this
  · rw [hbase.ref] at hpos
    have hpos : 0 < refs e' := by exact_mod_cast hpos
    have hvoid : stage e' ≠ .void := fun hst => by
      have hagree := hbase.agree e' hpos
      rw [hst] at hagree
      exact htype hagree
    refine ⟨fun hzero => ?_, fun e he hek hst => ?_, fun t ht => ?_⟩
    · rw [← hkey] at hzero
      exact hvoid (h.vacant e' hpos hzero).1
    · rw [hbase.uniq e e' he hpos (hek.trans hkey.symm)] at hst
      exact hlink (h.freeing e' hst).2.2
    · exact hvoid ((h.fresh t k ht).2.2 e' hpos hkey).1

variable {g : Stage}

theorem Stage.ne_of_ending (h : g.ending = true) : g ≠ .unlocked := fun heq => by
  rw [heq] at h
  cases h

variable {y : Inode β}

theorem Agree.typed {d : Dinode β} (h : Agree d y g) (hg : g.ending = true) : d.type ≠ 0 := by
  cases g with
  | freeing | cleared => exact h.2.1
  | unlocked | busy | locked _ | void => cases hg

def Unsettled (s : Store β) (m : T → Option Key) (k : Key) : Prop :=
  (s.disk k).type = 0 ∨ ∃ t, m t = some k

section

variable (h : Tidy s refs stage m)
include h

theorem Tidy.unsettled (hpos : 0 < refs e)
    (hk : Unsettled s m (s.inode e).key) : stage e = .void ∧ refs e = 1 := by
  obtain h0 | ⟨t, ht⟩ := hk
  · exact h.vacant e hpos h0
  · exact (h.fresh t _ ht).2.2 e hpos rfl

/-- An entry is changed that keeps its number. The only reference to an unsettled inode stays the
only one or goes. -/
theorem Tidy.put {n : ℕ} (hkey : y.key = (s.inode e).key) (hn : 0 < n → 0 < refs e)
    (hvoid : 0 < n → Unsettled s m (s.inode e).key → stage e = .void → refs e = 1 →
      g = .void ∧ n = 1)
    (hg : g.ending = true → n = 1 ∧ (s.disk (s.inode e).key).nlink = 0 ∧ y.d.nlink = 0) :
    Tidy (s.put e y) (update refs e n) (update stage e g) m := by
  have hkeep : ∀ e', ((s.put e y).inode e').key = (s.inode e').key := fun e' => by
    by_cases he : e' = e
    · rw [he, put_self, hkey]
    · rw [put_of_ne he]
  have hlast : ∀ e', 0 < update refs e n e' → Unsettled s m (s.inode e').key →
      update stage e g e' = .void ∧ update refs e n e' = 1 := fun e' hpos hk => by
    by_cases he : e' = e
    · subst he
      rw [update_self] at hpos
      obtain ⟨hst, hone⟩ := h.unsettled (hn hpos) hk
      rw [update_self, update_self]
      exact hvoid hpos hk hst hone
    · rw [update_of_ne he] at hpos
      rw [update_of_ne he, update_of_ne he]
      exact h.unsettled hpos hk
  refine ⟨fun e' hpos htype => ?_, fun e' hst => ?_, fun t k ht => ?_, h.alone⟩
  · rw [hkeep] at htype
    exact hlast e' hpos (Or.inl htype)
  · rw [hkeep]
    by_cases he : e' = e
    · subst he
      rw [update_self] at hst
      rw [put_self, update_self]
      exact hg hst
    · rw [update_of_ne he] at hst
      rw [put_of_ne he, update_of_ne he]
      exact h.freeing e' hst
  · obtain ⟨htype, hlink, -⟩ := h.fresh t k ht
    refine ⟨htype, hlink, fun e' hpos hk => ?_⟩
    rw [hkeep] at hk
    exact hlast e' hpos (Or.inr ⟨t, by rw [hk, ht]⟩)

theorem Tidy.put_stage (hkey : y.key = (s.inode e).key) (hvoid : stage e ≠ .void)
    (hg : g.ending = true → refs e = 1 ∧ (s.disk (s.inode e).key).nlink = 0 ∧ y.d.nlink = 0) :
    Tidy (s.put e y) refs (update stage e g) m := by
  have hput := h.put hkey (fun hn => hn) (fun _ _ hst => absurd hst hvoid) hg
  rwa [update_eq_self] at hput

/-- One reference more or less, where there are others or the inode is settled. -/
theorem Tidy.put_refs {n : ℕ} (hkey : y.key = (s.inode e).key) (hn : 0 < n → 0 < refs e)
    (hmany : 0 < n → Unsettled s m (s.inode e).key → stage e = .void → 1 < refs e)
    (hfreeing : (stage e).ending = true → 1 < refs e) :
    Tidy (s.put e y) (update refs e n) stage m := by
  have hput := h.put (y := y) (n := n) (g := stage e) hkey hn
    (fun hpos hk hst hone => absurd hone (hmany hpos hk hst).ne')
    (fun hst => absurd (h.freeing e hst).1 (hfreeing hst).ne')
  rwa [update_eq_self] at hput

theorem Tidy.recycle (hbase : Base s refs stage)
    (hzero : refs e = 0) (htype : (s.disk y.key).type ≠ 0) (hm : ∀ t, m t ≠ some y.key) :
    Tidy (s.put e y) (update refs e 1) stage m := by
  have hst := hbase.unlocked_of_zero hzero
  refine ⟨fun e' hpos h0 => ?_, fun e' hf => ?_, fun t k ht => ?_, h.alone⟩
  · by_cases he : e' = e
    · rw [he, put_self] at h0
      exact absurd h0 htype
    · rw [update_of_ne he] at hpos ⊢
      rw [put_of_ne he] at h0
      exact h.vacant e' hpos h0
  · have he : e' ≠ e := fun he => by
      rw [he, hst] at hf
      cases hf
    rw [update_of_ne he, put_of_ne he]
    exact h.freeing e' hf
  · obtain ⟨hk, hlink, hentries⟩ := h.fresh t k ht
    refine ⟨hk, hlink, fun e' hpos hkey => ?_⟩
    by_cases he : e' = e
    · rw [he, put_self] at hkey
      exact absurd (hkey ▸ ht) (hm t)
    · rw [update_of_ne he] at hpos ⊢
      rw [put_of_ne he] at hkey
      exact hentries e' hpos hkey

theorem Tidy.write {d : Dinode β} (hbase : Base s refs stage)
    (hheld : 0 < refs e) (hvoid : stage e ≠ .void) (hg : g = .void ∧ refs e = 1 ∨ d.type ≠ 0)
    (hfreeing : g.ending = true → refs e = 1 ∧ d.nlink = 0 ∧ (s.inode e).d.nlink = 0) :
    Tidy (s.write (s.inode e).key d) refs (update stage e g) m := by
  have hdisk : ∀ e', 0 < refs e' → e' ≠ e → (s.write (s.inode e).key d).disk (s.inode e').key =
      s.disk (s.inode e').key := fun e' hpos he =>
    update_of_ne (fun heq => he (hbase.uniq e' e hpos hheld heq)) ..
  have hself : (s.write (s.inode e).key d).disk (s.inode e).key = d := update_self ..
  refine ⟨fun e' hpos htype => ?_, fun e' hst => ?_, fun t k ht => ?_, h.alone⟩
  · change ((s.write (s.inode e).key d).disk (s.inode e').key).type = 0 at htype
    by_cases he : e' = e
    · subst he
      rw [hself] at htype
      rw [update_self]
      exact hg.resolve_right fun hne => hne htype
    · rw [hdisk e' hpos he] at htype
      rw [update_of_ne he]
      exact h.vacant e' hpos htype
  · change _ ∧ ((s.write (s.inode e).key d).disk (s.inode e').key).nlink = 0 ∧ _
    by_cases he : e' = e
    · subst he
      rw [update_self] at hst
      rw [hself]
      exact hfreeing hst
    · rw [update_of_ne he] at hst
      rw [hdisk e' (hbase.counted e' (ne_of_ending hst)) he]
      exact h.freeing e' hst
  · obtain ⟨hk, hlink, hentries⟩ := h.fresh t k ht
    -- the marked dinode is not that of a locked entry
    have hne : k ≠ (s.inode e).key := fun heq => hvoid (hentries e hheld heq.symm).1
    have hsame : (s.write (s.inode e).key d).disk k = s.disk k := update_of_ne hne ..
    rw [hsame]
    refine ⟨hk, hlink, fun e' hpos hkey => ?_⟩
    have hold := hentries e' hpos hkey
    have he : e' ≠ e := fun he => hvoid (he ▸ hold.1)
    rwa [update_of_ne he]

theorem Tidy.alloc [Rest β] [DecidableEq T] {k : Key} {type : ℕ} {t : T}
    (hbase : Base s refs stage) (hfree : (s.disk k).type = 0) (htype : type ≠ 0) :
    Tidy (s.alloc k type) refs stage (update m t (some k)) := by
  have hself : (s.alloc k type).disk k = ⟨type, 0, Rest.zero⟩ := update_self ..
  have hother : ∀ k' ≠ k, (s.alloc k type).disk k' = s.disk k' := fun k' hk' =>
    update_of_ne hk' ..
  have hm : ∀ u, m u ≠ some k := fun u hu => (h.fresh u k hu).1 hfree
  refine ⟨fun e' hpos h0 => ?_, fun e' hst => ?_, fun u k' hu => ?_, fun u u' k' hu hu' => ?_⟩
  · change ((s.alloc k type).disk (s.inode e').key).type = 0 at h0
    by_cases hkey : (s.inode e').key = k
    · rw [hkey, hself] at h0
      exact absurd h0 htype
    · rw [hother _ hkey] at h0
      exact h.vacant e' hpos h0
  · have htyped := (hbase.agree e' (hbase.counted e' (ne_of_ending hst))).typed hst
    have hkey : (s.inode e').key ≠ k := fun heq => htyped (by rw [heq, hfree])
    change _ ∧ ((s.alloc k type).disk (s.inode e').key).nlink = 0 ∧ _
    rw [hother _ hkey]
    exact h.freeing e' hst
  · by_cases hut : u = t
    · rw [hut, update_self] at hu
      obtain rfl := Option.some.inj hu
      rw [hself]
      refine ⟨htype, rfl, fun e' hpos hkey => h.vacant e' hpos ?_⟩
      change (s.inode e').key = k at hkey
      rw [hkey, hfree]
    · rw [update_of_ne hut] at hu
      have hne : k' ≠ k := fun heq => hm u (heq ▸ hu)
      rw [hother _ hne]
      exact h.fresh u k' hu
  · by_cases hut : u = t <;> by_cases hut' : u' = t
    · rw [hut, hut']
    · rw [hut, update_self] at hu
      rw [update_of_ne hut'] at hu'
      exact absurd (hu'.trans hu.symm) (hm u')
    · rw [hut', update_self] at hu'
      rw [update_of_ne hut] at hu
      exact absurd (hu.trans hu'.symm) (hm u)
    · rw [update_of_ne hut] at hu
      rw [update_of_ne hut'] at hu'
      exact h.alone u u' k' hu hu'

theorem Tidy.unmark [DecidableEq T] (t : T) : Tidy s refs stage (update m t none) := by
  have hold : ∀ u k, update m t none u = some k → m u = some k := fun u k hu => by
    by_cases hut : u = t
    · rw [hut, update_self] at hu
      cases hu
    · rwa [update_of_ne hut] at hu
  exact ⟨h.vacant, h.freeing, fun u k hu => h.fresh u k (hold u k hu),
    fun u u' k hu hu' => h.alone u u' k (hold u k hu) (hold u' k hu')⟩

end

end

variable {loc : T → Client} {t : T}

/-- What the processes say about the locks they have is what there is. -/
structure Locks (loc : T → Client) (stage : Ix → Stage) : Prop where
  mine : ∀ t e, (loc t).lock e ≠ .unlocked → stage e = (loc t).lock e
  owner : ∀ e, stage e ≠ .unlocked → ∃ t, (loc t).lock e ≠ .unlocked
  alone : ∀ t u e, (loc t).lock e ≠ .unlocked → (loc u).lock e ≠ .unlocked → t = u
  counted : ∀ t e, (loc t).lock e ≠ .unlocked → 0 < (loc t).hold e

theorem Locks.eq (h : Locks loc stage) {g : Stage} (hg : g ≠ .unlocked) (ht : (loc t).lock e = g) :
    stage e = g := by
  rw [h.mine t e (by rwa [ht]), ht]

variable {l : Client}

/-- A process goes from one stage to the next with a lock that is free or its own. -/
theorem Locks.set [DecidableEq T] {g : Stage} (h : Locks loc stage)
    (hmine : stage e = .unlocked ∨ (loc t).lock e ≠ .unlocked)
    (hlock : l.lock = update (loc t).lock e g)
    (hcounted : ∀ e', l.lock e' ≠ .unlocked → 0 < l.hold e') :
    Locks (update loc t l) (update stage e g) := by
  -- nobody else has the lock
  have hothers : ∀ u ≠ t, (loc u).lock e = .unlocked := fun u hu => by
    by_contra hne
    obtain hst | ht := hmine
    · exact hne ((h.mine u e hne).symm.trans hst)
    · exact hu (h.alone u t e hne ht)
  have hlocked : ∀ u e', (update loc t l u).lock e' ≠ .unlocked →
      u = t ∧ e' = e ∧ g ≠ .unlocked ∨ e' ≠ e ∧ (loc u).lock e' ≠ .unlocked ∧
        (update loc t l u).lock e' = (loc u).lock e' := fun u e' hne => by
    by_cases hu : u = t
    · subst hu
      rw [update_self, hlock] at hne ⊢
      by_cases he : e' = e
      · rw [he, update_self] at hne
        exact Or.inl ⟨rfl, he, hne⟩
      · rw [update_of_ne he] at hne ⊢
        exact Or.inr ⟨he, hne, rfl⟩
    · rw [update_of_ne hu] at hne ⊢
      exact Or.inr ⟨fun he => hne (he ▸ hothers u hu), hne, rfl⟩
  refine ⟨fun u e' hne => ?_, fun e' hne => ?_, fun u v e' hu hv => ?_, fun u e' hne => ?_⟩
  · obtain ⟨rfl, rfl, -⟩ | ⟨he, hold, heq⟩ := hlocked u e' hne
    · rw [update_self, update_self, hlock, update_self]
    · rw [update_of_ne he, heq]
      exact h.mine u e' hold
  · by_cases he : e' = e
    · subst he
      rw [update_self] at hne
      exact ⟨t, by rwa [update_self, hlock, update_self]⟩
    · rw [update_of_ne he] at hne
      obtain ⟨u, hu⟩ := h.owner e' hne
      refine ⟨u, ?_⟩
      by_cases hut : u = t
      · subst hut
        rwa [update_self, hlock, update_of_ne he]
      · rwa [update_of_ne hut]
  · obtain ⟨rfl, he, -⟩ | ⟨he, hu, -⟩ := hlocked u e' hu <;>
      obtain ⟨rfl, he', -⟩ | ⟨he', hv, -⟩ := hlocked v e' hv
    · rfl
    · exact absurd he he'
    · exact absurd he' he
    · exact h.alone u v e' hu hv
  · by_cases hu : u = t
    · subst hu
      rw [update_self] at hne ⊢
      exact hcounted e' hne
    · rw [update_of_ne hu] at hne ⊢
      exact h.counted u e' hne

theorem Locks.keep [DecidableEq T] (h : Locks loc stage) (hlock : l.lock = (loc t).lock)
    (hcounted : ∀ e', l.lock e' ≠ .unlocked → 0 < l.hold e') : Locks (update loc t l) stage := by
  have hsame : ∀ u, (update loc t l u).lock = (loc u).lock := fun u => by
    by_cases hu : u = t
    · rw [hu, update_self, hlock]
    · rw [update_of_ne hu]
  refine ⟨fun u e' => ?_, fun e' hne => ?_, fun u v e' => ?_, fun u e' hne => ?_⟩
  · rw [hsame]
    exact h.mine u e'
  · obtain ⟨u, hu⟩ := h.owner e' hne
    exact ⟨u, by rwa [hsame]⟩
  · rw [hsame, hsame]
    exact h.alone u v e'
  · by_cases hu : u = t
    · subst hu
      rw [update_self] at hne ⊢
      exact hcounted e' hne
    · rw [update_of_ne hu] at hne ⊢
      exact h.counted u e' hne

variable [Fintype T]

def total (loc : T → Client) (e : Ix) : ℕ := ∑ t, (loc t).hold e

theorem hold_le_total (loc : T → Client) (t : T) (e : Ix) : (loc t).hold e ≤ total loc e :=
  single_le_sum (f := fun t => (loc t).hold e) (fun _ _ => Nat.zero_le _) (mem_univ t)

theorem two_le_total {u : T} (hne : t ≠ u) (ht : 0 < (loc t).hold e) (hu : 0 < (loc u).hold e) :
    1 < total loc e := by
  classical
  have hsum : (loc t).hold e + (loc u).hold e ≤ total loc e := by
    rw [← sum_pair hne (f := fun t => (loc t).hold e)]
    exact sum_le_sum_of_subset (subset_univ _)
  omega

/-- A process with a reference to an entry that somebody has locked. -/
theorem Locks.many (h : Locks loc stage) (hheld : 0 < (loc t).hold e) (hst : stage e ≠ .unlocked)
    (hself : (loc t).lock e ≠ .unlocked → 1 < (loc t).hold e) : 1 < total loc e := by
  obtain ⟨u, hu⟩ := h.owner e hst
  by_cases hut : t = u
  · subst hut
    exact lt_of_lt_of_le (hself hu) (hold_le_total loc t e)
  · exact two_le_total hut hheld (h.counted u e hu)

variable [DecidableEq T]

theorem total_update (loc : T → Client) (t : T) (l : Client) (e : Ix) :
    total (update loc t l) e + (loc t).hold e = total loc e + l.hold e := by
  have hsum := Atomic.sum_change (fun u => (loc u).hold e)
    (fun u => (update loc t l u).hold e) t fun u hu => by rw [update_of_ne hu]
  rwa [update_self] at hsum

theorem total_same (h : l.hold = (loc t).hold) : total (update loc t l) = total loc := by
  funext e
  have hsum := total_update loc t l e
  rw [h] at hsum
  omega

theorem total_set {n : ℕ} (h : l.hold = update (loc t).hold e n) :
    total (update loc t l) = update (total loc) e (total loc e + n - (loc t).hold e) := by
  funext e'
  have hsum := total_update loc t l e'
  rw [h] at hsum
  by_cases he : e' = e
  · subst he
    rw [update_self] at hsum ⊢
    omega
  · rw [update_of_ne he] at hsum ⊢
    omega

omit [Fintype T] in
theorem fresh_update (loc : T → Client) (t : T) (l : Client) : (fun u => (update loc t l u).fresh) =
    update (fun u => (loc u).fresh) t l.fresh := by
  funext u
  by_cases hu : u = t
  · rw [hu, update_self, update_self]
  · rw [update_of_ne hu, update_of_ne hu]

structure Inv (s : Store β) (loc : T → Client) (stage : Ix → Stage) : Prop where
  base : Base s (total loc) stage
  tidy : Tidy s (total loc) stage fun t => (loc t).fresh
  locks : Locks loc stage

/-- The process is not in the middle of freeing the inode. -/
def Calm (l : Client) (e : Ix) : Prop := l.lock e = .unlocked ∨ ∃ b, l.lock e = .locked b

def Rule (l : Client) : Op β → Prop
  | .iget k named => if named then l.fresh = none else l.fresh = some k
  | .idup e => 0 < l.hold e ∧ Calm l e ∧ l.fresh = none
  | .refless _ | .notLocked _ => True
  | .lock e => 0 < l.hold e
  | .load e => l.lock e = .busy
  | .unlock e => l.lock e = .locked false
  | .iput e => 0 < l.hold e ∧ (l.lock e ≠ .unlocked → 1 < l.hold e)
  | .itrunc e | .clearType e => l.lock e = .freeing
  | .iupdate e => (∃ b, l.lock e = .locked b) ∨ (l.lock e).ending = true
  | .release e => l.lock e = .void
  | .change e _ _ => ∃ b, l.lock e = .locked b
  | .ialloc _ type => type ≠ 0 ∧ l.fresh = none

theorem total_take : total (update loc t ((loc t).take e)) =
    update (total loc) e (total loc e + 1) := by
  rw [total_set (l := (loc t).take e) rfl]
  congr 1
  omega

omit [Fintype T] in
theorem Locks.take (h : Locks loc stage) : Locks (update loc t ((loc t).take e)) stage := by
  refine h.keep rfl fun e' hne => ?_
  have hold := h.counted t e' hne
  change 0 < update (loc t).hold e ((loc t).hold e + 1) e'
  by_cases he : e' = e
  · rw [he, update_self]
    exact Nat.succ_pos _
  · rwa [update_of_ne he]

section
variable {k : Key} {s' : Store β}

section

variable (h : Inv s loc stage)
include h

/-- A reference is added, in a state in which the inode is settled. -/
theorem Inv.iget (hs' : s.iget k = some (e, s'))
    (hk : (loc t).fresh = none ∧ Linked s k ∨ (loc t).fresh = some k) :
    Inv s' (update loc t ((loc t).take e)) stage := by
  have hm := h.tidy.unmark t
  have hsettled : (s.disk k).type ≠ 0 ∧
      (∀ u, update (fun u => (loc u).fresh) t none u ≠ some k) ∧
      ∀ e', 0 < total loc e' → (s.inode e').key = k → (stage e').ending ≠ true := by
    obtain ⟨-, hlinked⟩ | hfresh := hk
    · obtain ⟨htype, hfreeing, -⟩ := h.tidy.linked h.base hlinked
      exact ⟨htype, (hm.linked h.base hlinked).2.2, hfreeing⟩
    · obtain ⟨htype, -, hentries⟩ := h.tidy.fresh t k hfresh
      refine ⟨htype, fun u hu => ?_, fun e' hpos hkey hst => ?_⟩
      · by_cases hut : u = t
        · rw [hut, update_self] at hu
          cases hu
        · rw [update_of_ne hut] at hu
          exact hut (h.tidy.alone u t k hu hfresh)
      · rw [(hentries e' hpos hkey).1] at hst
        cases hst
  obtain ⟨htype, hmarks, hfreeing⟩ := hsettled
  refine ⟨?_, ?_, h.locks.take⟩
  · rw [total_take]
    exact (h.base.iget hs').1
  · rw [total_take, fresh_update]
    obtain ⟨hpos, hkey, rfl⟩ | ⟨hnew, hzero, rfl⟩ := iget_cases hs'
    · rw [h.base.ref] at hpos
      have hpos : 0 < total loc e := by exact_mod_cast hpos
      have hun : ¬Unsettled s (update (fun u => (loc u).fresh) t none) (s.inode e).key := by
        rintro (h0 | ⟨u, hu⟩)
        · exact htype (hkey ▸ h0)
        · exact hmarks u (hkey ▸ hu)
      exact hm.put_refs rfl (fun _ => hpos) (fun _ hu => absurd hu hun)
        (fun hst => absurd hst (hfreeing e hpos hkey))
    · rw [h.base.ref] at hzero
      have hzero : total loc e = 0 := by exact_mod_cast hzero
      rw [hzero]
      exact hm.recycle h.base hzero htype hmarks

theorem Inv.idup (hheld : 0 < (loc t).hold e) (hcalm : Calm (loc t) e)
    (hfresh : (loc t).fresh = none) : Inv (s.idup e) (update loc t ((loc t).take e)) stage := by
  have hpos := lt_of_lt_of_le hheld (hold_le_total loc t e)
  have hmany : stage e = .void ∨ (stage e).ending = true → 1 < total loc e := fun hst => by
    have hun : stage e ≠ .unlocked := by
      rcases hst with hst | hst
      · rw [hst]
        exact Stage.noConfusion
      · exact ne_of_ending hst
    refine h.locks.many hheld hun fun hne => ?_
    -- a process that frees the inode itself is not calm
    rw [h.locks.mine t e hne] at hst
    obtain hun | ⟨b, hb⟩ := hcalm
    · exact absurd hun hne
    · rw [hb] at hst
      rcases hst with hst | hst <;> cases hst
  refine ⟨?_, ?_, h.locks.take⟩
  · rw [total_take]
    exact h.base.idup hpos
  · rw [total_take, fresh_update, show ((loc t).take e).fresh = (loc t).fresh from hfresh.symm,
      update_eq_self]
    exact h.tidy.put_refs rfl (fun _ => hpos) (fun _ _ hst => hmany (Or.inl hst))
      fun hst => hmany (Or.inr hst)

theorem Inv.setLock {g : Stage} (hbase : Base s' (total loc) (update stage e g))
    (htidy : Tidy s' (total loc) (update stage e g) fun t => (loc t).fresh)
    (hmine : stage e = .unlocked ∨ (loc t).lock e ≠ .unlocked) (hheld : 0 < (loc t).hold e) :
    Inv s' (update loc t ((loc t).setLock e g)) (update stage e g) := by
  have htotal : total (update loc t ((loc t).setLock e g)) = total loc := total_same rfl
  refine ⟨by rwa [htotal], ?_, h.locks.set hmine rfl fun e' hne => ?_⟩
  · rw [htotal, fresh_update, show ((loc t).setLock e g).fresh = (loc t).fresh from rfl,
      update_eq_self]
    exact htidy
  · change 0 < (loc t).hold e'
    change update (loc t).lock e g e' ≠ _ at hne
    by_cases he : e' = e
    · rwa [he]
    · rw [update_of_ne he] at hne
      exact h.locks.counted t e' hne

theorem Inv.lock (hheld : 0 < (loc t).hold e) (hbusy : (s.inode e).busy = false) :
    Inv (s.lock e) (update loc t ((loc t).setLock e .busy)) (update stage e .busy) := by
  obtain ⟨hst, hbase⟩ := h.base.lock (lt_of_lt_of_le hheld (hold_le_total loc t e)) hbusy
  refine h.setLock hbase (h.tidy.put_stage rfl ?_ fun hg => Bool.noConfusion hg) (Or.inl hst) hheld
  rw [hst]
  exact Stage.noConfusion

/-- A process that has the lock goes on, and the inode keeps its number. -/
theorem Inv.step {y : Inode β} {g g' : Stage} (hlock : (loc t).lock e = g)
    (hg : g ≠ .unlocked) (hvoid : g ≠ .void) (hkey : y.key = (s.inode e).key)
    (hg' : g'.ending = true → g.ending = true ∧ y.d.nlink = (s.inode e).d.nlink)
    (hbase : Base (s.put e y) (total loc) (update stage e g')) :
    Inv (s.put e y) (update loc t ((loc t).setLock e g')) (update stage e g') := by
  have hst := h.locks.eq hg hlock
  have hne : (loc t).lock e ≠ .unlocked := by rwa [hlock]
  refine h.setLock hbase (h.tidy.put_stage hkey (by rwa [hst]) fun hf => ?_) (Or.inr hne)
    (h.locks.counted t e hne)
  obtain ⟨hend, hnlink⟩ := hg' hf
  rw [hnlink]
  exact h.tidy.freeing e (by rwa [hst])

theorem Inv.load (hlock : (loc t).lock e = .busy) :
    Inv (s.load e) (update loc t ((loc t).setLock e (loaded ((s.load e).inode e).d)))
      (update stage e (loaded ((s.load e).inode e).d)) := by
  have hbase := h.base.load (h.locks.eq Stage.noConfusion hlock)
  have hput : s.load e = s.put e ((s.load e).inode e) := by
    unfold Store.load
    split_ifs
    · rw [put, update_eq_self]
    · rw [put_self]
  have hkey : ((s.load e).inode e).key = (s.inode e).key := by
    unfold Store.load
    split_ifs
    · rfl
    · rw [put_self]
      rfl
  generalize (s.load e).inode e = y at *
  rw [hput] at hbase ⊢
  refine h.step hlock Stage.noConfusion Stage.noConfusion hkey (fun hg => ?_) hbase
  unfold loaded at hg
  split_ifs at hg <;> cases hg

theorem Inv.unlock (hlock : (loc t).lock e = .locked false) :
    Inv (s.unlock e) (update loc t ((loc t).setLock e .unlocked)) (update stage e .unlocked) :=
  h.step hlock Stage.noConfusion Stage.noConfusion rfl (fun hg => Bool.noConfusion hg)
    (h.base.unlock (h.locks.eq Stage.noConfusion hlock))

theorem Inv.change {b : Bool} (hlock : (loc t).lock e = .locked b) (nlink : ℕ) (rest : β) :
    Inv (s.change e nlink rest) (update loc t ((loc t).setLock e (.locked true)))
      (update stage e (.locked true)) :=
  h.step hlock Stage.noConfusion Stage.noConfusion rfl (fun hg => Bool.noConfusion hg)
    (h.base.change (h.locks.eq Stage.noConfusion hlock) nlink rest)

theorem Inv.clearType (hlock : (loc t).lock e = .freeing) :
    Inv (s.clearType e) (update loc t ((loc t).setLock e .cleared)) (update stage e .cleared) :=
  h.step hlock Stage.noConfusion Stage.noConfusion rfl (fun _ => ⟨rfl, rfl⟩)
    (h.base.clearType (h.locks.eq Stage.noConfusion hlock))

omit [DecidableEq T] in
theorem Inv.itrunc [Rest β] (hlock : (loc t).lock e = .freeing) : Inv (s.itrunc e) loc stage := by
  have hst := h.locks.eq Stage.noConfusion hlock
  have hbase := h.base.itrunc hst
  refine ⟨hbase, ?_, h.locks⟩
  have hput := h.tidy.put_stage (e := e) (g := stage e)
    (y := { s.inode e with d := { (s.inode e).d with rest := Rest.trunc (s.inode e).d.rest } }) rfl
    (by rw [hst]; exact Stage.noConfusion) (h.tidy.freeing e)
  rwa [update_eq_self] at hput

theorem Inv.iupdate (hlock : (∃ b, (loc t).lock e = .locked b) ∨ ((loc t).lock e).ending = true) :
    Inv (s.iupdate e) (update loc t ((loc t).setLock e ((loc t).lock e).flushed))
      (update stage e ((loc t).lock e).flushed) := by
  have hne : (loc t).lock e ≠ .unlocked := by
    obtain ⟨b, hb⟩ | hend := hlock
    · rw [hb]
      exact Stage.noConfusion
    · exact ne_of_ending hend
  have hheld := h.locks.counted t e hne
  have hpos := lt_of_lt_of_le hheld (hold_le_total loc t e)
  have hagree := h.base.agree e hpos
  have hst := h.locks.mine t e hne
  rw [← hst] at hlock ⊢
  obtain ⟨b, hb⟩ | hend := hlock
  · rw [hb] at hagree ⊢
    exact h.setLock (h.base.iupdate hb) (h.tidy.write h.base hpos
      (by rw [hb]; exact Stage.noConfusion)
      (Or.inr hagree.2.1) fun hg => Bool.noConfusion hg) (Or.inr hne) hheld
  · obtain ⟨hone, hdisk, hnlink⟩ := h.tidy.freeing e hend
    have hbase := h.base.iupdate_ending hend
    cases hg : stage e with
    | freeing =>
      rw [hg] at hagree hbase
      exact h.setLock hbase (h.tidy.write h.base hpos (by rw [hg]; exact Stage.noConfusion)
        (Or.inr hagree.2.2) fun _ => ⟨hone, hnlink, hnlink⟩) (Or.inr hne) hheld
    | cleared =>
      rw [hg] at hagree hbase
      exact h.setLock hbase (h.tidy.write h.base hpos (by rw [hg]; exact Stage.noConfusion)
        (Or.inl ⟨rfl, hone⟩) fun hg => Bool.noConfusion hg) (Or.inr hne) hheld
    | unlocked | busy | locked _ | void =>
      rw [hg] at hend
      cases hend

theorem Inv.free (hheld : 0 < (loc t).hold e) (hunused : s.unused e = true)
    (hbusy : (s.inode e).busy = false) :
    Inv (s.lock e) (update loc t ((loc t).setLock e .freeing)) (update stage e .freeing) := by
  obtain ⟨hst, hone, hdisk, hbase⟩ := h.base.free hunused hbusy
  simp only [unused, Bool.and_eq_true, decide_eq_true_eq] at hunused
  refine h.setLock hbase (h.tidy.put_stage rfl (by rw [hst]; exact Stage.noConfusion) fun _ => ?_)
    (Or.inl hst) hheld
  exact ⟨hone, by rw [hdisk, hunused.2], hunused.2⟩

end

theorem total_give (hheld : 0 < (loc t).hold e) {l : Client}
    (hl : l.hold = update (loc t).hold e ((loc t).hold e - 1)) :
    total (update loc t l) = update (total loc) e (total loc e - 1) := by
  rw [total_set hl]
  congr 1
  omega

theorem Inv.drop (h : Inv s loc stage) (hheld : 0 < (loc t).hold e)
    (hself : (loc t).lock e ≠ .unlocked → 1 < (loc t).hold e) :
    Inv (s.drop e) (update loc t ((loc t).give e)) stage := by
  have hpos := lt_of_lt_of_le hheld (hold_le_total loc t e)
  have hmany : stage e ≠ .unlocked → 1 < total loc e := fun hst => h.locks.many hheld hst hself
  refine ⟨?_, ?_, h.locks.keep rfl fun e' hne => ?_⟩
  · rw [total_give hheld rfl]
    exact h.base.drop hpos hmany
  · rw [total_give hheld rfl, fresh_update, show ((loc t).give e).fresh = (loc t).fresh from rfl,
      update_eq_self]
    exact h.tidy.put_refs rfl (fun _ => hpos) (fun hn _ _ => by omega)
      fun hst => hmany (ne_of_ending hst)
  · have hold := h.locks.counted t e' hne
    change 0 < update (loc t).hold e ((loc t).hold e - 1) e'
    by_cases he : e' = e
    · subst he
      rw [update_self]
      have := hself hne
      omega
    · rwa [update_of_ne he]

theorem Inv.release (h : Inv s loc stage) (hlock : (loc t).lock e = .void) :
    Inv (s.release e) (update loc t (((loc t).setLock e .unlocked).give e))
      (update stage e .unlocked) := by
  have hst := h.locks.eq Stage.noConfusion hlock
  have hne : (loc t).lock e ≠ .unlocked := by
    rw [hlock]
    exact Stage.noConfusion
  have hheld := h.locks.counted t e hne
  have hpos := lt_of_lt_of_le hheld (hold_le_total loc t e)
  refine ⟨?_, ?_, h.locks.set (Or.inr hne) rfl fun e' hne' => ?_⟩
  · rw [total_give hheld rfl]
    exact h.base.release hst
  · rw [total_give hheld rfl, fresh_update,
      show (((loc t).setLock e .unlocked).give e).fresh = (loc t).fresh from rfl,
      update_eq_self]
    exact h.tidy.put rfl (fun _ => hpos) (fun hn _ _ hone => by omega) fun hg => Bool.noConfusion hg
  · change update (loc t).lock e .unlocked e' ≠ _ at hne'
    change 0 < update (loc t).hold e ((loc t).hold e - 1) e'
    by_cases he : e' = e
    · rw [he, update_self] at hne'
      exact absurd rfl hne'
    · rw [update_of_ne he] at hne' ⊢
      exact h.locks.counted t e' hne'

theorem Inv.alloc [Rest β] {type : ℕ} (h : Inv s loc stage) (hfree : (s.disk k).type = 0)
    (htype : type ≠ 0) :
    Inv (s.alloc k type) (update loc t { loc t with fresh := some k }) stage := by
  have htotal : total (update loc t { loc t with fresh := some k }) = total loc :=
    total_same rfl
  refine ⟨by rw [htotal]; exact h.base.alloc hfree type, ?_, h.locks.keep rfl (h.locks.counted t)⟩
  rw [htotal, fresh_update]
  exact h.tidy.alloc h.base hfree htype

end

theorem Inv.exec [Rest β] {o : Op β} {x : Unit} {b : Res o} {l : Client} {s' : Store β}
    (h : Inv s loc stage) (hrule : Rule (loc t) o) (hx : exec o x (loc t, s) = some (b, (l, s'))) :
    ∃ stage', Inv s' (update loc t l) stage' := by
  have hself : ∀ {s : Store β} {stage}, Inv s loc stage →
      ∃ stage', Inv s (update loc t (loc t)) stage' := fun {_ stage} h =>
    ⟨stage, by rwa [update_eq_self]⟩
  cases o with
  | iget k named =>
    simp only [Icache.exec] at hx
    split_ifs at hx with hnamed
    cases hg : s.iget k with
    | none =>
      rw [hg] at hx
      cases hx
      exact hself h
    | some p =>
      rw [hg] at hx
      cases hx
      refine ⟨stage, h.iget hg ?_⟩
      cases named with
      | false => exact Or.inr hrule
      | true =>
        refine Or.inl ⟨hrule, ?_⟩
        by_contra hlinked
        exact hnamed ⟨rfl, hlinked⟩
  | idup e =>
    cases hx
    exact ⟨stage, h.idup hrule.1 hrule.2.1 hrule.2.2⟩
  | refless e =>
    cases hx
    exact hself h
  | lock e =>
    simp only [Icache.exec] at hx
    split_ifs at hx with hbusy
    cases hx
    exact ⟨_, h.lock hrule (by simpa using hbusy)⟩
  | load e =>
    cases hx
    exact ⟨_, h.load hrule⟩
  | notLocked e =>
    cases hx
    exact hself h
  | unlock e =>
    cases hx
    exact ⟨_, h.unlock hrule⟩
  | iput e =>
    simp only [Icache.exec] at hx
    split_ifs at hx with hunused hbusy
    · cases hx
      exact hself h
    · cases hx
      exact ⟨_, h.free hrule.1 hunused (by simpa using hbusy)⟩
    · cases hx
      exact ⟨_, h.drop hrule.1 hrule.2⟩
  | itrunc e =>
    cases hx
    exact hself (h.itrunc hrule)
  | clearType e =>
    cases hx
    exact ⟨_, h.clearType hrule⟩
  | iupdate e =>
    cases hx
    exact ⟨_, h.iupdate hrule⟩
  | release e =>
    cases hx
    exact ⟨_, h.release hrule⟩
  | change e nlink rest =>
    obtain ⟨b, hb⟩ := hrule
    cases hx
    exact ⟨_, h.change hb nlink rest⟩
  | ialloc k type =>
    simp only [Icache.exec] at hx
    split_ifs at hx with hfree
    · cases hx
      exact ⟨_, h.alloc hfree hrule.1⟩
    · cases hx
      exact hself h

end Xv6Threads.Icache
