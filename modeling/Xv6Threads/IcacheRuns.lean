import Mathlib.Algebra.BigOperators.Ring.Finset
import Mathlib.Data.Fintype.BigOperators
import Xv6Threads.IcacheSafety

namespace Xv6Threads.Icache

open Function Store
open Atomic (Code)
open Locals (Follows)

variable {β T : Type} [Rest β] [Fintype T] {l : Client} {e : Ix} {t : T}

/-- The only panics are those for a full cache and a full disk. -/
def protocol (β T : Type) [Rest β] [Fintype T] : Locals.Protocol (ops β) T where
  inv s loc := ∃ stage, Inv s loc stage
  rule o l := Rule l o
  panics msg := msg = "iget: no inodes" ∨ msg = "ialloc: no inodes"

def Idle (l : Client) : Prop := (∀ e, Calm l e) ∧ l.fresh = none

theorem Idle.take (h : Idle l) (e : Ix) : Idle (l.take e) := ⟨h.1, rfl⟩

theorem Idle.give (h : Idle l) (e : Ix) : Idle (l.give e) := h

theorem Idle.set {g : Stage} {l' : Client} (h : Idle l) (hg : g = .unlocked ∨ ∃ b, g = .locked b)
    (hlock : l'.lock = update l.lock e g) (hfresh : l'.fresh = none) : Idle l' := by
  refine ⟨fun e' => ?_, hfresh⟩
  unfold Calm
  rw [hlock]
  by_cases he : e' = e
  · rw [he, update_self]
    exact hg
  · rw [update_of_ne he]
    exact h.1 e'

theorem follows_op {o : Op β} {Q : Res o → Client → Prop} (hrule : Rule l o)
    (h : ∀ s (loc : T → Client) stage x b l' s', Inv s loc stage → loc t = l →
      exec o x (l, s) = some (b, (l', s')) → Q b l') : Follows (protocol β T) t Q (op o) l := by
  refine Follows.perform hrule fun s loc x b l' s' hs hl hx => ?_
  obtain ⟨stage, hs⟩ := hs
  exact h s loc stage x b l' s' hs hl hx

theorem follows_iget {k : Key} {named : Bool} (h : ∀ e, Calm l e)
    (hrule : if named then l.fresh = none else l.fresh = some k) :
    Follows (protocol β T) t (fun _ => Idle) (iget k named : C β Unit) l := by
  refine (follows_op (o := .iget k named) (Q := fun b l' => b = none ∨ Idle l') hrule ?_).bind ?_
  · intro s loc stage x b l' s' _ _ hx
    simp only [exec] at hx
    split_ifs at hx
    cases hg : s.iget k with
    | none =>
      rw [hg] at hx
      cases hx
      exact Or.inl rfl
    | some p =>
      rw [hg] at hx
      cases hx
      exact Or.inr ⟨h, rfl⟩
  · rintro (_ | e) l' hb
    · exact Or.inl rfl
    · exact hb.resolve_left (Option.some_ne_none e)

theorem follows_iallocLoop {dev type : ℕ} (h : Idle l) (htype : type ≠ 0) (fuel inum : ℕ) :
    Follows (protocol β T) t (fun _ => Idle) (iallocLoop dev type fuel inum : C β Unit) l := by
  induction fuel generalizing inum with
  | zero => exact Or.inr rfl
  | succ fuel ih =>
    refine (follows_op (o := .ialloc (dev, inum) type) (Q := fun b l' =>
      if b = true then l' = { l with fresh := some (dev, inum) } else l' = l)
      ⟨htype, h.2⟩ ?_).bind ?_
    · intro s loc stage x b l' s' _ _ hx
      simp only [exec] at hx
      split_ifs at hx <;> cases hx <;> rfl
    · intro b l' hb
      cases b with
      | false =>
        obtain rfl : l' = l := hb
        exact ih (inum + 1)
      | true =>
        obtain rfl : l' = { l with fresh := some (dev, inum) } := hb
        exact follows_iget h.1 rfl

theorem follows_ilock (h : Idle l) (hheld : 0 < l.hold e) :
    Follows (protocol β T) t (fun _ => Idle) (ilock e : C β Unit) l := by
  refine (follows_op (o := .refless e) (Q := fun b l' => b = false ∧ l = l') trivial ?_).bind ?_
  · intro s loc stage x b l' s' hs hl hx
    cases hx
    subst hl
    have hpos := lt_of_lt_of_le hheld (hold_le_total loc t e)
    refine ⟨?_, rfl⟩
    simp only [hs.base.ref, decide_eq_false_iff_not]
    omega
  rintro b l' ⟨rfl, rfl⟩
  refine (follows_op (o := .lock e) (Q := fun _ l' => l' = l.setLock e .busy) hheld ?_).bind ?_
  · intro s loc stage x b l' s' _ _ hx
    simp only [exec] at hx
    split_ifs at hx
    cases hx
    rfl
  rintro _ l' rfl
  refine (follows_op (o := .load e)
    (Q := fun b l' => b = true ∧ l' = (l.setLock e .busy).setLock e (.locked false))
    (show (l.setLock e .busy).lock e = .busy from update_self ..) ?_).bind ?_
  · intro s loc stage x b l' s' hs hl hx
    have hlock : (loc t).lock e = .busy := by
      rw [hl]
      exact update_self ..
    have hst := hs.locks.eq Stage.noConfusion hlock
    have hpos := hs.base.counted e (by rw [hst]; exact Stage.noConfusion)
    have hagree := hs.base.agree e hpos
    rw [hst] at hagree
    -- somebody would have to be freeing an inode without a type
    have hdisk : (s.disk (s.inode e).key).type ≠ 0 := fun h0 => by
      have hvoid := (hs.tidy.vacant e hpos h0).1
      rw [hst] at hvoid
      cases hvoid
    have htype : ((s.load e).inode e).d.type ≠ 0 := by
      unfold load
      split_ifs with hvalid
      · exact (hagree hvalid).2
      · rw [put_self]
        exact hdisk
    cases hx
    refine ⟨?_, by rw [loaded, if_neg htype]⟩
    simp [htype]
  rintro b l' ⟨rfl, rfl⟩
  refine h.set (e := e) (g := .locked false) (Or.inr ⟨false, rfl⟩) ?_ h.2
  exact update_idem ..

theorem follows_iunlock (h : Idle l) (hlock : l.lock e = .locked false) :
    Follows (protocol β T) t (fun _ => Idle) (iunlock e : C β Unit) l := by
  refine (follows_op (o := .notLocked e) (Q := fun b l' => b = false ∧ l = l') trivial ?_).bind ?_
  · intro s loc stage x b l' s' hs hl hx
    cases hx
    subst hl
    have hst := hs.locks.eq Stage.noConfusion hlock
    have hne : stage e ≠ .unlocked := by
      rw [hst]
      exact Stage.noConfusion
    have hpos := hs.base.counted e hne
    refine ⟨?_, rfl⟩
    simp only [(hs.base.busy e).mpr hne, hs.base.ref, Bool.not_true, Bool.false_or,
      decide_eq_false_iff_not]
    omega
  rintro b l' ⟨rfl, rfl⟩
  refine follows_op hlock fun s loc stage x b l' s' _ _ hx => ?_
  cases hx
  exact h.set (Or.inl rfl) rfl h.2

/-- The window in which `iput` does not hold `icache.lock`. -/
theorem follows_free (h : Idle l) :
    Follows (protocol β T) t (fun _ => Idle) ((do
      itrunc e; op (.clearType e); op (.iupdate e); op (.release e)) : C β Unit)
      (l.setLock e .freeing) := by
  have hself : ∀ (l : Client) g, (l.setLock e g).lock e = g := fun l g => update_self ..
  have hagain : ∀ (l : Client) g g', (l.setLock e g).setLock e g' = l.setLock e g' := fun l g g' =>
    congrArg (fun x => { l with lock := x }) (update_idem ..)
  refine Follows.bind (Q := fun _ l' => l' = l.setLock e .freeing) ?_ ?_
  · refine (follows_op (o := .itrunc e) (Q := fun _ l' => l' = l.setLock e .freeing)
      (hself l _) ?_).bind ?_
    · intro s loc stage x b l' s' _ _ hx
      cases hx
      rfl
    · rintro _ l' rfl
      refine follows_op (Or.inr (by rw [hself]; rfl)) fun s loc stage x b l' s' _ _ hx => ?_
      cases hx
      rw [hagain, hself]
      rfl
  rintro _ l' rfl
  refine (follows_op (o := .clearType e) (Q := fun _ l' => l' = l.setLock e .cleared)
    (hself l _) ?_).bind ?_
  · intro s loc stage x b l' s' _ _ hx
    cases hx
    exact hagain l _ _
  rintro _ l' rfl
  refine (follows_op (o := .iupdate e) (Q := fun _ l' => l' = l.setLock e .void)
    (Or.inr (by rw [hself]; rfl)) ?_).bind ?_
  · intro s loc stage x b l' s' _ _ hx
    cases hx
    rw [hagain, hself]
    rfl
  rintro _ l' rfl
  refine follows_op (hself l _) fun s loc stage x b l' s' _ _ hx => ?_
  cases hx
  rw [hagain]
  have hset : Idle (l.setLock e .unlocked) := h.set (Or.inl rfl) rfl h.2
  exact hset.give e

theorem follows_iput (h : Idle l) (hheld : 0 < l.hold e)
    (hself : l.lock e ≠ .unlocked → 1 < l.hold e) :
    Follows (protocol β T) t (fun _ => Idle) (iput e : C β Unit) l := by
  refine (follows_op (o := .iput e) (Q := fun (b : Put) l' => b = .dropped ∧ l' = l.give e ∨
    b = .free ∧ l' = l.setLock e .freeing) ⟨hheld, hself⟩ ?_).bind ?_
  · intro s loc stage x b l' s' hs hl hx
    subst hl
    simp only [exec] at hx
    split_ifs at hx with hunused hbusy
    · -- the process that has the lock has a reference too
      have hst := (hs.base.busy e).mp hbusy
      have hmany := hs.locks.many hheld hst hself
      simp only [unused, Bool.and_eq_true, decide_eq_true_eq, hs.base.ref] at hunused
      omega
    · cases hx
      exact Or.inr ⟨rfl, rfl⟩
    · cases hx
      exact Or.inl ⟨rfl, rfl⟩
  · rintro b l' (⟨rfl, rfl⟩ | ⟨rfl, rfl⟩)
    · exact h.give e
    · exact follows_free h

theorem follows_body (ninodes : ℕ) (c : Call β) (h : Idle l) (hmay : may l c) :
    Follows (protocol β T) t (fun _ => Idle) (body ninodes c) l := by
  cases c with
  | iget k => exact follows_iget h.1 h.2
  | idup e =>
    refine follows_op ⟨hmay, h.1 e, h.2⟩ fun s loc stage x b l' s' _ _ hx => ?_
    cases hx
    exact h.take e
  | ilock e => exact follows_ilock h hmay
  | iunlock e => exact follows_iunlock h hmay
  | iput e => exact follows_iput h hmay.1 hmay.2
  | ialloc dev type => exact follows_iallocLoop h hmay _ _
  | iupdate e =>
    obtain ⟨b, hb⟩ := hmay
    refine follows_op (Or.inl ⟨b, hb⟩) fun s loc stage x _ l' s' _ _ hx => ?_
    cases hx
    exact h.set (Or.inr ⟨false, by rw [hb]; rfl⟩) rfl h.2
  | change e nlink rest =>
    refine follows_op hmay fun s loc stage x _ l' s' _ _ hx => ?_
    cases hx
    exact h.set (Or.inr ⟨true, rfl⟩) rfl h.2

variable [DecidableEq T]

abbrev Sys (β T : Type) [Rest β] := Locals.Sys (ops β) T

abbrev Act (β T : Type) := Atomic.Act T (Call β) Unit

/-- The cache is empty and nobody has anything; the disk is any. -/
def start (s : Sys β T) : Prop :=
  (∀ e, (s.shared.inode e).ref = 0 ∧ (s.shared.inode e).busy = false) ∧
  ∀ t, s.loc t = ⟨fun _ => 0, fun _ => .unlocked, none⟩ ∧ s.code t = none

def Obeys (s : Sys β T) : Act β T → Prop
  | .call t c => may (s.loc t) c
  | _ => True

abbrev Reachable (ninodes : ℕ) : Sys β T → Prop :=
  Reach start Obeys fun s a s' => Locals.step (body ninodes) s a = some s'

omit [DecidableEq T] in
theorem inv_start {s : Sys β T} (h : start s) : Inv s.shared s.loc fun _ => .unlocked := by
  obtain ⟨hempty, hidle⟩ := h
  have htotal : total s.loc = fun _ => 0 := by
    funext e
    exact Finset.sum_eq_zero fun t _ => by rw [(hidle t).1]
  refine ⟨⟨fun e => ?_, fun e => ?_, fun e hne => absurd rfl hne, fun e e' hpos => ?_, fun e hpos =>
    ?_⟩,
    ⟨fun e hpos => ?_, fun e hst => Bool.noConfusion hst, fun t k ht => ?_, fun t u k ht => ?_⟩,
    ⟨fun t e hne => ?_, fun e hne => absurd rfl hne, fun t u e hne => ?_, fun t e hne => ?_⟩⟩
  · rw [htotal, (hempty e).1]
    rfl
  · rw [(hempty e).2]
    simp
  · rw [htotal] at hpos
    exact absurd hpos (lt_irrefl 0)
  · rw [htotal] at hpos
    exact absurd hpos (lt_irrefl 0)
  · rw [htotal] at hpos
    exact absurd hpos (lt_irrefl 0)
  · rw [(hidle t).1] at ht
    cases ht
  · rw [(hidle t).1] at ht
    cases ht
  · rw [(hidle t).1] at hne
    exact absurd rfl hne
  · rw [(hidle t).1] at hne
    exact absurd rfl hne
  · rw [(hidle t).1] at hne
    exact absurd rfl hne

theorem Reachable.inv {ninodes : ℕ} {s : Sys β T} (h : Reachable ninodes s) :
    Locals.Inv (protocol β T) Idle s := by
  apply Reach.invariant (P := Locals.Inv (protocol β T) Idle) _ _ h
  · intro s hs
    refine ⟨⟨_, inv_start hs⟩, fun t => ?_⟩
    rw [(hs.2 t).1, (hs.2 t).2]
    exact ⟨fun _ => Or.inl rfl, rfl⟩
  · intro s a s' hs hok hstep
    have hbody : ∀ (t : T) c l, Idle l → may l c → Follows (protocol β T) t (fun _ =>
        Idle) (body ninodes c) l :=
      fun t c l hl hmay => follows_body ninodes c hl hmay
    refine hs.step ?_ hbody ?_ hstep
    · rintro t o s loc x b l' s' ⟨stage, hs⟩ hrule hx
      exact hs.exec hrule hx
    · rintro t c rfl
      exact hok

omit [Fintype T] [DecidableEq T] in
theorem exec_disk {o : Op β} {x : Unit} {b : Res o} {s s' : Store β} {l' : Client}
    (hx : exec o x (l, s) = some (b, (l', s'))) :
    s'.disk = s.disk ∨ (∃ e, o = .iupdate e ∧ s' = s.iupdate e) ∨
      ∃ k type, o = .ialloc k type ∧ s' = s.alloc k type := by
  have hput : ∀ e y, (s.put e y).disk = s.disk := fun _ _ => rfl
  cases o with
  | iget k named =>
    simp only [exec] at hx
    split_ifs at hx
    cases hg : s.iget k with
    | none =>
      rw [hg] at hx
      cases hx
      exact Or.inl rfl
    | some p =>
      rw [hg] at hx
      cases hx
      obtain ⟨-, -, heq⟩ | ⟨-, -, heq⟩ := iget_cases hg <;> rw [heq] <;> exact Or.inl rfl
  | lock e =>
    simp only [exec] at hx
    split_ifs at hx
    cases hx
    exact Or.inl rfl
  | load e =>
    cases hx
    unfold load
    split_ifs <;> exact Or.inl rfl
  | iput e =>
    simp only [exec] at hx
    split_ifs at hx <;> cases hx <;> exact Or.inl rfl
  | iupdate e =>
    cases hx
    exact Or.inr (Or.inl ⟨e, rfl, rfl⟩)
  | ialloc k type =>
    simp only [exec] at hx
    split_ifs at hx
    · cases hx
      exact Or.inr (Or.inr ⟨k, type, rfl, rfl⟩)
    · cases hx
      exact Or.inl rfl
  | idup e | refless e | notLocked e | unlock e | itrunc e | clearType e | release e
  | change e nlink rest =>
    cases hx
    exact Or.inl rfl

omit [DecidableEq T] in
/-- An inode is freed by the process with the only reference to it. -/
theorem Inv.freed {stage : Ix → Stage} {loc : T → Client} {o : Op β} {x : Unit} {b : Res o}
    {s s' : Store β} {l' : Client} {k : Key} (h : Inv s loc stage) (hrule : Rule (loc t) o)
    (hx : Icache.exec o x (loc t, s) = some (b, (l', s'))) (htype : (s.disk k).type ≠ 0)
    (hfreed : (s'.disk k).type = 0) :
    ∃ e, (s.inode e).key = k ∧ (s.inode e).ref = 1 ∧ (loc t).hold e = 1 := by
  obtain hsame | ⟨e, rfl, rfl⟩ | ⟨k', type, rfl, rfl⟩ := exec_disk hx
  · rw [hsame] at hfreed
    exact absurd hfreed htype
  · have hkey : (s.inode e).key = k := by
      by_contra hne
      have hsame : (s.iupdate e).disk k = s.disk k := update_of_ne (Ne.symm hne) ..
      rw [hsame] at hfreed
      exact htype hfreed
    have hd : (s.iupdate e).disk k = (s.inode e).d := by
      rw [← hkey]
      exact update_self ..
    rw [hd] at hfreed
    have hne : (loc t).lock e ≠ .unlocked := by
      obtain ⟨b, hb⟩ | hend := hrule
      · rw [hb]
        exact Stage.noConfusion
      · exact Stage.ne_of_ending hend
    have hheld := h.locks.counted t e hne
    have hle := hold_le_total loc t e
    have hagree := h.base.agree e (by omega)
    have hst := h.locks.mine t e hne
    obtain ⟨b, hb⟩ | hend := hrule
    · rw [hst, hb] at hagree
      exact absurd hfreed hagree.2.1
    · have hone := (h.tidy.freeing e (by rwa [hst])).1
      exact ⟨e, hkey, by rw [h.base.ref, hone]; rfl, by omega⟩
  · by_cases hk : k = k'
    · subst hk
      have hd : (s.alloc k type).disk k = ⟨type, 0, Rest.zero⟩ := update_self ..
      rw [hd] at hfreed
      exact absurd hfreed hrule.1
    · have hsame : (s.alloc k' type).disk k = s.disk k := update_of_ne hk ..
      rw [hsame] at hfreed
      exact absurd hfreed htype

/-- The protocol of the inode cache. -/
theorem inode_cache_protocol {ninodes : ℕ} {s : Sys β T} (h : Reachable ninodes s) :
    (∀ e e', 0 < (s.shared.inode e).ref → 0 < (s.shared.inode e').ref →
      (s.shared.inode e).dev = (s.shared.inode e').dev →
      (s.shared.inode e).inum = (s.shared.inode e').inum → e = e') ∧
    (∀ e, (s.shared.inode e).ref = ∑ t, ((s.loc t).hold e : ℤ)) ∧
    (∀ e t u, (s.loc t).lock e ≠ .unlocked → (s.loc u).lock e ≠ .unlocked → t = u) ∧
    (∀ e, 0 < (s.shared.inode e).ref → (s.shared.inode e).valid = true →
      (s.shared.inode e).busy = false →
      s.shared.disk ((s.shared.inode e).dev, (s.shared.inode e).inum) = (s.shared.inode e).d) ∧
    (∀ a s' dev inum, Locals.step (body ninodes) s a = some s' →
      (s.shared.disk (dev, inum)).type ≠ 0 → (s'.shared.disk (dev, inum)).type = 0 →
      ∃ t e, a = .go t () ∧ (s.shared.inode e).dev = dev ∧ (s.shared.inode e).inum = inum ∧
        (s.shared.inode e).ref = 1 ∧ (s.loc t).hold e = 1) ∧
    ∀ t, s.code t ≠ some (.panic "iput busy") := by
  have hinv := h.inv
  obtain ⟨stage, hs⟩ := hinv.inv
  have hpos : ∀ e, 0 < (s.shared.inode e).ref → 0 < total s.loc e := fun e he => by
    rw [hs.base.ref] at he
    exact_mod_cast he
  refine ⟨fun e e' he he' hdev hinum => ?_, fun e => ?_, fun e t u => hs.locks.alone t u e,
    fun e he hvalid hbusy => ?_, fun a s' dev inum hstep htype hfreed => ?_, fun t ht => ?_⟩
  · exact hs.base.uniq e e' (hpos e he) (hpos e' he') (Prod.ext hdev hinum)
  · rw [hs.base.ref, total, Nat.cast_sum]
  · have hst : stage e = .unlocked := by
      by_contra hne
      rw [(hs.base.busy e).mpr hne] at hbusy
      cases hbusy
    have hagree := hs.base.agree e (hpos e he)
    rw [hst] at hagree
    exact (hagree hvalid).1
  · cases a with simp only [Locals.step] at hstep
    | call | ret =>
      split at hstep <;> cases hstep
      exact absurd hfreed htype
    | go t x =>
      split at hstep
      · rename_i o k hcode
        obtain ⟨⟨b, l, s₁⟩, hx, rfl⟩ := Option.map_eq_some_iff.mp hstep
        obtain ⟨e, hkey, href, hhold⟩ := hs.freed (hinv.rule hcode) hx htype hfreed
        exact ⟨t, e, rfl, congrArg Prod.fst hkey, congrArg Prod.snd hkey, href, hhold⟩
      · cases hstep
  · rcases hinv.panics ht with hmsg | hmsg <;> exact absurd hmsg (by decide)

instance : Rest Unit := ⟨(), id⟩

instance (l : Client) : (c : Call Unit) → Decidable (may l c)
  | .iget _ => inferInstanceAs (Decidable True)
  | .idup _ | .ilock _ => inferInstanceAs (Decidable (_ < _))
  | .iunlock _ => inferInstanceAs (Decidable (_ = _))
  | .iput _ => inferInstanceAs (Decidable (_ ∧ _))
  | .ialloc _ _ => inferInstanceAs (Decidable (_ ≠ _))
  | .iupdate _ | .change _ _ _ => inferInstanceAs (Decidable (∃ _, _))

def emptyDisk : Sys Unit Bool where
  shared := ⟨fun _ => ⟨0, 0, 0, false, false, 0, 0, ()⟩, fun _ => ⟨0, 0, ()⟩⟩
  loc _ := ⟨fun _ => 0, fun _ => .unlocked, none⟩
  code _ := none

/-- While one process frees an inode, the other one allocates it again and locks it. -/
theorem inode_cache_protocol_window : ∃ s : Sys Unit Bool, Reachable 3 s ∧
    (s.loc true).lock 0 = .locked false ∧ (s.loc true).hold 0 = 1 ∧ (s.loc false).hold 0 = 0 ∧
    (s.shared.inode 0).ref = 1 := by
  have hstart : Reachable 3 emptyDisk := .start ⟨fun _ => ⟨rfl, rfl⟩, fun _ => ⟨rfl, rfl⟩⟩
  let go (t : Bool) (n : ℕ) : List (Act Unit Bool) := List.replicate n (.go t ())
  obtain ⟨s, hs, hp⟩ := Reach.exists_of_execs
    (fun s a => match a with | .call t c => decide (may (s.loc t) c) | _ => true)
    (Locals.step (body 3))
    (fun s => decide ((s.loc true).lock 0 = .locked false ∧ (s.loc true).hold 0 = 1 ∧
      (s.loc false).hold 0 = 0))
    (fun s a ha => by
      cases a with
      | call t c => exact of_decide_eq_true (p := may (s.loc t) c) ha
      | go t x => trivial
      | ret t => trivial)
    (fun _ _ _ h => h)
    ([.call false (.ialloc 1 2)] ++ go false 2 ++ [.ret false, .call false (.ilock 0)] ++
      go false 3 ++
      [.ret false, .call false (.iunlock 0)] ++ go false 2 ++ [.ret false, .call false (.iput 0)] ++
      go false 5 ++ [.call true (.ialloc 1 2)] ++ go true 2 ++ [.ret true] ++ go false 1 ++
      [.ret false, .call true (.ilock 0)] ++ go true 3 ++ [.ret true]) hstart (by decide +kernel)
  obtain ⟨hlock, htrue, hfalse⟩ := of_decide_eq_true hp
  refine ⟨s, hs, hlock, htrue, hfalse, ?_⟩
  rw [(inode_cache_protocol hs).2.1 0, Fintype.sum_bool, htrue, hfalse]
  rfl

end Xv6Threads.Icache
