import Xv6Threads.Fs.Paths
import Xv6Threads.Fs.ProcCalls
import Xv6Threads.Fs.SmallVolume

namespace Xv6Threads.Fs

open Bytes Multiset

abbrev Any : Stop → Prop := fun _ => True

variable {α β : Type} {s t u : Vol} {e : Ix}

/-- Blocks have been logged, and inside an operation `log_write` has panicked only because there
were too many of them. -/
structure Logs (s t : Vol) : Prop where
  subset : s.logged ⊆ t.logged
  keeps : ∀ msg, s.panicked = some msg → t.panicked = some msg
  room : s.panicked = none → 1 ≤ s.outstanding → t.panicked = none ∨
    t.panicked = some "too big a transaction" ∧ nlog - 1 ≤ t.logged.card
  full : t.panicked = none → s.logged.card ≤ nlog - 1 → t.logged.card ≤ nlog - 1

theorem Logs.of_eq (hlogged : t.logged = s.logged) (hpan : t.panicked = s.panicked) : Logs s t where
  subset := hlogged ▸ Finset.Subset.refl _
  keeps _ hmsg := hpan.trans hmsg
  room hnone _ := .inl (hpan.trans hnone)
  full _ := hlogged ▸ id

/-- One `log_write`. -/
theorem Logs.log {b : ℕ} (hlogged : t.logged = insert b s.logged)
    (hpan : t.panicked = s.panicked.or s.logPanic) : Logs s t := by
  have hsub : s.logged ⊆ t.logged := hlogged ▸ Finset.subset_insert b s.logged
  have hcard := Finset.card_le_card hsub
  refine ⟨hsub, fun msg hmsg => ?_, fun hnone hop => ?_, fun hnone _ => ?_⟩
  · rw [hpan, hmsg]
    rfl
  · rw [hpan, hnone, Option.none_or, Vol.logPanic]
    split_ifs with hbig hout
    · exact .inr ⟨rfl, by simp only [LOGSIZE, nlog] at *; omega⟩
    · omega
    · exact .inl rfl
  · -- the test has found room for one more block
    rw [hpan, Option.or_eq_none_iff, Vol.logPanic] at hnone
    have hinsert := Finset.card_insert_le b s.logged
    rw [hlogged]
    split_ifs at hnone with hbig
    · cases hnone.2
    · simp only [LOGSIZE, nlog] at *
      omega
    · simp only [LOGSIZE, nlog] at *
      omega

theorem Logs.trans (h : Logs s t) (h' : Logs t u) (hout : t.outstanding = s.outstanding) :
    Logs s u where
  subset := h.subset.trans h'.subset
  keeps msg hmsg := h'.keeps msg (h.keeps msg hmsg)
  room hnone hop := by
    rcases h.room hnone hop with ht | ⟨ht, hcard⟩
    · exact h'.room ht (hout ▸ hop)
    · exact .inr ⟨h'.keeps _ ht, hcard.trans (Finset.card_le_card h'.subset)⟩
  full hnone hcard := by
    refine h'.full hnone (h.full ?_ hcard)
    cases ht : t.panicked with
    | none => rfl
    | some msg =>
      rw [h'.keeps msg ht] at hnone
      cases hnone

/-- No reference is taken or given up, no lock and no operation. -/
structure Same (s t : Vol) : Prop where
  ref : ∀ e, (t.icache e).ref = (s.icache e).ref
  busy : ∀ e, (t.icache e).busy = (s.icache e).busy
  ops : t.ops = s.ops
  outstanding : t.outstanding = s.outstanding
  logs : Logs s t

theorem Same.refl (s : Vol) : Same s s :=
  ⟨fun _ => rfl, fun _ => rfl, rfl, rfl, Logs.of_eq rfl rfl⟩

theorem Same.trans (h : Same s t) (h' : Same t u) : Same s u :=
  ⟨fun e => (h'.ref e).trans (h.ref e), fun e => (h'.busy e).trans (h.busy e),
    h'.ops.trans h.ops, h'.outstanding.trans h.outstanding, h.logs.trans h'.logs h.outstanding⟩

def Quiet (c : M α) : Prop := ∀ s, wp c (fun _ t => Same s t) Any s

namespace Quiet

theorem pure (a : α) : Quiet (Pure.pure a : M α) := fun s => wp_pure (Same.refl s)

theorem stop (msg : String) : Quiet (panic msg : M α) := fun _ => wp_throw trivial

theorem get : Quiet (MonadState.get : M Vol) := fun s => wp_get (Same.refl s)

theorem bind {c : M α} {f : α → M β} (hc : Quiet c) (hf : ∀ a, Quiet (f a)) : Quiet (c >>= f) := by
  intro s
  apply wp_call (hc s)
  intro a t ht
  apply wp_conseq (hf a t)
  intro b u hu
  exact ht.trans hu

theorem ite {p : Prop} [Decidable p] {c d : M α} (hc : Quiet c) (hd : Quiet d) :
    Quiet (if p then c else d) := fun s => wp_ite (fun _ => hc s) fun _ => hd s

theorem dite {p : Prop} [Decidable p] {c : p → M α} {d : ¬p → M α} (hc : ∀ h, Quiet (c h))
    (hd : ∀ h, Quiet (d h)) : Quiet (dite p c d) := by
  by_cases h : p
  · rw [dif_pos h]
    exact hc h
  · rw [dif_neg h]
    exact hd h

theorem modify {f : Vol → Vol} (h : ∀ s, Same s (f s)) : Quiet (modify f : M Unit) :=
  fun s => wp_modify (h s)

theorem upto {f : ℕ → M Unit} (h : ∀ k, Quiet (f k)) (n : ℕ) : Quiet (upto f n) := by
  intro s
  apply wp_upto (fun _ => Same s) (Same.refl s)
  intro k t _ ht
  apply wp_conseq (h k t)
  intro _ u hu
  exact ht.trans hu

variable (e : Ix)

theorem inode : Quiet (inode e) := get.bind fun _ => pure _

theorem bread (b : ℕ) : Quiet (bread b) := get.bind fun _ => pure _

theorem logWrite (b : ℕ) (data : Block) : Quiet (logWrite b data) :=
  modify fun _ => ⟨fun _ => rfl, fun _ => rfl, rfl, rfl, Logs.log rfl rfl⟩

theorem setD (f : Dinode → Dinode) : Quiet (setD e f) := by
  refine modify fun s => ⟨fun x => ?_, fun x => ?_, rfl, rfl, Logs.of_eq rfl rfl⟩ <;>
  · dsimp only
    split_ifs with h
    · rw [h]
    · rfl

theorem iupdate : Quiet (iupdate e) := get.bind fun _ => logWrite _ _

theorem setIupdate (f : Dinode → Dinode) : Quiet (do Fs.setD e f; Fs.iupdate e) :=
  (setD e f).bind fun _ => iupdate e

theorem balloc : Quiet balloc := by
  apply get.bind
  intro s
  split
  · exact (logWrite _ _).bind fun _ => (logWrite _ _).bind fun _ => pure _
  · exact stop _

theorem readsb : Quiet readsb :=
  modify fun _ => ⟨fun _ => rfl, fun _ => rfl, rfl, rfl, Logs.of_eq rfl rfl⟩

theorem bfree (b : ℕ) : Quiet (bfree b) :=
  readsb.bind fun _ => get.bind fun _ => ite (logWrite _ _) (stop _)

theorem addrOf (i : Fin (NDIRECT + 1)) : Quiet (addrOf e i) :=
  (inode e).bind fun _ => ite (pure _) (balloc.bind fun _ => (setD _ _).bind fun _ => pure _)

theorem entryOf (ib j : ℕ) : Quiet (entryOf ib j) :=
  (bread ib).bind fun _ => ite (pure _)
    (balloc.bind fun _ => (bread ib).bind fun _ => (logWrite _ _).bind fun _ => pure _)

theorem bmap (bn : ℕ) : Quiet (bmap e bn) :=
  dite (fun _ => addrOf _ _) fun _ => ite ((addrOf _ _).bind fun _ => entryOf _ _) (stop _)

theorem truncDirect (i : ℕ) : Quiet (truncDirect e i) :=
  (inode e).bind fun _ => dite (fun _ => ite ((bfree _).bind fun _ => setD _ _) (pure _))
    fun _ => pure _

theorem truncRest : Quiet (truncRest e) := by
  apply (inode e).bind
  intro _
  apply ite _ (pure _)
  have hloop : ∀ ib j, Quiet (truncIndirect ib j) := fun ib j =>
    (bread ib).bind fun _ => ite (bfree _) (pure _)
  exact (upto (hloop _) _).bind fun _ => (bfree _).bind fun _ => setD _ _

theorem itrunc : Quiet (itrunc e) :=
  (upto (truncDirect e) _).bind fun _ => (truncRest e).bind fun _ => setIupdate _ _

theorem readLoop (n fuel : ℕ) : ∀ tot off dst, Quiet (readLoop e n fuel tot off dst) := by
  induction fuel with
  | zero => exact fun _ _ _ => pure _
  | succ fuel ih =>
    intro tot off dst
    exact ite ((bmap _ _).bind fun _ => (bread _).bind fun _ => ih _ _ _) (pure _)

theorem readi (off n : ℕ) : Quiet (readi e off n) := by
  apply (inode e).bind
  intro ip
  apply ite
  · apply get.bind
    intro s
    split <;> exact pure _
  · exact ite (pure _) ((readLoop e _ _ _ _ _).bind fun _ => pure _)

theorem writeLoop (src : ℕ → Byte) (n fuel : ℕ) :
    ∀ tot off, Quiet (writeLoop e src n fuel tot off) := by
  induction fuel with
  | zero => exact fun _ _ => pure _
  | succ fuel ih =>
    intro tot off
    exact ite ((bmap _ _).bind fun _ => (bread _).bind fun _ => (logWrite _ _).bind fun _ =>
      ih _ _) (pure _)

theorem writei (src : ℕ → Byte) (off n : ℕ) : Quiet (writei e src off n) := by
  apply (inode e).bind
  intro ip
  apply ite
  · apply get.bind
    intro s
    split <;> exact pure _
  · refine ite (pure _) (ite (pure _) ((writeLoop e src n n 0 off).bind fun _ => ?_))
    exact ((inode e).bind fun _ => ite (setIupdate _ _) (pure _)).bind fun _ => pure _

theorem emptyLoop (fuel : ℕ) : ∀ off, Quiet (emptyLoop e fuel off) := by
  induction fuel with
  | zero => exact fun _ => pure _
  | succ fuel ih =>
    intro off
    exact (inode e).bind fun _ => ite ((readi _ _ _).bind fun _ =>
      ite (stop _) (ite (pure _) (ih _))) (pure _)

theorem isdiremptyLoop (fuel : ℕ) : ∀ off, Quiet (isdiremptyLoop e fuel off) := by
  induction fuel with
  | zero => exact fun _ => pure _
  | succ fuel ih =>
    intro off
    exact (inode e).bind fun _ => ite ((readi _ _ _).bind fun _ =>
      ite (stop _) (ite (pure _) (ih _))) (pure _)

theorem inUse (ip : Ix) (type : ℕ) : Quiet (inUse ip type) :=
  ite (((inode ip).bind fun _ => isdiremptyLoop _ _ _).bind fun _ => pure _) (pure _)

theorem unlinkParent (dp : Ix) (type : ℕ) : Quiet (unlinkParent dp type) :=
  ite (setIupdate _ _) (pure _)

variable (mem : Memory)

theorem loaduvm (ip : Ix) (addr off sz : ℕ) : Quiet (loaduvm mem ip addr off sz) := by
  have hloop : ∀ fuel i, Quiet (loadLoop mem ip addr off sz fuel i) := by
    intro fuel
    induction fuel with
    | zero => exact fun _ => pure _
    | succ fuel ih =>
      intro i
      exact ite (ite ((readi _ _ _).bind fun _ => ite (pure _) (ih _)) (stop _)) (pure _)
  exact ite (stop _) (hloop _ _)

theorem loadSegments (ip : Ix) (n : ℕ) : ∀ off sz, Quiet (loadSegments mem ip n off sz) := by
  induction n with
  | zero => exact fun _ _ => pure _
  | succ n ih =>
    intro off sz
    exact (readi _ _ _).bind fun _ => ite (pure _) (ite (ih _ _) (ite (pure _) (ite (pure _)
      ((loaduvm _ _ _ _ _).bind fun _ => ite (pure _) (ih _ _)))))

theorem loadProgram (ip : Ix) : Quiet (loadProgram mem ip) :=
  (readi _ _ _).bind fun _ => ite (pure _) (ite (pure _) (ite (loadSegments _ _ _ _ _) (pure _)))

end Quiet

/-- Besides the references `R` and the locks `B`, the process holds the references `H` and at most
the locks `L`; `k` operations are outstanding, `j` have ended. -/
structure Bal (R : Ix → ℤ) (B : Ix → Prop) (k : ℤ) (j : ℕ) (H : Multiset Ix) (L : Finset Ix)
    (s : Vol) : Prop where
  ref : ∀ e, (s.icache e).ref = R e + H.count e
  busy : ∀ e, (s.icache e).busy = true → B e ∨ e ∈ L
  outstanding : s.outstanding = k
  ended : s.ops.length = j

variable {R : Ix → ℤ} {B : Ix → Prop} {k : ℤ} {j : ℕ} {H H' : Multiset Ix} {L L' : Finset Ix}

namespace Bal

section

variable (h : Bal R B k j H L s)
include h

theorem same (hs : Same s t) : Bal R B k j H L t := by
  refine ⟨?_, ?_, hs.outstanding.trans h.outstanding, by rw [hs.ops, h.ended]⟩
  · intro e
    rw [hs.ref, h.ref]
  · intro e
    rw [hs.busy]
    exact h.busy e

theorem quiet {c : M α} (hc : Quiet c) : wp c (fun _ => Bal R B k j H L) Any s :=
  wp_conseq (hc s) fun _ _ hs => h.same hs

theorem put {y : Inode} (href : y.ref = R e + H'.count e)
    (hcount : ∀ x ≠ e, H'.count x = H.count x) (hbusy : y.busy = true → B e ∨ e ∈ L')
    (hL : ∀ x ≠ e, x ∈ L → x ∈ L') : Bal R B k j H' L' (s.put e y) := by
  refine ⟨?_, ?_, h.outstanding, h.ended⟩
  · intro x
    rw [Vol.put_icache]
    split_ifs with hx
    · rw [hx, href]
    · rw [h.ref, hcount x hx]
  · intro x
    rw [Vol.put_icache]
    split_ifs with hx
    · rw [hx]
      exact hbusy
    · intro hb
      exact (h.busy x hb).imp_right (hL x hx)

theorem begin : wp beginOp (fun _ => Bal R B (k + 1) j H L) Any s :=
  wp_modify ⟨h.ref, h.busy, by rw [← h.outstanding], h.ended⟩

theorem take (e : Ix) :
    Bal R B k j (e ::ₘ H) L (s.put e { s.icache e with ref := (s.icache e).ref + 1 }) := by
  refine h.put ?_ (fun _ hx => count_cons_of_ne hx H) (h.busy _) fun _ _ => id
  rw [h.ref, count_cons_self]
  push_cast
  omega

theorem lock (e : Ix) : Bal R B k j H (insert e L) (s.put e { s.icache e with busy := true }) :=
  h.put (h.ref e) (fun _ _ => rfl) (fun _ => .inr (Finset.mem_insert_self e L))
    fun _ _ => Finset.mem_insert_of_mem

theorem iget (n : ℕ) : wp (iget n) (fun e => Bal R B k j (e ::ₘ H) L) Any s := by
  apply wp_bind (wp_get _)
  split
  · exact wp_bind (wp_setInode (wp_pure (h.take _)))
  · split
    · next e hfree =>
      have hzero : (s.icache e).ref = 0 := by simpa using List.find?_some hfree
      apply wp_bind (wp_setInode _)
      refine wp_pure (h.put ?_ (fun _ hx => count_cons_of_ne hx H) (by simp) fun _ _ => id)
      rw [h.ref] at hzero
      rw [count_cons_self]
      push_cast
      omega
    · exact wp_throw trivial

theorem idup (e : Ix) : wp (idup e) (fun e => Bal R B k j (e ::ₘ H) L) Any s :=
  wp_bind (wp_setInode (wp_pure (h.take e)))

theorem ilock (e : Ix) : wp (ilock e) (fun _ => Bal R B k j H (insert e L)) Any s := by
  apply wp_bind (wp_inode _)
  refine wp_ite (fun _ => wp_throw trivial) fun _ => wp_ite (fun _ => wp_throw trivial) fun _ => ?_
  apply wp_bind (wp_setInode _)
  have hlock := h.lock e
  refine wp_ite (fun _ => wp_pure hlock) fun _ => ?_
  apply wp_bind (wp_get _)
  apply wp_bind (wp_setInode _)
  refine wp_ite (fun _ => wp_throw trivial) fun _ => wp_pure ?_
  exact hlock.put (hlock.ref e) (fun _ _ => rfl) (hlock.busy e) fun _ _ => id

theorem iunlock (e : Ix) : wp (iunlock e) (fun _ => Bal R B k j H (L.erase e)) Any s := by
  apply wp_bind (wp_inode _)
  refine wp_ite (fun _ => wp_throw trivial) fun _ => wp_setInode ?_
  exact h.put (h.ref e) (fun _ _ => rfl) (by simp) fun _ hx hl => Finset.mem_erase.mpr ⟨hx, hl⟩

theorem ifree (e : Ix) : wp (ifree e) (fun _ => Bal R B k j H L) Any s := by
  apply wp_bind (wp_inode _)
  refine wp_ite (fun _ => wp_ite (fun _ => wp_throw trivial) fun hfree => ?_) fun _ => wp_pure h
  apply wp_bind (wp_setInode _)
  apply wp_call ((h.lock e).quiet (.itrunc e))
  intro _ t ht
  apply wp_call_seq (ht.quiet (.setIupdate e _))
  intro _ u hu
  apply wp_setInode
  refine hu.put (hu.ref e) (fun _ _ => rfl) (by simp) ?_
  intro x hx hl
  exact (Finset.mem_insert.mp hl).resolve_left hx

end

theorem done (h : Bal R B (k + 1) j H L s) : wp endOp (fun _ => Bal R B k (j + 1) H L) Any s := by
  refine wp_modify ⟨h.ref, h.busy, ?_, ?_⟩
  · change s.outstanding - 1 = k
    rw [h.outstanding, add_sub_cancel_right]
  · change (s.logged :: s.ops).length = j + 1
    rw [List.length_cons, h.ended]

theorem iput (h : Bal R B k j (e ::ₘ H) L s) : wp (iput e) (fun _ => Bal R B k j H L) Any s := by
  apply wp_call (h.ifree e)
  intro _ t ht
  apply wp_setInode
  refine ht.put ?_ (fun _ hx => (count_cons_of_ne hx H).symm) (ht.busy e) fun _ _ => id
  rw [ht.ref, count_cons_self]
  push_cast
  omega

theorem iunlockput (h : Bal R B k j (e ::ₘ H) L s) :
    wp (iunlockput e) (fun _ => Bal R B k j H (L.erase e)) Any s :=
  wp_call (h.iunlock e) fun _ _ ht => ht.iput

theorem fewer (h : Bal R B k j H L s) (hL : L ⊆ L') : Bal R B k j H L' s :=
  ⟨h.ref, fun e he => (h.busy e he).imp_right fun hl => hL hl, h.outstanding, h.ended⟩

theorem unlockLast (h : Bal R B k j (e ::ₘ H) (insert e L) s) :
    wp (Fs.iunlockput e) (fun _ => Bal R B k j H L) Any s :=
  wp_conseq h.iunlockput fun _ _ ht => ht.fewer (Finset.erase_insert_subset e L)

end Bal

def found (H : Multiset Ix) : Option (Ix × β) → Multiset Ix
  | none => H
  | some (e, _) => e ::ₘ H

namespace Bal

theorem dirlookup (h : Bal R B k j H L s) (e : Ix) (name : Name) :
    wp (dirlookup e name) (fun r => Bal R B k j (found H r) L) Any s := by
  have hloop : ∀ fuel off t, Bal R B k j H L t →
      wp (lookupLoop e name fuel off) (fun r => Bal R B k j (found H r) L) Any t := by
    intro fuel
    induction fuel with
    | zero => exact fun _ _ ht => wp_pure ht
    | succ fuel ih =>
      intro off t ht
      apply wp_call (ht.quiet (.inode e))
      intro dp u hu
      refine wp_ite (fun _ => ?_) fun _ => wp_pure hu
      apply wp_call (hu.quiet (.readi _ _ _))
      intro r v hv
      refine wp_ite (fun _ => wp_throw trivial) fun _ => wp_ite (fun _ => ih _ _ hv) fun _ =>
        wp_ite (fun _ => ?_) fun _ => ih _ _ hv
      exact wp_call (hv.iget _) fun ip w hw => wp_pure hw
  apply wp_call (h.quiet (.inode e))
  intro dp t ht
  exact wp_ite (fun _ => wp_throw trivial) fun _ => hloop _ _ _ ht

theorem dirlink (h : Bal R B k j H L s) (e : Ix) (name : Name) (inum : ℕ) :
    wp (dirlink e name inum) (fun _ => Bal R B k j H L) Any s := by
  apply wp_call (h.dirlookup e name)
  rintro (_ | ⟨ip, off⟩) t ht
  · apply wp_call (ht.quiet (.inode e))
    intro dp u hu
    apply wp_call (hu.quiet (.emptyLoop _ _ _))
    intro off v hv
    apply wp_call (hv.quiet (.writei _ _ _ _))
    intro r w hw
    exact wp_ite (fun _ => wp_throw trivial) fun _ => wp_pure hw
  · exact wp_call (iput ht) fun _ _ hu => wp_pure hu

theorem namexLoop (parent : Bool) (fuel : ℕ) : ∀ path name ip s, path.length < fuel →
    Bal R B k j (ip ::ₘ H) ∅ s →
    wp (namexLoop parent fuel path name ip) (fun r => Bal R B k j (found H r) ∅) Any s := by
  induction fuel with
  | zero =>
    intro path name ip s hlen
    omega
  | succ fuel ih =>
    intro path name ip s hlen h
    unfold Fs.namexLoop
    cases hskip : skipelem path with
    | none =>
      apply wp_ite
      · intro _
        exact wp_call h.iput fun _ _ ht => wp_pure ht
      · intro _
        exact wp_pure h
    | some p =>
      obtain ⟨first, rest⟩ := p
      have hshorter := (skipelem_post hskip).shorter
      apply wp_call (h.ilock ip)
      intro _ t ht
      apply wp_call (ht.quiet (.inode ip))
      intro i u hu
      apply wp_ite
      · intro _
        exact wp_call hu.unlockLast fun _ _ hv => wp_pure hv
      · intro _
        apply wp_ite
        · intro _
          exact wp_call (hu.iunlock ip) fun _ _ hv => wp_pure (hv.fewer (by simp))
        · intro _
          apply wp_call (hu.dirlookup ip first)
          rintro (_ | ⟨next, off⟩) v hv
          · exact wp_call hv.unlockLast fun _ _ hw => wp_pure hw
          · change Bal R B k j (next ::ₘ ip ::ₘ H) _ v at hv
            rw [cons_swap] at hv
            apply wp_call hv.unlockLast
            intro _ w hw
            exact ih rest first next w (by omega) hw

section

variable (h : Bal R B k j H ∅ s) (cwd : Ix) (path : Path)
include h cwd path

theorem namex (parent : Bool) :
    wp (namex cwd path parent) (fun r => Bal R B k j (found H r) ∅) Any s := by
  have hstart : wp (namexStart cwd path) (fun ip => Bal R B k j (ip ::ₘ H) ∅) Any s :=
    wp_ite (fun _ => h.iget ROOTINO) fun _ => h.idup cwd
  apply wp_call hstart
  intro ip t ht
  exact namexLoop parent _ path [] ip t (Nat.lt_succ_self _) ht

theorem namei : wp (namei cwd path) (fun r => Bal R B k j (r.elim H (· ::ₘ H)) ∅) Any s := by
  apply wp_call (h.namex cwd path false)
  rintro (_ | ⟨ip, name⟩) t ht
  · exact wp_pure ht
  · exact wp_pure ht

theorem nameiparent :
    wp (nameiparent cwd path) (fun r => Bal R B k j (found H r) ∅) Any s := h.namex cwd path true

end

theorem linkBad (h : Bal R B (k + 1) j (e ::ₘ H) ∅ s) :
    wp (linkBad e) (fun _ => Bal R B k (j + 1) H ∅) Any s := by
  apply wp_call (h.ilock e)
  intro _ t ht
  apply wp_call_seq (ht.quiet (.setIupdate e _))
  intro _ u hu
  apply wp_call hu.unlockLast
  intro _ v hv
  exact wp_call hv.done fun _ _ hw => wp_pure hw

theorem unlinkFail (h : Bal R B (k + 1) j (e ::ₘ H) (insert e ∅) s) :
    wp (unlinkFail e) (fun _ => Bal R B k (j + 1) H ∅) Any s := by
  apply wp_call h.unlockLast
  intro _ t ht
  exact wp_call ht.done fun _ _ hu => wp_pure hu

theorem giveUp (h : Bal R B (k + 1) j H L s) (r : α) :
    wp (do endOp; return r) (fun _ => Bal R B k (j + 1) H L) Any s :=
  wp_call h.done fun _ _ ht => wp_pure ht

theorem linkFrom (h : Bal R B k j H ∅ s) (cwd : Ix) (old new : Path) :
    wp (sysLink cwd (some old) (some new)) (fun _ => Bal R B k (j + 1) H ∅) Any s := by
  apply wp_call h.begin
  intro _ t ht
  apply wp_call (ht.namei cwd old)
  rintro (_ | ip) t ht
  · exact ht.giveUp _
  apply wp_call (ht.ilock ip)
  intro _ t ht
  apply wp_call (ht.quiet (.inode ip))
  intro i t ht
  apply wp_ite
  · intro _
    exact wp_call (unlockLast ht) fun _ _ ht => ht.giveUp _
  · intro _
    apply wp_call_seq (ht.quiet (.setIupdate ip _))
    intro _ t ht
    apply wp_call (ht.iunlock ip)
    intro _ t ht
    rw [Finset.insert_empty, Finset.erase_singleton] at ht
    apply wp_call (ht.nameiparent cwd new)
    rintro (_ | ⟨dp, name⟩) t ht
    · exact ht.linkBad
    apply wp_call (ht.ilock dp)
    intro _ t ht
    apply wp_call (ht.quiet (.inode ip))
    intro i t ht
    apply wp_call (ht.dirlink dp name i.inum)
    intro r t ht
    apply wp_ite
    · intro _
      exact wp_call ht.unlockLast fun _ _ ht => ht.linkBad
    · intro _
      apply wp_call ht.unlockLast
      intro _ t ht
      exact wp_call ht.iput fun _ _ ht => ht.giveUp _

theorem unlinkFrom (h : Bal R B k j H ∅ s) (cwd : Ix) (path : Path) :
    wp (sysUnlink cwd (some path)) (fun _ => Bal R B k (j + 1) H ∅) Any s := by
  apply wp_call h.begin
  intro _ t ht
  apply wp_call (ht.nameiparent cwd path)
  rintro (_ | ⟨dp, name⟩) t ht
  · exact ht.giveUp _
  apply wp_call (ht.ilock dp)
  intro _ t ht
  apply wp_ite
  · intro _
    exact ht.unlinkFail
  · intro _
    apply wp_call (ht.dirlookup dp name)
    rintro (_ | ⟨ip, off⟩) t ht
    · exact ht.unlinkFail
    apply wp_call (ht.ilock ip)
    intro _ t ht
    apply wp_call (ht.quiet (.inode ip))
    intro i t ht
    refine wp_ite (fun _ => wp_throw trivial) fun _ => ?_
    apply wp_call (ht.quiet (.inUse _ _))
    intro busy t ht
    apply wp_ite
    · intro _
      exact wp_call (unlockLast ht) fun _ _ ht => ht.unlinkFail
    · intro _
      apply wp_call (ht.quiet (.writei _ _ _ _))
      intro r t ht
      refine wp_ite (fun _ => wp_throw trivial) fun _ => ?_
      apply wp_call (ht.quiet (.unlinkParent _ _))
      intro _ t ht
      -- the directory was locked first, and is unlocked first
      change Bal R B _ j (ip ::ₘ dp ::ₘ H) (insert ip {dp}) t at ht
      rw [cons_swap, Finset.pair_comm] at ht
      apply wp_call ht.unlockLast
      intro _ t ht
      apply wp_call_seq (ht.quiet (.setIupdate ip _))
      intro _ t ht
      exact wp_call ht.unlockLast fun _ _ ht => ht.giveUp _

theorem createDots (h : Bal R B k j H L s) (ip dp : Ix) (type : ℕ) :
    wp (createDots ip dp type) (fun _ => Bal R B k j H L) Any s := by
  refine wp_ite (fun _ => ?_) fun _ => wp_pure h
  apply wp_call_seq (h.quiet (.setIupdate dp _))
  intro _ t ht
  apply wp_call (ht.quiet (.inode ip))
  intro i t ht
  apply wp_call (ht.dirlink ip dot i.inum)
  intro r t ht
  refine wp_ite (fun _ => wp_throw trivial) fun _ => ?_
  apply wp_call (ht.quiet (.inode dp))
  intro p t ht
  apply wp_call (ht.dirlink ip dotdot p.inum)
  intro r t ht
  exact wp_ite (fun _ => wp_throw trivial) fun _ => wp_pure ht

theorem create (h : Bal R B k j H ∅ s) (cwd : Ix) (path : Path) (type major minor : ℕ) :
    wp (create cwd path type major minor) (fun r => Bal R B k j (r.elim H (· ::ₘ H))
      (r.elim ∅ ({·}))) Any s := by
  apply wp_call (h.nameiparent cwd path)
  rintro (_ | ⟨dp, name⟩) t ht
  · exact wp_pure ht
  apply wp_call (ht.ilock dp)
  intro _ t ht
  apply wp_call (ht.dirlookup dp name)
  rintro (_ | ⟨ip, off⟩) t ht
  · have halloc : wp (ialloc type) (fun ip => Bal R B k j (ip ::ₘ dp ::ₘ H) {dp}) Any t := by
      apply wp_bind (wp_get _)
      split
      · apply wp_call (ht.quiet (.logWrite _ _))
        intro _ t ht
        exact ht.iget _
      · exact wp_throw trivial
    apply wp_call halloc
    intro ip t ht
    apply wp_call (ht.ilock ip)
    intro _ t ht
    apply wp_call_seq (ht.quiet (.setIupdate ip _))
    intro _ t ht
    apply wp_call (ht.createDots ip dp type)
    intro _ t ht
    apply wp_call (ht.quiet (.inode ip))
    intro i t ht
    apply wp_call (ht.dirlink dp name i.inum)
    intro r t ht
    refine wp_ite (fun _ => wp_throw trivial) fun _ => ?_
    rw [cons_swap, Finset.pair_comm] at ht
    exact wp_call ht.unlockLast fun _ _ ht => wp_pure ht
  · change Bal R B k j (ip ::ₘ dp ::ₘ H) (insert dp ∅) t at ht
    rw [cons_swap] at ht
    apply wp_call ht.unlockLast
    intro _ t ht
    apply wp_call (ht.ilock ip)
    intro _ t ht
    apply wp_call (ht.quiet (.inode ip))
    intro i t ht
    apply wp_ite
    · intro _
      exact wp_pure ht
    · intro _
      exact wp_call ht.unlockLast fun _ _ ht => wp_pure ht

/-- `mkdir` and `mknod` have no use for the inode that `create` returns. -/
theorem createFrom (h : Bal R B (k + 1) j H ∅ s) (cwd : Ix) (path : Path) (type major minor : ℕ) :
    wp (do
      match ← Fs.create cwd path type major minor with
      | none => do
        endOp
        return (-1 : ℤ)
      | some ip => do
        Fs.iunlockput ip
        endOp
        return 0) (fun _ => Bal R B k (j + 1) H ∅) Any s := by
  apply wp_call (h.create cwd path type major minor)
  rintro (_ | ip) t ht
  · exact ht.giveUp _
  · exact wp_call (unlockLast (L := ∅) ht) fun _ _ ht => ht.giveUp _

theorem openInode (h : Bal R B k j H ∅ s) (cwd : Ix) (path : Path) (omode : ℕ) :
    wp (openInode cwd path omode) (fun r => Bal R B k j (r.elim H (· ::ₘ H))
      (r.elim ∅ ({·}))) Any s := by
  apply wp_ite
  · intro _
    exact h.create cwd path T_FILE 0 0
  · intro _
    apply wp_call (h.namei cwd path)
    rintro (_ | ip) t ht
    · exact wp_pure ht
    apply wp_call (ht.ilock ip)
    intro _ t ht
    apply wp_call (ht.quiet (.inode ip))
    intro i t ht
    apply wp_ite
    · intro _
      exact wp_call (unlockLast ht) fun _ _ ht => wp_pure ht
    · intro _
      exact wp_pure ht

theorem openFail (h : Bal R B (k + 1) j (e ::ₘ H) {e} s) :
    wp (openFail e) (fun r t => r = -1 ∧ Bal R B k (j + 1) H ∅ t) Any s := by
  apply wp_call (unlockLast (L := ∅) h)
  intro _ t ht
  exact wp_call ht.done fun _ _ hu => wp_pure ⟨rfl, hu⟩

theorem chdirInode (h : Bal R B k j H ∅ s) (cwd : Ix) (path : Path) :
    wp (chdirInode cwd path) (fun r => Bal R B k j (r.elim H (· ::ₘ H)) ∅) Any s := by
  apply wp_call (h.namei cwd path)
  rintro (_ | ip) t ht
  · exact wp_pure ht
  apply wp_call (ht.ilock ip)
  intro _ t ht
  apply wp_call (ht.quiet (.inode ip))
  intro i t ht
  apply wp_ite
  · intro _
    exact wp_call (unlockLast ht) fun _ _ ht => wp_pure ht
  · intro _
    apply wp_call (ht.iunlock ip)
    intro _ t ht
    exact wp_pure (ht.fewer (by simp))

theorem execFrom (h : Bal R B k j H ∅ s) (cwd : Ix) (mem : Memory) (path : Path) :
    wp (exec cwd mem path) (fun _ => Bal R B k (j + 1) H ∅) Any s := by
  apply wp_call h.begin
  intro _ t ht
  apply wp_call (ht.namei cwd path)
  rintro (_ | ip) t ht
  · exact ht.giveUp _
  apply wp_call (ht.ilock ip)
  intro _ t ht
  apply wp_call (ht.quiet (.loadProgram mem ip))
  rintro (_ | sz) t ht
  · exact wp_call (unlockLast ht) fun _ _ ht => ht.giveUp _
  · apply wp_call (unlockLast ht)
    intro _ t ht
    apply wp_call ht.done
    intro _ t ht
    exact wp_ite (fun _ => wp_pure ht) fun _ => wp_pure ht

end Bal

/-- A file that is not in use has no type: `fileclose` has taken it. -/
def Closed (p : Proc) : Prop := ∀ f, (p.file f).ref = 0 → (p.file f).type = .FD_NONE

def Proc.put (p : Proc) (f : Fin NFILE) (x : File) : Proc :=
  { p with file := fun y => if y = f then x else p.file y }

variable {p : Proc} {E : Stop → Prop}

theorem wp_onVol {c : M α} {Q : α → Proc → Prop}
    (h : wp c (fun a v => Q a { p with vol := v }) E p.vol) : wp (onVol c) Q E p := wp_within h

theorem filealloc_spec (hp : Closed p) : wp filealloc (fun r q =>
    r = none ∧ q = p ∧ (∀ f, (p.file f).ref ≠ 0) ∨ ∃ f, r = some f ∧
      (p.file f).type = .FD_NONE ∧ q = p.put f { p.file f with ref := 1 }) E p := by
  apply wp_bind (wp_get _)
  split
  · next f hfind =>
    have hzero : (p.file f).ref = 0 := by simpa using List.find?_some hfind
    exact wp_bind (wp_modify (wp_pure (.inr ⟨f, rfl, hp f hzero, rfl⟩)))
  · next hfind =>
    refine wp_pure (.inl ⟨rfl, rfl, fun f => ?_⟩)
    simpa using List.find?_eq_none.mp hfind f (List.mem_finRange f)

theorem fdalloc_spec (f : Fin NFILE) : wp (fdalloc f) (fun r q =>
    r = none ∧ q = p ∧ (∀ fd, p.ofile fd ≠ none) ∨ ∃ fd, r = some fd ∧ p.ofile fd = none ∧
      q = { p with ofile := fun x => if x = fd then some f else p.ofile x }) E p := by
  apply wp_bind (wp_get _)
  split
  · next fd hfind =>
    have hnone : p.ofile fd = none := by simpa using List.find?_some hfind
    exact wp_bind (wp_set (wp_pure (.inr ⟨fd, rfl, hnone, rfl⟩)))
  · next hfind =>
    refine wp_pure (.inl ⟨rfl, rfl, fun fd => ?_⟩)
    simpa using List.find?_eq_none.mp hfind fd (List.mem_finRange fd)

/-- The file of an `open` that does not work out has no inode yet. -/
theorem fileclose_spec {f : Fin NFILE} (href : (p.file f).ref = 1)
    (htype : (p.file f).type = .FD_NONE) : wp (fileclose f) (fun _ q =>
      q = p.put f { p.file f with ref := 0, type := .FD_NONE }) E p := by
  apply wp_bind (wp_get _)
  dsimp only
  rw [href, htype, if_neg (by decide), if_neg (by decide)]
  exact wp_bind (wp_modify (wp_pure rfl))

def Proc.inodeOf (p : Proc) (fd : Fin NOFILE) : Option Ix :=
  match p.ofile fd with
  | none => none
  | some f => if (p.file f).type = .FD_INODE then some (p.file f).ip else none

/-- What `open` leaves behind: nothing new, or a new descriptor with a reference. -/
def Opened (R : Ix → ℤ) (B : Ix → Prop) (k : ℤ) (j : ℕ) (H : Multiset Ix) (p : Proc) (r : ℤ)
    (q : Proc) : Prop :=
  (∃ i ≤ 1, r = -1 ∧ q.ofile = p.ofile ∧ Bal R B k (j + i) H ∅ q.vol) ∨
  ∃ fd ip, r = ((fd : Fin NOFILE) : ℕ) ∧ p.ofile fd = none ∧ q.inodeOf fd = some ip ∧
    Bal R B k (j + 1) (ip ::ₘ H) ∅ q.vol

theorem sysOpen_balance (h : Bal R B k j H ∅ p.vol) (hp : Closed p) (path : Option Path)
    (omode : Option ℕ) : wp (sysOpen path omode) (Opened R B k j H p) Any p := by
  unfold sysOpen
  split
  · next path omode =>
    apply wp_bind (wp_get _)
    apply wp_bind (wp_onVol (wp_conseq h.begin _))
    intro _ v hv
    apply wp_bind (wp_onVol (wp_conseq (hv.openInode p.cwd path omode) _))
    rintro (_ | ip) v hv
    · apply wp_bind (wp_onVol (wp_conseq hv.done _))
      intro _ v hv
      exact wp_pure (.inl ⟨1, le_rfl, rfl, rfl, hv⟩)
    apply wp_call (filealloc_spec (p := { p with vol := v }) hp)
    rintro _ q (⟨rfl, rfl, -⟩ | ⟨f, rfl, htype, rfl⟩)
    · apply wp_onVol (wp_conseq hv.openFail _)
      rintro _ v ⟨rfl, hv⟩
      exact .inl ⟨1, le_rfl, rfl, rfl, hv⟩
    apply wp_call (fdalloc_spec f)
    rintro _ q (⟨rfl, rfl, -⟩ | ⟨fd, rfl, hnone, rfl⟩)
    · apply wp_call (fileclose_spec (by simp [Proc.put]) (by simpa [Proc.put] using htype))
      rintro _ q rfl
      apply wp_onVol (wp_conseq hv.openFail _)
      rintro _ v ⟨rfl, hv⟩
      exact .inl ⟨1, le_rfl, rfl, rfl, hv⟩
    · apply wp_bind (wp_onVol (wp_conseq (hv.iunlock ip) _))
      intro _ v hv
      apply wp_bind (wp_onVol (wp_conseq hv.done _))
      intro _ v hv
      apply wp_bind (wp_modify _)
      refine wp_pure (.inr ⟨fd, ip, rfl, hnone, ?_, hv.fewer (by simp)⟩)
      simp [Proc.inodeOf]
  · exact wp_pure (.inl ⟨0, Nat.zero_le _, rfl, rfl, h⟩)

/-- What `chdir` leaves behind; the reference of the directory is one of those held. -/
def Moved (R : Ix → ℤ) (B : Ix → Prop) (k : ℤ) (j : ℕ) (H : Multiset Ix) (p : Proc) (r : ℤ)
    (q : Proc) : Prop :=
  r = -1 ∧ q.cwd = p.cwd ∧ Bal R B k (j + 1) (p.cwd ::ₘ H) ∅ q.vol ∨
  r = 0 ∧ Bal R B k (j + 1) (q.cwd ::ₘ H) ∅ q.vol

theorem sysChdir_balance (h : Bal R B k j (p.cwd ::ₘ H) ∅ p.vol) (path : Option Path) :
    wp (sysChdir path) (Moved R B k j H p) Any p := by
  unfold sysChdir
  apply wp_bind (wp_get _)
  apply wp_bind (wp_onVol (wp_conseq h.begin _))
  intro _ v hv
  cases path with
  | none =>
    apply wp_bind (wp_onVol (wp_conseq hv.done _))
    intro _ v hv
    exact wp_pure (.inl ⟨rfl, rfl, hv⟩)
  | some path =>
    apply wp_bind (wp_onVol (wp_conseq (hv.chdirInode p.cwd path) _))
    rintro (_ | ip) v hv
    · apply wp_bind (wp_onVol (wp_conseq hv.done _))
      intro _ v hv
      exact wp_pure (.inl ⟨rfl, rfl, hv⟩)
    · change Bal R B _ j (ip ::ₘ p.cwd ::ₘ H) ∅ v at hv
      rw [cons_swap] at hv
      apply wp_bind (wp_onVol (wp_conseq hv.iput _))
      intro _ v hv
      apply wp_bind (wp_onVol (wp_conseq hv.done _))
      intro _ v hv
      exact wp_bind (wp_modify (wp_pure (.inr ⟨rfl, hv⟩)))

/-- The references that a call which returned `r` leaves behind: that of the new descriptor, or
that of the new directory in place of the old one. -/
def Call.leaves (c : Call) (r : ℤ) (p q : Proc) (e : Ix) : ℤ :=
  match c with
  | .sysOpen _ _ => if ∃ fd : Fin NOFILE, r = (fd : ℕ) ∧ q.inodeOf fd = some e then 1 else 0
  | .sysChdir _ => if r = 0 then (if e = q.cwd then 1 else 0) - (if e = p.cwd then 1 else 0) else 0
  | _ => 0

/-- The other calls leave the process as it is and give back all they take. -/
theorem Call.run_balance (c : Call) (h : Bal R B k j H ∅ p.vol)
    (hopen : ∀ path omode, c ≠ .sysOpen path omode) (hchdir : ∀ path, c ≠ .sysChdir path) :
    wp c.run (fun _ q => ∃ i ≤ 1, Bal R B k (j + i) H ∅ q.vol) Any p := by
  have hone : ∀ {t : Vol}, Bal R B k (j + 1) H ∅ t → ∃ i ≤ 1, Bal R B k (j + i) H ∅ t :=
    fun ht => ⟨1, le_rfl, ht⟩
  have hzero : ∃ i ≤ 1, Bal R B k (j + i) H ∅ p.vol := ⟨0, Nat.zero_le _, h⟩
  cases c with
  | sysOpen path omode => exact absurd rfl (hopen path omode)
  | sysChdir path => exact absurd rfl (hchdir path)
  | sysLink old new =>
    refine wp_bind (wp_get (wp_onVol ?_))
    match old, new with
    | some old, some new => exact wp_conseq (h.linkFrom p.cwd old new) fun _ _ => hone
    | none, _ | some _, none => exact wp_pure hzero
  | sysUnlink path =>
    refine wp_bind (wp_get (wp_onVol ?_))
    cases path with
    | none => exact wp_pure hzero
    | some path => exact wp_conseq (h.unlinkFrom p.cwd path) fun _ _ => hone
  | sysMkdir path =>
    refine wp_bind (wp_get (wp_onVol ?_))
    apply wp_call h.begin
    intro _ t ht
    cases path with
    | none => exact wp_conseq (ht.giveUp _) fun _ _ => hone
    | some path => exact wp_conseq (ht.createFrom p.cwd path T_DIR 0 0) fun _ _ => hone
  | sysMknod path numbers =>
    refine wp_bind (wp_get (wp_onVol ?_))
    apply wp_call h.begin
    intro _ t ht
    match path, numbers with
    | some path, some (major, minor) =>
      exact wp_conseq (ht.createFrom p.cwd path T_DEV _ _) fun _ _ => hone
    | none, _ | some _, none => exact wp_conseq (ht.giveUp _) fun _ _ => hone
  | exec mem path =>
    refine wp_bind (wp_get (wp_onVol ?_))
    exact wp_conseq (h.execFrom p.cwd mem path) fun _ _ => hone

/-- What `Bal` says at the end of a call that began in `s`. -/
theorem Bal.end_of_call {i : ℕ} (h : Bal R (fun e => (s.icache e).busy = true) s.outstanding
    (s.ops.length + i) H ∅ t) (hi : i ≤ 1) :
    (∀ e, (t.icache e).busy = true → (s.icache e).busy = true) ∧
    t.outstanding = s.outstanding ∧ t.ops.length ≤ s.ops.length + 1 := by
  refine ⟨?_, h.outstanding, by rw [h.ended]; omega⟩
  intro e he
  exact (h.busy e he).resolve_right (Finset.notMem_empty e)

/-- A call that returns has given back its locks and ended its operation, and the references have
changed by those of the new descriptor or of the directory. -/
theorem calls_balance (c : Call) {p q : Proc} {r : ℤ} (hp : Closed p)
    (hrun : c.run p = .ok (r, q)) :
    ((∀ e, (q.vol.icache e).busy = true → (p.vol.icache e).busy = true) ∧
      q.vol.outstanding = p.vol.outstanding ∧ q.vol.ops.length ≤ p.vol.ops.length + 1) ∧
    (∀ e, (q.vol.icache e).ref = (p.vol.icache e).ref + c.leaves r p q e) ∧
    ((∃ path omode, c = .sysOpen path omode) → r = -1 ∨
      ∃ (fd : Fin NOFILE) (ip : Ix), r = (fd : ℕ) ∧ p.ofile fd = none ∧
        q.inodeOf fd = some ip) := by
  have hstart : Bal (fun e => (p.vol.icache e).ref) (fun e => (p.vol.icache e).busy = true)
      p.vol.outstanding p.vol.ops.length 0 ∅ p.vol :=
    ⟨fun e => by simp, fun e => .inl, rfl, rfl⟩
  by_cases hopen : ∃ path omode, c = .sysOpen path omode
  · obtain ⟨path, omode, rfl⟩ := hopen
    rcases wp_ok (sysOpen_balance hstart hp path omode) hrun with
      ⟨i, hi, rfl, -, hq⟩ | ⟨fd, ip, rfl, hnone, hip, hq⟩
    · refine ⟨hq.end_of_call hi, fun e => ?_, fun _ => .inl rfl⟩
      have hno : ¬∃ fd : Fin NOFILE, (-1 : ℤ) = (fd : ℕ) ∧ q.inodeOf fd = some e := by
        rintro ⟨fd, hfd, -⟩
        omega
      rw [Call.leaves, if_neg hno, hq.ref, count_zero]
      rfl
    · refine ⟨hq.end_of_call le_rfl, fun e => ?_, fun _ => .inr ⟨fd, ip, rfl, hnone, hip⟩⟩
      have hfd : (∃ x : Fin NOFILE, ((fd : ℕ) : ℤ) = (x : ℕ) ∧ q.inodeOf x = some e) ↔ e = ip := by
        constructor
        · rintro ⟨x, hx, he⟩
          obtain rfl : fd = x := Fin.ext (by omega)
          exact Option.some.inj (he.symm.trans hip)
        · rintro rfl
          exact ⟨fd, rfl, hip⟩
      rw [Call.leaves, if_congr hfd rfl rfl, hq.ref, count_cons, count_zero]
      split_ifs <;> rfl
  by_cases hchdir : ∃ path, c = .sysChdir path
  · obtain ⟨path, rfl⟩ := hchdir
    -- the reference of the directory is counted apart
    have hcwd : Bal (fun e => (p.vol.icache e).ref - if e = p.cwd then 1 else 0)
        (fun e => (p.vol.icache e).busy = true) p.vol.outstanding p.vol.ops.length {p.cwd} ∅
        p.vol := by
      refine ⟨fun e => ?_, fun e => .inl, rfl, rfl⟩
      rw [count_singleton]
      split_ifs <;> simp
    rcases wp_ok (sysChdir_balance hcwd path) hrun with ⟨rfl, -, hq⟩ | ⟨rfl, hq⟩
    · refine ⟨hq.end_of_call le_rfl, fun e => ?_, fun h => absurd h hopen⟩
      rw [Call.leaves, if_neg (by decide), hq.ref, count_cons, count_zero]
      split_ifs <;> simp
    · refine ⟨hq.end_of_call le_rfl, fun e => ?_, fun h => absurd h hopen⟩
      rw [Call.leaves, if_pos rfl, hq.ref, count_cons, count_zero]
      split_ifs <;> push_cast <;> omega
  · obtain ⟨i, hi, hq⟩ := wp_ok (c.run_balance hstart (fun path omode h => hopen ⟨path, omode, h⟩)
      fun path h => hchdir ⟨path, h⟩) hrun
    refine ⟨hq.end_of_call hi, fun e => ?_, fun h => absurd h hopen⟩
    have hnone : c.leaves r p q e = 0 := by
      cases c with
      | sysOpen path omode => exact absurd ⟨path, omode, rfl⟩ hopen
      | sysChdir path => exact absurd ⟨path, rfl⟩ hchdir
      | sysLink | sysUnlink | sysMkdir | sysMknod | exec => rfl
    rw [hnone, hq.ref, count_zero]
    rfl

/-- The root directory of a small disk, with nothing in it. -/
def dirBlk : ℕ → Block :=
  Function.update smallBlk 2
    (writeDinode Buf.zero (ioff 1) ⟨T_DIR, 0, 0, 1, 0, fun _ => 0⟩)

def dirProc : Proc where
  vol := { smallVol with blk := dirBlk }
  file _ := ⟨.FD_NONE, 0, false, false, 0, 0⟩
  ofile _ := none
  cwd := 0

/-- A file is created and opened: the new descriptor has the only reference that is new. -/
theorem calls_balance_open : ∃ q ip, (Call.sysOpen (some [0x61]) (some (O_CREATE ||| O_RDWR))).run
    dirProc = .ok (0, q) ∧ q.inodeOf 0 = some ip ∧
    (∀ e, (q.vol.icache e).ref = (dirProc.vol.icache e).ref + if ip = e then 1 else 0) ∧
    (∀ e, (q.vol.icache e).busy = false) ∧ q.vol.outstanding = 0 := by
  have hcheck : (match (Call.sysOpen (some [0x61]) (some (O_CREATE ||| O_RDWR))).run dirProc with
      | .ok (r, _) => decide (r = 0)
      | .error _ => false) = true := by decide +kernel
  cases hrun : (Call.sysOpen (some [0x61]) (some (O_CREATE ||| O_RDWR))).run dirProc with
  | error e =>
    rw [hrun] at hcheck
    exact absurd hcheck Bool.false_ne_true
  | ok a =>
    obtain ⟨r, q⟩ := a
    rw [hrun] at hcheck
    obtain rfl : r = 0 := of_decide_eq_true hcheck
    obtain ⟨⟨hbusy, hout, -⟩, href, hopen⟩ := calls_balance _ (fun _ _ => rfl) hrun
    obtain ⟨fd, ip, hfd, -, hip⟩ := (hopen ⟨_, _, rfl⟩).resolve_left (by decide)
    obtain rfl : fd = 0 := Fin.ext (by change fd.val = 0; omega)
    refine ⟨q, ip, rfl, hip, ?_, ?_, hout⟩
    · intro e
      rw [href, Call.leaves]
      congr 1
      refine if_congr ⟨?_, ?_⟩ rfl rfl
      · rintro ⟨fd, hfd, he⟩
        obtain rfl : fd = 0 := Fin.ext (by change fd.val = 0; omega)
        exact Option.some.inj (hip.symm.trans he)
      · rintro rfl
        exact ⟨0, rfl, hip⟩
    · intro e
      by_contra hb
      exact absurd (hbusy e (by simpa using hb)) Bool.false_ne_true

end Xv6Threads.Fs
