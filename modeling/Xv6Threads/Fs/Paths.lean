import Mathlib.Data.List.DropRight
import Xv6Threads.Fs.Directories

namespace Xv6Threads.Fs

open Bytes Multiset

variable {sb : Superblock} {H : Multiset Ix} {L : Finset Ix} {V V' : ℕ → Node}
  {s t u : Vol} {e cwd : Ix} {n : ℕ} {name : Name} {path rest : Path} {E : Stop → Prop}

/-- What repeated `skipelem` yields. -/
def elements : ℕ → Path → List Name
  | 0, _ => []
  | fuel + 1, path =>
    match skipelem path with
    | none => []
    | some (name, rest) => name :: elements fuel rest

structure SkipPost (path : Path) (name : Name) (rest : Path) : Prop where
  ne_nil : name ≠ []
  shorter : rest.length < path.length
  /-- no slash in front -/
  trim : rest.dropWhile (· = slash) = rest

theorem skipelem_post (h : skipelem path = some (name, rest)) : SkipPost path name rest := by
  unfold skipelem at h
  have hlen := (List.dropWhile_sublist (· = slash) (l := path)).length_le
  cases hp : path.dropWhile (· = slash) with
  | nil =>
    rw [hp] at h
    cases h
  | cons c p =>
    have hc : c ≠ slash := by
      have hhead := List.head?_dropWhile_not (· = slash) path
      rw [hp] at hhead
      simpa using hhead
    have hfirst : (c :: p).takeWhile (· ≠ slash) = c :: p.takeWhile (· ≠ slash) := by
      rw [List.takeWhile_cons, if_pos (by simpa using hc)]
    rw [hp] at h hlen
    simp only [Option.some.injEq, Prod.mk.injEq] at h
    obtain ⟨rfl, rfl⟩ := h
    refine ⟨?_, ?_, ?_⟩
    · rw [hfirst]
      simp
    · have hdrop := (List.dropWhile_sublist (· = slash)
        (l := (c :: p).drop ((c :: p).takeWhile (· ≠ slash)).length)).length_le
      rw [List.length_drop] at hdrop
      have hpos : 0 < ((c :: p).takeWhile (· ≠ slash)).length := by
        rw [hfirst]
        simp
      have hcons : 0 < (c :: p).length := by simp
      omega
    · exact List.dropWhile_idempotent _ _

theorem skipelem_eq_none_iff (h : path.dropWhile (· = slash) = path) :
    skipelem path = none ↔ path = [] := by
  unfold skipelem
  rw [h]
  cases path <;> simp

theorem elements_eq_nil_iff {fuel : ℕ} (hfuel : 0 < fuel)
    (h : path.dropWhile (· = slash) = path) : elements fuel path = [] ↔ path = [] := by
  obtain ⟨fuel, rfl⟩ := Nat.exists_eq_succ_of_ne_zero hfuel.ne'
  rw [elements, ← skipelem_eq_none_iff h]
  cases skipelem path <;> simp

/-- Where `namex` ends up, and the last element of the path. -/
def resolve (V : ℕ → Node) (parent : Bool) : ℕ → Name → List Name → Option (ℕ × Name)
  | n, last, [] => if parent then none else some (n, last)
  | n, _, name :: rest =>
    if (V n).type ≠ T_DIR then none
    else if parent ∧ rest = [] then some (n, name)
    else
      match (V n).find name with
      | none => none
      | some i => resolve V parent ((V n).inumAt i) name rest

/-- `dirlookup` in what has to be a directory. -/
def enter (V : ℕ → Node) (n : ℕ) (name : Name) : Option ℕ :=
  if (V n).type = T_DIR then ((V n).find name).map (V n).inumAt else none

def walk (V : ℕ → Node) (n : ℕ) (names : List Name) : Option ℕ := names.foldlM (enter V) n

theorem walk_cons (V : ℕ → Node) (n : ℕ) (name : Name) (names : List Name) :
    walk V n (name :: names) = (enter V n name).bind fun m => walk V m names := List.foldlM_cons

def Within (sb : Superblock) (V : ℕ → Node) : Prop :=
  ∀ n, (V n).type = T_DIR → ∀ i < (V n).slots, (V n).inumAt i < sb.ninodes

def Sound (V : ℕ → Node) : Prop :=
  ∀ n, (V n).type = T_DIR → ∀ i < (V n).slots, (V n).inumAt i ≠ 0 →
    (V ((V n).inumAt i)).type ≠ 0

theorem Within.reaped (h : Within sb V) (hr : Reaped V V') : Within sb V' := by
  intro n ht
  have heq := hr.eq (n := n) (by rw [ht]; decide)
  rw [heq] at ht ⊢
  exact h n ht

theorem Node.find_spec {v : Node} {i : ℕ} (h : v.find name = some i) :
    i < v.slots ∧ v.inumAt i ≠ 0 ∧ v.nameAt i = name := by
  rw [Node.find, List.find?_range_eq_some] at h
  exact ⟨List.mem_range.mp h.2.1, of_decide_eq_true h.1⟩

/-- What `namex` returns and leaves behind, when the walk leads to `res`. -/
def NamexPost (sb : Superblock) (H : Multiset Ix) (V : ℕ → Node) (s : Vol)
    (res : Option (ℕ × Name)) : Option (Ix × Name) → Vol → Prop
  | none, t => res = none ∧ ∃ V', Rep sb H ∅ V' t ∧ Passed H V s V' t
  | some (e, name), t => res = some ((t.icache e).inum, name) ∧
    ∃ V', Rep sb (e ::ₘ H) ∅ V' t ∧ Passed H V s V' t

/-- The walk along `names` looks a name up in inode `m`. -/
def Passes (V : ℕ → Node) (n : ℕ) (names : List Name) (m : ℕ) : Prop :=
  ∃ done name rest, names = done ++ name :: rest ∧ walk V n done = some m

theorem Passes.head (V : ℕ → Node) (n : ℕ) (name : Name) (rest : List Name) :
    Passes V n (name :: rest) n := ⟨[], name, rest, rfl, rfl⟩

theorem Passes.tail {n k m : ℕ} {rest : List Name} (hk : enter V n name = some k)
    (h : Passes V k rest m) : Passes V n (name :: rest) m := by
  obtain ⟨done, last, rest', rfl, hwalk⟩ := h
  refine ⟨name :: done, last, rest', rfl, ?_⟩
  rw [walk_cons, hk]
  exact hwalk

/-- Nothing makes a walk through the inodes of `W` stop: there are entries of the cache for it, the
directories end with an entry, and the inodes are allocated and stay so. -/
structure Guarded (W : ℕ → Prop) (H : Multiset Ix) (V : ℕ → Node) (s : Vol) : Prop where
  room : H.toFinset.card + 1 < NINODE
  whole : ∀ n, W n → (V n).type = T_DIR → (V n).Whole
  live : ∀ n, W n → (V n).type ≠ 0
  tended : ∀ n, W n → Tended H V s n

theorem card_of_full {M : Multiset Ix} (ip : Ix) (hall : ∀ e, e ∈ M)
    (hM : ∀ e ∈ M, e = ip ∨ e ∈ H) :
    NINODE ≤ H.toFinset.card + 1 := by
  have hsub : (Finset.univ : Finset Ix) ⊆ insert ip H.toFinset := by
    intro e _
    rw [Finset.mem_insert, mem_toFinset]
    exact hM e (hall e)
  have hcard := (Finset.card_le_card hsub).trans (Finset.card_insert_le _ _)
  rwa [Finset.card_univ, Fintype.card_fin] at hcard

theorem namexLoop_rep {W : ℕ → Prop} (hw : Within sb V) (hg : Guarded W H V s) (parent : Bool)
    (fuel : ℕ) : ∀ path last ip V₁ t n, path.length < fuel → Rep sb (ip ::ₘ H) ∅ V₁ t →
      (t.icache ip).inum = n → Passed H V s V₁ t → (∀ m, Passes V n (elements fuel path) m → W m) →
      wp (namexLoop parent fuel path last ip)
        (NamexPost sb H V s (resolve V parent n last (elements fuel path))) E t := by
  induction fuel with
  | zero =>
    intro path last ip V₁ t n hlen
    omega
  | succ fuel ih =>
    intro path last ip V₁ t n hlen hrep hn hpassed hW
    have hip : ip ∈ ip ::ₘ H := mem_cons_self ip H
    have hH : ∀ e ∈ H, e ∈ ip ::ₘ H := fun _ => mem_cons_of_mem
    unfold namexLoop elements
    unfold elements at hW
    cases hskip : skipelem path with
    | none =>
      dsimp only
      cases parent with
      | true =>
        apply wp_call (iput_reaps hrep (by simp))
        rintro _ u ⟨V₂, hrep', hpassed'⟩
        exact wp_pure ⟨rfl, V₂, hrep', hpassed.trans hpassed'⟩
      | false =>
        apply wp_pure
        refine ⟨?_, V₁, hrep, hpassed⟩
        rw [hn]
        rfl
    | some p =>
      obtain ⟨name, rest⟩ := p
      have hpost := skipelem_post hskip
      have hshorter := hpost.shorter
      dsimp only
      rw [hskip] at hW
      dsimp only at hW
      have hWn : W n := hW n (Passes.head V n name _)
      -- the file is the one that was there from the start
      have hsame : V₁ n = V n := hpassed.tended n (hg.tended n hWn)
      have hlive : (V₁ n).type ≠ 0 ∨ E (.panic "ilock: no type") := .inl (hsame ▸ hg.live n hWn)
      apply wp_call (ilock_rep hrep (by simp) hip hn hlive)
      rintro _ u ⟨hrep', hv, -, -, -, hkept⟩
      have hn' : (u.icache ip).inum = n := (hkept.inum ip hip).trans hn
      have hpassed' : Passed H V s V₁ u := hpassed.trans (Passed.of_kept (hkept.mono hH))
      apply wp_bind (wp_inode _)
      rw [show (u.icache ip).d.type = (V n).type by rw [← hsame, hrep'.node hip hv hn']; rfl]
      unfold resolve
      apply wp_ite
      · intro hfile
        rw [if_pos hfile]
        apply wp_call (iunlockput_reaps hrep' (by simp))
        rintro _ v ⟨V₂, hrep'', hpassed''⟩
        exact wp_pure ⟨rfl, V₂, by simpa using hrep'', hpassed'.trans hpassed''⟩
      · intro hdir
        rw [if_neg hdir]
        rw [not_not] at hdir
        have hrest : (parent = true ∧ rest = []) ↔ (parent = true ∧ elements fuel rest = []) := by
          rw [elements_eq_nil_iff (by omega) hpost.trim]
        apply wp_ite
        · intro hlast
          rw [if_pos (hrest.mp hlast)]
          apply wp_call (iunlock_rep hrep' (by simp) hip)
          rintro _ v ⟨hrep'', -, hkept'⟩
          have hn'' : (v.icache ip).inum = n := (hkept'.inum ip hip).trans hn'
          exact wp_pure ⟨by rw [hn''], V₁, by simpa using hrep'',
            hpassed'.trans (Passed.of_kept (hkept'.mono hH))⟩
        · intro hmore
          rw [if_neg (mt hrest.mpr hmore)]
          have hin : (V₁ n).type = T_DIR → ∀ i < (V₁ n).slots, (V₁ n).inumAt i < sb.ninodes :=
            hw.reaped hpassed.reaped n
          have hwhole : (V₁ n).Whole ∨ E (.panic "dirlink read") := by
            rw [hsame]
            exact .inl (hg.whole n hWn hdir)
          apply wp_call (dirlookup_rep hrep' hip hv hn'
            (fun hall => absurd (card_of_full ip hall fun e => mem_cons.mp) (not_le.mpr hg.room))
            (.inl (hsame ▸ hdir)) hwhole hin)
          rintro (_ | ⟨next, off⟩) v ⟨-, hlookup⟩
          · obtain ⟨hfind, rfl⟩ := hlookup
            rw [hsame] at hfind
            rw [hfind]
            dsimp only
            apply wp_call (iunlockput_reaps hrep' (by simp))
            rintro _ w ⟨V₂, hrep'', hpassed''⟩
            exact wp_pure ⟨rfl, V₂, by simpa using hrep'', hpassed'.trans hpassed''⟩
          · obtain ⟨i, hfind, -, hnext, hrep'', -, hkept'⟩ := hlookup
            rw [hsame] at hfind hnext
            rw [hfind]
            dsimp only
            rw [cons_swap] at hrep''
            apply wp_call (iunlockput_reaps hrep'' (by simp))
            rintro _ w ⟨V₂, hrep₂, hpassed₂⟩
            have hkept₂ := hpassed₂.kept.inum next (mem_cons_self next H)
            have hH' : ∀ e ∈ H, e ∈ next ::ₘ H := fun _ => mem_cons_of_mem
            apply ih rest name next V₂ w _ (by omega) (by simpa using hrep₂) (hkept₂.trans hnext)
            · have hstep : Passed H V₁ u V₁ v := Passed.of_kept (hkept'.mono hH)
              refine (hpassed'.trans hstep).trans ⟨hpassed₂.reaped, hpassed₂.kept.mono hH', ?_⟩
              intro m htend
              exact hpassed₂.tended m (htend.mono hH' (Kept.refl H v))
            · intro m hm
              refine hW m (hm.tail ?_)
              rw [enter, if_pos hdir, hfind]
              rfl

def startInum (s : Vol) (cwd : Ix) (path : Path) : ℕ :=
  if path.head? = some slash then ROOTINO else (s.icache cwd).inum

theorem namexStart_rep (h : Rep sb H ∅ V s) (hroom : H.toFinset.card + 1 < NINODE)
    (hcwd : cwd ∈ H) :
    wp (namexStart cwd path) (fun ip t => Rep sb (ip ::ₘ H) ∅ V t ∧
      (t.icache ip).inum = startInum s cwd path ∧ Passed H V s V t) E s := by
  have hroot : ROOTINO < sb.ninodes := by
    obtain ⟨D, hd⟩ := h
    exact hd.geometry.root
  unfold namexStart startInum
  apply wp_ite
  · intro habs
    rw [if_pos habs]
    apply wp_conseq (iget_rep h (fun hall => absurd (card_of_full cwd hall fun e => .inr)
      (not_le.mpr hroom)) hroot)
    rintro ip t ⟨hrep, hinum, -, hkept⟩
    exact ⟨hrep, hinum, Passed.of_kept hkept⟩
  · intro hrel
    rw [if_neg hrel]
    apply wp_conseq (idup_rep h hcwd)
    rintro ip t ⟨rfl, hrep, -, hkept⟩
    exact ⟨hrep, hkept.inum ip hcwd, Passed.of_kept hkept⟩

/-- The path as `namex` resolves it. -/
def resolvePath (V : ℕ → Node) (parent : Bool) (start : ℕ) (path : Path) : Option (ℕ × Name) :=
  resolve V parent start [] (elements (path.length + 1) path)

theorem namex_rep {W : ℕ → Prop} (h : Rep sb H ∅ V s) (hw : Within sb V) (hg : Guarded W H V s)
    (hcwd : cwd ∈ H) (hW : ∀ m, Passes V (startInum s cwd path)
      (elements (path.length + 1) path) m →
      W m) (parent : Bool) :
    wp (namex cwd path parent)
      (NamexPost sb H V s (resolvePath V parent (startInum s cwd path) path)) E s := by
  unfold namex
  apply wp_call (namexStart_rep h hg.room hcwd)
  rintro ip t ⟨hrep, hinum, hpassed⟩
  exact namexLoop_rep hw hg parent _ path [] ip V t _ (Nat.lt_succ_self _) hrep hinum hpassed hW

end Xv6Threads.Fs
