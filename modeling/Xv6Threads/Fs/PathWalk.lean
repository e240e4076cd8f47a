import Xv6Threads.Fs.Balance

namespace Xv6Threads.Fs

open List Option

variable {sb : Superblock} {H : Multiset Ix} {V : ℕ → Node} {s t : Vol} {cwd : Ix} {n d : ℕ}
  {name : Name} {names : List Name} {path : Path}

/-- The parts of the path between slashes that are not empty, cut to `DIRSIZ` bytes. -/
def components (path : Path) : List Name :=
  ((path.splitOn slash).filter (· ≠ [])).map (List.take DIRSIZ)

theorem components_slash (path : Path) : components (slash :: path) = components path := by
  simp [components, List.splitOn, splitOnP_cons_eq_if_modifyHead]

theorem components_dropWhile (path : Path) :
    components (path.dropWhile (· = slash)) = components path := by
  induction path with
  | nil => rfl
  | cons c path ih =>
    by_cases hc : c = slash
    · rw [hc, components_slash, dropWhile_cons_of_pos (by simp)]
      exact ih
    · rw [dropWhile_cons_of_neg (by simpa using hc)]

theorem components_append {first rest : Path} (hne : first ≠ []) (hno : slash ∉ first)
    (hrest : rest = [] ∨ ∃ r, rest = slash :: r) :
    components (first ++ rest) = first.take DIRSIZ :: components rest := by
  have hfirst : ∀ c ∈ first, (c == slash) = false := by
    intro c hc
    rw [beq_eq_false_iff_ne]
    exact fun heq => hno (heq ▸ hc)
  rcases hrest with rfl | ⟨r, rfl⟩
  · rw [append_nil]
    simp [components, List.splitOn, splitOnP_eq_singleton hfirst, hne]
  · rw [components_slash]
    simp [components, List.splitOn, splitOnP_append_cons_of_forall_mem hfirst, hne]

theorem elements_eq {fuel : ℕ} (hfuel : path.length < fuel) :
    elements fuel path = components path := by
  induction fuel generalizing path with
  | zero => omega
  | succ fuel ih =>
    rw [elements, ← components_dropWhile]
    cases hskip : skipelem path with
    | none =>
      unfold skipelem at hskip
      cases hp : path.dropWhile (· = slash) with
      | nil => rfl
      | cons c p =>
        rw [hp] at hskip
        cases hskip
    | some x =>
      obtain ⟨name, rest⟩ := x
      have hpost := skipelem_post hskip
      have hshorter := hpost.shorter
      dsimp only
      rw [ih (by omega)]
      unfold skipelem at hskip
      cases hp : path.dropWhile (· = slash) with
      | nil =>
        rw [hp] at hskip
        cases hskip
      | cons c p =>
        rw [hp] at hskip
        cases hskip
        have hsplit := takeWhile_append_dropWhile (p := (· ≠ slash)) (l := c :: p)
        have hdrop : (c :: p).drop ((c :: p).takeWhile (· ≠ slash)).length =
            (c :: p).dropWhile (· ≠ slash) := by
          have hcut := congrArg (List.drop ((c :: p).takeWhile (· ≠ slash)).length) hsplit
          rwa [drop_left, eq_comm] at hcut
        rw [hdrop, components_dropWhile]
        nth_rewrite 3 [← hsplit]
        refine (components_append ?_ ?_ ?_).symm
        · intro hnil
          exact hpost.ne_nil (by rw [hnil, take_nil])
        · intro hmem
          simpa using mem_takeWhile_imp hmem
        · cases hrest : (c :: p).dropWhile (· ≠ slash) with
          | nil => exact .inl rfl
          | cons y r =>
            have hhead := List.head?_dropWhile_not (· ≠ slash) (c :: p)
            rw [hrest] at hhead
            exact .inr ⟨r, by simpa using hhead⟩

def walkParent (V : ℕ → Node) (n : ℕ) (names : List Name) : Option (ℕ × Name) :=
  names.getLast?.bind fun name => (walk V n names.dropLast).bind fun d =>
    if (V d).type = T_DIR then some (d, name) else none

theorem resolve_false (V : ℕ → Node) (n : ℕ) (last : Name) (names : List Name) :
    resolve V false n last names = (walk V n names).map fun m => (m, names.getLastD last) := by
  induction names generalizing n last with
  | nil => rfl
  | cons name names ih =>
    rw [resolve, walk_cons, enter]
    by_cases hdir : (V n).type = T_DIR
    · rw [if_neg (not_not.mpr hdir), if_neg (by simp), if_pos hdir]
      cases (V n).find name with
      | none => rfl
      | some i =>
        rw [getLastD_cons]
        exact ih _ _
    · rw [if_pos hdir, if_neg hdir]
      rfl

theorem resolve_true (V : ℕ → Node) (n : ℕ) (last : Name) (names : List Name) :
    resolve V true n last names = walkParent V n names := by
  induction names generalizing n last with
  | nil => rfl
  | cons name names ih =>
    rw [resolve, walkParent]
    cases names with
    | nil =>
      by_cases hdir : (V n).type = T_DIR <;> simp [walk, hdir]
    | cons name' names =>
      rw [dropLast_cons_cons, walk_cons, enter, List.getLast?_cons_cons]
      by_cases hdir : (V n).type = T_DIR
      · rw [if_neg (not_not.mpr hdir), if_neg (by simp), if_pos hdir]
        cases (V n).find name with
        | none => simp
        | some i => exact ih _ _
      · rw [if_pos hdir, if_neg hdir]
        simp

theorem walk_eq_none_iff : walk V n names = none ↔ ∃ done name rest m, names = done ++
    name :: rest ∧
    walk V n done = some m ∧ ((V m).type ≠ T_DIR ∨ (V m).find name = none) := by
  have henter : ∀ m name, enter V m name = none ↔ (V m).type ≠ T_DIR ∨ (V m).find name = none := by
    intro m name
    unfold enter
    by_cases hdir : (V m).type = T_DIR <;> simp [hdir]
  constructor
  · intro hnone
    induction names generalizing n with
    | nil => cases hnone
    | cons name names ih =>
      rw [walk_cons] at hnone
      cases hm : enter V n name with
      | none => exact ⟨[], name, names, n, rfl, rfl, (henter n name).mp hm⟩
      | some m =>
        rw [hm] at hnone
        obtain ⟨done, name', rest, x, rfl, hdone, hx⟩ := ih hnone
        refine ⟨name :: done, name', rest, x, rfl, ?_, hx⟩
        rw [walk_cons, hm]
        exact hdone
  · rintro ⟨done, name, rest, m, rfl, hdone, hm⟩
    rw [walk, foldlM_append, show done.foldlM (enter V) n = some m from hdone]
    exact (walk_cons V m name rest).trans (by rw [(henter m name).mpr hm]; rfl)

theorem walkParent_eq_none_iff : walkParent V n names = none ↔ names = [] ∨
    walk V n names.dropLast = none ∨ ∃ d, walk V n names.dropLast = some d ∧
      (V d).type ≠ T_DIR := by
  unfold walkParent
  cases hlast : names.getLast? with
  | none => simp [List.getLast?_eq_none_iff.mp hlast]
  | some name =>
    have hne : names ≠ [] := by
      rintro rfl
      cases hlast
    cases walk V n names.dropLast <;> simp [hne]

/-- The walk to the parent and the lookup of the last component are the whole walk. -/
theorem walk_of_walkParent (h : walkParent V n names = some (d, name)) :
    walk V n names = enter V d name := by
  obtain ⟨name', hlast, h⟩ := bind_eq_some_iff.mp h
  obtain ⟨d', hwalk, h⟩ := bind_eq_some_iff.mp h
  split_ifs at h
  cases h
  have hnames : names.dropLast ++ [name] = names := dropLast_append_getLast? name hlast
  rw [walk] at hwalk
  rw [walk, ← hnames, foldlM_append, hwalk]
  simp

theorem walk_live (hsound : Sound V) {m : ℕ} (hn : (V n).type ≠ 0)
    (h : walk V n names = some m) : (V m).type ≠ 0 := by
  induction names generalizing n with
  | nil =>
    cases h
    exact hn
  | cons name names ih =>
    rw [walk_cons] at h
    obtain ⟨k, hk, h⟩ := bind_eq_some_iff.mp h
    refine ih ?_ h
    unfold enter at hk
    split_ifs at hk with hdir
    obtain ⟨i, hfind, rfl⟩ := map_eq_some_iff.mp hk
    obtain ⟨hi, hused, -⟩ := Node.find_spec hfind
    exact hsound n hdir i hi hused

/-- The conditions on the inodes in which the walk looks its names up: directories end with an
entry, and whoever has no link is held, so that the walk does not free it. -/
structure Clear (H : Multiset Ix) (V : ℕ → Node) (s : Vol) (n : ℕ) (names : List Name) : Prop where
  room : H.toFinset.card + 1 < NINODE
  whole : ∀ m, Passes V n names m → (V m).type = T_DIR → (V m).Whole
  tended : ∀ m, Passes V n names m → Tended H V s m

theorem Clear.guarded (h : Clear H V s n names) (hsound : Sound V) (hn : (V n).type ≠ 0) :
    Guarded (Passes V n names) H V s where
  room := h.room
  whole := h.whole
  live m hm := by
    obtain ⟨done, _, _, -, hwalk⟩ := hm
    exact walk_live hsound hn hwalk
  tended := h.tended

/-- The parent is the inode in which the last name is looked up. -/
theorem passes_of_walkParent (h : walkParent V n names = some (d, name)) : Passes V n names d := by
  obtain ⟨name', hlast, h⟩ := bind_eq_some_iff.mp h
  obtain ⟨d', hwalk, h⟩ := bind_eq_some_iff.mp h
  split_ifs at h
  cases h
  exact ⟨names.dropLast, name, [], (dropLast_append_getLast? name hlast).symm, hwalk⟩

theorem Rep.within (h : Rep sb H ∅ V s) (hsound : Sound V) : Within sb V := by
  intro n hdir i hi
  by_cases hzero : (V n).inumAt i = 0
  · obtain ⟨D, hd⟩ := h
    have hroot := hd.geometry.root
    omega
  · exact h.lt_of_type (hsound n hdir i hi hzero)

/-- `nameiparent`, and the lookup of the name in the directory it returns. -/
def nameiByParent (cwd : Ix) (path : Path) : M (Option Ix) := do
  match ← nameiparent cwd path with
  | none => return none
  | some (dp, name) => do
    ilock dp
    let r ← dirlookup dp name
    return r.map Prod.fst

section
variable (h : Rep sb H ∅ V s) (hsound : Sound V) (hcwd : cwd ∈ H)
  (hstart : (V (startInum s cwd path)).type ≠ 0)
  (hclear : Clear H V s (startInum s cwd path) (components path))
include h hsound hcwd hstart hclear

theorem namei_walk : wp (namei cwd path) (fun r t => (r.map fun e => (t.icache e).inum) =
    walk V (startInum s cwd path) (components path)) (fun _ => False) s := by
  unfold namei
  apply wp_call (namex_rep h (h.within hsound) (hclear.guarded hsound hstart) hcwd _ false)
  · rintro (_ | ⟨e, name⟩) t hpost <;> apply wp_pure
    all_goals
      have hres := hpost.1
      rw [resolvePath, resolve_false, elements_eq (Nat.lt_succ_self _)] at hres
    · exact (map_eq_none_iff.mp hres).symm
    · obtain ⟨m, hwalk, hm⟩ := map_eq_some_iff.mp hres
      cases hm
      exact hwalk.symm
  · rw [elements_eq (Nat.lt_succ_self _)]
    exact fun _ => id

theorem nameiparent_walk : wp (nameiparent cwd path) (NamexPost sb H V s
    (walkParent V (startInum s cwd path) (components path))) (fun _ => False) s := by
  have hnamex := namex_rep (E := fun _ => False) h (h.within hsound) (hclear.guarded hsound hstart)
    hcwd (by rw [elements_eq (Nat.lt_succ_self _)]; exact fun _ => id) true
  rwa [resolvePath, resolve_true, elements_eq (Nat.lt_succ_self _)] at hnamex

theorem nameiByParent_walk (hparent : walkParent V (startInum s cwd path)
    (components path) ≠ none) :
    wp (nameiByParent cwd path) (fun r t => (r.map fun e => (t.icache e).inum) =
      walk V (startInum s cwd path) (components path)) (fun _ => False) s := by
  unfold nameiByParent
  apply wp_call (nameiparent_walk h hsound hcwd hstart hclear)
  rintro (_ | ⟨dp, name⟩) t hpost
  · exact absurd hpost.1 hparent
  · obtain ⟨hres, V', hrep, hpassed⟩ := hpost
    have hdp : dp ∈ dp ::ₘ H := Multiset.mem_cons_self dp H
    have hwalk := walk_of_walkParent hres
    have hpasses := passes_of_walkParent hres
    have hdir : (V (t.icache dp).inum).type = T_DIR := by
      by_contra hno
      obtain ⟨_, -, hlast⟩ := bind_eq_some_iff.mp hres
      obtain ⟨d, -, hd⟩ := bind_eq_some_iff.mp hlast
      split_ifs at hd with hd'
      cases hd
      exact hno hd'
    have hsame := hpassed.tended _ (hclear.tended _ hpasses)
    dsimp only
    apply wp_call (ilock_rep hrep (by simp) hdp rfl (.inl (by rw [hsame, hdir]; decide)))
    rintro _ u ⟨hrep', hv, -, -, -, hkept⟩
    have hinum := hkept.inum dp hdp
    apply wp_call (dirlookup_rep hrep' hdp hv hinum
      (fun hall => absurd (card_of_full dp hall fun e => Multiset.mem_cons.mp)
        (not_le.mpr hclear.room))
      (.inl (hsame ▸ hdir)) (.inl (hsame ▸ hclear.whole _ hpasses hdir))
      ((h.within hsound).reaped hpassed.reaped _))
    rintro (_ | ⟨e, off⟩) v ⟨-, hlookup⟩ <;> apply wp_pure
    · rw [hwalk, enter, if_pos hdir, ← hsame, hlookup.1]
      rfl
    · obtain ⟨i, hfind, -, hnext, -⟩ := hlookup
      rw [hwalk, enter, if_pos hdir, ← hsame, hfind]
      exact congrArg some hnext

end

/-- `skipelem` cuts a path into its components. Where the walk is clear, `namei` and `nameiparent`
return, and lead where looking the components up one after another does. -/
theorem path_resolution (path : Path) :
    (∀ fuel, path.length < fuel → elements fuel path = components path) ∧
    ∀ (sb : Superblock) (H : Multiset Ix) (V : ℕ → Node) (s : Vol) (cwd : Ix), Rep sb H ∅ V s →
      Sound V → cwd ∈ H → (V (startInum s cwd path)).type ≠ 0 →
      Clear H V s (startInum s cwd path) (components path) →
      wp (namei cwd path) (fun r t => (r.map fun e => (t.icache e).inum) =
        walk V (startInum s cwd path) (components path)) (fun _ => False) s ∧
      (walk V (startInum s cwd path) (components path) = none ↔ ∃ done name rest m,
        components path = done ++ name :: rest ∧ walk V (startInum s cwd path) done = some m ∧
        ((V m).type ≠ T_DIR ∨ (V m).find name = none)) ∧
      wp (nameiparent cwd path) (fun r t => (r.map fun x => ((t.icache x.1).inum, x.2)) =
        walkParent V (startInum s cwd path) (components path)) (fun _ => False) s ∧
      (walkParent V (startInum s cwd path) (components path) = none ↔ components path = [] ∨
        walk V (startInum s cwd path) (components path).dropLast = none ∨
        ∃ d, walk V (startInum s cwd path) (components path).dropLast = some d ∧
          (V d).type ≠ T_DIR) ∧
      (walkParent V (startInum s cwd path) (components path) ≠ none →
        wp (nameiByParent cwd path) (fun r t => (r.map fun e => (t.icache e).inum) =
          walk V (startInum s cwd path) (components path)) (fun _ => False) s) := by
  refine ⟨fun fuel => elements_eq, fun sb H V s cwd h hsound hcwd hstart hclear => ?_⟩
  refine ⟨namei_walk h hsound hcwd hstart hclear, walk_eq_none_iff, ?_, walkParent_eq_none_iff,
    nameiByParent_walk h hsound hcwd hstart hclear⟩
  apply wp_conseq (nameiparent_walk h hsound hcwd hstart hclear)
  rintro (_ | ⟨e, name⟩) t hpost
  · exact hpost.1.symm
  · exact hpost.1.symm

/-- The files of a volume with nothing but an empty root directory. -/
def dirFiles : ℕ → Node := nodes smallDisk (diskInode smallDisk dirBlk) dirBlk

theorem dirFiles_rep : Rep smallDisk {0} ∅ dirFiles dirProc.vol :=
  empty_rep (by decide +kernel) (by decide +kernel) (by decide +kernel) (by decide +kernel)

theorem dirFiles_node {n : ℕ} (h : (dirFiles n).type ≠ 0) :
    (dirFiles n).size = 0 ∧ (dirFiles n).nlink = 1 := by
  have hcheck : ∀ n < 3, (dirFiles n).type ≠ 0 → (dirFiles n).size = 0 ∧
      (dirFiles n).nlink = 1 := by
    decide +kernel
  exact hcheck n (dirFiles_rep.lt_of_type h) h

theorem dirFiles_slots {n : ℕ} (h : (dirFiles n).type ≠ 0) : (dirFiles n).slots = 0 := by
  rw [Node.slots, (dirFiles_node h).1]
  exact Nat.zero_div _

/-- `nameiparent("//a/")` is the root directory. -/
theorem path_resolution_parent :
    walkParent dirFiles 1 (components [slash, slash, 0x61, slash]) = some (1, [0x61]) ∧
    wp (nameiparent 0 [slash, slash, 0x61, slash]) (fun r t =>
      (r.map fun x => ((t.icache x.1).inum, x.2)) = some (1, [0x61])) (fun _ => False)
      dirProc.vol := by
  have hdir : ∀ {n}, (dirFiles n).type = T_DIR → (dirFiles n).type ≠ 0 := by
    intro n hn
    rw [hn]
    decide
  have hsound : Sound dirFiles := by
    intro n hn i hi
    rw [dirFiles_slots (hdir hn)] at hi
    exact absurd hi (Nat.not_lt_zero i)
  have hclear : Clear {0} dirFiles dirProc.vol 1 (components [slash, slash, 0x61, slash]) := by
    refine ⟨by decide, fun m _ hm => ?_, fun m _ hm hlink => ?_⟩
    · rw [Node.Whole, (dirFiles_node (hdir hm)).1, dirFiles_slots (hdir hm), Nat.mul_zero]
    · rw [(dirFiles_node hm).2] at hlink
      cases hlink
  have hwalk : walkParent dirFiles 1 (components [slash, slash, 0x61, slash]) =
      some (1, [0x61]) := by
    decide +kernel
  have hpath := ((path_resolution [slash, slash, 0x61, slash]).2 _ _ _ _ 0 dirFiles_rep hsound
    (Multiset.mem_singleton_self 0) (by decide +kernel) hclear).2.2.1
  exact ⟨hwalk, hwalk ▸ hpath⟩

/-- Writes 24 zeros to the directory in entry 0. -/
def pad : M ℤ := do
  ilock 0
  let r ← writei 0 (fun _ => 0) 0 24
  iunlock 0
  return r

/-- A directory of 24 bytes holds one entry, which is free, and half of another one. The lookup of a
name in it panics. -/
theorem namei_panics_partial_entry : ∃ sb V s, Rep sb {0} ∅ V s ∧ Sound V ∧
    (V (startInum s 0 [0x61])).type = T_DIR ∧
    namei 0 [0x61] s = .error (.panic "dirlink read") := by
  have hcheck : ((pad dirProc.vol).toOption.any fun (r : ℤ × Vol) => decide (r.1 = 24 ∧
      stopOf (namei 0 [0x61] r.2) = some (.panic "dirlink read"))) = true := by decide +kernel
  have hheld : (0 : Ix) ∈ ({0} : Multiset Ix) := Multiset.mem_singleton_self 0
  have hroot : (dirFiles 1).type = T_DIR := by decide +kernel
  have hspec : wp pad (fun r s => r = 24 → Rep smallDisk {0} ∅
      (Function.update dirFiles 1 ((dirFiles 1).write (fun _ => 0) 0 24)) s ∧
      (s.icache 0).inum = 1) (fun _ => True) dirProc.vol := by
    unfold pad
    apply wp_call (ilock_rep (n := 1) dirFiles_rep (fun _ => trivial) hheld rfl (.inr trivial))
    rintro _ t ⟨hrep, hv, -, -, -, hkept⟩
    have hn : (t.icache 0).inum = 1 := hkept.inum 0 hheld
    apply wp_call (writei_rep hrep tolerant_true hheld hv hn (by decide))
    rintro r u (⟨-, hdev | ⟨rfl, -⟩⟩ | ⟨-, -, -, -, hrep', hkept'⟩)
    · rw [hroot] at hdev
      exact absurd hdev (by decide)
    · apply wp_call (wp_true _ _)
      intro _ v _
      exact wp_pure fun hr => absurd hr (by decide)
    · apply wp_call (iunlock_rep hrep' (fun _ => trivial) hheld)
      rintro _ v ⟨hrep'', -, hkept''⟩
      refine wp_pure fun _ => ⟨by simpa using hrep'', ?_⟩
      exact (hkept''.inum 0 hheld).trans ((hkept'.inum 0 hheld).trans hn)
  have hnew : ∀ n, n ≠ 1 → Function.update dirFiles 1 ((dirFiles 1).write (fun _ => 0) 0 24) n =
      dirFiles n := fun n hn => Function.update_of_ne hn ..
  have hsound : Sound (Function.update dirFiles 1 ((dirFiles 1).write (fun _ => 0) 0 24)) := by
    intro n hdir i hi hused
    by_cases hn : n = 1
    · -- the only whole entry is free
      rw [hn, Function.update_self] at hi hused
      have hfirst : ∀ i < ((dirFiles 1).write (fun _ => 0) 0 24).slots,
          ((dirFiles 1).write (fun _ => 0) 0 24).inumAt i = 0 := by decide +kernel
      exact absurd (hfirst i hi) hused
    · rw [hnew n hn] at hdir hi
      rw [dirFiles_slots (by rw [hdir]; decide)] at hi
      exact absurd hi (Nat.not_lt_zero i)
  cases hrun : pad dirProc.vol with
  | error e =>
    rw [hrun] at hcheck
    exact absurd hcheck Bool.false_ne_true
  | ok p =>
    obtain ⟨r, s⟩ := p
    rw [hrun] at hcheck
    obtain ⟨hr, hstop⟩ := of_decide_eq_true hcheck
    obtain ⟨hrep, hinum⟩ := wp_ok hspec hrun hr
    refine ⟨_, _, s, hrep, hsound, ?_, ?_⟩
    · rw [show startInum s 0 [0x61] = 1 from hinum, Function.update_self]
      exact hroot
    · exact stop_eq hstop

end Xv6Threads.Fs
