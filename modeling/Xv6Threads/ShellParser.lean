import Xv6Threads.ShellLexer

namespace Xv6Threads.Shell

open Function List Prod

section
variable {text : List Char} {s : ℕ} {ts rest : List Tok} {cmd : Cmd Word} {turns : ℕ}

/-- The parser has returned what is derived by `D` from the first tokens, or it has panicked. -/
def Sound (text : List Char) (ts : List Tok) (D : List Tok → Cmd Word → Prop) (r : Parsed) : Prop :=
  (∃ us rest cmd s, ts = us ++ rest ∧ D us cmd ∧ At text s rest ∧ r = .ok (cmd, s)) ∨
    ∃ msg, r = .error (.panic msg)

theorem Sound.panic {D : List Tok → Cmd Word → Prop} (msg : String) :
    Sound text ts D (Shell.panic msg) := .inr ⟨msg, rfl⟩

variable {D P : List Tok → Cmd Word → Prop}

theorem Sound.bind {r : Parsed} {k : Cmd Word × ℕ → Parsed} (h : Sound text ts D r)
    (hk : ∀ us rest cmd s, ts = us ++ rest → D us cmd → At text s rest →
      Sound text ts P (k (cmd, s))) : Sound text ts P (r >>= k) := by
  rcases h with ⟨us, rest, cmd, s, hts, hD, hat, rfl⟩ | ⟨msg, rfl⟩
  · exact hk us rest cmd s hts hD hat
  · exact .inr ⟨msg, rfl⟩

/-- A derivation of the tokens that are left is one of all tokens. -/
theorem Sound.shift {r : Parsed} (us : List Tok)
    (h : Sound text rest D r) (hts : ts = us ++ rest) (hD : ∀ vs cmd, D vs cmd → P (us ++ vs) cmd) :
    Sound text ts P r := by
  rcases h with ⟨vs, rest', cmd, s, hvs, hcmd, hat, hr⟩ | hpanic
  · refine .inl ⟨us ++ vs, rest', cmd, s, ?_, hD vs cmd hcmd, hat, hr⟩
    rw [hts, hvs, append_assoc]
  · exact .inr hpanic

theorem starts_iff {toks : List Char} : starts toks ts = true ↔
    ∃ t us c, ts = t :: us ∧ t.lead = some c ∧ c ∈ toks := by
  cases ts with
  | nil => simp [starts]
  | cons t us => cases h : t.lead <;> simp [starts, h]

theorem redirs_cons (r : Redir Word) (rs : List (Redir Word)) :
    redirs (r :: rs) = r.toks ++ redirs rs :=
  rfl

theorem exists_redir {t : Tok} {c : Char} (hlead : t.lead = some c) (hc : c ∈ ['<', '>'])
    (w : Word) :
    ∃ r : Redir Word, r.toks = [t, .word w] ∧ ∀ cmd, redircmd cmd w t.ret = r.apply cmd := by
  cases t with
  | lt => exact ⟨.read w, rfl, fun _ => rfl⟩
  | gt => exact ⟨.write w, rfl, fun _ => rfl⟩
  | gtgt => exact ⟨.append w, rfl, fun _ => rfl⟩
  | word w' => cases hlead
  | bar | amp | semi | lpar | rpar => cases hlead; exact absurd hc (by decide)

theorem ret_eq_a {t : Tok} (h : t.ret = 'a') : ∃ w, t = .word w := by
  cases t with
  | word w => exact ⟨w, rfl⟩
  | _ => exact absurd h (by decide)

theorem ret_ne_nul (t : Tok) : t.ret ≠ NUL := by
  cases t with
  | word w => exact (by decide : ('a' : Char) ≠ NUL)
  | _ => decide

theorem length_redirs (rs : List (Redir Word)) : rs.length ≤ (redirs rs).length := by
  induction rs with
  | nil => exact le_rfl
  | cons r rs ih =>
    have hlen : r.toks.length = 2 := by cases r <;> rfl
    rw [redirs_cons, length_append, length_cons]
    omega

theorem parseredirs_sound (cmd : Cmd Word) (hnul : NUL ∉ text) (h : At text s ts)
    (hturns : ts.length < turns) :
    Sound text ts (fun us cmd' => ∃ rs, us = redirs rs ∧ cmd' = redirect cmd rs)
      (parseredirs text turns cmd s) := by
  induction turns generalizing s ts cmd with
  | zero => omega
  | succ turns ih =>
    obtain ⟨s₁, h₁, hpeek⟩ := peek_at hnul h ['<', '>'] (by decide)
    unfold parseredirs
    simp only [hpeek]
    by_cases hmore : starts ['<', '>'] ts = true
    · rw [if_pos hmore]
      obtain ⟨t, us, c, rfl, hlead, hc⟩ := starts_iff.mp hmore
      obtain ⟨w₁, s₂, h₂, hget, -⟩ := gettoken_cons hnul h₁
      simp only [hget]
      cases us with
      | nil =>
        simp only [gettoken_nil h₂]
        rw [if_pos (by decide)]
        exact .panic _
      | cons t' us =>
        obtain ⟨w, s₃, h₃, hget', hw⟩ := gettoken_cons hnul h₂
        simp only [hget']
        by_cases ha : t'.ret ≠ 'a'
        · rw [if_pos ha]
          exact .panic _
        · rw [if_neg ha]
          obtain ⟨w', rfl⟩ := ret_eq_a (not_not.mp ha)
          obtain rfl := hw w' rfl
          obtain ⟨r, htoks, hr⟩ := exists_redir hlead hc w'
          rw [hr]
          refine Sound.shift [t, .word w']
            (ih _ h₃ (by simp only [length_cons] at hturns; omega)) rfl ?_
          rintro vs cmd' ⟨rs, rfl, rfl⟩
          exact ⟨r :: rs, by rw [redirs_cons, htoks], rfl⟩
    · rw [if_neg hmore]
      exact .inl ⟨[], ts, cmd, s₁, rfl, ⟨[], rfl, rfl⟩, h₁, rfl⟩

theorem parseredirs_complete (cmd : Cmd Word) (hnul : NUL ∉ text) (rs : List (Redir Word))
    (h : At text s (redirs rs ++ rest)) (hrest : starts ['<', '>'] rest = false)
    (hturns : rs.length < turns) :
    ∃ s', At text s' rest ∧ parseredirs text turns cmd s = .ok (redirect cmd rs, s') := by
  induction rs generalizing turns s cmd with
  | nil =>
    obtain ⟨turns, rfl⟩ : ∃ k, turns = k + 1 := ⟨turns - 1, by omega⟩
    obtain ⟨s₁, h₁, hpeek⟩ := peek_at hnul h ['<', '>'] (by decide)
    refine ⟨s₁, h₁, ?_⟩
    unfold parseredirs
    simp only [hpeek]
    rw [show starts ['<', '>'] (redirs [] ++ rest) = false from hrest]
    rfl
  | cons r rs ih =>
    obtain ⟨turns, rfl⟩ : ∃ k, turns = k + 1 := ⟨turns - 1, by omega⟩
    rw [length_cons] at hturns
    obtain ⟨t, w, htoks, hlead, hr⟩ : ∃ t w, r.toks = [t, .word w] ∧
        (∀ us, starts ['<', '>'] (t :: us) = true) ∧ redircmd cmd w t.ret = r.apply cmd := by
      cases r with
      | read w => exact ⟨.lt, w, rfl, fun _ => rfl, rfl⟩
      | write w => exact ⟨.gt, w, rfl, fun _ => rfl, rfl⟩
      | append w => exact ⟨.gtgt, w, rfl, fun _ => rfl, rfl⟩
    rw [redirs_cons, htoks] at h
    obtain ⟨s₁, h₁, hpeek⟩ := peek_at hnul h ['<', '>'] (by decide)
    obtain ⟨w₁, s₂, h₂, hget, -⟩ := gettoken_cons hnul h₁
    obtain ⟨w₂, s₃, h₃, hget', hw⟩ := gettoken_cons hnul h₂
    obtain rfl := hw w rfl
    obtain ⟨s', h', hparse⟩ : ∃ s', At text s' rest ∧
        parseredirs text turns (r.apply cmd) s₃ = .ok (redirect (r.apply cmd) rs, s') :=
      ih _ h₃ (by omega)
    refine ⟨s', h', ?_⟩
    unfold parseredirs
    simp only [hpeek, cons_append, hlead, if_true, hget, hget', hr]
    exact hparse

theorem addArg_redirect (w : Word) (argv : List Word) (rs : List (Redir Word)) :
    addArg w (redirect (.exec argv) rs) = redirect (.exec (argv ++ [w])) rs := by
  have happly : ∀ (r : Redir Word) (cmd : Cmd Word), addArg w (r.apply cmd) =
      r.apply (addArg w cmd) := by
    intro r cmd
    cases r <;> rfl
  have hfold : ∀ cmd : Cmd Word, addArg w (redirect cmd rs) = redirect (addArg w cmd) rs := by
    induction rs with
    | nil => exact fun _ => rfl
    | cons r rs ih =>
      intro cmd
      change addArg w (redirect (r.apply cmd) rs) = redirect (r.apply (addArg w cmd)) rs
      rw [ih, happly]
  exact hfold _

theorem redirect_append (rs rs' : List (Redir Word)) :
    redirect cmd (rs ++ rs') = redirect (redirect cmd rs) rs' := foldl_append

/-- The words and redirections that are added to a simple command. -/
def Adds (argv : List Word) (rs : List (Redir Word)) (us : List Tok) (cmd : Cmd Word) : Prop :=
  ∃ as : Args, as.length + argv.length ≤ MAXARGS - 1 ∧ us = as.toks ∧
    cmd = redirect (.exec (argv ++ as.map fst)) (rs ++ as.flatMap snd)

theorem Adds.nil {argv : List Word} (h : argv.length ≤ MAXARGS - 1) (rs : List (Redir Word)) :
    Adds argv rs [] (redirect (.exec argv) rs) :=
  ⟨[], by simpa using h, rfl, by simp⟩

variable {w : Word}

theorem Adds.cons {argv : List Word} {rs rs' : List (Redir Word)} {us : List Tok}
    (h : Adds (argv ++ [w]) (rs ++ rs') us cmd) : Adds argv rs (.word w :: redirs rs' ++
      us) cmd := by
  obtain ⟨as, hlen, rfl, rfl⟩ := h
  refine ⟨(w, rs') :: as, ?_, rfl, ?_⟩
  · simp only [length_append, length_cons, length_nil] at hlen ⊢
    omega
  · simp only [map_cons, flatMap_cons, append_assoc, singleton_append]

theorem parseargs_sound (hnul : NUL ∉ text) (argv : List Word) (rs : List (Redir Word))
    (h : At text s ts) (hturns : ts.length < turns) (hargv : argv.length ≤ MAXARGS - 1) :
    Sound text ts (Adds argv rs) (parseargs text turns (redirect
      (.exec argv) rs) argv.length s) := by
  induction turns generalizing s ts argv rs with
  | zero => omega
  | succ turns ih =>
    obtain ⟨s₁, h₁, hpeek⟩ := peek_at hnul h ['|', ')', '&', ';'] (by decide)
    unfold parseargs
    simp only [hpeek]
    by_cases hstop : starts ['|', ')', '&', ';'] ts = true
    · rw [if_pos hstop]
      exact .inl ⟨[], ts, _, s₁, rfl, .nil hargv rs, h₁, rfl⟩
    rw [if_neg hstop]
    cases ts with
    | nil =>
      simp only [gettoken_nil h₁, if_true]
      exact .inl ⟨[], [], _, text.length, rfl, .nil hargv rs, ⟨le_rfl, by rw [drop_length]; rfl⟩,
        rfl⟩
    | cons t us =>
      obtain ⟨w, s₂, h₂, hget, hw⟩ := gettoken_cons hnul h₁
      simp only [hget]
      rw [if_neg (ret_ne_nul t)]
      by_cases ha : t.ret ≠ 'a'
      · rw [if_pos ha]
        exact .panic _
      rw [if_neg ha]
      obtain ⟨w', rfl⟩ := ret_eq_a (not_not.mp ha)
      obtain rfl := hw w' rfl
      by_cases hmany : argv.length + 1 ≥ MAXARGS
      · rw [if_pos hmany]
        exact .panic _
      rw [if_neg hmany, addArg_redirect]
      have hlen : us.length < turns := by
        rw [length_cons] at hturns
        omega
      refine Sound.shift (D := fun vs cmd => Adds argv rs (.word w' :: vs) cmd) [.word w'] ?_ rfl
        fun vs cmd hD => hD
      refine (parseredirs_sound _ hnul h₂ (by have := h₂.length_le; omega)).bind ?_
      rintro vs rest cmd s₃ hvs ⟨rs', rfl, rfl⟩ h₃
      rw [← redirect_append]
      have hargv' : (argv ++ [w']).length = argv.length + 1 := by simp
      rw [← hargv']
      refine (ih (argv ++ [w']) (rs ++ rs') h₃ ?_ (by rw [hargv']; omega)).shift _ hvs ?_
      · rw [hvs, length_append] at hlen
        omega
      · intro vs cmd hD
        exact hD.cons

def Stops (rest : List Tok) : Prop := rest = [] ∨ starts ['|', ')', '&', ';'] rest = true

theorem Stops.no_redir (h : Stops rest) : starts ['<', '>'] rest = false := by
  rcases h with rfl | h
  · rfl
  · obtain ⟨t, us, c, rfl, hlead, hc⟩ := starts_iff.mp h
    simp only [starts, hlead, Option.any_some, decide_eq_false_iff_not]
    simp only [mem_cons, not_mem_nil, or_false] at hc
    rcases hc with rfl | rfl | rfl | rfl <;> decide

theorem parseargs_complete (hnul : NUL ∉ text) (as : Args) (argv : List Word)
    (rs : List (Redir Word))
    (h : At text s (as.toks ++ rest)) (hrest : Stops rest) (hturns : as.length < turns)
    (hargv : as.length + argv.length ≤ MAXARGS - 1) :
    ∃ s', At text s' rest ∧ parseargs text turns (redirect (.exec argv) rs) argv.length s =
      .ok (redirect (.exec (argv ++ as.map fst)) (rs ++ as.flatMap snd), s') := by
  induction as generalizing turns s argv rs with
  | nil =>
    obtain ⟨turns, rfl⟩ : ∃ k, turns = k + 1 := ⟨turns - 1, by omega⟩
    change At text s rest at h
    obtain ⟨s₁, h₁, hpeek⟩ := peek_at hnul h ['|', ')', '&', ';'] (by decide)
    unfold parseargs
    simp only [hpeek, map_nil, flatMap_nil, append_nil]
    rcases hrest with rfl | hstop
    · refine ⟨text.length, ⟨le_rfl, by rw [drop_length]; rfl⟩, ?_⟩
      simp only [starts, Bool.false_eq_true, if_false, gettoken_nil h₁, if_true]
    · exact ⟨s₁, h₁, by rw [if_pos hstop]⟩
  | cons a as ih =>
    obtain ⟨turns, rfl⟩ : ∃ k, turns = k + 1 := ⟨turns - 1, by omega⟩
    obtain ⟨w, rs'⟩ := a
    rw [length_cons] at hturns hargv
    have htoks : Args.toks ((w, rs') :: as) ++ rest =
        .word w :: (redirs rs' ++ (Args.toks as ++ rest)) := by
      simp [Args.toks]
    rw [htoks] at h
    obtain ⟨s₁, h₁, hpeek⟩ := peek_at hnul h ['|', ')', '&', ';'] (by decide)
    obtain ⟨w₁, s₂, h₂, hget, hw⟩ := gettoken_cons hnul h₁
    obtain rfl := hw w rfl
    have hnext : starts ['<', '>'] (Args.toks as ++ rest) = false := by
      cases as with
      | nil => exact hrest.no_redir
      | cons a as => rfl
    have hlen : rs'.length < text.length + 1 := by
      have hle := h₂.length_le
      have hcount := length_redirs rs'
      rw [length_append] at hle
      omega
    obtain ⟨s₃, h₃, hredirs⟩ :=
      parseredirs_complete (redirect (.exec (argv ++ [w])) rs) hnul rs' h₂ hnext hlen
    have hargv' : (argv ++ [w]).length = argv.length + 1 := by simp
    have hlt : ¬argv.length + 1 ≥ MAXARGS := by omega
    obtain ⟨s', h', hparse⟩ := ih (argv ++ [w]) (rs ++ rs') h₃ (by omega : as.length < turns)
      (by rw [hargv']; omega)
    refine ⟨s', h', ?_⟩
    unfold parseargs
    simp only [hpeek, hget, addArg_redirect, if_neg (ret_ne_nul _), if_neg hlt]
    change (parseredirs text (text.length + 1) (redirect (.exec (argv ++ [w])) rs) s₂ >>= fun x =>
      parseargs text turns x.1 (argv.length + 1) x.2) = _
    rw [hredirs]
    change parseargs text turns (redirect (redirect (.exec (argv ++ [w])) rs) rs')
      (argv.length + 1) s₃ = _
    rw [← redirect_append, ← hargv', hparse]
    simp only [map_cons, flatMap_cons, append_assoc, singleton_append]

theorem starts_tok {u : Tok} (hu : u ∈ [Tok.bar, .amp, .semi, .lpar, .rpar])
    (h : starts [u.ret] ts = true) : ∃ us, ts = u :: us := by
  obtain ⟨t, us, c, rfl, hlead, hc⟩ := starts_iff.mp h
  refine ⟨us, ?_⟩
  rw [mem_singleton.mp hc] at hlead
  simp only [mem_cons, not_mem_nil, or_false] at hu
  rcases hu with rfl | rfl | rfl | rfl | rfl <;> cases t <;> first | rfl | simp [Tok.lead, Tok.ret]
    at hlead

theorem parseback_sound (cmd : Cmd Word) (hnul : NUL ∉ text) (h : At text s ts)
    (hturns : ts.length < turns) :
    Sound text ts (fun us cmd' => ∃ n, us = List.replicate n .amp ∧ cmd' = background n cmd)
      (parseback text turns cmd s) := by
  induction turns generalizing s ts cmd with
  | zero => omega
  | succ turns ih =>
    obtain ⟨s₁, h₁, hpeek⟩ := peek_at hnul h ['&'] (by decide)
    unfold parseback
    simp only [hpeek]
    by_cases hmore : starts ['&'] ts = true
    · rw [if_pos hmore]
      obtain ⟨us, rfl⟩ := starts_tok (u := .amp) (by decide) hmore
      obtain ⟨w₁, s₂, h₂, hget, -⟩ := gettoken_cons hnul h₁
      simp only [hget]
      refine Sound.shift [.amp] (ih (.back cmd) h₂ (by rw [length_cons] at hturns; omega)) rfl ?_
      rintro vs cmd' ⟨n, rfl, rfl⟩
      exact ⟨n + 1, rfl, rfl⟩
    · rw [if_neg hmore]
      exact .inl ⟨[], ts, cmd, s₁, rfl, ⟨0, rfl, rfl⟩, h₁, rfl⟩

theorem parseback_complete (cmd : Cmd Word) (hnul : NUL ∉ text) (n : ℕ)
    (h : At text s (List.replicate n .amp ++ rest)) (hrest : starts ['&'] rest = false)
    (hturns : n < turns) :
    ∃ s', At text s' rest ∧ parseback text turns cmd s = .ok (background n cmd, s') := by
  induction n generalizing turns s cmd with
  | zero =>
    obtain ⟨turns, rfl⟩ : ∃ k, turns = k + 1 := ⟨turns - 1, by omega⟩
    change At text s rest at h
    obtain ⟨s₁, h₁, hpeek⟩ := peek_at hnul h ['&'] (by decide)
    refine ⟨s₁, h₁, ?_⟩
    unfold parseback
    simp only [hpeek, hrest, Bool.false_eq_true, if_false]
    rfl
  | succ n ih =>
    obtain ⟨turns, rfl⟩ : ∃ k, turns = k + 1 := ⟨turns - 1, by omega⟩
    rw [replicate_succ, cons_append] at h
    obtain ⟨s₁, h₁, hpeek⟩ := peek_at hnul h ['&'] (by decide)
    obtain ⟨w₁, s₂, h₂, hget, -⟩ := gettoken_cons hnul h₁
    obtain ⟨s', h', hparse⟩ : ∃ s', At text s' rest ∧
      parseback text turns (.back cmd) s₂ = .ok (background n (.back cmd), s') := ih _ h₂ (by omega)
    refine ⟨s', h', ?_⟩
    unfold parseback
    simp only [hpeek, hget]
    exact hparse

/-- A number of turns that is enough for the function of the symbol. -/
def bound (X : Symbol) (n : ℕ) : ℕ :=
  match X with
  | .line => 4 * n + 4
  | .pipe => 4 * n + 3
  | .exec => 4 * n + 2

def parse (text : List Char) : Symbol → ℕ → ℕ → Parsed
  | .line => parseline text
  | .pipe => parsepipe text
  | .exec => parseexec text

theorem parse_sound (hnul : NUL ∉ text) (turns : ℕ) :
    (∀ X s ts, At text s ts → bound X ts.length ≤ turns →
      Sound text ts (Derives X) (parse text X turns s)) ∧
    ∀ s us, At text s (.lpar :: us) → 4 * us.length + 5 ≤ turns →
      Sound text (.lpar :: us) (Derives .exec) (parseblock text turns s) := by
  induction turns with
  | zero =>
    constructor
    · intro X s ts _ hturns
      cases X <;> simp only [bound] at hturns <;> omega
    · intro s us _ hturns
      omega
  | succ turns ih =>
    obtain ⟨ihX, ihblock⟩ := ih
    constructor
    · intro X s ts h hturns
      cases X with
      | line =>
        change Sound text ts _ (parseline text (turns + 1) s)
        rw [parseline]
        simp only [bound] at hturns
        refine (ihX .pipe s ts h (by simp only [bound]; omega)).bind ?_
        intro us rest cmd s₁ hts hpipe h₁
        refine Sound.shift (D := fun vs cmd' => Derives .line
          (us ++ vs) cmd') us ?_ hts fun _ _ hD => hD
        refine (parseback_sound cmd hnul h₁ (by have := h₁.length_le; omega)).bind ?_
        rintro vs rest' cmd' s₂ rfl ⟨n, rfl, rfl⟩ h₂
        obtain ⟨s₃, h₃, hpeek⟩ := peek_at hnul h₂ [';'] (by decide)
        simp only [hpeek]
        by_cases hmore : starts [';'] rest' = true
        · rw [if_pos hmore]
          obtain ⟨us', rfl⟩ := starts_tok (u := .semi) (by decide) hmore
          obtain ⟨w, s₄, h₄, hget, -⟩ := gettoken_cons hnul h₃
          simp only [hget]
          rw [hts] at hturns
          simp only [length_append, length_cons] at hturns
          refine (Sound.bind (P := fun vs cmd' => Derives .line
            (us ++ (List.replicate n .amp ++ .semi :: vs)) cmd')
            (ihX .line s₄ us' h₄ (by simp only [bound]; omega)) ?_).shift
            (List.replicate n .amp ++ [.semi]) (by simp) fun vs cmd' hD => by simpa using hD
          intro vs' rest'' right s₅ hvs' hline h₅
          refine .inl ⟨vs', rest'', _, s₅, hvs', ?_, h₅, rfl⟩
          have hlist := Derives.list n hpipe hline
          rwa [append_assoc] at hlist
        · rw [if_neg hmore]
          exact .inl ⟨_, rest', _, s₃, rfl, .line n hpipe, h₃, rfl⟩
      | pipe =>
        change Sound text ts _ (parsepipe text (turns + 1) s)
        rw [parsepipe]
        simp only [bound] at hturns
        refine (ihX .exec s ts h (by simp only [bound]; omega)).bind ?_
        intro us rest cmd s₁ hts hexec h₁
        obtain ⟨s₂, h₂, hpeek⟩ := peek_at hnul h₁ ['|'] (by decide)
        simp only [hpeek]
        by_cases hmore : starts ['|'] rest = true
        · rw [if_pos hmore]
          obtain ⟨us', rfl⟩ := starts_tok (u := .bar) (by decide) hmore
          obtain ⟨w, s₃, h₃, hget, -⟩ := gettoken_cons hnul h₂
          simp only [hget]
          rw [hts] at hturns
          simp only [length_append, length_cons] at hturns
          refine (Sound.bind (P := fun vs cmd' => Derives .pipe (us ++ .bar :: vs) cmd')
            (ihX .pipe s₃ us' h₃ (by simp only [bound]; omega)) ?_).shift (us ++ [.bar])
            (by simp [hts]) fun vs cmd' hD => by simpa using hD
          intro vs' rest'' right s₄ hvs' hpipe h₄
          exact .inl ⟨vs', rest'', _, s₄, hvs', .pipe hexec hpipe, h₄, rfl⟩
        · rw [if_neg hmore]
          exact .inl ⟨us, rest, _, s₂, hts, .exec hexec, h₂, rfl⟩
      | exec =>
        change Sound text ts _ (parseexec text (turns + 1) s)
        rw [parseexec]
        simp only [bound] at hturns
        obtain ⟨s₁, h₁, hpeek⟩ := peek_at hnul h ['('] (by decide)
        simp only [hpeek]
        by_cases hblock : starts ['('] ts = true
        · rw [if_pos hblock]
          obtain ⟨us, rfl⟩ := starts_tok (u := .lpar) (by decide) hblock
          refine ihblock s₁ us h₁ ?_
          rw [length_cons] at hturns
          omega
        · rw [if_neg hblock]
          refine (parseredirs_sound (.exec []) hnul h₁ (by have := h₁.length_le; omega)).bind ?_
          rintro us rest cmd s₂ hts ⟨rs, rfl, rfl⟩ h₂
          refine (parseargs_sound hnul [] rs h₂ (by have := h₂.length_le; omega)
            (by decide)).shift _ hts ?_
          rintro vs cmd ⟨as, hlen, rfl, rfl⟩
          exact .simple rs as (by simpa using hlen)
    · intro s us h hturns
      rw [parseblock]
      obtain ⟨s₁, h₁, hpeek⟩ := peek_at hnul h ['('] (by decide)
      simp only [hpeek]
      rw [show starts ['('] (.lpar :: us) = true from rfl, if_neg (by decide)]
      obtain ⟨w, s₂, h₂, hget, -⟩ := gettoken_cons hnul h₁
      simp only [hget]
      refine (Sound.bind (P := fun vs cmd' => Derives .exec (.lpar :: vs) cmd')
        (ihX .line s₂ us h₂ (by simp only [bound]; omega)) ?_).shift [.lpar] rfl fun _ _ hD => hD
      intro vs rest cmd s₃ hvs hline h₃
      obtain ⟨s₄, h₄, hpeek'⟩ := peek_at hnul h₃ [')'] (by decide)
      simp only [hpeek']
      by_cases hclosed : starts [')'] rest = true
      · rw [hclosed, if_neg (by decide)]
        obtain ⟨us', rfl⟩ := starts_tok (u := .rpar) (by decide) hclosed
        obtain ⟨w', s₅, h₅, hget', -⟩ := gettoken_cons hnul h₄
        simp only [hget']
        refine (parseredirs_sound cmd hnul h₅ (by have := h₅.length_le; omega)).shift
          (vs ++ [.rpar])
          (by simp [hvs]) ?_
        rintro vs' cmd' ⟨rs, rfl, rfl⟩
        have hblock := Derives.block rs hline
        simpa using hblock
      · rw [Bool.not_eq_true] at hclosed
        rw [hclosed, if_pos (by decide)]
        exact .panic _

def Follows : Symbol → List Tok → Prop
  | .line, rest => rest = [] ∨ starts [')'] rest = true
  | .pipe, rest => Stops rest ∧ starts ['|'] rest = false
  | .exec, rest => Stops rest

theorem Follows.line (h : Follows .line rest) :
    Stops rest ∧ starts ['|'] rest = false ∧ starts ['&'] rest = false ∧
      starts [';'] rest = false := by
  rcases h with rfl | h
  · exact ⟨.inl rfl, rfl, rfl, rfl⟩
  · obtain ⟨us, rfl⟩ := starts_tok (u := .rpar) (by decide) h
    exact ⟨.inr rfl, rfl, rfl, rfl⟩

theorem starts_simple (rs : List (Redir Word)) (as : Args) (h : Stops rest) :
    starts ['('] (redirs rs ++ as.toks ++ rest) = false := by
  cases rs with
  | cons r rs => cases r <;> rfl
  | nil =>
    cases as with
    | cons a as => rfl
    | nil =>
      rcases h with rfl | h
      · rfl
      · obtain ⟨t, us, c, rfl, hlead, hc⟩ := starts_iff.mp h
        change starts ['('] (t :: us) = false
        simp only [mem_cons, not_mem_nil, or_false] at hc
        rcases hc with rfl | rfl | rfl | rfl <;> simp [starts, hlead]

theorem length_toks (as : Args) : as.length ≤ as.toks.length := by
  induction as with
  | nil => exact le_rfl
  | cons a as ih =>
    have hcons : Args.toks (a :: as) = .word a.1 :: (redirs a.2 ++ Args.toks as) := by
      simp [Args.toks]
    rw [hcons, length_cons, length_cons, length_append]
    omega

theorem ok_bind {α β : Type} (a : α) (k : α → Except Fail β) : (Except.ok a >>= k) = k a := rfl

theorem parse_complete (hnul : NUL ∉ text) {X : Symbol} (hD : Derives X ts cmd)
    (h : At text s (ts ++ rest)) (hrest : Follows X rest)
    (hturns : bound X (ts ++ rest).length ≤ turns) :
    ∃ s', At text s' rest ∧ parse text X turns s = .ok (cmd, s') := by
  induction hD generalizing s rest turns with simp only [bound] at hturns
  | @line ts cmd n hpipe ih =>
    obtain ⟨turns, rfl⟩ : ∃ k, turns = k + 1 := ⟨turns - 1, by omega⟩
    obtain ⟨hstops, hbar, hamp, hsemi⟩ := hrest.line
    rw [append_assoc] at h hturns
    have hfollow : Follows .pipe (List.replicate n .amp ++ rest) := by
      cases n with
      | zero => exact ⟨hstops, hbar⟩
      | succ n => exact ⟨.inr rfl, rfl⟩
    obtain ⟨s₁, h₁, hparse⟩ : ∃ s', _ ∧ parsepipe text turns s = .ok (cmd, s') :=
      ih h hfollow (by simp only [bound]; omega)
    have hle := h₁.length_le
    rw [length_append, length_replicate] at hle
    obtain ⟨s₂, h₂, hback⟩ := parseback_complete cmd hnul n h₁ hamp (by omega : n < text.length + 1)
    obtain ⟨s₃, h₃, hpeek⟩ := peek_at hnul h₂ [';'] (by decide)
    refine ⟨s₃, h₃, ?_⟩
    change parseline text (turns + 1) s = _
    simp only [parseline, hparse, ok_bind, hback, hpeek, hsemi, Bool.false_eq_true, if_false]
  | @list ts us cmd right n hpipe hline ih ih' =>
    obtain ⟨turns, rfl⟩ : ∃ k, turns = k + 1 := ⟨turns - 1, by omega⟩
    rw [append_assoc, append_assoc, cons_append] at h hturns
    have hfollow : Follows .pipe (List.replicate n .amp ++ .semi :: (us ++ rest)) := by
      cases n with
      | zero | succ n => exact ⟨.inr rfl, rfl⟩
    obtain ⟨s₁, h₁, hparse⟩ : ∃ s', _ ∧ parsepipe text turns s = .ok (cmd, s') :=
      ih h hfollow (by simp only [bound]; omega)
    have hle := h₁.length_le
    rw [length_append, length_replicate] at hle
    obtain ⟨s₂, h₂, hback⟩ := parseback_complete cmd hnul n h₁ rfl (by omega : n < text.length + 1)
    obtain ⟨s₃, h₃, hpeek⟩ := peek_at hnul h₂ [';'] (by decide)
    obtain ⟨w, s₄, h₄, hget, -⟩ := gettoken_cons hnul h₃
    simp only [length_append, length_cons] at hturns
    obtain ⟨s₅, h₅, hparse'⟩ : ∃ s', _ ∧ parseline text turns s₄ = .ok (right, s') :=
      ih' h₄ hrest (by simp only [bound, length_append]; omega)
    refine ⟨s₅, h₅, ?_⟩
    change parseline text (turns + 1) s = _
    simp only [parseline, hparse, ok_bind, hback, hpeek, hget, hparse']
    rfl
  | @exec ts cmd hexec ih =>
    obtain ⟨turns, rfl⟩ : ∃ k, turns = k + 1 := ⟨turns - 1, by omega⟩
    obtain ⟨s₁, h₁, hparse⟩ : ∃ s', _ ∧ parseexec text turns s = .ok (cmd, s') :=
      ih h hrest.1 (by simp only [bound]; omega)
    obtain ⟨s₂, h₂, hpeek⟩ := peek_at hnul h₁ ['|'] (by decide)
    refine ⟨s₂, h₂, ?_⟩
    change parsepipe text (turns + 1) s = _
    simp only [parsepipe, hparse, ok_bind, hpeek, hrest.2, Bool.false_eq_true, if_false]
  | @pipe ts us cmd right hexec hpipe ih ih' =>
    obtain ⟨turns, rfl⟩ : ∃ k, turns = k + 1 := ⟨turns - 1, by omega⟩
    rw [append_assoc, cons_append] at h hturns
    have hfollow : Follows .exec (.bar :: (us ++ rest)) := .inr rfl
    obtain ⟨s₁, h₁, hparse⟩ : ∃ s', _ ∧ parseexec text turns s = .ok (cmd, s') :=
      ih h hfollow (by simp only [bound]; omega)
    obtain ⟨s₂, h₂, hpeek⟩ := peek_at hnul h₁ ['|'] (by decide)
    obtain ⟨w, s₃, h₃, hget, -⟩ := gettoken_cons hnul h₂
    simp only [length_append, length_cons] at hturns
    obtain ⟨s₄, h₄, hparse'⟩ : ∃ s', _ ∧ parsepipe text turns s₃ = .ok (right, s') :=
      ih' h₃ hrest (by simp only [bound, length_append]; omega)
    refine ⟨s₄, h₄, ?_⟩
    change parsepipe text (turns + 1) s = _
    simp only [parsepipe, hparse, ok_bind, hpeek, hget, hparse']
    rfl
  | @block ts cmd rs hline ih =>
    obtain ⟨turns, rfl⟩ : ∃ k, turns = k + 1 + 1 := ⟨turns - 2, by omega⟩
    rw [cons_append, append_assoc, cons_append] at h hturns
    obtain ⟨s₁, h₁, hpeek₁⟩ := peek_at hnul h ['('] (by decide)
    obtain ⟨s₂, h₂, hpeek₂⟩ := peek_at hnul h₁ ['('] (by decide)
    obtain ⟨w, s₃, h₃, hget, -⟩ := gettoken_cons hnul h₂
    simp only [length_append, length_cons] at hturns
    have hfollow : Follows .line (.rpar :: (redirs rs ++ rest)) := .inr rfl
    obtain ⟨s₄, h₄, hparse⟩ : ∃ s', _ ∧ parseline text turns s₃ = .ok (cmd, s') :=
      ih h₃ hfollow (by simp only [bound, length_append, length_cons]; omega)
    obtain ⟨s₅, h₅, hpeek₅⟩ := peek_at hnul h₄ [')'] (by decide)
    obtain ⟨w', s₆, h₆, hget', -⟩ := gettoken_cons hnul h₅
    have hle := h₆.length_le
    have hcount := length_redirs rs
    rw [length_append] at hle
    obtain ⟨s₇, h₇, hredirs⟩ := parseredirs_complete cmd hnul rs h₆ (Stops.no_redir hrest)
      (by omega : rs.length < text.length + 1)
    refine ⟨s₇, h₇, ?_⟩
    change parseexec text (turns + 1 + 1) s = _
    rw [parseexec, hpeek₁]
    change parseblock text (turns + 1) s₁ = _
    rw [parseblock, hpeek₂]
    simp only [hget, hparse, ok_bind, hpeek₅, hget']
    exact hredirs
  | simple rs as hlen =>
    obtain ⟨turns, rfl⟩ : ∃ k, turns = k + 1 := ⟨turns - 1, by omega⟩
    obtain ⟨s₁, h₁, hpeek⟩ := peek_at hnul h ['('] (by decide)
    rw [starts_simple rs as hrest] at hpeek
    rw [append_assoc] at h₁
    have hnext : starts ['<', '>'] (as.toks ++ rest) = false := by
      cases as with
      | nil => exact Stops.no_redir hrest
      | cons a as => rfl
    have hle := h₁.length_le
    have hcount := length_redirs rs
    have hcount' := length_toks as
    rw [length_append, length_append] at hle
    obtain ⟨s₂, h₂, hredirs⟩ := parseredirs_complete (.exec []) hnul rs h₁ hnext
      (by omega : rs.length < text.length + 1)
    obtain ⟨s₃, h₃, hargs⟩ := parseargs_complete hnul as [] rs h₂ hrest
      (by omega : as.length < text.length + 1) (by simpa using hlen)
    refine ⟨s₃, h₃, ?_⟩
    change parseexec text (turns + 1) s = _
    simp only [parseexec, hpeek, Bool.false_eq_true, if_false, hredirs, ok_bind]
    exact hargs

theorem words_redirect {rs : List (Redir Word)} (h : w ∈ (redirect cmd rs).words) :
    w ∈ cmd.words ∨ .word w ∈ redirs rs := by
  induction rs generalizing cmd with
  | nil => exact .inl h
  | cons r rs ih =>
    rw [redirs_cons, mem_append]
    rcases ih h with hmem | hmem
    · cases r with
      | _ file =>
        rcases mem_append.mp hmem with hmem | hmem
        · exact .inl hmem
        · rw [mem_singleton.mp hmem]
          exact .inr (.inl (mem_cons_of_mem _ mem_cons_self))
    · exact .inr (.inr hmem)

theorem words_background {n : ℕ} (h : w ∈ (background n cmd).words) : w ∈ cmd.words := by
  induction n generalizing cmd with
  | zero => exact h
  | succ n ih =>
    have hback : w ∈ (Cmd.back cmd).words := ih h
    exact hback

theorem mem_redirs {r : Redir Word} {rs : List (Redir Word)} {t : Tok} (hr : r ∈ rs)
    (ht : t ∈ r.toks) :
    t ∈ redirs rs := mem_flatMap.mpr ⟨r, hr, ht⟩

/-- The words of a command are among the tokens from which it is derived. -/
theorem Derives.words {X : Symbol} (h : Derives X ts cmd) (hw : w ∈ cmd.words) : .word w ∈ ts := by
  induction h with
  | line n _ ih => exact mem_append_left _ (ih (words_background hw))
  | list n _ _ ih ih' =>
    rcases mem_append.mp hw with hw | hw
    · exact mem_append_left _ (mem_append_left _ (ih (words_background hw)))
    · exact mem_append_right _ (mem_cons_of_mem _ (ih' hw))
  | exec _ ih => exact ih hw
  | pipe _ _ ih ih' =>
    rcases mem_append.mp hw with hw | hw
    · exact mem_append_left _ (ih hw)
    · exact mem_append_right _ (mem_cons_of_mem _ (ih' hw))
  | block rs _ ih =>
    refine mem_cons_of_mem _ ?_
    rcases words_redirect hw with hw | hw
    · exact mem_append_left _ (ih hw)
    · exact mem_append_right _ (mem_cons_of_mem _ hw)
  | simple rs as _ =>
    rcases words_redirect hw with hw | hw
    · obtain ⟨a, ha, rfl⟩ := mem_map.mp hw
      exact mem_append_right _ (mem_flatMap.mpr ⟨a, ha, mem_cons_self⟩)
    · obtain ⟨r, hr, hmem⟩ := mem_flatMap.mp hw
      rcases mem_append.mp hr with hr | hr
      · exact mem_append_left _ (mem_redirs hr hmem)
      · obtain ⟨a, ha, hr⟩ := mem_flatMap.mp hr
        exact mem_append_right _ (mem_flatMap.mpr ⟨a, ha, mem_cons_of_mem _ (mem_redirs hr hmem)⟩)

variable {buf : Buffer}

theorem nulterminate_of_ne {i : ℕ} (h : ∀ w ∈ cmd.words, i ≠ w.eq) :
    nulterminate cmd buf i = buf i := by
  induction cmd generalizing buf with
  | exec argv =>
    change ∀ w ∈ argv, i ≠ w.eq at h
    rw [nulterminate]
    induction argv generalizing buf with
    | nil => rfl
    | cons w argv ih =>
      rw [foldl_cons, ih fun w' hw' => h w' (mem_cons_of_mem _ hw')]
      exact update_of_ne (h w mem_cons_self) _ _
  | redir cmd file mode fd ih =>
    rw [nulterminate, update_of_ne (h file (mem_append_right _ mem_cons_self))]
    exact ih fun w hw => h w (mem_append_left _ hw)
  | pipe left right ih ih' | list left right ih ih' =>
    rw [nulterminate, ih' fun w hw => h w (mem_append_right _ hw)]
    exact ih fun w hw => h w (mem_append_left _ hw)
  | back cmd ih => exact ih h

theorem update_nul {i j : ℕ} (h : i = j ∨ buf i = NUL) : update buf j NUL i = NUL := by
  by_cases hij : i = j
  · rw [hij, update_self]
  · rw [update_of_ne hij, h.resolve_left hij]

theorem nul_both {left right : Cmd Word} {i : ℕ}
    (hleft : ∀ {buf}, (∃ w ∈ left.words, i = w.eq) ∨ buf i = NUL → nulterminate left buf i = NUL)
    (hright : ∀ {buf}, (∃ w ∈ right.words, i = w.eq) ∨ buf i = NUL → nulterminate right buf i = NUL)
    (h : (∃ w ∈ left.words ++ right.words, i = w.eq) ∨ buf i = NUL) :
    nulterminate right (nulterminate left buf) i = NUL := by
  apply hright
  rcases h with ⟨w, hw, rfl⟩ | h
  · rcases mem_append.mp hw with hw | hw
    · exact .inr (hleft (.inl ⟨w, hw, rfl⟩))
    · exact .inl ⟨w, hw, rfl⟩
  · exact .inr (hleft (.inr h))

theorem nulterminate_nul {i : ℕ} (h : (∃ w ∈ cmd.words, i = w.eq) ∨ buf i = NUL) :
    nulterminate cmd buf i = NUL := by
  induction cmd generalizing buf with
  | exec argv =>
    change (∃ w ∈ argv, i = w.eq) ∨ buf i = NUL at h
    rw [nulterminate]
    induction argv generalizing buf with
    | nil => exact h.resolve_left (by simp)
    | cons w argv ih =>
      rw [foldl_cons]
      apply ih
      rcases h with ⟨w', hw', rfl⟩ | h
      · rcases mem_cons.mp hw' with rfl | hw'
        · exact .inr (update_nul (.inl rfl))
        · exact .inl ⟨w', hw', rfl⟩
      · exact .inr (update_nul (.inr h))
  | redir cmd file mode fd ih =>
    rw [nulterminate]
    apply update_nul
    rcases h with ⟨w, hw, rfl⟩ | h
    · rcases mem_append.mp hw with hw | hw
      · exact .inr (ih (.inl ⟨w, hw, rfl⟩))
      · rw [mem_singleton.mp hw]
        exact .inl rfl
    · exact .inr (ih (.inr h))
  | pipe left right ih ih' | list left right ih ih' => exact nul_both ih ih' h
  | back cmd ih => exact ih h

theorem cstr_eq {q n : ℕ} {l : List Char} (hlen : l.length < n)
    (hchar : ∀ j c, l[j]? = some c → buf (q + j) = c ∧ c ≠ NUL) (hend : buf (q + l.length) = NUL) :
    cstr buf n q = l := by
  induction l generalizing n q with
  | nil =>
    obtain ⟨n, rfl⟩ : ∃ k, n = k + 1 := ⟨n - 1, by omega⟩
    rw [cstr, if_pos (by exact hend)]
  | cons c l ih =>
    obtain ⟨n, rfl⟩ : ∃ k, n = k + 1 := ⟨n - 1, by omega⟩
    obtain ⟨hc, hne⟩ := hchar 0 c rfl
    rw [Nat.add_zero] at hc
    rw [length_cons] at hlen hend
    rw [cstr, hc, if_neg hne, ih (by omega) ?_ ?_]
    · intro j c' hj
      have hnext := hchar (j + 1) c' hj
      rwa [← Nat.add_assoc, Nat.add_right_comm] at hnext
    · rw [← hend]
      congr 1
      omega

/-- The string to which a word of the command points is the word. -/
theorem cstr_word (hnul : NUL ∉ text) (hwords : ∀ w ∈ cmd.words, IsWordOf text w)
    (hw : w ∈ cmd.words) :
    cstr (nulterminate cmd (char text)) (text.length + 1) w.q = (text.drop w.q).take
      (w.eq - w.q) := by
  have hmine := hwords w hw
  have hle := hmine.le
  have hlt := hmine.lt
  have hlen : ((text.drop w.q).take (w.eq - w.q)).length = w.eq - w.q := by
    rw [length_take, length_drop]
    omega
  refine cstr_eq (by omega) (fun j c hj => ?_) ?_
  · have hj' := (List.getElem?_eq_some_iff.mp hj).1
    rw [List.getElem?_take_of_lt (by omega), List.getElem?_drop] at hj
    have hchar : char text (w.q + j) = c := by
      rw [char, getD_eq_getElem?_getD, hj]
      rfl
    refine ⟨?_, char_ne_nul hnul (by omega) hchar⟩
    -- no word ends inside another one
    rw [nulterminate_of_ne, hchar]
    intro w' hw' heq
    have hinside := hmine.inside (w.q + j) (by omega) (by omega)
    have hbehind := (hwords w' hw').behind (by omega)
    rw [← heq, hinside] at hbehind
    cases hbehind
  · rw [hlen, Nat.add_sub_cancel' hlt.le, nulterminate_nul (.inl ⟨w, hw, rfl⟩)]

theorem at_zero (text : List Char) : At text 0 (tokens text) := ⟨Nat.zero_le _, rfl⟩

theorem parsecmd_sound (hnul : NUL ∉ text) : (∃ cmd, Derives .line (tokens text) cmd ∧
      parsecmd text = .ok (cmd, nulterminate cmd (char text))) ∨
    ∃ msg, parsecmd text = .error (.panic msg) := by
  have hlen := (at_zero text).length_le
  rcases (parse_sound hnul (4 * text.length + 4)).1 .line 0 _ (at_zero text)
    (by simp only [bound]; omega)
    with ⟨us, rest, cmd, s, hts, hD, hs, hparse⟩ | ⟨msg, hparse⟩
  · change parseline text _ 0 = _ at hparse
    by_cases hend : skip text isSpace s = text.length
    · refine .inl ⟨cmd, ?_, ?_⟩
      · rw [hts, hs.skip_eq.mp hend, append_nil]
        exact hD
      · simp [parsecmd, hparse, peek, hend, ok_bind]
    · exact .inr ⟨"syntax", by simp [parsecmd, hparse, peek, hend, ok_bind, panic]⟩
  · refine .inr ⟨msg, ?_⟩
    change parseline text _ 0 = _ at hparse
    rw [parsecmd, hparse]
    rfl

theorem parsecmd_complete (hnul : NUL ∉ text) (hD : Derives .line (tokens text) cmd) :
    parsecmd text = .ok (cmd, nulterminate cmd (char text)) := by
  have hlen := (at_zero text).length_le
  have h : At text 0 (tokens text ++ []) := by
    rw [append_nil]
    exact at_zero text
  have hbound : bound .line (tokens text ++ []).length ≤ 4 * text.length + 4 := by
    simp only [bound, append_nil]
    omega
  obtain ⟨s, hs, hparse⟩ := parse_complete hnul hD h (.inl rfl) hbound
  change parseline text _ 0 = _ at hparse
  have hend : skip text isSpace s = text.length := hs.skip_eq.mpr rfl
  simp [parsecmd, hparse, peek, hend, ok_bind]

/-- The parser returns the command that the grammar gives to the tokens, with each word ended by a
NUL behind it, and where the grammar gives none it panics. -/
theorem parsecmd_grammar (text : List Char) (hnul : NUL ∉ text) :
    (∀ cmd, (∃ buf, parsecmd text = .ok (cmd, buf)) ↔ Derives .line (tokens text) cmd) ∧
    ((¬ ∃ cmd, Derives .line (tokens text) cmd) → ∃ msg, parsecmd text = .error (.panic msg)) ∧
    ∀ cmd buf, parsecmd text = .ok (cmd, buf) → ∀ w ∈ cmd.words,
      cstr buf (text.length + 1) w.q = (text.drop w.q).take (w.eq - w.q) := by
  refine ⟨fun cmd => ⟨?_, fun hD => ⟨_, parsecmd_complete hnul hD⟩⟩, fun hnone => ?_,
    fun cmd buf hparse w hw => ?_⟩
  · rintro ⟨buf, hparse⟩
    rcases parsecmd_sound hnul with ⟨cmd', hD, hparse'⟩ | ⟨msg, hpanic⟩
    · rw [hparse'] at hparse
      cases hparse
      exact hD
    · rw [hpanic] at hparse
      cases hparse
  · rcases parsecmd_sound hnul with ⟨cmd, hD, -⟩ | hpanic
    · exact absurd ⟨cmd, hD⟩ hnone
    · exact hpanic
  · rcases parsecmd_sound hnul with ⟨cmd', hD, hparse'⟩ | ⟨msg, hpanic⟩
    · rw [hparse'] at hparse
      cases hparse
      exact cstr_word hnul (fun w hw => isWordOf_tokens (hD.words hw)) hw
    · rw [hpanic] at hparse
      cases hparse

/-- The command `(a b|c)>d&;e`. -/
theorem parsecmd_grammar_block :
    NUL ∉ "(a b|c)>d&;e".toList ∧
    Derives .line (tokens "(a b|c)>d&;e".toList)
      (.list (.back (.redir (.pipe (.exec [⟨1, 2⟩, ⟨3, 4⟩]) (.exec [⟨5, 6⟩])) ⟨8, 9⟩
        (O_WRONLY ||| O_CREATE) 1)) (.exec [⟨11, 12⟩])) := by
  have hnul : NUL ∉ "(a b|c)>d&;e".toList := by decide
  have hparse : (parsecmd "(a b|c)>d&;e".toList).map fst = .ok
      (.list (.back (.redir (.pipe (.exec [⟨1, 2⟩, ⟨3, 4⟩]) (.exec [⟨5, 6⟩])) ⟨8, 9⟩
        (O_WRONLY ||| O_CREATE) 1)) (.exec [⟨11, 12⟩])) := by decide +kernel
  refine ⟨hnul, ((parsecmd_grammar _ hnul).1 _).mp ?_⟩
  cases hok : parsecmd "(a b|c)>d&;e".toList with
  | error e =>
    rw [hok] at hparse
    cases hparse
  | ok r =>
    rw [hok] at hparse
    exact ⟨r.2, congrArg Except.ok (Prod.ext (Except.ok.inj hparse) rfl)⟩

/-- The NULs may be written in any order `ws`: none falls into a token, and each string that the
command points to is a token. -/
theorem strings_survive (text : List Char) (hnul : NUL ∉ text) (cmd : Cmd Word) (buf : Buffer)
    (hparse : parsecmd text = .ok (cmd, buf)) :
    (∀ w ∈ cmd.words, .word w ∈ tokens text ∧ ∀ v ∈ cmd.words, ¬ (w.q ≤ v.eq ∧ v.eq < w.eq)) ∧
    ∀ ws : List Word, (∀ w, w ∈ ws ↔ w ∈ cmd.words) →
      ws.foldl (fun buf w => update buf w.eq NUL) (char text) = buf ∧
      ∀ w ∈ cmd.words, cstr buf (text.length + 1) w.q = (text.drop w.q).take (w.eq - w.q) := by
  obtain ⟨cmd', hD, hok⟩ | ⟨msg, hpanic⟩ := parsecmd_sound hnul
  · obtain ⟨rfl, rfl⟩ := Prod.mk.inj (Except.ok.inj (hok.symm.trans hparse))
    have hwords : ∀ w ∈ cmd'.words, IsWordOf text w := fun w hw => isWordOf_tokens (hD.words hw)
    refine ⟨fun w hw => ⟨hD.words hw, fun v hv hin => ?_⟩,
      fun ws hws => ⟨?_, fun w hw => cstr_word hnul hwords hw⟩⟩
    · have hinside := (hwords w hw).inside v.eq hin.1 hin.2
      rw [(hwords v hv).behind (hin.2.trans_le (hwords w hw).le)] at hinside
      cases hinside
    · -- writing them in the order `ws` is what `nulterminate` does for one command with these words
      change ∀ w, w ∈ (Cmd.exec ws).words ↔ w ∈ cmd'.words at hws
      change nulterminate (.exec ws) (char text) = _
      funext i
      by_cases hi : ∃ w ∈ cmd'.words, i = w.eq
      · obtain ⟨w, hw, hwi⟩ := hi
        rw [nulterminate_nul (.inl ⟨w, (hws w).mpr hw, hwi⟩), nulterminate_nul (.inl ⟨w, hw, hwi⟩)]
      · have hne : ∀ w ∈ cmd'.words, i ≠ w.eq := fun w hw hwi => hi ⟨w, hw, hwi⟩
        rw [nulterminate_of_ne fun w hw => hne w ((hws w).mp hw), nulterminate_of_ne hne]
  · rw [hpanic] at hparse
    cases hparse

theorem strings_survive_redir : ∃ cmd buf, parsecmd "a>b".toList = .ok (cmd, buf) ∧
    ∀ w ∈ cmd.words, cstr buf 4 w.q = ("a>b".toList.drop w.q).take (w.eq - w.q) := by
  have hnul : NUL ∉ "a>b".toList := by decide
  have hparse : (parsecmd "a>b".toList).isOk = true := by decide +kernel
  cases hok : parsecmd "a>b".toList with
  | error e =>
    rw [hok] at hparse
    cases hparse
  | ok r =>
    refine ⟨r.1, r.2, rfl, ?_⟩
    exact ((strings_survive _ hnul r.1 r.2 hok).2 _ fun w => Iff.rfl).2

end

end Xv6Threads.Shell
