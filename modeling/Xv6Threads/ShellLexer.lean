import Mathlib.Data.List.TakeWhile
import Xv6Threads.Shell

namespace Xv6Threads.Shell

open List Shell Mode Nat

section
variable {c : Char} {cs : List Char} {i q : ℕ} {m : Mode}

theorem isWord_iff : isWord c = true ↔ isSpace c = false ∧ c ≠ '>' ∧ single c = none := by
  unfold isWord isSpace single
  simp only [symbols, mem_cons, not_mem_nil, or_false, Bool.and_eq_true, Bool.not_eq_eq_eq_not,
    Bool.not_true, decide_eq_false_iff_not]
  refine and_congr_right fun _ => ?_
  split_ifs <;> simp_all

theorem next_space (h : isSpace c = true) : m.next i c = (m.flush i, .idle) := if_pos h

theorem next_of_isWord (h : isWord c = true) :
    (word q).next i c = ([], .word q) ∧ idle.next i c = ([], .word i) := by
  obtain ⟨hspace, hgt, hsingle⟩ := isWord_iff.mp h
  constructor <;> simp [Mode.next, hspace, hgt, hsingle, flush]

theorem next_gt : m.next i '>' = if m = .gt then ([.gtgt], .idle) else (m.flush i, .gt) := by
  unfold Mode.next
  rw [if_neg (by decide), if_pos rfl]

theorem next_single {t : Tok} (hspace : isSpace c = false) (hgt : c ≠ '>') (h : single c = some t) :
    m.next i c = (m.flush i ++ [t], .idle) := by
  unfold Mode.next
  rw [if_neg (by simp [hspace]), if_neg hgt, h]

theorem next_flush (h : (∃ q, m = .word q) ∧ isWord c = false ∨ m = .gt ∧ c ≠ '>') :
    m.next i c = (m.flush i ++ (idle.next i c).1, (idle.next i c).2) := by
  unfold Mode.next
  by_cases hspace : isSpace c = true
  · rw [if_pos hspace, if_pos hspace]
    simp only [flush, append_nil]
  rw [if_neg hspace, if_neg hspace]
  by_cases hgt : c = '>'
  · obtain ⟨⟨q, rfl⟩, -⟩ := h.resolve_right fun hm => hm.2 hgt
    rw [if_pos hgt, if_pos hgt]
    rfl
  · rw [if_neg hgt, if_neg hgt]
    cases hsingle : single c with
    | some t => simp only [flush, nil_append]
    | none =>
      have hword : isWord c = true := isWord_iff.mpr ⟨by simpa using hspace, hgt, hsingle⟩
      obtain ⟨rfl, -⟩ := h.resolve_left fun hm => by rw [hword] at hm; exact Bool.noConfusion hm.2
      rfl

theorem scan_flush (h : (∃ q, m = .word q) ∧ isWord c = false ∨ m = .gt ∧ c ≠ '>') :
    scan m i (c :: cs) = m.flush i ++ scan .idle i (c :: cs) := by
  rw [scan, scan, next_flush h, append_assoc]

theorem scan_space (i : ℕ) (cs : List Char) : scan .idle i cs =
    scan .idle (i + (cs.takeWhile isSpace).length) (cs.dropWhile isSpace) := by
  induction cs generalizing i with
  | nil => rfl
  | cons c cs ih =>
    by_cases hc : isSpace c = true
    · rw [takeWhile_cons_of_pos hc, dropWhile_cons_of_pos hc, scan, next_space hc,
        length_cons, ← Nat.add_assoc, Nat.add_right_comm]
      exact ih (i + 1)
    · rw [takeWhile_cons_of_neg hc, dropWhile_cons_of_neg hc]
      rfl

theorem scan_word (q i : ℕ) (cs : List Char) : scan (.word q) i cs =
    .word ⟨q, i + (cs.takeWhile isWord).length⟩ :: scan .idle (i + (cs.takeWhile isWord).length)
      (cs.dropWhile isWord) := by
  induction cs generalizing i with
  | nil => rfl
  | cons c cs ih =>
    by_cases hc : isWord c = true
    · rw [takeWhile_cons_of_pos hc, dropWhile_cons_of_pos hc, scan,
        (next_of_isWord hc).1, length_cons, ← Nat.add_assoc, Nat.add_right_comm]
      exact ih (i + 1)
    · rw [takeWhile_cons_of_neg hc, dropWhile_cons_of_neg hc,
        scan_flush (.inl ⟨⟨q, rfl⟩, by simpa using hc⟩)]
      rfl

theorem scan_gt (h : cs.head? ≠ some '>') : scan .gt i cs = .gt :: scan .idle i cs := by
  cases cs with
  | nil => rfl
  | cons c cs =>
    have hgt : c ≠ '>' := fun he => h (by rw [he]; rfl)
    rw [scan_flush (.inr ⟨rfl, hgt⟩)]
    rfl

theorem scan_length (m : Mode) (i : ℕ) (cs : List Char) :
    (scan m i cs).length ≤ cs.length + (m.flush i).length := by
  induction cs generalizing m i with
  | nil => exact Nat.le_add_left ..
  | cons c cs ih =>
    have hnext : (m.next i c).1.length + ((m.next i c).2.flush (i + 1)).length ≤
        (m.flush i).length + 1 := by
      unfold Mode.next
      split_ifs with hspace hgt hm
      · simp only [flush, length_nil]
        omega
      · rw [hm]
        simp only [flush, length_cons, length_nil]
        omega
      · simp only [flush, length_cons, length_nil]
        omega
      · cases single c with
        | some t =>
          simp only [flush, length_append, length_cons, length_nil]
          omega
        | none => cases m <;> simp only [flush, length_cons, length_nil] <;> omega
    have hrest := ih (m.next i c).2 (i + 1)
    rw [scan, length_append, length_cons]
    omega

end

/-- What `gettoken` returns for a token. -/
def Tok.ret : Tok → Char
  | .word _ => 'a'
  | .lt => '<'
  | .gt => '>'
  | .gtgt => '+'
  | .bar => '|'
  | .amp => '&'
  | .semi => ';'
  | .lpar => '('
  | .rpar => ')'

def Tok.lead : Tok → Option Char
  | .word _ => none
  | .gtgt => some '>'
  | t => some t.ret

/-- Whether the first token begins with one of the symbols. -/
def starts (toks : List Char) : List Tok → Bool
  | [] => false
  | t :: _ => t.lead.any fun c => c ∈ toks

/-- The cursor is before the tokens `ts`, which are the last ones. -/
structure At (text : List Char) (s : ℕ) (ts : List Tok) : Prop where
  le : s ≤ text.length
  rest : scan .idle s (text.drop s) = ts

section
variable {text : List Char} {s : ℕ} {t : Tok} {ts : List Tok} {p : Char → Bool}

theorem drop_skip (text : List Char) (p : Char → Bool) (s : ℕ) :
    text.drop (skip text p s) = (text.drop s).dropWhile p := by
  have happ := takeWhile_append_dropWhile (p := p) (l := text.drop s)
  rw [skip, ← drop_drop]
  generalize text.drop s = l at happ
  calc l.drop (l.takeWhile p).length
    _ = (l.takeWhile p ++ l.dropWhile p).drop (l.takeWhile p).length := by rw [happ]
    _ = l.dropWhile p := drop_left ..

theorem skip_le (hs : s ≤ text.length) : skip text p s ≤ text.length := by
  have hlen := IsPrefix.length_le <| takeWhile_prefix (l := text.drop s) p
  rw [length_drop] at hlen
  unfold skip
  omega

theorem At.length_le (h : At text s ts) : ts.length ≤ text.length := by
  have hlen := scan_length .idle s (text.drop s)
  rw [h.rest, length_drop] at hlen
  simp only [flush, length_nil] at hlen
  omega

theorem At.skip (h : At text s ts) : At text (skip text isSpace s) ts := by
  refine ⟨skip_le h.le, ?_⟩
  rw [drop_skip, Shell.skip, ← scan_space]
  exact h.rest

/-- After whitespace has been skipped the cursor is at the end or before another character. -/
theorem At.cases (h : At text s ts) : Shell.skip text isSpace s = text.length ∧ ts = [] ∨
      ∃ c cs, text.drop (Shell.skip text isSpace s) = c :: cs ∧ isSpace c = false ∧
        Shell.skip text isSpace s < text.length ∧
        char text (Shell.skip text isSpace s) = c ∧ text.drop (Shell.skip text isSpace s + 1) =
          cs := by
  have hskip := h.skip
  cases hdrop : text.drop (Shell.skip text isSpace s) with
  | nil =>
    refine .inl ⟨le_antisymm hskip.le (drop_eq_nil_iff.mp hdrop), ?_⟩
    rw [← hskip.rest, hdrop]
    rfl
  | cons c cs =>
    have hlt : Shell.skip text isSpace s < text.length := by
      by_contra hge
      rw [drop_eq_nil_iff.mpr (Nat.le_of_not_lt hge)] at hdrop
      cases hdrop
    refine .inr ⟨c, cs, rfl, ?_, hlt, ?_, ?_⟩
    · rw [drop_skip] at hdrop
      have hhead := List.head?_dropWhile_not isSpace (text.drop s)
      rw [hdrop] at hhead
      simpa using hhead
    · rw [drop_eq_getElem_cons hlt] at hdrop
      rw [char, getD_eq_getElem?_getD, List.getElem?_eq_getElem hlt]
      exact (List.cons.inj hdrop).1
    · rw [drop_eq_getElem_cons hlt] at hdrop
      exact (List.cons.inj hdrop).2

theorem At.of_drop {cs : List Char} {i : ℕ} (hi : i ≤ text.length) (hdrop : text.drop i = cs)
    (hscan : Shell.scan .idle i cs = ts) : At text (Shell.skip text isSpace i) ts :=
  At.skip ⟨hi, by rw [hdrop]; exact hscan⟩

theorem single_ret {c : Char} (h : single c = some t) :
    c = t.ret ∧ c ∈ ['|', '(', ')', ';', '&', '<'] ∧ (∀ w, t ≠ .word w) ∧ t.lead = some c := by
  unfold single at h
  split_ifs at h <;> cases h <;> simp_all [Tok.ret, Tok.lead]

theorem mem_single {c : Char} (h : single c = none) : c ∉ ['|', '(', ')', ';', '&', '<'] := by
  unfold single at h
  split_ifs at h
  simp_all

inductive Next (text : List Char) (s : ℕ) : List Tok → Prop
  | eof (hs : s = text.length) : Next text s []
  | single {c : Char} {t : Tok} {ts : List Tok} (hc : char text s = c) (ht : single c = some t)
    (hts : At text (skip text isSpace (s + 1)) ts) : Next text s (t :: ts)
  | gtgt {ts : List Tok} (hc : char text s = '>') (hc' : char text (s + 1) = '>')
    (hts : At text (skip text isSpace (s + 2)) ts) : Next text s (.gtgt :: ts)
  | gt {ts : List Tok} (hc : char text s = '>') (hc' : char text (s + 1) ≠ '>')
    (hts : At text (skip text isSpace (s + 1)) ts) : Next text s (.gt :: ts)
  | word {c : Char} {ts : List Tok} (hc : char text s = c) (hword : isWord c = true)
    (hts : At text (skip text isSpace (skip text isWord s)) ts) :
    Next text s (.word ⟨s, skip text isWord s⟩ :: ts)

theorem At.next (h : At text s ts) : Next text (Shell.skip text isSpace s) ts := by
  have hskip := h.skip
  rcases h.cases with ⟨hend, rfl⟩ | ⟨c, cs, hdrop, hspace, hlt, hc, hdrop'⟩
  · exact .eof hend
  generalize Shell.skip text isSpace s = i at *
  have hscan := hskip.rest
  rw [hdrop] at hscan
  by_cases hgt : c = '>'
  · subst hgt
    rw [scan, next_gt, if_neg Mode.noConfusion] at hscan
    change scan .gt (i + 1) cs = ts at hscan
    cases hcs : cs with
    | nil =>
      rw [hcs] at hscan hdrop'
      rw [scan_gt (by simp)] at hscan
      subst hscan
      refine .gt hc ?_ (.of_drop hlt hdrop' rfl)
      rw [char, getD_eq_getElem?_getD, List.getElem?_eq_none (drop_eq_nil_iff.mp hdrop')]
      decide
    | cons c' cs' =>
      rw [hcs] at hscan hdrop'
      have hlt' : i + 1 < text.length := by
        by_contra hge
        rw [drop_eq_nil_iff.mpr (Nat.le_of_not_lt hge)] at hdrop'
        cases hdrop'
      rw [drop_eq_getElem_cons hlt'] at hdrop'
      have hchar : char text (i + 1) = c' := by
        rw [char, getD_eq_getElem?_getD, List.getElem?_eq_getElem hlt']
        exact (List.cons.inj hdrop').1
      by_cases hgt' : c' = '>'
      · subst hgt'
        rw [scan, next_gt, if_pos rfl] at hscan
        change .gtgt :: scan .idle (i + 2) cs' = ts at hscan
        subst hscan
        exact .gtgt hc hchar (.of_drop hlt' (List.cons.inj hdrop').2 rfl)
      · have hhead : (c' :: cs').head? ≠ some '>' := fun he => hgt' (Option.some.inj he)
        rw [scan_gt hhead] at hscan
        subst hscan
        refine .gt hc (by rw [hchar]; exact hgt') (.of_drop hlt ?_ rfl)
        rw [drop_eq_getElem_cons hlt', ← hdrop']
  · cases hsingle : single c with
    | some t =>
      rw [scan, next_single hspace hgt hsingle] at hscan
      change t :: scan .idle (i + 1) cs = ts at hscan
      subst hscan
      exact .single hc hsingle (.of_drop hlt hdrop' rfl)
    | none =>
      have hword : isWord c = true := isWord_iff.mpr ⟨hspace, hgt, hsingle⟩
      have hlen : Shell.skip text isWord i = i + 1 + (cs.takeWhile isWord).length := by
        rw [Shell.skip, hdrop, takeWhile_cons_of_pos hword, length_cons]
        omega
      rw [scan, (next_of_isWord (q := 0) hword).2, nil_append, scan_word, ← hlen] at hscan
      subst hscan
      refine .word hc hword (.of_drop (skip_le hlt.le) ?_ rfl)
      rw [drop_skip, hdrop, dropWhile_cons_of_pos hword]

theorem char_length (text : List Char) : char text text.length = NUL := by
  rw [char, getD_eq_getElem?_getD, List.getElem?_eq_none le_rfl]
  rfl

theorem char_ne_nul (hnul : NUL ∉ text) {c : Char} (hs : s < text.length) (hc : char text s = c) :
    c ≠ NUL := by
  rw [char, getD_eq_getElem?_getD, List.getElem?_eq_getElem hs] at hc
  rintro rfl
  exact hnul (hc ▸ getElem_mem hs)

theorem gettoken_nil (h : At text s []) :
    gettoken text s = (NUL, ⟨text.length, text.length⟩, text.length) := by
  have hend : skip text isSpace text.length = text.length := by
    simp [Shell.skip]
  cases h.next with
  | eof hs =>
    simp only [gettoken, hs, char_length, if_true, hend]

theorem gettoken_cons (hnul : NUL ∉ text) (h : At text s (t :: ts)) : ∃ w s', At text s' ts ∧
    gettoken text s = (t.ret, w, s') ∧ ∀ w', t = .word w' → w' = w := by
  have hlt : skip text isSpace s < text.length := by
    rcases h.cases with ⟨-, hnil⟩ | ⟨-, -, -, -, hlt, -⟩
    · cases hnil
    · exact hlt
  cases h.next with
  | single hc ht hts =>
    obtain ⟨hret, hmem, hword, -⟩ := single_ret ht
    refine ⟨⟨Shell.skip text isSpace s, Shell.skip text isSpace s + 1⟩, _, hts, ?_, fun w' hw =>
      absurd hw (hword w')⟩
    rw [hret] at hc hmem
    simp only [gettoken, hc, if_neg (char_ne_nul hnul hlt hc), if_pos hmem]
  | gtgt hc hc' hts =>
    refine ⟨⟨skip text isSpace s, skip text isSpace s + 2⟩, _, hts, ?_, nofun⟩
    simp only [gettoken, hc, hc', if_true]
    rfl
  | gt hc hc' hts =>
    refine ⟨⟨skip text isSpace s, skip text isSpace s + 1⟩, _, hts, ?_, nofun⟩
    simp only [gettoken, hc, if_neg hc', if_true]
    rfl
  | word hc hword hts =>
    obtain ⟨-, hgt, hsingle⟩ := isWord_iff.mp hword
    refine ⟨_, _, hts, ?_, fun w' hw => (Tok.word.inj hw).symm⟩
    simp only [gettoken, hc, if_neg (char_ne_nul hnul hlt hc), if_neg (mem_single hsingle),
      if_neg hgt]
    rfl

theorem peek_at (hnul : NUL ∉ text) (h : At text s ts) (toks : List Char) (htoks : toks ⊆ symbols) :
    ∃ s', At text s' ts ∧ peek text s toks = (starts toks ts, s') := by
  refine ⟨_, h.skip, ?_⟩
  unfold peek
  refine Prod.ext ?_ rfl
  change decide (char text (skip text isSpace s) ≠ NUL ∧
    char text (skip text isSpace s) ∈ toks) = starts toks ts
  have hlt : ts ≠ [] → skip text isSpace s < text.length := by
    intro hne
    rcases h.cases with ⟨-, hnil⟩ | ⟨-, -, -, -, hlt, -⟩
    · exact absurd hnil hne
    · exact hlt
  cases h.next with
  | eof hs => simp [hs, char_length, starts]
  | single hc ht hts =>
    have hne := char_ne_nul hnul (hlt (cons_ne_nil _ _)) hc
    simp [hc, hne, starts, (single_ret ht).2.2.2]
  | gtgt hc hc' hts =>
    have hne := char_ne_nul hnul (hlt (cons_ne_nil _ _)) hc
    simp [hc, hne, starts, Tok.lead]
  | gt hc hc' hts =>
    have hne := char_ne_nul hnul (hlt (cons_ne_nil _ _)) hc
    simp [hc, hne, starts, Tok.lead, Tok.ret]
  | word hc hword hts =>
    have hmem : char text (skip text isSpace s) ∉ toks := by
      intro hm
      rw [hc] at hm
      have := htoks hm
      simp [isWord, this] at hword
    simp [hmem, starts, Tok.lead]

theorem At.skip_eq (h : At text s ts) : Shell.skip text isSpace s = text.length ↔ ts = [] := by
  rcases h.cases with ⟨hend, rfl⟩ | ⟨-, -, -, -, hlt, -⟩
  · exact iff_of_true hend rfl
  · refine iff_of_false hlt.ne ?_
    rintro rfl
    cases h.next with
    | eof hs => exact hlt.ne hs

/-- `w` is a run of characters of words, and does not go on behind its end. -/
structure IsWordOf (text : List Char) (w : Word) : Prop where
  lt : w.q < w.eq
  le : w.eq ≤ text.length
  inside : ∀ i, w.q ≤ i → i < w.eq → isWord (char text i) = true
  behind : w.eq < text.length → isWord (char text w.eq) = false

theorem word_of_next {m : Mode} {c : Char} {i q : ℕ} (h : (m.next i c).2 = .word q) :
    isWord c = true ∧ (m = .word q ∨ q = i) := by
  unfold Mode.next at h
  split_ifs at h with hspace hgt
  cases hsingle : single c with
  | some t =>
    rw [hsingle] at h
    cases h
  | none =>
    rw [hsingle] at h
    refine ⟨isWord_iff.mpr ⟨by simpa using hspace, hgt, hsingle⟩, ?_⟩
    cases m with
    | word q' => exact .inl h
    | idle | gt => exact .inr (word.inj h).symm

theorem mem_next {m : Mode} {c : Char} {i : ℕ} {w : Word} (h : .word w ∈ (m.next i c).1) :
    isWord c = false ∧ m = .word w.q ∧ w.eq = i := by
  have hflush : .word w ∈ m.flush i → m = .word w.q ∧ w.eq = i := by
    intro hmem
    cases m with
    | idle => cases hmem
    | gt => cases mem_singleton.mp hmem
    | word q =>
      cases mem_singleton.mp hmem
      exact ⟨rfl, rfl⟩
  unfold Mode.next at h
  split_ifs at h with hspace hgt hm
  · exact ⟨by simp [isWord, show c ∈ whitespace by simpa [isSpace] using hspace], hflush h⟩
  · cases mem_singleton.mp h
  · exact ⟨by rw [hgt]; decide, hflush h⟩
  · cases hsingle : single c with
    | some t =>
      rw [hsingle] at h
      have hword : isWord c = false := by
        by_contra hne
        rw [Bool.not_eq_false] at hne
        rw [(isWord_iff.mp hne).2.2] at hsingle
        cases hsingle
      refine ⟨hword, hflush ((mem_append.mp h).resolve_right fun hmem => ?_)⟩
      exact (single_ret hsingle).2.2.1 w (mem_singleton.mp hmem).symm
    | none =>
      rw [hsingle] at h
      cases m with
      | word q => cases h
      | idle => cases h
      | gt => cases mem_singleton.mp h

/-- `cs` are the last characters, from `i` on, and a word that the scanner is in goes up to `i`. -/
theorem isWordOf_scan {m : Mode} {cs : List Char} {i : ℕ} (hdrop : text.drop i = cs)
    (hi : i ≤ text.length)
    (hm : ∀ q, m = .word q → q < i ∧ ∀ j, q ≤ j → j < i → isWord (char text j) = true)
    {w : Word} (hw : .word w ∈ scan m i cs) : IsWordOf text w := by
  induction cs generalizing m i with
  | nil =>
    have hlen : i = text.length := le_antisymm hi (drop_eq_nil_iff.mp hdrop)
    cases m with
    | idle => cases hw
    | gt => cases mem_singleton.mp hw
    | word q =>
      cases mem_singleton.mp hw
      exact ⟨(hm q rfl).1, hi, (hm q rfl).2, fun hlt => absurd hlen hlt.ne⟩
  | cons c cs ih =>
    have hlt : i < text.length := by
      by_contra hge
      rw [drop_eq_nil_iff.mpr (Nat.le_of_not_lt hge)] at hdrop
      cases hdrop
    rw [drop_eq_getElem_cons hlt] at hdrop
    obtain ⟨hc, hcs⟩ := List.cons.inj hdrop
    have hchar : char text i = c := by
      rw [char, getD_eq_getElem?_getD, List.getElem?_eq_getElem hlt]
      exact hc
    rw [scan] at hw
    rcases mem_append.mp hw with hmem | hmem
    · obtain ⟨hword, rfl, rfl⟩ := mem_next hmem
      exact ⟨(hm w.q rfl).1, hi, (hm w.q rfl).2, fun _ => by rw [hchar, hword]⟩
    · refine ih hcs hlt (fun q hq => ?_) hmem
      obtain ⟨hword, rfl | rfl⟩ := word_of_next hq
      · refine ⟨lt_succ_of_lt (hm q rfl).1, fun j hqj hj => ?_⟩
        by_cases hji : j = i
        · rw [hji, hchar, hword]
        · exact (hm q rfl).2 j hqj (by omega)
      · refine ⟨lt_succ_self q, fun j hqj hj => ?_⟩
        rw [le_antisymm (le_of_lt_succ hj) hqj, hchar, hword]

theorem isWordOf_tokens {w : Word} (hw : .word w ∈ tokens text) : IsWordOf text w :=
  isWordOf_scan (m := .idle) rfl (zero_le _) nofun hw

end

end Xv6Threads.Shell
