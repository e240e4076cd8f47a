import Mathlib.Data.List.Basic

namespace Xv6Threads.Grep

open List

/-- `matchstar`, with `matchhere re` as `here`. -/
def matchstar (here : List Char → Bool) (c : Char) : List Char → Bool
  | [] => here []
  | t :: text => here (t :: text) || ((t == c || c == '.') && matchstar here c text)

def matchhere : List Char → List Char → Bool
  | [], _ => true
  | [c], text =>
    if c = '$' then text.isEmpty
    else
      match text with
      | [] => false
      | t :: _ => c == '.' || c == t
  | c :: d :: re, text =>
    if d = '*' then matchstar (matchhere re) c text
    else
      match text with
      | [] => false
      | t :: text => (c == '.' || c == t) && matchhere (d :: re) text

/-- The loop of `match`, which also looks at the empty rest. -/
def search (here : List Char → Bool) : List Char → Bool
  | [] => here []
  | t :: text => here (t :: text) || search here text

/-- `match` -/
def matchRe (re text : List Char) : Bool :=
  if re.head? = some '^' then matchhere re.tail text else search (matchhere re) text

inductive Item
  | star (c : Char)
  | eol
  | one (c : Char)

/-- The items of a pattern from left to right; `$` is one only at the end. -/
def items : List Char → List Item
  | [] => []
  | [c] => if c = '$' then [.eol] else [.one c]
  | c :: d :: re => if d = '*' then .star c :: items re else .one c :: items (d :: re)

/-- The character of an item stands for the character of the text. -/
def Covers (c t : Char) : Prop := c = '.' ∨ c = t

/-- The substring `w`, with `rest` after it in the text, is in the language of the items. -/
inductive Lang : List Item → List Char → List Char → Prop
  | nil {rest} : Lang [] [] rest
  | one {c t is w rest} : Covers c t → Lang is w rest → Lang (.one c :: is) (t :: w) rest
  | star {c u is w rest} : (∀ t ∈ u, Covers c t) → Lang is w rest →
    Lang (.star c :: is) (u ++ w) rest
  | eol : Lang [.eol] [] []

def Starts (is : List Item) (text : List Char) : Prop :=
  ∃ w rest, text = w ++ rest ∧ Lang is w rest

theorem covers_iff {c t : Char} : (c == '.' || c == t) = true ↔ Covers c t := by
  simp [Covers]

theorem starts_one {c : Char} {is : List Item} {text : List Char} :
    Starts (.one c :: is) text ↔ ∃ t rest, text = t :: rest ∧ Covers c t ∧ Starts is rest := by
  constructor
  · rintro ⟨w, rest, rfl, hw⟩
    cases hw with
    | one hc hw => exact ⟨_, _, rfl, hc, _, _, rfl, hw⟩
  · rintro ⟨t, _, rfl, hc, w, rest, rfl, hw⟩
    exact ⟨t :: w, rest, rfl, .one hc hw⟩

theorem starts_star {c : Char} {is : List Item} {text : List Char} :
    Starts (.star c :: is) text ↔ ∃ u v, text = u ++ v ∧ (∀ t ∈ u, Covers c t) ∧ Starts is v := by
  constructor
  · rintro ⟨w, rest, rfl, hw⟩
    cases hw with
    | star hu hw => exact ⟨_, _, append_assoc _ _ _, hu, _, _, rfl, hw⟩
  · rintro ⟨u, _, rfl, hu, w, rest, rfl, hw⟩
    exact ⟨u ++ w, rest, (append_assoc u w rest).symm, .star hu hw⟩

theorem starts_eol {text : List Char} : Starts [.eol] text ↔ text = [] := by
  constructor
  · rintro ⟨w, rest, rfl, hw⟩
    cases hw
    rfl
  · rintro rfl
    exact ⟨[], [], rfl, .eol⟩

variable (here : List Char → Bool)

theorem matchstar_iff (c : Char) (text : List Char) :
    matchstar here c text = true ↔
      ∃ u v, text = u ++ v ∧ (∀ t ∈ u, Covers c t) ∧ here v = true := by
  induction text with
  | nil => simp [matchstar]
  | cons t text ih =>
    have hcovers : (t == c || c == '.') = true ↔ Covers c t := by
      rw [Bool.or_comm, ← covers_iff, BEq.comm (a := t)]
    rw [matchstar, Bool.or_eq_true, Bool.and_eq_true, hcovers, ih]
    constructor
    · rintro (hhere | ⟨hc, u, v, rfl, hu, hv⟩)
      · exact ⟨[], t :: text, rfl, by simp, hhere⟩
      · exact ⟨t :: u, v, rfl, by simpa using ⟨hc, hu⟩, hv⟩
    · rintro ⟨u, v, huv, hu, hv⟩
      -- either the run is empty or it takes the first character
      cases u with
      | nil => exact .inl (by rwa [show t :: text = v from huv])
      | cons t' u =>
        obtain ⟨rfl, rfl⟩ := List.cons.inj huv
        exact .inr ⟨hu t (by simp), u, v, rfl, fun x hx => hu x (by simp [hx]), hv⟩

theorem matchhere_iff (re text : List Char) : matchhere re text = true ↔
    Starts (items re) text := by
  induction re using items.induct generalizing text with
  | case1 => exact iff_of_true rfl ⟨[], text, rfl, .nil⟩
  | case2 => simp [matchhere, items, starts_eol]
  | case3 c hc =>
    rw [items, if_neg hc, starts_one]
    cases text with
    | nil => simp [matchhere, hc]
    | cons t text =>
      simp only [matchhere, if_neg hc, covers_iff]
      constructor
      · intro h
        exact ⟨t, text, rfl, h, [], text, rfl, .nil⟩
      · rintro ⟨_, _, ⟨⟩, h, -⟩
        exact h
  | case4 c re ih =>
    rw [items, if_pos rfl, starts_star]
    simp only [matchhere, if_true, matchstar_iff, ih]
  | case5 c d re hd ih =>
    rw [items, if_neg hd, starts_one]
    cases text with
    | nil => simp [matchhere, hd]
    | cons t text => simp [matchhere, hd, ih, Covers]

theorem search_iff (text : List Char) :
    search here text = true ↔ ∃ u v, text = u ++ v ∧ here v = true := by
  induction text with
  | nil => simp [search]
  | cons t text ih =>
    rw [search, Bool.or_eq_true, ih]
    constructor
    · rintro (hhere | ⟨u, v, rfl, hv⟩)
      · exact ⟨[], _, rfl, hhere⟩
      · exact ⟨t :: u, v, rfl, hv⟩
    · rintro ⟨u, v, huv, hv⟩
      cases u with
      | nil => exact .inl (by rwa [show t :: text = v from huv])
      | cons t' u =>
        obtain ⟨rfl, rfl⟩ := List.cons.inj huv
        exact .inr ⟨u, v, rfl, hv⟩

/-- `match` finds a substring in the language of the pattern, at the start after `^`. -/
theorem match_iff (re text : List Char) : matchRe re text = true ↔
    ∃ before w rest, text = before ++ w ++ rest ∧ (re.head? = some '^' → before = []) ∧
      Lang (items (if re.head? = some '^' then re.tail else re)) w rest := by
  unfold matchRe
  by_cases hre : re.head? = some '^'
  · rw [if_pos hre, if_pos hre, matchhere_iff]
    constructor
    · rintro ⟨w, rest, rfl, hw⟩
      exact ⟨[], w, rest, rfl, fun _ => rfl, hw⟩
    · rintro ⟨u, w, rest, rfl, hu, hw⟩
      exact ⟨w, rest, by rw [hu hre, nil_append], hw⟩
  · simp only [if_neg hre, search_iff, matchhere_iff]
    constructor
    · rintro ⟨u, _, rfl, w, rest, rfl, hw⟩
      exact ⟨u, w, rest, (append_assoc u w rest).symm, fun h => absurd h hre, hw⟩
    · rintro ⟨u, w, rest, rfl, -, hw⟩
      exact ⟨u, w ++ rest, append_assoc u w rest, w, rest, rfl, hw⟩

example : matchRe "^a.*c$".toList "abbc".toList = true := by decide +kernel

def NUL : Char := Char.ofNat 0

/-- `sizeof(buf)` -/
def bufSize : ℕ := 1024

/-- `strchr`, as an index into the string. -/
def strchr (c : Char) : List Char → Option ℕ
  | [] => none
  | t :: text => if t = NUL then none else if t = c then some 0 else (strchr c text).map (· + 1)

/-- The inner loop: the lines it writes and what is left from `p` on. -/
def lines (re : List Char) : ℕ → List Char → List (List Char) × List Char
  | 0, p => ([], p)
  | turns + 1, p =>
    match strchr '\n' p with
    | none => ([], p)
    | some q =>
      let rest := lines re turns (p.drop (q + 1))
      (if matchRe re (p.take q) then p.take (q + 1) :: rest.1 else rest.1, rest.2)

/-- What stays in the buffer for the next `read`; `p == buf` drops all of it. -/
def carry (b p : List Char) : List Char := if p.length = b.length then [] else p

/-- `grep` with `kept` in the buffer and the pieces that the next calls of `read` return. A call for
0 bytes returns 0. -/
def grep (re : List Char) : List Char → List (List Char) → List (List Char)
  | _, [] => []
  | kept, piece :: pieces =>
    if bufSize - kept.length - 1 = 0 then []
    else
      let b := kept ++ piece
      let found := lines re b.length b
      found.1 ++ grep re (carry b found.2) pieces

/-- Each piece is not empty and no longer than what `grep` asks for. -/
def Served (re : List Char) : List Char → List (List Char) → Prop
  | _, [] => True
  | kept, piece :: pieces =>
    let b := kept ++ piece
    piece ≠ [] ∧ piece.length ≤ bufSize - kept.length - 1 ∧
      Served re (carry b (lines re b.length b).2) pieces

def endLine (l : List Char) : List Char := l ++ ['\n']

structure Line (l : List Char) : Prop where
  newline : '\n' ∉ l
  nul : NUL ∉ l
  length : (endLine l).length ≤ 1023

def selected (re : List Char) (text : List (List Char)) : List (List Char) :=
  (text.filter (matchRe re)).map endLine

theorem strchr_none {b : List Char} (h : '\n' ∉ b) : strchr '\n' b = none := by
  induction b with
  | nil => rfl
  | cons t b ih =>
    rw [mem_cons, not_or] at h
    rw [strchr, if_neg (Ne.symm h.1), ih h.2]
    exact ite_self none

theorem strchr_line {l : List Char} (hl : '\n' ∉ l) (h0 : NUL ∉ l) (b : List Char) :
    strchr '\n' (l ++ '\n' :: b) = some l.length := by
  induction l with
  | nil => rfl
  | cons t l ih =>
    rw [mem_cons, not_or] at hl h0
    rw [cons_append, strchr, if_neg (Ne.symm h0.1), if_neg (Ne.symm hl.1), ih hl.2 h0.2]
    rfl

variable (re : List Char)

theorem lines_none (turns : ℕ) {b : List Char} (h : '\n' ∉ b) : lines re turns b = ([], b) := by
  cases turns with
  | zero => rfl
  | succ turns => rw [lines, strchr_none h]

theorem lines_line (turns : ℕ) {l : List Char} (hl : Line l) (b : List Char) :
    lines re (turns + 1) (l ++ '\n' :: b) =
      (selected re [l] ++ (lines re turns b).1, (lines re turns b).2) := by
  rw [lines, strchr_line hl.newline hl.nul]
  have htake : (l ++ '\n' :: b).take (l.length + 1) = endLine l := by
    rw [take_length_add_append]
    rfl
  have hdrop : (l ++ '\n' :: b).drop (l.length + 1) = b := by simp [drop_append]
  simp only [htake, hdrop, take_left]
  by_cases hm : matchRe re l = true <;> simp [selected, hm]

theorem first_line {l b later rest : List Char} (hl : '\n' ∉ l)
    (h : b ++ later = l ++ '\n' :: rest) :
    '\n' ∉ b ∧ b.length ≤ l.length ∨ ∃ b', b = l ++ '\n' :: b' ∧ rest = b' ++ later := by
  rcases append_eq_append_iff.mp h with ⟨x, rfl, -⟩ | ⟨c, rfl, hc⟩
  · exact .inl ⟨fun hb => hl (mem_append_left x hb), by simp⟩
  · cases c with
    | nil => exact .inl (by simpa using hl)
    | cons y c =>
      obtain ⟨rfl, rfl⟩ := List.cons.inj hc
      exact .inr ⟨c, rfl, rfl⟩

theorem flatMap_endLine_cons (l : List Char) (text : List (List Char)) :
    (l :: text).flatMap endLine = l ++ '\n' :: text.flatMap endLine := by
  simp [endLine]

variable {text : List (List Char)}

theorem lines_spec (htext : ∀ l ∈ text, Line l)
    {b later : List Char} (hb : b ++ later = text.flatMap endLine) {turns : ℕ}
    (hturns : b.length ≤ turns) :
    ∃ ended todo p, text = ended ++ todo ∧ b = ended.flatMap endLine ++ p ∧ '\n' ∉ p ∧
      lines re turns b = (selected re ended, p) := by
  induction text generalizing b turns with
  | nil =>
    obtain ⟨rfl, -⟩ := append_eq_nil_iff.mp hb
    exact ⟨[], [], [], rfl, rfl, by simp, lines_none re turns (by simp)⟩
  | cons l text ih =>
    have hl := htext l (by simp)
    rw [flatMap_endLine_cons] at hb
    rcases first_line hl.newline hb with ⟨hnl, -⟩ | ⟨b', rfl, hb'⟩
    · exact ⟨[], l :: text, b, rfl, rfl, hnl, lines_none re turns hnl⟩
    · cases turns with
      | zero => simp at hturns
      | succ turns =>
        have hlen : b'.length ≤ turns := by
          simp only [length_append, length_cons] at hturns
          omega
        obtain ⟨ended, todo, p, rfl, rfl, hp, hlines⟩ :=
          ih (fun m hm => htext m (by simp [hm])) hb'.symm hlen
        refine ⟨l :: ended, todo, p, rfl, by simp [endLine], hp, ?_⟩
        rw [lines_line re turns hl, hlines]
        by_cases hm : matchRe re l = true <;> simp [selected, hm]

/-- What is kept is the start of a line, so that `read` is asked for at least a byte. -/
theorem kept_length (htext : ∀ l ∈ text, Line l) {kept later : List Char}
    (hin : kept ++ later = text.flatMap endLine) (hkept : '\n' ∉ kept) : kept.length ≤ 1022 := by
  cases text with
  | nil =>
    obtain ⟨rfl, -⟩ := append_eq_nil_iff.mp hin
    exact Nat.zero_le _
  | cons l text =>
    have hl := htext l (by simp)
    have hmax : l.length + 1 ≤ 1023 := by simpa [endLine] using hl.length
    rw [flatMap_endLine_cons] at hin
    rcases first_line hl.newline hin with ⟨-, hle⟩ | ⟨b', rfl, -⟩
    · omega
    · exact absurd (by simp) hkept

/-- Where a line ended, the rest stays in the buffer. -/
theorem carry_line {ended : List (List Char)} {b p : List Char}
    (hb : b = ended.flatMap endLine ++ p) (hp : '\n' ∉ p) (hnl : '\n' ∈ b) : carry b p = p := by
  refine if_neg fun heq => ?_
  rw [hb, length_append] at heq
  rw [hb, length_eq_zero_iff.mp (by omega : (ended.flatMap endLine).length = 0)] at hnl
  exact hp hnl

theorem rest_lines {ended todo : List (List Char)} {b p later : List Char}
    (hb : b = ended.flatMap endLine ++ p) (hin : b ++ later = (ended ++ todo).flatMap endLine) :
    p ++ later = todo.flatMap endLine := by
  rw [hb, append_assoc, flatMap_append] at hin
  exact append_cancel_left hin

theorem grep_spec (pieces : List (List Char)) {kept : List Char} (htext : ∀ l ∈ text, Line l)
    (hin : kept ++ pieces.flatten = text.flatMap endLine) (hkept : '\n' ∉ kept)
    (hpieces : ∀ piece ∈ pieces, '\n' ∈ piece) : grep re kept pieces = selected re text := by
  induction pieces generalizing kept text with
  | nil =>
    rw [flatten_nil, append_nil] at hin
    cases text with
    | nil => rfl
    | cons l text => exact absurd (hin ▸ by simp [endLine]) hkept
  | cons piece pieces ih =>
    have hlen := kept_length htext hin hkept
    rw [flatten_cons, ← append_assoc] at hin
    obtain ⟨ended, todo, p, rfl, hb, hp, hlines⟩ := lines_spec re htext hin (Nat.le_refl _)
    have hnl : '\n' ∈ kept ++ piece := mem_append_right _ (hpieces piece (by simp))
    have hcarry := carry_line hb hp hnl
    have hrest := rest_lines hb hin
    rw [grep, if_neg (by unfold bufSize; omega)]
    dsimp only
    rw [hlines, hcarry, ih (fun l hl => htext l (by simp [hl])) hrest hp fun x hx =>
      hpieces x (by simp [hx])]
    simp [selected]

/-- What is written and what is left are no longer than what there was. -/
theorem lines_length (turns : ℕ) : ∀ b : List Char,
    (lines re turns b).1.flatten.length + (lines re turns b).2.length ≤ b.length := by
  induction turns with
  | zero => exact fun b => by simp [lines]
  | succ turns ih =>
    intro b
    rw [lines]
    cases strchr '\n' b with
    | none => simp
    | some q =>
      have hrest := ih (b.drop (q + 1))
      have hcut : (b.take (q + 1)).length + (b.drop (q + 1)).length = b.length := by
        rw [← length_append, take_append_drop]
      dsimp only
      split_ifs
      · rw [flatten_cons, length_append]
        omega
      · omega

theorem grep_length (pieces : List (List Char)) : ∀ kept : List Char,
    (grep re kept pieces).flatten.length ≤ kept.length + pieces.flatten.length := by
  induction pieces with
  | nil => exact fun kept => by simp [grep]
  | cons piece pieces ih =>
    intro kept
    rw [grep, flatten_cons, length_append]
    split_ifs
    · simp
    · have hlines := lines_length re (kept ++ piece).length (kept ++ piece)
      have hrest := ih (carry (kept ++ piece) (lines re (kept ++ piece).length (kept ++ piece)).2)
      have hcarry : ∀ b p : List Char, (carry b p).length ≤ p.length := by
        intro b p
        unfold carry
        split_ifs
        · exact Nat.zero_le _
        · exact Nat.le_refl _
      have hkept := hcarry (kept ++ piece) (lines re (kept ++ piece).length (kept ++ piece)).2
      dsimp only
      have hbuf : (kept ++ piece).length = kept.length + piece.length := length_append
      rw [flatten_append, length_append]
      omega

/-- A piece without the end of a line, and all that was kept before it, is never written. -/
theorem grep_loses (pieces : List (List Char)) {kept : List Char} (htext : ∀ l ∈ text, Line l)
    (hin : kept ++ pieces.flatten = text.flatMap endLine) (hkept : '\n' ∉ kept)
    (hne : ∀ piece ∈ pieces, piece ≠ []) (hlost : ∃ piece ∈ pieces, '\n' ∉ piece) :
    (grep re kept pieces).flatten.length < (kept ++ pieces.flatten).length := by
  induction pieces generalizing kept text with
  | nil =>
    obtain ⟨piece, hmem, -⟩ := hlost
    cases hmem
  | cons piece pieces ih =>
    have hlen := kept_length htext hin hkept
    have hpos := length_pos_iff.mpr (hne piece mem_cons_self)
    rw [flatten_cons, ← append_assoc] at hin ⊢
    rw [length_append, grep, if_neg (by unfold bufSize; omega)]
    by_cases hnl : '\n' ∈ piece
    · -- up to here nothing is lost
      obtain ⟨ended, todo, p, rfl, hb, hp, hlines⟩ := lines_spec re htext hin (Nat.le_refl _)
      have hcarry := carry_line hb hp (mem_append_right kept hnl)
      obtain ⟨lost, hmem, hno⟩ := hlost
      have hrest := ih (fun l hl => htext l (mem_append_right ended hl)) (rest_lines hb hin) hp
        (fun x hx => hne x (mem_cons_of_mem piece hx))
        ⟨lost, (mem_cons.mp hmem).resolve_left (fun h => hno (h ▸ hnl)), hno⟩
      have hout := lines_length re (kept ++ piece).length (kept ++ piece)
      dsimp only
      rw [hlines] at hout
      rw [hlines, hcarry, flatten_append, length_append]
      rw [length_append] at hrest
      dsimp only at hout ⊢
      omega
    · have hbuf : '\n' ∉ kept ++ piece := by
        rw [mem_append, not_or]
        exact ⟨hkept, hnl⟩
      have hrest := grep_length re pieces []
      dsimp only
      rw [lines_none re _ hbuf, carry, if_pos rfl]
      rw [length_nil] at hrest
      rw [nil_append, length_append]
      omega

theorem selected_nil (text : List (List Char)) : (selected [] text).flatten =
    text.flatMap endLine := by
  have hall : text.filter (matchRe []) = text := by
    rw [filter_eq_self]
    intro l _
    cases l <;> rfl
  rw [selected, hall, flatMap_def]

/-- The lines that match are written once and in order, whatever the pattern, exactly if every
`read` brings the end of a line. -/
theorem grep_writes_matching_lines (text pieces : List (List Char))
    (htext : ∀ l ∈ text, Line l) (hin : pieces.flatten = text.flatMap endLine)
    (hne : ∀ piece ∈ pieces, piece ≠ []) :
    (∀ re, grep re [] pieces = selected re text) ↔ ∀ piece ∈ pieces, '\n' ∈ piece := by
  constructor
  · intro hall
    by_contra hlost
    simp only [not_forall] at hlost
    obtain ⟨piece, hmem, hno⟩ := hlost
    -- the empty pattern writes every line
    have hfirst : [] ++ pieces.flatten = text.flatMap endLine := hin
    have hless := grep_loses [] pieces htext hfirst not_mem_nil hne ⟨piece, hmem, hno⟩
    rw [hall [], selected_nil, nil_append, hin] at hless
    exact Nat.lt_irrefl _ hless
  · exact fun hends re => grep_spec re pieces htext hin (by simp) hends

theorem grep_writes_matching_lines_two :
    grep "a".toList [] ["b\na".toList, "b\n".toList] = ["ab\n".toList] := by
  refine (grep_writes_matching_lines ["b".toList, "ab".toList] ["b\na".toList, "b\n".toList]
    (fun l hl => ?_) (by decide +kernel) (by decide +kernel)).mpr (by decide +kernel) "a".toList
  simp only [mem_cons, not_mem_nil, or_false] at hl
  rcases hl with rfl | rfl
  · exact ⟨by decide +kernel, by decide +kernel, by decide +kernel⟩
  · exact ⟨by decide +kernel, by decide +kernel, by decide +kernel⟩

/-- The start of a line that a `read` ends in is lost when the buffer has no newline. -/
theorem grep_drops_partial_line :
    (∀ l ∈ ["ab".toList], Line l) ∧
    ["a".toList, "b\n".toList].flatten = ["ab".toList].flatMap endLine ∧
    Served "a".toList [] ["a".toList, "b\n".toList] ∧
    selected "a".toList ["ab".toList] = ["ab\n".toList] ∧
    grep "a".toList [] ["a".toList, "b\n".toList] = [] := by
  refine ⟨?_, by decide +kernel, ?_, by decide +kernel, by decide +kernel⟩
  · intro l hl
    rw [mem_singleton.mp hl]
    exact ⟨by decide +kernel, by decide +kernel, by decide +kernel⟩
  · exact ⟨by decide +kernel, by decide +kernel, by decide +kernel, by decide +kernel, trivial⟩

end Xv6Threads.Grep
