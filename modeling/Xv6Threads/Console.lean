import Mathlib.Algebra.Group.Nat.Defs
import Mathlib.Data.List.Basic
import Mathlib.Order.Nat

namespace Xv6Threads.Console

open Function List Nat
open BitVec (ofNat)

abbrev INPUT_BUF : ℕ := 128

abbrev Key := BitVec 8

/-- `C(x)`. -/
def ctrl (x : Char) : Key := ofNat 8 (x.toNat - '@'.toNat)

def newline : Key := 10
def carriageReturn : Key := 13
def rubout : Key := 0x7f

/-- `(c == '\\r') ? '\\n' : c`. -/
def cooked (c : Key) : Key := if c = carriageReturn then newline else c

structure Input where
  buf : ℕ → Key
  r : BitVec 32
  w : BitVec 32
  e : BitVec 32

def killLine : ℕ → Input → Input
  | 0, s => s
  | fuel + 1, s =>
    if s.e ≠ s.w ∧ s.buf ((s.e - 1).toNat % INPUT_BUF) ≠ newline then
      killLine fuel { s with e := s.e - 1 }
    else s

/-- What `consoleintr` does with one character. -/
def consoleintr (c : Key) (s : Input) : Input :=
  if c = ctrl 'P' then s
  else if c = ctrl 'U' then killLine (s.e - s.w).toNat s
  else if c = ctrl 'H' ∨ c = rubout then if s.e ≠ s.w then { s with e := s.e - 1 } else s
  else if c ≠ 0 ∧ s.e - s.r < ofNat 32 INPUT_BUF then
    let c := cooked c
    let s := { s with buf := update s.buf (s.e.toNat % INPUT_BUF) c, e := s.e + 1 }
    if c = newline ∨ c = ctrl 'D' ∨ s.e = s.r + ofNat 32 INPUT_BUF then { s with w := s.e }
    else s
  else s

/-- A call of `consoleread`: `n` more bytes are wanted, and `data` has been stored. -/
structure Call where
  target : ℕ
  n : ℕ
  data : List Key

/-- The result of a call and the bytes that it has stored. -/
structure Returned where
  count : ℕ
  data : List Key
  deriving DecidableEq

structure State where
  input : Input
  call : Option Call
  returned : List Returned

def Call.result (k : Call) : Returned := ⟨k.target - k.n, k.data⟩

/-- One turn of the loop of `consoleread`; with nothing to read the process sleeps. -/
def consoleread (s : State) (k : Call) : Option State :=
  if s.input.r = s.input.w then none
  else
    let c := s.input.buf (s.input.r.toNat % INPUT_BUF)
    let input := { s.input with r := s.input.r + 1 }
    if c = ctrl 'D' then
      let input := if k.n < k.target then { input with r := input.r - 1 } else input
      some ⟨input, none, s.returned ++ [k.result]⟩
    else
      let k := { k with data := k.data ++ [c], n := k.n - 1 }
      if c = newline ∨ k.n = 0 then some ⟨input, none, s.returned ++ [k.result]⟩
      else some ⟨input, some k, s.returned⟩

inductive Act
  | intr (c : Key)
  | call (n : ℕ)
  | read

/-- A reader is stopped after each character, which gives more interleavings than the lock
allows. -/
def step (s : State) : Act → Option State
  | .intr c => some { s with input := consoleintr c s.input }
  | .call n =>
    match s.call with
    | none => if 0 < n then some { s with call := some ⟨n, n, []⟩ } else none
    | some _ => none
  | .read => s.call.bind (consoleread s)

def init : State := ⟨⟨fun _ => 0, 0, 0, 0⟩, none, []⟩

structure Pending where
  asked : ℕ
  got : List Key

/-- `pos` is the number of committed characters that readers have consumed. -/
structure Terminal where
  committed : List Key
  line : List Key
  pos : ℕ
  call : Option Pending
  returned : List (List Key)

namespace Terminal

def used (T : Terminal) : ℕ := T.committed.length - T.pos + T.line.length

def commit (T : Terminal) : Terminal := { T with committed := T.committed ++ T.line, line := [] }

def key (c : Key) (T : Terminal) : Terminal :=
  if c = ctrl 'P' then T
  else if c = ctrl 'U' then { T with line := [] }
  else if c = ctrl 'H' ∨ c = rubout then { T with line := T.line.dropLast }
  else if c ≠ 0 ∧ T.used < INPUT_BUF then
    let c := cooked c
    let T := { T with line := T.line ++ [c] }
    if c = newline ∨ c = ctrl 'D' ∨ T.used = INPUT_BUF then T.commit else T
  else T

def finish (T : Terminal) (got : List Key) : Terminal :=
  { T with call := none, returned := T.returned ++ [got] }

def read (T : Terminal) (k : Pending) : Option Terminal :=
  (T.committed[T.pos]?).map fun c =>
    if c = ctrl 'D' then
      if k.got = [] then { T with pos := T.pos + 1 }.finish [] else T.finish k.got
    else
      let got := k.got ++ [c]
      let T := { T with pos := T.pos + 1 }
      if c = newline ∨ got.length = k.asked then T.finish got
      else { T with call := some { k with got := got } }

def step (T : Terminal) : Act → Option Terminal
  | .intr c => some (T.key c)
  | .call n =>
    match T.call with
    | none => if 0 < n then some { T with call := some ⟨n, []⟩ } else none
    | some _ => none
  | .read => T.call.bind T.read

def init : Terminal := ⟨[], [], 0, none, []⟩

def got (T : Terminal) : List Key := T.call.elim [] Pending.got

end Terminal

/-- A call that returns nothing has consumed a Control-D. -/
def consumed (d : List Key) : List Key := if d = [] then [ctrl 'D'] else d

structure Terminal.Inv (T : Terminal) : Prop where
  pos_le : T.pos ≤ T.committed.length
  room : T.used ≤ INPUT_BUF
  line : newline ∉ T.line
  consumed : T.committed.take T.pos = (T.returned.map consumed).flatten ++ T.got
  noEof : ∀ d ∈ T.returned, ctrl 'D' ∉ d
  newlineLast : ∀ d ∈ T.returned, newline ∉ d.dropLast
  gotEof : ctrl 'D' ∉ T.got
  gotNewline : newline ∉ T.got
  short : ∀ k, T.call = some k → k.got.length < k.asked

section
variable {T U : Terminal} {c : Key} {a : Act}

theorem Terminal.init_inv : Terminal.init.Inv where
  pos_le := le_refl 0
  room := zero_le _
  line := not_mem_nil
  consumed := rfl
  noEof _ hd := absurd hd not_mem_nil
  newlineLast _ hd := absurd hd not_mem_nil
  gotEof := not_mem_nil
  gotNewline := not_mem_nil
  short _ hk := by cases hk

theorem Terminal.Inv.edit (h : T.Inv) {line : List Key} (hline : newline ∉ line)
    (hroom : T.committed.length - T.pos + line.length ≤ INPUT_BUF) : Inv { T with line := line } :=
  { h with room := hroom, line := hline }

theorem Terminal.Inv.commit (h : T.Inv) {line : List Key}
    (hroom : T.committed.length - T.pos + line.length ≤ INPUT_BUF) :
    Inv (Terminal.commit { T with line := line }) := by
  have hpos := h.pos_le
  refine { h with pos_le := ?_, room := ?_, line := not_mem_nil, consumed := ?_ }
  · simp only [Terminal.commit, length_append]
    omega
  · simp only [Terminal.commit, Terminal.used, length_append, length_nil]
    omega
  · simp only [Terminal.commit]
    rw [take_append_of_le_length hpos]
    exact h.consumed

theorem Terminal.Inv.key (h : T.Inv) : (T.key c).Inv := by
  have hroom := h.room
  unfold Terminal.used at hroom
  unfold Terminal.key
  dsimp only
  split_ifs with hp hu hh hc hfull
  · exact h
  · exact h.edit not_mem_nil (by simp only [length_nil]; omega)
  · refine h.edit (fun hm => h.line (dropLast_subset _ hm)) ?_
    rw [length_dropLast]
    omega
  · have hused := hc.2
    unfold Terminal.used at hused
    refine h.commit ?_
    rw [length_append, length_singleton]
    omega
  · have hused := hc.2
    unfold Terminal.used at hused
    rw [not_or] at hfull
    refine h.edit ?_ ?_
    · simp only [mem_append, mem_singleton, not_or]
      exact ⟨h.line, fun he => hfull.1 he.symm⟩
    · rw [length_append, length_singleton]
      omega
  · exact h

theorem Terminal.Inv.read {k : Pending} (h : T.Inv) (hk : T.call = some k)
    (hread : T.read k = some U) :
    U.Inv := by
  obtain ⟨c, hc, rfl⟩ := Option.map_eq_some_iff.mp hread
  have hlt : T.pos < T.committed.length := (List.getElem?_eq_some_iff.mp hc).1
  have hgot : T.got = k.got := by rw [Terminal.got, hk]; rfl
  have htake : T.committed.take (T.pos + 1) = T.committed.take T.pos ++ [c] := by
    rw [take_add_one, hc]
    rfl
  have hroom : T.committed.length - (T.pos + 1) + T.line.length ≤ INPUT_BUF := by
    have := h.room
    unfold Terminal.used at this
    omega
  have hcons := h.consumed
  have heof := h.gotEof
  have hnl := h.gotNewline
  rw [hgot] at hcons heof hnl
  -- a call that ends with `d` has consumed what it has got
  have hreturned : ∀ d, ctrl 'D' ∉ d → newline ∉ d.dropLast →
      (∀ x ∈ T.returned ++ [d], ctrl 'D' ∉ x) ∧ ∀ x ∈ T.returned ++ [d], newline ∉ x.dropLast := by
    intro d hd hd'
    constructor
    · intro x hx
      rcases mem_append.mp hx with hx | hx
      · exact h.noEof x hx
      · rwa [mem_singleton.mp hx]
    · intro x hx
      rcases mem_append.mp hx with hx | hx
      · exact h.newlineLast x hx
      · rwa [mem_singleton.mp hx]
  have hflat : ∀ d, ((T.returned ++ [d]).map Console.consumed).flatten =
      (T.returned.map Console.consumed).flatten ++ Console.consumed d := by
    intro d
    rw [map_append, flatten_append, map_singleton, flatten_singleton]
  dsimp only
  split_ifs with hd hempty hend
  · obtain ⟨hr, hr'⟩ := hreturned [] not_mem_nil not_mem_nil
    refine ⟨hlt, hroom, h.line, ?_, hr, hr', not_mem_nil, not_mem_nil, fun _ hk => by cases hk⟩
    simp only [Terminal.finish, Terminal.got, Option.elim_none, append_nil]
    rw [htake, hcons, hflat, hempty, append_nil, hd]
    rfl
  · obtain ⟨hr, hr'⟩ := hreturned k.got heof fun hm => hnl (dropLast_subset _ hm)
    refine ⟨h.pos_le, h.room, h.line, ?_, hr, hr', not_mem_nil, not_mem_nil,
      fun _ hk => by cases hk⟩
    simp only [Terminal.finish, Terminal.got, Option.elim_none, append_nil]
    rw [hcons, hflat, Console.consumed, if_neg hempty]
  · have heof' : ctrl 'D' ∉ k.got ++ [c] := by
      simp only [mem_append, mem_singleton, not_or]
      exact ⟨heof, fun he => hd he.symm⟩
    obtain ⟨hr, hr'⟩ := hreturned (k.got ++ [c]) heof' (by rw [dropLast_concat]; exact hnl)
    refine ⟨hlt, hroom, h.line, ?_, hr, hr', not_mem_nil, not_mem_nil, fun _ hk => by cases hk⟩
    simp only [Terminal.finish, Terminal.got, Option.elim_none, append_nil]
    have hne : k.got ++ [c] ≠ [] := append_ne_nil_of_right_ne_nil _ (cons_ne_nil c [])
    rw [htake, hcons, hflat, Console.consumed, if_neg hne, append_assoc]
  · rw [not_or] at hend
    have hlen := h.short k hk
    refine ⟨hlt, hroom, h.line, ?_, h.noEof, h.newlineLast, ?_, ?_, ?_⟩
    · simp only [Terminal.got, Option.elim_some]
      rw [htake, hcons, append_assoc]
    · simp only [Terminal.got, Option.elim_some, mem_append, mem_singleton, not_or]
      exact ⟨heof, fun he => hd he.symm⟩
    · simp only [Terminal.got, Option.elim_some, mem_append, mem_singleton, not_or]
      exact ⟨hnl, fun he => hend.1 he.symm⟩
    · intro k' hk'
      cases hk'
      have hne := hend.2
      change (k.got ++ [c]).length < k.asked
      rw [length_append, length_singleton] at hne ⊢
      omega

theorem Terminal.Inv.step (h : T.Inv) (hstep : T.step a = some U) : U.Inv := by
  cases a with
  | intr c =>
    cases hstep
    exact h.key
  | call n =>
    simp only [Terminal.step] at hstep
    split at hstep
    · rename_i hcall
      split_ifs at hstep with hn
      cases hstep
      have hcons := h.consumed
      rw [Terminal.got, hcall] at hcons
      refine ⟨h.pos_le, h.room, h.line, hcons, h.noEof, h.newlineLast, not_mem_nil, not_mem_nil, ?_⟩
      intro k hk
      cases hk
      exact hn
    · cases hstep
  | read =>
    obtain ⟨k, hk, hread⟩ := Option.bind_eq_some_iff.mp hstep
    exact h.read hk hread

end

section
variable {i m n : ℕ}

theorem toNat_sub_ofNat (hmn : m ≤ n) (hlt : n - m < 2 ^ 32) :
    (ofNat 32 n - ofNat 32 m).toNat = n - m := by
  rw [BitVec.toNat_sub, BitVec.toNat_ofNat, BitVec.toNat_ofNat]
  omega

theorem ofNat_eq_ofNat (hmn : m ≤ n) (hlt : n - m < 2 ^ 32) : ofNat 32 n = ofNat 32 m ↔ n = m := by
  constructor
  · intro heq
    have hsub := toNat_sub_ofNat hmn hlt
    rw [heq, BitVec.sub_self, BitVec.toNat_zero] at hsub
    omega
  · rintro rfl
    rfl

/-- The ring has as many places as a power of two, so the index may wrap. -/
theorem index_ofNat : (ofNat 32 i).toNat % INPUT_BUF = i % INPUT_BUF := by
  rw [BitVec.toNat_ofNat]
  exact mod_mod_of_dvd i (by decide)

theorem ofNat_succ : ofNat 32 i + 1 = ofNat 32 (i + 1) := (BitVec.ofNat_add ..).symm

theorem ofNat_pred (hi : 0 < i) : ofNat 32 i - 1 = ofNat 32 (i - 1) := by
  obtain ⟨j, rfl⟩ : ∃ j, i = j + 1 := ⟨i - 1, by omega⟩
  rw [Nat.add_sub_cancel, ← ofNat_succ, BitVec.add_sub_cancel]

end

structure Shows (s : Input) (T : Terminal) : Prop where
  r : s.r = ofNat 32 T.pos
  w : s.w = ofNat 32 T.committed.length
  e : s.e = ofNat 32 (T.committed.length + T.line.length)
  buf : ∀ i, T.pos ≤ i → ∀ c, (T.committed ++ T.line)[i]? = some c → s.buf (i % INPUT_BUF) = c

structure Refines (s : State) (T : Terminal) : Prop where
  input : Shows s.input T
  call : s.call = T.call.map fun k => ⟨k.asked, k.asked - k.got.length, k.got⟩
  returned : s.returned = T.returned.map fun d => ⟨d.length, d⟩

section
variable {s s' : Input} {T : Terminal} {c : Key}

theorem killLine_eq {m n : ℕ} (hw : s.w = ofNat 32 m) (he : s.e = ofNat 32 (m + n))
    (hn : n ≤ 128) (hbuf : ∀ i, m ≤ i → i < m + n → s.buf (i % INPUT_BUF) ≠ newline) :
    killLine n s = { s with e := s.w } := by
  induction n generalizing s with
  | zero =>
    obtain ⟨buf, r, w, e⟩ := s
    obtain rfl : e = w := he.trans hw.symm
    rfl
  | succ n ih =>
    have hne : s.e ≠ s.w := by
      rw [he, hw, Ne, ofNat_eq_ofNat (by omega) (by omega)]
      omega
    have hlast : s.e - 1 = ofNat 32 (m + n) := by
      rw [he, ofNat_pred (by omega)]
      congr 1
    have hchar : s.buf ((s.e - 1).toNat % INPUT_BUF) ≠ newline := by
      rw [hlast, index_ofNat]
      exact hbuf (m + n) (by omega) (by omega)
    rw [killLine, if_pos ⟨hne, hchar⟩]
    exact ih hw hlast (by omega) fun i hi hlt => hbuf i hi (by omega)

theorem Shows.shorter {line : List Key} (h : Shows s T) (hline : line <+: T.line) :
    ∀ i, T.pos ≤ i → ∀ c, (T.committed ++ line)[i]? = some c → s.buf (i % INPUT_BUF) = c := by
  intro i hi c hc
  obtain ⟨rest, hrest⟩ := hline
  refine h.buf i hi c ?_
  have hlt := (List.getElem?_eq_some_iff.mp hc).1
  rw [← hrest, ← append_assoc, List.getElem?_append_left hlt, hc]

theorem Terminal.Inv.bound (hT : T.Inv) :
    T.pos ≤ T.committed.length ∧ T.committed.length - T.pos + T.line.length ≤ 128 :=
  ⟨hT.pos_le, hT.room⟩

theorem Shows.kill (h : Shows s T) (hT : T.Inv) :
    Shows (killLine (s.e - s.w).toNat s) { T with line := [] } := by
  obtain ⟨hpos, hroom⟩ := hT.bound
  have hsub : (s.e - s.w).toNat = T.line.length := by
    rw [h.e, h.w, toNat_sub_ofNat (by omega) (by omega)]
    omega
  rw [hsub, killLine_eq h.w h.e (by omega)]
  · exact ⟨h.r, h.w, h.w, h.shorter nil_prefix⟩
  · intro i hi hlt
    have hc : (T.committed ++ T.line)[i]? = some (T.line.get
        ⟨i - T.committed.length, by omega⟩) := by
      rw [List.getElem?_append_right hi, List.getElem?_eq_getElem (by omega)]
      rfl
    rw [h.buf i (by omega) _ hc]
    exact fun he => hT.line (he ▸ get_mem ..)

theorem Shows.erase (h : Shows s T) (hT : T.Inv) :
    Shows (if s.e ≠ s.w then { s with e := s.e - 1 } else s)
      { T with line := T.line.dropLast } := by
  obtain ⟨hpos, hroom⟩ := hT.bound
  have hiff : s.e = s.w ↔ T.line.length = 0 := by
    rw [h.e, h.w, ofNat_eq_ofNat (by omega) (by omega)]
    omega
  split_ifs with hne
  · have hlen : T.line.length ≠ 0 := fun hz => hne (hiff.mpr hz)
    refine ⟨h.r, h.w, ?_, h.shorter <| dropLast_prefix T.line⟩
    change s.e - 1 = ofNat 32 (T.committed.length + T.line.dropLast.length)
    rw [h.e, ofNat_pred (by omega), length_dropLast]
    congr 1
    omega
  · have hnil : T.line = [] := length_eq_zero_iff.mp (hiff.mp (not_not.mp hne))
    rw [show { T with line := T.line.dropLast } = T by rw [hnil]; cases T; cases hnil; rfl]
    exact h

theorem Shows.type (h : Shows s T) (hT : T.Inv) (hused : T.used < INPUT_BUF) (c : Key) :
    Shows { s with buf := update s.buf (s.e.toNat % INPUT_BUF) c, e := s.e + 1 }
      { T with line := T.line ++ [c] } := by
  have hpos := hT.pos_le
  unfold Terminal.used at hused
  refine ⟨h.r, h.w, ?_, fun i hi x hx => ?_⟩
  · rw [h.e, ofNat_succ, length_append, length_singleton]
    rfl
  change (T.committed ++ (T.line ++ [c]))[i]? = some x at hx
  change update s.buf (s.e.toNat % INPUT_BUF) c (i % INPUT_BUF) = x
  rw [h.e, index_ofNat]
  have hlt := (List.getElem?_eq_some_iff.mp hx).1
  rw [← append_assoc] at hx
  simp only [length_append, length_singleton] at hlt
  by_cases hlast : i = T.committed.length + T.line.length
  · subst hlast
    rw [update_self]
    rw [List.getElem?_append_right (le_of_eq length_append), length_append, Nat.sub_self] at hx
    exact Option.some.inj hx
  · -- the ring is not full, so no other character is in this place
    have hne : i % INPUT_BUF ≠ (T.committed.length + T.line.length) % INPUT_BUF := by
      change i % 128 ≠ _ % 128
      change _ < 128 at hused
      change T.pos ≤ i at hi
      omega
    rw [update_of_ne hne]
    refine h.buf i hi x ?_
    rwa [List.getElem?_append_left (by rw [length_append]; omega)] at hx

theorem Shows.commit (h : Shows s T) : Shows { s with w := s.e } T.commit := by
  refine ⟨h.r, ?_, ?_, fun i hi c hc => h.buf i hi c ?_⟩
  · rw [h.e, Terminal.commit, length_append]
  · rw [h.e, Terminal.commit, length_append]
    rfl
  · rwa [Terminal.commit, append_nil] at hc

theorem Shows.intr (h : Shows s T) (hT : T.Inv) : Shows (consoleintr c s) (T.key c) := by
  obtain ⟨hpos, hroom⟩ := hT.bound
  have hused : s.e - s.r < ofNat 32 INPUT_BUF ↔ T.used < INPUT_BUF := by
    rw [BitVec.lt_def, h.e, h.r, toNat_sub_ofNat (by omega) (by omega), Terminal.used]
    change _ < 128 ↔ _ < 128
    omega
  unfold consoleintr Terminal.key
  by_cases hp : c = ctrl 'P'
  · rw [if_pos hp, if_pos hp]
    exact h
  rw [if_neg hp, if_neg hp]
  by_cases hu : c = ctrl 'U'
  · rw [if_pos hu, if_pos hu]
    exact h.kill hT
  rw [if_neg hu, if_neg hu]
  by_cases hh : c = ctrl 'H' ∨ c = rubout
  · rw [if_pos hh, if_pos hh]
    exact h.erase hT
  rw [if_neg hh, if_neg hh]
  by_cases hc : c ≠ 0 ∧ T.used < INPUT_BUF
  · rw [if_pos hc, if_pos ⟨hc.1, hused.mpr hc.2⟩]
    have htype := h.type hT hc.2 (cooked c)
    have hlt : T.committed.length - T.pos + T.line.length < 128 := hc.2
    have hfull : s.e + 1 = s.r + ofNat 32 INPUT_BUF ↔
        Terminal.used { T with line := T.line ++ [cooked c] } = INPUT_BUF := by
      rw [h.e, h.r, ofNat_succ, ← BitVec.ofNat_add, eq_comm, ofNat_eq_ofNat, Terminal.used,
        length_append, length_singleton]
      · change T.pos + 128 = _ ↔ T.committed.length - T.pos + (T.line.length + 1) = 128
        omega
      · change _ ≤ T.pos + 128
        omega
      · change T.pos + 128 - _ < _
        omega
    simp only [hfull]
    split_ifs with hcommit
    · exact htype.commit
    · exact htype
  · rw [if_neg hc, if_neg fun hc' => hc ⟨hc'.1, hused.mp hc'.2⟩]
    exact h

end

section
variable {s s' : State} {T : Terminal} {k : Pending} {a : Act}

theorem Shows.next {s : Input} (h : Shows s T) (hT : T.Inv) :
    s.r = s.w ∧ T.committed[T.pos]? = none ∨
      s.r ≠ s.w ∧ T.committed[T.pos]? = some (s.buf (s.r.toNat % INPUT_BUF)) := by
  obtain ⟨hpos, hroom⟩ := hT.bound
  have hiff : s.w = s.r ↔ T.committed.length = T.pos := by
    rw [h.w, h.r, ofNat_eq_ofNat hpos (by omega)]
  by_cases heq : s.w = s.r
  · exact .inl ⟨heq.symm, List.getElem?_eq_none (hiff.mp heq).le⟩
  · have hlt : T.pos < T.committed.length := by
      have := mt hiff.mpr heq
      omega
    refine .inr ⟨fun he => heq he.symm, ?_⟩
    rw [h.r, index_ofNat, List.getElem?_eq_getElem hlt]
    have hchar : (T.committed ++ T.line)[T.pos]? = some (T.committed[T.pos]) := by
      rw [List.getElem?_append_left hlt, List.getElem?_eq_getElem hlt]
    rw [h.buf T.pos le_rfl _ hchar]

theorem Shows.congr {s : Input} {U : Terminal} (h : Shows s T) (hc : U.committed = T.committed)
    (hl : U.line = T.line) (hp : U.pos = T.pos) : Shows s U := by
  refine ⟨?_, ?_, ?_, ?_⟩
  · rw [hp, h.r]
  · rw [hc, h.w]
  · rw [hc, hl, h.e]
  · rw [hc, hl, hp]
    exact h.buf

theorem Terminal.key_call (c : Key) : (T.key c).call = T.call := by
  unfold Terminal.key
  dsimp only
  split_ifs <;> rfl

theorem Terminal.key_returned (c : Key) : (T.key c).returned = T.returned := by
  unfold Terminal.key
  dsimp only
  split_ifs <;> rfl

theorem Shows.advance {s : Input} (h : Shows s T) :
    Shows { s with r := s.r + 1 } { T with pos := T.pos + 1 } :=
  ⟨by rw [h.r, ofNat_succ], h.w, h.e, fun i hi => h.buf i (le_of_succ_le hi)⟩

theorem Refines.read (h : Refines s T) (hT : T.Inv) (hk : T.call = some k)
    (hread : consoleread s ⟨k.asked, k.asked - k.got.length, k.got⟩ = some s') :
    ∃ U, T.read k = some U ∧ Refines s' U := by
  have hshort := hT.short k hk
  unfold consoleread at hread
  rcases h.input.next hT with ⟨heq, -⟩ | ⟨hne, hc⟩
  · rw [if_pos heq] at hread
    cases hread
  rw [if_neg hne] at hread
  rw [Terminal.read, hc, Option.map_some]
  generalize s.input.buf (s.input.r.toNat % INPUT_BUF) = c at hread hc
  refine ⟨_, rfl, ?_⟩
  dsimp only [Call.result] at hread
  -- a call that returns stores its result beside those of the earlier calls
  have hreturn : ∀ d : List Key, s.returned ++ [⟨d.length, d⟩] =
      (T.returned ++ [d]).map fun d => (⟨d.length, d⟩ : Returned) := by
    intro d
    rw [map_append, ← h.returned]
    rfl
  have hcount : k.asked - (k.asked - k.got.length) = k.got.length := by omega
  by_cases hd : c = ctrl 'D'
  · rw [if_pos hd] at hread ⊢
    cases hread
    by_cases hempty : k.got = []
    · have hn : ¬k.asked - k.got.length < k.asked := by
        rw [hempty]
        exact lt_irrefl _
      rw [if_pos hempty, if_neg hn]
      refine ⟨h.input.advance.congr rfl rfl rfl, rfl, ?_⟩
      rw [hcount, hempty]
      exact hreturn []
    · have hpos : 0 < k.got.length := length_pos_iff.mpr hempty
      rw [if_neg hempty, if_pos (by omega), BitVec.add_sub_cancel]
      refine ⟨h.input.congr rfl rfl rfl, rfl, ?_⟩
      rw [hcount]
      exact hreturn k.got
  · rw [if_neg hd] at hread ⊢
    have hn : k.asked - k.got.length - 1 = k.asked - (k.got ++ [c]).length := by
      rw [length_append, length_singleton]
      omega
    have hiff : k.asked - k.got.length - 1 = 0 ↔ (k.got ++ [c]).length = k.asked := by
      rw [length_append, length_singleton]
      omega
    simp only [hiff] at hread
    by_cases hend : c = newline ∨ (k.got ++ [c]).length = k.asked
    · rw [if_pos hend] at hread ⊢
      cases hread
      refine ⟨h.input.advance.congr rfl rfl rfl, rfl, ?_⟩
      have hcount' : k.asked - (k.asked - k.got.length - 1) = (k.got ++ [c]).length := by
        rw [length_append, length_singleton]
        omega
      rw [hcount']
      exact hreturn (k.got ++ [c])
    · rw [if_neg hend] at hread ⊢
      cases hread
      refine ⟨h.input.advance.congr rfl rfl rfl, ?_, h.returned⟩
      rw [hn]
      rfl

theorem Refines.step (h : Refines s T) (hT : T.Inv) (hstep : step s a = some s') :
    ∃ U, T.step a = some U ∧ Refines s' U := by
  cases a with
  | intr c =>
    cases hstep
    refine ⟨_, rfl, h.input.intr hT, ?_, ?_⟩
    · rw [Terminal.key_call]
      exact h.call
    · rw [Terminal.key_returned]
      exact h.returned
  | call n =>
    have hcall := h.call
    simp only [Console.step] at hstep
    split at hstep
    · rename_i hnone
      split_ifs at hstep with hn
      cases hstep
      rw [hnone] at hcall
      have hT' : T.call = none := Option.map_eq_none_iff.mp hcall.symm
      refine ⟨{ T with call := some ⟨n, []⟩ }, ?_, h.input.congr rfl rfl rfl, rfl, h.returned⟩
      simp only [Terminal.step, hT', if_pos hn]
    · cases hstep
  | read =>
    obtain ⟨k', hk', hread⟩ := Option.bind_eq_some_iff.mp hstep
    have hcall := h.call
    rw [hk'] at hcall
    obtain ⟨k, hk, rfl⟩ := Option.map_eq_some_iff.mp hcall.symm
    obtain ⟨U, hU, hrefines⟩ := h.read hT hk hread
    refine ⟨U, ?_, hrefines⟩
    rw [Terminal.step, hk]
    exact hU

theorem Refines.run (h : Refines s T) (hT : T.Inv) {as : List Act}
    (hrun : as.foldlM Console.step s = some s') :
    ∃ U, as.foldlM Terminal.step T = some U ∧ Refines s' U ∧ U.Inv := by
  induction as generalizing s T with
  | nil =>
    cases hrun
    exact ⟨T, rfl, h, hT⟩
  | cons a as ih =>
    obtain ⟨t, hstep, hrest⟩ := Option.bind_eq_some_iff.mp hrun
    obtain ⟨U, hU, hrefines⟩ := h.step hT hstep
    obtain ⟨V, hV, hlast⟩ := ih hrefines (hT.step hU) hrest
    refine ⟨V, ?_, hlast⟩
    rw [foldlM_cons, hU]
    exact hV

theorem init_refines : Refines init Terminal.init :=
  ⟨⟨rfl, rfl, rfl, fun _ _ _ hc => by cases hc⟩, rfl, rfl⟩

end

/-- The committed input of `s` is still there. -/
structure Kept (s u : Input) : Prop where
  r : u.r = s.r
  w : s.w - s.r ≤ u.w - u.r
  buf : ∀ i < (s.w - s.r).toNat, u.buf ((s.r + ofNat 32 i).toNat % INPUT_BUF) =
    s.buf ((s.r + ofNat 32 i).toNat % INPUT_BUF)

def State.stored (s : State) : List Key := s.call.elim [] Call.data

/-- `T.committed` is all that has been committed so far. -/
structure Delivered (s : State) (T : Terminal) : Prop where
  bounds : s.input.w - s.input.r ≤ s.input.e - s.input.r ∧ (s.input.e - s.input.r).toNat ≤ INPUT_BUF
  kept : ∀ c, Kept s.input (consoleintr c s.input)
  count : ∀ x ∈ s.returned, x.count = x.data.length
  delivered : (s.returned.map Returned.data).flatten <+: T.committed.filter (· ≠ ctrl 'D')
  consumed : T.committed.take T.pos = (s.returned.map fun x => consumed x.data).flatten ++ s.stored
  noEof : ∀ x ∈ s.returned, ctrl 'D' ∉ x.data
  newlineLast : ∀ x ∈ s.returned, newline ∉ x.data.dropLast
  stored : newline ∉ s.stored ∧ ctrl 'D' ∉ s.stored

section
variable {s : State} {T : Terminal}

theorem Terminal.key_pos (c : Key) : (T.key c).pos = T.pos := by
  unfold Terminal.key
  dsimp only
  split_ifs <;> rfl

theorem Terminal.key_committed (c : Key) : T.committed <+: (T.key c).committed := by
  unfold Terminal.key
  dsimp only
  split_ifs with hp hu hh hc hfull
  · exact prefix_rfl
  · exact prefix_rfl
  · exact prefix_rfl
  · exact prefix_append ..
  · exact prefix_rfl
  · exact prefix_rfl

theorem Shows.toNat_sub {s : Input} (h : Shows s T) (hT : T.Inv) :
    (s.w - s.r).toNat = T.committed.length - T.pos ∧ (s.e - s.r).toNat = T.used := by
  obtain ⟨hpos, hroom⟩ := hT.bound
  constructor
  · rw [h.w, h.r, toNat_sub_ofNat hpos (by omega)]
  · rw [h.e, h.r, toNat_sub_ofNat (by omega) (by omega), Terminal.used]
    omega

theorem Shows.kept {s : Input} (h : Shows s T) (hT : T.Inv) (c : Key) :
    Kept s (consoleintr c s) := by
  have h' := h.intr (c := c) hT
  have hT' := hT.key (c := c)
  obtain ⟨rest, hrest⟩ := T.key_committed c
  have hr : (consoleintr c s).r = s.r := by rw [h'.r, Terminal.key_pos, h.r]
  refine ⟨hr, ?_, fun i hi => ?_⟩
  · rw [BitVec.le_def, (h.toNat_sub hT).1, (h'.toNat_sub hT').1, Terminal.key_pos, ← hrest,
      length_append]
    omega
  · rw [(h.toNat_sub hT).1] at hi
    have hlt : T.pos + i < T.committed.length := by omega
    rw [h.r, ← BitVec.ofNat_add, index_ofNat]
    have hchar : ∀ l, (T.committed ++ l)[T.pos + i]? = some (T.committed[T.pos + i]) := by
      intro l
      rw [List.getElem?_append_left hlt, List.getElem?_eq_getElem hlt]
    rw [h.buf (T.pos + i) (by omega) _ (hchar T.line), h'.buf (T.pos + i)]
    · rw [Terminal.key_pos]
      omega
    · rw [← hrest, append_assoc]
      exact hchar _

/-- Without the Control-D characters, what has been consumed is what has been returned. -/
theorem filter_consumed {l : List (List Key)} (h : ∀ d ∈ l, ctrl 'D' ∉ d) :
    ((l.map consumed).flatten).filter (· ≠ ctrl 'D') = l.flatten := by
  induction l with
  | nil => rfl
  | cons d l ih =>
    have hd := h d mem_cons_self
    rw [map_cons, flatten_cons, flatten_cons, filter_append,
      ih fun x hx => h x (mem_cons_of_mem d hx)]
    congr 1
    unfold consumed
    split_ifs with hnil
    · rw [hnil]
      rfl
    · refine filter_eq_self.mpr fun x hx => ?_
      simp only [ne_eq, decide_not, Bool.not_eq_eq_eq_not, Bool.not_true, decide_eq_false_iff_not]
      rintro rfl
      exact hd hx

theorem Refines.delivered (h : Refines s T) (hT : T.Inv) : Delivered s T := by
  obtain ⟨hw, he⟩ := h.input.toNat_sub hT
  have hstored : s.stored = T.got := by
    rw [State.stored, h.call, Terminal.got]
    cases T.call <;> rfl
  have hmem : ∀ {P : List Key → Prop}, (∀ d ∈ T.returned, P d) → ∀ x ∈ s.returned, P x.data := by
    intro P hP x hx
    rw [h.returned] at hx
    obtain ⟨d, hd, rfl⟩ := mem_map.mp hx
    exact hP d hd
  have hcons : (s.returned.map fun x => Console.consumed x.data) =
      T.returned.map Console.consumed := by
    rw [h.returned, map_map]
    rfl
  have hdata : s.returned.map Returned.data = T.returned := by
    rw [h.returned, map_map]
    exact map_id _
  constructor
  · rw [BitVec.le_def, hw, he]
    refine ⟨?_, hT.room⟩
    rw [Terminal.used]
    omega
  · exact h.input.kept hT
  · intro x hx
    rw [h.returned] at hx
    obtain ⟨d, -, rfl⟩ := mem_map.mp hx
    rfl
  · rw [hdata, ← filter_consumed hT.noEof]
    refine List.IsPrefix.filter _ (List.IsPrefix.trans ?_ <| take_prefix T.pos T.committed)
    rw [hT.consumed]
    exact prefix_append ..
  · rw [hcons, hstored]
    exact hT.consumed
  · exact hmem hT.noEof
  · exact hmem hT.newlineLast
  · rw [hstored]
    exact ⟨hT.gotNewline, hT.gotEof⟩

end

/-- Whatever is typed and read, in any order, the calls of `consoleread` deliver the committed
input. -/
theorem console_delivers (as : List Act) {s : State} (hrun : as.foldlM step init = some s) :
    ∃ T, as.foldlM Terminal.step Terminal.init = some T ∧ Delivered s T := by
  obtain ⟨T, hT, hrefines, hinv⟩ := init_refines.run Terminal.init_inv hrun
  exact ⟨T, hT, hrefines.delivered hinv⟩

/-- Two characters, one of them erased, a Control-D and a line, read by three calls. -/
def session : List Act :=
  [.call 5, .intr 97, .intr 98, .intr (ctrl 'H'), .intr (ctrl 'D'), .read, .read, .call 5, .read,
    .call 1, .intr 99, .intr 13, .read]

theorem console_delivers_session : ∃ s T, session.foldlM step init = some s ∧
    s.returned = [⟨1, [97]⟩, ⟨0, []⟩, ⟨1, [99]⟩] ∧
    session.foldlM Terminal.step Terminal.init = some T ∧ Delivered s T := by
  obtain ⟨s, hs, hret⟩ : ∃ s, session.foldlM step init = some s ∧
      s.returned = [⟨1, [97]⟩, ⟨0, []⟩, ⟨1, [99]⟩] := ⟨_, rfl, by decide⟩
  obtain ⟨T, hT, hdelivered⟩ := console_delivers session hs
  exact ⟨s, T, hs, hret, hT, hdelivered⟩

end Xv6Threads.Console
