import Xv6Threads.Circular
import Xv6Threads.Loop
import Xv6Threads.Tiling

namespace Xv6Threads.Umalloc

open Function
open Tiling (Block)

/-- `sizeof(Header)`. -/
abbrev HEADER : ℕ := 8

/-- `ptr` and `size` are the fields of the header at a byte address; headers in use do not overlap.
`areas` are the areas that `sbrk` has returned, with their number of units. -/
structure Heap where
  ptr : ℕ → ℕ
  size : ℕ → ℕ
  freep : ℕ
  areas : List Block

/-- `p + n` for a `Header *`. -/
def add (p n : ℕ) : ℕ := (p + HEADER * n) % 2 ^ 32

/-- More than there are free blocks. -/
def bound (s : Heap) : ℕ := (s.areas.map Prod.snd).sum + 1

def Stop (s : Heap) (bp p : ℕ) : Prop :=
  bp > p ∧ bp < s.ptr p ∨ p ≥ s.ptr p ∧ (bp > p ∨ bp < s.ptr p)

instance (s : Heap) (bp p : ℕ) : Decidable (Stop s bp p) := inferInstanceAs (Decidable (_ ∨ _))

/-- The loop of `free`; `none` if the bound is met. -/
def findPlace (s : Heap) (bp : ℕ) : ℕ → ℕ → Option ℕ
  | 0, _ => none
  | turns + 1, p => if Stop s bp p then some p else findPlace s bp turns (s.ptr p)

/-- `if(bp + bp->s.size == p->s.ptr)`, for the block behind. -/
def joinNext (s : Heap) (bp p : ℕ) : Heap :=
  let next := s.ptr p
  if add bp (s.size bp) = next then
    { s with
      size := update s.size bp ((s.size bp + s.size next) % 2 ^ 32),
      ptr := update s.ptr bp (s.ptr next) }
  else { s with ptr := update s.ptr bp next }

/-- `if(p + p->s.size == bp)`, for the block before. -/
def joinPrev (s : Heap) (bp p : ℕ) : Heap :=
  if add p (s.size p) = bp then
    { s with
      size := update s.size p ((s.size p + s.size bp) % 2 ^ 32),
      ptr := update s.ptr p (s.ptr bp) }
  else { s with ptr := update s.ptr p bp }

def free (s : Heap) (ap : ℕ) : Option Heap :=
  let bp := ap - HEADER
  match findPlace s bp (bound s) s.freep with
  | none => none
  | some p => some { joinPrev (joinNext s bp p) bp p with freep := p }

/-- What `sbrk` returns when so many bytes are asked for; `none` is -1. -/
abbrev Sbrk := List Block → ℤ → Option ℕ

/-- The number of units for which `morecore` asks. -/
def coreUnits (nu : ℕ) : ℕ := if nu < 4096 then 4096 else nu

/-- `nu * sizeof(Header)`, a `uint`, as the `int` that `sbrk` takes. -/
def amount (nu : ℕ) : ℤ := (BitVec.ofNat 32 (nu * HEADER)).toInt

/-- The result is `none` if the bound is met in `free`, and `some none` if there is no memory. The
area is what `sbrk` was asked for, which is nothing if the amount is not positive. -/
def morecore (sbrk : Sbrk) (s : Heap) (nu : ℕ) : Option (Option Heap) :=
  let nu := coreUnits nu
  match sbrk s.areas (amount nu) with
  | none => some none
  | some hp =>
    (free { s with
        size := update s.size hp nu, areas := (hp, (amount nu).toNat / HEADER) :: s.areas }
      (hp + HEADER)).map some

/-- The block `p` is large enough: it is taken out of the list, or its tail is cut off. -/
def take (s : Heap) (prevp p nunits : ℕ) : ℕ × Heap :=
  if s.size p = nunits then
    (add p 1, { s with ptr := update s.ptr prevp (s.ptr p), freep := prevp })
  else
    let left := s.size p - nunits
    let q := add p left
    (add q 1, { s with
      size := update (update s.size p left) q nunits,
      freep := prevp })

/-- The loop of `malloc`. -/
def search (sbrk : Sbrk) (nunits : ℕ) : ℕ → ℕ → ℕ → Heap → Option (ℕ × Heap)
  | 0, _, _, _ => none
  | turns + 1, prevp, p, s =>
    if s.size p ≥ nunits then some (take s prevp p nunits)
    else if p = s.freep then
      match morecore sbrk s nunits with
      | none => none
      | some none => some (0, s)
      | some (some s) => search sbrk nunits turns s.freep (s.ptr s.freep) s
    else search sbrk nunits turns p (s.ptr p) s

def units (nbytes : ℕ) : ℕ := (nbytes + HEADER - 1) % 2 ^ 32 / HEADER + 1

def setup (base : ℕ) (s : Heap) : Heap :=
  if s.freep = 0 then
    { s with ptr := update s.ptr base base, freep := base, size := update s.size base 0 }
  else s

/-- The address of `base` is a parameter. -/
def malloc (base : ℕ) (sbrk : Sbrk) (s : Heap) (nbytes : ℕ) : Option (ℕ × Heap) :=
  let s := setup base s
  search sbrk (units nbytes) (2 * bound s + coreUnits (units nbytes)) s.freep (s.ptr s.freep) s

/-- `live` are the pointers in use, with the number of bytes that were asked for. -/
structure Sys where
  heap : Heap
  live : List (ℕ × ℕ)

inductive Act
  | malloc (nbytes : ℕ) (sbrk : Sbrk)
  | free (ap : ℕ)
  /-- the program writes to what it has allocated -/
  | write (ptr size : ℕ → ℕ)

def header (q : ℕ × ℕ) : ℕ := q.1 - HEADER

/-- The units for the request, computed without wrapping, are an amount that `sbrk` can take. -/
def Small (nbytes : ℕ) : Prop := HEADER * ((nbytes + HEADER - 1) / HEADER + 1) < 2 ^ 31

/-- Where `sbrk` may put an area: above `base` and the earlier ones. -/
def Fresh (base : ℕ) (sbrk : Sbrk) : Prop := ∀ areas n p, sbrk areas n = some p →
  base + HEADER ≤ p ∧ (∀ c ∈ areas, c.1 + HEADER * c.2 ≤ p) ∧ p + n.toNat < 2 ^ 32

/-- Requests satisfy `P`, and a program frees what is in use and writes behind the headers of the
blocks it has. -/
def Allowed (P : ℕ → Prop) (base : ℕ) (s : Sys) : Act → Prop
  | .malloc nbytes sbrk => P nbytes ∧ Fresh base sbrk
  | .free ap => ∃ n, (ap, n) ∈ s.live
  | .write ptr size =>
    ∀ x, (∀ q ∈ s.live, x ≤ header q ∨ header q + HEADER * s.heap.size (header q) ≤ x) →
      ptr x = s.heap.ptr x ∧ size x = s.heap.size x

def step (base : ℕ) (s : Sys) : Act → Option Sys
  | .malloc nbytes sbrk =>
    (malloc base sbrk s.heap nbytes).map fun (p, heap) =>
      { heap := heap, live := if p = 0 then s.live else (p, nbytes) :: s.live }
  | .free ap =>
    (free s.heap ap).map fun heap => { heap := heap, live := s.live.filter fun q => q.1 ≠ ap }
  | .write ptr size => some { s with heap := { s.heap with ptr := ptr, size := size } }

def Start (s : Sys) : Prop := s.heap.freep = 0 ∧ s.heap.areas = [] ∧ s.live = []

def Reachable (base : ℕ) : Sys → Prop :=
  Reach Start (Allowed Small base) fun s a t => step base s a = some t

/-- The number of units may have wrapped, but is an amount that `sbrk` can take. -/
def Runnable (nbytes : ℕ) : Prop := HEADER * units nbytes < 2 ^ 31

def Running (base : ℕ) : Sys → Prop :=
  Reach Start (Allowed Runnable base) fun s a t => step base s a = some t

end Xv6Threads.Umalloc
