import Mathlib.Data.List.Sort
import MaramOS.Spec.Basic

/-! The range allocator of `allocators/range.rs`: a vector of free ranges that
every operation sorts and merges again. -/

namespace MaramOS

structure Range where
  start : ℕ
  length : ℕ
  deriving DecidableEq, Repr

structure RangeAllocator where
  ranges : List Range
  deriving DecidableEq, Repr

namespace RangeAllocator

def new : RangeAllocator := ⟨[]⟩

/-- The merge loop of `coalesce` at index `i`: `curr` is the range there. -/
def mergeFrom (curr : Range) : List Range → List Range
  | [] => [curr]
  | next :: rest =>
    if wadd curr.start curr.length = next.start then mergeFrom ⟨curr.start, wadd curr.length next.length⟩ rest
    else curr :: mergeFrom next rest

/-- `sort_by_key` is stable, as insertion sort is. -/
def coalesce (a : RangeAllocator) : RangeAllocator :=
  match a.ranges.insertionSort fun r s => r.start ≤ s.start with
  | [] => ⟨[]⟩
  | curr :: rest => ⟨mergeFrom curr rest⟩

/-- `usize::next_multiple_of`; a zero `align` would panic. -/
def nextMultipleOf (n align : ℕ) : ℕ := if n % align = 0 then n else wadd n (align - n % align)

/-- The loop of `allocate`: `done` are the ranges already passed over. -/
def allocateFrom (size align : ℕ) (done : List Range) : List Range → Option (ℕ × RangeAllocator)
  | [] => none
  | range :: rest =>
    let alignedStart := nextMultipleOf range.start align
    if wadd range.start range.length < wadd alignedStart size then allocateFrom size align (done ++ [range]) rest
    else
      let head := if range.start < alignedStart then [⟨range.start, wsub alignedStart range.start⟩] else []
      let tail := wsub (wadd range.start range.length) (wadd alignedStart size)
      let tail := if tail ≠ 0 then [⟨wadd alignedStart size, tail⟩] else []
      some (alignedStart, coalesce ⟨done ++ rest ++ head ++ tail⟩)

def allocate (a : RangeAllocator) (size align : ℕ) : Option ℕ × RangeAllocator :=
  match allocateFrom size align [] a.ranges with
  | none => (none, a)
  | some (start, a') => (some start, a')

def addRange (a : RangeAllocator) (start stop : ℕ) : RangeAllocator :=
  coalesce ⟨a.ranges ++ [⟨start, wsub stop start⟩]⟩

def free (a : RangeAllocator) (base size : ℕ) : RangeAllocator :=
  coalesce ⟨a.ranges ++ [⟨base, size⟩]⟩

/-- The loop of `reserve` that looks for a gap before `stop`; `none` is its early return. -/
def sweep (stop cursor : ℕ) : List Range → Option ℕ
  | [] => some cursor
  | range :: rest =>
    let rangeEnd := wadd range.start range.length
    if rangeEnd ≤ cursor then sweep stop cursor rest
    else if cursor < range.start then none
    else if stop ≤ rangeEnd then some rangeEnd
    else sweep stop rangeEnd rest

/-- What `reserve` keeps of a range. -/
def cut (start stop : ℕ) (range : Range) : List Range :=
  let rangeEnd := wadd range.start range.length
  if rangeEnd ≤ start ∨ stop ≤ range.start then [range]
  else
    (if range.start < start then [⟨range.start, wsub start range.start⟩] else []) ++
      (if stop < rangeEnd then [⟨stop, wsub rangeEnd stop⟩] else [])

def reserve (a : RangeAllocator) (start size : ℕ) : Bool × RangeAllocator :=
  if 2 ^ 64 ≤ start + size then (false, a)
  else
    let stop := start + size
    if start = stop then (true, a)
    else
      let a := a.coalesce
      match sweep stop start a.ranges with
      | none => (false, a)
      | some cursor =>
        if cursor < stop then (false, a) else (true, coalesce ⟨a.ranges.flatMap (cut start stop)⟩)

end RangeAllocator

end MaramOS
