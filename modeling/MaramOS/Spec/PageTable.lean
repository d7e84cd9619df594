import MaramOS.Lib.RadixTree
import MaramOS.Spec.Basic

/-! Page tables, and the mapper of the `x86_64` crate as `memory/virt.rs` calls it. The
mapper is not part of the kernel: it is a parameter, and what is assumed of it is named
here. A table that an entry points to is held in the entry, together with the frame it
lies in, since the frame allocator never hands out a frame that is in use. An entry
is unused, a page with its flags, or a table. -/

namespace MaramOS

abbrev PageTableFlags : Type := UInt64

namespace PageTableFlags

def PRESENT : PageTableFlags := 1

def WRITABLE : PageTableFlags := 0b10

def USER_ACCESSIBLE : PageTableFlags := 0b100

def NO_EXECUTE : PageTableFlags := 0x8000000000000000

end PageTableFlags

structure MappedPage where
  frame : ℕ
  flags : PageTableFlags
  deriving DecidableEq, Repr

/-- An entry of a table; those of level 0 stand in an L1 table and those of level 3 in the L4 table. -/
abbrev PageTableEntry (n : ℕ) : Type := RadixTree 512 ℕ MappedPage n

abbrev PageTable : Type := Fin 512 → PageTableEntry 3

/-- The size of a page that an entry of level `k` maps: 4 KiB, 2 MiB, 1 GiB, and 512 GiB for an L4 entry. -/
def pageSize (k : ℕ) : ℕ := 2 ^ (12 + 9 * k)

/-- `p1_index` to `p4_index` of an address. -/
def pageIndex (addr level : ℕ) : Fin 512 := ⟨addr / pageSize level % 512, Nat.mod_lt _ (by norm_num)⟩

namespace PageTable

/-- The page that holds an address: its level and what it is mapped to. -/
def lookup (t : PageTable) (addr : ℕ) : Option (ℕ × MappedPage) := (t (pageIndex addr 3)).find (pageIndex addr)

def translate (t : PageTable) (addr : ℕ) : Option ℕ := (t.lookup addr).map fun p => p.2.frame + addr % pageSize p.1

end PageTable

/-- Two addresses in one page of level `k`. The upper 16 bits of an address are not used. -/
def SamePage (k v w : ℕ) : Prop := v % 2 ^ 48 / pageSize k = w % 2 ^ 48 / pageSize k

/-- The frame allocator: its answers to come, and the table frames that were allocated and freed so far. -/
structure Frames where
  grants : List (Option ℕ)
  allocated : List ℕ
  freed : List ℕ

def Frames.allocateFrame (fs : Frames) : Option ℕ × Frames :=
  match fs.grants with
  | [] => (none, fs)
  | none :: grants => (none, { fs with grants := grants })
  | some frame :: grants => (some frame, { fs with grants := grants, allocated := frame :: fs.allocated })

def Frames.deallocate (fs : Frames) (frames : List ℕ) : Frames := { fs with freed := frames ++ fs.freed }

/-- The answer to request `i` for a table frame is a refusal; behind the end of the list all requests are refused. -/
def Refused (grants : List (Option ℕ)) (i : ℕ) : Prop := grants[i]?.join = none

inductive MapToError
  | frameAllocationFailed | parentEntryHugePage | pageAlreadyMapped
  deriving DecidableEq, Repr

inductive UnmapError
  | parentEntryHugePage | pageNotMapped
  deriving DecidableEq, Repr

/-- The mapper of the crate. A page is given by its level and an address in it; `cleanUpAddrRange` gets the first
and the last page, and gives back the frames of the tables that it removed. -/
class Mapper where
  mapTo (k addr : ℕ) (page : MappedPage) (t : PageTable) (fs : Frames) : Except MapToError Unit × PageTable × Frames
  unmap (k addr : ℕ) (t : PageTable) : Except UnmapError PageTable
  cleanUpAddrRange (first last : ℕ) (t : PageTable) : PageTable × List ℕ

namespace Mapper

open RadixTree

/-- The mapper is a partial map from pages to frames, for each of the three page sizes. -/
class PartialMap [Mapper] : Prop where
  mapTo_ok {k addr : ℕ} {page : MappedPage} {t t' : PageTable} {fs fs' : Frames} : k ≤ 2 →
    mapTo k addr page t fs = (.ok (), t', fs') →
    (∀ w, SamePage k w addr → t'.lookup w = some (k, page) ∧ t.lookup w = none) ∧
    ∀ w, ¬SamePage k w addr → t'.lookup w = t.lookup w
  mapTo_error {k addr : ℕ} {page : MappedPage} {t t' : PageTable} {fs fs' : Frames} {err : MapToError} : k ≤ 2 →
    mapTo k addr page t fs = (.error err, t', fs') → ∀ w, t'.lookup w = t.lookup w
  unmap_ok {k addr : ℕ} {t t' : PageTable} : k ≤ 2 → unmap k addr t = .ok t' →
    (∀ w, SamePage k w addr → t'.lookup w = none ∧ ∃ page, t.lookup w = some (k, page)) ∧
    ∀ w, ¬SamePage k w addr → t'.lookup w = t.lookup w
  unmap_mapped {k addr : ℕ} {page : MappedPage} {t : PageTable} : k ≤ 2 → t.lookup addr = some (k, page) →
    ∃ t', unmap k addr t = .ok t'
  unmap_error {addr : ℕ} {t : PageTable} {err : UnmapError} : unmap 0 addr t = .error err →
    err = .pageNotMapped ∧ t.lookup addr = none ∨
    err = .parentEntryHugePage ∧ ∃ k page, 0 < k ∧ t.lookup addr = some (k, page)
  cleanUp_lookup (first last : ℕ) (t : PageTable) (w : ℕ) : (cleanUpAddrRange first last t).1.lookup w = t.lookup w

/-- Only the L4 entry of the page is touched. It keeps its table, and the clean-up may remove the table of an entry
that the range reaches into if nothing is mapped behind it. -/
class KeepsEntries [Mapper] : Prop where
  mapTo_other {k addr : ℕ} {page : MappedPage} {t : PageTable} {fs : Frames} {i : Fin 512} : k ≤ 2 →
    i ≠ pageIndex addr 3 → (mapTo k addr page t fs).2.1 i = t i
  mapTo_table {k addr frame : ℕ} {page : MappedPage} {t : PageTable} {fs : Frames} {es : Fin 512 → PageTableEntry 2} :
    k ≤ 2 → t (pageIndex addr 3) = .table frame es →
    ∃ es', (mapTo k addr page t fs).2.1 (pageIndex addr 3) = .table frame es'
  unmap_other {k addr : ℕ} {t t' : PageTable} {i : Fin 512} : k ≤ 2 → unmap k addr t = .ok t' →
    i ≠ pageIndex addr 3 → t' i = t i
  unmap_table {k addr : ℕ} {t t' : PageTable} : k ≤ 2 → unmap k addr t = .ok t' →
    ∃ frame es es', t (pageIndex addr 3) = .table frame es ∧ t' (pageIndex addr 3) = .table frame es'
  cleanUp_entry (first last : ℕ) (t : PageTable) (i : Fin 512) : (cleanUpAddrRange first last t).1 i = t i ∨
    ∃ frame es, t i = .table frame es ∧
      (∃ addr, pageIndex addr 3 = i ∧ first / pageSize 0 ≤ addr / pageSize 0 ∧ addr / pageSize 0 ≤ last / pageSize 0) ∧
      ((∃ es', (cleanUpAddrRange first last t).1 i = .table frame es') ∨ ∀ w, pageIndex w 3 = i → t.lookup w = none)

/-- The frames of new tables come from the frame allocator, and the clean-up gives back those of the tables that it
removes. -/
class KeepsFrames [Mapper] : Prop where
  mapTo_frames {k : ℕ} (addr : ℕ) (page : MappedPage) (t : PageTable) (fs : Frames) : k ≤ 2 →
    ∑ i, labels ((mapTo k addr page t fs).2.1 i) + (fs.allocated : Multiset ℕ) =
      ∑ i, labels (t i) + ((mapTo k addr page t fs).2.2.allocated : Multiset ℕ) ∧
    (mapTo k addr page t fs).2.2.freed = fs.freed
  unmap_frames {k addr : ℕ} {t t' : PageTable} : k ≤ 2 → unmap k addr t = .ok t' →
    ∑ i, labels (t' i) = ∑ i, labels (t i)
  cleanUp_frames (first last : ℕ) (t : PageTable) :
    ∑ i, labels ((cleanUpAddrRange first last t).1 i) + ((cleanUpAddrRange first last t).2 : Multiset ℕ) =
      ∑ i, labels (t i)

/-- Where nothing stands in the way, `map_to` fails only for want of a table frame. -/
class MapsVacant [Mapper] : Prop where
  mapTo_vacant {k addr : ℕ} {page : MappedPage} {t : PageTable} {fs : Frames} : k ≤ 2 →
    Vacant k (pageIndex addr) (t (pageIndex addr 3)) →
    (∃ err, (mapTo k addr page t fs).1 = .error err ∧ ∃ i < 3 - k, Refused fs.grants i) ∨
    (mapTo k addr page t fs).1 = .ok () ∧ ∃ c ≤ 3 - k, (mapTo k addr page t fs).2.2.grants = fs.grants.drop c
  mapTo_apart {j k v addr : ℕ} {page : MappedPage} {t : PageTable} {fs : Frames} : j ≤ 2 → k ≤ 2 →
    Vacant j (pageIndex v) (t (pageIndex v 3)) → ¬SamePage (max j k) v addr →
    Vacant j (pageIndex v) ((mapTo k addr page t fs).2.1 (pageIndex v 3))

end Mapper

end MaramOS
