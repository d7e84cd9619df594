import MaramOS.Spec.Virt

/-! `try_upgrade_hhdm` of `memory/physical.rs`, which turns the part of the direct map that
holds a fresh allocation into one huge page. -/

namespace MaramOS

def PageTableFlags.HUGE_PAGE : PageTableFlags := 0x80

def PageTableFlags.GLOBAL : PageTableFlags := 0x100

def PAGES_2MIB : ℕ := 512

def PAGES_1GIB : ℕ := 512 * 512

def hhdmFlags : PageTableFlags :=
  PageTableFlags.PRESENT ||| PageTableFlags.WRITABLE ||| PageTableFlags.GLOBAL ||| PageTableFlags.HUGE_PAGE

/-- The frames that the loop over a displaced L2 table frees. -/
def l1Frames (l2 : Fin 512 → PageTableEntry 1) : List ℕ :=
  (List.finRange 512).flatMap fun i =>
    match l2 i with
    | .empty => []
    | .leaf _ => []
    | .table frame _ => [frame]

/-- `try_upgrade_hhdm` below the L3 table of the address. -/
def upgradeL3 (virt phys count : ℕ) (l3 : Fin 512 → PageTableEntry 2) : (Fin 512 → PageTableEntry 2) × List ℕ :=
  if count = PAGES_1GIB ∧ pageSize 2 ∣ phys then
    match l3 (pageIndex virt 2) with
    | .empty => (l3, [])
    | .leaf _ => (l3, [])
    | .table l2Frame l2 =>
      (Function.update l3 (pageIndex virt 2) (.leaf ⟨phys, hhdmFlags⟩), l1Frames l2 ++ [l2Frame])
  else if count = PAGES_2MIB ∧ pageSize 1 ∣ phys then
    match l3 (pageIndex virt 2) with
    | .empty => (l3, [])
    | .leaf _ => (l3, [])
    | .table l2Frame l2 =>
      match l2 (pageIndex virt 1) with
      | .empty => (l3, [])
      | .leaf _ => (l3, [])
      | .table l1Frame _ =>
        (Function.update l3 (pageIndex virt 2)
          (.table l2Frame (Function.update l2 (pageIndex virt 1) (.leaf ⟨phys, hhdmFlags⟩))), [l1Frame])
  else (l3, [])

/-- `try_upgrade_hhdm`: the page table afterwards and the frames that were freed, or `none` when the virtual
address is not canonical and `phys_to_virt` panics. -/
def tryUpgradeHhdm (hhdmOffset phys count : ℕ) (t : PageTable) : Option (PageTable × List ℕ) :=
  let virt := wadd phys hhdmOffset
  if canonicalAddr virt then
    match t (pageIndex virt 3) with
    | .empty => some (t, [])
    | .leaf _ => some (t, [])
    | .table l3Frame l3 =>
      let r := upgradeL3 virt phys count l3
      some (Function.update t (pageIndex virt 3) (.table l3Frame r.1), r.2)
  else none

end MaramOS
