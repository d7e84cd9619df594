import MaramOS.Proofs.Tiling
import MaramOS.Proofs.VirtualAlloc
import MaramOS.Spec.Mmio

/-! What the registers of an `MMIORegion` are. `map` takes the frame that contains the physical
address it is given, so the region begins at the page boundary below this address. -/

namespace MaramOS

open Prog PageTable

theorem RangeAllocator.nextMultipleOf_dvd {n align : ℕ} (h : align ∣ 2 ^ 64) : align ∣ nextMultipleOf n align := by
  rw [nextMultipleOf]
  split_ifs with hmod
  · exact Nat.dvd_of_mod_eq_zero hmod
  · have hpos : 0 < align := Nat.pos_of_dvd_of_pos h (by norm_num)
    have hlt : n % align < align := Nat.mod_lt n hpos
    have hsum : n + (align - n % align) = align * (n / align + 1) := by
      have := Nat.div_add_mod n align
      rw [Nat.mul_add, Nat.mul_one]
      omega
    rw [wadd, Nat.dvd_mod_iff h, hsum]
    exact Dvd.intro _ rfl

theorem RangeAllocator.allocateFrom_dvd {size align start : ℕ} {done l : List Range} {a : RangeAllocator}
    (h : align ∣ 2 ^ 64) (hrun : allocateFrom size align done l = some (start, a)) : align ∣ start := by
  induction l generalizing done with
  | nil => cases hrun
  | cons r rest ih =>
    rw [allocateFrom] at hrun
    simp only at hrun
    by_cases hlt : wadd r.start r.length < wadd (nextMultipleOf r.start align) size
    · rw [if_pos hlt] at hrun
      exact ih hrun
    · rw [if_neg hlt] at hrun
      cases hrun
      exact nextMultipleOf_dvd h

namespace VMemAllocator

variable {r : VirtualRegion} {virt phys n pages : ℕ} {flags : PageTableFlags} {s s' : VMemAllocator}

theorem alloc_region (hrun : alloc pages s = (.ok (some r), s')) :
    pageSize 0 ∣ r.start ∧ canonicalAddr r.start ∧ r.size = wmul pages (pageSize 0) := by
  rcases alloc_cases pages s with hnone | ⟨align, start, a', halign, hres, hsome⟩
  · rw [hnone] at hrun
    cases hrun
  · have hpow : align ∣ 2 ^ 64 ∧ pageSize 0 ∣ align := by
      rcases halign with rfl | rfl | rfl <;> exact ⟨pow_dvd_pow 2 (by norm_num), pageSize_dvd (Nat.zero_le _)⟩
    have hdvd : align ∣ start := by
      rw [RangeAllocator.allocate] at hres
      cases hfrom : RangeAllocator.allocateFrom (wmul pages (pageSize 0)) align [] s.allocator.ranges with
      | none =>
        rw [hfrom] at hres
        cases hres
      | some out =>
        rw [hfrom] at hres
        cases hres
        exact RangeAllocator.allocateFrom_dvd hpow.1 hfrom
    rw [hsome] at hrun
    split_ifs at hrun with hcan
    · cases hrun
      exact ⟨hpow.2.trans hdvd, hcan, rfl⟩
    · cases hrun

theorem map_containing [Mapper] [Mapper.PartialMap] (hstart : pageSize 0 ∣ r.start) (hcan : canonicalAddr r.start)
    (hrun : map r phys flags s = (.ok (), s')) :
    CanonicalBetween r.start (r.start + r.size) ∧
    ∀ i < r.size, s'.pageTable.translate (r.start + i) = some (phys / pageSize 0 * pageSize 0 + i) := by
  have hle : r.size ≤ divCeil r.size (pageSize 0) * pageSize 0 := le_divCeil_mul (pageSize_pos 0)
  obtain ⟨ks, htotal, htiled⟩ := map_tiled hstart hcan hrun
  rw [← htotal] at hle
  exact ⟨fun x hx hx' => htiled.canonical x hx (by omega), fun i hi => htiled.mapped.translate (hi.trans_le hle)⟩

end VMemAllocator

namespace MMIORegion

variable {m : MMIORegion} {phys pages offset : ℕ} {s s' t : VMemAllocator} {T : RegisterType}

theorem new_cases [Mapper] (hrun : new phys pages s = (.ok (some m), s')) :
    ∃ s1, VMemAllocator.alloc pages s = (.ok (some m.region), s1) ∧
      VMemAllocator.map m.region phys mmioFlags s1 = (.ok (), s') := by
  obtain ⟨found, s1, halloc, hrun⟩ := run_bind_ok hrun
  cases found with
  | none => cases hrun
  | some region =>
    obtain ⟨res, s2, hattempt, hrun⟩ := run_bind_ok hrun
    cases res with
    | error e =>
      obtain ⟨res, s3, -, hrun⟩ := run_bind_ok hrun
      cases hrun
    | ok u =>
      cases hrun
      refine ⟨s1, halloc, ?_⟩
      rw [VMemAllocator.attempt] at hattempt
      split at hattempt
      · rename_i hmap
        cases hattempt
        exact hmap
      · cases hattempt
      · cases hattempt

def bytesAt (T : RegisterType) (addr : ℕ) : List (Option ℕ) := (List.range T.sizeOf).map fun i => some (addr + i)

/-- An access at `offset` is done, and it is one at this physical address. -/
structure Hits (m : MMIORegion) (T : RegisterType) (offset addr : ℕ) (t : VMemAllocator) : Prop where
  read : m.read T offset t = (.ok (some (bytesAt T addr)), t)
  write : m.write T offset t = (.ok (some (bytesAt T addr)), t)
  register : ∃ reg, m.register T offset t = (.ok (some reg), t) ∧ reg.read T t = (.ok (bytesAt T addr), t) ∧
    reg.write T t = (.ok (bytesAt T addr), t)

theorem Hits.of_translate {addr : ℕ} (halign : T.alignOf ∣ offset) (hfits : offset + T.sizeOf ≤ m.region.size)
    (hsize : m.region.size < 2 ^ 64) (hcan : canonicalAddr (m.region.start + offset))
    (h : ∀ i < T.sizeOf, t.pageTable.translate (m.region.start + offset + i) = some (addr + i)) :
    Hits m T offset addr t := by
  have hbound : ¬m.region.size < wadd offset T.sizeOf := by
    rw [wadd_of_lt (by omega)]
    omega
  have haccess : volatileAccess T (m.region.start + offset) t = (.ok (bytesAt T addr), t) := by
    rw [volatileAccess, bytesAt, List.map_congr_left fun i hi => h i (List.mem_range.1 hi)]
  have hptr : virtAddr (m.region.start + offset) t = (.ok (m.region.start + offset), t) := by
    rw [virtAddr, if_pos hcan]
    rfl
  have hbody : m.access T offset t = (.ok (some (bytesAt T addr)), t) := by
    rw [access, if_neg hbound, if_neg (not_not.2 halign)]
    exact (run_bind hptr).trans (run_bind haccess)
  refine ⟨hbody, hbody, ⟨m.region.start + offset⟩, ?_, haccess, haccess⟩
  rw [MMIORegion.register, if_neg (not_not.2 halign), if_neg hbound]
  exact run_bind hptr

/-- `t` translates the addresses of a region as `s` does. -/
def SameRegion (m : MMIORegion) (s t : VMemAllocator) : Prop :=
  ∀ i < m.region.size, t.pageTable.translate (m.region.start + i) = s.pageTable.translate (m.region.start + i)

theorem hits_containing [Mapper] [Mapper.PartialMap] (hrun : new phys pages s = (.ok (some m), s'))
    (ht : SameRegion m s' t)
    (halign : T.alignOf ∣ offset) (hfits : offset + T.sizeOf ≤ m.region.size) :
    Hits m T offset (phys / pageSize 0 * pageSize 0 + offset) t := by
  obtain ⟨s1, halloc, hmap⟩ := new_cases hrun
  obtain ⟨hstart, hcan, hsize⟩ := VMemAllocator.alloc_region halloc
  obtain ⟨hbetween, htranslate⟩ := VMemAllocator.map_containing hstart hcan hmap
  have hlt : m.region.size < 2 ^ 64 := by
    rw [hsize, wmul]
    exact Nat.mod_lt _ (by norm_num)
  refine .of_translate halign hfits hlt (hbetween _ (by omega) (by omega)) fun i hi => ?_
  rw [Nat.add_assoc, Nat.add_assoc, ht _ (by omega), htranslate _ (by omega)]

theorem size_eq_zero_iff [Mapper] (hrun : new phys pages s = (.ok (some m), s')) : m.region.size = 0 ↔ 2 ^ 52 ∣ pages := by
  obtain ⟨s1, halloc, -⟩ := new_cases hrun
  have hpow : (2 ^ 64 : ℕ) = 2 ^ 52 * pageSize 0 := by norm_num [pageSize]
  rw [(VMemAllocator.alloc_region halloc).2.2, wmul, hpow, ← Nat.dvd_iff_mod_eq_zero]
  exact Nat.mul_dvd_mul_iff_right (pageSize_pos 0)

def byteType : RegisterType := ⟨1, 1, one_pos, dvd_rfl⟩

theorem Hits.addr_eq {a b : ℕ} (ha : Hits m byteType offset a t) (hb : Hits m byteType offset b t) : a = b := by
  have hread := ha.read.symm.trans hb.read
  simpa [bytesAt, byteType] using hread

/-- While its pages stay mapped as `new` has mapped them, every access to a region is one at the same offset from
`phys`, if `phys` is the address of a page. It is not at any other `phys`, unless the region is empty because
its size in bytes has become zero modulo `2 ^ 64`. -/
theorem mmio_access_iff [Mapper] [Mapper.PartialMap] (hrun : new phys pages s = (.ok (some m), s')) :
    (∀ t, SameRegion m s' t → ∀ (T : RegisterType) (offset : ℕ), T.alignOf ∣ offset → offset + T.sizeOf ≤ m.region.size →
      Hits m T offset (phys + offset) t) ↔
    pageSize 0 ∣ phys ∨ 2 ^ 52 ∣ pages := by
  constructor
  · intro h
    by_cases hzero : m.region.size = 0
    · exact .inr ((size_eq_zero_iff hrun).1 hzero)
    · have hsame : SameRegion m s' s' := fun i hi => rfl
      have hfits : 0 + byteType.sizeOf ≤ m.region.size := Nat.one_le_iff_ne_zero.2 hzero
      have hfloor := (hits_containing hrun hsame (dvd_zero _) hfits).addr_eq (h s' hsame byteType 0 (dvd_zero _) hfits)
      rw [Nat.add_right_cancel_iff] at hfloor
      exact .inl ⟨phys / pageSize 0, by rw [Nat.mul_comm, hfloor]⟩
  · rintro (hphys | hpages) t ht T offset halign hfits
    · have hhits := hits_containing hrun ht halign hfits
      rwa [Nat.div_mul_cancel hphys] at hhits
    · -- only an access to no byte fits an empty region
      have hzero := (size_eq_zero_iff hrun).2 hpages
      have hnone : T.sizeOf = 0 := by omega
      have hbytes : bytesAt T (phys / pageSize 0 * pageSize 0 + offset) = bytesAt T (phys + offset) := by
        rw [bytesAt, bytesAt, hnone]
        rfl
      obtain ⟨hread, hwrite, hregister⟩ := hits_containing hrun ht halign hfits
      rw [hbytes] at hread hwrite hregister
      exact ⟨hread, hwrite, hregister⟩

open TreeMapper

/-- A kernel space with one free page and frames for its tables. -/
def deviceSpace : VMemAllocator :=
  ⟨fun _ => .empty, ⟨[⟨2 ^ 64 - 2 ^ 47, 4096⟩]⟩, ⟨[some 4096, some 8192, some 12288], [], []⟩⟩

def deviceRegion : MMIORegion := ⟨⟨2 ^ 64 - 2 ^ 47, 4096⟩⟩

theorem mmio_access_device :
    ∃ s', new 0xFEC00000 1 deviceSpace = (.ok (some deviceRegion), s') ∧
      Hits deviceRegion ⟨4, 4, by decide, dvd_rfl⟩ 0x10 0xFEC00010 s' := by
  have hrun : (new 0xFEC00000 1 deviceSpace).1 = .ok (some deviceRegion) := by decide +kernel
  have hnew := run_of_result hrun
  refine ⟨_, hnew, ?_⟩
  exact (mmio_access_iff hnew).2 (.inl (by decide)) _ (fun i hi => rfl) _ 0x10 (by decide) (by decide)

/-- The table of a device begins inside a page, and its first byte is read from the begin of the page. -/
theorem unaligned_device_missed :
    (new 0xFEC00010 1 deviceSpace).1 = .ok (some deviceRegion) ∧
    (deviceRegion.read byteType 0 (new 0xFEC00010 1 deviceSpace).2).1 = .ok (some [some 0xFEC00000]) := by
  decide +kernel

end MMIORegion

end MaramOS
