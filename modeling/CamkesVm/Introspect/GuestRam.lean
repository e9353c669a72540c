import Mathlib.Algebra.Group.Nat.Defs

/-!
# Guest RAM from a dataport

The introspection example backs the RAM of its guest with the frames of a dataport. `init_ram_module`
registers the region of the configuration with an iterator that gives the frame for an address. The
iterator rounds the address down to a page and compares the page with both ends of the region, but it
lets the page at the end pass, and it keeps the index of the page in an `int`.

Addresses are words of a machine of at least 32 bits. The capabilities of the dataport are a parameter:
what `dataport_get_nth_frame_cap` returns for an index, zero for the null capability.
-/

namespace CamkesVm.Introspect

variable {w : ℕ}

/-- The rights of a frame. -/
inductive CapRights
  | noRights
  | allRights
  deriving DecidableEq

/-- The structure `vm_frame_t`. -/
structure VmFrame (w : ℕ) where
  cptr : BitVec w
  rights : CapRights
  vaddr : BitVec w
  sizeBits : ℕ
  deriving DecidableEq

/-- The RAM region of the structure `vm_config_t`. -/
structure RamConfig (w : ℕ) where
  base : BitVec w
  size : BitVec w

/-- A region of whole pages that ends inside the address space. -/
structure GuestRam (w : ℕ) extends RamConfig w where
  base_aligned : base.toNat % 4096 = 0
  size_aligned : size.toNat % 4096 = 0
  size_pos : 0 < size.toNat
  fits : base.toNat + size.toNat < 2 ^ w

/-- The constant `seL4_PageBits`. -/
def seL4PageBits : ℕ := 12

/-- The expression `BIT(seL4_PageBits)`: the size of a page. -/
def pageSize (w : ℕ) : BitVec w := BitVec.twoPow w seL4PageBits

/-- The variable `frame_start`: the address rounded down to a page. -/
def frameStart (addr : BitVec w) : BitVec w := addr - addr % pageSize w

/-- The variable `page_idx`, an `int`. -/
def pageIdx (ram : RamConfig w) (addr : BitVec w) : BitVec 32 :=
  ((frameStart addr - ram.base) / pageSize w).setWidth 32

/-- The function `dataport_memory_iterator`. -/
def dataportMemoryIterator (nthFrameCap : BitVec 32 → BitVec w) (ram : RamConfig w) (addr : BitVec w) :
    VmFrame w :=
  if frameStart addr < ram.base ∨ frameStart addr > ram.base + ram.size then
    { cptr := 0, rights := .noRights, vaddr := 0, sizeBits := 0 }
  else
    { cptr := nthFrameCap (pageIdx ram addr)
      rights := .allRights
      vaddr := frameStart addr
      sizeBits := seL4PageBits }

/-- What `vm_ram_register_at_custom_iterator` is given. -/
structure RamRegistration (w : ℕ) where
  start : BitVec w
  size : BitVec w
  iterator : BitVec w → VmFrame w

/-- The function `init_ram_module`. -/
def initRamModule (nthFrameCap : BitVec 32 → BitVec w) (ram : RamConfig w) : RamRegistration w where
  start := ram.base
  size := ram.size
  iterator := dataportMemoryIterator nthFrameCap ram

section Pages

variable {nthFrameCap : BitVec 32 → BitVec w} {ram : GuestRam w} {addr : BitVec w}

/-- A page has 4096 bytes on a machine with words of 32 bits or more. -/
theorem toNat_pageSize (hw : 32 ≤ w) : (pageSize w).toNat = 4096 :=
  BitVec.toNat_twoPow_of_lt (Nat.lt_of_lt_of_le (by decide) hw)

/-- The start of the page of an address. -/
theorem toNat_frameStart (hw : 32 ≤ w) (addr : BitVec w) :
    (frameStart addr).toNat = addr.toNat / 4096 * 4096 := by
  have hle : addr % pageSize w ≤ addr := by
    rw [BitVec.le_def, BitVec.toNat_umod]
    exact Nat.mod_le _ _
  rw [frameStart, BitVec.toNat_sub_of_le hle, BitVec.toNat_umod, toNat_pageSize hw]
  omega

/-- The page of an address passes the test from the start of the region to the page at its end. -/
theorem passes_iff (hw : 32 ≤ w) :
    ¬ (frameStart addr < ram.base ∨ frameStart addr > ram.base + ram.size) ↔
      ram.base.toNat ≤ addr.toNat ∧ addr.toNat < ram.base.toNat + ram.size.toNat + 4096 := by
  have hbase := ram.base_aligned
  have hsize := ram.size_aligned
  rw [BitVec.lt_def, gt_iff_lt, BitVec.lt_def, BitVec.toNat_add_of_lt ram.fits, toNat_frameStart hw]
  omega

/-- An address of the region. -/
def GuestRam.Contains (ram : GuestRam w) (addr : BitVec w) : Prop :=
  ram.base.toNat ≤ addr.toNat ∧ addr.toNat < ram.base.toNat + ram.size.toNat

/-- The index of the page in the region, cut off to an `int`. -/
theorem pageIdx_eq (hw : 32 ≤ w) (haddr : ram.base.toNat ≤ addr.toNat) :
    pageIdx ram.toRamConfig addr = BitVec.ofNat 32 ((addr.toNat - ram.base.toNat) / 4096) := by
  have hbase := ram.base_aligned
  have hle : ram.base ≤ frameStart addr := by
    rw [BitVec.le_def, toNat_frameStart hw]
    omega
  apply BitVec.eq_of_toNat_eq
  rw [pageIdx, BitVec.toNat_setWidth, BitVec.toNat_udiv, BitVec.toNat_sub_of_le hle, toNat_pageSize hw,
    toNat_frameStart hw, BitVec.toNat_ofNat]
  congr 1
  omega

end Pages

/-- The iterator serves an address as the region asks for: it returns a frame exactly for the addresses
of the region, and it selects the frame whose index is that of the page of the address. -/
structure Serves (nthFrameCap : BitVec 32 → BitVec w) (ram : GuestRam w) (addr : BitVec w) : Prop where
  frame_iff : ((initRamModule nthFrameCap ram.toRamConfig).iterator addr).cptr ≠ 0 ↔ ram.Contains addr
  index : ((initRamModule nthFrameCap ram.toRamConfig).iterator addr).cptr ≠ 0 →
    ((initRamModule nthFrameCap ram.toRamConfig).iterator addr).cptr =
        nthFrameCap (pageIdx ram.toRamConfig addr) ∧
      ∃ idx : ℕ, (pageIdx ram.toRamConfig addr).toInt = idx ∧ idx < ram.size.toNat / 4096 ∧
        ram.base.toNat + idx * 4096 ≤ addr.toNat ∧ addr.toNat < ram.base.toNat + (idx + 1) * 4096

/-- The index of a page of the region fits in an `int`, and for the page at the end of the region the
dataport returns the null capability. -/
structure ServesWhen (nthFrameCap : BitVec 32 → BitVec w) (ram : GuestRam w) (addr : BitVec w) :
    Prop where
  index_lt : ram.Contains addr → (addr.toNat - ram.base.toNat) / 4096 < 2 ^ 31
  end_null : ram.base.toNat + ram.size.toNat ≤ addr.toNat →
    addr.toNat < ram.base.toNat + ram.size.toNat + 4096 →
    nthFrameCap (BitVec.ofNat 32 (ram.size.toNat / 4096)) = 0

section Service

variable {nthFrameCap : BitVec 32 → BitVec w} {ram : GuestRam w} {addr : BitVec w}

/-- The capability that the iterator returns. -/
theorem iterator_cptr (hw : 32 ≤ w) (nthFrameCap : BitVec 32 → BitVec w) (ram : GuestRam w)
    (addr : BitVec w) :
    ((initRamModule nthFrameCap ram.toRamConfig).iterator addr).cptr =
      if ram.base.toNat ≤ addr.toNat ∧ addr.toNat < ram.base.toNat + ram.size.toNat + 4096 then
        nthFrameCap (pageIdx ram.toRamConfig addr)
      else 0 := by
  change (dataportMemoryIterator nthFrameCap ram.toRamConfig addr).cptr = _
  unfold dataportMemoryIterator
  by_cases hpasses : ram.base.toNat ≤ addr.toNat ∧
      addr.toNat < ram.base.toNat + ram.size.toNat + 4096
  · rw [if_neg ((passes_iff hw).mpr hpasses), if_pos hpasses]
  · rw [if_pos (Classical.not_not.mp (mt (passes_iff hw).mp hpasses)), if_neg hpasses]

/-- Outside the region and the page at its end nothing goes wrong. -/
theorem serves_outside (hw : 32 ≤ w)
    (hout : ¬ (ram.base.toNat ≤ addr.toNat ∧ addr.toNat < ram.base.toNat + ram.size.toNat + 4096)) :
    Serves nthFrameCap ram addr := by
  have hcptr := iterator_cptr hw nthFrameCap ram addr
  rw [if_neg hout] at hcptr
  constructor
  · rw [hcptr, ne_self_iff_false, false_iff]
    unfold GuestRam.Contains
    omega
  · intro hne
    exact absurd hcptr hne

/-- An address of the region is served exactly when the index of its page fits in an `int`. -/
theorem serves_inside_iff (hw : 32 ≤ w)
    (hcaps : ∀ n < 2 ^ 31, n < ram.size.toNat / 4096 → nthFrameCap (BitVec.ofNat 32 n) ≠ 0)
    (hin : ram.Contains addr) :
    Serves nthFrameCap ram addr ↔ (addr.toNat - ram.base.toNat) / 4096 < 2 ^ 31 := by
  obtain ⟨hle, hlt⟩ := hin
  have hbase := ram.base_aligned
  have hsize := ram.size_aligned
  have hcptr := iterator_cptr hw nthFrameCap ram addr
  rw [if_pos ⟨hle, by omega⟩] at hcptr
  have hindex : (addr.toNat - ram.base.toNat) / 4096 < ram.size.toNat / 4096 := by omega
  constructor
  · intro h
    obtain ⟨_, idx, hidx, _, hstart, hend⟩ := h.index (h.frame_iff.mpr ⟨hle, hlt⟩)
    have hbound := BitVec.two_mul_toInt_lt (x := pageIdx ram.toRamConfig addr)
    rw [hidx] at hbound
    omega
  · intro hsmall
    have hne : nthFrameCap (pageIdx ram.toRamConfig addr) ≠ 0 := by
      rw [pageIdx_eq hw hle]
      exact hcaps _ hsmall hindex
    refine ⟨?_, fun _ => ⟨hcptr, (addr.toNat - ram.base.toNat) / 4096, ?_, hindex, ?_, ?_⟩⟩
    · rw [hcptr]
      exact iff_of_true hne ⟨hle, hlt⟩
    · have hnat : (pageIdx ram.toRamConfig addr).toNat = (addr.toNat - ram.base.toNat) / 4096 := by
        rw [pageIdx_eq hw hle, BitVec.toNat_ofNat]
        exact Nat.mod_eq_of_lt (by omega)
      rw [BitVec.toInt_eq_toNat_of_lt (by omega), hnat]
    · omega
    · omega

/-- An address of the page at the end is served exactly when its frame is null. -/
theorem serves_end_iff (hw : 32 ≤ w) (hle : ram.base.toNat + ram.size.toNat ≤ addr.toNat)
    (hlt : addr.toNat < ram.base.toNat + ram.size.toNat + 4096) :
    Serves nthFrameCap ram addr ↔ nthFrameCap (BitVec.ofNat 32 (ram.size.toNat / 4096)) = 0 := by
  have hsize := ram.size_aligned
  have hout : ¬ ram.Contains addr := fun hin => absurd hin.2 (Nat.not_lt.mpr hle)
  have hindex : (addr.toNat - ram.base.toNat) / 4096 = ram.size.toNat / 4096 := by omega
  have hcptr := iterator_cptr hw nthFrameCap ram addr
  rw [if_pos ⟨by omega, hlt⟩, pageIdx_eq hw (by omega), hindex] at hcptr
  rw [← hcptr]
  constructor
  · intro h
    exact Classical.not_not.mp (mt h.frame_iff.mp hout)
  · intro hnull
    exact ⟨iff_of_false (not_not_intro hnull) hout, fun hne => absurd hnull hne⟩

/-- Two addresses of the region that are served with the same index are on the same page. -/
theorem page_eq_of_pageIdx_eq {addr' : BitVec w} (h : Serves nthFrameCap ram addr)
    (h' : Serves nthFrameCap ram addr') (hin : ram.Contains addr) (hin' : ram.Contains addr')
    (heq : pageIdx ram.toRamConfig addr = pageIdx ram.toRamConfig addr') :
    addr.toNat / 4096 = addr'.toNat / 4096 := by
  obtain ⟨_, idx, hidx, _, hstart, hend⟩ := h.index (h.frame_iff.mpr hin)
  obtain ⟨_, idx', hidx', _, hstart', hend'⟩ := h'.index (h'.frame_iff.mpr hin')
  have hbase := ram.base_aligned
  rw [heq, hidx'] at hidx
  omega

end Service

/-- An address is served as the region asks for exactly under the two conditions, and distinct pages of
the region that are served get frames of distinct indices. -/
theorem initRamModule_serves_iff (hw : 32 ≤ w) (nthFrameCap : BitVec 32 → BitVec w) (ram : GuestRam w)
    (hcaps : ∀ n < 2 ^ 31, n < ram.size.toNat / 4096 → nthFrameCap (BitVec.ofNat 32 n) ≠ 0) :
    (∀ addr, Serves nthFrameCap ram addr ↔ ServesWhen nthFrameCap ram addr) ∧
      ∀ addr addr', Serves nthFrameCap ram addr → Serves nthFrameCap ram addr' → ram.Contains addr →
        ram.Contains addr' → addr.toNat / 4096 ≠ addr'.toNat / 4096 →
        pageIdx ram.toRamConfig addr ≠ pageIdx ram.toRamConfig addr' := by
  constructor
  · intro addr
    by_cases hin : ram.Contains addr
    · rw [serves_inside_iff hw hcaps hin]
      constructor
      · intro hsmall
        exact ⟨fun _ => hsmall, fun hle => absurd hin.2 (Nat.not_lt.mpr hle)⟩
      · intro h
        exact h.index_lt hin
    · by_cases hend : ram.base.toNat + ram.size.toNat ≤ addr.toNat ∧
          addr.toNat < ram.base.toNat + ram.size.toNat + 4096
      · rw [serves_end_iff hw hend.1 hend.2]
        constructor
        · intro hnull
          exact ⟨fun hin' => absurd hin' hin, fun _ _ => hnull⟩
        · intro h
          exact h.end_null hend.1 hend.2
      · apply iff_of_true
        · apply serves_outside hw
          unfold GuestRam.Contains at hin
          omega
        · exact ⟨fun hin' => absurd hin' hin, fun hle hlt => absurd ⟨hle, hlt⟩ hend⟩
  · intro addr addr' h h' hin hin' hne heq
    exact hne (page_eq_of_pageIdx_eq h h' hin hin' heq)

/-- A region of 128 MiB on a 32-bit machine. -/
def sampleRam : GuestRam 32 where
  base := 0x40000000
  size := 0x08000000
  base_aligned := by decide
  size_aligned := by decide
  size_pos := by decide
  fits := by decide

/-- With a dataport of the size of the region, an address inside it is served. -/
theorem sampleRam_serves :
    Serves (fun n => if n.toNat < 0x8000 then 1 else 0) sampleRam 0x40001234 := by
  refine ((initRamModule_serves_iff (Nat.le_refl 32) _ sampleRam ?_).1 0x40001234).mpr ⟨?_, ?_⟩
  · intro n _ hn
    change n < 0x8000 at hn
    have hnat : (BitVec.ofNat 32 n).toNat = n := by
      rw [BitVec.toNat_ofNat]
      exact Nat.mod_eq_of_lt (by omega)
    rw [hnat, if_pos hn]
    decide
  · intro _
    decide
  · decide

/-- With a dataport that has a frame for every index, the first address behind the region gets a frame.
-/
theorem sampleRam_end_served :
    (∀ n < 2 ^ 31, n < sampleRam.size.toNat / 4096 → (1 : BitVec 32) ≠ 0) ∧
      ¬ Serves (fun _ => 1) sampleRam 0x48000000 := by
  refine ⟨fun _ _ _ => by decide, fun h => ?_⟩
  have hin : sampleRam.Contains 0x48000000 := h.frame_iff.mp (by decide)
  exact absurd hin.2 (by decide)

end CamkesVm.Introspect
