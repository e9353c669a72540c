import CamkesVm.Can.Filter
import CamkesVm.Machine.Run

/-!
# The table of installed filters

What a user of the device may rely on is a table: a filter that was set stays installed, with
its identifier and its mask, until it is cleared or filtering is disabled. The driver recovers
the table from the registers, and the recovery is right only as long as every installed filter
can be seen there and a mask that reads back as the requested one is the requested one. Eight
bits of a mask are not enough for that.
-/

namespace CamkesVm.Can

open CamkesVm.Machine

/-- The registers and the table of installed identifiers with their masks. -/
structure FilterState where
  regs : Regs
  installed : ℕ → Option (CanId × BitVec 32)

/-- The filter operations of the device. -/
inductive FilterOp
  | canSetFilter (id : CanId) (mask : BitVec 32)
  | canClearFilter (filterId : Fin 6)
  | canDisableFiltering

/-- One filter operation, answering with the return value of a set. -/
def filterStep (s : FilterState) : FilterOp → Option (Option ℤ × FilterState)
  | .canSetFilter id mask =>
    let r := canSetFilter s.regs id mask
    some (some r.1, ⟨r.2, if 0 ≤ r.1 then Function.update s.installed r.1.toNat (some (id, mask))
      else s.installed⟩)
  | .canClearFilter filterId =>
    some (none, ⟨canClearFilter s.regs filterId, Function.update s.installed filterId none⟩)
  | .canDisableFiltering => some (none, ⟨canDisableFiltering s.regs, fun _ => none⟩)

/-- The registers of filter `j` and of its mask encode the entry. -/
def Encodes (regs : Regs) (j : ℕ) (entry : CanId × BitVec 32) : Prop :=
  filterRegs regs j = entry.1.regs ∧ maskRegs regs (maskOf j) = maskImage entry.1.exide entry.2

/-- Every installed filter is in the registers. -/
def Intact (s : FilterState) : Prop := ∀ j entry, s.installed j = some entry → Encodes s.regs j entry

/-- The operation does not return an index that is installed. -/
def ReturnsFree (s : FilterState) (op : FilterOp) : Prop :=
  ∀ (j : ℕ) t, filterStep s op = some (some (j : ℤ), t) → s.installed j = none

/-- The requested mask is not zero and fits the kind of the identifier. -/
def FilterOp.Valid : FilterOp → Prop
  | .canSetFilter id mask => mask ≠ 0 ∧ mask.toNat < if id.exide = 0 then 2 ^ 11 else 2 ^ 29
  | _ => True

/-- An installed filter can be seen in the registers: its own are not all zero. -/
def FilterSeen (entry : CanId × BitVec 32) : Prop := entry.1.regs ≠ fun _ => 0

/-- An installed mask can be seen in the registers: the eight bits that are read back of its two
parts are not all zero. -/
def MaskSeen (entry : CanId × BitVec 32) : Prop :=
  ¬ (curSid (maskImage entry.1.exide entry.2) = 0 ∧ curEid (maskImage entry.1.exide entry.2) = 0)

/-- When the registers tell the driver what it needs to know. A set needs to see every installed
filter and mask, and a mask that reads back as the requested one must be the requested one. A
clear needs to see the other installed filters. -/
def RegistersTell (s : FilterState) : FilterOp → Prop
  | .canSetFilter id mask =>
    (∀ j entry, s.installed j = some entry → FilterSeen entry ∧ MaskSeen entry) ∧
      ∀ i < numOfMasks, curMask id.exide (maskRegs s.regs i) = mask →
        maskRegs s.regs i = maskImage id.exide mask
  | .canClearFilter filterId =>
    ∀ (j : ℕ) entry, j ≠ filterId → s.installed j = some entry → FilterSeen entry
  | .canDisableFiltering => True

/-- The invariant of the table: it is in the registers, and the filter that overlaps CANCTRL is
never installed. -/
def TableInv (s : FilterState) : Prop :=
  Intact s ∧ ∀ j entry, s.installed j = some entry → j < 6 ∧ j ≠ 3

/-- A mask that reads back as zero has no bit among the eight of its standard part. -/
theorem curSid_eq_zero {exide : BitVec 1} {buf : Bytes filterBytes} (hmask : curMask exide buf = 0)
    (heid : curEid buf = 0) : curSid buf = 0 := by
  have hlt := (curSid buf).isLt
  have hnat := congrArg BitVec.toNat hmask
  simp only [curMask, heid, canEidBits] at hnat
  apply BitVec.eq_of_toNat_eq
  split at hnat <;> simp [Nat.shiftLeft_eq, Nat.shiftRight_eq_div_pow] at hnat ⊢ <;> omega

variable {regs regs' : Regs} {j : ℕ} {entry : CanId × BitVec 32}

/-- An entry stays encoded when its registers stay as they were. -/
theorem Encodes.of_eq (h : Encodes regs j entry) (hfilter : filterRegs regs' j = filterRegs regs j)
    (hmask : maskRegs regs' (maskOf j) = maskRegs regs (maskOf j)) : Encodes regs' j entry :=
  ⟨hfilter.trans h.1, hmask.trans h.2⟩

/-- A mode change keeps the entries encoded. -/
theorem Encodes.setMode (h : Encodes regs j entry) (hj : j < 6) (hne : j ≠ 3) (mode : OpMode) :
    Encodes (setMode regs mode) j entry :=
  h.of_eq (filterRegs_setMode regs hj hne mode) (maskRegs_setMode regs (maskOf_lt j) mode)

/-- An installed filter that can be seen does not look empty. -/
theorem Encodes.isFilterEmpty_eq_false (h : Encodes regs j entry) (hseen : FilterSeen entry) :
    isFilterEmpty regs j = false := by
  rw [Bool.eq_false_iff, ne_eq, isFilterEmpty_iff, h.1]
  exact hseen

/-- Writing another filter keeps an entry encoded, if it leaves its mask. -/
theorem Encodes.writeToFilter {other : ℕ} {id : CanId} {mask : BitVec 32} (h : Encodes regs j entry)
    (hj : j < 6) (hother : other < 6) (hne : j ≠ other) (hmask : mask = 0 ∨ maskOf j ≠ maskOf other) :
    Encodes (writeToFilter regs other id mask) j entry :=
  h.of_eq (filterRegs_writeToFilter_of_ne regs hother hj hne id mask)
    (maskRegs_writeToFilter_of_ne regs hother (maskOf_lt j) id hmask)

/-- No filter of a mask that reads back as zero is installed. -/
theorem Encodes.maskOf_ne {exide : BitVec 1} {i : ℕ} (h : Encodes regs j entry)
    (hseen : MaskSeen entry) (hmask : curMask exide (maskRegs regs i) = 0)
    (heid : curEid (maskRegs regs i) = 0) : maskOf j ≠ i := by
  rintro rfl
  rw [h.2] at hmask heid
  exact hseen ⟨curSid_eq_zero hmask heid, heid⟩

/-- Writing a filter at an index that is not installed, without touching the mask of an installed
one, keeps the table encoded and adds the new entry to it. -/
theorem encodes_of_written {s : FilterState} {id : CanId} {mask written : BitVec 32} {j : ℕ}
    (hrange : ∀ j entry, s.installed j = some entry → j < 6 ∧ j ≠ 3)
    (hencoded : ∀ j entry, s.installed j = some entry → Encodes regs j entry)
    (hj : j < 6 ∧ j ≠ 3) (hfree : ∀ j' entry, s.installed j' = some entry → j' ≠ j)
    (hmasks : ∀ j' entry, s.installed j' = some entry → written = 0 ∨ maskOf j' ≠ maskOf j)
    (himage : maskRegs (writeToFilter regs j id written) (maskOf j) = maskImage id.exide mask) :
    let regs' := setMode (writeToFilter regs j id written) .normal
    (∀ j' entry, s.installed j' = some entry → Encodes regs' j' entry) ∧
      s.installed j = none ∧ Encodes regs' j (id, mask) := by
  have hwritten : Encodes (writeToFilter regs j id written) j (id, mask) :=
    ⟨filterRegs_writeToFilter_self _ j id written, himage⟩
  refine ⟨fun j' entry hj' => ?_, ?_, hwritten.setMode hj.1 hj.2 _⟩
  · obtain ⟨hj'6, hj'3⟩ := hrange j' entry hj'
    exact ((hencoded j' entry hj').writeToFilter hj'6 hj.1 (hfree j' entry hj')
      (hmasks j' entry hj')).setMode hj'6 hj'3 _
  · by_contra hsome
    obtain ⟨entry, hentry⟩ := Option.ne_none_iff_exists'.mp hsome
    exact hfree j entry hentry rfl

/-- What setting a filter does when the registers tell the table: it keeps every installed entry
encoded, and it fails or adds the entry at an index that was not installed. -/
theorem canSetFilter_spec {s : FilterState} {id : CanId} {mask : BitVec 32} (hs : TableInv s)
    (hvalid : mask ≠ 0) (htell : RegistersTell s (.canSetFilter id mask)) :
    let r := canSetFilter s.regs id mask
    (∀ j entry, s.installed j = some entry → Encodes r.2 j entry) ∧
      (r.1 = -1 ∨ ∃ j : ℕ, r.1 = j ∧ (j < 6 ∧ j ≠ 3) ∧ s.installed j = none ∧
        Encodes r.2 j (id, mask)) := by
  obtain ⟨hintact, hrange⟩ := hs
  obtain ⟨hseen, hread⟩ := htell
  have hconfig : ∀ j entry, s.installed j = some entry →
      Encodes (setMode s.regs .config) j entry := fun j entry hj =>
    (hintact j entry hj).setMode (hrange j entry hj).1 (hrange j entry hj).2 _
  dsimp only [canSetFilter]
  obtain hfail | ⟨i, hi, j, hj, hplace⟩ := setRxFilter_cases (setMode s.regs .config) id mask
  · rw [hfail]
    refine ⟨fun j entry hj => ?_, Or.inl rfl⟩
    exact (hconfig j entry hj).setMode (hrange j entry hj).1 (hrange j entry hj).2 _
  · obtain ⟨rfl, hj6⟩ := mem_filtersOf hi hj
    obtain ⟨hset, hfirst, hzero, heid⟩ | ⟨hset, hsame, hempty⟩ := hplace
    · -- The mask reads back as zero, so none of its filters is installed.
      have hother : ∀ j' entry, s.installed j' = some entry → maskOf j' ≠ maskOf j :=
        fun j' entry hj' => (hconfig j' entry hj').maskOf_ne (hseen j' entry hj').2 hzero heid
      have hj3 : j ≠ 3 := by
        rintro rfl
        exact absurd hfirst (by decide)
      obtain ⟨hkept, hfree, hnew⟩ := encodes_of_written hrange hconfig ⟨hj6, hj3⟩
        (fun j' entry hj' h => hother j' entry hj' (h ▸ rfl))
        (fun j' entry hj' => Or.inr (hother j' entry hj'))
        (maskRegs_writeToFilter_self _ hj6 id hvalid)
      rw [hset]
      exact ⟨hkept, Or.inr ⟨j, rfl, ⟨hj6, hj3⟩, hfree, hnew⟩⟩
    · -- The filter looks empty, so it is not installed, and its mask is the requested one.
      have hfree : ∀ j' entry, s.installed j' = some entry → j' ≠ j := by
        rintro j' entry hj' rfl
        rw [(hconfig j' entry hj').isFilterEmpty_eq_false (hseen j' entry hj').1] at hempty
        exact Bool.false_ne_true hempty
      have hj3 : j ≠ 3 := by
        rintro rfl
        rw [isFilterEmpty_config_three] at hempty
        exact Bool.false_ne_true hempty
      have himage : maskRegs (setMode s.regs .config) (maskOf j) = maskImage id.exide mask := by
        rw [maskRegs_setMode _ hi] at hsame ⊢
        exact hread _ hi hsame
      obtain ⟨hkept, hnone, hnew⟩ := encodes_of_written hrange hconfig ⟨hj6, hj3⟩ hfree
        (fun _ _ _ => Or.inl rfl)
        ((maskRegs_writeToFilter_of_ne _ hj6 hi id (Or.inl rfl)).trans himage)
      rw [hset]
      exact ⟨hkept, Or.inr ⟨j, rfl, ⟨hj6, hj3⟩, hnone, hnew⟩⟩

/-- Clearing a filter keeps every other installed entry that can be seen encoded. -/
theorem Encodes.canClearFilter {cleared : Fin 6} (h : Encodes regs j entry) (hj : j < 6)
    (hj3 : j ≠ 3) (hne : j ≠ cleared) (hseen : FilterSeen entry) :
    Encodes (canClearFilter regs cleared) j entry := by
  refine Encodes.setMode ?_ hj hj3 _
  have hcleared : Encodes (mcp2515WriteNregs (Can.setMode regs .config) (rxfsidh cleared)
      (fun _ : Fin filterBytes => 0)) j entry :=
    (h.setMode hj hj3 .config).of_eq (filterRegs_writeFilter_of_ne _ cleared.isLt hj hne _)
      (maskRegs_writeFilter _ cleared.isLt (maskOf_lt j) _)
  rw [clearRxFilter]
  split
  next hall =>
    have hmask : maskOf j ≠ maskOf cleared := by
      intro hsame
      have hmem : j ∈ filtersOf (maskOf cleared) := hsame ▸ mem_filtersOf_maskOf hj
      have hempty := List.all_eq_true.mp hall j hmem
      rw [hcleared.isFilterEmpty_eq_false hseen] at hempty
      exact Bool.false_ne_true hempty
    exact hcleared.of_eq (filterRegs_writeMask _ hj (maskOf_lt _) _)
      (maskRegs_writeMask_of_ne _ (maskOf_lt _) (maskOf_lt j) hmask _)
  · exact hcleared

/-- A table in the registers stays there when an encoded entry is added. -/
theorem tableInv_install {installed : ℕ → Option (CanId × BitVec 32)}
    (hrange : ∀ j entry, installed j = some entry → j < 6 ∧ j ≠ 3)
    (hkept : ∀ j entry, installed j = some entry → Encodes regs j entry) (hj : j < 6 ∧ j ≠ 3)
    (hnew : Encodes regs j entry) : TableInv ⟨regs, Function.update installed j (some entry)⟩ := by
  have hcases : ∀ j' entry', Function.update installed j (some entry) j' = some entry' →
      (j' = j ∧ entry' = entry) ∨ installed j' = some entry' := by
    intro j' entry' h
    by_cases hsame : j' = j
    · rw [hsame, Function.update_self] at h
      exact Or.inl ⟨hsame, (Option.some.inj h).symm⟩
    · rw [Function.update_of_ne hsame] at h
      exact Or.inr h
  refine ⟨fun j' entry' h => ?_, fun j' entry' h => ?_⟩
  · obtain ⟨rfl, rfl⟩ | hold := hcases j' entry' h
    · exact hnew
    · exact hkept j' entry' hold
  · obtain ⟨rfl, _⟩ | hold := hcases j' entry' h
    · exact hj
    · exact hrange j' entry' hold

/-- One valid operation on registers that tell the table keeps it, and returns no installed
index. -/
theorem filterStep_tableInv {s t : FilterState} {op : FilterOp} {ret : Option ℤ} (hs : TableInv s)
    (hvalid : op.Valid) (htell : RegistersTell s op) (hstep : filterStep s op = some (ret, t)) :
    TableInv t ∧ ∀ j : ℕ, ret = some (j : ℤ) → s.installed j = none := by
  cases op with
  | canSetFilter id mask =>
    obtain ⟨hkept, hplaced⟩ := canSetFilter_spec hs hvalid.1 htell
    obtain ⟨rfl, rfl⟩ := Prod.mk.inj (Option.some.inj hstep)
    obtain hfail | ⟨j, hj, hrange, hnone, hnew⟩ := hplaced
    · rw [hfail]
      refine ⟨⟨hkept, hs.2⟩, fun j h => ?_⟩
      exact absurd (Option.some.inj h) (by omega)
    · rw [hj, if_pos (Int.natCast_nonneg j), Int.toNat_natCast]
      refine ⟨tableInv_install hs.2 hkept hrange hnew, fun j' h => ?_⟩
      obtain rfl : j = j' := Int.ofNat_inj.mp (Option.some.inj h)
      exact hnone
  | canClearFilter filterId =>
    obtain ⟨rfl, rfl⟩ := Prod.mk.inj (Option.some.inj hstep)
    have hother : ∀ j entry, Function.update s.installed filterId none j = some entry →
        j ≠ filterId ∧ s.installed j = some entry := by
      intro j entry hj
      by_cases hsame : j = filterId
      · rw [hsame, Function.update_self] at hj
        exact absurd hj (by simp)
      · rw [Function.update_of_ne hsame] at hj
        exact ⟨hsame, hj⟩
    refine ⟨⟨fun j entry hj => ?_, fun j entry hj => hs.2 j entry (hother j entry hj).2⟩, by simp⟩
    obtain ⟨hne, hold⟩ := hother j entry hj
    obtain ⟨hj6, hj3⟩ := hs.2 j entry hold
    exact (hs.1 j entry hold).canClearFilter hj6 hj3 hne (htell j entry hne hold)
  | canDisableFiltering =>
    obtain ⟨rfl, rfl⟩ := Prod.mk.inj (Option.some.inj hstep)
    exact ⟨⟨fun _ _ h => absurd h (by simp), fun _ _ h => absurd h (by simp)⟩, by simp⟩

/-- In every sequence of valid operations in which the registers always tell the driver the table,
every installed filter stays in the registers and no operation returns an installed index. -/
theorem filters_intact_of_registersTell {regs : Regs} {ops : List FilterOp}
    {rets : List (Option ℤ)} {reached : FilterState}
    (hops : StepsMeet filterStep (fun s op => op.Valid ∧ RegistersTell s op) ⟨regs, fun _ => none⟩ ops)
    (hrun : run filterStep ⟨regs, fun _ => none⟩ ops = some (rets, reached)) :
    Intact reached ∧ ∀ op : FilterOp, op.Valid → RegistersTell reached op → ReturnsFree reached op := by
  have hstart : TableInv ⟨regs, fun _ => none⟩ :=
    ⟨fun _ _ h => absurd h (by simp), fun _ _ h => absurd h (by simp)⟩
  have hreached : TableInv reached := run_state_invariant TableInv
    (fun s op ret t hs hop hstep => (filterStep_tableInv hs hop.1 hop.2 hstep).1) hstart hops hrun
  refine ⟨hreached.1, fun op hvalid htell j t hstep => ?_⟩
  exact (filterStep_tableInv hreached hvalid htell hstep).2 j rfl

/-- A standard identifier. -/
def stdId (id : BitVec 29) : CanId := ⟨id, 0, 0, 0⟩

/-- A second identifier under a mask of eight bits is set beside the first one. -/
theorem lowMask_returns_free :
    ∃ rets reached,
      run filterStep ⟨fun _ => 0, fun _ => none⟩ [.canSetFilter (stdId 1) 0x0FF] =
        some (rets, reached) ∧
      Intact reached ∧ ReturnsFree reached (.canSetFilter (stdId 2) 0x0FF) := by
  refine ⟨[some 0], _, rfl, ?_⟩
  have hops : StepsMeet filterStep (fun s op => op.Valid ∧ RegistersTell s op)
      ⟨fun _ => 0, fun _ => none⟩ [.canSetFilter (stdId 1) 0x0FF] :=
    ⟨⟨⟨by decide, by decide⟩, fun _ _ h => absurd h (by simp), by decide⟩, fun _ _ _ => trivial⟩
  obtain ⟨hintact, hfree⟩ := filters_intact_of_registersTell hops rfl
  refine ⟨hintact, hfree _ ⟨by decide, by decide⟩ ⟨?_, by decide⟩⟩
  intro j entry hj
  have hret : (canSetFilter (fun _ => 0) (stdId 1) 0x0FF).1 = 0 := by decide
  have hentry : entry = (stdId 1, 0x0FF) := by
    rw [hret, if_pos (le_refl 0)] at hj
    change Function.update (fun _ : ℕ => none) 0 (some (stdId 1, 0x0FF)) j = some entry at hj
    by_cases hzero : j = 0
    · subst hzero
      exact (Option.some.inj hj).symm
    · rw [Function.update_of_ne hzero] at hj
      exact absurd hj (by simp)
  subst hentry
  exact ⟨by unfold FilterSeen; decide, by unfold MaskSeen; decide⟩

/-- A second identifier under a mask without low bits takes the place of the first one. -/
theorem highMask_returns_installed :
    ∃ rets reached,
      run filterStep ⟨fun _ => 0, fun _ => none⟩ [.canSetFilter (stdId 1) 0x700] =
        some (rets, reached) ∧
      (FilterOp.canSetFilter (stdId 1) 0x700).Valid ∧
      (FilterOp.canSetFilter (stdId 2) 0x700).Valid ∧
      reached.installed 0 = some (stdId 1, 0x700) ∧
      ¬ ReturnsFree reached (.canSetFilter (stdId 2) 0x700) := by
  refine ⟨[some 0], _, rfl, ⟨by decide, by decide⟩, ⟨by decide, by decide⟩, by decide, fun hfree => ?_⟩
  have htaken := hfree 0 _ (by rfl)
  exact absurd htaken (by decide)

end CamkesVm.Can
