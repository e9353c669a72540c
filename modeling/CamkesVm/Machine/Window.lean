import Mathlib.Data.List.Forall2
import Mathlib.Data.List.OfFn
import CamkesVm.Machine.Buffer

/-!
# The fields of a filled buffer

A field of a buffer is a window of its entries. After a copy the assigned window holds the copied
entries. In a program that fills a buffer every step has a range outside which it changes nothing, so a
field of the result is what the last step that touches it has left.
-/

namespace CamkesVm.Machine

variable {α : Type*} {m n : ℕ}

/-- The `len` entries of a list from `off` on. -/
def window (xs : List α) (off len : ℕ) : List α := (xs.drop off).take len

/-- A window inside the list is full. -/
theorem length_window {xs : List α} {off len : ℕ} (h : off + len ≤ xs.length) :
    (window xs off len).length = len := by
  rw [window, List.length_take, List.length_drop]
  omega

/-- Two windows side by side. -/
theorem window_add (xs : List α) (off len len' : ℕ) :
    window xs off (len + len') = window xs off len ++ window xs (off + len) len' := by
  rw [window, List.take_add, List.drop_drop]
  rfl

/-- A window of a window. -/
theorem window_window (xs : List α) {off len off' len' : ℕ} (h : off' + len' ≤ len) :
    window (window xs off len) off' len' = window xs (off + off') len' := by
  rw [window, window, List.drop_take, List.drop_drop, List.take_take, Nat.min_eq_left (by omega)]
  rfl

/-- Equal windows are equal in their parts. -/
theorem window_part {xs ys : List α} {off off' len : ℕ} (h : window xs off len = window ys off' len)
    {start count : ℕ} (hpart : start + count ≤ len) :
    window xs (off + start) count = window ys (off' + start) count := by
  rw [← window_window xs hpart, h, window_window ys hpart]

/-- The entries of a window of an array. -/
theorem window_ofFn (b : Fin m → α) {off len : ℕ} (h : off + len ≤ m) :
    window (List.ofFn b) off len =
      List.ofFn fun k : Fin len => b (Fin.castLE h (Fin.natAdd off k)) := by
  apply List.ext_getElem
  · rw [length_window (by rwa [List.length_ofFn]), List.length_ofFn]
  · intro k hk hk'
    simp only [window, List.getElem_take, List.getElem_drop, List.getElem_ofFn]
    rfl

/-- Arrays with the same entries in a range have the same window there. -/
theorem window_congr {b b' : Fin m → α} {off len : ℕ}
    (h : ∀ i : Fin m, off ≤ i.val → i.val < off + len → b i = b' i) (hfit : off + len ≤ m) :
    window (List.ofFn b) off len = window (List.ofFn b') off len := by
  rw [window_ofFn b hfit, window_ofFn b' hfit]
  congr 1
  funext k
  exact h _ (Nat.le_add_right _ _) (Nat.add_lt_add_left k.isLt off)

/-- What is read from an array is a window of it. -/
theorem ofFn_of_slice {b : Fin m → α} {off len : ℕ} {vals : Fin len → α}
    (h : slice b off len = some vals) : List.ofFn vals = window (List.ofFn b) off len := by
  have hfit := slice_bounds h
  rw [slice, dif_pos hfit] at h
  rw [window_ofFn b hfit, ← Option.some.inj h]
  rfl

/-- The assigned window holds the copied entries. -/
theorem window_of_copy {dst r : Fin m → α} {src : Fin n → α} {dstOff srcOff count : ℕ}
    (h : copy dst dstOff src srcOff count = some r) :
    window (List.ofFn r) dstOff count = window (List.ofFn src) srcOff count := by
  obtain ⟨hdst, hsrc⟩ := copy_bounds h
  rw [copy_eq_some dst src hdst hsrc] at h
  rw [window_ofFn r hdst, window_ofFn src hsrc, ← Option.some.inj h]
  congr 1
  funext k
  dsimp only
  rw [dif_pos ⟨Nat.le_add_right _ _, Nat.add_lt_add_left k.isLt dstOff⟩]
  congr 2
  exact congrArg (srcOff + ·) (Nat.add_sub_cancel_left dstOff k)

/-- The step changes no entry outside the range, given as its start and its length. -/
def Writes (range : ℕ × ℕ) (step : (Fin m → α) → Option (Fin m → α)) : Prop :=
  ∀ b r, step b = some r → ∀ i : Fin m, ¬ (range.1 ≤ i.val ∧ i.val < range.1 + range.2) → r i = b i

/-- Two ranges have no index in common. -/
def Apart (range range' : ℕ × ℕ) : Prop :=
  range.1 + range.2 ≤ range'.1 ∨ range'.1 + range'.2 ≤ range.1

instance (range range' : ℕ × ℕ) : Decidable (Apart range range') :=
  inferInstanceAs (Decidable (_ ∨ _))

/-- A copy writes the range that it assigns. -/
theorem Writes.copy (src : Fin n → α) (dstOff srcOff count : ℕ) :
    Writes (dstOff, count) fun b : Fin m → α => copy b dstOff src srcOff count :=
  fun _ _ h i hi => copy_outside h i hi

variable {ranges : List (ℕ × ℕ)} {step : (Fin m → α) → Option (Fin m → α)}
variable {steps : List ((Fin m → α) → Option (Fin m → α))} {b r : Fin m → α}

/-- Two programs one after the other. -/
theorem fill_append (steps steps' : List ((Fin m → α) → Option (Fin m → α))) (b : Fin m → α) :
    fill (steps ++ steps') b = (fill steps b).bind (fill steps') := by
  induction steps generalizing b with
  | nil => rfl
  | cons step steps ih =>
    rw [List.cons_append, fill, fill, Option.bind_assoc]
    congr 1
    funext u
    exact ih u

/-- An entry outside all ranges is as before. -/
theorem fill_apart (hwrites : List.Forall₂ Writes ranges steps) (h : fill steps b = some r) (i : Fin m)
    (hi : ∀ range ∈ ranges, ¬ (range.1 ≤ i.val ∧ i.val < range.1 + range.2)) : r i = b i := by
  induction hwrites generalizing b with
  | nil => rw [Option.some.inj h]
  | cons hstep _ ih =>
    rw [List.forall_mem_cons] at hi
    obtain ⟨u, hfirst, hrest⟩ := Option.bind_eq_some_iff.mp h
    rw [ih hrest hi.2, hstep b u hfirst i hi.1]

/-- A field that no later step touches is what the `j`-th step has left. -/
theorem fill_field (hwrites : List.Forall₂ Writes ranges steps) (h : fill steps b = some r) (j : ℕ)
    (hj : steps[j]? = some step) {off len : ℕ} (hfit : off + len ≤ m)
    (hlater : ∀ range ∈ ranges.drop (j + 1), Apart range (off, len)) :
    ∃ before after, fill (steps.take j) b = some before ∧ step before = some after ∧
      window (List.ofFn r) off len = window (List.ofFn after) off len := by
  have hsplit : steps = steps.take j ++ step :: steps.drop (j + 1) := by
    obtain ⟨hlt, rfl⟩ := List.getElem?_eq_some_iff.mp hj
    rw [List.getElem_cons_drop, List.take_append_drop]
  rw [hsplit, fill_append] at h
  obtain ⟨before, hbefore, h⟩ := Option.bind_eq_some_iff.mp h
  obtain ⟨after, hafter, hrest⟩ := Option.bind_eq_some_iff.mp h
  refine ⟨before, after, hbefore, hafter, window_congr (fun i hlow hhigh => ?_) hfit⟩
  refine fill_apart (List.forall₂_drop (j + 1) hwrites) hrest i fun range hrange => ?_
  have hapart : range.1 + range.2 ≤ off ∨ off + len ≤ range.1 := hlater range hrange
  omega

/-- A field that a step copies and no later step touches holds the copied entries. -/
theorem fill_copied (hwrites : List.Forall₂ Writes ranges steps) (h : fill steps b = some r) (j : ℕ)
    {src : Fin n → α} {dstOff srcOff count : ℕ}
    (hj : steps[j]? = some fun b => copy b dstOff src srcOff count) (hfit : dstOff + count ≤ m)
    (hlater : ∀ range ∈ ranges.drop (j + 1), Apart range (dstOff, count)) :
    window (List.ofFn r) dstOff count = window (List.ofFn src) srcOff count := by
  obtain ⟨before, after, _, hstep, hwindow⟩ := fill_field hwrites h j hj hfit hlater
  rw [hwindow, window_of_copy hstep]

/-- Assign the given entries one after the other from `off` on. -/
def puts (off : ℕ) : List α → List ((Fin m → α) → Option (Fin m → α))
  | [] => []
  | x :: xs => (fun b => copy b off (fun _ : Fin 1 => x) 0 1) :: puts (off + 1) xs

/-- What has been assigned, and what lies before it. -/
theorem fill_puts {xs : List α} {off : ℕ} (h : fill (puts off xs) b = some r)
    (hfit : off + xs.length ≤ m) :
    window (List.ofFn r) off xs.length = xs ∧ ∀ i : Fin m, i.val < off → r i = b i := by
  induction xs generalizing b off with
  | nil => exact ⟨List.take_zero, fun i _ => by rw [Option.some.inj h]⟩
  | cons x xs ih =>
    rw [List.length_cons] at hfit ⊢
    obtain ⟨u, hfirst, hrest⟩ := Option.bind_eq_some_iff.mp h
    obtain ⟨hwindow, hbefore⟩ := ih hrest (by omega)
    have hx : window (List.ofFn r) off 1 = [x] := by
      rw [window_congr (fun i _ hi => hbefore i hi) (by omega), window_of_copy hfirst]
      rfl
    refine ⟨?_, fun i hi => ?_⟩
    · rw [Nat.add_comm xs.length 1, window_add, hwindow, hx, List.singleton_append]
    · rw [hbefore i (by omega), copy_outside hfirst i (by omega)]

/-- Entries that fit can be assigned. -/
theorem isSome_fill_puts (xs : List α) {off : ℕ} (b : Fin m → α) (hfit : off + xs.length ≤ m) :
    (fill (puts off xs) b).isSome = true := by
  induction xs generalizing b off with
  | nil => rfl
  | cons x xs ih =>
    rw [List.length_cons] at hfit
    exact isSome_bind_of (isSome_copy (by omega) (by omega)) fun u => ih u (by omega)

/-- What was copied somewhere can be copied on from there. -/
theorem copy_of_copy {k : ℕ} {src : Fin n → α} {off srcOff count : ℕ}
    (h : copy b off src srcOff count = some r) (dst : Fin k → α) (dstOff : ℕ) :
    copy dst dstOff r off count = copy dst dstOff src srcOff count := by
  obtain ⟨hdst, hsrc⟩ := copy_bounds h
  rw [copy_eq_some b src hdst hsrc] at h
  obtain rfl := Option.some.inj h
  by_cases hfit : dstOff + count ≤ k
  · rw [copy_eq_some dst _ hfit hdst, copy_eq_some dst src hfit hsrc]
    congr 1
    funext i
    split
    next hi =>
      dsimp only
      rw [dif_pos ⟨by omega, by omega⟩]
      congr 2
      omega
    next => rfl
  · rw [copy, copy, dif_neg (fun hbounds => hfit hbounds.1), dif_neg (fun hbounds => hfit hbounds.1)]

/-- Copies of whole arrays are the same if the arrays are. -/
theorem copy_inj {dst : Fin m → α} {src src' : Fin n → α} {dstOff : ℕ} (hfit : dstOff + n ≤ m) :
    copy dst dstOff src 0 n = copy dst dstOff src' 0 n ↔ src = src' := by
  refine ⟨fun h => ?_, fun h => by rw [h]⟩
  have hsome : (copy dst dstOff src 0 n).isSome = true := isSome_copy hfit (Nat.zero_add n).le
  obtain ⟨r, hr⟩ := Option.isSome_iff_exists.mp hsome
  have hsame := (window_of_copy hr).symm.trans (window_of_copy (h.symm.trans hr))
  have hwhole (whole : Fin n → α) : window (List.ofFn whole) 0 n = List.ofFn whole :=
    List.take_of_length_le List.length_ofFn.le
  rw [hwhole, hwhole] at hsame
  exact List.ofFn_injective hsame

end CamkesVm.Machine
