import CamkesVm.Machine.Lock

/-!
# Straight-line code under a lock

A thread runs straight-line code: it is the list of the actions it has left. Some actions take or
release a lock, and some use a resource. Code is disciplined when it uses the resource only between
taking the lock and releasing it, and unguarded when it uses the resource and knows no lock.

Disciplined threads exclude each other. Unguarded code is excluded by nothing, so it has to be the only
code with a use of the resource left. A family of threads that keeps to this uses the resource one
thread at a time.
-/

namespace CamkesVm.Machine

/-- What an action does to the lock and to the resource that the lock is for. -/
inductive LockUse
  | take
  | release
  | resource
  | neutral
  deriving DecidableEq

variable {A ι : Type*} {use : A → LockUse} {code rest : List A} {held lock lock' : Bool}
  {todo : ι → List A} {c : ι} {a : A}

/-- What an action does to the lock: it takes the free lock, frees it, or leaves it. -/
def LockUse.Moves (kind : LockUse) (lock lock' : Bool) : Prop :=
  match kind with
  | .take => lock = false ∧ lock' = true
  | .release => lock' = false
  | _ => lock' = lock

/-- Code that uses the resource only while it holds the lock, for a thread that holds it or not. -/
def Disciplined (use : A → LockUse) : Bool → List A → Prop
  | held, [] => held = false
  | held, a :: rest =>
    match use a with
    | .take => held = false ∧ Disciplined use true rest
    | .release => held = true ∧ Disciplined use false rest
    | .resource => held = true ∧ Disciplined use true rest
    | .neutral => Disciplined use held rest

/-- Code without a use of the resource. -/
def Spares (use : A → LockUse) (code : List A) : Prop := ∀ a ∈ code, use a ≠ .resource

/-- Code that neither takes nor releases the lock. -/
def LockFree (use : A → LockUse) (code : List A) : Prop :=
  ∀ a ∈ code, use a ≠ .take ∧ use a ≠ .release

/-- Code that uses the resource and knows no lock. -/
def Unguarded (use : A → LockUse) (code : List A) : Prop := LockFree use code ∧ ¬ Spares use code

/-- Every thread is disciplined or unguarded, and unguarded code leaves nothing to the other threads. -/
structure Guarded (use : A → LockUse) (todo : ι → List A) (lock : Bool) : Prop where
  lockHeld : LockHeld (Disciplined use true) todo lock
  known : ∀ c, Disciplined use false (todo c) ∨ Disciplined use true (todo c) ∨ Unguarded use (todo c)
  alone : ∀ c d, d ≠ c → Unguarded use (todo c) → Spares use (todo d)

/-- The thread that runs the code either holds the lock or does not. -/
theorem Disciplined.not_held (h : Disciplined use false code) : ¬ Disciplined use true code := by
  induction code with
  | nil => exact Bool.noConfusion
  | cons a rest ih =>
    unfold Disciplined at h ⊢
    cases huse : use a with
    | take => simp
    | release => simp [huse] at h
    | resource => simp [huse] at h
    | neutral =>
      simp only [huse] at h ⊢
      exact ih h

/-- Disciplined code without the lock uses no resource. -/
theorem Disciplined.spares (hfree : LockFree use code) (h : Disciplined use held code) :
    held = false ∧ Spares use code := by
  induction code generalizing held with
  | nil => exact ⟨h, fun _ ha => absurd ha List.not_mem_nil⟩
  | cons a rest ih =>
    obtain ⟨hhead, htail⟩ := List.forall_mem_cons.mp hfree
    unfold Disciplined at h
    cases huse : use a with
    | take => exact absurd huse hhead.1
    | release => exact absurd huse hhead.2
    | resource =>
      simp only [huse] at h
      exact absurd (ih htail h.2).1 Bool.noConfusion
    | neutral =>
      simp only [huse] at h
      obtain ⟨hheld, hspares⟩ := ih htail h
      exact ⟨hheld, List.forall_mem_cons.mpr ⟨by simp [huse], hspares⟩⟩

/-- Code that does nothing to the lock and the resource is disciplined. -/
theorem LockFree.disciplined (hfree : LockFree use code) (hspares : Spares use code) :
    Disciplined use false code := by
  induction code with
  | nil => rfl
  | cons a rest ih =>
    obtain ⟨hhead, htail⟩ := List.forall_mem_cons.mp hfree
    obtain ⟨hresource, hsparesTail⟩ := List.forall_mem_cons.mp hspares
    unfold Disciplined
    cases huse : use a with
    | take => exact absurd huse hhead.1
    | release => exact absurd huse hhead.2
    | resource => exact absurd huse hresource
    | neutral => exact ih htail hsparesTail

/-- Uses of the resource between taking and releasing the lock are disciplined. -/
theorem disciplined_section {take release : A} {body after : List A} (htake : use take = .take)
    (hbody : ∀ a ∈ body, use a = .resource) (hrelease : use release = .release)
    (hafter : Disciplined use false after) :
    Disciplined use false (take :: (body ++ release :: after)) := by
  have hinside : Disciplined use true (body ++ release :: after) := by
    induction body with
    | nil =>
      unfold Disciplined
      simp only [List.nil_append, hrelease]
      exact ⟨trivial, hafter⟩
    | cons a body ih =>
      obtain ⟨hhead, htail⟩ := List.forall_mem_cons.mp hbody
      rw [List.cons_append]
      unfold Disciplined
      simp only [hhead]
      exact ⟨trivial, ih htail⟩
  unfold Disciplined
  simp only [htake]
  exact ⟨trivial, hinside⟩

/-- Code that uses the resource without the lock follows no discipline. -/
theorem Unguarded.not_disciplined (h : Unguarded use code) : ¬ Disciplined use held code :=
  fun hdisciplined => h.2 (hdisciplined.spares h.1).2

/-- A thread at a use of the resource holds the lock or is unguarded. -/
theorem Guarded.inside_or_unguarded (h : Guarded use todo lock) (htodo : todo c = a :: rest)
    (huse : use a = .resource) : Disciplined use true (todo c) ∨ Unguarded use (todo c) := by
  refine (h.known c).resolve_left fun hfalse => ?_
  rw [htodo] at hfalse
  unfold Disciplined at hfalse
  simp [huse] at hfalse

/-- One thread at a time is at a use of the resource. -/
theorem Guarded.eq_of_resource (h : Guarded use todo lock) {d : ι} {b : A} {later : List A}
    (hc : todo c = a :: rest) (ha : use a = .resource) (hd : todo d = b :: later)
    (hb : use b = .resource) : c = d := by
  have hcUses : ¬ Spares use (todo c) := fun hspares => hspares a (hc ▸ List.mem_cons_self) ha
  have hdUses : ¬ Spares use (todo d) := fun hspares => hspares b (hd ▸ List.mem_cons_self) hb
  by_contra hne
  obtain hinC | hunguarded := h.inside_or_unguarded hc ha
  · obtain hinD | hunguarded := h.inside_or_unguarded hd hb
    · exact hne (h.lockHeld.alone c d hinC hinD)
    · exact hcUses (h.alone d c hne hunguarded)
  · exact hdUses (h.alone c d (Ne.symm hne) hunguarded)

/-- Beside an unguarded thread, what is left of a thread spares the resource. -/
theorem Guarded.rest_spares (h : Guarded use todo lock) (htodo : todo c = a :: rest) (d : ι)
    (hd : d ≠ c) (hunguarded : Unguarded use (todo d)) : Spares use rest := fun b hb =>
  h.alone d c (Ne.symm hd) hunguarded b (htodo ▸ List.mem_cons_of_mem a hb)

variable [DecidableEq ι]

/-- The code of one thread is replaced. -/
theorem Guarded.replace (h : Guarded use todo lock)
    (hheld : LockHeld (Disciplined use true) (Function.update todo c code) lock')
    (hknown : Disciplined use false code ∨ Disciplined use true code ∨ Unguarded use code)
    (hself : Unguarded use code → ∀ d, d ≠ c → Spares use (todo d))
    (hothers : ∀ d, d ≠ c → Unguarded use (todo d) → Spares use code) :
    Guarded use (Function.update todo c code) lock' := by
  refine ⟨hheld, fun d => ?_, fun e d hne hunguarded => ?_⟩
  · by_cases hd : d = c
    · rwa [hd, Function.update_self]
    · rw [Function.update_of_ne hd]
      exact h.known d
  · by_cases he : e = c
    · rw [he, Function.update_self] at hunguarded
      rw [Function.update_of_ne (he ▸ hne)]
      exact hself hunguarded d (he ▸ hne)
    · rw [Function.update_of_ne he] at hunguarded
      by_cases hd : d = c
      · rw [hd, Function.update_self]
        exact hothers e he hunguarded
      · rw [Function.update_of_ne hd]
        exact h.alone e d hne hunguarded

/-- A thread starts disciplined code while no thread is unguarded, or code that spares the resource. -/
theorem Guarded.enter_disciplined (h : Guarded use todo lock) (hcode : Disciplined use false code)
    (hothers : Spares use code ∨ ∀ d, ¬ Unguarded use (todo d)) :
    Guarded use (Function.update todo c code) lock :=
  h.replace (h.lockHeld.outside hcode.not_held) (.inl hcode)
    (fun hunguarded => absurd hcode hunguarded.not_disciplined)
    fun d _ hunguarded => hothers.resolve_right fun hnone => hnone d hunguarded

/-- A thread starts unguarded code while no thread has a use of the resource left. -/
theorem Guarded.enter_unguarded (h : Guarded use todo lock) (hcode : Unguarded use code)
    (hothers : ∀ d, Spares use (todo d)) : Guarded use (Function.update todo c code) lock :=
  h.replace (h.lockHeld.outside hcode.not_disciplined) (.inr (.inr hcode)) (fun _ d _ => hothers d)
    fun d _ hunguarded => absurd (hothers d) hunguarded.2

/-- A thread without the lock takes it, or leaves it alone. -/
theorem Guarded.next_outside (h : Guarded use todo lock) (htodo : todo c = a :: rest)
    (hmoves : (use a).Moves lock lock') (houtside : Disciplined use false (a :: rest)) :
    Guarded use (Function.update todo c rest) lock' := by
  unfold Disciplined at houtside
  cases huse : use a with
  | take =>
    simp only [huse, LockUse.Moves] at houtside hmoves
    rw [hmoves.2]
    exact h.replace (h.lockHeld.enter hmoves.1) (.inr (.inl houtside.2))
      (fun hrest => absurd houtside.2 hrest.not_disciplined) (h.rest_spares htodo)
  | release => simp [huse] at houtside
  | resource => simp [huse] at houtside
  | neutral =>
    simp only [huse, LockUse.Moves] at houtside hmoves
    rw [hmoves]
    exact h.replace (h.lockHeld.outside houtside.not_held) (.inl houtside)
      (fun hrest => absurd houtside hrest.not_disciplined) (h.rest_spares htodo)

/-- A thread with the lock releases it, or keeps it. -/
theorem Guarded.next_inside (h : Guarded use todo lock) (htodo : todo c = a :: rest)
    (hmoves : (use a).Moves lock lock') (hinside : Disciplined use true (a :: rest)) :
    Guarded use (Function.update todo c rest) lock' := by
  have hin : Disciplined use true (todo c) := htodo ▸ hinside
  have hkeep : Disciplined use true rest → lock' = lock →
      Guarded use (Function.update todo c rest) lock' := by
    intro hrest hsame
    rw [hsame]
    exact h.replace (h.lockHeld.inside hin) (.inr (.inl hrest))
      (fun hunguarded => absurd hrest hunguarded.not_disciplined) (h.rest_spares htodo)
  unfold Disciplined at hinside
  cases huse : use a with
  | take => simp [huse] at hinside
  | release =>
    simp only [huse, LockUse.Moves] at hinside hmoves
    rw [hmoves]
    exact h.replace (h.lockHeld.leave hin hinside.2.not_held) (.inl hinside.2)
      (fun hrest => absurd hinside.2 hrest.not_disciplined) (h.rest_spares htodo)
  | resource =>
    simp only [huse, LockUse.Moves] at hinside hmoves
    exact hkeep hinside.2 hmoves
  | neutral =>
    simp only [huse, LockUse.Moves] at hinside hmoves
    exact hkeep hinside hmoves

/-- A thread that knows no lock goes on, and the others have left the resource to it. -/
theorem Guarded.next_unguarded (h : Guarded use todo lock) (htodo : todo c = a :: rest)
    (hmoves : (use a).Moves lock lock') (hunguarded : Unguarded use (a :: rest)) :
    Guarded use (Function.update todo c rest) lock' := by
  have hnow : Unguarded use (todo c) := htodo ▸ hunguarded
  obtain ⟨hhead, htail⟩ := List.forall_mem_cons.mp hunguarded.1
  have hfree : LockFree use rest := htail
  have hsame : lock' = lock := by
    cases huse : use a with
    | take => exact absurd huse hhead.1
    | release => exact absurd huse hhead.2
    | resource => simpa only [huse, LockUse.Moves] using hmoves
    | neutral => simpa only [huse, LockUse.Moves] using hmoves
  rw [hsame]
  by_cases hspares : Spares use rest
  · have hrest := hfree.disciplined hspares
    exact h.replace (h.lockHeld.outside hrest.not_held) (.inl hrest)
      (fun hunguarded => absurd hspares hunguarded.2) (h.rest_spares htodo)
  · have hrest : Unguarded use rest := ⟨hfree, hspares⟩
    exact h.replace (h.lockHeld.outside hrest.not_disciplined) (.inr (.inr hrest))
      (fun _ d hd => h.alone c d hd hnow) (h.rest_spares htodo)

/-- A thread takes its next action. -/
theorem Guarded.next (h : Guarded use todo lock) (htodo : todo c = a :: rest)
    (hmoves : (use a).Moves lock lock') : Guarded use (Function.update todo c rest) lock' := by
  have hknown := h.known c
  rw [htodo] at hknown
  obtain houtside | hinside | hunguarded := hknown
  · exact h.next_outside htodo hmoves houtside
  · exact h.next_inside htodo hmoves hinside
  · exact h.next_unguarded htodo hmoves hunguarded

end CamkesVm.Machine
