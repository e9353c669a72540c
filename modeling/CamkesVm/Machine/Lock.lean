import Mathlib.Logic.Function.Basic

/-!
# Critical sections under a lock

A family of threads shares one lock, and each thread is in its critical section at some of its
program counters. The lock is taken while a thread is inside, and no two threads are inside at
once. A thread keeps this when it moves outside, enters by taking the free lock, moves inside,
or leaves and frees the lock.
-/

namespace CamkesVm.Machine

variable {ι P : Type*} {inSection : P → Prop} {pcs : ι → P} {lock : Bool} {c : ι}
  {pc : P}

/-- The lock is taken while a thread is in its section, and one thread at most is. -/
structure LockHeld (inSection : P → Prop) (pcs : ι → P) (lock : Bool) : Prop where
  locked : ∀ c, inSection (pcs c) → lock = true
  alone : ∀ c d, inSection (pcs c) → inSection (pcs d) → c = d

/-- When the lock is free, nobody is in a section. -/
theorem LockHeld.not_inSection (h : LockHeld inSection pcs lock) (hfree : lock = false) (d : ι) :
    ¬ inSection (pcs d) := by
  intro hin
  exact Bool.false_ne_true (hfree.symm.trans (h.locked d hin))

/-- When one thread is in its section, no other is. -/
theorem LockHeld.not_inSection_of_ne (h : LockHeld inSection pcs lock) (hin : inSection (pcs c))
    {d : ι} (hd : d ≠ c) : ¬ inSection (pcs d) := by
  intro hother
  exact hd (h.alone d c hother hin)

variable [DecidableEq ι]

/-- A thread moves while no other thread is in its section. -/
theorem LockHeld.of_alone {lock' : Bool} (hothers : ∀ d, d ≠ c → ¬ inSection (pcs d))
    (hlock : inSection pc → lock' = true) : LockHeld inSection (Function.update pcs c pc) lock' := by
  have hself : ∀ d, inSection (Function.update pcs c pc d) → d = c := by
    intro d hin
    by_contra hd
    rw [Function.update_of_ne hd] at hin
    exact hothers d hd hin
  refine ⟨fun d hin => ?_, fun d e hd he => (hself d hd).trans (hself e he).symm⟩
  rw [hself d hin, Function.update_self] at hin
  exact hlock hin

/-- A thread moves to a place outside its section. -/
theorem LockHeld.outside (h : LockHeld inSection pcs lock) (hpc : ¬ inSection pc) :
    LockHeld inSection (Function.update pcs c pc) lock := by
  have hbefore : ∀ d, inSection (Function.update pcs c pc d) → inSection (pcs d) := by
    intro d hin
    by_cases hd : d = c
    · rw [hd, Function.update_self] at hin
      exact absurd hin hpc
    · rwa [Function.update_of_ne hd] at hin
  exact ⟨fun d hin => h.locked d (hbefore d hin),
    fun d e hd he => h.alone d e (hbefore d hd) (hbefore e he)⟩

/-- A thread takes the free lock. -/
theorem LockHeld.enter (h : LockHeld inSection pcs lock) (hfree : lock = false) :
    LockHeld inSection (Function.update pcs c pc) true :=
  .of_alone (fun d _ => h.not_inSection hfree d) fun _ => rfl

/-- A thread moves from its section and keeps the lock. -/
theorem LockHeld.inside (h : LockHeld inSection pcs lock) (hin : inSection (pcs c)) :
    LockHeld inSection (Function.update pcs c pc) lock :=
  .of_alone (fun _ => h.not_inSection_of_ne hin) fun _ => h.locked c hin

/-- A thread leaves its section and frees the lock. -/
theorem LockHeld.leave (h : LockHeld inSection pcs lock) (hin : inSection (pcs c))
    (hpc : ¬ inSection pc) : LockHeld inSection (Function.update pcs c pc) false :=
  .of_alone (fun _ => h.not_inSection_of_ne hin) fun hpc' => absurd hpc' hpc

end CamkesVm.Machine
