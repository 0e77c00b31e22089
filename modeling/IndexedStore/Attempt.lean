import IndexedStore.Failure

/-! # Attempts

An attempt is a step that reads and changes a state and may fail. What it did before it failed stays
done: the state it leaves behind is part of its result either way. Whether a failed step leaves no
trace is therefore a fact to be proved of the step, not a property of its type.
-/
namespace IndexedStore

/-- A step on states `σ` that answers or fails, with the state it leaves behind. -/
def Attempt (σ α : Type) : Type := σ → Except Failure α × σ

namespace Attempt
variable {σ α β : Type}

def run (x : Attempt σ α) (s : σ) : Except Failure α × σ := x s

instance : Monad (Attempt σ) where
  pure a := fun s => (.ok a, s)
  bind x f := fun s =>
    match x s with
    | (.ok a, s') => f a s'
    | (.error e, s') => (.error e, s')

def state : Attempt σ σ := fun s => (.ok s, s)

def update (f : σ → σ) : Attempt σ Unit := fun s => (.ok (), f s)

def fail (e : Failure) : Attempt σ α := fun s => (.error e, s)

def ofExcept (r : Except Failure α) : Attempt σ α := fun s => (r, s)

def require (holds : Bool) (e : Failure) : Attempt σ Unit :=
  if holds then pure () else fail e

@[simp] theorem run_pure (a : α) (s : σ) : (pure a : Attempt σ α).run s = (.ok a, s) := rfl

theorem run_bind (x : Attempt σ α) (f : α → Attempt σ β) (s : σ) :
    (x >>= f).run s =
      match x.run s with
      | (.ok a, s') => (f a).run s'
      | (.error e, s') => (.error e, s') := rfl

@[simp] theorem run_state (s : σ) : (state : Attempt σ σ).run s = (.ok s, s) := rfl

@[simp] theorem run_update (f : σ → σ) (s : σ) : (update f).run s = (.ok (), f s) := rfl

@[simp] theorem run_fail (e : Failure) (s : σ) :
    (fail e : Attempt σ α).run s = (.error e, s) := rfl

@[simp] theorem run_ofExcept (r : Except Failure α) (s : σ) : (ofExcept r).run s = (r, s) := rfl

instance : LawfulMonad (Attempt σ) := by
  refine LawfulMonad.mk' (Attempt σ) (fun x => ?_) (fun _ _ => rfl) (fun x f g => ?_)
  · funext s
    simp only [Functor.map]
    rcases x s with ⟨_ | _, _⟩ <;> rfl
  · funext s
    simp only [bind]
    rcases x s with ⟨_ | _, _⟩ <;> rfl

end Attempt
end IndexedStore
