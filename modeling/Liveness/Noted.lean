/-
Liveness/Noted.lean

Computations that leave notes and may fail.  What was noted before a failure is
kept, so a run that ends in an error can still tell what it saw.

`result` forgets the notes.  It commutes with `pure` and `bind`, so a statement
about results never has to mention notes.
-/
namespace Liveness

/-- A result, or the reason why there is none, with the notes made on the way. -/
structure Noted (ν ε α : Type) where
  notes : List ν
  result : Except ε α

namespace Noted

variable {ν ε α β : Type}

/-- Succeed without a note. -/
protected def pure (a : α) : Noted ν ε α :=
  ⟨[], .ok a⟩

/-- Go on with a result; after a failure nothing more is noted. -/
protected def bind (x : Noted ν ε α) (f : α → Noted ν ε β) : Noted ν ε β :=
  match x.result with
  | .ok a => ⟨x.notes ++ (f a).notes, (f a).result⟩
  | .error e => ⟨x.notes, .error e⟩

instance : Monad (Noted ν ε) where
  pure := Noted.pure
  bind := Noted.bind

/-- Leave a note. -/
def note (n : ν) : Noted ν ε Unit :=
  ⟨[n], .ok ()⟩

/-- Fail without a note. -/
def fail (e : ε) : Noted ν ε α :=
  ⟨[], .error e⟩

/-- A result that leaves no note. -/
def ofExcept (x : Except ε α) : Noted ν ε α :=
  ⟨[], x⟩

instance : MonadLift (Except ε) (Noted ν ε) where
  monadLift := ofExcept

@[simp] theorem result_pure (a : α) : (pure a : Noted ν ε α).result = .ok a := rfl

@[simp] theorem result_bind (x : Noted ν ε α) (f : α → Noted ν ε β) :
    (x >>= f).result = x.result >>= fun a => (f a).result := by
  rcases x with ⟨notes, e | a⟩ <;> rfl

@[simp] theorem result_note (n : ν) : (note n : Noted ν ε Unit).result = .ok () := rfl

@[simp] theorem result_fail (e : ε) : (fail e : Noted ν ε α).result = .error e := rfl

@[simp] theorem result_ofExcept (x : Except ε α) : (ofExcept x : Noted ν ε α).result = x := rfl

@[simp] theorem result_liftM (x : Except ε α) :
    (liftM x : Noted ν ε α).result = x := rfl

instance : LawfulMonad (Noted ν ε) :=
  LawfulMonad.mk' (Noted ν ε)
    (fun x => by rcases x with ⟨notes, e | a⟩ <;> simp [Functor.map, Noted.bind, Noted.pure])
    (fun a f => by simp [pure, bind, Noted.pure, Noted.bind])
    (fun x f g => by
      rcases x with ⟨notes, e | a⟩
      · rfl
      · rcases h : f a with ⟨notes', e | b⟩ <;> simp [bind, Noted.bind, h])

end Noted

end Liveness
