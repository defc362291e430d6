import Mathlib

/-!
Computations that may stop with an error, and the rules of their
postconditions: `Exits x P E` says that a normal result satisfies `P` and an
error satisfies `E`.
-/

namespace Bitfrost.Lib

universe u
variable {ε : Type*} {α β : Type u}

/-- `Option::ok_or`. -/
def okOr (o : Option α) (e : ε) : Except ε α :=
  match o with
  | some a => .ok a
  | none => .error e

@[simp] theorem okOr_eq_ok {o : Option α} {e : ε} {a : α} : okOr o e = .ok a ↔ o = some a := by
  cases o <;> simp [okOr]

/-- `and_then` before `ok_or`: either failure is the same error. -/
theorem okOr_bind (o : Option α) (f : α → Option β) (e : ε) :
    okOr (o.bind f) e = okOr o e >>= fun a => okOr (f a) e := by
  cases o <;> rfl

/-- `if c { return Err(e) }`. -/
def rejectIf (c : Prop) [Decidable c] (e : ε) : Except ε PUnit.{u + 1} :=
  if c then .error e else .ok ⟨⟩

@[simp] theorem rejectIf_eq_ok {c : Prop} [Decidable c] {e : ε} {a : PUnit.{u + 1}} :
    rejectIf c e = .ok a ↔ ¬ c := by
  unfold rejectIf
  split <;> simp [*]

@[simp] theorem rejectIf_eq_error {c : Prop} [Decidable c] {e e' : ε} :
    (rejectIf c e : Except ε PUnit.{u + 1}) = .error e' ↔ c ∧ e = e' := by
  unfold rejectIf
  split <;> simp [*]

theorem rejectIf_of_not {c : Prop} [Decidable c] {e : ε} (h : ¬ c) :
    (rejectIf c e : Except ε PUnit.{u + 1}) = .ok ⟨⟩ := if_neg h

@[simp] theorem ok_bind (a : α) (f : α → Except ε β) : (Except.ok a >>= f) = f a := rfl

theorem bind_eq_ok {x : Except ε α} {f : α → Except ε β} {b : β} :
    (x >>= f) = .ok b ↔ ∃ a, x = .ok a ∧ f a = .ok b := by
  cases x <;> simp [bind, Except.bind]

theorem bind_eq_error {x : Except ε α} {f : α → Except ε β} {e : ε} :
    (x >>= f) = .error e ↔ x = .error e ∨ ∃ a, x = .ok a ∧ f a = .error e := by
  cases x <;> simp [bind, Except.bind]

/-- A change of results goes through the first step to what follows it. -/
theorem map_bind_congr {γ : Type u} {x : Except ε α} {f : α → Except ε γ} {g : α → Except ε β}
    {φ : β → γ} (h : ∀ a, x = .ok a → f a = (g a).map φ) : (x >>= f) = (x >>= g).map φ := by
  cases x with
  | error e => rfl
  | ok a => exact h a rfl

/-! ## Postconditions -/

/-- A normal result satisfies `P`, an error satisfies `E`. -/
def Exits (x : Except ε α) (P : α → Prop) (E : ε → Prop) : Prop :=
  match x with
  | .ok a => P a
  | .error e => E e

section Exits

variable {x : Except ε α} {P P' : α → Prop} {E E' : ε → Prop}

@[simp] theorem exits_ok {a : α} : Exits (.ok a : Except ε α) P E ↔ P a := Iff.rfl
theorem Exits.bind {f : α → Except ε β} {Q : β → Prop} (h : Exits x P E)
    (hf : ∀ a, P a → Exits (f a) Q E) : Exits (x >>= f) Q E := by
  cases x with
  | ok a => exact hf a h
  | error e => exact h

theorem Exits.mono (h : Exits x P E) (hP : ∀ a, P a → P' a) (hE : ∀ e, E e → E' e) :
    Exits x P' E' := by
  cases x with
  | ok a => exact hP a h
  | error e => exact hE e h

theorem Exits.of_ok {a : α} (h : Exits x P E) (hx : x = .ok a) : P a := by
  subst hx
  exact h

theorem Exits.of_error {e : ε} (h : Exits x P E) (hx : x = .error e) : E e := by
  subst hx
  exact h

theorem exits_okOr {o : Option α} {e : ε} (hP : ∀ a, o = some a → P a) (hE : o = none → E e) :
    Exits (okOr o e) P E := by
  cases o with
  | some a => exact hP a rfl
  | none => exact hE rfl

theorem exits_rejectIf {c : Prop} [Decidable c] {e : ε} (hE : c → E e) :
    Exits (rejectIf c e : Except ε PUnit.{u + 1}) (fun _ => ¬ c) E := by
  unfold rejectIf
  split
  · next h => exact hE h
  · next h => exact h

end Exits

end Bitfrost.Lib
