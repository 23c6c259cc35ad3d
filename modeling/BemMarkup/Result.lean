/-!
# Results that may be errors

Readers and compilers answer with `Except`. A chain of steps succeeds exactly when every
step does, and these lemmas say so for the two ways in which steps are joined here.
-/

namespace BemMarkup

/-- Two steps succeed together when the first does and the second does on its value. -/
theorem bind_eq_ok_iff {ε α β : Type} {x : Except ε α} {f : α → Except ε β} {b : β} :
    (x >>= f) = .ok b ↔ ∃ a, x = .ok a ∧ f a = .ok b := by
  cases x <;> simp [bind, Except.bind]

/-- Two steps fail together when the first does, or the second does on the value of the first. -/
theorem bind_eq_error_iff {ε α β : Type} {x : Except ε α} {f : α → Except ε β} {e : ε} :
    (x >>= f) = .error e ↔ x = .error e ∨ ∃ a, x = .ok a ∧ f a = .error e := by
  cases x <;> simp [bind, Except.bind]

/-- A value that is computed from the value of a step is there exactly when the step
succeeds. -/
theorem map_eq_ok_iff {ε α β : Type} {x : Except ε α} {f : α → β} {b : β} :
    x.map f = .ok b ↔ ∃ a, x = .ok a ∧ f a = b := by
  cases x <;> simp [Except.map]

/-- Computing a value from the value of a step keeps the error of the step. -/
theorem map_eq_error_iff {ε α β : Type} {x : Except ε α} {f : α → β} {e : ε} :
    x.map f = .error e ↔ x = .error e := by
  cases x <;> simp [Except.map]

/-- Computing an error from the error of a step leaves the value of a step as it is. -/
theorem mapError_ok {ε δ α : Type} (f : ε → δ) (a : α) :
    (Except.ok a : Except ε α).mapError f = .ok a := rfl

/-- Computing an error from the error of a step passes the error on as computed. -/
theorem mapError_error {ε δ α : Type} (f : ε → δ) (e : ε) :
    (Except.error e : Except ε α).mapError f = .error (f e) := rfl

/-- Computing an error from the error of a step does not make it succeed. -/
theorem mapError_eq_ok_iff {ε δ α : Type} {x : Except ε α} {f : ε → δ} {a : α} :
    x.mapError f = .ok a ↔ x = .ok a := by
  cases x with
  | error e => exact iff_of_false (fun h => by cases h) fun h => by cases h
  | ok value => simp [mapError_ok]

/-- Computing an error from the error of a step fails exactly when the step does. -/
theorem mapError_eq_error_iff {ε δ α : Type} {x : Except ε α} {f : ε → δ} {e : δ} :
    x.mapError f = .error e ↔ ∃ e', x = .error e' ∧ f e' = e := by
  cases x with
  | error error => simp [mapError_error]
  | ok value => simp [mapError_ok]

/-- A value that is found in a result is what the result gives. -/
theorem eq_ok_of_toOption_join {ε α : Type} {x : Except ε (Option α)} {a : α}
    (h : x.toOption.join = some a) : x = .ok (some a) := by
  cases x with
  | error => cases h
  | ok value => exact congrArg Except.ok h

end BemMarkup
