/-!
# Text measured in bytes

A document is read as a list of characters, while every place in it is given in bytes
of its UTF-8 form. `byteLength` is the one measure that joins the two, and `takeBytes`
cuts a text after a number of bytes. Both work on lists, so a proof about them is an
induction and never a calculation with byte positions.

## Main statements

* `byteLength_append`: the length of a concatenation is the sum of the lengths.
* `takeBytes_append`: cutting after exactly the bytes of a first part gives that part.
* `utf8ByteSize_ofList`: the measure agrees with the size of the string it spells.
-/

namespace BemMarkup.Text

/-! ## Length -/

/-- The number of bytes that the UTF-8 form of a text takes. -/
def byteLength : List Char → Nat
  | [] => 0
  | c :: cs => c.utf8Size + byteLength cs

@[simp] theorem byteLength_nil : byteLength [] = 0 := rfl

@[simp] theorem byteLength_cons (c : Char) (cs : List Char) :
    byteLength (c :: cs) = c.utf8Size + byteLength cs := rfl

@[simp] theorem byteLength_append (xs ys : List Char) :
    byteLength (xs ++ ys) = byteLength xs + byteLength ys := by
  induction xs with
  | nil => simp
  | cons c xs ih => simp [ih, Nat.add_assoc]

@[simp] theorem byteLength_eq_zero {cs : List Char} : byteLength cs = 0 ↔ cs = [] := by
  cases cs with
  | nil => simp
  | cons c cs =>
    have := c.utf8Size_pos
    simp only [byteLength_cons, reduceCtorEq, iff_false]
    omega

/-- The measure on characters is the byte size of the string that they spell. -/
theorem utf8ByteSize_ofList (cs : List Char) :
    (String.ofList cs).utf8ByteSize = byteLength cs := by
  induction cs with
  | nil => rfl
  | cons c cs ih =>
    rw [byteLength_cons, ← ih, show c :: cs = [c] ++ cs from rfl, String.ofList_append,
      String.utf8ByteSize_append]
    simp

/-! ## Cutting -/

/-- The characters that start before the byte `n`. -/
def takeBytes : Nat → List Char → List Char
  | 0, _ => []
  | _, [] => []
  | n + 1, c :: cs => c :: takeBytes (n + 1 - c.utf8Size) cs

@[simp] theorem takeBytes_zero (cs : List Char) : takeBytes 0 cs = [] := by
  cases cs <;> rfl

@[simp] theorem takeBytes_append (xs ys : List Char) :
    takeBytes (byteLength xs) (xs ++ ys) = xs := by
  induction xs with
  | nil => simp
  | cons c xs ih =>
    obtain ⟨k, hk⟩ : ∃ k, c.utf8Size = k + 1 := ⟨c.utf8Size - 1, by have := c.utf8Size_pos; omega⟩
    have : byteLength (c :: xs) = (k + byteLength xs) + 1 := by simp [hk]; omega
    rw [this, List.cons_append, takeBytes, hk,
      show k + byteLength xs + 1 - (k + 1) = byteLength xs by omega, ih]

end BemMarkup.Text
