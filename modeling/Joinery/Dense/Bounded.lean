import Joinery.Dense.Matrix
/-!
# Bounded forms

Sizes and indices are words of 64 bits, and an array of numbers, eight bytes
each, takes at most half of what a word counts. A matrix of a given size may
pass these limits even where it has no entries: one without rows can have more
columns than an array can hold. The forms here refuse such arguments before
anything is computed. Within the limits they are the forms of the same names in
`Dense.Matrix`.
-/

namespace Joinery.Dense.Bounded

/-- Every size and every index is below this one. -/
def wordLimit : Nat := 18446744073709551616

/-- The number of entries of an array is below this one. -/
def arrayLimit : Nat := 1152921504606846976

/-- The outcome for a size below the limit. -/
@[macro_inline]
def below? {β : Type} (limit size : Nat) (outcome : Except Breach β) : Except Breach β :=
  if size < limit then outcome else .error .tooLarge

theorem below?_of_lt {β : Type} {limit size : Nat} (h : size < limit) (outcome : Except Breach β) :
    below? limit size outcome = outcome := if_pos h

variable {α : Type}

/-- The matrix of the given data, if their number fits. It is compared with the
product of the sizes, so that has to be a word. -/
def ofData? (rows cols : Nat) (data : Array α) : Except Breach (Option (Matrix α)) :=
  below? wordLimit (rows * cols) (.ok (Matrix.ofData? rows cols data))

variable [Arithmetic α]

def zeros? (rows cols : Nat) : Except Breach (Matrix α) :=
  below? arrayLimit (rows * cols) (.ok (.zeros rows cols))

def identity? (n : Nat) : Except Breach (Matrix α) :=
  below? arrayLimit (n * n) (.ok (.identity n))

/-- A row ends where the next one starts, so the next index has to be a word
even in a matrix without columns. -/
def row? (m : Matrix α) (i : Nat) : Except Breach (Array α) :=
  below? wordLimit (i + 1) (m.row? i)

def scaleRow? (m : Matrix α) (i : Nat) (s : α) : Except Breach (Matrix α) :=
  below? wordLimit (i + 1) (m.scaleRow? i s)

def selectRows? (m : Matrix α) (indices : Array Nat) : Except Breach (Matrix α) :=
  below? wordLimit (indices.foldl Nat.max 0 + 1) (m.selectRows? indices)

def transposeMulVec? (m : Matrix α) (v : Array α) : Except Breach (Array α) :=
  below? arrayLimit m.cols (m.transposeMulVec? v)

def gram? (m : Matrix α) : Except Breach (Matrix α) :=
  below? arrayLimit (m.cols * m.cols) (.ok m.gram)

def outerGram? (m : Matrix α) : Except Breach (Matrix α) :=
  below? arrayLimit (m.rows * m.rows) (.ok m.outerGram)

end Joinery.Dense.Bounded
