/-!
# Totals

Sums over lists: sizes, cycles, uses.
-/

namespace Codegen6502

/-- The sum of the weights of the elements. -/
def totalOf (weight : α → Nat) (elements : List α) : Nat :=
  elements.foldr (fun a n => weight a + n) 0

@[simp] theorem totalOf_nil (weight : α → Nat) : totalOf weight [] = 0 := rfl

@[simp] theorem totalOf_cons (weight : α → Nat) (a : α) (rest : List α) :
    totalOf weight (a :: rest) = weight a + totalOf weight rest := rfl

end Codegen6502
