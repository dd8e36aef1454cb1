set_option autoImplicit false

/-!
# The ordered product of alternatives

Each position of a sequence offers a list of alternatives, and each alternative is itself a list.
The product lists every way to take one alternative per position and join them, in the order of an
odometer: later positions vary fastest.  Nothing is sorted and nothing merged, so there are as many
results as there are choices (`length_product`).  Where one position offers nothing there are no
results, and the positions after it are not looked at.
-/

namespace EditableGrammar

variable {α : Type}

/-- All ways to join one alternative of each position, later positions varying fastest. -/
def product : List (List (List α)) → List (List α)
  | [] => [[]]
  | [] :: _ => []
  | alternatives :: positions =>
    let rests := product positions
    alternatives.flatMap fun chosen => rests.map fun rest => chosen ++ rest

@[simp] theorem product_nil : product ([] : List (List (List α))) = [[]] := rfl

@[simp] theorem product_cons (alternatives : List (List α)) (positions : List (List (List α))) :
    product (alternatives :: positions) =
      alternatives.flatMap fun chosen => (product positions).map fun rest => chosen ++ rest := by
  cases alternatives <;> rfl

/-- A product's members are the joined choices. -/
theorem mem_product_cons {alternatives : List (List α)} {positions : List (List (List α))}
    {w : List α} :
    w ∈ product (alternatives :: positions) ↔
      ∃ chosen ∈ alternatives, ∃ rest ∈ product positions, w = chosen ++ rest := by
  simp [eq_comm]

/-- There are as many results as choices. -/
theorem length_product (positions : List (List (List α))) :
    (product positions).length =
      positions.foldr (fun alternatives n => alternatives.length * n) 1 := by
  induction positions with
  | nil => rfl
  | cons alternatives positions ih =>
    simp [List.length_flatMap, ih, List.map_const']

end EditableGrammar
