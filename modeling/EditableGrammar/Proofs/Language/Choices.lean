import EditableGrammar.Language.Product
import Mathlib.Data.List.Basic

set_option autoImplicit false

/-!
# The order of a product

A way to take one alternative of each position is a `Choice`.  Read as the digits of a number whose
radix at each position is how many alternatives stand there, the last position being the lowest, it
has a `number`, and that is its place in the product (`getElem?_product`).

A product may also be put together from the left: a list of beginnings, each of which goes on with
every alternative of the next position (`extendAll`).  What that loop arrives at from one empty
beginning is the product (`foldl_extendAll_empty`), so a product of two runs of positions is the
product of their products (`product_append`).
-/

namespace EditableGrammar

variable {α : Type}

/-! ## Beginnings -/

/-- Every beginning, in order, with each alternative behind it. -/
def extendAll (beginnings alternatives : List (List α)) : List (List α) :=
  beginnings.flatMap fun beginning => alternatives.map fun chosen => beginning ++ chosen

theorem extendAll_assoc (xs ys zs : List (List α)) :
    extendAll (extendAll xs ys) zs = extendAll xs (extendAll ys zs) := by
  simp only [extendAll, List.flatMap_assoc, List.map_flatMap, List.flatMap_map, List.map_map,
    Function.comp_def, List.append_assoc]

theorem extendAll_empty_right (xs : List (List α)) : extendAll xs [[]] = xs := by
  simp [extendAll]

theorem extendAll_empty_left (xs : List (List α)) : extendAll [[]] xs = xs := by
  simp [extendAll]

theorem product_cons_eq_extendAll (alternatives : List (List α))
    (positions : List (List (List α))) :
    product (alternatives :: positions) = extendAll alternatives (product positions) :=
  product_cons alternatives positions

/-- Going on from some beginnings, position after position, puts the product behind each. -/
theorem foldl_extendAll (positions : List (List (List α))) (beginnings : List (List α)) :
    positions.foldl extendAll beginnings = extendAll beginnings (product positions) := by
  induction positions generalizing beginnings with
  | nil => rw [List.foldl_nil, product_nil, extendAll_empty_right]
  | cons alternatives positions ih =>
    rw [List.foldl_cons, ih, extendAll_assoc, product_cons_eq_extendAll]

/-- From one empty beginning the loop over the positions arrives at their product. -/
theorem foldl_extendAll_empty (positions : List (List (List α))) :
    positions.foldl extendAll [[]] = product positions := by
  rw [foldl_extendAll, extendAll_empty_left]

theorem product_append (positions more : List (List (List α))) :
    product (positions ++ more) = extendAll (product positions) (product more) := by
  rw [← foldl_extendAll_empty, List.foldl_append, foldl_extendAll_empty, foldl_extendAll]

/-! ## Choices -/

/-- How many ways there are to take one alternative of each position. -/
def ways (positions : List (List (List α))) : Nat :=
  positions.foldr (fun alternatives n => alternatives.length * n) 1

@[simp] theorem ways_nil : ways ([] : List (List (List α))) = 1 := rfl

@[simp] theorem ways_cons (alternatives : List (List α)) (positions : List (List (List α))) :
    ways (alternatives :: positions) = alternatives.length * ways positions := rfl

/-- Where a position offers nothing there is no way. -/
theorem ways_eq_zero {positions : List (List (List α))} (h : [] ∈ positions) :
    ways positions = 0 := by
  induction positions with
  | nil => cases h
  | cons alternatives positions ih =>
    rw [ways_cons]
    rcases List.mem_cons.1 h with rfl | hlater
    · exact Nat.zero_mul _
    · rw [ih hlater, Nat.mul_zero]

/-- One alternative of each position, by its place among the alternatives. -/
inductive Choice : List (List (List α)) → Type where
  | nil : Choice []
  | cons {alternatives : List (List α)} {positions : List (List (List α))}
      (i : Fin alternatives.length) (later : Choice positions) : Choice (alternatives :: positions)

namespace Choice

variable {positions : List (List (List α))}

/-- The places that are chosen, as digits of one number, the last position being the lowest. -/
def number : {positions : List (List (List α))} → Choice positions → Nat
  | _, .nil => 0
  | _ :: positions, .cons i later => i * ways positions + later.number

/-- The chosen alternatives, joined in the order of their positions. -/
def joined : {positions : List (List (List α))} → Choice positions → List α
  | _, .nil => []
  | alternatives :: _, .cons i later => alternatives[i] ++ later.joined

theorem number_lt (choice : Choice positions) : choice.number < ways positions := by
  induction choice with
  | nil => exact Nat.one_pos
  | @cons alternatives positions i later ih =>
    rw [number, ways_cons]
    calc i * ways positions + later.number
        < i * ways positions + ways positions := Nat.add_lt_add_left ih _
      _ = (i + 1) * ways positions := (Nat.succ_mul _ _).symm
      _ ≤ alternatives.length * ways positions := Nat.mul_le_mul_right _ i.isLt

/-- Different choices have different numbers. -/
theorem number_injective {choice choice' : Choice positions} (h : choice.number = choice'.number) :
    choice = choice' := by
  induction choice with
  | nil => cases choice'; rfl
  | @cons alternatives positions i later ih =>
    cases choice' with
    | cons i' later' =>
      have hpos : 0 < ways positions := Nat.zero_lt_of_lt later.number_lt
      rw [number, number, Nat.mul_comm, Nat.mul_comm i'.val] at h
      have hfirst : i.val = i'.val := by
        have := congrArg (· / ways positions) h
        simpa only [Nat.mul_add_div hpos, Nat.div_eq_of_lt later.number_lt,
          Nat.div_eq_of_lt later'.number_lt, Nat.add_zero] using this
      rw [hfirst] at h
      rw [Fin.ext hfirst, ih (Nat.add_left_cancel h)]

/-- Every number below the number of ways is that of a choice. -/
theorem exists_number_eq {k : Nat} (h : k < ways positions) :
    ∃ choice : Choice positions, choice.number = k := by
  induction positions generalizing k with
  | nil =>
    rw [ways_nil, Nat.lt_one_iff] at h
    exact ⟨.nil, h.symm⟩
  | cons alternatives positions ih =>
    rw [ways_cons] at h
    have hpos : 0 < ways positions := Nat.pos_of_mul_pos_left (Nat.zero_lt_of_lt h)
    obtain ⟨later, hlater⟩ := ih (Nat.mod_lt k hpos)
    refine ⟨.cons ⟨k / ways positions, (Nat.div_lt_iff_lt_mul hpos).2 h⟩ later, ?_⟩
    rw [number, hlater, Nat.mul_comm]
    exact Nat.div_add_mod k _

end Choice

/-! ## The order -/

theorem length_product_eq_ways (positions : List (List (List α))) :
    (product positions).length = ways positions := length_product positions

/-- Each beginning takes as many places as there are continuations. -/
theorem getElem?_extendAll {xs ys : List (List α)} {i j : Nat} {x y : List α}
    (hx : xs[i]? = some x) (hy : ys[j]? = some y) :
    (extendAll xs ys)[i * ys.length + j]? = some (x ++ y) := by
  have hj : j < ys.length := (List.getElem?_eq_some_iff.1 hy).1
  induction xs generalizing i with
  | nil => cases hx
  | cons first xs ih =>
    rw [extendAll, List.flatMap_cons]
    cases i with
    | zero =>
      cases hx
      rw [Nat.zero_mul, Nat.zero_add, List.getElem?_append_left (by simpa using hj)]
      simp [hy]
    | succ i =>
      have hplace : (i + 1) * ys.length + j = ys.length + (i * ys.length + j) := by
        rw [Nat.succ_mul, Nat.add_assoc, Nat.add_left_comm]
      rw [hplace, List.getElem?_append_right (by simp), List.length_map, Nat.add_sub_cancel_left]
      exact ih hx

/-- A choice stands in the product at the place that is its number. -/
theorem getElem?_product {positions : List (List (List α))} (choice : Choice positions) :
    (product positions)[choice.number]? = some choice.joined := by
  induction choice with
  | nil => rfl
  | @cons alternatives positions i later ih =>
    rw [product_cons_eq_extendAll, Choice.number, Choice.joined, ← length_product_eq_ways]
    exact getElem?_extendAll (List.getElem?_eq_getElem i.isLt) ih

/-- The product lists the joined choices in the order of their numbers, one entry for each choice;
and a product of two runs of positions is the product of the two, in that order. -/
theorem product_is_ordered (positions : List (List (List α))) :
    (product positions).length = ways positions ∧
    (product ([] : List (List (List α)))).length = 1 ∧
    ([] ∈ positions → (product positions).length = 0) ∧
    (∀ choice : Choice positions,
      (product positions)[choice.number]? = some choice.joined) ∧
    (∀ k : Fin (product positions).length, ∃! choice : Choice positions, choice.number = k) ∧
    (∀ more, product (positions ++ more) =
      (product positions).flatMap fun x => (product more).map fun y => x ++ y) := by
  rw [length_product_eq_ways]
  refine ⟨rfl, rfl, ways_eq_zero, getElem?_product, fun k => ?_, product_append positions⟩
  obtain ⟨choice, hchoice⟩ := Choice.exists_number_eq k.isLt
  exact ⟨choice, hchoice, fun other h => Choice.number_injective (h.trans hchoice.symm)⟩

/-- A position without alternatives leaves nothing; an alternative without symbols is counted like
any other, so that the last of six entries joins a vanishing one with two symbols. -/
theorem product_is_ordered_vanishing :
    (product [[["a"], []], []]).length = 0 ∧
    (product [[["a"], []], [["b"], [], ["c", "d"]]])[1 * 3 + 2]? = some ["c", "d"] := by
  refine ⟨(product_is_ordered [[["a"], []], []]).2.2.1 (by decide), ?_⟩
  have hlast := (product_is_ordered [[["a"], []], [["b"], [], ["c", "d"]]]).2.2.2.1
    (.cons (1 : Fin 2) (.cons (2 : Fin 3) .nil))
  exact hlast

end EditableGrammar
