import Stacklet.Proofs.Simulation.Frame
/-!
# Storing and loading at an index

A store sees nothing of a variable but `Value.itemsOf` it: the items, if it holds an array, and no
items otherwise.

* `Value.storeAt_of_nonneg`, `Value.storeAt_of_neg`: what a store leaves, by these items.
* `Value.size_put`, `Value.getD_put`, `Value.loadAt_put`: the items behind a store.
* **`Locals.storeIndex_laws`**: what is loaded behind a store at an index that is not negative.
* **`Locals.storeIndex_neg_iff`**: a store at a negative index changes nothing exactly if the
  variable holds an array.
-/

namespace Stacklet

variable {i j : Int64}

namespace Value

/-- The items of the array that a variable holds; none if it holds no array. -/
def itemsOf : Option Value → Array Value
  | some (.array items) => items
  | _ => #[]

theorem itemsOf_of_forall_ne {held : Option Value} (h : ∀ items, held ≠ some (.array items)) :
    itemsOf held = #[] := by
  unfold itemsOf
  split
  · next items => exact absurd rfl (h items)
  · rfl

/-! ## Positions -/

theorem position?_of_nonneg (h : 0 ≤ i) : position? i = some i.toInt.toNat := if_pos h

theorem position?_of_neg (h : i < 0) : position? i = none := if_neg (Int64.not_le.mpr h)

theorem toNat_ne_of_ne (hi : 0 ≤ i) (hj : 0 ≤ j) (h : j ≠ i) : j.toInt.toNat ≠ i.toInt.toNat := by
  have hne : j.toInt ≠ i.toInt := fun heq => h (Int64.toInt_inj.mp heq)
  rw [Int64.le_iff_toInt_le, Int64.toInt_zero] at hi hj
  omega

/-! ## What a store leaves -/

theorem storeAt_of_nonneg (held : Option Value) (h : 0 ≤ i) (v : Value) :
    storeAt held i v = .array (put (itemsOf held) i.toInt.toNat v) := by
  unfold storeAt itemsOf
  rw [position?_of_nonneg h]
  split <;> simp_all

theorem storeAt_of_neg (held : Option Value) (h : i < 0) (v : Value) :
    storeAt held i v = .array (itemsOf held) := by
  unfold storeAt itemsOf
  rw [position?_of_neg h]
  split <;> simp_all

section Put

variable (items : Array Value) (n : Nat) (v : Value)

theorem size_put : (put items n v).size = max items.size (n + 1) := by
  unfold put
  split
  · rw [Array.size_set!]
    omega
  · rw [Array.size_push, Array.size_append, Array.size_replicate]
    omega

/-- Items that were not there before are zeros, which they were loaded as before. -/
theorem getD_put (k : Nat) :
    (put items n v)[k]?.getD zero = if k = n then v else items[k]?.getD zero := by
  unfold put
  split
  · next hn =>
    rw [Array.set!_eq_setIfInBounds, Array.getElem?_setIfInBounds]
    by_cases hk : k = n
    · simp [hk, hn]
    · simp [hk, Ne.symm hk]
  · next hn =>
    have hsize : (items ++ Array.replicate (n - items.size) zero).size = n := by
      rw [Array.size_append, Array.size_replicate]
      omega
    rw [Array.getElem?_push, hsize]
    by_cases hk : k = n
    · simp [hk]
    · rw [if_neg hk, if_neg hk, Array.getElem?_append, Array.getElem?_replicate]
      split
      · rfl
      · next hle =>
        rw [Array.getElem?_eq_none (Nat.le_of_not_lt hle)]
        split <;> rfl

end Put

theorem loadAt_array_of_nonneg (items : Array Value) (h : 0 ≤ j) :
    (array items).loadAt j = items[j.toInt.toNat]?.getD zero := by
  rw [loadAt, position?_of_nonneg h]
  rfl

theorem loadAt_array_of_neg (items : Array Value) (h : j < 0) : (array items).loadAt j = zero := by
  rw [loadAt, position?_of_neg h]
  rfl

/-- **Loading behind a store**: at the index the stored value, at every other one what was there. -/
theorem loadAt_put (items : Array Value) (hi : 0 ≤ i) (v : Value) (j : Int64) :
    (array (put items i.toInt.toNat v)).loadAt j = if j = i then v else (array items).loadAt j := by
  by_cases hj : 0 ≤ j
  · rw [loadAt_array_of_nonneg _ hj, loadAt_array_of_nonneg _ hj, getD_put]
    by_cases hji : j = i
    · rw [if_pos hji, if_pos (hji ▸ rfl)]
    · rw [if_neg hji, if_neg (toNat_ne_of_ne hi hj hji)]
  · rw [Int64.not_le] at hj
    have hji : j ≠ i := fun h => Int64.not_le.mpr hj (h ▸ hi)
    rw [loadAt_array_of_neg _ hj, loadAt_array_of_neg _ hj, if_neg hji]

theorem loadAt_empty (j : Int64) : (array #[]).loadAt j = zero := by
  by_cases hj : 0 ≤ j
  · rw [loadAt_array_of_nonneg _ hj]
    simp
  · exact loadAt_array_of_neg _ (Int64.not_le.mp hj)

theorem loadAt_out_of_range (items : Array Value) (h : j < 0 ∨ (items.size : Int) ≤ j.toInt) :
    (array items).loadAt j = zero := by
  by_cases hj : 0 ≤ j
  · have hsize : items.size ≤ j.toInt.toNat := by
      have := h.resolve_left (Int64.not_lt.mpr hj)
      omega
    rw [loadAt_array_of_nonneg _ hj, Array.getElem?_eq_none hsize]
    rfl
  · exact loadAt_array_of_neg _ (Int64.not_le.mp hj)

end Value

namespace Locals

open Value

theorem lookup_storeIndex_self (ls : Locals) (x : String) (i : Int64) (v : Value) :
    (ls.storeIndex x i v).lookup x = some (storeAt (ls.lookup x) i v) := by
  rw [storeIndex, lookup_alter, if_pos rfl]

theorem lookup_storeIndex_ne (ls : Locals) {x y : String} (h : y ≠ x) (i : Int64) (v : Value) :
    (ls.storeIndex x i v).lookup y = ls.lookup y := by
  rw [storeIndex, lookup_alter, if_neg h]

theorem load_eq_array_iff {ls : Locals} {x : String} {items : Array Value} :
    ls.load x = .array items ↔ ls.lookup x = some (.array items) := by
  unfold load zero
  cases ls.lookup x <;> simp

/-- **Stores and loads at an index.** Behind a store at an index that is not negative, the variable
holds an array. It is as long as before, or just long enough for the index if it was shorter or the
variable held no array. What is loaded from it at the index is the stored value. At every other
index it is what was loaded there before or, if the variable held no array, zero; it is always zero
at indices that are negative or behind the end. All other variables are as they were. -/
theorem storeIndex_laws (ls : Locals) (x : String) (v : Value) {i : Int64} (hi : 0 ≤ i) :
    ∃ items, (ls.storeIndex x i v).lookup x = some (.array items) ∧
      (∀ old, ls.lookup x = some (.array old) → items.size = max old.size (i.toInt.toNat + 1) ∧
        ∀ j, j ≠ i → ((ls.storeIndex x i v).load x).loadAt j = (ls.load x).loadAt j) ∧
      ((∀ old, ls.lookup x ≠ some (.array old)) → items.size = i.toInt.toNat + 1 ∧
        ∀ j, j ≠ i → ((ls.storeIndex x i v).load x).loadAt j = .int 0) ∧
      ((ls.storeIndex x i v).load x).loadAt i = v ∧
      (∀ j, j < 0 ∨ (items.size : Int) ≤ j.toInt →
        ((ls.storeIndex x i v).load x).loadAt j = .int 0) ∧
      ∀ y, y ≠ x → (ls.storeIndex x i v).lookup y = ls.lookup y := by
  have hheld : (ls.storeIndex x i v).lookup x =
      some (.array (put (itemsOf (ls.lookup x)) i.toInt.toNat v)) := by
    rw [lookup_storeIndex_self, storeAt_of_nonneg _ hi]
  have hload := load_eq_array_iff.mpr hheld
  refine ⟨_, hheld, fun old hold => ⟨?_, fun j hj => ?_⟩, fun hnone => ⟨?_, fun j hj => ?_⟩,
    ?_, fun j hj => ?_, fun y hy => lookup_storeIndex_ne ls hy i v⟩
  · rw [size_put, hold, itemsOf]
  · rw [hload, loadAt_put _ hi, if_neg hj, load_eq_array_iff.mpr hold, hold, itemsOf]
  · rw [size_put, itemsOf_of_forall_ne hnone]
    simp
  · rw [hload, loadAt_put _ hi, if_neg hj, itemsOf_of_forall_ne hnone]
    exact loadAt_empty j
  · rw [hload, loadAt_put _ hi, if_pos rfl]
  · rw [hload]
    exact loadAt_out_of_range _ hj

/-- A variable that is an array of one item, and another one. -/
def shortArray : Locals := [("n", .int 7), ("a", .array #[.int 4])]

/-- A store behind the end fills up with zeros, and a store at an index of a number makes it an
array. -/
theorem shortArray_storeIndex_laws : (0 : Int64) ≤ 2 ∧
    (∃ items, (shortArray.storeIndex "a" 2 (.string "s")).lookup "a" = some (.array items) ∧
      items.size = 3) ∧
    ((shortArray.storeIndex "a" 2 (.string "s")).load "a").loadAt 0 = .int 4 ∧
    ((shortArray.storeIndex "a" 2 (.string "s")).load "a").loadAt 2 = .string "s" ∧
    (∃ items, (shortArray.storeIndex "n" 2 (.string "s")).lookup "n" = some (.array items) ∧
      items.size = 3) ∧
    ((shortArray.storeIndex "n" 2 (.string "s")).load "n").loadAt 1 = .int 0 := by
  have hi : (0 : Int64) ≤ 2 := by decide
  obtain ⟨items, hheld, harray, -, hitem, -⟩ := storeIndex_laws shortArray "a" (.string "s") hi
  obtain ⟨items', hheld', -, hother, -⟩ := storeIndex_laws shortArray "n" (.string "s") hi
  obtain ⟨hsize, hloads⟩ := harray #[.int 4] rfl
  obtain ⟨hsize', hloads'⟩ := hother nofun
  exact ⟨hi, ⟨items, hheld, hsize⟩, hloads 0 (by decide), hitem, ⟨items', hheld', hsize'⟩,
    hloads' 1 (by decide)⟩

/-- **Stores at a negative index.** They change nothing exactly if the variable holds an array: then
everything is loaded as before. A variable that is not stored yet, or holds something else, becomes
an array without items. No other variable is changed. -/
theorem storeIndex_neg_iff (ls : Locals) (x : String) (v : Value) {i : Int64} (hi : i < 0) :
    ((∀ y, (ls.storeIndex x i v).load y = ls.load y) ↔ ∃ items, ls.lookup x = some (.array items)) ∧
    ((∀ items, ls.lookup x ≠ some (.array items)) → (ls.storeIndex x i v).load x = .array #[]) ∧
    ∀ y, y ≠ x → (ls.storeIndex x i v).load y = ls.load y := by
  have hheld : (ls.storeIndex x i v).load x = .array (itemsOf (ls.lookup x)) := by
    rw [load_eq_array_iff, lookup_storeIndex_self, storeAt_of_neg _ hi]
  have hother (y : String) (hy : y ≠ x) : (ls.storeIndex x i v).load y = ls.load y :=
    load_alter_ne ls _ hy
  refine ⟨⟨fun hall => ?_, fun ⟨items, hitems⟩ y => ?_⟩, fun hnone => ?_, hother⟩
  · exact ⟨_, load_eq_array_iff.mp ((hall x).symm.trans hheld)⟩
  · by_cases hy : y = x
    · rw [hy, hheld, hitems, itemsOf, load_eq_array_iff.mpr hitems]
    · exact hother y hy
  · rw [hheld, itemsOf_of_forall_ne hnone]

theorem shortArray_storeIndex_neg : (-1 : Int64) < 0 ∧
    (∀ y, (shortArray.storeIndex "a" (-1) (.int 1)).load y = shortArray.load y) ∧
    (shortArray.storeIndex "n" (-1) (.int 1)).load "n" = .array #[] := by
  have hi : (-1 : Int64) < 0 := by decide
  exact ⟨hi, (storeIndex_neg_iff shortArray "a" (.int 1) hi).1.mpr ⟨#[.int 4], rfl⟩,
    (storeIndex_neg_iff shortArray "n" (.int 1) hi).2.1 nofun⟩

/-- A store at a negative index loses the number, or the text, that a variable holds, and a variable
that was never stored is loaded as an array behind it. -/
theorem exists_value_lost : ∃ (ls : Locals) (i : Int64), i < 0 ∧
    (ls.load "n" = .int 5 ∧ ∀ v, (ls.storeIndex "n" i v).load "n" = .array #[]) ∧
    (ls.load "s" = .string "ab" ∧ ∀ v, (ls.storeIndex "s" i v).load "s" = .array #[]) ∧
    ls.load "unset" = .int 0 ∧ ∀ v, (ls.storeIndex "unset" i v).load "unset" = .array #[] :=
  ⟨[("n", .int 5), ("s", .string "ab")], -1, by decide, ⟨rfl, fun _ => rfl⟩, ⟨rfl, fun _ => rfl⟩,
    rfl, fun _ => rfl⟩

end Locals

end Stacklet
