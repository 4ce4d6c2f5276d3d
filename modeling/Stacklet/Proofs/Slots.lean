import Mathlib.Data.List.Basic
import Stacklet.Proofs.Labels
import Stacklet.Proofs.Shape
/-!
# Slots of variables

Slots are texts. What they are made of can be read off again: two slots with the same text are the
same (`Slot.text_injective`), as long as names have no `#` in them.
-/

namespace Stacklet

variable {j k : Nat} {x : String}

theorem Number.notMem_decimal {c : Char} (hc : c.isDigit = false) (hsign : c ≠ '-') (i : Int) :
    c ∉ (decimal i).toList := by
  have hdigits (n : Nat) : c ∉ digits n := fun h =>
    Bool.false_ne_true (hc.symm.trans (Nat.isDigit_of_mem_toDigits (by decide) (by decide) h))
  cases i with
  | ofNat n => simpa [decimal] using hdigits n
  | negSucc n => simpa [decimal, hsign] using hdigits (n + 1)

/-- A slot: the name of a variable, a name with a number, or a number without a name. -/
inductive Slot where
  | plain (x : String)
  | numbered (x : String) (k : Nat)
  | hidden (k : Nat)
  deriving DecidableEq

namespace Slot

def text : Slot → String
  | plain x => x
  | numbered x k => x ++ "#" ++ Number.decimal k
  | hidden k => "#t" ++ Number.decimal k

/-- The name in a slot has no `#`. -/
def Named : Slot → Prop
  | plain x | numbered x _ => IsName x
  | hidden _ => True

theorem toList_numbered (x : String) (k : Nat) :
    (numbered x k).text.toList = x.toList ++ '#' :: (Number.decimal k).toList := by
  simp [text]

theorem toList_hidden (k : Nat) :
    (hidden k).text.toList = '#' :: 't' :: (Number.decimal k).toList := by
  simp [text]

theorem notMem_decimal_sign (k : Nat) : '#' ∉ (Number.decimal k).toList :=
  Number.notMem_decimal rfl (by decide) k

theorem plain_ne_numbered {y : String} (hx : IsName x) : (plain x).text ≠ (numbered y k).text := by
  intro h
  have hmem : '#' ∈ (numbered y k).text.toList := by simp [toList_numbered]
  rw [← h] at hmem
  exact hx hmem

theorem plain_ne_hidden (hx : IsName x) : (plain x).text ≠ (hidden k).text := by
  intro h
  have hmem : '#' ∈ (hidden k).text.toList := by simp [toList_hidden]
  rw [← h] at hmem
  exact hx hmem

/-- Behind the sign a numbered slot has a digit and a hidden one has none. -/
theorem numbered_ne_hidden (hx : IsName x) : (numbered x j).text ≠ (hidden k).text := by
  intro h
  have hlist := congrArg String.toList h
  rw [toList_numbered, toList_hidden] at hlist
  have hparts : x.toList = [] ∧ '#' = '#' ∧
      (Number.decimal j).toList = 't' :: (Number.decimal k).toList :=
    (List.append_cons_inj_of_notMem hx (notMem_decimal_sign j)).mp hlist
  have hmem : 't' ∈ (Number.decimal j).toList := by simp [hparts.2.2]
  exact Number.notMem_decimal rfl (by decide) j hmem

theorem numbered_injective {y : String} (hx : IsName x)
    (h : (numbered x j).text = (numbered y k).text) :
    x = y ∧ j = k := by
  have hlist := congrArg String.toList h
  rw [toList_numbered, toList_numbered, List.append_cons_inj_of_notMem hx
    (notMem_decimal_sign j)] at hlist
  exact ⟨String.toList_injective hlist.1,
    Number.decimal_natCast_injective (String.toList_injective hlist.2.2)⟩

theorem hidden_injective (h : (hidden j).text = (hidden k).text) : j = k :=
  Number.decimal_natCast_injective ((String.append_right_inj "#t").mp h)

/-- **Slots with the same text** are the same. -/
theorem text_injective {a b : Slot} (ha : a.Named) (hb : b.Named) (h : a.text = b.text) :
    a = b := by
  cases a with
  | plain x =>
    cases b with
    | plain y => exact congrArg plain h
    | numbered y k => exact absurd h (plain_ne_numbered ha)
    | hidden k => exact absurd h (plain_ne_hidden ha)
  | numbered x j =>
    cases b with
    | plain y => exact absurd h.symm (plain_ne_numbered hb)
    | numbered y k =>
      obtain ⟨rfl, rfl⟩ := numbered_injective ha h
      rfl
    | hidden k => exact absurd h (numbered_ne_hidden ha)
  | hidden j =>
    cases b with
    | plain y => exact absurd h.symm (plain_ne_hidden hb)
    | numbered y k => exact absurd h.symm (numbered_ne_hidden hb)
    | hidden k => exact congrArg hidden (hidden_injective h)

end Slot

end Stacklet
