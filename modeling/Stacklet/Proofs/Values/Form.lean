import Stacklet.Proofs.Effects
import Stacklet.Proofs.Simulation.Frame
import Stacklet.Proofs.Typing.Completeness
/-!
# Forms of values

What is known of a value when the type of an expression or of a variable is known.

* `Value.HasTy`: single values of a type. `Value.IsOf`: those, and the zero that stands for what was
  never stored.
* `Shape`: whether a value is a single one or an array, and whether it was stored. `Value.Fits`: the
  values of a type with a shape. `Form`: both together.
* `Fits.loadAt`, `Fits.storeAt`, `Mixes.negate`, `Mixes.apply`: the operations of the machine give
  values of the types that typing finds.
-/

namespace Stacklet

namespace Value

/-- A single value of a type. Where a `double` is expected, integers are as good. -/
def HasTy (ty : Ty) : Value → Prop
  | .int _ => ty ≠ .string
  | .double _ => ty = .double
  | .string _ => ty = .string
  | .absent | .array _ => False

instance (ty : Ty) : DecidablePred (HasTy ty)
  | .int _ => inferInstanceAs (Decidable (ty ≠ .string))
  | .double _ => inferInstanceAs (Decidable (ty = .double))
  | .string _ => inferInstanceAs (Decidable (ty = .string))
  | .absent | .array _ => inferInstanceAs (Decidable False)

/-- A single value of a type, or the zero that stands for one that was never stored. -/
def IsOf (ty : Ty) (v : Value) : Prop := v.HasTy ty ∨ v = .zero

/-- An array of single values of a type. -/
def IsArrayOf (ty : Ty) (v : Value) : Prop :=
  ∃ items : Array Value, v = .array items ∧ ∀ w ∈ items, w.IsOf ty

/-- Single values of a type, arrays of them, arrays of such arrays and so on. -/
inductive Mixes (ty : Ty) : Value → Prop
  | single (v : Value) : v.IsOf ty → Mixes ty v
  | array (items : Array Value) : (∀ v ∈ items, Mixes ty v) → Mixes ty (.array items)

end Value

/-- What is known of a value besides its type. -/
inductive Shape where
  /-- It is a single value of the type. -/
  | stored
  /-- It is a single value, or the zero of one that was never stored. -/
  | single
  /-- It is an array. -/
  | whole
  /-- It is an array, or the zero of one that was never set. -/
  | unset
  /-- It is any mixture of single values and arrays. -/
  | mixed
  deriving DecidableEq, Repr

namespace Shape

/-- Whether all values of one shape are of another one. -/
def within : Shape → Shape → Bool
  | _, mixed | stored, single | whole, unset => true
  | a, b => a == b

/-- What is known of the items. Characters of a string are strings. -/
def item : Shape → Shape
  | stored => stored
  | mixed => mixed
  | _ => single

theorem within_mixed (a : Shape) : a.within mixed := by cases a <;> rfl

end Shape

/-- The values of a type with a shape. -/
def Value.Fits (ty : Ty) : Shape → Value → Prop
  | .stored, v => v.HasTy ty
  | .single, v => v.IsOf ty
  | .whole, v => v.IsArrayOf ty
  | .unset, v => v = .zero ∨ v.IsArrayOf ty
  | .mixed, v => v.Mixes ty

/-- A type and a shape. -/
structure Form where
  ty : Ty
  shape : Shape
  deriving DecidableEq, Repr

namespace Form

/-- The values of a form. -/
def Has (f : Form) (v : Value) : Prop := v.Fits f.ty f.shape

/-- Whether all values of a form are of a shape. Only zeros that stand for strings are not of their
type. -/
def within (f : Form) (a : Shape) : Bool :=
  f.shape.within a || f.ty != .string && f.shape == .single && a == .stored

theorem within_mixed (f : Form) : f.within .mixed :=
  Bool.or_eq_true_iff.mpr (.inl f.shape.within_mixed)

end Form

namespace Value

variable {ty ty' : Ty} {a b : Shape} {v w : Value}

theorem hasTy_ofBool (c : Bool) (h : ty ≠ .string) : (ofBool c).HasTy ty := h

theorem isOf_zero (ty : Ty) : zero.IsOf ty := .inr rfl

theorem IsOf.hasTy (h : v.IsOf ty) (hty : ty ≠ .string) : v.HasTy ty := by
  rcases h with h | rfl
  · exact h
  · exact hty

theorem HasTy.of_accepts (h : v.HasTy ty') (hty : ty.accepts ty') : v.HasTy ty := by
  rcases accepts_iff.mp hty with rfl | ⟨rfl, rfl⟩
  · exact h
  · cases v with
    | int => exact Ty.noConfusion
    | double | string => cases h
    | absent | array => exact h

theorem IsOf.of_accepts (h : v.IsOf ty') (hty : ty.accepts ty') : v.IsOf ty :=
  h.imp_left (·.of_accepts hty)

theorem Mixes.of_accepts (h : v.Mixes ty') (hty : ty.accepts ty') : v.Mixes ty := by
  induction h with
  | single v h => exact .single v (h.of_accepts hty)
  | array items _ ih => exact .array items ih

theorem IsArrayOf.of_accepts (h : v.IsArrayOf ty') (hty : ty.accepts ty') : v.IsArrayOf ty := by
  obtain ⟨items, rfl, hitems⟩ := h
  exact ⟨items, rfl, fun w hw => (hitems w hw).of_accepts hty⟩

theorem IsArrayOf.mixes (h : v.IsArrayOf ty) : v.Mixes ty := by
  obtain ⟨items, rfl, hitems⟩ := h
  exact .array items fun w hw => .single w (hitems w hw)

theorem isArrayOf_zeros (ty : Ty) (n : Nat) : (zeros n).IsArrayOf ty := by
  refine ⟨_, rfl, fun w hw => ?_⟩
  rw [(Array.mem_replicate.mp hw).2]
  exact isOf_zero ty

namespace Fits

theorem mixes (h : v.Fits ty a) : v.Mixes ty := by
  cases a with
  | stored => exact .single v (.inl h)
  | single => exact .single v h
  | whole => exact IsArrayOf.mixes h
  | unset =>
    rcases h with rfl | h
    · exact .single _ (isOf_zero ty)
    · exact h.mixes
  | mixed => exact h

theorem of_within (h : v.Fits ty a) (hab : a.within b) : v.Fits ty b := by
  cases b with
  | mixed => exact h.mixes
  | single =>
    cases a with
    | stored => exact .inl h
    | single => exact h
    | whole | unset | mixed => cases hab
  | unset =>
    cases a with
    | whole => exact .inr h
    | unset => exact h
    | stored | single | mixed => cases hab
  | stored | whole => cases a <;> first | exact h | cases hab

theorem of_accepts (h : v.Fits ty' a) (hty : ty.accepts ty') : v.Fits ty a := by
  cases a with
  | stored => exact HasTy.of_accepts h hty
  | single => exact IsOf.of_accepts h hty
  | whole => exact IsArrayOf.of_accepts h hty
  | unset => exact h.imp_right (IsArrayOf.of_accepts · hty)
  | mixed => exact Mixes.of_accepts h hty

theorem of_hasTy (h : v.HasTy ty) (ha : Shape.stored.within a) : v.Fits ty a :=
  of_within (a := .stored) h ha

end Fits

theorem fits_zero (h : Shape.single.within a ∨ Shape.unset.within a) : zero.Fits ty a := by
  rcases h with h | h
  · exact .of_within (a := .single) (isOf_zero ty) h
  · exact .of_within (a := .unset) (.inl rfl) h

/-! ## Items -/

theorem Fits.of_mem {items : Array Value} (h : (array items).Fits ty a) (hv : v ∈ items) :
    v.Fits ty a.item := by
  have hwhole (h : (array items).IsArrayOf ty) : v.IsOf ty := by
    obtain ⟨_, heq, hitems⟩ := h
    cases heq
    exact hitems v hv
  cases a with
  | stored => cases h
  | single => rcases h with h | h <;> cases h
  | whole => exact hwhole h
  | unset =>
    rcases h with h | h
    · cases h
    · exact hwhole h
  | mixed =>
    cases h with
    | single _ h => rcases h with h | h <;> cases h
    | array _ hitems => exact hitems v hv

theorem fits_item_zero (ha : a ≠ .stored) : zero.Fits ty a.item :=
  fits_zero (.inl (by cases a <;> first | rfl | exact absurd rfl ha))

/-- **What is loaded at an index** is of the type of the items. -/
theorem Fits.loadAt (h : v.Fits ty a) (i : Int64) : (v.loadAt i).Fits ty a.item := by
  have hzero (hty : a = .stored → ty ≠ .string) : zero.Fits ty a.item := by
    by_cases ha : a = .stored
    · rw [ha]
      exact hty ha
    · exact fits_item_zero ha
  cases v with
  | absent => exact hzero fun ha => by subst ha; cases h
  | int => exact hzero fun ha => by subst ha; exact h
  | double =>
    refine hzero fun ha => ?_
    subst ha
    obtain rfl : ty = .double := h
    exact Ty.noConfusion
  | string s =>
    have hty : ty = .string := by
      cases h.mixes with
      | single _ h => exact h.resolve_right nofun
    have hs (s : String) : (Value.string s).Fits ty a.item :=
      .of_hasTy (a := a.item) hty (by cases a <;> rfl)
    rw [Value.loadAt]
    split <;> exact hs _
  | array items =>
    rw [Value.loadAt]
    cases hitem : (position? i).bind fun n => items[n]? with
    | none => exact hzero fun ha => by subst ha; cases h
    | some w =>
      obtain ⟨n, -, hn⟩ := Option.bind_eq_some_iff.mp hitem
      exact h.of_mem (Array.mem_of_getElem? hn)

theorem mem_put {items : Array Value} {n : Nat} (h : w ∈ put items n v) :
    w = v ∨ w = zero ∨ w ∈ items := by
  unfold put at h
  split at h
  · rw [Array.set!_eq_setIfInBounds] at h
    exact (Array.mem_or_eq_of_mem_setIfInBounds h).symm.imp_right .inr
  · rw [Array.mem_push, Array.mem_append, Array.mem_replicate] at h
    rcases h with (h | ⟨-, h⟩) | h
    · exact .inr (.inr h)
    · exact .inr (.inl h)
    · exact .inl h

/-- **What a variable holds behind a store at an index** is an array of old items, of zeros and of
the stored value. -/
theorem exists_storeAt (held : Option Value) (i : Int64) (v : Value) :
    ∃ items, Value.storeAt held i v = .array items ∧
    ∀ w ∈ items, w = v ∨ w = zero ∨ ∃ old, held = some (.array old) ∧ w ∈ old := by
  unfold Value.storeAt
  split
  · exact ⟨_, rfl, fun w hw => (mem_put hw).imp_right (Or.imp_right fun h => ⟨_, rfl, h⟩)⟩
  · exact ⟨_, rfl, fun w hw => .inr (.inr ⟨_, rfl, hw⟩)⟩
  · refine ⟨_, rfl, fun w hw => (mem_put hw).imp_right (Or.imp_right fun h => ?_)⟩
    exact absurd h (Array.not_mem_empty w)
  · exact ⟨_, rfl, fun w hw => absurd hw (Array.not_mem_empty w)⟩

theorem Fits.storeAt {held : Option Value} (h : (held.getD zero).Fits ty a)
    (ha : Shape.whole.within a) (hv : v.Fits ty a.item) (i : Int64) :
    (Value.storeAt held i v).Fits ty a := by
  obtain ⟨items, heq, hitems⟩ := exists_storeAt held i v
  have hitem (u : Value) (hu : u ∈ items) : u.Fits ty a.item := by
    rcases hitems u hu with rfl | rfl | ⟨old, rfl, hold⟩
    · exact hv
    · exact fits_item_zero (by rintro rfl; cases ha)
    · exact h.of_mem hold
  rw [heq]
  cases a with
  | stored | single => cases ha
  | whole => exact ⟨items, rfl, hitem⟩
  | unset => exact .inr ⟨items, rfl, hitem⟩
  | mixed => exact .array items hitem

/-! ## Operators -/

theorem Mixes.ty_of_isDouble (h : v.Mixes ty) (hv : v.isDouble) : ty = .double := by
  cases h with
  | single v h =>
    cases v with
    | double => exact h.resolve_right nofun
    | _ => cases hv
  | array => cases hv

theorem Mixes.ty_of_isString (h : v.Mixes ty) (hv : v.isString) : ty = .string := by
  cases h with
  | single v h =>
    cases v with
    | string => exact h.resolve_right nofun
    | _ => cases hv
  | array => cases hv

theorem Mixes.toInt_eq_zero (h : v.Mixes .string) (hv : ¬ v.isString) : v.toInt = 0 := by
  cases h with
  | single v h =>
    rcases h with h | rfl
    · cases v with
      | int => exact absurd rfl h
      | string => exact absurd rfl hv
      | double | absent | array => cases h
    · rfl
  | array => rfl

theorem Mixes.negate (h : v.Mixes ty) (hty : ty.isNumeric) : v.negate.HasTy ty := by
  have hne : ty ≠ .string := by
    rintro rfl
    cases hty
  cases v with
  | double => exact h.ty_of_isDouble rfl
  | _ => exact hne

theorem Mixes.arithmetic {l r : Ty} (hl : v.Mixes l) (hr : w.Mixes r) (hty : ty ≠ .string)
    (hdouble : l = .double ∨ r = .double → ty = .double) (f : Float → Float → Float)
    (g : Int64 → Int64 → Int64) :
    (BinOp.arithmetic f g v w).HasTy ty := by
  unfold BinOp.arithmetic
  split
  · next h =>
    rcases Bool.or_eq_true_iff.mp h with h | h
    · exact hdouble (.inl (hl.ty_of_isDouble h))
    · exact hdouble (.inr (hr.ty_of_isDouble h))
  · exact hty

theorem Mixes.apply_of_numeric {l r : Ty} (hv : v.Mixes l) (hw : w.Mixes r) (hl : l.isNumeric)
    (hr : r.isNumeric) (hty : ty ≠ .string) (hdouble : l = .double ∨ r = .double → ty = .double)
    (op : BinOp) : (op.apply v w).HasTy ty := by
  have hstring : ¬ (v.isString || w.isString) := by
    rw [Bool.or_eq_true]
    rintro (h | h)
    · rw [hv.ty_of_isString h] at hl
      cases hl
    · rw [hw.ty_of_isString h] at hr
      cases hr
  cases op with
  | add =>
    rw [BinOp.apply, if_neg hstring]
    exact hv.arithmetic hw hty hdouble _ _
  | sub | mul | div => exact hv.arithmetic hw hty hdouble _ _
  | mod => exact hty
  | eq | ne | lt | gt | le | ge => exact hasTy_ofBool _ hty

/-- Sums of strings join them. If none of them was ever stored, zeros are added. -/
theorem Mixes.append (hv : v.Mixes .string) (hw : w.Mixes .string) :
    (BinOp.add.apply v w).HasTy .string ∨ (¬ v.isString ∧ ¬ w.isString) ∧
      BinOp.add.apply v w = .zero := by
  rw [BinOp.apply]
  split
  · exact .inl rfl
  · next h =>
    rw [Bool.or_eq_true, not_or] at h
    have hdouble : ¬ (v.isDouble || w.isDouble) := by
      rw [Bool.or_eq_true]
      rintro (h | h)
      · cases hv.ty_of_isDouble h
      · cases hw.ty_of_isDouble h
    rw [BinOp.arithmetic, if_neg hdouble, hv.toInt_eq_zero h.1, hw.toInt_eq_zero h.2]
    exact .inr ⟨h, rfl⟩

theorem hasTy_compare {op : String} (h : Comparison op) (v w : Value) :
    ((BinOp.ofText op).apply v w).HasTy .int := by
  have hop : BinOp.ofText op = .lt ∨ BinOp.ofText op = .le ∨ BinOp.ofText op = .gt ∨
      BinOp.ofText op = .ge ∨ BinOp.ofText op = .eq ∨ BinOp.ofText op = .ne := by
    simp only [Comparison, List.mem_cons, List.not_mem_nil, or_false] at h
    rcases h with rfl | rfl | rfl | rfl | rfl | rfl <;> decide
  rcases hop with hop | hop | hop | hop | hop | hop <;> rw [hop] <;>
    exact hasTy_ofBool _ Ty.noConfusion

theorem HasTy.isString (h : v.HasTy .string) : v.isString := by
  cases v with
  | int => exact absurd rfl h
  | string => rfl
  | double | absent | array => cases h

/-- **The result of an operator** is a single value of the type that typing finds, and was stored if
one of the operands was. -/
theorem Fits.apply {op : String} {l r : Ty} (hv : v.Fits l a) (hw : w.Fits r b)
    (h : binaryTy op l r = .ok ty) :
    ((BinOp.ofText op).apply v w).Fits ty (if a = .stored ∨ b = .stored then .stored
      else .single) := by
  have stored {u : Value} (hu : u.HasTy ty) :
      u.Fits ty (if a = .stored ∨ b = .stored then .stored else .single) :=
    .of_hasTy hu (by split <;> rfl)
  cases binaryTy_eq_ok_iff.mp h with
  | compare hop => exact stored (hasTy_compare hop v w)
  | compareStrings hop =>
    exact stored (hasTy_compare (by rcases hop with rfl | rfl <;> simp [Comparison]) v w)
  | concatenate =>
    rcases hv.mixes.append hw.mixes with h | ⟨hnone, hzero⟩
    · exact stored h
    · rw [if_neg]
      · exact .inr hzero
      · rintro (rfl | rfl)
        · exact hnone.1 (HasTy.isString hv)
        · exact hnone.2 (HasTy.isString hw)
  | ints =>
    exact stored (hv.mixes.apply_of_numeric hw.mixes rfl rfl Ty.noConfusion
      (by rintro (h | h) <;> cases h) _)
  | doubles _ hl hr =>
    exact stored (hv.mixes.apply_of_numeric hw.mixes (isNumeric_iff.mpr hl) (isNumeric_iff.mpr hr)
      Ty.noConfusion (fun _ => rfl) _)

end Value

theorem Form.Has.fits {f : Form} {v : Value} {ty : Ty} {a : Shape} (h : f.Has v) (hf : f.within a)
    (hty : ty.accepts f.ty) : v.Fits ty a := by
  have hfits : v.Fits f.ty a := by
    rcases Bool.or_eq_true_iff.mp hf with hf | hf
    · exact Value.Fits.of_within h hf
    · simp only [Bool.and_eq_true, bne_iff_ne, beq_iff_eq] at hf
      obtain ⟨⟨hne, hshape⟩, rfl⟩ := hf
      rw [Form.Has, hshape] at h
      exact Value.IsOf.hasTy h hne
  exact hfits.of_accepts hty

end Stacklet
