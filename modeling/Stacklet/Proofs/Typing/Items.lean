import Stacklet.Proofs.Typing.Tandem
/-!
# Errors of single items

* `Tree.beforeItem`, `Tree.itemErrors`: the state in which an item of a program is checked, and the
  errors that are found in it. The errors of a program are those of its items in order
  (`Tree.typeErrors_eq_flatMap`).
* `Checker.State.Veiled`: two states of which the second knows of more undeclared names, and so
  reports less. `Checker.stable_veiled`: otherwise all checks of expressions and statements do the
  same in both.
* `Tree.itemErrors_eq_filter`: the errors of an item are those that a check of its own finds,
  without the undeclared names that were reported before.
* `Tree.itemErrors_withBody_eq_iff`: when the body of one function has an effect on the errors of
  another item.
-/

namespace Stacklet

open List

namespace TypeError

/-- The name that an error says is not declared. -/
def undeclaredName? : TypeError → Option String
  | undeclaredVariable x => some x
  | _ => none

theorem undeclaredName?_of_isLasting {e : TypeError} (h : e.isLasting = true) :
    e.undeclaredName? = none := by
  cases e <;> first | rfl | cases h

end TypeError

/-- Whether an error is hidden if the names `U` were reported before. -/
def Located.isHidden (U : List String) (e : Located TypeError) : Bool :=
  e.cause.undeclaredName?.any U.contains

theorem Located.isHidden_nil (e : Located TypeError) : e.isHidden [] = false := by
  unfold isHidden
  cases e.cause.undeclaredName? <;> rfl

namespace Checker

variable {α β : Type} {U : List String} {before before' : List (Located TypeError)} {s s' : State}

/-! ## States that know of more undeclared names -/

/-- In `s'` the names `U` count as reported. Behind `before'`, the errors of `s'` are those of `s`
behind `before` that are not hidden by these names. -/
structure State.Veiled (U : List String) (before before' : List (Located TypeError))
    (s s' : State) : Prop extends s.Alike s' where
  undeclared_iff : ∀ x, x ∈ s'.undeclared ↔ x ∈ s.undeclared ∨ x ∈ U
  errors_eq : ∃ new, s.errors.toList = before ++ new ∧
    s'.errors.toList = before' ++ new.filter fun e => !e.isHidden U

theorem State.Veiled.report (h : s.Veiled U before before' s') (loc : Loc) {e : TypeError}
    (he : e.isLasting = true) :
    (report loc e s).2.Veiled U before before' (report loc e s').2 := by
  obtain ⟨new, hnew, hnew'⟩ := h.errors_eq
  refine ⟨⟨h.scopes_eq, h.inFunction_eq, h.loopDepth_eq, h.returnType_eq⟩, h.undeclared_iff,
    new ++ [⟨loc, e⟩], ?_, ?_⟩
  · show (s.errors.push ⟨loc, e⟩).toList = _
    rw [Array.toList_push, hnew, append_assoc]
  · have hkept : Located.isHidden U ⟨loc, e⟩ = false := by
      rw [Located.isHidden, TypeError.undeclaredName?_of_isLasting he]
      rfl
    show (s'.errors.push ⟨loc, e⟩).toList = _
    rw [Array.toList_push, hnew', filter_append, append_assoc, filter_cons_of_pos (by simp [hkept]),
      filter_nil]

theorem State.Veiled.withScopes (h : s.Veiled U before before' s') (Γ : Scopes) :
    (s.withScopes Γ).Veiled U before before' (s'.withScopes Γ) :=
  ⟨⟨rfl, h.inFunction_eq, h.loopDepth_eq, h.returnType_eq⟩, h.undeclared_iff, h.errors_eq⟩

/-- Where the second state knows of a name already, the error of the first one is hidden. -/
theorem State.Veiled.note (h : s.Veiled U before before' s') (loc : Loc) (x : String) :
    (s.note loc x).Veiled U before before' (s'.note loc x) := by
  obtain ⟨new, hnew, hnew'⟩ := h.errors_eq
  have hiff := h.undeclared_iff x
  unfold State.note
  simp only [contains_iff_mem]
  by_cases hx : x ∈ s.undeclared
  · rw [if_pos hx, if_pos (hiff.mpr (.inl hx))]
    exact h
  · have hpushed : (s.errors.push ⟨loc, .undeclaredVariable x⟩).toList =
        before ++ (new ++ [⟨loc, .undeclaredVariable x⟩]) := by
      rw [Array.toList_push, hnew, append_assoc]
    rw [if_neg hx]
    by_cases hU : x ∈ U
    · rw [if_pos (hiff.mpr (.inr hU))]
      refine ⟨⟨h.scopes_eq, h.inFunction_eq, h.loopDepth_eq, h.returnType_eq⟩, fun y => ?_, _,
        hpushed, ?_⟩
      · rw [h.undeclared_iff, mem_cons]
        constructor
        · rintro (hy | hy)
          · exact .inl (.inr hy)
          · exact .inr hy
        · rintro ((rfl | hy) | hy)
          · exact .inr hU
          · exact .inl hy
          · exact .inr hy
      · simp [hnew', Located.isHidden, TypeError.undeclaredName?, hU]
    · have hx' : x ∉ s'.undeclared := fun hmem => (hiff.mp hmem).elim hx hU
      rw [if_neg hx']
      refine ⟨⟨h.scopes_eq, h.inFunction_eq, h.loopDepth_eq, h.returnType_eq⟩, fun y => ?_, _,
        hpushed, ?_⟩
      · rw [mem_cons, mem_cons, h.undeclared_iff, or_assoc]
      · simp [hnew', Located.isHidden, TypeError.undeclaredName?, hU]

theorem stable_veiled : Stable Eq (State.Veiled U before before') where
  alike h := h.toAlike
  withScopes h Γ := h.withScopes Γ
  withDepth h n :=
    ⟨⟨h.scopes_eq, h.inFunction_eq, rfl, h.returnType_eq⟩, h.undeclared_iff, h.errors_eq⟩
  report := by
    rintro s s' loc _ e h rfl he
    exact h.report loc he
  note := by
    rintro s s' loc _ h rfl x
    exact h.note loc x

/-! ## Items -/

theorem forM_concat (f : β → Checker Unit) (l : List β) (b : β) (s : State) :
    (l ++ [b]).forM f s = f b (l.forM f s).2 := by
  induction l generalizing s with
  | nil => rfl
  | cons a l ih => exact ih (f a s).2

theorem State.Alike.symm (h : s.Alike s') : s'.Alike s :=
  ⟨h.scopes_eq.symm, h.inFunction_eq.symm, h.loopDepth_eq.symm, h.returnType_eq.symm⟩

theorem State.Alike.trans {s'' : State} (h : s.Alike s') (h' : s'.Alike s'') : s.Alike s'' :=
  ⟨h'.scopes_eq.trans h.scopes_eq, h'.inFunction_eq.trans h.inFunction_eq,
    h'.loopDepth_eq.trans h.loopDepth_eq, h'.returnType_eq.trans h.returnType_eq⟩

theorem function_apply (t : Tree) (s : State) :
    function t s = ((), { (insideFunction t (s.enterFunction (.ofFirst t.children))).2 with
      inFunction := false, returnType := .void }) := rfl

theorem scopes_insideFunction (t : Tree) (s : State) :
    (insideFunction t s).2.scopes = s.scopes := by
  refine @scopes_inScope _ (@Steady.bind _ _ _ _ inferInstance fun _ => ?_) s
  split <;> infer_instance

/-- A function leaves nothing behind but its errors and the undeclared names in it. -/
theorem function_alike (t t' : Tree) (h : s.Alike s') :
    (function t s).2.Alike (function t' s').2 := by
  have steady (t : Tree) (s : State) : (function t s).2.scopes = s.scopes ∧
      (function t s).2.loopDepth = s.loopDepth :=
    ⟨scopes_insideFunction t _,
      (Steady.extend (x := insideFunction t) (s.enterFunction _)).loopDepth_eq⟩
  refine ⟨?_, rfl, ?_, rfl⟩
  · rw [(steady t s).1, (steady t' s').1, h.scopes_eq]
  · rw [(steady t s).2, (steady t' s').2, h.loopDepth_eq]

theorem function_veiled (t : Tree) (h : s.Alike s') :
    (function t s).2.Veiled [] s.errors.toList s'.errors.toList (function t s').2 := by
  have henter : (s.enterFunction (.ofFirst t.children)).Veiled [] s.errors.toList s'.errors.toList
      (s'.enterFunction (.ofFirst t.children)) :=
    ⟨⟨h.scopes_eq, rfl, h.loopDepth_eq, rfl⟩, by simp [State.enterFunction],
      [], by simp [State.enterFunction]⟩
  have hafter := (stable_veiled.congruence.insideFunction_rel (.refl t) _ _ henter).2
  exact ⟨function_alike t t h, hafter.undeclared_iff, hafter.errors_eq⟩

/-- The state of a check that starts here and knows of no errors. -/
def State.fresh (s : State) : State := { s with errors := #[], undeclared := [] }

theorem State.Alike.fresh_eq (h : s.Alike s') : s'.fresh = s.fresh := by
  unfold State.fresh
  rw [h.scopes_eq, h.inFunction_eq, h.loopDepth_eq, h.returnType_eq]

/-- **An item is checked as by itself**, but names that were reported before a statement are not
reported again. -/
theorem item_veiled (c : Tree) (s : State) :
    (item c s.fresh).2.Veiled (if c.kind = .function then [] else s.undeclared) [] s.errors.toList
      (item c s).2 := by
  unfold item
  split
  · have halike : s.fresh.Alike s := ⟨rfl, rfl, rfl, rfl⟩
    exact function_veiled c halike
  · have hfresh : s.fresh.Veiled s.undeclared [] s.errors.toList s :=
      ⟨⟨rfl, rfl, rfl, rfl⟩, by simp [State.fresh], [], by simp [State.fresh]⟩
    exact (stable_veiled.congruence.statement_rel (.refl c) _ _ hfresh).2

theorem item_alike (c : Tree) (h : s.Alike s') : (item c s).2.Alike (item c s').2 := by
  have hs := (item_veiled c s).toAlike
  have hs' := (item_veiled c s').toAlike
  rw [h.fresh_eq] at hs'
  exact hs.symm.trans hs'

end Checker

/-! ## Programs -/

open Checker

namespace Tree

variable {t c f body : Tree} {j k : Nat}

/-- The check of a program up to its item with number `k`. -/
def checkTo (t : Tree) (k : Nat) : Checker Unit := do
  (t.children.filter fun c => c.kind == .function).forM declareFunction
  (t.children.take k).forM item

/-- The state in which the item with number `k` of a program is checked. -/
def beforeItem (t : Tree) (k : Nat) : Checker.State := (t.checkTo k .start).2

/-- The errors that are found in the item with number `k` of a program. -/
def itemErrors (t : Tree) (k : Nat) : List (Located TypeError) :=
  (t.beforeItem (k + 1)).errors.toList.drop (t.beforeItem k).errors.size

/-- The errors that a check of the item with number `k` finds if it starts with that item. -/
def freshErrors (t : Tree) (k : Nat) : List (Located TypeError) :=
  match t.children[k]? with
  | some c => (item c (t.beforeItem k).fresh).2.errors.toList
  | none => []

/-- The undeclared names that are not reported in the item with number `k`, as they were reported
before. In a function there are none. -/
def reportedBefore (t : Tree) (k : Nat) : List String :=
  match t.children[k]? with
  | some c => if c.kind = .function then [] else (t.beforeItem k).undeclared
  | none => []

/-- The undeclared names in the item with number `k`. -/
def undeclaredIn (t : Tree) (k : Nat) : List String :=
  (t.freshErrors k).filterMap fun e => e.cause.undeclaredName?

theorem beforeItem_succ (hc : t.children[k]? = some c) :
    t.beforeItem (k + 1) = (item c (t.beforeItem k)).2 := by
  rw [beforeItem, checkTo, take_add_one, hc, Option.toList_some, bind_apply, forM_concat]
  rfl

theorem beforeItem_of_none (hc : t.children[k]? = none) :
    t.beforeItem (k + 1) = t.beforeItem k := by
  rw [beforeItem, checkTo, take_add_one, hc, Option.toList_none, append_nil]
  rfl

theorem errors_beforeItem_succ (t : Tree) (k : Nat) :
    (t.beforeItem (k + 1)).errors.toList = (t.beforeItem k).errors.toList ++ t.itemErrors k := by
  have hgrow : (t.beforeItem k).errors.toList <+: (t.beforeItem (k + 1)).errors.toList := by
    cases hc : t.children[k]? with
    | none => exact (beforeItem_of_none hc).symm ▸ prefix_rfl
    | some c =>
      rw [beforeItem_succ hc]
      exact Grows.errors_grow _
  obtain ⟨new, hnew⟩ := hgrow
  rw [itemErrors, ← hnew, ← Array.length_toList, drop_left]

/-- **The errors of a program** are those of the declarations of its functions and those of its
items, in order. -/
theorem typeErrors_eq_flatMap (t : Tree) : t.typeErrors.toList =
    (t.beforeItem 0).errors.toList ++ (range t.children.length).flatMap t.itemErrors := by
  have hall (k : Nat) : (t.beforeItem k).errors.toList =
      (t.beforeItem 0).errors.toList ++ (range k).flatMap t.itemErrors := by
    induction k with
    | zero => simp
    | succ k ih => rw [errors_beforeItem_succ, ih, range_succ, flatMap_append, append_assoc]; simp
  have htypes : t.typeErrors = (t.beforeItem t.children.length).errors := by
    rw [beforeItem, checkTo, take_length]
    rfl
  rw [htypes, hall]

/-- **The errors of an item** are those that a check of its own finds and that were not reported
before. -/
theorem itemErrors_eq_filter (t : Tree) (k : Nat) :
    t.itemErrors k = (t.freshErrors k).filter fun e => !e.isHidden (t.reportedBefore k) := by
  unfold itemErrors freshErrors reportedBefore
  cases hc : t.children[k]? with
  | none =>
    rw [beforeItem_of_none hc, ← Array.length_toList, drop_length]
    rfl
  | some c =>
    obtain ⟨new, hnew, hnew'⟩ := (item_veiled c (t.beforeItem k)).errors_eq
    dsimp only
    rw [beforeItem_succ hc, hnew', ← Array.length_toList, drop_left, hnew, nil_append]

/-! ## Programs with another body of a function -/

/-- The program with another body for the function that is its item with number `j`. -/
def withBody (t : Tree) (j : Nat) (body : Tree) : Tree :=
  { t with children :=
    t.children.modify j fun f => { f with children := f.children.dropLast ++ [body] } }

theorem getElem?_withBody_self (hf : t.children[j]? = some f) :
    (t.withBody j body).children[j]? =
      some { f with children := f.children.dropLast ++ [body] } := by
  simp [withBody, hf]

theorem getElem?_withBody_ne (hk : k ≠ j) : (t.withBody j body).children[k]? = t.children[k]? := by
  simp [withBody, hk.symm]

theorem forM_filter_modify {p : Tree → Bool} {F : Tree → Checker Unit} {g : Tree → Tree}
    {l : List Tree} {a : Tree} (ha : l[j]? = some a) (hp : p (g a) = p a) (hF : F (g a) = F a) :
    ((l.modify j g).filter p).forM F = (l.filter p).forM F := by
  induction l generalizing j with
  | nil => cases ha
  | cons b l ih =>
    cases j with
    | zero =>
      cases ha
      rw [modify_zero_cons, filter_cons, filter_cons, hp]
      split
      · show (F (g a) >>= fun _ => (l.filter p).forM F) = (F a >>= fun _ => (l.filter p).forM F)
        rw [hF]
      · rfl
    | succ j =>
      rw [modify_succ_cons, filter_cons, filter_cons]
      split
      · exact congrArg (F b >>= fun _ => ·) (ih ha)
      · exact ih ha

section OtherBody

variable (hf : t.children[j]? = some f) (hold : (bodyOf? f.children).isSome)
  (hbody : body.kind = .block)

include hold hbody in
theorem ofChildren_withBody :
    Entry.ofChildren (f.children.dropLast ++ [body]) = .ofChildren f.children := by
  obtain ⟨old, hold⟩ := Option.isSome_iff_exists.mp hold
  obtain ⟨hlast, hkind⟩ := Option.filter_eq_some_iff.mp hold
  obtain ⟨ts, hts⟩ := getLast?_eq_some_iff.mp hlast
  have hof (b : Tree) (hb : b.kind = .block) : Entry.ofChildren (ts ++ [b]) =
      .function ((ts.head?.map Ty.ofTree).getD .unknown)
          ((parametersOf ts).map fun p => (parameterTy p, p.isArray)) := by
    have hparams : parametersOf (ts ++ [b]) = parametersOf ts := by simp [parametersOf, hb]
    have hfirst : Ty.ofFirst (ts ++ [b]) = (ts.head?.map Ty.ofTree).getD .unknown := by
      cases ts with
      | nil => simp [Ty.ofFirst, Ty.ofTree, hb]
      | cons => rfl
    rw [Entry.ofChildren, hparams, hfirst]
  rw [hts, dropLast_concat, hof body hbody, hof old (beq_iff_eq.mp hkind)]

include hf hold hbody

theorem beforeItem_withBody_zero : (t.withBody j body).beforeItem 0 = t.beforeItem 0 := by
  have hdeclare : ((t.withBody j body).children.filter fun c => c.kind == .function).forM
      declareFunction =
      (t.children.filter fun c => c.kind == .function).forM declareFunction := by
    refine forM_filter_modify hf rfl ?_
    unfold declareFunction
    rw [ofChildren_withBody hold hbody]
  rw [beforeItem, checkTo, hdeclare]
  rfl

theorem beforeItem_withBody_of_le (hk : k ≤ j) :
    (t.withBody j body).beforeItem k = t.beforeItem k := by
  induction k with
  | zero => exact beforeItem_withBody_zero hf hold hbody
  | succ k ih =>
    have hne : (t.withBody j body).children[k]? = t.children[k]? := getElem?_withBody_ne (by omega)
    cases hc : t.children[k]? with
    | none => rw [beforeItem_of_none hc, beforeItem_of_none (hne.trans hc), ih (by omega)]
    | some c => rw [beforeItem_succ hc, beforeItem_succ (hne.trans hc), ih (by omega)]

theorem beforeItem_withBody_alike (hfun : f.kind = .function) (k : Nat) :
    (t.beforeItem k).Alike ((t.withBody j body).beforeItem k) := by
  induction k with
  | zero =>
    rw [beforeItem_withBody_zero hf hold hbody]
    exact ⟨rfl, rfl, rfl, rfl⟩
  | succ k ih =>
    by_cases hk : k = j
    · subst hk
      rw [beforeItem_succ hf, beforeItem_succ (getElem?_withBody_self hf), item_eq_function hfun,
        item_eq_function (t := { f with children := _ }) hfun]
      exact function_alike _ _ ih
    · have hne : (t.withBody j body).children[k]? = t.children[k]? := getElem?_withBody_ne hk
      cases hc : t.children[k]? with
      | none =>
        rw [beforeItem_of_none hc, beforeItem_of_none (hne.trans hc)]
        exact ih
      | some c =>
        rw [beforeItem_succ hc, beforeItem_succ (hne.trans hc)]
        exact item_alike c ih

theorem freshErrors_withBody (hfun : f.kind = .function) (hk : k ≠ j) :
    (t.withBody j body).freshErrors k = t.freshErrors k := by
  unfold freshErrors
  rw [getElem?_withBody_ne hk, (beforeItem_withBody_alike hf hold hbody hfun k).fresh_eq]

theorem undeclared_withBody_iff (hfun : f.kind = .function) {m : Nat} (hm : j < m)
    (hc : t.children[m]? = some c) (hk : c.kind = .function) (i : Nat) : ∃ before before',
      (t.beforeItem (m + 1 + i)).Veiled [] before before'
        ((t.withBody j body).beforeItem (m + 1 + i)) := by
  induction i with
  | zero =>
    have hc' : (t.withBody j body).children[m]? = some c :=
      (getElem?_withBody_ne (by omega)).trans hc
    rw [Nat.add_zero, beforeItem_succ hc, beforeItem_succ hc', item_eq_function hk]
    exact ⟨_, _, function_veiled c (beforeItem_withBody_alike hf hold hbody hfun m)⟩
  | succ i ih =>
    obtain ⟨before, before', hveiled⟩ := ih
    have hne : (t.withBody j body).children[m + 1 + i]? = t.children[m + 1 + i]? :=
      getElem?_withBody_ne (by omega)
    rw [← Nat.add_assoc]
    cases hc : t.children[m + 1 + i]? with
    | none =>
      rw [beforeItem_of_none hc, beforeItem_of_none (hne.trans hc)]
      exact ⟨before, before', hveiled⟩
    | some c =>
      rw [beforeItem_succ hc, beforeItem_succ (hne.trans hc)]
      by_cases hk : c.kind = .function
      · rw [item_eq_function hk]
        exact ⟨_, _, function_veiled c hveiled.toAlike⟩
      · rw [item_eq_statement hk]
        exact ⟨before, before', (stable_veiled.congruence.statement_rel (.refl c) _ _ hveiled).2⟩

end OtherBody

theorem filter_isHidden_eq_iff {es : List (Located TypeError)} {U U' : List String} :
    (es.filter fun e => !e.isHidden U) = (es.filter fun e => !e.isHidden U') ↔
      ∀ x ∈ es.filterMap fun e => e.cause.undeclaredName?, x ∈ U ↔ x ∈ U' := by
  have hidden {e : Located TypeError} {x : String} (hx : e.cause.undeclaredName? = some x)
      (U : List String) :
      e.isHidden U = true ↔ x ∈ U := by
    rw [Located.isHidden, hx, Option.any_some, contains_iff_mem]
  constructor
  · intro h x hx
    obtain ⟨e, he, hx⟩ := mem_filterMap.mp hx
    have hmem : e ∈ es.filter (fun e => !e.isHidden U) ↔
      e ∈ es.filter (fun e => !e.isHidden U') := by rw [h]
    rw [mem_filter, mem_filter] at hmem
    rw [← hidden hx U, ← hidden hx U']
    simpa [he] using hmem
  · intro h
    refine filter_congr fun e he => ?_
    cases hx : e.cause.undeclaredName? with
    | none => rw [Located.isHidden, Located.isHidden, hx]; rfl
    | some x =>
      have hiff := h x (mem_filterMap.mpr ⟨e, he, hx⟩)
      rw [Bool.eq_iff_iff, Bool.not_eq_true', Bool.not_eq_true', ← Bool.not_eq_true,
        ← Bool.not_eq_true, hidden hx, hidden hx, hiff]

/-- **What the body of one function does to the errors of another item.** The errors of a program
are those of its items. Given another body for one function, the errors of another item stay the
same if and only if each undeclared name in that item was reported before in both programs or in
neither. This is so if the item stands before that function, is a function, or has a further
function between. -/
theorem itemErrors_withBody_eq_iff (hf : t.children[j]? = some f) (hfun : f.kind = .function)
    (hold : (bodyOf? f.children).isSome) (hbody : body.kind = .block) (hk : k ≠ j) :
    (∀ t : Tree, t.typeErrors.toList =
      (t.beforeItem 0).errors.toList ++ (List.range t.children.length).flatMap t.itemErrors) ∧
    (t.withBody j body).beforeItem 0 = t.beforeItem 0 ∧
    (t.itemErrors k = (t.withBody j body).itemErrors k ↔
      ∀ x ∈ t.undeclaredIn k, x ∈ t.reportedBefore k ↔ x ∈ (t.withBody j body).reportedBefore k) ∧
    ((k < j ∨ ∃ m c, j < m ∧ m ≤ k ∧ t.children[m]? = some c ∧ c.kind = .function) →
      t.itemErrors k = (t.withBody j body).itemErrors k) := by
  have hiff : t.itemErrors k = (t.withBody j body).itemErrors k ↔
      ∀ x ∈ t.undeclaredIn k, x ∈ t.reportedBefore k ↔
          x ∈ (t.withBody j body).reportedBefore k := by
    rw [itemErrors_eq_filter, itemErrors_eq_filter, freshErrors_withBody hf hold hbody hfun hk]
    exact filter_isHidden_eq_iff
  refine ⟨typeErrors_eq_flatMap, beforeItem_withBody_zero hf hold hbody, hiff,
    fun hcase => hiff.mpr fun x _ => ?_⟩
  unfold reportedBefore
  rw [getElem?_withBody_ne hk]
  cases hc : t.children[k]? with
  | none => exact Iff.rfl
  | some c =>
    dsimp only
    split
    · exact Iff.rfl
    · next hstmt =>
      rcases hcase with hlt | ⟨m, c', hm, hle, hc', hfun'⟩
      · rw [beforeItem_withBody_of_le hf hold hbody (Nat.le_of_lt hlt)]
      · -- the item is not a function, so that the further function stands before it
        have hlt : m + 1 ≤ k := by
          rcases Nat.lt_or_eq_of_le hle with hlt | rfl
          · exact hlt
          · cases hc.symm.trans hc'
            exact absurd hfun' hstmt
        obtain ⟨_, _, hveiled⟩ :=
          undeclared_withBody_iff hf hold hbody hfun hm hc' hfun' (k - (m + 1))
        rw [Nat.add_sub_cancel' hlt] at hveiled
        simpa using (hveiled.undeclared_iff x).symm

/-- A block without statements. -/
def emptyBlock : Tree := { kind := .block, text := "Block", loc := .start }

end Tree

/-- A source text with an undeclared name in a function, behind it, and behind one more function. -/
def undeclaredThrice : String := "fn int f() { return x; } x; fn int g() { return 0; } x;"

/-- The last item has one error, whatever the body of the first function is. -/
theorem undeclaredThrice_itemErrors_eq :
    (((parse undeclaredThrice).1.children[0]?).map fun f => (f.kind, (bodyOf? f.children).isSome)) =
      some (.function, true) ∧
    (((parse undeclaredThrice).1.children[2]?).map Tree.kind) = some .function ∧
    ((parse undeclaredThrice).1.itemErrors 3).map Located.cause = [.undeclaredVariable "x"] ∧
    (parse undeclaredThrice).1.itemErrors 3 =
      ((parse undeclaredThrice).1.withBody 0 Tree.emptyBlock).itemErrors 3 := by
  have hfacts :
    (((parse undeclaredThrice).1.children[0]?).map fun f => (f.kind, (bodyOf? f.children).isSome)) =
        some (.function, true) ∧
      (((parse undeclaredThrice).1.children[2]?).map Tree.kind) = some .function ∧
      ((parse undeclaredThrice).1.itemErrors 3).map Located.cause = [.undeclaredVariable "x"] := by
    rw [parse_ofList undeclaredThrice rfl]
    decide +kernel
  refine ⟨hfacts.1, hfacts.2.1, hfacts.2.2, ?_⟩
  obtain ⟨f, hf, hparts⟩ := Option.map_eq_some_iff.mp hfacts.1
  obtain ⟨g, hg, hfun⟩ := Option.map_eq_some_iff.mp hfacts.2.1
  obtain ⟨hkind, hbody⟩ := Prod.mk.inj hparts
  exact (Tree.itemErrors_withBody_eq_iff hf hkind hbody rfl (by decide)).2.2.2
    (.inr ⟨2, g, by decide, by decide, hg, hfun⟩)

/-- **The body of a function may hide an error behind it.** The statement behind the first function
has an error only if the name was not reported in that function. -/
theorem exists_itemErrors_ne :
    ∃ (t f body : Tree) (j k : Nat), t.children[j]? = some f ∧ f.kind = .function ∧
    (bodyOf? f.children).isSome ∧ body.kind = .block ∧ k ≠ j ∧
      t.itemErrors k ≠ (t.withBody j body).itemErrors k := by
  have hfacts :
    (((parse undeclaredThrice).1.children[0]?).map fun f => (f.kind, (bodyOf? f.children).isSome)) =
        some (.function, true) ∧
      (parse undeclaredThrice).1.itemErrors 1 ≠
          ((parse undeclaredThrice).1.withBody 0 Tree.emptyBlock).itemErrors 1 := by
    rw [parse_ofList undeclaredThrice rfl]
    decide +kernel
  obtain ⟨f, hf, hparts⟩ := Option.map_eq_some_iff.mp hfacts.1
  obtain ⟨hkind, hbody⟩ := Prod.mk.inj hparts
  exact ⟨(parse undeclaredThrice).1, f, Tree.emptyBlock, 0, 1, hf, hkind, hbody,
    rfl, by decide, hfacts.2⟩

end Stacklet
