import Stacklet.Proofs.Scoping.Program
import Stacklet.Proofs.Typing.Items
/-!
# Undeclared names in typed programs

* `Tree.rename`: the tree with another name at some places. `Tree.Renamed`: trees that are so
  related.
* `Checker.Echoes`: what a check with some names replaced by an undeclared one does, where the check
  without finds no errors. Types stay or become `unknown`, and the name is reported once.
* `expression_echoes`, `statement_echoes`: all checks are so.
* `Tree.rename_typeErrors`: an undeclared name in the place of variables of a function is one error.
-/

namespace Stacklet

open List

variable {ts : List Tree} {c e f t target : Tree} {ty ty' : Ty}

namespace Tree

/-! ## Other names at some places -/

/-- The places inside of the child with number `i`, as they are seen from there. -/
def placesIn (i : Nat) (ps : List (List Nat)) : List (List Nat) :=
  ps.filterMap fun
    | j :: p => if j = i then some p else none
    | [] => none

mutual

/-- The tree with the text `y` at the places `ps`. -/
def rename (y : String) (ps : List (List Nat)) : Tree → Tree
  | ⟨kind, text, isArray, loc, children⟩ =>
    ⟨kind, if ps.contains [] then y else text, isArray, loc, renameFrom y ps 0 children⟩

/-- The children from number `i` on with the text `y` at the places `ps` of their parent. -/
def renameFrom (y : String) (ps : List (List Nat)) (i : Nat) : List Tree → List Tree
  | [] => []
  | t :: ts => rename y (placesIn i ps) t :: renameFrom y ps (i + 1) ts

end

/-- All places are those of variables in `t`, which is a part of some kind. -/
def AreVariables (part : Part) (t : Tree) (ps : List (List Nat)) : Prop :=
  ∀ p ∈ ps, ∃ e, partAt? p part t = some (.expression, e) ∧ e.kind = .identifier

variable {y : String} {ps : List (List Nat)} {t t' c : Tree} {part : Part} {i : Nat} {p : List Nat}

theorem mem_placesIn : p ∈ placesIn i ps ↔ i :: p ∈ ps := by
  unfold placesIn
  rw [mem_filterMap]
  constructor
  · rintro ⟨_ | ⟨j, q⟩, hmem, hq⟩
    · cases hq
    · dsimp only at hq
      split at hq <;> cases hq
      next hj => exact hj ▸ hmem
  · exact fun h => ⟨i :: p, h, if_pos rfl⟩

theorem placesIn_eq_nil (h : ∀ p, i :: p ∉ ps) : placesIn i ps = [] :=
  eq_nil_iff_forall_not_mem.mpr fun p hp => h p (mem_placesIn.mp hp)

mutual

theorem rename_nil : ∀ t : Tree, rename y [] t = t
  | ⟨kind, text, isArray, loc, children⟩ => by
    rw [rename, renameFrom_of_forall [] children 0 fun _ _ => not_mem_nil]
    rfl

theorem renameFrom_of_forall : ∀ (ps : List (List Nat)) (ts : List Tree) (i : Nat),
    (∀ j p, j :: p ∉ ps) → renameFrom y ps i ts = ts
  | _, [], _, _ => by rw [renameFrom]
  | ps, t :: ts, i, h => by
    rw [renameFrom, placesIn_eq_nil (h i), rename_nil t, renameFrom_of_forall ps ts (i + 1) h]

end

namespace AreVariables

variable (h : AreVariables part t ps)

include h

theorem child (hc : t.children[i]? = some c) : ∃ part', AreVariables part' c (placesIn i ps) := by
  cases hpart : part? t.kind i c with
  | none =>
    refine ⟨.item, fun p hp => ?_⟩
    obtain ⟨e, he, -⟩ := h _ (mem_placesIn.mp hp)
    obtain ⟨c', part', hc', hpart', -⟩ := partAt?_cons he
    cases hc.symm.trans hc'
    cases hpart.symm.trans hpart'
  | some part' =>
    refine ⟨part', fun p hp => ?_⟩
    obtain ⟨e, he, hident⟩ := h _ (mem_placesIn.mp hp)
    obtain ⟨c', part'', hc', hpart', he⟩ := partAt?_cons he
    cases hc.symm.trans hc'
    cases hpart.symm.trans hpart'
    exact ⟨e, he, hident⟩

theorem notMem (hpart : ∀ c, part? t.kind i c = none) : i :: p ∉ ps := by
  intro hp
  obtain ⟨e, he, -⟩ := h _ hp
  obtain ⟨c, part', -, hpart', -⟩ := partAt?_cons he
  cases (hpart c).symm.trans hpart'

theorem lt_length (hp : i :: p ∈ ps) : i < t.children.length := by
  obtain ⟨e, he, -⟩ := h _ hp
  obtain ⟨c, -, hc, -⟩ := partAt?_cons he
  exact (List.getElem?_eq_some_iff.mp hc).1

end AreVariables

mutual

/-- `t'` is `t` with `y` in the place of some variables, of none if the flag is off. Names of called
functions are kept. -/
inductive Renamed (y : String) : Bool → Tree → Tree → Prop
  | node {b : Bool} {kind : Kind} {text : String} {isArray : Bool} {loc : Loc}
      {ts ts' : List Tree} :
    (kind = .call → ts = []) → RenamedAll y b ts ts' →
    Renamed y b ⟨kind, text, isArray, loc, ts⟩ ⟨kind, text, isArray, loc, ts'⟩
  | call {b : Bool} {text : String} {isArray : Bool} {loc : Loc} {f : Tree} {ts ts' : List Tree} :
    RenamedAll y b ts ts' →
    Renamed y b ⟨.call, text, isArray, loc, f :: ts⟩ ⟨.call, text, isArray, loc, f :: ts'⟩
  | name {x : String} {isArray : Bool} {loc : Loc} {ts : List Tree} :
    Renamed y true ⟨.identifier, x, isArray, loc, ts⟩ ⟨.identifier, y, isArray, loc, ts⟩

inductive RenamedAll (y : String) : Bool → List Tree → List Tree → Prop
  | cons {b b' : Bool} {t t' : Tree} {ts ts' : List Tree} : Renamed y b t t' →
      RenamedAll y b' ts ts' →
    RenamedAll y (b' || b) (t :: ts) (t' :: ts')
  | nil : RenamedAll y false [] []

end

namespace Renamed

variable {b : Bool} (h : Renamed y b t t')

include h

theorem kind_eq : t'.kind = t.kind := by cases h <;> rfl

theorem loc_eq : t'.loc = t.loc := by cases h <;> rfl

theorem text_eq : t'.text = t.text ∨ t'.text = y := by
  cases h with
  | name => exact .inr rfl
  | call | node => exact .inl rfl

end Renamed

theorem RenamedAll.length_eq {b : Bool} {ts ts' : List Tree} (h : RenamedAll y b ts ts') :
    ts'.length = ts.length := by
  induction ts generalizing b ts' with
  | nil => cases h; rfl
  | cons t ts ih =>
    cases h with
    | cons _ hts => exact congrArg Nat.succ (ih hts)

mutual

theorem renamed_rename : ∀ (t : Tree) {part : Part} {ps : List (List Nat)}, AreVariables part t ps →
    ∃ b, (ps ≠ [] → b = true) ∧ Renamed y b t (t.rename y ps)
  | ⟨kind, text, isArray, loc, ts⟩, part, ps, h => by
    by_cases hself : [] ∈ ps
    · obtain ⟨e, he, hident⟩ := h [] hself
      cases he
      obtain rfl : kind = .identifier := hident
      rw [rename, contains_iff_mem.mpr hself, renameFrom_of_forall ps ts 0 fun j p =>
        h.notMem fun _ => rfl]
      exact ⟨true, fun _ => rfl, .name⟩
    have hcontains : ps.contains [] = false := by
      rw [← Bool.not_eq_true, contains_iff_mem]
      exact hself
    have hinside (hne : ps ≠ []) : ∃ j p, j :: p ∈ ps ∧ j < ts.length := by
      obtain ⟨_ | ⟨j, p⟩, hp⟩ := exists_mem_of_ne_nil _ hne
      · exact absurd hp hself
      · exact ⟨j, p, hp, h.lt_length hp⟩
    rw [rename, hcontains]
    by_cases hcall : kind = .call ∧ ts ≠ []
    · obtain ⟨rfl, hne⟩ := hcall
      obtain ⟨f, args, rfl⟩ := exists_cons_of_ne_nil hne
      have hcallee (p : List Nat) : 0 :: p ∉ ps := h.notMem fun _ => rfl
      obtain ⟨b, hb, hargs⟩ := renamedAll_renameFrom args 1 ps fun j c hc =>
        h.child (i := 1 + j) (by rw [Nat.add_comm]; exact hc)
      rw [renameFrom, placesIn_eq_nil hcallee, rename_nil]
      refine ⟨b, fun hne => ?_, .call hargs⟩
      obtain ⟨_ | j, p, hp, hlt⟩ := hinside hne
      · exact absurd hp (hcallee p)
      · exact hb (j + 1) p hp (by omega) (by rwa [Nat.add_comm 1])
    · obtain ⟨b, hb, hts⟩ := renamedAll_renameFrom ts 0 ps fun j c hc => by
        rw [Nat.zero_add]
        exact h.child hc
      refine ⟨b, fun hne => ?_, .node (by simpa using hcall) hts⟩
      obtain ⟨j, p, hp, hlt⟩ := hinside hne
      exact hb j p hp (Nat.zero_le j) (by rwa [Nat.zero_add])

theorem renamedAll_renameFrom : ∀ (ts : List Tree) (i : Nat) (ps : List (List Nat)),
    (∀ j c, ts[j]? = some c → ∃ part, AreVariables part c (placesIn (i + j) ps)) →
    ∃ b, (∀ j p, j :: p ∈ ps → i ≤ j → j < i + ts.length → b = true) ∧
    RenamedAll y b ts (renameFrom y ps i ts)
  | [], i, ps, _ => by
    rw [renameFrom]
    exact ⟨false, fun j p _ hi hj => absurd hj (Nat.not_lt_of_le hi), .nil⟩
  | t :: ts, i, ps, h => by
    obtain ⟨part, ht⟩ := h 0 t rfl
    obtain ⟨b, hb, ht⟩ := renamed_rename t ht
    obtain ⟨b', hb', hts⟩ := renamedAll_renameFrom ts (i + 1) ps fun j c hc => by
      rw [Nat.add_right_comm]
      exact h (j + 1) c hc
    rw [renameFrom]
    refine ⟨b' || b, fun j p hp hi hj => ?_, .cons ht hts⟩
    rw [Bool.or_eq_true]
    by_cases hij : i = j
    · subst hij
      exact .inr (hb (ne_nil_of_mem (mem_placesIn.mpr hp)))
    · rw [length_cons] at hj
      exact .inl (hb' j p hp (by omega) (by omega))

end

/-! ## Declared names -/

/-- Whether a node gives a name to a variable or function. -/
def isNaming : Kind → Bool
  | .function | .parameter | .declarator => true
  | _ => false

/-- Whether nothing in a tree has the name `y`. -/
def isFree (y : String) (t : Tree) : Bool := t.all fun u => !(isNaming u.kind && u.text == y)

theorem isFree_child (h : t.isFree y) (hc : c ∈ t.children) : c.isFree y := all_of_mem h hc

theorem text_ne_of_isFree (h : t.isFree y) (hk : isNaming t.kind) : t.text ≠ y := by
  have hself := (all_iff.mp h).1
  rintro rfl
  simp [hk] at hself

end Tree

/-! ## Checks side by side -/

namespace Checker

open Stacklet.Tree

variable {α β : Type} {y : String} {b b' : Bool} {s s' : State} {t' : Tree}

/-- The state in which `y` was reported as undeclared, maybe. -/
def State.spoilt (s : State) (y : String) : Option Loc → State
  | none => s
  | some loc => { s with errors := #[⟨loc, .undeclaredVariable y⟩], undeclared := [y] }

/-- A state without errors in which `y` is not declared. -/
structure State.Clean (y : String) (s : State) : Prop where
  errors_eq : s.errors = #[]
  undeclared_eq : s.undeclared = []
  lookup_eq : s.scopes.lookup? y = none

/-- The state `s` has no errors. In `s'` the name `y` was reported if the flag is on, and nothing
else is different. -/
structure Follows (y : String) (b : Bool) (s s' : State) : Prop extends s.Clean y where
  spoilt : ∃ o : Option Loc, o.isSome = b ∧ s' = s.spoilt y o

theorem State.Clean.follows (h : s.Clean y) : Follows y false s s := ⟨h, none, rfl, rfl⟩

theorem Follows.alike (h : Follows y b s s') : s.Alike s' := by
  obtain ⟨o, -, rfl⟩ := h.spoilt
  cases o <;> exact ⟨rfl, rfl, rfl, rfl⟩

/-- A type that is kept or lost. -/
def Blurs (ty ty' : Ty) : Prop := ty' = ty ∨ ty' = .unknown

/-- If `x` finds no errors, then `x'` does the same, but the name `y` is found in it if the flag is
on. The results are related by `R`. -/
def Echoes (y : String) (b : Bool) (R : α → α → Prop) (x x' : Checker α) : Prop :=
  ∀ (c : Bool) (s s' : State), Follows y c s s' → (x s).2.errors = #[] →
    R (x s).1 (x' s').1 ∧ Follows y (b || c) (x s).2 (x' s').2

namespace Echoes

variable {R : α → α → Prop} {Q : β → β → Prop} {x x' : Checker α} {f f' : α → Checker β}

theorem bind [g : ∀ a, Grows (f a)] (hx : Echoes y b R x x')
    (hf : ∀ a a', R a a' → Echoes y b' Q (f a) (f' a')) :
    Echoes y (b' || b) Q (x >>= f) (x' >>= f') := by
  intro c s s' hs he
  obtain ⟨hres, hafter⟩ := hx c s s' hs (errors_of_bind he)
  rw [Bool.or_assoc]
  exact hf _ _ hres _ _ _ hafter he

theorem andThen {x x' : Checker Unit} {z z' : Checker β} [Grows z] (hx : Echoes y b Eq x x')
    (hz : Echoes y b' Q z z') : Echoes y (b' || b) Q (x >>= fun _ => z) (x' >>= fun _ => z') :=
  hx.bind fun _ _ _ => hz

theorem stillThen {x x' : Checker Unit} {z z' : Checker β} [Grows z]
    (hx : Echoes y false Eq x x') (hz : Echoes y b Q z z') :
    Echoes y b Q (x >>= fun _ => z) (x' >>= fun _ => z') := Bool.or_false b ▸ hx.andThen hz

theorem still (h : ∀ c s s', Follows y c s s' → (x s).2.errors = #[] →
    ∃ a a', R a a' ∧ x s = (a, s) ∧ x' s' = (a', s')) : Echoes y false R x x' := by
  intro c s s' hs he
  obtain ⟨a, a', hR, hx, hx'⟩ := h c s s' hs he
  rw [hx, hx']
  exact ⟨hR, hs⟩

theorem pure {a a' : α} (h : R a a') : Echoes y false R (Pure.pure a) (Pure.pure a') :=
  still fun _ _ _ _ _ => ⟨a, a', h, rfl, rfl⟩

theorem reportThen {g : Unit → Checker β} [∀ u, Grows (g u)] (loc : Loc) (e : TypeError)
    (z : Checker β) : Echoes y b Q (Checker.report loc e >>= g) z :=
  fun _ s _ _ he => absurd (errors_of_bind he) (errors_report_ne loc e s)

theorem report {R : Unit → Unit → Prop} (loc : Loc) (e : TypeError) (z : Checker Unit) :
    Echoes y b R (Checker.report loc e) z :=
  fun _ s _ _ he => absurd he (errors_report_ne loc e s)

theorem discard (h : Echoes y b R x x') : Echoes y b Eq (Functor.discard x) (Functor.discard x') :=
  fun c s s' hs he => ⟨rfl, (h c s s' hs he).2⟩

end Echoes

/-! ## Single checks -/

theorem nameTy_echoes (loc : Loc) (x : String) :
    Echoes y false Blurs (nameTy loc x) (nameTy loc x) := by
  refine .still fun c s s' hs he => ?_
  obtain ⟨ty, ⟨isArray, hx⟩, heq⟩ := nameTy_passes loc x hs.undeclared_eq he
  exact ⟨ty, ty, .inl rfl, heq, nameTy_eq (hs.alike.scopes_eq ▸ hx) loc⟩

theorem nameTy_echoes_undeclared (loc : Loc) (x : String) :
    Echoes y true Blurs (nameTy loc x) (nameTy loc y) := by
  intro c s s' hs he
  obtain ⟨ty, -, heq⟩ := nameTy_passes loc x hs.undeclared_eq he
  have hundeclared : s'.scopes.lookup? y = none := by rw [hs.alike.scopes_eq, hs.lookup_eq]
  rw [heq, nameTy_of_none hundeclared]
  refine ⟨.inr rfl, hs.toClean, ?_⟩
  obtain ⟨o, -, rfl⟩ := hs.spoilt
  cases o with
  | none =>
    refine ⟨some loc, rfl, ?_⟩
    rw [State.spoilt, State.note, hs.undeclared_eq, hs.errors_eq]
    rfl
  | some loc' =>
    refine ⟨some loc', rfl, ?_⟩
    simp [State.spoilt, State.note]

theorem resultTy_echoes (loc : Loc) (r : Except TypeError Ty) {x : Checker Ty}
    (hx : x = resultTy loc r ∨ x = Pure.pure .unknown) :
    Echoes y false Blurs (resultTy loc r) x := by
  refine .still fun c s s' hs he => ?_
  cases r with
  | ok ty =>
    rcases hx with rfl | rfl
    · exact ⟨ty, ty, .inl rfl, rfl, rfl⟩
    · exact ⟨ty, .unknown, .inr rfl, rfl, rfl⟩
  | error e => exact absurd he Array.push_ne_empty

theorem requireInt_echoes (loc : Loc) (e : Ty → TypeError) (h : Blurs ty ty') :
    Echoes y false Eq (requireInt loc ty e) (requireInt loc ty' e) := by
  refine .still fun c s s' hs he => ?_
  unfold requireInt at he ⊢
  by_cases hty : ty = .int ∨ ty = .unknown
  · have hty' : ty' = .int ∨ ty' = .unknown := by
      rcases h with rfl | rfl
      · exact hty
      · exact .inr rfl
    rw [if_pos hty, if_pos hty']
    exact ⟨(), (), rfl, rfl, rfl⟩
  · rw [if_neg hty] at he
    exact absurd he Array.push_ne_empty

theorem requireAccepted_echoes (loc : Loc) {expected expected' : Ty} (e e' : TypeError)
    (h : Blurs expected expected') (hty : Blurs ty ty') :
    Echoes y false Eq (requireAccepted loc expected ty e)
      (requireAccepted loc expected' ty' e') := by
  refine .still fun c s s' hs he => ?_
  unfold requireAccepted at he ⊢
  by_cases hacc : expected = .unknown ∨ ty = .unknown ∨ expected.accepts ty
  · have hacc' : expected' = .unknown ∨ ty' = .unknown ∨ expected'.accepts ty' := by
      rcases h with rfl | rfl
      · rcases hty with rfl | rfl
        · exact hacc
        · exact .inr (.inl rfl)
      · exact .inl rfl
    rw [if_pos hacc, if_pos hacc']
    exact ⟨(), (), rfl, rfl, rfl⟩
  · rw [if_neg hacc] at he
    exact absurd he Array.push_ne_empty

/-- What the new name stands for: what the old one did, or nothing. -/
theorem Follows.lookup?_renamed (h : Follows y b s s') (ht : Renamed y b' t t') :
    s'.scopes.lookup? t'.text = s.scopes.lookup? t.text ∨ s'.scopes.lookup? t'.text = none := by
  rw [h.alike.scopes_eq]
  rcases ht.text_eq with htext | htext
  · exact .inl (congrArg _ htext)
  · exact .inr ((congrArg _ htext).trans h.lookup_eq)

theorem requireIndexable_echoes (h : Renamed y b t t') :
    Echoes y false Eq (requireIndexable t) (requireIndexable t') := by
  refine .still fun c s s' hs he => ?_
  obtain ⟨_, hindex, heq⟩ := requireIndexable_passes t he
  refine ⟨(), (), rfl, heq, requireIndexable_eq fun hk ty hty => ?_⟩
  rcases hs.lookup?_renamed h with hsame | hnone
  · exact hindex (h.kind_eq ▸ hk) ty (hsame ▸ hty)
  · rw [hnone] at hty
    cases hty

theorem requireShape_echoes (h : Renamed y b t t') (e e' : TypeError) (wantsArray : Bool) :
    Echoes y false Eq (requireShape t e wantsArray) (requireShape t' e' wantsArray) := by
  refine .still fun c s s' hs he => ?_
  obtain ⟨_, hshape, heq⟩ := requireShape_passes t e wantsArray he
  refine ⟨(), (), rfl, heq, requireShape_eq (fun hk ty isArray hty => ?_) _⟩
  rcases hs.lookup?_renamed h with hsame | hnone
  · exact hshape (h.kind_eq ▸ hk) ty isArray (hsame ▸ hty)
  · rw [hnone] at hty
    cases hty

theorem checkArgument_echoes (f : String) (position : Nat) (ht : Renamed y b t t')
    (h : Blurs ty ty') (param : Option (Ty × Bool)) :
    Echoes y false Eq (checkArgument f position t ty param)
      (checkArgument f position t' ty' param) := by
  match param with
  | none => exact .pure rfl
  | some (expected, wantsArray) =>
    unfold checkArgument
    rw [ht.loc_eq]
    exact (requireAccepted_echoes _ _ _ (.inl rfl) h).stillThen (requireShape_echoes ht _ _ _)

theorem callee?_echoes (f : Tree) :
    Echoes y false (fun r r' => r' = r ∧ ∃ callee, r = some callee) (callee? f) (callee? f) := by
  refine .still fun c s s' hs he => ?_
  obtain ⟨_, ⟨hk, ty, params, rfl, hf⟩, heq⟩ := callee?_passes f he
  refine ⟨_, _, ⟨rfl, _, rfl⟩, heq, ?_⟩
  unfold callee?
  rw [if_pos hk, lookup_bind, hs.alike.scopes_eq, hf]
  rfl

theorem isAssignable_eq (h : Renamed y b t t') : isAssignable t' = isAssignable t := by
  obtain @⟨_, kind, _, _, _, _, _, _, ⟨ht, -⟩ | _⟩ | _ | _ := h
  · cases kind <;> simp [isAssignable, ht.kind_eq]
  · rfl
  · rfl
  · rfl

/-- Whether an assignment to `target` would change characters of a string. -/
def ChangesString (Γ : Scopes) (target : Tree) : Prop :=
  ∃ base rest, target.kind = .index ∧ target.children = base :: rest ∧
    Γ.lookup? base.text = some (.var .string false)

theorem stringBase?_eq_none (h : ¬ChangesString s.scopes target) :
    stringBase? target s = (none, s) := by
  by_cases hk : target.kind = .index
  · unfold stringBase?
    rw [hk]
    match hc : target.children with
    | [] => rfl
    | base :: rest =>
      dsimp only
      rw [lookup_bind]
      rcases hx : s.scopes.lookup? base.text with _ | ⟨ty, _ | _⟩ | _
      · rfl
      · cases ty <;> first | rfl | exact absurd ⟨base, rest, hk, hc, hx⟩ h
      · cases ty <;> rfl
      · rfl
  · unfold stringBase?
    cases hkind : target.kind <;> first | rfl | exact absurd hkind hk

theorem ChangesString.errors_ne (h : ChangesString s.scopes target) (loc : Loc) (ty ty' : Ty) :
    (assignmentTy loc target ty ty' s).2.errors ≠ #[] := by
  obtain ⟨base, rest, hk, hc, hx⟩ := h
  have hbase : stringBase? target s = (some base, s) := by
    unfold stringBase?
    rw [hk, hc]
    dsimp only
    rw [lookup_bind, hx]
    rfl
  rw [assignmentTy, bind_of_eq hbase]
  exact Array.push_ne_empty

theorem Follows.not_changesString (h : Follows y b s s') (ht : Renamed y b' t t')
    (htarget : ¬ChangesString s.scopes t) : ¬ChangesString s'.scopes t' := by
  rintro ⟨base', rest', hk, hc, hx⟩
  cases ht with
  | name | call => cases hk
  | node _ hts =>
    cases hts with
    | nil => cases hc
    | cons hbase =>
      cases hc
      rcases h.lookup?_renamed hbase with hsame | hnone
      · exact htarget ⟨_, _, hk, rfl, hsame ▸ hx⟩
      · rw [hnone] at hx
        cases hx

theorem assignmentTy_echoes (loc : Loc) (ht : Renamed y b t t') {value value' : Ty}
    (h : Blurs ty ty') (hvalue : Blurs value value') :
    Echoes y false Blurs (assignmentTy loc t ty value) (assignmentTy loc t' ty' value') := by
  intro c s s' hs he
  have hstring : ¬ChangesString s.scopes t := fun hstring => hstring.errors_ne loc ty value he
  rw [assignmentTy, bind_of_eq (stringBase?_eq_none hstring)] at he ⊢
  rw [assignmentTy, bind_of_eq (stringBase?_eq_none (hs.not_changesString ht hstring))]
  exact (requireAccepted_echoes loc _ _ h hvalue).stillThen (.pure h) c s s' hs he

/-! ## Expressions -/

variable {N T : String → Prop}

mutual

/-- **Expressions with other names.** -/
theorem expression_echoes {t t' : Tree} {b : Bool} : IsExpr N t → Renamed y b t t' →
    Echoes y b Blurs (expression t) (expression t')
  | .number _ _, h | .string _ _, h => by
    obtain ⟨-, ⟨⟩⟩ := h
    unfold expression
    exact .pure (.inl rfl)
  | .identifier x loc _, h => by
    obtain ⟨-, ⟨⟩⟩ | _ | _ := h
    · unfold expression
      exact nameTy_echoes loc x
    · unfold expression
      exact nameTy_echoes_undeclared loc x
  | .unary op loc e he, h => by
    obtain ⟨-, h, ⟨⟩⟩ := h
    unfold expression
    refine (expression_echoes he h).bind fun ty ty' hty => ?_
    rcases hty with rfl | rfl
    · split
      · exact .pure (.inl rfl)
      · exact resultTy_echoes loc _ (.inl rfl)
    · rw [if_pos rfl]
      split
      · exact .pure (.inr rfl)
      · exact resultTy_echoes loc _ (.inr rfl)
  | .binary op loc l r hl hr, h => by
    obtain ⟨-, h, h', ⟨⟩⟩ := h
    unfold expression
    refine (expression_echoes hl h).bind fun ty ty' hty =>
      (expression_echoes hr h').bind fun ty₂ ty₂' hty₂ => ?_
    by_cases hu : ty' = .unknown ∨ ty₂' = .unknown
    · rw [if_pos hu]
      split
      · exact .pure (.inr rfl)
      · exact resultTy_echoes loc _ (.inr rfl)
    · obtain rfl := hty.resolve_right (not_or.mp hu).1
      obtain rfl := hty₂.resolve_right (not_or.mp hu).2
      rw [if_neg hu]
      exact resultTy_echoes loc _ (.inl rfl)
  | .comma loc l r hl hr, h => by
    obtain ⟨-, h, h', ⟨⟩⟩ := h
    unfold expression lastTy lastTy lastTy
    exact (expression_echoes hl h).bind fun _ _ _ =>
      (expression_echoes hr h').bind fun ty ty' hty => .pure hty
  | .assign loc target value ht hv, h => by
    obtain ⟨-, h, h', ⟨⟩⟩ := h
    unfold expression
    dsimp only
    rw [isAssignable_eq h]
    split
    · exact (expression_echoes ht h).bind fun ty ty' hty =>
        (expression_echoes hv h').bind fun ty₂ ty₂' hty₂ => assignmentTy_echoes loc h hty hty₂
    · exact .reportThen _ _ _
  | .call loc f args hf _ hargs, h => by
    obtain ⟨hcall, -⟩ | h := h
    · cases hcall rfl
    unfold expression
    rw [← Bool.or_false b]
    refine (callee?_echoes f).bind (g := fun _ => by split <;> infer_instance) fun r r' hr => ?_
    obtain ⟨rfl, ⟨ty, params⟩, rfl⟩ := hr
    dsimp only
    rw [h.length_eq]
    split
    · exact (arguments_echoes hargs h f.text 1 params).bind fun _ _ _ => .pure (.inl rfl)
    · exact .reportThen _ _ _
  | .index loc base i hb _ hi, h => by
    obtain ⟨-, h, h', ⟨⟩⟩ := h
    unfold expression
    refine (expression_echoes hb h).bind fun ty ty' hty =>
      (expression_echoes hi h').bind fun ty₂ ty₂' hty₂ => ?_
    rw [h'.loc_eq]
    exact (requireInt_echoes i.loc _ hty₂).stillThen
      ((requireIndexable_echoes h).stillThen (.pure hty))

theorem arguments_echoes {args args' : List Tree} {b : Bool} : AreExprs N args →
    RenamedAll y b args args' → ∀ (f : String) (position : Nat) (params : List (Ty × Bool)),
      Echoes y b Eq (arguments f position params args) (arguments f position params args')
  | .nil, h, f, position, params => by
    obtain ⟨⟩ := h
    unfold arguments
    exact .pure rfl
  | .cons arg args ha hargs, h, f, position, params => by
    obtain ⟨h, hs⟩ := h
    unfold arguments
    exact (expression_echoes ha h).bind fun ty ty' hty =>
      (checkArgument_echoes f position h hty _).stillThen
        (arguments_echoes hargs hs f (position + 1) params.tail)

end

/-! ## Declarations -/

theorem Follows.map (h : Follows y b s s') {g : State → State}
    (hg : ∀ o, g (s.spoilt y o) = (g s).spoilt y o) (herrors : (g s).errors = s.errors)
    (hundeclared : (g s).undeclared = s.undeclared) (hlookup : (g s).scopes.lookup? y = none) :
    Follows y b (g s) (g s') := by
  refine ⟨⟨herrors.trans h.errors_eq, hundeclared.trans h.undeclared_eq, hlookup⟩, ?_⟩
  obtain ⟨o, ho, rfl⟩ := h.spoilt
  exact ⟨o, ho, hg o⟩

theorem Follows.withScopes (h : Follows y b s s') {Γ : Scopes} (hΓ : Γ.lookup? y = none) :
    Follows y b (s.withScopes Γ) (s'.withScopes Γ) :=
  h.map (g := (State.withScopes · Γ)) (fun o => by cases o <;> rfl) rfl rfl hΓ

theorem declareVar_echoes (ty : Ty) (htext : t'.text = t.text) (harray : t'.isArray = t.isArray)
    (hy : t.text ≠ y) : Echoes y false Eq (declareVar t ty) (declareVar t' ty) := by
  intro c s s' hs he
  cases hd : s.scopes.declare? t.text (.var ty t.isArray) with
  | none =>
    have hdeclare : declare t.text (.var ty t.isArray) s = (false, s) := by
      rw [declare_apply, hd]
      rfl
    rw [declareVar, bind_of_eq hdeclare] at he
    exact absurd he (errors_report_ne _ _ s)
  | some Γ =>
    have hd' : s'.scopes.declare? t'.text (.var ty t'.isArray) = some Γ := by
      rw [hs.alike.scopes_eq, htext, harray, hd]
    rw [declareVar_eq hd, declareVar_eq hd']
    refine ⟨rfl, hs.withScopes ?_⟩
    rw [Scopes.lookup?_declare? hd, if_neg hy.symm, hs.lookup_eq]

theorem inScope_echoes {x x' : Checker Unit} (h : Echoes y b Eq x x') :
    Echoes y b Eq (inScope x) (inScope x') := by
  intro c s s' hs he
  have henter : Follows y c (s.withScopes ([] :: s.scopes)) (s'.withScopes ([] :: s'.scopes)) := by
    rw [hs.alike.scopes_eq]
    exact hs.withScopes hs.lookup_eq
  have hafter := (h _ _ _ henter he).2
  have hnone := hafter.lookup_eq
  refine ⟨rfl, hafter.map (g := fun s => { s with scopes := s.scopes.tail })
    (fun o => by cases o <;> rfl) rfl rfl ?_⟩
  rw [Scopes.lookup?, findSome?_eq_none_iff] at hnone ⊢
  exact fun scope hmem => hnone scope (mem_of_mem_tail hmem)

theorem inLoop_echoes {x x' : Checker Unit} (h : Echoes y b Eq x x') :
    Echoes y b Eq (inLoop x) (inLoop x') := by
  intro c s s' hs he
  have henter := hs.map (g := fun s => { s with loopDepth := s.loopDepth + 1 })
    (fun o => by cases o <;> rfl) rfl rfl hs.lookup_eq
  have hafter := (h _ _ _ henter he).2
  exact ⟨rfl, hafter.map (g := fun s => { s with loopDepth := s.loopDepth - 1 })
    (fun o => by cases o <;> rfl) rfl rfl hafter.lookup_eq⟩

theorem declarator_echoes (ty : Ty) (ht : IsDeclarator N t) (h : Renamed y b t t')
    (hfree : t.isFree y) : Echoes y b Eq (declarator ty t) (declarator ty t') := by
  have hy : t.text ≠ y := text_ne_of_isFree hfree (by cases ht <;> rfl)
  cases ht with
  | plain =>
    obtain ⟨-, ⟨⟩⟩ := h
    exact declareVar_echoes ty rfl rfl hy
  | initial x loc e _ he =>
    obtain ⟨-, h, ⟨⟩⟩ := h
    unfold declarator
    dsimp only
    rw [h.loc_eq]
    refine (expression_echoes he h).bind fun ty' ty'' hty => ?_
    rw [if_neg Bool.false_ne_true, if_neg Bool.false_ne_true]
    exact (requireAccepted_echoes _ _ _ (.inl rfl) hty).stillThen (declareVar_echoes ty rfl rfl hy)
  | array x loc e _ he =>
    obtain ⟨-, h, ⟨⟩⟩ := h
    unfold declarator
    dsimp only
    rw [h.loc_eq]
    refine (expression_echoes he h).bind fun ty' ty'' hty => ?_
    rw [if_pos rfl, if_pos rfl]
    exact (requireInt_echoes _ _ hty).stillThen (declareVar_echoes ty rfl rfl hy)

theorem declarators_echoes (ty : Ty) {ds ds' : List Tree} (hds : ∀ d ∈ ds, IsDeclarator N d)
    (h : RenamedAll y b ds ds') (hfree : ∀ d ∈ ds, d.isFree y) :
    Echoes y b Eq (ds.forM (declarator ty)) (ds'.forM (declarator ty)) := by
  induction ds generalizing b ds' with
  | nil =>
    obtain ⟨⟩ := h
    exact .pure rfl
  | cons d ds ih =>
    obtain ⟨h, hs⟩ := h
    obtain ⟨hd, hds⟩ := forall_mem_cons.mp hds
    obtain ⟨hfree, hfrees⟩ := forall_mem_cons.mp hfree
    exact (declarator_echoes ty hd h hfree).andThen (ih hds hs hfrees)

/-! ## Statements -/

theorem condition_echoes (construct : Construct) (ht : Renamed y b' t t')
    (h : Echoes y b Blurs (expression t) (expression t')) :
    Echoes y b Eq (condition construct t) (condition construct t') := by
  unfold condition
  rw [ht.loc_eq]
  exact h.bind fun ty ty' hty => requireInt_echoes _ _ hty

theorem requireLoop_echoes (loc : Loc) (e : TypeError) :
    Echoes y false Eq (requireLoop loc e) (requireLoop loc e) := by
  refine .still fun c s s' hs he => ?_
  have happ (s : State) :
      requireLoop loc e s = (if s.loopDepth = 0 then report loc e else pure ()) s := rfl
  rw [happ] at he ⊢
  rw [happ, hs.alike.loopDepth_eq]
  by_cases hloop : s.loopDepth = 0
  · rw [if_pos hloop] at he
    exact absurd he (errors_report_ne loc e s)
  · rw [if_neg hloop]
    exact ⟨(), (), rfl, rfl, rfl⟩

theorem returnIn_echoes (inFunction : Bool) (expected : Ty) (loc : Loc) {es es' : List Tree}
    (hes : ∀ e ∈ es, IsExpr N e) (hlen : es.length ≤ 1) (h : RenamedAll y b es es') :
    Echoes y b Eq (returnIn inFunction expected loc es) (returnIn inFunction expected loc es') := by
  unfold returnIn
  split
  · exact .report _ _ _
  · match es with
    | [] =>
      obtain ⟨⟩ := h
      dsimp only
      split
      · exact .pure rfl
      · exact .report _ _ _
    | [e] =>
      obtain ⟨h, ⟨⟩⟩ := h
      dsimp only
      rw [h.loc_eq]
      refine (expression_echoes (hes e mem_cons_self) h).bind fun ty ty' hty => ?_
      split
      · exact .report _ _ _
      · exact requireAccepted_echoes _ _ _ (.inl rfl) hty
    | _ :: _ :: _ => simp at hlen

theorem returnValue_echoes (loc : Loc) {es es' : List Tree} (hes : ∀ e ∈ es, IsExpr N e)
    (hlen : es.length ≤ 1) (h : RenamedAll y b es es') :
    Echoes y b Eq (returnValue loc es) (returnValue loc es') := by
  intro c s s' hs he
  rw [returnValue_apply] at he ⊢
  rw [returnValue_apply, hs.alike.inFunction_eq, hs.alike.returnType_eq]
  exact returnIn_echoes _ _ loc hes hlen h c s s' hs he

theorem optional_echoes (he : IsOptional N t) (h : Renamed y b t t') :
    Echoes y b Blurs (expression t) (expression t') := by
  cases he with
  | omitted loc =>
    obtain ⟨-, ⟨⟩⟩ := h
    unfold expression
    exact .pure (.inl rfl)
  | expr _ he => exact expression_echoes he h

theorem declaration_echoes (ht : IsDeclaration N T t) (h : Renamed y b t t')
    (hfree : t.isFree y) : Echoes y b Eq (statement t) (statement t') := by
  obtain ⟨loc, _, d, ds, ⟨text, loc', -⟩, hd, hds⟩ := ht
  obtain ⟨-, ⟨-, ⟨⟩⟩, h⟩ := h
  unfold statement
  rw [Bool.or_false]
  exact declarators_echoes _ (forall_mem_cons.mpr ⟨hd, hds⟩) h
    fun d hd => isFree_child hfree (mem_cons_of_mem _ hd)

mutual

/-- **Statements with other names.** -/
theorem statement_echoes {t t' : Tree} {b : Bool} : IsStmt N T t → Renamed y b t t' →
    t.isFree y → Echoes y b Eq (statement t) (statement t')
  | .block t ht, h, hfree => block_echoes ht h hfree
  | .declaration t ht, h, hfree => declaration_echoes ht h hfree
  | .exprStmt loc e he, h, _ => by
    obtain ⟨-, h, ⟨⟩⟩ := h
    unfold statement
    exact (expression_echoes he h).discard
  | .returnNothing loc, h, _ => by
    obtain ⟨-, h⟩ := h
    unfold statement
    exact returnValue_echoes loc (forall_mem_nil (IsExpr N)) (Nat.zero_le 1) h
  | .returnValue loc e he, h, _ => by
    obtain ⟨-, h⟩ := h
    unfold statement
    exact returnValue_echoes loc (forall_mem_singleton.mpr he) (Nat.le_refl 1) h
  | .breakStmt loc, h, _ | .continueStmt loc, h, _ => by
    obtain ⟨-, ⟨⟩⟩ := h
    unfold statement
    exact requireLoop_echoes loc _
  | .conditional loc c body rest hc hbody hrest, h, hfree => by
    obtain ⟨-, h, h', hs⟩ := h
    obtain ⟨hfreeBody, hfreeRest⟩ := forall_mem_cons.mp
      (forall_mem_cons.mp fun c hc => isFree_child hfree hc).2
    have hbranches := branches_echoes hrest hs hfreeRest
    have hfirst := block_echoes hbody h' hfreeBody
    unfold statement
    refine (condition_echoes _ h (expression_echoes hc h)).andThen ?_
    obtain ⟨loc', ts, hts⟩ := hbody
    cases h' with
    | node =>
      unfold branchStatements
      exact hfirst.andThen hbranches
  | .whileLoop loc c body hc hbody, h, hfree => by
    obtain ⟨-, h, h', ⟨⟩⟩ := h
    have hfreeBody : body.isFree y := isFree_child hfree (mem_cons_of_mem c mem_cons_self)
    unfold statement statements statements
    exact (condition_echoes _ h (expression_echoes hc h)).andThen
      (inLoop_echoes ((block_echoes hbody h' hfreeBody).bind fun _ _ _ => .pure rfl))
  | .doWhile loc body c hbody hc, h, hfree => by
    obtain ⟨-, h, h', ⟨⟩⟩ := h
    unfold statement
    exact (inLoop_echoes (block_echoes hbody h (isFree_child hfree mem_cons_self))).andThen
      (condition_echoes _ h' (expression_echoes hc h'))
  | .forLoop loc first c step body hfirst hc hstep hbody, h, hfree => by
    obtain ⟨-, h₁, h₂, h₃, h₄, ⟨⟩⟩ := h
    have hfreeBody : body.isFree y := isFree_child hfree (by simp)
    unfold statement forStatements
    refine inScope_echoes (Echoes.andThen ?_
      ((condition_echoes _ h₂ (optional_echoes hc h₂)).andThen
      ((optional_echoes hstep h₃).discard.andThen
        (inLoop_echoes (block_echoes hbody h₄ hfreeBody)))))
    cases hfirst with
    | omitted loc =>
      obtain ⟨-, ⟨⟩⟩ := h₁
      unfold statement
      exact .pure rfl
    | declaration _ ht => exact declaration_echoes ht h₁ (isFree_child hfree mem_cons_self)
    | expr loc e he =>
      obtain ⟨-, h, ⟨⟩⟩ := h₁
      unfold statement
      exact (expression_echoes he h).discard

theorem block_echoes {t t' : Tree} {b : Bool} : IsBlock N T t → Renamed y b t t' →
    t.isFree y → Echoes y b Eq (statement t) (statement t')
  | .mk loc ts hts, h, hfree => by
    obtain ⟨-, h⟩ := h
    unfold statement
    exact inScope_echoes (statements_echoes hts h fun c hc => isFree_child hfree hc)

theorem statements_echoes {ts ts' : List Tree} {b : Bool} : AreStmts N T ts →
    RenamedAll y b ts ts' → (∀ t ∈ ts, t.isFree y) →
      Echoes y b Eq (statements ts) (statements ts')
  | .nil, h, _ => by
    obtain ⟨⟩ := h
    unfold statements
    exact .pure rfl
  | .cons t ts ht hts, h, hfree => by
    obtain ⟨h, hs⟩ := h
    obtain ⟨hfree, hfrees⟩ := forall_mem_cons.mp hfree
    unfold statements
    exact (statement_echoes ht h hfree).andThen (statements_echoes hts hs hfrees)

theorem branches_echoes {ts ts' : List Tree} {b : Bool} : AreBranches N T ts →
    RenamedAll y b ts ts' → (∀ t ∈ ts, t.isFree y) →
      Echoes y b Eq (branchStatements ts) (branchStatements ts')
  | .nil, h, _ => by
    obtain ⟨⟩ := h
    unfold branchStatements
    exact .pure rfl
  | .last body hbody, h, hfree => by
    obtain ⟨h, ⟨⟩⟩ := h
    have hlast := block_echoes hbody h (hfree body mem_cons_self)
    obtain ⟨loc', ts, hts⟩ := hbody
    cases h with
    | node =>
      unfold branchStatements branchStatements
      exact hlast.andThen (.pure rfl)
  | .elseIf loc c body ts hc hbody hts, h, hfree => by
    obtain ⟨⟨-, h, h', ⟨⟩⟩, hs⟩ := h
    obtain ⟨hfree, hfrees⟩ := forall_mem_cons.mp hfree
    have hfreeBody : body.isFree y := isFree_child hfree (mem_cons_of_mem c mem_cons_self)
    unfold branchStatements statements statements
    rw [← Bool.or_assoc]
    exact (condition_echoes _ h (expression_echoes hc h)).andThen
      (((block_echoes hbody h' hfreeBody).bind fun _ _ _ => .pure rfl).andThen
        (branches_echoes hts hs hfrees))

end

/-! ## Functions -/

theorem exists_last {params ts : List Tree} {body : Tree}
    (hparams : ∀ p ∈ params, IsParameter N T p) (h : RenamedAll y b (params ++ [body]) ts) :
    ∃ body', ts = params ++ [body'] ∧ Renamed y b body body' := by
  induction params generalizing b ts with
  | nil =>
    obtain ⟨h, ⟨⟩⟩ := h
    exact ⟨_, rfl, h⟩
  | cons p params ih =>
    obtain ⟨⟨_, _, _, _, -, ⟨_, _, -⟩⟩, hrest⟩ := forall_mem_cons.mp hparams
    obtain ⟨⟨-, ⟨-, ⟨⟩⟩, ⟨⟩⟩, h⟩ := h
    obtain ⟨body', rfl, hbody⟩ := ih hrest h
    exact ⟨body', rfl, (Bool.or_false _).symm ▸ hbody⟩

theorem exists_body {f' : Tree} (hf : IsFunction N T f) (h : Renamed y b f f') :
    ∃ ty params body body', f.children = ty :: (params ++ [body]) ∧ ty.kind = .typeName ∧
      (∀ p ∈ params, p.kind = .parameter) ∧ IsBlock N T body ∧ Renamed y b body body' ∧
      f' = { f with children := ty :: (params ++ [body']) } := by
  obtain ⟨x, loc, _, params, body, -, ⟨text, loc', -⟩, hparams, hbody⟩ := hf
  obtain ⟨-, ⟨-, ⟨⟩⟩, h⟩ := h
  obtain ⟨body', rfl, hbody'⟩ := exists_last hparams h
  exact ⟨_, params, body, body', rfl, rfl, fun p hp => (hparams p hp).kind_eq, hbody,
    (Bool.or_false _).symm ▸ hbody', rfl⟩

theorem parameters_echoes {params : List Tree} (h : ∀ p ∈ params, p.text ≠ y) :
    Echoes y false Eq (params.forM fun p => declareVar p (parameterTy p))
      (params.forM fun p => declareVar p (parameterTy p)) := by
  induction params with
  | nil => exact .pure rfl
  | cons p params ih =>
    obtain ⟨hp, hparams⟩ := forall_mem_cons.mp h
    exact (declareVar_echoes _ rfl rfl hp).stillThen (ih hparams)

/-- **Functions with other names.** -/
theorem function_echoes {f' : Tree} (hf : IsFunction N T f) (h : Renamed y b f f')
    (hfree : f.isFree y) (hs : s.Clean y) (he : (function f s).2.errors = #[]) :
    Follows y b (function f s).2 (function f' s).2 := by
  obtain ⟨ty, params, body, body', hchildren, hty, hkinds, hbody, hrenamed, hf'⟩ :=
    exists_body hf h
  have hblock := hbody.kind_eq
  have hfrees : ∀ c ∈ ty :: (params ++ [body]), c.isFree y :=
    fun c hc => isFree_child hfree (hchildren ▸ hc)
  have hnames : ∀ p ∈ params, p.text ≠ y := fun p hp =>
    text_ne_of_isFree (hfrees p (by simp [hp])) (by rw [hkinds p hp]; rfl)
  have hinside (t body' : Tree) (hchildren : t.children = ty :: (params ++ [body']))
      (hblock' : body'.kind = .block) : insideFunction t =
        inScope ((params.forM fun p => declareVar p (parameterTy p)) >>=
            fun _ => statement body') := by
    unfold insideFunction
    rw [hchildren, parametersOf_function hty hkinds hblock', bodyOf?_function ty params hblock']
  have hechoes : Echoes y b Eq (insideFunction f) (insideFunction f') := by
    rw [hinside f body hchildren hblock,
      hinside f' body' (by rw [hf']) (hrenamed.kind_eq.trans hblock)]
    exact inScope_echoes ((parameters_echoes hnames).stillThen
      (block_echoes hbody hrenamed (hfrees body (by simp))))
  have henter : (s.enterFunction (.ofFirst f.children)).Clean y := ⟨hs.errors_eq, rfl, hs.lookup_eq⟩
  have hty' : Ty.ofFirst f'.children = .ofFirst f.children := by
    rw [hf', hchildren]
    rfl
  rw [function_apply] at he ⊢
  rw [function_apply, hty']
  have hafter := (hechoes _ _ _ henter.follows he).2
  rw [Bool.or_false] at hafter
  exact hafter.map (g := fun s => { s with inFunction := false, returnType := .void })
    (fun o => by cases o <;> rfl) rfl rfl hafter.lookup_eq

/-! ## Programs -/

theorem item_echoes (ht : IsItem N T t) (h : Renamed y b t t') (hfree : t.isFree y)
    (hs : s.Clean y) (he : (item t s).2.errors = #[]) :
    Follows y b (item t s).2 (item t' s).2 := by
  cases ht with
  | function hf =>
    have hk : t.kind = .function := by obtain ⟨⟩ := hf; rfl
    rw [item_eq_function hk] at he ⊢
    rw [item_eq_function (h.kind_eq.trans hk)]
    exact function_echoes hf h hfree hs he
  | stmt ht =>
    have hk : t.kind ≠ .function := kind_ne_function ht
    rw [item_eq_statement hk] at he ⊢
    rw [item_eq_statement (t := t') (h.kind_eq ▸ hk)]
    exact Bool.or_false b ▸ (statement_echoes ht h hfree _ _ _ hs.follows he).2

theorem item_clean (ht : IsItem N T t) (hfree : t.isFree y) (hs : s.Clean y)
    (he : (item t s).2.errors = #[]) : (item t s).2.Clean y := by
  have hnone : AreVariables .item t [] := fun _ h => absurd h not_mem_nil
  obtain ⟨b, -, hb⟩ := renamed_rename (y := y) t hnone
  exact (item_echoes ht hb hfree hs he).toClean

theorem declareFunctions_clean {fs : List Tree} (hfs : ∀ f ∈ fs, f.text ≠ y) (hs : s.Clean y)
    (he : (fs.forM declareFunction s).2.errors = #[]) : (fs.forM declareFunction s).2.Clean y := by
  induction fs generalizing s with
  | nil => exact hs
  | cons f fs ih =>
    obtain ⟨hf, hfs⟩ := forall_mem_cons.mp hfs
    have hfirst : (declareFunction f s).2.errors = #[] :=
      errors_of_bind (f := fun _ => fs.forM declareFunction) he
    obtain ⟨Γ, hΓ, hrun⟩ := declareFunction_goes f hfirst
    have hclean : (s.withScopes Γ).Clean y := by
      refine ⟨hs.errors_eq, hs.undeclared_eq, ?_⟩
      show Γ.lookup? y = none
      rw [Scopes.lookup?_declare? hΓ, if_neg hf.symm, hs.lookup_eq]
    have hstep : (f :: fs).forM declareFunction s = fs.forM declareFunction (s.withScopes Γ) := by
      show (declareFunction f >>= fun _ => fs.forM declareFunction) s = _
      rw [bind_of_eq hrun]
    rw [hstep] at he ⊢
    exact ih hfs hclean he

end Checker

open Checker

namespace Tree

variable {N T : String → Prop} {y : String} {ps : List (List Nat)} {t f : Tree} {k : Nat}

theorem itemErrors_eq_nil (h : t.typeErrors = #[]) (k : Nat) : t.itemErrors k = [] := by
  have hall := t.typeErrors_eq_flatMap
  rw [h, eq_comm, append_eq_nil_iff, flatMap_eq_nil_iff] at hall
  by_cases hk : k < t.children.length
  · exact hall.2 k (mem_range.mpr hk)
  · rw [itemErrors, beforeItem_of_none (getElem?_eq_none (Nat.le_of_not_lt hk)),
      ← Array.length_toList, drop_length]

theorem errors_beforeItem_eq_empty (h : t.typeErrors = #[]) (k : Nat) :
    (t.beforeItem k).errors = #[] := by
  induction k with
  | zero =>
    have hall := t.typeErrors_eq_flatMap
    rw [h, eq_comm, append_eq_nil_iff] at hall
    exact Array.toList_eq_nil_iff.mp hall.1
  | succ k ih =>
    have hnext := t.errors_beforeItem_succ k
    rw [ih, itemErrors_eq_nil h k] at hnext
    exact Array.toList_eq_nil_iff.mp hnext

/-- Nothing in a typed program is called `y`. -/
theorem beforeItem_clean (hshape : ∀ c ∈ t.children, IsItem N T c) (h : t.typeErrors = #[])
    (hfree : t.isFree y) (hbuiltin : Builtin.ofName? y = none) (k : Nat) :
    (t.beforeItem k).Clean y := by
  have herrors := errors_beforeItem_eq_empty h
  induction k with
  | zero =>
    have hnames : ∀ f ∈ t.children.filter (fun c => c.kind == .function), f.text ≠ y := by
      intro f hf
      obtain ⟨hmem, hk⟩ := mem_filter.mp hf
      refine text_ne_of_isFree (isFree_child hfree hmem) ?_
      rw [beq_iff_eq.mp hk]
      rfl
    have hstart : State.start.Clean y := by
      refine ⟨rfl, rfl, ?_⟩
      show Scopes.lookup? [Scopes.builtins] y = none
      simp [Scopes.lookup?, Scopes.lookup_builtins, hbuiltin]
    exact declareFunctions_clean hnames hstart (herrors 0)
  | succ k ih =>
    cases hc : t.children[k]? with
    | none => rwa [beforeItem_of_none hc]
    | some c =>
      have hmem : c ∈ t.children := mem_of_getElem? hc
      have hafter := herrors (k + 1)
      rw [beforeItem_succ hc] at hafter ⊢
      exact item_clean (hshape c hmem) (isFree_child hfree hmem) ih hafter

theorem getElem?_renameFrom (ts : List Tree) (i j : Nat) :
    (renameFrom y ps i ts)[j]? = ts[j]?.map (rename y (placesIn (i + j) ps)) := by
  induction ts generalizing i j with
  | nil => rw [renameFrom]; rfl
  | cons t ts ih =>
    rw [renameFrom]
    cases j with
    | zero => rfl
    | succ j => rw [getElem?_cons_succ, ih, getElem?_cons_succ, Nat.add_right_comm]; rfl

theorem rename_program {body : Tree} (hf : t.children[k]? = some f)
    (hk : ∀ p ∈ ps, p.head? = some k)
    (hbody : f.rename y (placesIn k ps) = { f with children := f.children.dropLast ++ [body] }) :
    t.rename y ps = t.withBody k body := by
  have hself : [] ∉ ps := fun hmem => by cases hk [] hmem
  have hcontains : ps.contains [] = false := by
    rw [← Bool.not_eq_true, contains_iff_mem]
    exact hself
  obtain ⟨kind, text, isArray, loc, children⟩ := t
  rw [rename, hcontains, withBody]
  congr 1
  refine ext_getElem? fun j => ?_
  rw [getElem?_renameFrom, Nat.zero_add, getElem?_modify]
  by_cases hj : k = j
  · subst hj
    simp [show children[k]? = some f from hf, hbody]
  · have hnone : placesIn j ps = [] :=
      placesIn_eq_nil fun p hp => hj (Option.some.inj (hk _ hp)).symm
    rw [hnone]
    cases children[j]? <;> simp [hj, rename_nil]

theorem flatMap_of_ne {α β : Type} {a : α} {g : α → List β} {l : List α} (h : ∀ b, b ≠ a → g b = [])
    (hl : l.Nodup) (ha : a ∈ l) : l.flatMap g = g a := by
  obtain ⟨l₁, l₂, rfl⟩ := append_of_mem ha
  obtain ⟨hnot, -⟩ := nodup_cons.mp (nodup_middle.mp hl)
  have hnil (l : List α) (hl : a ∉ l) : l.flatMap g = [] :=
    flatMap_eq_nil_iff.mpr fun b hb => h b (ne_of_mem_of_not_mem hb hl)
  rw [mem_append, not_or] at hnot
  rw [flatMap_append, flatMap_cons, hnil l₁ hnot.1, hnil l₂ hnot.2, append_nil, nil_append]

/-- **An undeclared name is one error.** Some variables of one function of a typed program are
called `y` instead, and nothing else is called so: then that is the only error. -/
theorem rename_typeErrors (hshape : ∀ c ∈ t.children, IsItem N T c) (h : t.typeErrors = #[])
    (hf : t.children[k]? = some f) (hfun : f.kind = .function) (hne : ps ≠ [])
    (hps : ∀ p ∈ ps, p.head? = some k ∧ (t.variableAt? p).isSome) (hfree : t.isFree y)
    (hbuiltin : Builtin.ofName? y = none) :
    (∃ loc, (t.rename y ps).typeErrors = #[⟨loc, .undeclaredVariable y⟩]) ∧
      (TypeError.undeclaredVariable y).message = "Undeclared variable: " ++ y := by
  have hmem : f ∈ t.children := List.mem_of_getElem? hf
  have hfunction : IsFunction N T f := by
    cases hshape f hmem with
    | function hf => exact hf
    | stmt hs => exact absurd hfun (kind_ne_function hs)
  have hvariables : AreVariables .program t ps := by
    intro p hp
    obtain ⟨x, hx⟩ := Option.isSome_iff_exists.mp (hps p hp).2
    obtain ⟨e, he, hident, -⟩ := variableAt?_eq_some hx
    exact ⟨e, he, hident⟩
  obtain ⟨part, hinside⟩ := hvariables.child hf
  obtain ⟨b, hb, hrenamed⟩ := renamed_rename (y := y) f hinside
  obtain ⟨ty, params, old, body, hchildren, -, -, hold', hbody, hf'⟩ :=
    exists_body hfunction hrenamed
  have hblock : body.kind = .block := hbody.kind_eq.trans hold'.kind_eq
  have hold : (bodyOf? f.children).isSome := by
    rw [hchildren, bodyOf?_function ty params hold'.kind_eq]
    rfl
  have hself : f.rename y (placesIn k ps) =
      { f with children := f.children.dropLast ++ [body] } := by
    rw [hf', hchildren, ← List.cons_append, ← List.cons_append, List.dropLast_concat]
  have hrename := rename_program hf (fun p hp => (hps p hp).1) hself
  have hclean := beforeItem_clean hshape h hfree hbuiltin
  -- the errors of the function
  have hone : ∃ loc, (t.withBody k body).itemErrors k = [⟨loc, .undeclaredVariable y⟩] := by
    have hbefore := beforeItem_withBody_of_le hf hold hblock (Nat.le_refl k)
    have hafter : (item f (t.beforeItem k)).2.errors = #[] := by
      rw [← beforeItem_succ hf]
      exact errors_beforeItem_eq_empty h (k + 1)
    obtain ⟨p, hp⟩ := List.exists_mem_of_ne_nil _ hne
    obtain ⟨_, rfl⟩ := List.head?_eq_some_iff.mp (hps p hp).1
    have hflag : b = true := hb (List.ne_nil_of_mem (mem_placesIn.mpr hp))
    obtain ⟨o, ho, hspoilt⟩ :=
      (item_echoes (hshape f hmem) hrenamed (isFree_child hfree hmem) (hclean k) hafter).spoilt
    obtain ⟨loc, rfl⟩ := Option.isSome_iff_exists.mp (ho.trans hflag)
    refine ⟨loc, ?_⟩
    rw [itemErrors, beforeItem_succ (getElem?_withBody_self hf), hbefore, ← hself, hspoilt,
      (hclean k).errors_eq]
    rfl
  -- the errors of the other items
  have hother (j : Nat) (hj : j ≠ k) : (t.withBody k body).itemErrors j = [] := by
    have hnone : t.freshErrors j = [] := by
      have hreported : t.reportedBefore j = [] := by
        unfold reportedBefore
        rw [(hclean j).undeclared_eq]
        split
        · exact ite_self _
        · rfl
      have hnil := itemErrors_eq_nil h j
      rwa [itemErrors_eq_filter, hreported, List.filter_eq_self.mpr
        fun e _ => by rw [e.isHidden_nil]; rfl] at hnil
    rw [itemErrors_eq_filter, freshErrors_withBody hf hold hblock hfun hj, hnone, List.filter_nil]
  obtain ⟨loc, hone⟩ := hone
  refine ⟨⟨loc, ?_⟩, rfl⟩
  rw [hrename, ← Array.toList_inj, typeErrors_eq_flatMap, beforeItem_withBody_of_le hf hold
    hblock (Nat.zero_le k), (hclean 0).errors_eq, flatMap_of_ne hother List.nodup_range, hone]
  · rfl
  · rw [withBody, List.length_modify]
    exact List.mem_range.mpr (List.getElem?_eq_some_iff.mp hf).1

end Tree

/-- A source text with variables as values, targets, bases and indices. -/
def pickFrom : String :=
  "fn int f(int a[], int n) { int x = n; x = a[0] + x; if (x < n) { return a[x]; } return n; }"

/-- The places of an initial value, a target, a base and an index. -/
def pickFromPlaces : List (List Nat) :=
  [[0, 3, 0, 1, 0], [0, 3, 1, 0, 0], [0, 3, 1, 0, 1, 0, 0], [0, 3, 2, 1, 0, 0, 1]]

/-- All four variables are called `y` instead. -/
theorem pickFrom_rename_typeErrors :
    (parse pickFrom).1.typeErrors = #[] ∧ (pickFromPlaces.map (parse pickFrom).1.variableAt?) =
      [some "n", some "x", some "a", some "x"] ∧
    ∃ loc, ((parse pickFrom).1.rename "y" pickFromPlaces).typeErrors =
      #[⟨loc, .undeclaredVariable "y"⟩] := by
  have hfacts : (parse pickFrom).1.typeErrors = #[] ∧
      (pickFromPlaces.map (parse pickFrom).1.variableAt?) =
        [some "n", some "x", some "a", some "x"] ∧
      ((parse pickFrom).1.children[0]?.map Tree.kind) = some .function ∧
      (∀ p ∈ pickFromPlaces, p.head? = some 0 ∧ ((parse pickFrom).1.variableAt? p).isSome) ∧
      (parse pickFrom).1.isFree "y" := by
    rw [parse_ofList pickFrom rfl]
    decide +kernel
  obtain ⟨htyped, hnames, hfirst, hplaces, hfree⟩ := hfacts
  obtain ⟨f, hf, hfun⟩ := Option.map_eq_some_iff.mp hfirst
  have hshape := parse_isItem standIns_source (Token.scan_fits pickFrom)
  exact ⟨htyped, hnames, (Tree.rename_typeErrors hshape htyped hf hfun (by decide) hplaces
    hfree (by decide)).1⟩

end Stacklet
