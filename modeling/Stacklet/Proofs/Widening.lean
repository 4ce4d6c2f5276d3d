import Stacklet.Proofs.Scoping.Standing
/-!
# Integer literals that become doubles

Where a `double` is stored, an integer literal under minus signs is pushed as a double.

* `Tree.signedLiteral?`: integer literals under minus signs. `literalCode`: their code.
* `Tree.sharesDouble`: a name stands for a variable that has its slot from a double that was
  declared before. `Tree.widens`: what is assigned to a name is stored as a double.
  `FunctionIn.contains_doubles`: so lowering finds.
* **`compile_widens_literals`**: initial and returned values are pushed as the declared types say,
  and assigned values as the slots say. `exists_literals_unlike_declared`: which is not always what
  the declared types say.
-/

namespace Stacklet

open Emit
open Stacklet.Tree hiding lower

namespace Tree

/-- An integer literal under minus signs: the number of the signs and the text of the literal. -/
def signedLiteral? : Tree → Option (Nat × String)
  | { kind := .number, text, .. } => if isDoubleLiteral text then none else some (0, text)
  | { kind := .unary, text, children := [e], .. } =>
    if text = "-" then (signedLiteral? e).map fun l => (l.1 + 1, l.2) else none
  | _ => none

variable (t : Tree) (p : List Nat)

/-- The integer literal under minus signs that the name at a place is declared with. -/
def initialLiteralAt? : Option (Nat × String) :=
  match partAt? p .program t with
  | some (.declarator, { isArray := false, children := [e], .. }) => e.signedLiteral?
  | _ => none

/-- The integer literal under minus signs that the statement at a place returns. -/
def returnedLiteralAt? : Option (Nat × String) :=
  match partAt? p .program t with
  | some (.statement, { kind := .returnStmt, children := [e], .. }) => e.signedLiteral?
  | _ => none

/-- The name of the variable or the array to which the expression at a place assigns an integer
literal under minus signs, and the literal. -/
def assignedLiteralAt? : Option (String × Nat × String) :=
  match partAt? p .program t with
  | some (.expression, { kind := .assign, children := [target, value], .. }) =>
    value.signedLiteral?.map fun l => (assignedName target, l)
  | _ => none

variable (x : String)

/-- Whether no variable of a function has a name at a place of the function. -/
def isUnused : Bool := (resolve? (t.scopeAt p) x).isNone

/-- Whether the slot that a name stands for is the name itself: it does so for a variable from
outside of the function, and for one whose name was unused where it is declared. -/
def isPlain : Bool := (resolve? (t.scopeAt p) x).all fun d => t.isUnused d.place x

/-- Whether a name stands for a variable that has its slot from a double: a double of this name was
declared before in the function, in scope or not, and both have the plain name for their slot. -/
def sharesDouble : Bool :=
  t.isPlain p x && (t.passedAt p).any fun e => e.ty = .double ∧ e.name = x ∧ t.isUnused e.place x

/-- Whether integer literals that are assigned to a name become doubles. -/
def widens : Bool := (resolve? (t.scopeAt p) x).any (fun d => d.ty = .double) || t.sharesDouble p x

/-- Whether integer literals that are assigned to a name become what the declared type of the name
says. This goes wrong if a variable of the function is no double but has the slot of one. A double
from outside of the function is known as one only by the slot of a double inside of it. -/
def widensAsDeclared (ty : Ty) : Bool :=
  match resolve? (t.scopeAt p) x with
  | some _ => ty = .double || !t.sharesDouble p x
  | none => t.sharesDouble p x = decide (ty = .double)

variable {t p x} {l : Nat × String}

theorem initialLiteralAt?_eq_some (h : t.initialLiteralAt? p = some l) : ∃ u e,
    partAt? p .program t = some (.declarator, u) ∧ u.isArray = false ∧ u.children[0]? = some e ∧
    e.signedLiteral? = some l := by
  unfold initialLiteralAt? at h
  split at h
  · next e hp => exact ⟨_, e, hp, rfl, rfl, h⟩
  · cases h

theorem returnedLiteralAt?_eq_some (h : t.returnedLiteralAt? p = some l) : ∃ u e,
    partAt? p .program t = some (.statement, u) ∧ u.kind = .returnStmt ∧ u.children[0]? = some e ∧
      e.signedLiteral? = some l := by
  unfold returnedLiteralAt? at h
  split at h
  · next e hp => exact ⟨_, e, hp, rfl, rfl, h⟩
  · cases h

theorem assignedLiteralAt?_eq_some (h : t.assignedLiteralAt? p = some (x, l)) : ∃ u target value,
    partAt? p .program t = some (.expression, u) ∧ u.kind = .assign ∧ u.children = [target, value] ∧
      assignedName target = x ∧ value.signedLiteral? = some l := by
  unfold assignedLiteralAt? at h
  split at h
  · next target value hp =>
    obtain ⟨l', hl, heq⟩ := Option.map_eq_some_iff.mp h
    cases heq
    exact ⟨_, target, value, hp, rfl, rfl, rfl, hl⟩
  · cases h

end Tree

/-- The code of an integer literal under `n` minus signs, as a double or not. -/
def literalCode (n : Nat) (text : String) (isDouble : Bool) : List Instr :=
  (if isDouble then .pushDouble ((Number.readDouble? text.toList).getD 0)
    else .pushInt ((Number.readInt? text.toList).getD 0)) :: List.replicate n .neg

/-- **The code of an integer literal under minus signs.** -/
theorem HasType.code_signedLiteral {Γ : Scopes} {e : Tree} {text : String} (isDouble : Bool)
    (s : Emit.State) :
    ∀ {ty : Ty} {n : Nat}, HasType Γ e ty → e.signedLiteral? = some (n, text) →
    code (expression e (.ofDouble isDouble)) s = literalCode n text isDouble := by
  have hdemand : Demand.ofDouble (Demand.ofDouble isDouble = .double ∧ "-" = "-") =
      .ofDouble isDouble := by
    cases isDouble <;> rfl
  have hdropped : dropped (.ofDouble isDouble) = [] := by cases isDouble <;> rfl
  induction e using induction with
  | h e ih =>
    intro ty n hty h
    cases hty with
    | number text' loc =>
      rw [signedLiteral?, Option.ite_none_left_eq_some] at h
      cases h.2
      rw [code_number, hdropped]
      cases isDouble <;> simp [literal, h.1, literalCode, Demand.ofDouble]
    | unary op loc e ty ty' he hop =>
      rw [signedLiteral?, Option.ite_none_right_eq_some] at h
      obtain ⟨rfl, h⟩ := h
      obtain ⟨⟨m, _⟩, hm, heq⟩ := Option.map_eq_some_iff.mp h
      cases heq
      rw [code_unary, hdemand, ih e (List.mem_singleton_self e) he hm, hdropped]
      simp [literalCode, unaryCode, List.replicate_succ']
    | _ => cases h

/-! ## Slots of doubles -/

section Names

variable {t c u : Tree} {k : Nat} {p : List Nat} {part : Tree.Part} {x : String}
  (ht : FunctionIn IsName t k c)
  (hp : partAt? (k :: p) .program t = some (part, u)) (hinner : part.IsInner)

include ht hp hinner

/-- The doubles that had a plain name for their slot are those whose name was unused. -/
theorem FunctionIn.any_plain_iff :
    ((t.passedAt (k :: p)).any fun e => e.ty = .double ∧ e.name = x ∧ t.isUnused e.place x) ↔
      ∃ e ∈ t.passedAt (k :: p), e.ty = .double ∧ e.name = x ∧ t.slotAt e.place = e.name := by
  have hplain (e : Tree.Declaration) (he : e ∈ t.passedAt (k :: p)) :
      t.slotAt e.place = e.name ↔ t.isUnused e.place e.name := by
    have hname := ((ht.aligned hp hinner).owned e he).1
    rw [ht.slotAt_eq_name_iff (ht.standsIn hp e he) hname, isUnused, Option.isNone_iff_eq_none]
  simp only [List.any_eq_true, decide_eq_true_eq]
  refine exists_congr fun e => and_congr_right fun he => and_congr_right fun _ =>
    and_congr_right fun hname => ?_
  rw [hplain e he, hname]

/-- **Lowering finds a double** for a name if its slot is one of a double. -/
theorem FunctionIn.contains_doubles {ty : Ty} {isArray : Bool}
    (hx : (t.checkedAt (k :: p)).scopes.lookup? x = some (.var ty isArray)) :
    (t.loweredAt (k :: p)).doubles.contains ((t.loweredAt (k :: p)).slotOf x) =
      t.widens (k :: p) x := by
  have ha := ht.aligned hp hinner
  have hany := ht.any_plain_iff hp hinner (x := x)
  rw [Bool.eq_iff_iff, List.contains_iff_mem, widens, sharesDouble, Bool.or_eq_true,
    Bool.and_eq_true, hany]
  cases hd : resolve? (t.scopeAt (k :: p)) x with
  | some d =>
    obtain ⟨hmem, rfl⟩ := mem_of_resolve? hd
    have hmem := ha.subset hmem
    have hplain : t.slotAt d.place = d.name ↔ t.isPlain (k :: p) d.name := by
      have hname := (ha.owned d hmem).1
      rw [ht.slotAt_eq_name_iff (ht.standsIn hp d hmem) hname]
      simp [isPlain, hd, isUnused]
    rw [ha.slotOf_eq hd, ha.mem_doubles_iff hmem, hplain]
    simp
  | none =>
    have hname : IsName x := by
      rw [ha.lookup?_eq, hd] at hx
      exact ht.named k _ _ _ hx
    have hslot : (t.loweredAt (k :: p)).slotOf x = x := by
      rw [State.slotOf, ha.slot?_eq, hd]
      rfl
    rw [hslot, ha.name_mem_doubles_iff hname]
    simp [isPlain, hd]

theorem FunctionIn.widens_eq_iff {ty : Ty} {isArray : Bool}
    (hx : (t.checkedAt (k :: p)).scopes.lookup? x = some (.var ty isArray)) :
    t.widens (k :: p) x = decide (ty = .double) ↔ t.widensAsDeclared (k :: p) x ty := by
  rw [(ht.aligned hp hinner).lookup?_eq] at hx
  unfold widens widensAsDeclared
  cases hd : resolve? (t.scopeAt (k :: p)) x with
  | none => simp
  | some d =>
    have hty : d.ty = ty := by
      rw [hd] at hx
      cases hx
      rfl
    by_cases hdouble : ty = .double <;> simp [hty, hdouble]

end Names

/-! ## Values that are stored and returned -/

section Values

variable {t c u e : Tree} {k n : Nat} {p : List Nat} {text : String}

section

variable {N : String → Prop} (ht : TypedTree N t)

include ht

theorem TypedTree.exists_literalCode (hp : partAt? p .program t = some (.expression, e))
    {isDouble : Bool} (hrole : t.roleAt p = .value (.ofDouble isDouble))
    (he : e.signedLiteral? = some (n, text)) :
    ∃ behind, t.lower.code.toList = t.codeAhead p ++ (literalCode n text isDouble ++ behind) := by
  obtain ⟨-, behind, hcode⟩ := ht.exists_code hp
  cases ht.reach hp with
  | expression _ _ _ ty _ hty =>
    rw [hrole, lower_value, hty.code_signedLiteral isDouble _ he] at hcode
    exact ⟨behind, hcode⟩

theorem TypedTree.roleAt_initial (hp : partAt? p .program t = some (.declarator, u))
    (harray : u.isArray = false) (he : u.children[0]? = some e) :
    partAt? (p ++ [0]) .program t = some (.expression, e) ∧
      ∃ d, t.declarationAt? p = some d ∧
        t.roleAt (p ++ [0]) = .value (.ofDouble (d.ty = .double)) := by
  obtain ⟨d, Γ, hat, -, -, -, hrole, -, hdeclares⟩ := ht.declares hp
  have hkind : u.kind = .declarator := by cases hdeclares <;> rfl
  refine ⟨partAt?_snoc hp he (by rw [hkind]; rfl), d, hat, ?_⟩
  rw [roleAt_snoc hp he, hrole, (ahead_initial u 0 (t.loweredAt p) d.ty).role_eq, harray]
  rfl

theorem TypedTree.exists_initialLiteral (hl : t.initialLiteralAt? p = some (n, text)) :
    ∃ d behind, t.declarationAt? p = some d ∧
      t.lower.code.toList = t.codeAhead (p ++ [0]) ++
        (literalCode n text (d.ty = .double) ++ behind) := by
  obtain ⟨u, e, hp, harray, hu, he⟩ := initialLiteralAt?_eq_some hl
  obtain ⟨hvalue, d, hd, hrole⟩ := ht.roleAt_initial hp harray hu
  obtain ⟨behind, hcode⟩ := ht.exists_literalCode hvalue hrole he
  exact ⟨d, behind, hd, hcode⟩

end

variable (ht : FunctionIn IsName t k c)

include ht

theorem FunctionIn.roleAt_returned (hp : partAt? (k :: p) .program t = some (.statement, u))
    (hreturn : u.kind = .returnStmt) (he : u.children[0]? = some e) :
    partAt? ((k :: p) ++ [0]) .program t = some (.expression, e) ∧
      t.roleAt ((k :: p) ++ [0]) = .value (.ofDouble (Ty.ofFirst c.children = .double)) := by
  have hrole := (ht.exists_code hp).1.eq_statement
  have hty := (ht.around_function hp ⟨nofun, nofun⟩).returnType_eq
  refine ⟨partAt?_snoc hp he (by rw [hreturn]; rfl), ?_⟩
  rw [roleAt_snoc hp he, hrole]
  cases ht.reach hp with
  | statement ret loop _ Γ _ hu =>
    cases hu with
    | returnStmt _ _ loc e =>
      rw [(ahead_returnStmt loc (t.loweredAt (k :: p)) e).role_eq, hty]
      rfl
    | block _ _ _ hb =>
      obtain ⟨⟩ := hb
      cases hreturn
    | _ => cases hreturn

theorem FunctionIn.exists_returnedLiteral (hl : t.returnedLiteralAt? (k :: p) = some (n, text)) :
    ∃ behind, t.lower.code.toList =
      t.codeAhead ((k :: p) ++ [0]) ++
        (literalCode n text (Ty.ofFirst c.children = .double) ++ behind) := by
  obtain ⟨u, e, hp, hreturn, hu, he⟩ := returnedLiteralAt?_eq_some hl
  obtain ⟨hvalue, hrole⟩ := ht.roleAt_returned hp hreturn hu
  exact ht.exists_literalCode hvalue hrole he

theorem FunctionIn.roleAt_assigned {target value : Tree}
    (hp : partAt? (k :: p) .program t = some (.expression, u)) (hassign : u.kind = .assign)
    (hu : u.children = [target, value]) :
    partAt? ((k :: p) ++ [1]) .program t = some (.expression, value) ∧
      ∃ ty isArray, (t.checkedAt (k :: p)).scopes.lookup? (assignedName target) =
        some (.var ty isArray) ∧
        t.roleAt ((k :: p) ++ [1]) =
          .value (.ofDouble (t.widens (k :: p) (assignedName target))) := by
  have hvalue : u.children[1]? = some value := by rw [hu]; rfl
  refine ⟨partAt?_snoc hp hvalue (by rw [hassign]; rfl), ?_⟩
  have htyped : ∃ loc ty isArray, u = ⟨.assign, "=", false, loc, [target, value]⟩ ∧
      (t.checkedAt (k :: p)).scopes.lookup? (assignedName target) = some (.var ty isArray) := by
    cases ht.reach hp with
    | expression _ _ _ _ _ hty =>
      cases hty with
      | assign loc loc' x _ ty _ isArray hx =>
        cases hu
        exact ⟨loc, _, isArray, rfl, hx⟩
      | assignItem loc loc' loc'' x i _ ty _ hx =>
        cases hu
        exact ⟨loc, _, true, rfl, hx⟩
      | _ => cases hassign
  obtain ⟨loc, ty, isArray, rfl, hx⟩ := htyped
  refine ⟨ty, isArray, hx, ?_⟩
  have hsuits := (ht.exists_code hp).1
  rw [roleAt_snoc hp hvalue]
  generalize t.roleAt (k :: p) = r at hsuits
  cases hsuits with
  | value d =>
    rw [(ahead_assigned loc d (t.loweredAt (k :: p)) target value).role_eq, State.demandOf,
      ht.contains_doubles hp ⟨nofun, nofun⟩ hx]

theorem FunctionIn.exists_assignedLiteral {x : String}
    (hl : t.assignedLiteralAt? (k :: p) = some (x, n, text)) :
    ∃ ty isArray behind, (t.checkedAt (k :: p)).scopes.lookup? x = some (.var ty isArray) ∧
      t.lower.code.toList = t.codeAhead ((k :: p) ++ [1]) ++
        (literalCode n text (t.widens (k :: p) x) ++ behind) ∧
      (t.widens (k :: p) x = decide (ty = .double) ↔ t.widensAsDeclared (k :: p) x ty) := by
  obtain ⟨u, target, value, hp, hassign, hu, rfl, he⟩ := assignedLiteralAt?_eq_some hl
  obtain ⟨hvalue, ty, isArray, hx, hrole⟩ := ht.roleAt_assigned hp hassign hu
  obtain ⟨behind, hcode⟩ := ht.exists_literalCode hvalue hrole he
  exact ⟨ty, isArray, behind, hx, hcode, ht.widens_eq_iff hp ⟨nofun, nofun⟩ hx⟩

end Values

/-- **Integer literals become doubles as declared types and slots say.** In an accepted source, an
integer literal under minus signs is pushed as a double

* as an initial value, if the declared type is `double`;
* as a returned value, if the function returns a `double`;
* as a value that is assigned to a variable or an item of an array in a function, if the name stands
  for a double of the function, or has its slot from one. This is what the type says that typing
  finds for the name, unless the name stands for another variable of the function that has its slot
  from a double, or for one from outside of it.

Else it is pushed as an integer. -/
theorem compile_widens_literals {source : String} {program : Program}
    (h : compile source = .ok program) :
    let t := (parse source).1
    (∀ p n text, t.initialLiteralAt? p = some (n, text) → ∃ d behind, t.declarationAt? p = some d ∧
      program.code.toList = t.codeAhead (p ++ [0]) ++
        (literalCode n text (d.ty = .double) ++ behind)) ∧
    ∀ k c, t.children[k]? = some c → c.kind = .function →
      (∀ p n text, t.returnedLiteralAt? (k :: p) = some (n, text) → ∃ behind, program.code.toList =
        t.codeAhead ((k :: p) ++ [0]) ++
          (literalCode n text (Ty.ofFirst c.children = .double) ++ behind)) ∧
      ∀ p x n text, t.assignedLiteralAt? (k :: p) = some (x, n, text) → ∃ ty isArray behind,
        (t.checkedAt (k :: p)).scopes.lookup? x = some (.var ty isArray) ∧
        program.code.toList =
          t.codeAhead ((k :: p) ++ [1]) ++ (literalCode n text (t.widens (k :: p) x) ++ behind) ∧
        (t.widens (k :: p) x = decide (ty = .double) ↔ t.widensAsDeclared (k :: p) x ty) := by
  obtain ⟨ht, rfl⟩ := compile_typedTree h
  intro t
  refine ⟨fun p n text hl => ?_,
    fun k c hc hfun => ⟨fun p n text hl => ?_, fun p x n text hl => ?_⟩⟩
  · exact ht.exists_initialLiteral hl
  · exact FunctionIn.exists_returnedLiteral ⟨ht, hc, hfun⟩ hl
  · exact FunctionIn.exists_assignedLiteral ⟨ht, hc, hfun⟩ hl

/-- A source text with a double that is hidden by another variable. -/
def hiddenDouble : String :=
  "fn double f(int n) { double x = -1; { int x; x = - -2; } x = 3; return -4; }"

/-- The inner variable has a slot of its own, so that its value is an integer. -/
theorem hiddenDouble_widens_literals :
    compile hiddenDouble = .ok (parse hiddenDouble).1.lower ∧
    (∃ behind, (parse hiddenDouble).1.lower.code.toList =
      (parse hiddenDouble).1.codeAhead [0, 2, 0, 1, 0] ++ (literalCode 1 "1" true ++ behind)) ∧
    (∃ behind, (parse hiddenDouble).1.lower.code.toList =
      (parse hiddenDouble).1.codeAhead [0, 2, 3, 0] ++ (literalCode 1 "4" true ++ behind)) ∧
    (∃ behind, (parse hiddenDouble).1.lower.code.toList =
      (parse hiddenDouble).1.codeAhead [0, 2, 2, 0, 1] ++ (literalCode 0 "3" true ++ behind)) ∧
    ∃ behind, (parse hiddenDouble).1.lower.code.toList =
      (parse hiddenDouble).1.codeAhead [0, 2, 1, 1, 0, 1] ++
        (literalCode 2 "2" false ++ behind) := by
  have hfacts : (parse hiddenDouble).2.isEmpty ∧ (parse hiddenDouble).1.typeErrors.isEmpty ∧
      (parse hiddenDouble).1.initialLiteralAt? [0, 2, 0, 1] = some (1, "1") ∧
      ((parse hiddenDouble).1.declarationAt? [0, 2, 0, 1]).map Tree.Declaration.ty = some .double ∧
      ((parse hiddenDouble).1.children[0]?).map (fun c => (c.kind, Ty.ofFirst c.children)) =
        some (.function, .double) ∧
      (parse hiddenDouble).1.returnedLiteralAt? [0, 2, 3] = some (1, "4") ∧
      (parse hiddenDouble).1.assignedLiteralAt? [0, 2, 2, 0] = some ("x", 0, "3") ∧
      (parse hiddenDouble).1.widens [0, 2, 2, 0] "x" = true ∧
      (parse hiddenDouble).1.assignedLiteralAt? [0, 2, 1, 1, 0] = some ("x", 2, "2") ∧
      (parse hiddenDouble).1.widens [0, 2, 1, 1, 0] "x" = false := by
    rw [parse_ofList hiddenDouble rfl]
    decide +kernel
  obtain ⟨hparse, htypes, hinitial, hdeclared, hitem, hreturned, houter, hdouble, hinner, hint⟩ :=
    hfacts
  have hcompile := compile_of_isEmpty hparse htypes
  obtain ⟨hinitials, hothers⟩ := compile_widens_literals hcompile
  obtain ⟨c, hc, hcfacts⟩ := Option.map_eq_some_iff.mp hitem
  obtain ⟨hfun, hty⟩ := Prod.mk.inj hcfacts
  obtain ⟨hreturns, hassigns⟩ := hothers 0 c hc hfun
  obtain ⟨d, behind, hd, hcode⟩ := hinitials _ _ _ hinitial
  obtain ⟨behind', hcode'⟩ := hreturns _ _ _ hreturned
  obtain ⟨_, _, behind₁, -, hcode₁, -⟩ := hassigns _ _ _ _ houter
  obtain ⟨_, _, behind₂, -, hcode₂, -⟩ := hassigns _ _ _ _ hinner
  have hdty : d.ty = .double := by
    rw [hd] at hdeclared
    exact Option.some.inj hdeclared
  rw [hdty] at hcode
  rw [hty] at hcode'
  rw [hdouble] at hcode₁
  rw [hint] at hcode₂
  exact ⟨hcompile, ⟨behind, hcode⟩, ⟨behind', hcode'⟩, ⟨behind₁, hcode₁⟩, ⟨behind₂, hcode₂⟩⟩

/-- A source text in which an `int` has the slot of a double that is out of scope. -/
def doubleBeside : String := "fn int main() { { double x = 1; } { int x; x = 3; } return 0; }"

/-- A source text with a double from outside of a function. -/
def outerDouble : String := "double x; fn int main() { x = 3; return 0; }"

/-- An integer literal is pushed as a double for an `int`, and as an integer for a `double`. -/
theorem exists_literals_unlike_declared :
    (∃ program behind, compile doubleBeside = .ok program ∧
      ((parse doubleBeside).1.checkedAt [0, 1, 1, 1, 0]).scopes.lookup? "x" =
        some (.var .int false) ∧
      program.code.toList = (parse doubleBeside).1.codeAhead [0, 1, 1, 1, 0, 1] ++
        (literalCode 0 "3" true ++ behind)) ∧
    ∃ program behind, compile outerDouble = .ok program ∧
      ((parse outerDouble).1.checkedAt [1, 1, 0, 0]).scopes.lookup? "x" =
        some (.var .double false) ∧
      program.code.toList = (parse outerDouble).1.codeAhead [1, 1, 0, 0, 1] ++
        (literalCode 0 "3" false ++ behind) := by
  have assigned {source : String} (hparse : (parse source).2.isEmpty)
      (htypes : (parse source).1.typeErrors.isEmpty) {k : Nat} {p : List Nat}
      (hitem : (parse source).1.children[k]?.map Tree.kind = some .function)
      (hl : (parse source).1.assignedLiteralAt? (k :: p) = some ("x", 0, "3")) :
      compile source = .ok (parse source).1.lower ∧ ∃ behind, (parse source).1.lower.code.toList =
        (parse source).1.codeAhead ((k :: p) ++ [1]) ++
          (literalCode 0 "3" ((parse source).1.widens (k :: p) "x") ++ behind) := by
    have hcompile := compile_of_isEmpty hparse htypes
    obtain ⟨c, hc, hfun⟩ := Option.map_eq_some_iff.mp hitem
    have hf : FunctionIn IsName (parse source).1 k c := ⟨(compile_typedTree hcompile).1, hc, hfun⟩
    obtain ⟨_, _, behind, -, hcode, -⟩ := hf.exists_assignedLiteral hl
    exact ⟨hcompile, behind, hcode⟩
  have hbeside : (parse doubleBeside).2.isEmpty ∧ (parse doubleBeside).1.typeErrors.isEmpty ∧
      (parse doubleBeside).1.children[0]?.map Tree.kind = some .function ∧
      (parse doubleBeside).1.assignedLiteralAt? [0, 1, 1, 1, 0] = some ("x", 0, "3") ∧
      ((parse doubleBeside).1.checkedAt [0, 1, 1, 1, 0]).scopes.lookup? "x" =
        some (.var .int false) ∧
      (parse doubleBeside).1.widens [0, 1, 1, 1, 0] "x" = true := by
    rw [parse_ofList doubleBeside rfl]
    decide +kernel
  have houter : (parse outerDouble).2.isEmpty ∧ (parse outerDouble).1.typeErrors.isEmpty ∧
      (parse outerDouble).1.children[1]?.map Tree.kind = some .function ∧
      (parse outerDouble).1.assignedLiteralAt? [1, 1, 0, 0] = some ("x", 0, "3") ∧
      ((parse outerDouble).1.checkedAt [1, 1, 0, 0]).scopes.lookup? "x" =
        some (.var .double false) ∧
      (parse outerDouble).1.widens [1, 1, 0, 0] "x" = false := by
    rw [parse_ofList outerDouble rfl]
    decide +kernel
  obtain ⟨hparse, htypes, hitem, hl, hx, hwidens⟩ := hbeside
  obtain ⟨hparse', htypes', hitem', hl', hx', hwidens'⟩ := houter
  obtain ⟨hcompile, behind, hcode⟩ := assigned hparse htypes hitem hl
  obtain ⟨hcompile', behind', hcode'⟩ := assigned hparse' htypes' hitem' hl'
  rw [hwidens] at hcode
  rw [hwidens'] at hcode'
  exact ⟨⟨_, behind, hcompile, hx, hcode⟩, _, behind', hcompile', hx', hcode'⟩

end Stacklet
