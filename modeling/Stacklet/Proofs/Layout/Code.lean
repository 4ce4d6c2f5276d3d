import Stacklet.Proofs.Layout.Typing
import Stacklet.Proofs.Parsing.Printer
import Stacklet.Proofs.Emission.Statement
/-!
# Programs from sources with the same tokens

* `Emit.State.Like`: states that differ in the places of their instructions only, and these are
  related.
* `Emit.expression_tandem`, `Emit.statement_tandem`: like trees are lowered in tandem.
* `Tree.Like.lower`: like trees have the same code and the same names, at related places.
* `Machine.run_congr`: runs depend on the code only.
* **`compile_of_tokens`**: sources whose tokens agree in kinds and texts have the same program up to
  places, or the same errors of the same stage, and run in the same way.
-/

namespace Stacklet

open List

variable {source source' : String}

namespace Emit

open Stacklet.Tree

variable {M : Loc → Loc → Prop} {t t' : Tree} {ts ts' : List Tree} {loc loc' : Loc}

/-! ## Single instructions -/

def State.relocate (s : State) (locs : Array Loc) : State :=
  { s with program := { s.program with locs } }

/-- States that differ in the places of their instructions only. There is a place for each
instruction. -/
def State.Like (M : Loc → Loc → Prop) (s s' : State) : Prop :=
  ∃ locs, s' = s.relocate locs ∧ List.Forall₂ M s.program.locs.toList locs.toList ∧
    s.program.locs.size = s.program.code.size

/-- Computations that have the same result and the same effect up to places. -/
abbrev Matches {α : Type} (M : Loc → Loc → Prop) (x x' : Emit α) : Prop :=
  Tandem (State.Like M) Eq x x'

theorem change_tandem {g : State → State} (hg : ∀ s locs, g (s.relocate locs) = (g s).relocate locs)
    (hcode : ∀ s, (g s).program.code = s.program.code := by intros; rfl) :
    Matches M (modify g : Emit Unit) (modify g) := by
  refine .change ?_
  rintro s _ ⟨locs, rfl, hlocs, hsize⟩
  have hself : g s = (g s).relocate s.program.locs := hg s s.program.locs
  have hsame : (g s).program.locs = s.program.locs := by rw [hself]; rfl
  exact ⟨locs, hg s locs, hsame ▸ hlocs, by rw [hsame, hcode, hsize]⟩

theorem emit_tandem (hloc : M loc loc') (i : Instr) : Matches M (emit loc i) (emit loc' i) := by
  refine .change ?_
  rintro s _ ⟨locs, rfl, hlocs, hsize⟩
  refine ⟨locs.push loc', rfl, ?_, ?_⟩
  · show List.Forall₂ M (s.program.locs.push loc).toList _
    rw [Array.toList_push, Array.toList_push]
    exact rel_append hlocs (.cons hloc .nil)
  · show (s.program.locs.push loc).size = (s.program.code.push i).size
    rw [Array.size_push, Array.size_push, hsize]

theorem emitThen {α : Type} {i : Instr} {x x' : Emit α} (hloc : M loc loc') (h : Matches M x x') :
    Matches M (emit loc i >>= fun _ => x) (emit loc' i >>= fun _ => x') :=
  (emit_tandem hloc i).bindEq fun _ => h

theorem mention_tandem (text : String) : Matches M (mention text) (mention text) :=
  change_tandem (by intros; rfl)

theorem freshLabel_tandem : Matches M freshLabel freshLabel := by
  rintro s _ ⟨locs, rfl, hlocs⟩
  exact ⟨rfl, locs, rfl, hlocs⟩

theorem freshSlot_tandem : Matches M freshSlot freshSlot := by
  rintro s _ ⟨locs, rfl, hlocs⟩
  exact ⟨rfl, locs, rfl, hlocs⟩

theorem declare_tandem (name : String) : Matches M (declare name) (declare name) := by
  refine Tandem.read.bind ?_
  rintro s _ ⟨locs, rfl, hlocs⟩
  have hrest (slot : String) : Matches M
      (do mention slot; modify fun s => s.bind name slot; return slot)
          (do mention slot; modify fun s => s.bind name slot; return slot) :=
    (mention_tandem slot).bindEq fun _ => (change_tandem (by intros; rfl)).bindEq fun _ => .pure rfl
  have hslot : (s.relocate locs).slot? name = s.slot? name := rfl
  dsimp only
  rw [hslot]
  split
  · exact freshSlot_tandem.bindEq fun n => hrest _
  · exact hrest _

theorem hiddenSlot_tandem : Matches M hiddenSlot hiddenSlot :=
  freshSlot_tandem.bindEq fun _ => (mention_tandem _).bindEq fun _ => .pure rfl

theorem resolve_tandem (name : String) : Matches M (resolve name) (resolve name) := by
  refine Tandem.read.bind ?_
  rintro s _ ⟨locs, rfl, hlocs⟩
  have hslot : (s.relocate locs).slot? name = s.slot? name := rfl
  rw [hslot]
  split
  · exact .pure rfl
  · exact (mention_tandem name).bindEq fun _ => .pure rfl

theorem isDouble_tandem (slot : String) : Matches M (isDouble slot) (isDouble slot) := by
  rintro s _ ⟨locs, rfl, hlocs⟩
  exact ⟨rfl, locs, rfl, hlocs⟩

theorem returnsValue_tandem (f : String) : Matches M (returnsValue f) (returnsValue f) := by
  unfold returnsValue
  split
  · exact .pure rfl
  · rintro s _ ⟨locs, rfl, hlocs⟩
    exact ⟨rfl, locs, rfl, hlocs⟩

theorem inScope_tandem {x x' : Emit Unit} (h : Matches M x x') :
    Matches M (inScope x) (inScope x') :=
  (change_tandem (by intros; rfl)).bindEq fun _ => h.bindEq fun _ => change_tandem (by intros; rfl)

theorem inLoop_tandem (labels : LoopLabels) {x x' : Emit Unit} (h : Matches M x x') :
    Matches M (inLoop labels x) (inLoop labels x') :=
  (change_tandem (by intros; rfl)).bindEq fun _ => h.bindEq fun _ => change_tandem (by intros; rfl)

theorem zeroValue_tandem (hloc : M loc loc') (ty : Ty) :
    Matches M (zeroValue loc ty) (zeroValue loc' ty) := by
  cases ty with
  | string => exact (mention_tandem _).bindEq fun _ => emit_tandem hloc _
  | _ => exact emit_tandem hloc _

theorem settle_tandem (hloc : M loc loc') (d : Demand) : Matches M (settle loc d) (settle loc' d) :=
  .ite (emit_tandem hloc _) (.pure rfl)

theorem unaryOp_tandem (hloc : M loc loc') (op : String) :
    Matches M (unaryOp loc op) (unaryOp loc' op) := by
  unfold unaryOp
  split
  · exact emit_tandem hloc _
  · exact emit_tandem hloc _
  · exact .pure rfl

/-! ## Expressions -/

mutual

theorem expression_tandem {t t' : Tree} :
    Tree.Like M t t' → ∀ d, Matches M (expression t d) (expression t' d)
  | .mk kind text isArray loc loc' ts ts' hloc hts, d => by
    have hsettle := settle_tandem hloc d
    unfold expression
    cases kind with
    | number => exact emitThen hloc hsettle
    | string => exact (mention_tandem _).bindEq fun _ => emitThen hloc hsettle
    | identifier => exact (resolve_tandem _).bindEq fun _ => emitThen hloc hsettle
    | unary =>
      have hop := (unaryOp_tandem hloc text).bindEq fun _ => hsettle
      cases hts with
      | nil => exact hop
      | cons he _ => exact (expression_tandem he _).bindEq fun _ => hop
    | binary => exact (values_tandem hts).bindEq fun _ => emitThen hloc hsettle
    | comma => exact sequence_tandem hts _
    | assign =>
      have hzero : Matches M (if d ≠ .effect then emit loc (.pushInt 0) else pure ())
        (if d ≠ .effect then emit loc' (.pushInt 0) else pure ()) :=
          .ite (emit_tandem hloc _) (.pure rfl)
      match hts with
      | .nil => exact hzero
      | .cons (.mk kind _ _ _ _ us us' _ hus) .nil =>
        match hus with
        | .nil | .cons _ .nil | .cons _ (.cons ..) => cases kind <;> exact hzero
      | .cons (.mk kind x isArray l l' us us' _ hus) (.cons hv _) =>
        cases kind with
        | identifier =>
          refine (resolve_tandem x).bindEq fun slot =>
            (isDouble_tandem slot).bindEq fun isDouble => ?_
          refine (expression_tandem hv _).bindEq fun _ => emitThen hloc ?_
          exact .ite (emit_tandem hloc _) (.pure rfl)
        | index =>
          match hus with
          | .nil | .cons _ .nil => exact .pure rfl
          | .cons hb (.cons hi _) =>
            dsimp only
            rw [hb.text_eq]
            refine (resolve_tandem _).bindEq fun slot =>
              (isDouble_tandem slot).bindEq fun isDouble => ?_
            refine (expression_tandem hv _).bindEq fun _ => .ite ?_ ?_
            · exact (expression_tandem hi _).bindEq fun _ => emit_tandem hloc _
            · refine hiddenSlot_tandem.bindEq fun held => emitThen hloc <| emitThen hloc ?_
              refine (expression_tandem hi _).bindEq fun _ => emitThen hloc <| emit_tandem hloc _
        | _ => exact expression_tandem hv _
    | call =>
      cases hts with
      | nil => exact .pure rfl
      | cons hf hargs =>
        dsimp only
        rw [hf.text_eq]
        refine (values_tandem hargs).bindEq fun _ => (mention_tandem _).bindEq fun _ =>
          emitThen hloc ?_
        exact .ite ((returnsValue_tandem _).bindEq fun _ => .ite (emit_tandem hloc _) (.pure rfl))
          (.pure rfl)
    | index => exact (values_tandem hts).bindEq fun _ => emitThen hloc hsettle
    | empty => exact .ite (.pure rfl) (emit_tandem hloc _)
    | _ => exact emitThen hloc hsettle

theorem values_tandem {ts ts' : List Tree} : AllLike M ts ts' → Matches M (values ts) (values ts')
  | .nil => .pure rfl
  | .cons ht hts => by
    unfold values
    exact (expression_tandem ht _).bindEq fun _ => values_tandem hts

theorem sequence_tandem {ts ts' : List Tree} :
    AllLike M ts ts' → ∀ d, Matches M (sequence ts d) (sequence ts' d)
  | .nil, d => .pure rfl
  | .cons ht .nil, d => by
    unfold sequence
    exact expression_tandem ht d
  | .cons ht (.cons hu hus), d => by
    unfold sequence
    exact (expression_tandem ht _).bindEq fun _ => sequence_tandem (.cons hu hus) d

end

/-! ## Statements -/

theorem initialValue_tandem (ht : Tree.Like M t t') (ty : Ty) :
    Matches M (initialValue ty t) (initialValue ty t') := by
  obtain ⟨kind, text, isArray, loc, loc', ts, ts', hloc, hts⟩ := ht
  cases hts with
  | nil => exact .ite (emitThen hloc <| emit_tandem hloc _) (zeroValue_tandem hloc ty)
  | cons he _ =>
    exact .ite ((expression_tandem he _).bindEq fun _ => emit_tandem hloc _)
      (expression_tandem he _)

theorem markDouble_tandem (slot : String) : Matches M (markDouble slot) (markDouble slot) :=
  change_tandem (by intros; rfl)

theorem declarator_tandem (ht : Tree.Like M t t') (ty : Ty) :
    Matches M (declarator ty t) (declarator ty t') := by
  refine (initialValue_tandem ht ty).bindEq fun _ => ?_
  unfold introduce
  rw [ht.text_eq]
  refine (declare_tandem _).bindEq fun slot => ?_
  have hstore := emit_tandem ht.loc_like (.store slot)
  exact .ite ((markDouble_tandem slot).bindEq fun _ => hstore) hstore

theorem loopJump_tandem (hloc : M loc loc') (target : LoopLabels → String) :
    Matches M (loopJump loc target) (loopJump loc' target) := by
  refine Tandem.read.bind ?_
  rintro s _ ⟨locs, rfl, -⟩
  have hloops : (s.relocate locs).loops = s.loops := rfl
  rw [hloops]
  split
  · exact emit_tandem hloc _
  · exact .pure rfl

theorem unlessTrue_tandem (ht : Tree.Like M t t') (target : String) :
    Matches M (unlessTrue t target) (unlessTrue t' target) :=
  (expression_tandem ht _).bindEq fun _ => emit_tandem ht.loc_like _

theorem closed_matches : Closed M fun _ => Matches M where
  mono h := h
  nothing := .pure rfl
  expression := expression_tandem
  seq hx hy := hx.bindEq fun _ => hy
  look hf h := by
    refine Tandem.read.bind ?_
    rintro s _ ⟨locs, rfl, -⟩
    rw [State.relocate, (hf s _).2]
    exact h s
  ret hloc := emit_tandem hloc _
  leap target hloc _ := loopJump_tandem hloc target
  declarator ty ht := declarator_tandem ht ty
  scope := inScope_tandem
  skip hc l _ := unlessTrue_tandem hc l
  branch hc hbody _ _ := freshLabel_tandem.bindEq fun _ => (unlessTrue_tandem hc _).bindEq fun _ =>
    hbody.bindEq fun _ => emitThen hc.loc_like <| emit_tandem hc.loc_like _
  conditional hloc h := freshLabel_tandem.bindEq fun done => (h done).bindEq fun _ =>
    emit_tandem hloc _
  whileLoop hloc htest hbody :=
    freshLabel_tandem.bindEq fun _ => freshLabel_tandem.bindEq fun done => emitThen hloc <|
    (htest done).bindEq fun _ => (inLoop_tandem _ hbody).bindEq fun _ =>
      emitThen hloc <| emit_tandem hloc _
  doWhile hloc htest hbody :=
    freshLabel_tandem.bindEq fun _ => freshLabel_tandem.bindEq fun _ =>
        freshLabel_tandem.bindEq fun done =>
    emitThen hloc <| (inLoop_tandem _ hbody).bindEq fun _ => emitThen hloc <|
    (htest done).bindEq fun _ => emitThen hloc <| emit_tandem hloc _
  forLoop hloc htest hbody hstep :=
    freshLabel_tandem.bindEq fun _ => freshLabel_tandem.bindEq fun _ =>
        freshLabel_tandem.bindEq fun done =>
    emitThen hloc <| (htest done).bindEq fun _ => (inLoop_tandem _ hbody).bindEq fun _ =>
    emitThen hloc <| hstep.bindEq fun _ => emitThen hloc <| emit_tandem hloc _

theorem statement_tandem (ht : Tree.Like M t t') : Matches M (statement t) (statement t') :=
  closed_matches.statement ht

/-! ## Programs -/

/-- Related slots: the same one, and the places are related. -/
def SlotLike (M : Loc → Loc → Prop) (p p' : Loc × String) : Prop := M p.1 p'.1 ∧ p'.2 = p.2

theorem parameter_tandem (ht : Tree.Like M t t') :
    Tandem (State.Like M) (SlotLike M) (parameter t) (parameter t') := by
  unfold parameter
  rw [ht.text_eq, parameterTy, parameterTy, ht.children.ofFirst_eq]
  refine (declare_tandem _).bindEq fun slot => ?_
  have hslot : Tandem (State.Like M) (SlotLike M) (pure (t.loc, slot)) (pure (t'.loc, slot)) :=
    .pure ⟨ht.loc_like, rfl⟩
  exact .ite ((markDouble_tandem slot).bindEq fun _ => hslot) hslot

theorem parameters_tandem (hts : AllLike M ts ts') :
    Tandem (State.Like M) (List.Forall₂ (SlotLike M)) (ts.mapM parameter) (ts'.mapM parameter) := by
  induction hts with
  | nil =>
    rw [mapM_nil]
    exact .pure .nil
  | cons ht _ ih =>
    rw [mapM_cons, mapM_cons]
    exact (parameter_tandem ht).bind fun p p' hp => ih.bind fun ps ps' hps => .pure (.cons hp hps)

theorem stores_tandem {ps ps' : List (Loc × String)} (h : List.Forall₂ (SlotLike M) ps ps') :
    Matches M (ps.forM fun (loc, slot) => emit loc (.store slot))
      (ps'.forM fun (loc, slot) => emit loc (.store slot)) := by
  induction h with
  | nil => exact .pure rfl
  | @cons p p' ps ps' hp _ ih =>
    obtain ⟨loc, slot⟩ := p
    obtain ⟨loc', slot'⟩ := p'
    obtain ⟨hloc, rfl⟩ : M loc loc' ∧ slot' = slot := hp
    exact emitThen hloc ih

theorem forgetScopes_tandem : Matches M forgetScopes forgetScopes := change_tandem (by intros; rfl)

theorem prologue_tandem (ht : Tree.Like M t t') : Matches M (prologue t) (prologue t') := by
  have hparams := ht.children.parametersOf
  unfold prologue
  rw [ht.text_eq, ht.children.ofFirst_eq]
  refine (mention_tandem _).bindEq fun _ => emitThen ht.loc_like <| forgetScopes_tandem.bindEq
    fun _ => ?_
  refine (change_tandem (by intros; rfl)).bindEq fun _ =>
    (parameters_tandem hparams).bind fun ps ps' hps => ?_
  exact stores_tandem (rel_reverse hps)

theorem epilogue_tandem (hloc : M loc loc') : Matches M (epilogue loc) (epilogue loc') := by
  refine Tandem.read.bind ?_
  rintro s _ ⟨locs, rfl, -⟩
  refine .ite (.pure rfl) ?_
  exact .ite (emit_tandem hloc _) ((zeroValue_tandem hloc _).bindEq fun _ => emit_tandem hloc _)

theorem function_tandem (ht : Tree.Like M t t') : Matches M (function t) (function t') := by
  have hend : Matches M
      (do epilogue t.loc; forgetScopes; modify fun s : State => { s with returnType := .void })
      (do epilogue t'.loc; forgetScopes; modify fun s : State => { s with returnType := .void }) :=
    (epilogue_tandem ht.loc_like).bindEq fun _ => forgetScopes_tandem.bindEq fun _ =>
      change_tandem (by intros; rfl)
  have hbody := ht.children.bodyOf?
  refine (prologue_tandem ht).bindEq fun _ => ?_
  match bodyOf? t.children, bodyOf? t'.children, hbody with
  | none, none, _ => exact hend
  | some body, some body', hbody => exact (statement_tandem hbody).bindEq fun _ => hend

theorem item_tandem (ht : Tree.Like M t t') : Matches M (item t) (item t') := by
  unfold item
  rw [ht.kind_eq]
  exact .ite (function_tandem ht) (statement_tandem ht)

end Emit

/-- **Like trees have the same code and names**, at related places. There is a place for each
instruction. -/
theorem Tree.Like.lower {M : Loc → Loc → Prop} {t t' : Tree} (h : Tree.Like M t t') :
    t'.lower.code = t.lower.code ∧ t'.lower.names = t.lower.names ∧
      List.Forall₂ M t.lower.locs.toList t'.lower.locs.toList ∧
        t.lower.locs.size = t.lower.code.size := by
  have hfunctions : AllLike M t.functions t'.functions := h.functions
  have hvalued : (t'.functions.filter fun f => Ty.ofFirst f.children != .void).map Tree.text =
      (t.functions.filter fun f => Ty.ofFirst f.children != .void).map Tree.text :=
    (hfunctions.filter fun _ _ hf => by rw [hf.children.ofFirst_eq]).map_eq fun _ _ hf => hf.text_eq
  obtain ⟨-, locs, hstate, hlocs⟩ := Tandem.forM (fun _ _ => Emit.item_tandem) h.children
    { functions := t.functions.map Tree.text
      valued := (t.functions.filter fun f => Ty.ofFirst f.children != .void).map Tree.text } _ ⟨#[],
        rfl, .nil, rfl⟩
  have hlower : t'.lower = { t.lower with locs } := by
    unfold Tree.lower
    rw [hfunctions.map_eq fun _ _ ht => ht.text_eq, hvalued]
    exact congrArg Emit.State.program hstate
  rw [hlower]
  exact ⟨rfl, rfl, hlocs⟩

/-! ## Runs -/

namespace Machine

variable {p p' : Program}

theorem step_congr (h : p'.code = p.code) (entry : String) (limit : Nat) (s : State) :
    (load p' entry limit).step s = (load p entry limit).step s := by
  obtain ⟨code, locs, names⟩ := p
  obtain ⟨code', locs', names'⟩ := p'
  obtain rfl : code' = code := h
  rfl

/-- **Runs depend on the code only.** -/
theorem run_congr (h : p'.code = p.code) (entry : String) (limit : Nat) (fuel : Nat) (s : State) :
    (load p' entry limit).run fuel s = (load p entry limit).run fuel s := by
  have hfrom (fuel : Nat) (s : State) : (load p' entry limit).runFrom fuel s =
      (load p entry limit).runFrom fuel s := by
    induction fuel generalizing s with
    | zero => rfl
    | succ fuel ih =>
      rw [runFrom, runFrom, step_congr h]
      split
      · exact ih _
      · rfl
      · rfl
  have hstart : (load p' entry limit).start? s = (load p entry limit).start? s := by
    rw [start?, start?, target?, target?, load, load, Program.labels, Program.labels, h]
  rw [run, run, runBody, runBody, hstart]
  split
  · rw [hfrom]
  · rfl

end Machine

/-! ## Sources -/

/-- The diagnostic without its place. -/
def Diagnostic.unplaced : Diagnostic → Diagnostic
  | parsing e => parsing ⟨.nowhere, e.cause⟩
  | typing e => typing ⟨.nowhere, e.cause⟩
  | running e => running ⟨.nowhere, e.cause⟩

def unplacedResult (r : Except (List Diagnostic) Unit × World) : Except (List Diagnostic)
      Unit × World :=
  (r.1.mapError (map Diagnostic.unplaced), r.2)

theorem Parser.upcoming_of_unplaced {e e' : Token} (he : e.kind = .endOfInput)
    (he' : e'.kind = .endOfInput) :
    ∀ {ts ts' : List Token}, ts'.map Token.unplaced = ts.map Token.unplaced →
      Upcoming (fun _ _ => True) (fun _ _ => True) e e' ts ts'
  | [], [], _ => .stop _ _ he ⟨he'.trans he.symm, fun h => absurd he h, trivial, trivial⟩
  | t :: ts, t' :: ts', h => by
    obtain ⟨ht, hts⟩ := cons.inj h
    have hkind : t'.kind = t.kind := (congrArg Token.kind ht : t'.unplaced.kind = t.unplaced.kind)
    have htext : t'.text = t.text := (congrArg Token.text ht : t'.unplaced.text = t.unplaced.text)
    have hlike : TokenLike (fun _ _ => True) (fun _ _ => True) t t' :=
      ⟨hkind, fun _ => htext, trivial, trivial⟩
    by_cases hend : t.kind = .endOfInput
    · exact .stop _ _ hend hlike
    · exact .more _ _ _ _ hend hlike (upcoming_of_unplaced he he' hts)

theorem parse_of_tokens
    (h : (Token.scan source').map Token.unplaced = (Token.scan source).map Token.unplaced) :
    Tree.Like (fun _ _ => True) (parse source).1 (parse source').1 ∧
      Parser.ErrorsLike (fun _ _ => True) (parse source).2.toList (parse source').2.toList := by
  have hlevel : (Parser.State.ofTokens (Token.scan source)).Level (fun _ _ => True)
    (fun _ _ => True)
      (.ofTokens (Token.scan source')) :=
        ⟨rfl, Parser.upcoming_of_unplaced rfl rfl h, rfl, trivial, .nil⟩
  obtain ⟨hlike, hafter⟩ := Parser.program_lockstep trivial hlevel
  exact ⟨hlike, hafter.errors_like⟩

theorem Parser.ErrorsLike.map_unplaced {E : Loc → Loc → Prop} {es es' : List (Located SyntaxError)}
    (h : ErrorsLike E es es') :
    es'.map (Diagnostic.unplaced ∘ .parsing) = es.map (Diagnostic.unplaced ∘ .parsing) := by
  induction h with
  | nil => rfl
  | cons _ _ cause _ _ _ _ _ ih => rw [map_cons, ih, map_cons]; rfl

theorem map_unplaced_typing {M : Loc → Loc → Prop} {es es' : List (Located TypeError)}
    (h : List.Forall₂ (Checker.SameCause M) es es') :
    es'.map (Diagnostic.unplaced ∘ .typing) = es.map (Diagnostic.unplaced ∘ .typing) := by
  induction h with
  | nil => rfl
  | cons he _ ih =>
    rw [map_cons, ih, map_cons, Function.comp, Function.comp, Diagnostic.unplaced,
      Diagnostic.unplaced, he.1]

/-- Compiled alike: programs that differ in their places only, or errors of the same stage that
do. -/
def CompiledAlike : Except (List Diagnostic) Program → Except (List Diagnostic) Program → Prop
  | .ok p, .ok p' => p'.code = p.code ∧ p'.names = p.names
  | .error es, .error es' => es'.map Diagnostic.unplaced = es.map Diagnostic.unplaced
  | _, _ => False

theorem compile_alike
    (h : (Token.scan source').map Token.unplaced = (Token.scan source).map Token.unplaced) :
    CompiledAlike (compile source) (compile source') := by
  obtain ⟨htree, herrors⟩ := parse_of_tokens h
  have hsyntax := herrors.map_unplaced
  have htypes := map_unplaced_typing htree.typeErrors
  have hlower := htree.lower
  have hempty {ε : Type} {f : Located ε → Diagnostic} {es es' : Array (Located ε)}
      (hes : es'.toList.map (Diagnostic.unplaced ∘ f) = es.toList.map (Diagnostic.unplaced ∘ f)) :
          es'.isEmpty = es.isEmpty := by
    have hlength := congrArg length hes
    rw [length_map, length_map, Array.length_toList, Array.length_toList] at hlength
    rw [Array.isEmpty, Array.isEmpty, hlength]
  unfold compile
  generalize parse source = r, parse source' = r' at hsyntax htypes hlower ⊢
  obtain ⟨t, es⟩ := r
  obtain ⟨t', es'⟩ := r'
  dsimp only at hsyntax htypes hlower ⊢
  rw [hempty hsyntax, hempty htypes]
  split
  · split
    · exact ⟨hlower.1, hlower.2.1⟩
    · simpa [CompiledAlike] using htypes
  · simpa [CompiledAlike] using hsyntax

theorem runSource_alike (h : CompiledAlike (compile source) (compile source')) (fuel : Nat)
    (world : World) :
    (runSource source' fuel world).map unplacedResult = (runSource source fuel world).map
      unplacedResult := by
  unfold runSource
  match compile source, compile source', h with
  | .ok p, .ok p', h =>
    dsimp only
    rw [Machine.run_congr h.1, Option.map_map, Option.map_map]
    refine Option.map_congr fun r _ => ?_
    obtain ⟨_ | _, state⟩ := r <;> rfl
  | .error es, .error es', h => exact congrArg (fun es => some (Except.error es, world)) h

/-- **Layout does not matter.** Sources whose tokens agree in kinds and texts are both compiled, to
the same code and the same names with the same numbers, or both have the same errors of the same
stage in the same order. On the same input they end in the same way with the same output. Only
places may differ. -/
theorem compile_of_tokens {source source' : String}
    (h : (Token.scan source').map Token.unplaced = (Token.scan source).map Token.unplaced) :
    ((∃ p p', compile source = .ok p ∧ compile source' = .ok p' ∧
        p'.code = p.code ∧ p'.names = p.names) ∨
      ∃ es es', compile source = .error es ∧ compile source' = .error es' ∧
        es'.map Diagnostic.unplaced = es.map Diagnostic.unplaced) ∧
    ∀ fuel world, (runSource source' fuel world).map unplacedResult =
      (runSource source fuel world).map unplacedResult := by
  have halike := compile_alike h
  refine ⟨?_, runSource_alike halike⟩
  match hsource : compile source, hsource' : compile source', halike with
  | .ok p, .ok p', ⟨hcode, hnames⟩ => exact .inl ⟨p, p', rfl, rfl, hcode, hnames⟩
  | .error es, .error es', hes => exact .inr ⟨es, es', rfl, rfl, hes⟩

/-- A source on several lines, and one line with the same tokens. -/
def onLines : String :=
  "fn int main()\n\x7b\n  int x = 3;\n  printInt(x / 2);\n\n  return x;\n\x7d\n"

def onOneLine : String := "fn int main()\x7bint x=3;printInt(x/2);return x;\x7d"

theorem onOneLine_compile :
    (Token.scan onOneLine).map Token.unplaced = (Token.scan onLines).map Token.unplaced ∧
    (((∃ p p', compile onLines = .ok p ∧ compile onOneLine = .ok p' ∧ p'.code = p.code ∧
      p'.names = p.names) ∨
      ∃ es es', compile onLines = .error es ∧ compile onOneLine = .error es' ∧
        es'.map Diagnostic.unplaced = es.map Diagnostic.unplaced) ∧
    ∀ fuel world, (runSource onOneLine fuel world).map unplacedResult =
      (runSource onLines fuel world).map unplacedResult) := by
  have htokens : (Token.scan onOneLine).map Token.unplaced =
    (Token.scan onLines).map Token.unplaced := by
    rw [Token.scan_ofList onOneLine rfl, Token.scan_ofList onLines rfl]
    decide +kernel
  exact ⟨htokens, compile_of_tokens htokens⟩

end Stacklet
