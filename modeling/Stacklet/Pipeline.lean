import Stacklet.Code.Lower
import Stacklet.Diagnostic
import Stacklet.Machine.Trace
import Stacklet.Token.Scan
import Stacklet.Tree.Parse
import Stacklet.Typing.Check
/-!
# From source text to results

* `parse`: the tree of a source text and the errors in it.
* `compile`: the program of a source text, or all errors of the first stage that has any.
* `runSource`: compiles a source text and runs the program once.
* `parseRecords`, `lowerRecords`, `compileRecords`: what the stages report.
-/

namespace Stacklet

/-- The tree of a source text, and its syntax errors. -/
def parse (source : String) : Tree × Array (Located SyntaxError) := Tree.parse (Token.scan source)

theorem parse_ofList (source : String) {cs : List Char} (h : source = .ofList cs) :
    parse source = Tree.parse (Cursor.tokens ⟨cs, .start⟩) := by
  rw [parse, Token.scan_ofList source h]

theorem parse_append (source : String) {cs ds : List Char} (h : source = .ofList cs ++ .ofList ds) :
    parse source = Tree.parse (Cursor.tokens ⟨cs ++ ds, .start⟩) :=
  parse_ofList source (h.trans String.ofList_append.symm)

/-- The program of a source text, or the errors of the first stage that finds any. -/
def compile (source : String) : Except (List Diagnostic) Program :=
  let (tree, syntaxErrors) := parse source
  if syntaxErrors.isEmpty then
    let typeErrors := tree.typeErrors
    if typeErrors.isEmpty then .ok tree.lower
    else .error (typeErrors.toList.map .typing)
  else .error (syntaxErrors.toList.map .parsing)

/-- Compiles a source text and runs it once. The errors are those of compiling, or the fault of the
run. None if `fuel` steps are not enough. -/
def runSource (source : String) (fuel : Nat) (world : World) :
    Option (Except (List Diagnostic) Unit × World) :=
  match compile source with
  | .error es => some (.error es, world)
  | .ok program =>
    let m := Machine.load program
    (m.run fuel { toWorld := world }).map fun r =>
      match r.fault? m with
      | some f => (.error [.running f], r.state.toWorld)
      | none => (.ok (), r.state.toWorld)

/-! ## Records -/

/-- What was done to how many things. -/
def counted (done : String) (n : Nat) (things : String) : String :=
  done ++ " " ++ Number.decimal n ++ " " ++ things

/-- What scanning reports. -/
def scanRecord (tokens : List Token) : Record :=
  ⟨.debug, .tokens, counted "lexed" tokens.length "tokens"⟩

/-- What parsing reports. -/
def parseRecord (tree : Tree) (errors : Nat) : Record :=
  ⟨.debug, .trees,
    counted (counted "parsed" tree.children.length "top-level items with") errors "syntax errors"⟩

/-- What lowering reports. -/
def lowerRecords (program : Program) : List Record :=
  [⟨.debug, .code, counted "generated" program.code.size "instructions"⟩]

/-- What scanning and parsing report about a source text. -/
def parseRecords (source : String) : List Record :=
  let (tree, errors) := parse source
  [scanRecord (Token.scan source), parseRecord tree errors.size]

/-- What the stages of `compile` report, up to the last one that is reached. -/
def compileRecords (source : String) : List Record :=
  let tokens := Token.scan source
  let (tree, syntaxErrors) := Tree.parse tokens
  let scanned :=
    [scanRecord tokens, ⟨.trace, .pipeline, counted "lexed" tokens.length "tokens"⟩,
      parseRecord tree syntaxErrors.size]
  if syntaxErrors.isEmpty then
    let typeErrors := tree.typeErrors
    let checked : List Record :=
      [⟨.trace, .pipeline, counted "parsed" tree.count "nodes"⟩,
        ⟨.debug, .typing, counted "semantic analysis found" typeErrors.size "errors"⟩]
    if typeErrors.isEmpty then
      scanned ++ checked ++ lowerRecords tree.lower ++
        [⟨.trace, .pipeline, counted "generated" tree.lower.code.size "instructions"⟩]
    else scanned ++ checked
  else scanned

end Stacklet
