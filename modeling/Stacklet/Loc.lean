/-!
# Places in a source text

* `Loc`: a line and a column. `Loc.after` moves a place over a text; columns count characters and
  only a line feed starts a new line.
* `Located`: something that is reported at a place.
-/

namespace Stacklet

/-- A place in a source text. Lines and columns count from one. -/
structure Loc where
  line : Nat
  col : Nat
  deriving DecidableEq, Repr, Inhabited

namespace Loc

/-- Where every source text begins. -/
def start : Loc := ⟨1, 1⟩

/-- The place of what has none: no source text reaches it. -/
def nowhere : Loc := ⟨0, 0⟩

/-- The place behind the character `c`. -/
def next (l : Loc) (c : Char) : Loc :=
  if c = '\n' then ⟨l.line + 1, 1⟩ else ⟨l.line, l.col + 1⟩

/-- The place behind the text `cs`. -/
def after (l : Loc) (cs : List Char) : Loc := cs.foldl next l

@[simp] theorem after_nil (l : Loc) : l.after [] = l := rfl

@[simp] theorem after_cons (l : Loc) (c : Char) (cs : List Char) :
    l.after (c :: cs) = (l.next c).after cs := rfl

theorem after_append (l : Loc) (cs ds : List Char) : l.after (cs ++ ds) = (l.after cs).after ds :=
  List.foldl_append

end Loc

/-- A cause together with the place that it is reported at. -/
structure Located (ε : Type) where
  loc : Loc
  cause : ε
  deriving DecidableEq, Repr

end Stacklet
