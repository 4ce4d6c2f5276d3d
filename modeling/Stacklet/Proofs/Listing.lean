import Mathlib.Tactic.Common
import Stacklet.Code.Program
import Stacklet.Proofs.Slots
/-!
# What can be read off a listing

* `Instr.isOneLine`: the text that an instruction refers to has no line break. Then neither has its
  line, and only then (`Program.mem_line_iff`).
* `Program.shown_eq_of_lines_eq`: lines that are equal up to their ends belong to instructions that
  are written alike.
* `Program.listing_decodes`: listings have one line for each instruction if and only if no text has
  a line break. Such listings are equal only for programs whose instructions are written alike.
-/

namespace Stacklet

open List

namespace Number

theorem notMem_placePoint {c : Char} {ds : List Char} (h : c ∉ ds) (hzero : c ≠ '0') (e : Int) :
    c ∉ (placePoint ds e).1 ∧ c ∉ (placePoint ds e).2 := by
  cases e with
  | ofNat e =>
    refine ⟨fun hc => ?_, fun hc => h (mem_of_mem_drop hc)⟩
    rcases mem_append.mp (mem_of_mem_take hc) with hc | hc
    · exact h hc
    · exact hzero (eq_of_mem_replicate hc)
  | negSucc e => simp [placePoint, h, hzero]

theorem notMem_joinPoint {c : Char} {whole part : List Char} (hwhole : c ∉ whole) (hpart : c ∉ part)
    (hpoint : c ≠ '.') :
    c ∉ joinPoint whole part := by
  have htrim : c ∉ trimEnd '0' part := fun hc =>
    hpart (mem_reverse.mp ((dropWhile_suffix _).subset (mem_reverse.mp hc)))
  unfold joinPoint
  split
  · exact hwhole
  · simp_all

theorem notMem_shortest (x : Float) : '\n' ∉ (shortest x).toList := by
  have hsigned (negative : Bool) {cs : List Char} (h : '\n' ∉ cs) :
      '\n' ∉ (signed negative cs).toList := by
    cases negative <;> simpa [signed, withSign] using h
  unfold shortest
  split
  · decide
  · exact hsigned _ (by decide)
  · split
    · exact hsigned _ (by decide)
    · have hdigits (n : Nat) : '\n' ∉ digits n := by
        simpa [decimal] using notMem_decimal (c := '\n') rfl (by decide) n
      exact hsigned _ (notMem_joinPoint (notMem_placePoint (hdigits _) (by decide) _).1
        (notMem_placePoint (hdigits _) (by decide) _).2 (by decide))

end Number

namespace Instr

/-- How an instruction is written: mnemonic and operand. -/
def shown (x : Instr) : String × Option String := (x.mnemonic, x.operand?)

/-- Whether the text that an instruction refers to, if any, has no line break. -/
def isOneLine (x : Instr) : Bool := x.reference?.all fun r => !r.text.toList.contains '\n'

theorem mnemonic_isWord (x : Instr) : ' ' ∉ x.mnemonic.toList ∧ '\n' ∉ x.mnemonic.toList := by
  cases x with
  | binary op => cases op <;> decide
  | _ => simp [mnemonic]

theorem mem_operand?_iff (x : Instr) : (∃ arg ∈ x.operand?, '\n' ∈ arg.toList) ↔ ¬x.isOneLine := by
  cases x with
  | pushInt n =>
    simpa [operand?, isOneLine, reference?] using Number.notMem_decimal rfl (by decide) _
  | pushDouble x => simpa [operand?, isOneLine, reference?] using Number.notMem_shortest x
  | _ => simp [operand?, isOneLine, reference?, Reference.text]

end Instr

namespace Program

variable {i : Nat} {x y : Instr} {xs ys : List Instr}

theorem toList_line (i : Nat) (x : Instr) :
    (line i x).toList = (Number.decimal i).toList ++
      ' ' :: (x.mnemonic.toList ++ x.operand?.elim [] (' ' :: ·.toList)) := by
  unfold line
  cases x.operand? <;> simp

theorem mem_line_iff (i : Nat) (x : Instr) : '\n' ∈ (line i x).toList ↔ ¬x.isOneLine := by
  rw [← x.mem_operand?_iff, toList_line]
  have hindex : '\n' ∉ (Number.decimal i).toList := Number.notMem_decimal rfl (by decide) i
  cases x.operand? <;> simp [hindex, x.mnemonic_isWord.2]

theorem append_cons_inj_of_first {c : Char} {us us' vs vs' : List Char} (hu : c ∉ us) (hv : c ∉ vs)
    (h : us ++ c :: us' = vs ++ c :: vs') : us = vs ∧ us' = vs' := by
  have hlen := congrArg (idxOf c) h
  rw [idxOf_append_of_notMem hu, idxOf_append_of_notMem hv, idxOf_cons_self,
    idxOf_cons_self] at hlen
  obtain ⟨hus, hrest⟩ := append_inj h hlen
  exact ⟨hus, (cons.inj hrest).2⟩

/-- A line is read from the left: the index is known, and the mnemonic ends at the first space
behind it. -/
theorem shown_eq_of_line_eq (h : line i x = line i y) : x.shown = y.shown := by
  -- With one more space at the end, the mnemonic has a space behind it even if there is no operand.
  have hspace (arg : Option String) : arg.elim [] (' ' :: ·.toList) ++ [' '] =
      ' ' :: arg.elim [] (·.toList ++ [' ']) := by
    cases arg <;> simp
  have hlist := congrArg (·.toList ++ [' ']) h
  simp only [toList_line, append_assoc, cons_append, hspace, append_cancel_left_eq, cons.injEq,
    true_and] at hlist
  obtain ⟨hmnemonic, hargs⟩ :=
    append_cons_inj_of_first x.mnemonic_isWord.1 y.mnemonic_isWord.1 hlist
  refine Prod.ext (String.toList_inj.mp hmnemonic) ?_
  show x.operand? = y.operand?
  cases hx : x.operand? <;> cases hy : y.operand? <;> simp_all [String.toList_inj]

/-- The characters of the lines of some instructions, the first of which has the index `i`. -/
def lines (i : Nat) (xs : List Instr) : List Char :=
  (xs.zipIdx i).flatMap fun x => (line x.2 x.1).toList ++ ['\n']

theorem toList_listing (p : Program) : p.listing.toList = lines 0 p.code.toList := by
  simp [listing, lines, String.toList_join, flatMap_map]

theorem lines_cons : lines i (x :: xs) = (line i x).toList ++ '\n' :: lines (i + 1) xs := by
  simp [lines]

theorem count_lines (i : Nat) (xs : List Instr) :
    xs.length ≤ (lines i xs).count '\n' ∧
    ((lines i xs).count '\n' = xs.length ↔ ∀ x ∈ xs, x.isOneLine) := by
  induction xs generalizing i with
  | nil => simp [lines]
  | cons x xs ih =>
    obtain ⟨hle, hiff⟩ := ih (i + 1)
    have hline : (line i x).toList.count '\n' = 0 ↔ x.isOneLine := by
      rw [count_eq_zero, mem_line_iff, not_not]
    rw [lines_cons, count_append, count_cons_self, length_cons, forall_mem_cons, ← hline, ← hiff]
    omega

theorem shown_eq_of_lines_eq (hx : ∀ x ∈ xs, x.isOneLine) (hy : ∀ y ∈ ys, y.isOneLine)
    (h : lines i xs = lines i ys) :
    xs.map Instr.shown = ys.map Instr.shown := by
  induction xs generalizing i ys with
  | nil =>
    cases ys with
    | nil => rfl
    | cons y ys => simp [lines] at h
  | cons x xs ih =>
    cases ys with
    | nil => simp [lines] at h
    | cons y ys =>
      have hbreak {x : Instr} (h : x.isOneLine) : '\n' ∉ (line i x).toList := by
        rwa [mem_line_iff, not_not]
      rw [forall_mem_cons] at hx hy
      rw [lines_cons, lines_cons] at h
      obtain ⟨hfirst, hrest⟩ := append_cons_inj_of_first (hbreak hx.1) (hbreak hy.1) h
      rw [map_cons, map_cons, shown_eq_of_line_eq (String.toList_inj.mp hfirst), ih hx.2 hy.2 hrest]

/-- **A listing shows its program**, unless a text in it has a line break. Then it has more lines
than instructions. -/
theorem listing_decodes (p : Program) :
    (p.listing.toList.count '\n' = p.code.size ↔ ∀ x ∈ p.code.toList, x.isOneLine) ∧
    ((∀ x ∈ p.code.toList, x.isOneLine) →
      (∃ ls : List String, ls.length = p.code.size ∧ p.listing = String.join (ls.map (· ++ "\n")) ∧
        (∀ l ∈ ls, '\n' ∉ l.toList) ∧
        ∀ (i : Nat) (x : Instr), p.code[i]? = some x →
          ∃ rest, ls[i]? = some (Number.decimal i ++ " " ++ x.mnemonic ++ rest)) ∧
      ∀ q : Program, (∀ x ∈ q.code.toList, x.isOneLine) →
        p.listing = q.listing → p.code.toList.map Instr.shown = q.code.toList.map Instr.shown) := by
  refine ⟨?_, fun hp => ⟨?_, fun q hq h => ?_⟩⟩
  · rw [toList_listing]
    exact (count_lines 0 _).2
  · refine ⟨p.code.toList.zipIdx.map
      fun x => line x.2 x.1, by simp, by simp [listing, Function.comp_def], ?_, ?_⟩
    · intro l hl
      obtain ⟨x, hx, rfl⟩ := mem_map.mp hl
      rw [mem_line_iff, not_not]
      exact hp _ (fst_mem_of_mem_zipIdx hx)
    · intro i x hx
      refine ⟨x.operand?.elim "" (" " ++ ·), ?_⟩
      have hline : line i x = Number.decimal i ++ " " ++ x.mnemonic ++ x.operand?.elim
          "" (" " ++ ·) := by
        unfold line
        cases x.operand? <;> simp [String.append_assoc]
      simp [hx, hline]
  · rw [← String.toList_inj, toList_listing, toList_listing] at h
    exact shown_eq_of_lines_eq hp hq h

/-- A program of a single string, the second line of which looks like an instruction. -/
def brokenString : Program := .ofCode [.pushString "a\n1 RET"] []

/-- The program that `brokenString` looks like. -/
def pushThenReturn : Program := .ofCode [.pushString "a", .ret] []

theorem pushThenReturn_listing_decodes : (∀ x ∈ pushThenReturn.code.toList, x.isOneLine) ∧
    pushThenReturn.listing.toList.count '\n' = 2 :=
  have h : ∀ x ∈ pushThenReturn.code.toList, x.isOneLine := by decide
  ⟨h, (listing_decodes pushThenReturn).1.mpr h⟩

theorem exists_ambiguous_listing : brokenString.listing = pushThenReturn.listing ∧
    brokenString.code.size ≠ pushThenReturn.code.size ∧
      brokenString.listing.toList.count '\n' ≠ brokenString.code.size := by
  decide

end Program

end Stacklet
