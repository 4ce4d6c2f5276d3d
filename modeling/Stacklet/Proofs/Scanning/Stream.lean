import Mathlib.Data.List.TakeDrop
import Stacklet.Proofs.Scanning
import Stacklet.Token.Stream
/-!
# A stream of tokens is a mark on a list of tokens

Looking ahead fills the buffer of a stream, so two streams may differ that have the same tokens to
give. What a stream has to give is told by `Stream.left`, and each call changes that as it would
move a mark on the list of all tokens.

* `Cursor.tokens_scan_of_end`, `Cursor.getLast?_tokens`: scanning ends at the end of the text, and
  stays there.
* `Stream.left_eq`: a stream gives its tokens one after another. `Stream.drain_eq`: to take all of
  them is to take one after another, for what is taken and for the stream that is left.
* `Marked`: a list of tokens and a mark on one of them. `Stream.Shows`: a stream has the tokens from
  the mark on to give.
* `Stream.Shows.call`: each call answers as the mark tells, and moves it. `answers_eq`: then so does
  each sequence of calls.
* **`Stream.answers_eq_marked`**: a stream of the tokens of a source text answers as a mark on their
  list does.
-/

namespace Stacklet

/-! ## The end of the text -/

namespace Cursor

variable (c : Cursor)

theorem finish_skipBlanks : c.skipBlanks.finish = c.finish := by
  simp only [finish, skipBlanks]
  rw [← Loc.after_append, List.takeWhile_append_dropWhile]

theorem finish_of_nil (h : c.rest = []) : c.finish = c := by
  rw [finish, h, Loc.after_nil, ← h]

theorem finish_scan : c.scan.2.finish = c.finish := by
  rw [← finish_skipBlanks c]
  unfold scan
  simp only
  split
  · rfl
  · next d ds h => simp [finish, h, ← Loc.after_append, Lexeme.written_append_rest, -Loc.after_cons]

theorem scan_finish : c.finish.scan = (⟨.endOfInput, "", c.finish.loc⟩, c.finish) := by
  simp [scan, finish, skipBlanks]

theorem scan_eq_of_end (h : c.scan.1.kind = .endOfInput) : c.scan = c.finish.scan := by
  rw [scan_finish]
  unfold scan at h ⊢
  simp only at h ⊢
  split at h
  · next hrest => simp [← finish_skipBlanks c, finish_of_nil c.skipBlanks hrest]
  · next d ds _ => exact absurd h (Lexeme.ofHead_kind_ne d ds)

theorem tokens_ne_nil : c.tokens ≠ [] := by
  unfold tokens
  split <;> simp

theorem tokens_finish : c.finish.tokens = [c.finish.scan.1] := by
  unfold tokens
  simp [scan_finish]

theorem tokens_scan_of_end (h : c.scan.1.kind = .endOfInput) : c.scan.2.tokens = [c.scan.1] := by
  rw [scan_eq_of_end c h, scan_finish, tokens_finish, scan_finish]

theorem scan_snd_of_end (h : c.scan.1.kind = .endOfInput) : c.scan.2 = c.finish := by
  rw [scan_eq_of_end c h, scan_finish]

theorem getLast?_tokens : c.tokens.getLast? = some c.finish.scan.1 := by
  fun_induction tokens c with
  | case1 c h => simp [scan_eq_of_end c h]
  | case2 c h ih => simp [List.getLast?_cons, ih, finish_scan]

end Cursor

namespace Token

/-! ## What a stream has to give -/

namespace Stream

/-- The tokens that a stream has to give. -/
def left (s : Stream) : List Token := s.drain.1

/-- A stream with the end of the input in its buffer is at the end of the text. -/
def Settled (s : Stream) : Prop :=
  ∀ t, s.buffered = some t → t.kind = .endOfInput → s.cursor = s.cursor.finish ∧
    s.cursor.tokens = [t]

theorem settled_of_none (c : Cursor) : Settled ⟨c, none⟩ := by simp [Settled]

theorem left_of_none (c : Cursor) : left ⟨c, none⟩ = c.tokens := by simp [left, drain]

/-- A stream gives its tokens one after another, up to the end of the input. -/
theorem left_eq (s : Stream) :
    s.left = if s.next.1.kind = .endOfInput then [s.next.1] else s.next.1 :: s.next.2.left := by
  cases hb : s.buffered with
  | some t => simp [left, drain, next, hb]
  | none =>
    simp only [left, drain, next, hb]
    rw [Cursor.tokens]
    simp

theorem left_ne_nil (s : Stream) : s.left ≠ [] := by
  rw [left_eq]
  split <;> simp

variable {s : Stream}

theorem left_next_of_end (hs : s.Settled) (h : s.next.1.kind = .endOfInput) :
    s.next.2.left = s.left := by
  rw [left_eq s, if_pos h]
  cases hb : s.buffered with
  | some t =>
    simp only [next, hb] at h ⊢
    rw [left_of_none, (hs t hb h).2]
  | none =>
    simp only [next, hb] at h ⊢
    rw [left_of_none, s.cursor.tokens_scan_of_end h]

theorem settled_next (s : Stream) : s.next.2.Settled := by
  unfold next
  split <;> exact settled_of_none _

/-- **Taking all tokens is taking one after another**, until the end of the input is taken. -/
theorem drain_eq (hs : s.Settled) : s.drain =
    if s.next.1.kind = .endOfInput then ([s.next.1], s.next.2)
    else (s.next.1 :: s.next.2.drain.1, s.next.2.drain.2) := by
  refine Prod.ext ?_ ?_
  · rw [show s.drain.1 = s.left from rfl, left_eq]
    split <;> rfl
  · cases hb : s.buffered with
    | some t =>
      simp only [next, drain, hb]
      split
      · next hend => simp [← (hs t hb hend).1]
      · rfl
    | none =>
      simp only [next, drain, hb]
      split
      · next hend => simp [s.cursor.scan_snd_of_end hend]
      · simp [s.cursor.finish_scan]

/-- Looking ahead gives the token that is taken next, and leaves all tokens where they are. -/
theorem peek_spec (hs : s.Settled) :
    s.peek.1 = s.next.1 ∧ s.peek.2.left = s.left ∧ s.peek.2.Settled := by
  obtain ⟨c, _ | t⟩ := s
  · refine ⟨rfl, (left_eq _).trans (left_eq ⟨c, none⟩).symm, fun t ht hend => ?_⟩
    obtain rfl : c.scan.1 = t := Option.some.inj ht
    exact ⟨(c.finish_scan.trans (c.scan_snd_of_end hend).symm).symm, c.tokens_scan_of_end hend⟩
  · exact ⟨rfl, rfl, hs⟩

theorem getLast?_left (hs : s.Settled) : s.left.getLast? = some s.cursor.finish.scan.1 := by
  cases hb : s.buffered with
  | none => simp [left, drain, hb, Cursor.getLast?_tokens]
  | some t =>
    by_cases hend : t.kind = .endOfInput
    · have hlast := s.cursor.getLast?_tokens
      rw [(hs t hb hend).2] at hlast
      simpa [left, drain, hb, hend] using hlast
    · simp [left, drain, hb, hend, List.getLast?_cons, Cursor.getLast?_tokens]

end Stream

/-! ## Calls and their answers -/

inductive Call where
  | peek | next | drain
  deriving DecidableEq, Repr

inductive Answer where
  | one (t : Token)
  | all (ts : List Token)
  deriving DecidableEq, Repr

/-- The answers to calls that are made one after another, of something that changes with each
call. -/
def answers {σ : Type} (call : σ → Call → Answer × σ) : σ → List Call → List Answer
  | _, [] => []
  | s, c :: cs => (call s c).1 :: answers call (call s c).2 cs

theorem answers_eq {σ τ : Type} {call : σ → Call → Answer × σ} {call' : τ → Call → Answer × τ}
    {R : σ → τ → Prop} (hcall : ∀ s s' c, R s s' → (call s c).1 = (call' s' c).1 ∧
      R (call s c).2 (call' s' c).2) {s : σ} {s' : τ} (h : R s s') (cs : List Call) :
    answers call s cs = answers call' s' cs := by
  induction cs generalizing s s' with
  | nil => rfl
  | cons c cs ih =>
    have hstep := hcall s s' c h
    simp only [answers]
    rw [hstep.1, ih hstep.2]

def Stream.call (s : Stream) : Call → Answer × Stream
  | .peek => (.one s.peek.1, s.peek.2)
  | .next => (.one s.next.1, s.next.2)
  | .drain => (.all s.drain.1, s.drain.2)

/-- A list of tokens, one of which is marked. -/
structure Marked where
  tokens : List Token
  mark : Fin tokens.length

namespace Marked

variable (m : Marked)

def current : Token := m.tokens.get m.mark

def left : List Token := m.tokens.drop m.mark

/-- The mark moved to the next token. It stays on the last one. -/
def advance : Marked := if h : m.mark + 1 < m.tokens.length then ⟨m.tokens, ⟨m.mark + 1, h⟩⟩ else m

def finish : Marked := ⟨m.tokens, ⟨m.tokens.length - 1, Nat.sub_lt m.mark.pos Nat.one_pos⟩⟩

def call : Call → Answer × Marked
  | .peek => (.one m.current, m)
  | .next => (.one m.current, m.advance)
  | .drain => (.all m.left, m.finish)

/-- The tokens of a source text, the first of them marked. -/
def ofSource (source : String) : Marked :=
  ⟨Token.scan source, ⟨0, List.length_pos_iff.mpr (Cursor.tokens_ne_nil _)⟩⟩

theorem left_eq_cons : m.left = m.current :: m.tokens.drop (m.mark + 1) := by
  simp [left, current]

theorem left_advance (h : m.tokens.drop (m.mark + 1) ≠ []) :
    m.advance.left = m.tokens.drop (m.mark + 1) := by
  have hlt : m.mark + 1 < m.tokens.length := by simpa using h
  rw [advance, dif_pos hlt, left]

theorem advance_of_end (h : m.tokens.drop (m.mark + 1) = []) : m.advance = m := by
  have hle : m.tokens.length ≤ m.mark + 1 := by simpa using h
  rw [advance, dif_neg (by omega)]

theorem left_finish {t : Token} (h : m.left.getLast? = some t) : m.finish.left = [t] := by
  have hlt := m.mark.isLt
  rw [left, List.getLast?_drop, if_neg (by omega)] at h
  have hne : m.tokens ≠ [] := List.length_pos_iff.mp m.mark.pos
  rw [List.getLast?_eq_some_getLast hne, Option.some.injEq] at h
  rw [← h]
  exact List.drop_length_sub_one hne

end Marked

namespace Stream

/-- The stream has the tokens from the mark on to give. -/
structure Shows (s : Stream) (m : Marked) : Prop where
  settled : s.Settled
  left_eq : s.left = m.left

variable {s : Stream} {m : Marked}

/-- The token that is taken next is the marked one, and it is the end of the input if there is none
behind it. -/
theorem Shows.next_eq (h : s.Shows m) : s.next.1 = m.current ∧
    m.tokens.drop (m.mark + 1) = if s.next.1.kind = .endOfInput then [] else s.next.2.left := by
  have hleft := h.left_eq
  rw [s.left_eq, m.left_eq_cons] at hleft
  split at hleft <;> simp_all

theorem Shows.advance (h : s.Shows m) : s.next.2.Shows m.advance := by
  have hbehind := h.next_eq.2
  refine ⟨s.settled_next, ?_⟩
  by_cases hend : s.next.1.kind = .endOfInput
  · rw [if_pos hend] at hbehind
    rw [m.advance_of_end hbehind, left_next_of_end h.settled hend, h.left_eq]
  · rw [if_neg hend] at hbehind
    rw [m.left_advance (hbehind ▸ left_ne_nil _), hbehind]

theorem Shows.finish (h : s.Shows m) : s.drain.2.Shows m.finish := by
  have hlast := getLast?_left h.settled
  rw [h.left_eq] at hlast
  refine ⟨settled_of_none _, ?_⟩
  rw [m.left_finish hlast]
  exact (left_of_none _).trans s.cursor.tokens_finish

/-- **A call answers as the mark tells**, and moves it. -/
theorem Shows.call (c : Call) (h : s.Shows m) :
    (s.call c).1 = (m.call c).1 ∧ (s.call c).2.Shows (m.call c).2 := by
  cases c with
  | peek =>
    obtain ⟨hnext, hleft, hsettled⟩ := peek_spec h.settled
    simp only [Stream.call, Marked.call]
    exact ⟨by rw [hnext, h.next_eq.1], hsettled, hleft.trans h.left_eq⟩
  | next =>
    simp only [Stream.call, Marked.call]
    exact ⟨by rw [h.next_eq.1], h.advance⟩
  | drain =>
    simp only [Stream.call, Marked.call]
    exact ⟨congrArg Answer.all h.left_eq, h.finish⟩

theorem shows_ofSource (source : String) : (ofSource source).Shows (.ofSource source) :=
  ⟨settled_of_none _, left_of_none _⟩

end Stream

theorem exists_scan_eq_append (source : String) :
    ∃ (front : List Token) (e : Token), Token.scan source = front ++ [e] ∧ e.kind = .endOfInput ∧
    ∀ t ∈ front, t.kind ≠ .endOfInput := by
  obtain ⟨ps, w, -, -, hscan, hps⟩ := exists_pieces source
  refine ⟨ps.map Piece.token, _, hscan, rfl, fun t ht => ?_⟩
  obtain ⟨p, hp, rfl⟩ := List.mem_map.mp ht
  obtain ⟨front, back, heq⟩ := List.append_of_mem hp
  exact (hps front p back heq).kind_ne

/-- **A stream is a mark on the list of all tokens.** Whatever calls are made of a stream of the
tokens of a source text, the answers are those of a mark on the list that taking all tokens at once
gives: looking ahead gives the marked token, taking a token gives it and moves the mark, taking all
tokens gives those from the mark on and moves the mark to the last one. This is the end of the
input, on which the mark stays, and no other token is. -/
theorem Stream.answers_eq_marked (source : String) :
    (ofSource source).drain.1 = Token.scan source ∧
    (∃ (front : List Token) (e : Token), Token.scan source = front ++ [e] ∧ e.kind = .endOfInput ∧
      ∀ t ∈ front, t.kind ≠ .endOfInput) ∧
    ∀ calls, answers Stream.call (.ofSource source) calls =
      answers Marked.call (.ofSource source) calls :=
  ⟨left_of_none _, exists_scan_eq_append source, answers_eq (fun _ _ c h => h.call c)
    (shows_ofSource source)⟩

end Token

end Stacklet
