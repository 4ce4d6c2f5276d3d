import Mathlib.Data.List.TakeWhile
import Stacklet.Proofs.Execution
/-!
# Reading does not depend on chunks

An input is told by its bytes: `Input.joined` has them all in one chunk, and whatever is read from
an input is read from that too.

* `Input.takeToken_spec`, `Input.takeLine_spec`: a token and a line, by the bytes alone.
* `Input.Independent`: readers for which all chunks are one. `independent_readToken`,
  `independent_readText`: such readers.
* `Machine.joined_step`: a step does not depend on chunks. `Machine.joined_runFrom`,
  `Machine.joined_callAll`: then neither do runs and calls in a row.
* **`Input.reads_independent_of_chunks`**: calls in a row and runs give the same for inputs with the
  same bytes, and a token is the longest run of bytes without blanks.
-/

namespace Stacklet

open List

namespace Input

/-- All bytes in one chunk. -/
def joined (input : Input) : Input := ⟨[input.unread], input.failing⟩

@[simp] theorem joined_joined (input : Input) : input.joined.joined = input.joined := by
  simp only [joined, unread, flatten_singleton]

/-! ## Tokens and lines by their bytes -/

/-- The bytes that a token may start at: blanks are skipped if nothing of it was read. -/
def toToken (token bytes : Bytes) : Bytes :=
  if token.isEmpty then bytes.dropWhile isBlankByte else bytes

theorem toToken_append (token chunk bytes : Bytes) :
    toToken token (chunk ++ bytes) = toToken token chunk ++ toToken (token ++ toToken token chunk)
      bytes := by
  by_cases ht : token = []
  · by_cases hd : chunk.dropWhile isBlankByte = [] <;> simp [toToken, ht, dropWhile_append, hd]
  · simp [toToken, ht]

section Splitting

variable {α : Type} {p : α → Bool} {l : List α}

theorem takeWhile_append_of_ne_nil (l' : List α) (h : l.dropWhile p ≠ []) :
    (l ++ l').takeWhile p = l.takeWhile p := by
  have hlength := congrArg length (takeWhile_append_dropWhile (p := p) (l := l))
  have hpos := length_pos_iff.mpr h
  rw [length_append] at hlength
  rw [takeWhile_append, if_neg (by omega)]

theorem takeWhile_eq_self (h : l.dropWhile p = []) : l.takeWhile p = l :=
  takeWhile_eq_self_iff.mpr (dropWhile_eq_nil_iff.mp h)

theorem not_of_mem_head?_dropWhile {a : α} (h : a ∈ (l.dropWhile p).head?) : p a = false := by
  have hhead := head?_dropWhile_not p l
  rwa [Option.mem_def.mp h] at hhead

end Splitting

theorem toToken_of_ne_nil {token : Bytes} (h : token ≠ []) (bytes : Bytes) :
    toToken token bytes = bytes := by
  simp [toToken, h]

section Token

variable {token chunk : Bytes} (chunks : List Bytes)

theorem takeToken_onward (h : (toToken token chunk).dropWhile isTokenByte = []) :
    takeToken token (chunk :: chunks) = takeToken (token ++ toToken token chunk) chunks := by
  rw [takeToken, ← toToken]
  simp only [h, takeWhile_eq_self h]

theorem takeToken_ended (h : (toToken token chunk).dropWhile isTokenByte ≠ []) :
    takeToken token (chunk :: chunks) =
      ⟨token ++ (toToken token chunk).takeWhile isTokenByte, (toToken token chunk).dropWhile
        isTokenByte :: chunks, true⟩ := by
  rw [takeToken, ← toToken]
  split
  · next hnil => exact absurd hnil h
  · rfl

/-- **A token by its bytes.** What is read of a token, and what is left, does not depend on the
chunks. -/
theorem takeToken_spec (token : Bytes) :
    (takeToken token chunks).bytes = token ++ (toToken token chunks.flatten).takeWhile isTokenByte ∧
    (takeToken token chunks).rest.flatten = (toToken token chunks.flatten).dropWhile isTokenByte ∧
    (takeToken token chunks).ended =
      !((toToken token chunks.flatten).dropWhile isTokenByte).isEmpty := by
  induction chunks generalizing token with
  | nil => simp [takeToken, toToken]
  | cons chunk chunks ih =>
    rw [flatten_cons, toToken_append]
    by_cases h : (toToken token chunk).dropWhile isTokenByte = []
    · -- The token goes on into the next chunk, or did not start yet.
      have hall : ∀ b ∈ toToken token chunk, isTokenByte b := dropWhile_eq_nil_iff.mp h
      rw [takeToken_onward chunks h, takeWhile_append_of_pos hall, dropWhile_append_of_pos hall,
        ← append_assoc]
      exact ih _
    · -- The token ends in this chunk, so something of it was read, and the other chunks are left.
      have hne : token ++ toToken token chunk ≠ [] := by
        intro hnil
        simp [(append_eq_nil_iff.mp hnil).2] at h
      rw [takeToken_ended chunks h, takeWhile_append_of_ne_nil _ h, dropWhile_append,
        if_neg (by simpa using h), toToken_of_ne_nil hne]
      simp [h]

end Token

/-- **A line by its bytes.** -/
theorem takeLine_spec (line : Bytes) (chunks : List Bytes) :
    (takeLine line chunks).bytes = line ++ chunks.flatten.takeWhile (· != 0x0a) ++
      (chunks.flatten.dropWhile (· != 0x0a)).take 1 ∧
    (takeLine line chunks).rest.flatten = (chunks.flatten.dropWhile (· != 0x0a)).drop 1 ∧
    (takeLine line chunks).ended = !(chunks.flatten.dropWhile (· != 0x0a)).isEmpty := by
  induction chunks generalizing line with
  | nil => simp [takeLine]
  | cons chunk chunks ih =>
    rw [flatten_cons, takeLine]
    cases h : chunk.dropWhile (· != 0x0a) with
    | nil =>
      have hall : ∀ b ∈ chunk, (b != 0x0a) = true := dropWhile_eq_nil_iff.mp h
      rw [takeWhile_append_of_pos hall, dropWhile_append_of_pos hall, ← append_assoc]
      simpa only [takeWhile_eq_self h] using ih _
    | cons feed rest =>
      rw [takeWhile_append_of_ne_nil _ (by simp [h]), dropWhile_append, if_neg (by simp [h])]
      simp [h]

/-! ## Readers -/

def Taken.joined (t : Taken) : Taken := { t with rest := [t.rest.flatten] }

theorem joined_takeToken (chunks : List Bytes) :
    (takeToken [] chunks).joined = (takeToken [] [chunks.flatten]).joined := by
  have h := takeToken_spec chunks []
  have h' := takeToken_spec [chunks.flatten] []
  rw [flatten_singleton] at h'
  simp only [Taken.joined, h, h']

theorem joined_takeLine (chunks : List Bytes) :
    (takeLine [] chunks).joined = (takeLine [] [chunks.flatten]).joined := by
  have h := takeLine_spec [] chunks
  have h' := takeLine_spec [] [chunks.flatten]
  rw [flatten_singleton] at h'
  simp only [Taken.joined, h, h']

/-- A reader for which all chunks are one. -/
def Independent {α : Type} (reader : Input → Except StreamError α × Input) : Prop :=
  ∀ input, (reader input).1 = (reader input.joined).1 ∧
    (reader input).2.joined = (reader input.joined).2.joined

theorem Independent.congr {α : Type} {reader : Input → Except StreamError α × Input}
    (h : Independent reader) {a b : Input} (hab : a.joined = b.joined) :
    (reader a).1 = (reader b).1 ∧ (reader a).2.joined = (reader b).2.joined := by
  rw [(h a).1, (h a).2, (h b).1, (h b).2, hab]
  simp

theorem independent_finish {take : List Bytes → Taken}
    (h : ∀ chunks, (take chunks).joined = (take [chunks.flatten]).joined) :
    Independent fun input => input.finish (take input.chunks) := by
  intro input
  have hjoined := h input.chunks
  simp only [Taken.joined, Taken.mk.injEq, cons.injEq, and_true] at hjoined
  simp [finish, joined, unread, hjoined]

theorem independent_readToken : Independent readToken := by
  intro input
  have h := independent_finish joined_takeToken input
  simp only [readToken] at h ⊢
  exact ⟨by rw [h.1], h.2⟩

theorem independent_readLine : Independent readLine := by
  intro input
  have h := independent_finish joined_takeLine input
  simp only [readLine] at h ⊢
  exact ⟨by rw [h.1], h.2⟩

theorem independent_readText : Independent readText := by
  intro input
  have h := independent_readLine input
  unfold readText
  generalize input.readLine = line at h
  generalize input.joined.readLine = line' at h
  obtain ⟨r, rest⟩ := line
  obtain ⟨r', rest'⟩ := line'
  obtain ⟨rfl, hrest⟩ : r = r' ∧ rest.joined = rest'.joined := h
  have hnext := independent_readLine.congr hrest
  by_cases hr : r = .ok ("", true)
  · subst hr
    simp [hnext]
  · simp [hrest]

end Input

namespace Machine

/-! ## Runs -/

/-- The input in one chunk. -/
def joinInput (w : World) : World := { w with input := w.input.joined }

def State.joined (s : State) : State := s.mapWorld joinInput

def Step.joined (e : Step) : Step := e.mapWorld joinInput

def Finished.joined (r : Finished) : Finished := r.mapWorld joinInput

variable {m : Machine} {s s' : State}

theorem joined_read {reader : Input → Except StreamError String × Input}
    (h : Input.Independent reader) (value : String → Value) :
    (s.read reader value).joined = (s.joined.read reader value).joined := by
  have hs := h s.input
  simp only [State.read, State.joined, State.mapWorld, joinInput]
  generalize reader s.input = a at hs
  generalize reader s.input.joined = b at hs
  obtain ⟨r, rest⟩ := a
  obtain ⟨r', rest'⟩ := b
  obtain ⟨rfl, hrest⟩ : r = r' ∧ rest.joined = rest'.joined := hs
  cases r <;> simp [State.push, Step.joined, Step.mapWorld, State.mapWorld, joinInput, hrest]

@[simp] theorem State.joined_joined (s : State) : s.joined.joined = s.joined := by
  simp [State.joined, State.mapWorld, joinInput]

@[simp] theorem Step.joined_joined (e : Step) : e.joined.joined = e.joined := by
  cases e <;> simp [Step.joined, Step.mapWorld, State.mapWorld, joinInput]

theorem joined_callBuiltin (b : Builtin) :
    (m.callBuiltin s b).joined = (m.callBuiltin s.joined b).joined := by
  cases b with
  | printInt | printDouble | printStr =>
    rw [← Step.joined_joined]
    exact congrArg Step.joined (mapWorld_print (fun _ _ => rfl) _)
  | inputInt | inputDouble => exact joined_read Input.independent_readToken _
  | inputStr => exact joined_read Input.independent_readText _
  | timeUp => exact (Step.joined_joined _).symm

/-- **A step does not depend on the chunks of the input.** -/
theorem joined_step (m : Machine) (s : State) : (m.step s).joined = (m.step s.joined).joined := by
  have hip : s.joined.ip = s.ip := rfl
  rw [step, step, hip]
  cases m.program.code[s.ip]? with
  | none => exact (Step.joined_joined _).symm
  | some i =>
    cases hi : i.builtin? with
    | some b =>
      simp only [execute_of_builtin? hi]
      exact joined_callBuiltin b
    | none =>
      rw [← Step.joined_joined]
      exact congrArg Step.joined (mapWorld_execute fun b hb => by simp [hi] at hb)

theorem joined_step_congr (h : s.joined = s'.joined) : (m.step s).joined = (m.step s').joined := by
  rw [joined_step, h, ← joined_step]

/-- **Neither does a run.** -/
theorem joined_runFrom (fuel : Nat) (h : s.joined = s'.joined) :
    (m.runFrom fuel s).map Finished.joined = (m.runFrom fuel s').map Finished.joined := by
  induction fuel generalizing s s' with
  | zero => rfl
  | succ fuel ih =>
    have hstep := joined_step_congr (m := m) h
    simp only [runFrom]
    cases he : m.step s <;> cases he' : m.step s' <;> rw [he, he'] at hstep <;>
      simp [Step.joined, Step.mapWorld] at hstep
    · exact ih hstep
    · simp [Finished.joined, Finished.mapWorld, hstep]
    · simp [Finished.joined, Finished.mapWorld, hstep]

theorem joined_flush (r : Finished) : r.flush.joined = r.joined.flush := by
  obtain ⟨_ | ⟨⟩, s⟩ := r
  · rfl
  · simp only [Finished.flush, Finished.joined, Finished.mapWorld, State.mapWorld, joinInput]
    cases s.sink.flush with
    | mk e sink => cases e <;> rfl

theorem joined_run (fuel : Nat) (h : s.joined = s'.joined) :
    (m.run fuel s).map Finished.joined = (m.run fuel s').map Finished.joined := by
  have hclear (ip : Nat) : State.joined { s.clear with ip } = State.joined { s'.clear with ip } :=
    congrArg (fun s : State => { s.clear with ip }) h
  have hbody : (m.runBody fuel s).map Finished.joined =
      (m.runBody fuel s').map Finished.joined := by
    unfold runBody start?
    cases m.target? m.entry with
    | some ip => exact joined_runFrom fuel (hclear ip)
    | none => exact congrArg (fun s : State => some (Finished.mk (.ok ()) s.clear)) h
  have hflush : Finished.joined ∘ Finished.flush = Finished.flush ∘ Finished.joined :=
    funext joined_flush
  rw [run, run, Option.map_map, Option.map_map, hflush, ← Option.map_map, hbody, Option.map_map]

def Step.state : Step → State
  | .next s | .halt s | .fault _ s => s

theorem Step.state_joined (e : Step) : e.joined.state = e.state.joined := by cases e <;> rfl

/-- Calls of built-in functions one after another, also behind one that fails. -/
def callAll (m : Machine) : State → List Builtin → List Step
  | _, [] => []
  | s, b :: bs => m.callBuiltin s b :: m.callAll (m.callBuiltin s b).state bs

theorem joined_callAll (bs : List Builtin) (h : s.joined = s'.joined) :
    (m.callAll s bs).map Step.joined = (m.callAll s' bs).map Step.joined := by
  induction bs generalizing s s' with
  | nil => rfl
  | cons b bs ih =>
    have hstep : (m.callBuiltin s b).joined = (m.callBuiltin s' b).joined := by
      rw [joined_callBuiltin, h, ← joined_callBuiltin]
    simp only [callAll, map_cons, hstep, cons.injEq, true_and]
    apply ih
    rw [← Step.state_joined, hstep, Step.state_joined]

end Machine

namespace Input

/-- **What a token is.** Blanks are skipped, the bytes up to the next blank are read, and that blank
is left. Nothing is read only at the end of the input. -/
theorem readToken_spec (chunks : List Bytes) :
    ∃ blanks token rest, chunks.flatten = blanks ++ token ++ rest ∧
    (∀ b ∈ blanks, isBlankByte b) ∧ (∀ b ∈ token, ¬isBlankByte b) ∧
    (∀ b ∈ rest.head?, isBlankByte b) ∧
    (token = [] → rest = []) ∧
    (readToken ⟨chunks, false⟩).1 = .ok (Utf8.decodeLossy token) ∧
    (readToken ⟨chunks, false⟩).2.unread = rest := by
  obtain ⟨hbytes, hrest, -⟩ := takeToken_spec chunks []
  generalize hbehind : chunks.flatten.dropWhile isBlankByte = behind
  have htoken : toToken [] chunks.flatten = behind := by simp [toToken, hbehind]
  rw [htoken] at hbytes hrest
  refine ⟨chunks.flatten.takeWhile isBlankByte, behind.takeWhile isTokenByte,
    behind.dropWhile isTokenByte, ?_,
    fun b hb => mem_takeWhile_imp hb, fun b hb => ?_, fun b hb => ?_, fun hnil => ?_, ?_, ?_⟩
  · rw [append_assoc, takeWhile_append_dropWhile, ← hbehind, takeWhile_append_dropWhile]
  · simpa [isTokenByte] using mem_takeWhile_imp hb
  · simpa [isTokenByte] using not_of_mem_head?_dropWhile hb
  · cases behind with
    | nil => rfl
    | cons b bs =>
      have hb : isBlankByte b = false := not_of_mem_head?_dropWhile (by rw [hbehind]; rfl)
      simp [isTokenByte, hb] at hnil
  · simp only [readToken, finish, hbytes]
    rfl
  · exact hrest

/-- **Reading does not depend on chunks.** For inputs with the same bytes, calls of built-in
functions give the same values and faults and leave the same bytes to be read, and so do runs. A
token is the longest run of bytes without blanks behind the blanks before it, and the blank behind
it is left. -/
theorem reads_independent_of_chunks {chunks chunks' : List Bytes}
    (h : chunks.flatten = chunks'.flatten) (failing : Bool) (m : Machine) (s : Machine.State) :
    (∀ bs, (m.callAll { s with input := ⟨chunks, failing⟩ } bs).map Machine.Step.joined =
      (m.callAll { s with input := ⟨chunks', failing⟩ } bs).map Machine.Step.joined) ∧
    (∀ fuel, (m.run fuel { s with input := ⟨chunks, failing⟩ }).map Machine.Finished.joined =
      (m.run fuel { s with input := ⟨chunks', failing⟩ }).map Machine.Finished.joined) ∧
    ∃ blanks token rest, chunks.flatten = blanks ++ token ++ rest ∧
      (∀ b ∈ blanks, isBlankByte b) ∧ (∀ b ∈ token, ¬isBlankByte b) ∧
      (∀ b ∈ rest.head?, isBlankByte b) ∧
      (token = [] → rest = []) ∧
      (readToken ⟨chunks, false⟩).1 = .ok (Utf8.decodeLossy token) ∧
      (readToken ⟨chunks, false⟩).2.unread = rest := by
  have hjoined : Machine.State.joined { s with input := ⟨chunks, failing⟩ } =
      Machine.State.joined { s with input := ⟨chunks', failing⟩ } := by
    simp only [Machine.State.joined, Machine.State.mapWorld, Machine.joinInput, joined, unread, h]
  exact ⟨fun bs => Machine.joined_callAll bs hjoined, fun fuel => Machine.joined_run fuel hjoined,
    readToken_spec chunks⟩

/-- A number and a character of two bytes, both cut apart. -/
def cutWithin : List Bytes := [[0x20, 0x31], [0x32, 0x20, 0xc3], [0xa9, 0x0a]]

/-- The same bytes, cut where blanks are. -/
def cutBetween : List Bytes := [[0x20], [0x31, 0x32], [0x20, 0xc3, 0xa9, 0x0a]]

theorem cutWithin_reads_independent : cutWithin.flatten = cutBetween.flatten ∧
    ((Machine.load {}).callAll { input := ⟨cutWithin, false⟩, sink := {} }
      [.inputInt, .inputStr, .inputDouble]).map Machine.Step.joined =
    ((Machine.load {}).callAll { input := ⟨cutBetween, false⟩, sink := {} }
      [.inputInt, .inputStr, .inputDouble]).map Machine.Step.joined ∧
    (readToken ⟨cutWithin, false⟩).2.unread = [0x20, 0xc3, 0xa9, 0x0a] := by
  have hbytes : cutWithin.flatten = cutBetween.flatten := by decide
  exact ⟨hbytes, (reads_independent_of_chunks hbytes false (Machine.load {})
    { input := ⟨[], false⟩, sink := {} }).1 _, by decide⟩

end Input

end Stacklet
