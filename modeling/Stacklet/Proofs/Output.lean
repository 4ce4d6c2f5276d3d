import Stacklet.Proofs.Execution
import Stacklet.Proofs.Reading
/-!
# Output that does not fit

A run on a sink that takes everything, side by side with the same run on a sink with room for so
many bytes.

* `Sink.Unlimited`, `Sink.within`: the two sinks. `Sink.print_within`, `Sink.print_full`: printing
  on the second one.
* `Machine.Writes`: what a step writes, and what it does if that fits and if it does not.
  `exists_writes`: so it is with every step.
* `Machine.runFrom_within`: the two runs are in lockstep until something does not fit.
* `Machine.Crosses`: the step at which the output gets longer than a number of bytes.
  `Crosses.unique`: there is only one.
* **`Machine.run_within_cuts_output`**: the output is cut off where the room ends, and the run ends
  at the print that did not fit.
-/

namespace Stacklet

variable {fuel : Nat}

namespace Sink

variable {sink : Sink}

/-- A sink that takes all bytes and all flushes. -/
structure Unlimited (sink : Sink) : Prop where
  room_eq : sink.room = none
  flushes_eq : sink.flushes = none

def within (room : Nat) (sink : Sink) : Sink := { sink with room := some room }

def adding (bytes : ByteArray) (sink : Sink) : Sink :=
  { sink with written := sink.written ++ bytes }

@[simp] theorem adding_empty (sink : Sink) : sink.adding .empty = sink := by simp [adding]

@[simp] theorem adding_adding (sink : Sink) (as bs : ByteArray) :
    (sink.adding as).adding bs = sink.adding (as ++ bs) := by
  simp [adding, ByteArray.append_assoc]

theorem size_adding (sink : Sink) (bytes : ByteArray) :
    (sink.adding bytes).written.size = sink.written.size + bytes.size := ByteArray.size_append

theorem Unlimited.adding (h : sink.Unlimited) (bytes : ByteArray) : (sink.adding bytes).Unlimited :=
  ⟨h.room_eq, h.flushes_eq⟩

section Print

variable (text : String) {room : Nat}

theorem print_unlimited (h : sink.Unlimited) :
    sink.print text = (.ok (), sink.adding text.toUTF8) := by
  simp [print, write, flush, adding, h.room_eq, h.flushes_eq]

theorem print_within (h : sink.Unlimited) (hfits : text.toUTF8.size ≤ room) :
    (sink.within room).print text =
      (.ok (), (sink.adding text.toUTF8).within (room - text.toUTF8.size)) := by
  simp only [print, write, within, if_pos hfits, flush, adding, h.flushes_eq]

theorem print_full (hfull : room < text.toUTF8.size) :
    (sink.within room).print text =
      (.error .outputFull, (sink.adding (text.toUTF8.extract 0 room)).within 0) := by
  simp only [print, write, within, if_neg (Nat.not_le.mpr hfull), adding]

end Print

end Sink

namespace Machine

variable {r : Finished}

/-- The world with another sink. -/
def mapSink (g : Sink → Sink) (w : World) : World := { w with sink := g w.sink }

def State.within (room : Nat) (s : State) : State := s.mapWorld (mapSink (Sink.within room))

def Step.within (room : Nat) (e : Step) : Step := e.mapWorld (mapSink (Sink.within room))

def Finished.within (room : Nat) (r : Finished) : Finished :=
  r.mapWorld (mapSink (Sink.within room))

variable {m : Machine} {s s' : State}

/-! ## Steps -/

/-- What a step writes to an unlimited sink. With room for that, it does the same and leaves less
room. Without, it is a call of a built-in function that prints; this writes what there is room for
and fails. -/
structure Writes (m : Machine) (s : State) (bytes : ByteArray) : Prop where
  sink_eq : (m.step s).state.sink = s.sink.adding bytes
  fits : ∀ room, bytes.size ≤ room → m.step (s.within room) = (m.step s).within (room - bytes.size)
  full : ∀ room, room < bytes.size →
    (∃ i b, m.program.code[s.ip]? = some i ∧ i.builtin? = some b ∧
      b ∈ [.printInt, .printDouble, .printStr]) ∧
    (∃ next, m.step s = .next next) ∧
    ∃ last, m.step (s.within room) = .fault (.stream .outputFull) last ∧ last.ip = s.ip ∧
      last.sink.written = s.sink.written ++ bytes.extract 0 room

theorem Writes.of_quiet (h : ∀ g, (m.step s).mapWorld (mapSink g) =
      m.step (s.mapWorld (mapSink g))) : m.Writes s .empty where
  sink_eq := by
    have hsame : (m.step s).mapWorld (mapSink fun _ => s.sink) = m.step s := h fun _ => s.sink
    rw [Sink.adding_empty, ← hsame]
    cases m.step s <;> rfl
  fits room _ := (h (Sink.within room)).symm
  full room hroom := absurd hroom (Nat.not_lt_zero room)

/-- **Printing writes a text.** -/
theorem exists_writes_of_print (hs : s.sink.Unlimited) {i : Instr} {b : Builtin}
    (hi : m.program.code[s.ip]? = some i) (hb : i.builtin? = some b)
    (hprints : b ∈ [.printInt, .printDouble, .printStr]) {text : Value → String}
    (htext : ∀ s, m.callBuiltin s b = s.print text) : ∃ bytes, m.Writes s bytes := by
  have hstep (g : Sink → Sink) : m.step (s.mapWorld (mapSink g)) =
      (s.mapWorld (mapSink g)).print text := by
    have hi' : m.program.code[(s.mapWorld (mapSink g)).ip]? = some i := hi
    simp only [step, hi', execute_of_builtin? hb, htext]
  have hstep' : m.step s = s.print text := hstep id
  cases hstack : s.stack with
  | nil =>
    refine ⟨.empty, .of_quiet fun g => ?_⟩
    rw [hstep g, hstep']
    simp [State.print, State.mapWorld, mapSink, hstack, State.underflow, Step.mapWorld]
  | cons v stack =>
    have hnext :
        m.step s = .next { s with ip := s.ip + 1, stack,
                                  sink := s.sink.adding (text v).toUTF8 } := by
      simp only [hstep', State.print, hstack, Sink.print_unlimited (text v) hs, State.advance]
    refine ⟨(text v).toUTF8, ?_, fun room hroom => ?_,
      fun room hroom => ⟨⟨i, b, hi, hb, hprints⟩, ⟨_, hnext⟩, ?_⟩⟩
    · rw [hnext]
      rfl
    · rw [hnext, State.within, hstep]
      simp only [State.print, State.mapWorld, mapSink, hstack, Sink.print_within (text v) hs hroom]
      rfl
    · refine ⟨{ s with stack, sink := (s.sink.adding ((text v).toUTF8.extract 0 room)).within 0 },
        ?_, rfl, rfl⟩
      rw [State.within, hstep]
      simp only [State.print, State.mapWorld, mapSink, hstack, Sink.print_full (text v) hroom]

/-- **What a step writes.** -/
theorem exists_writes (m : Machine) (hs : s.sink.Unlimited) : ∃ bytes, m.Writes s bytes := by
  cases hi : m.program.code[s.ip]? with
  | none => exact ⟨.empty, .of_quiet fun g => mapWorld_step fun i hi' => nomatch hi.symm.trans hi'⟩
  | some i =>
    have quiet (h : ∀ g b, i.builtin? = some b →
        (m.callBuiltin s b).mapWorld (mapSink g) = m.callBuiltin (s.mapWorld (mapSink g)) b) :
            m.Writes s .empty := by
      refine .of_quiet fun g => mapWorld_step fun i' hi' => ?_
      obtain rfl := Option.some.inj (hi.symm.trans hi')
      exact mapWorld_execute (h g)
    cases hb : i.builtin? with
    | none => exact ⟨_, quiet fun g b hb' => nomatch hb.symm.trans hb'⟩
    | some b =>
      have reads (h : ∀ g, (m.callBuiltin s b).mapWorld (mapSink g) =
        m.callBuiltin (s.mapWorld (mapSink g)) b) :
          m.Writes s .empty := by
        refine quiet fun g b' hb' => ?_
        obtain rfl := Option.some.inj (hb.symm.trans hb')
        exact h g
      cases b with
      | printInt | printDouble | printStr =>
        exact exists_writes_of_print hs hi hb (by simp) fun _ => rfl
      | inputInt | inputDouble | inputStr =>
        exact ⟨_, reads fun g => mapWorld_read (fun _ _ => rfl) _ _⟩
      | timeUp => exact ⟨_, reads fun _ => rfl⟩

/-! ## Runs -/

/-- The step of a run at which the output gets longer than so many bytes. -/
structure Crosses (m : Machine) (s : State) (size : Nat) (p next : State) : Prop where
  steps : m.Steps s p
  step_eq : m.step p = .next next
  before : p.sink.written.size ≤ size
  after : size < next.sink.written.size

theorem exists_adding_of_step (hs : s.sink.Unlimited) (h : m.step s = .next s') :
    ∃ bytes, s'.sink = s.sink.adding bytes := by
  obtain ⟨bytes, hwrites⟩ := exists_writes m hs
  have hsink := hwrites.sink_eq
  rw [h] at hsink
  exact ⟨bytes, hsink⟩

theorem exists_adding_of_steps (hs : s.sink.Unlimited) (h : m.Steps s s') :
    ∃ bytes, s'.sink = s.sink.adding bytes := by
  induction h with
  | refl => exact ⟨.empty, (Sink.adding_empty _).symm⟩
  | tail _ hstep ih =>
    obtain ⟨bytes, hbytes⟩ := ih
    obtain ⟨more, hmore⟩ := exists_adding_of_step (hbytes ▸ hs.adding bytes) hstep
    exact ⟨bytes ++ more, by rw [hmore, hbytes, Sink.adding_adding]⟩

theorem size_written_le (hs : s.sink.Unlimited) (h : m.Steps s s') :
    s.sink.written.size ≤ s'.sink.written.size := by
  obtain ⟨bytes, hbytes⟩ := exists_adding_of_steps hs h
  rw [hbytes, Sink.size_adding]
  exact Nat.le_add_right _ _

theorem Crosses.eq_of_steps {size : Nat} {p p' q q' : State} (hs : s.sink.Unlimited)
    (hp : m.Crosses s size p p') (hq : m.Crosses s size q q') (h : m.Steps p q) : p = q := by
  rcases h.cases_head with heq | ⟨next, hnext, hrest⟩
  · exact heq
  · obtain rfl : p' = next := Step.next.inj (hp.step_eq.symm.trans hnext)
    obtain ⟨bytes, hbytes⟩ := exists_adding_of_steps hs (hp.steps.tail hp.step_eq)
    have hle : p'.sink.written.size ≤ q.sink.written.size :=
      size_written_le (hbytes ▸ hs.adding bytes) hrest
    exact absurd (Nat.lt_of_lt_of_le hp.after (hle.trans hq.before)) (Nat.lt_irrefl _)

/-- **A run crosses a number of bytes only once.** -/
theorem Crosses.unique {size : Nat} {p p' q q' : State} (hs : s.sink.Unlimited)
    (hp : m.Crosses s size p p') (hq : m.Crosses s size q q') : p = q := by
  have hdet : Relator.RightUnique fun s s' => m.step s = .next s' :=
    fun _ _ _ h h' => Step.next.inj (h.symm.trans h')
  rcases Relation.ReflTransGen.total_of_right_unique hdet hp.steps hq.steps with h | h
  · exact hp.eq_of_steps hs hq h
  · exact (hq.eq_of_steps hs hp h).symm

/-- The end of a run that had too little room: at `p` it printed something that did not fit. -/
structure Overflows (m : Machine) (s p next : State) (room : Nat) (r : Finished) : Prop where
  crosses : m.Crosses s (s.sink.written.size + room) p next
  prints : ∃ i b, m.program.code[p.ip]? = some i ∧ i.builtin? = some b ∧
    b ∈ [.printInt, .printDouble, .printStr]
  result_eq : r.result = .error (.stream .outputFull)
  ip_eq : r.state.ip = p.ip

/-- **The two runs are in lockstep** until something does not fit. -/
theorem runFrom_within (hs : s.sink.Unlimited) (h : m.runFrom fuel s = some r) :
    ∃ bytes, r.state.sink = s.sink.adding bytes ∧
      (∀ room, bytes.size ≤ room →
        m.runFrom fuel (s.within room) = some (r.within (room - bytes.size))) ∧
      ∀ room, room < bytes.size → ∃ p next r', m.runFrom fuel (s.within room) = some r' ∧
      m.Overflows s p next room r' ∧
        r'.state.sink.written = s.sink.written ++ bytes.extract 0 room := by
  induction fuel generalizing s with
  | zero => cases h
  | succ fuel ih =>
    obtain ⟨bytes, hwrites⟩ := exists_writes m hs
    have hsink := hwrites.sink_eq
    cases hstep : m.step s with
    | next s' =>
      rw [hstep] at hsink
      have hsink' : s'.sink = s.sink.adding bytes := hsink
      rw [runFrom_next hstep] at h
      obtain ⟨more, hmore, hfits, hfull⟩ := ih (hsink' ▸ hs.adding bytes) h
      have onward (room : Nat) (hroom : bytes.size ≤ room) :
          m.runFrom (fuel + 1) (s.within room) =
              m.runFrom fuel (s'.within (room - bytes.size)) := by
        have hnext : m.step (s.within room) = .next (s'.within (room - bytes.size)) := by
          rw [hwrites.fits room hroom, hstep]
          rfl
        exact runFrom_next hnext fuel
      refine ⟨bytes ++ more, by rw [hmore, hsink', Sink.adding_adding], fun room hroom => ?_,
        fun room hroom => ?_⟩
      · rw [ByteArray.size_append] at hroom
        rw [onward room (by omega), hfits _ (by omega), ByteArray.size_append, Nat.sub_sub]
      · rw [ByteArray.size_append] at hroom
        by_cases hfirst : room < bytes.size
        · -- This step prints too much.
          obtain ⟨hprints, -, last, hlast, hip, hwritten⟩ := hwrites.full room hfirst
          have hafter : s.sink.written.size + room < s'.sink.written.size := by
            rw [hsink', Sink.size_adding]
            omega
          refine ⟨s, s', ⟨.error (.stream .outputFull), last⟩,
            runFrom_finished (by rw [hlast]; rfl) fuel,
            ⟨⟨.refl, hstep, Nat.le_add_right _ _, hafter⟩, hprints, rfl, hip⟩, ?_⟩
          rw [hwritten, ByteArray.extract_append, Nat.zero_sub, Nat.sub_eq_zero_of_le hfirst.le,
            ByteArray.extract_same, ByteArray.append_empty]
        · -- A later step does.
          have hle : bytes.size ≤ room := Nat.le_of_not_lt hfirst
          obtain ⟨p, next, r', hrun, ⟨⟨hsteps, hnext, hbefore, hafter⟩, hprints, hresult, hip⟩,
              hwritten⟩ :=
            hfull (room - bytes.size) (by omega)
          have hsize : s'.sink.written.size + (room - bytes.size) = s.sink.written.size + room := by
            rw [hsink', Sink.size_adding]
            omega
          rw [hsize] at hbefore hafter
          refine ⟨p, next, r', (onward room hle).trans hrun,
            ⟨⟨.head hstep hsteps, hnext, hbefore, hafter⟩, hprints, hresult, hip⟩, ?_⟩
          have hall : bytes.extract 0 room = bytes :=
            ByteArray.ext (ByteArray.data_extract.trans (Array.extract_eq_self_of_le hle))
          rw [hwritten, hsink', ByteArray.extract_append, Nat.zero_sub, hall]
          exact ByteArray.append_assoc
    | halt last | fault f last =>
      rw [hstep] at hsink
      rw [runFrom, hstep] at h
      obtain rfl := Option.some.inj h
      refine ⟨bytes, hsink, fun room hroom => ?_, fun room hroom => ?_⟩
      · rw [runFrom, hwrites.fits room hroom, hstep]
        rfl
      · obtain ⟨-, ⟨next, hnext⟩, -⟩ := hwrites.full room hroom
        cases hstep.symm.trans hnext

theorem flush_eq_self (h : r.state.sink.flushes = none) : r.flush = r := by
  obtain ⟨_ | ⟨⟩, last⟩ := r
  · rfl
  · have hflush : last.sink.flush = (.ok (), last.sink) := by
      simp only [Sink.flush, show last.sink.flushes = none from h]
    simp only [Finished.flush, hflush]

theorem start?_within (room : Nat) :
    m.start? (s.within room) = (m.start? s).map (State.within room) := by
  unfold start?
  cases m.target? m.entry <;> rfl

/-- What holds of the steps of a run holds of the run: sinks of both kinds take the flush at its
end. -/
theorem run_within (hs : s.sink.Unlimited) (h : m.run fuel s = some r) :
    ∃ bytes, r.state.sink = s.sink.adding bytes ∧
      (∀ room, bytes.size ≤ room →
        m.run fuel (s.within room) = some (r.within (room - bytes.size))) ∧
      ∀ room, room < bytes.size → ∃ s₀ p next r', m.start? s = some s₀ ∧ s₀.sink = s.sink ∧
        m.run fuel (s.within room) = some r' ∧ m.Overflows s₀ p next room r' ∧
        r'.state.sink.written = s.sink.written ++ bytes.extract 0 room := by
  obtain ⟨last, hbody, rfl⟩ := Option.map_eq_some_iff.mp h
  have hrun (room : Nat) : m.run fuel (s.within room) = (m.runBody fuel (s.within room)).map
    Finished.flush := rfl
  unfold runBody at hbody hrun
  simp only [start?_within] at hrun
  cases hstart : m.start? s with
  | none =>
    simp only [hstart, Option.some.injEq] at hbody
    subst hbody
    rw [flush_eq_self hs.flushes_eq]
    refine ⟨.empty, (Sink.adding_empty _).symm, fun room _ => ?_,
      fun room hroom => absurd hroom (Nat.not_lt_zero room)⟩
    rw [hrun, hstart]
    exact congrArg some (flush_eq_self hs.flushes_eq)
  | some s₀ =>
    have hsink₀ : s₀.sink = s.sink := by
      obtain ⟨ip, -, rfl⟩ := Option.map_eq_some_iff.mp hstart
      rfl
    simp only [hstart] at hbody
    obtain ⟨bytes, hsink, hfits, hfull⟩ := runFrom_within (hsink₀ ▸ hs) hbody
    rw [hsink₀] at hsink hfull
    have hflushes : last.state.sink.flushes = none := by
      rw [hsink]
      exact hs.flushes_eq
    rw [flush_eq_self hflushes]
    refine ⟨bytes, hsink, fun room hroom => ?_, fun room hroom => ?_⟩
    · rw [hrun, hstart]
      simp only [Option.map_some, hfits room hroom]
      exact congrArg some (flush_eq_self hflushes)
    · obtain ⟨p, next, r', hrun', hover, hwritten⟩ := hfull room hroom
      refine ⟨s₀, p, next, r', rfl, hsink₀, ?_, hover, hwritten⟩
      rw [hrun, hstart]
      simp only [Option.map_some, hrun', Finished.flush, hover.result_eq]

theorem output_of_written {bytes : ByteArray} (h : r.state.sink.written = s.sink.written ++ bytes) :
    r.output s = bytes := by
  rw [Finished.output, h]
  exact ByteArray.extract_append_eq_right rfl ByteArray.size_append

theorem exists_call_of_builtin? {i : Instr} {b : Builtin} (h : i.builtin? = some b) :
    ∃ f, i = .call f ∧ Builtin.ofName? f = some b := by
  cases i with
  | call f => exact ⟨f, rfl, h⟩
  | _ => cases h

/-- **A full sink cuts the output off.** If a run on an unlimited sink ends, then so does the run on
a sink with room for `k` bytes, and it writes the first `k` bytes of the output, or all if there are
no more. If all of it fits, the outcome is the same. Otherwise there is one step of the first run at
which its output gets longer than `k` bytes; it is a call of a built-in function that prints, and
the second run ends with a fault at the place of that call. -/
theorem run_within_cuts_output {fuel : Nat} {r : Finished} (hs : s.sink.Unlimited)
    (h : m.run fuel s = some r) (k : Nat) :
    ∃ r', m.run fuel (s.within k) = some r' ∧
      r'.output (s.within k) = (r.output s).extract 0 (min k (r.output s).size) ∧
      ((r.output s).size ≤ k → r'.fault? m = r.fault? m) ∧
      (k < (r.output s).size → ∃ s₀ p next f b, m.start? s = some s₀ ∧
        m.Crosses s₀ (s.sink.written.size + k) p next ∧
        (∀ q q', m.Crosses s₀ (s.sink.written.size + k) q q' → q = p) ∧
        m.program.code[p.ip]? = some (.call f) ∧ Builtin.ofName? f = some b ∧
        b ∈ [.printInt, .printDouble, .printStr] ∧
        ∃ e, r'.fault? m = some e ∧ e.loc = m.program.locAt p.ip ∧
          e.cause.message = "i/o error: failed to write whole buffer") := by
  obtain ⟨bytes, hsink, hfits, hfull⟩ := run_within hs h
  have houtput : r.output s = bytes := output_of_written (congrArg Sink.written hsink)
  rw [houtput]
  by_cases hk : bytes.size ≤ k
  · refine ⟨_, hfits k hk, ?_, fun _ => rfl, fun hlt => absurd hk (Nat.not_le.mpr hlt)⟩
    rw [Nat.min_eq_right hk, ByteArray.extract_zero_size]
    exact output_of_written (congrArg Sink.written hsink)
  · rw [Nat.not_le] at hk
    obtain ⟨s₀, p, next, r', hstart, hsink₀, hrun,
      ⟨hcrosses, ⟨i, b, hi, hb, hprints⟩, hresult, hip⟩, hwritten⟩ := hfull k hk
    obtain ⟨f, rfl, hf⟩ := exists_call_of_builtin? hb
    rw [hsink₀] at hcrosses
    refine ⟨r', hrun, ?_, fun hle => absurd hk (Nat.not_lt.mpr hle),
      fun _ => ⟨s₀, p, next, f, b, hstart, hcrosses,
      fun q q' hq => hq.unique (hsink₀ ▸ hs) hcrosses, hi, hf, hprints, ?_⟩⟩
    · rw [Nat.min_eq_left hk.le]
      exact output_of_written hwritten
    · have hmessage : (Fault.stream .outputFull).message =
        "i/o error: failed to write whole buffer" := by decide
      refine ⟨⟨m.program.locAt p.ip, .stream .outputFull⟩, ?_, rfl, hmessage⟩
      rw [Finished.fault?, hresult, hip]

/-- Prints a text again and again until its time is up. -/
def printsOn : Machine := .load
  { code := #[.label "main", .pushString "ab", .call "printStr", .call "timeUp",
    .jumpIfZero "main", .ret]
    locs := #[⟨1, 1⟩, ⟨1, 7⟩, ⟨1, 5⟩, ⟨2, 7⟩, ⟨2, 5⟩, ⟨3, 1⟩] } "main" 5

/-- A clock that is found to have moved on by three each time. -/
def ticking : State := { input := ⟨[], false⟩, sink := {}, clock := { readings := fun n => 3 * n } }

/-- The time is up when the text was printed twice. With room for three bytes, the second time is
cut off. -/
theorem printsOn_within_three : ticking.sink.Unlimited ∧
    ∃ r, printsOn.run 12 ticking = some r ∧ r.output ticking = ⟨#[97, 98, 97, 98]⟩ ∧
    ∃ r', printsOn.run 12 (ticking.within 3) = some r' ∧
      r'.output (ticking.within 3) = ⟨#[97, 98, 97]⟩ ∧
    ∃ p f e, printsOn.program.code[p]? = some (.call f) ∧ r'.fault? printsOn = some e ∧
      e.loc = printsOn.program.locAt p ∧
        e.cause.message = "i/o error: failed to write whole buffer" := by
  have hs : ticking.sink.Unlimited := ⟨rfl, rfl⟩
  have houtput : (printsOn.run 12 ticking).map (Finished.output · ticking) =
      some ⟨#[97, 98, 97, 98]⟩ := by
    decide +kernel
  obtain ⟨r, hrun, houtput⟩ := Option.map_eq_some_iff.mp houtput
  obtain ⟨r', hrun', houtput', -, hfault⟩ := run_within_cuts_output hs hrun 3
  rw [houtput] at houtput' hfault
  obtain ⟨s₀, p, next, f, b, -, -, -, hcall, -, -, e, he, hloc, hmessage⟩ := hfault (by decide)
  exact ⟨hs, r, hrun, houtput, r', hrun', houtput'.trans (by decide +kernel), p.ip, f, e, hcall,
    he, hloc, hmessage⟩

end Machine

end Stacklet
