import IPPcode23.Proofs.Machine.History

/-!
# Machines with other channels

A machine looks at its input only as it carries out a `READ`, and at its output only as it carries out a `WRITE` and as
it ends. So with another input and another output it takes the same step, provided that they answer alike where they are
asked (`step_rewire`). In particular no other instruction changes the input or the output (`input_step`, `output_step`).
-/

namespace IPPcode23

variable {σ τ : Type}

namespace Sink

/-- Writes the texts of values one after another. -/
def putAll (s : Sink) (values : List Value) : Sink :=
  values.foldl (fun s x => s.put x.text) s

theorem putAll_append (s : Sink) (xs ys : List Value) : s.putAll (xs ++ ys) = (s.putAll xs).putAll ys :=
  List.foldl_append

end Sink

/-- The same outcome with another machine. -/
def Outcome.map (f : Machine σ → Machine τ) : Outcome σ → Outcome τ
  | next m => .next (f m)
  | exit code m => .exit code (f m)
  | fail cause m => .fail cause (f m)

namespace Progress

/-- The same progress with another machine. -/
def map (f : Machine σ → Machine τ) : Progress σ → Progress τ
  | running m => .running (f m)
  | halted how m => .halted how (f m)
  | failed e m => .failed e (f m)

@[simp]
theorem machine_map (f : Machine σ → Machine τ) (x : Progress σ) : (x.map f).machine = f x.machine := by
  cases x <;> rfl

@[simp]
theorem answer?_map (f : Machine σ → Machine τ) (x : Progress σ) : (x.map f).answer? = x.answer? := by
  cases x <;> rfl

end Progress

/-- Tells a `READ` from all other actions. -/
def Action.isRead : Action → Bool
  | read _ _ => true
  | _ => false

namespace Machine

/-- The machine with another input and another output. -/
def rewire (m : Machine σ) (input : τ) (output : Sink) : Machine τ :=
  { m with input, output }

/-- The value that an action writes to the output. -/
def writtenBy? (m : Machine σ) : Action → Option Value
  | .write source => (m.memory.value source).toOption
  | _ => none

/-! ### One action -/

section

variable {m : Machine σ} {input : τ} {output : Sink}

private theorem attempt_rewire {x : Except Fault (Machine σ)} {x' : Except Fault (Machine τ)}
    (h : x' = (·.rewire input output) <$> x) :
    (m.rewire input output).attempt x' = (m.attempt x).map (·.rewire input output) := by
  subst h
  cases x <;> rfl

private theorem store_rewire (v : Variable) (x : Value) :
    (m.rewire input output).store v x = (·.rewire input output) <$> m.store v x := by
  simp [store, rewire]

private theorem popInto_rewire (v : Variable) :
    (m.rewire input output).popInto v = (·.rewire input output) <$> m.popInto v := by
  unfold popInto
  rw [map_bind]
  refine congrArg _ (funext fun _ => ?_)
  cases hdata : m.data with
  | nil => simp [rewire, hdata]
  | cons x rest =>
    simp [rewire, hdata]
    exact store_rewire (m := { m with data := rest }) v x

private theorem jumpIf_rewire (wanted : Bool) (label : String) (left right : Symb) :
    (m.rewire input output).jumpIf wanted label left right =
      (·.rewire input output) <$> m.jumpIf wanted label left right := by
  simp only [jumpIf, map_bind]
  refine congrArg _ (funext fun n => congrArg _ (funext fun x => congrArg _ (funext fun y => ?_)))
  cases x.same? y with
  | none => rfl
  | some result => by_cases h : result = wanted <;> simp [h, rewire, goto]

private theorem returnFromCall_rewire :
    (m.rewire input output).returnFromCall = (·.rewire input output) <$> m.returnFromCall := by
  cases h : m.calls <;> simp [returnFromCall, rewire, h]

private theorem callLabel_rewire (label : String) :
    (m.rewire input output).callLabel label = (·.rewire input output) <$> m.callLabel label := by
  simp [callLabel, target, rewire]

private theorem withMemory_rewire (x : Except Fault Memory) :
    (m.rewire input output).withMemory x = (m.withMemory x).map (·.rewire input output) := by
  cases x <;> rfl

private theorem withValue_rewire {source : Symb} {k : Value → Outcome σ} {k' : Value → Outcome τ}
    (hk : ∀ x, k' x = (k x).map (·.rewire input output)) :
    (m.rewire input output).withValue source k' = (m.withValue source k).map (·.rewire input output) := by
  simp only [withValue, rewire]
  cases m.memory.value source with
  | ok x => exact hk x
  | error cause => rfl

private theorem writeDiagnostics_rewire (text : String) :
    (m.rewire input output).writeDiagnostics text = (m.writeDiagnostics text).map (·.rewire input output) := by
  by_cases h : m.diagnostics.fits text = true <;> simp [writeDiagnostics, rewire, h, Outcome.map]

private theorem writeOutput_rewire {text : String} (h : output.fits text = m.output.fits text) :
    (m.rewire input output).writeOutput text =
      (m.writeOutput text).map (·.rewire input (output.put text)) := by
  by_cases hfits : m.output.fits text = true <;> simp [writeOutput, rewire, h, hfits, Outcome.map]

private theorem finish_rewire (h : output.refusesFlush = m.output.refusesFlush) (how : Halt) :
    (m.rewire input output).finish how = (m.finish how).map (·.rewire input output) := by
  simp only [finish, rewire, h]
  split <;> rfl

variable [Input σ] [Input τ]

private theorem readInto_rewire (v : Variable) (t : TypeName) (h : Input.answer input = Input.answer m.input) :
    (m.rewire input output).readInto v t = (m.readInto v t).map (·.rewire (Input.advance input) output) := by
  cases hread : Input.answer m.input with
  | error cause =>
    rw [readInto_of_failure hread, readInto_of_failure (h.trans hread)]
    rfl
  | ok line? =>
    rw [readInto_of_answer hread, readInto_of_answer (h.trans hread)]
    let m₁ : Machine σ := { m with input := Input.advance m.input }
    exact attempt_rewire (m := m₁) (store_rewire (m := m₁) v (t.interpret line?))

/-- A machine with other channels carries an action out alike if they answer alike. -/
private theorem execute_rewire {a : Action} (hread : a.isRead = true → Input.answer input = Input.answer m.input)
    (hwrite : ∀ x ∈ m.writtenBy? a, output.fits x.text = m.output.fits x.text) :
    (m.rewire input output).execute a =
      (m.execute a).map
        (·.rewire (if a.isRead then Input.advance input else input) (output.putAll (m.writtenBy? a).toList)) := by
  cases a with
  | createFrame | label => rfl
  | pushFrame | popFrame | defVar => exact withMemory_rewire _
  | call label => exact attempt_rewire (callLabel_rewire label)
  | ret => exact attempt_rewire returnFromCall_rewire
  | pops v => exact attempt_rewire (popInto_rewire v)
  | jumpIf wanted label left right => exact attempt_rewire (jumpIf_rewire wanted label left right)
  | pushs source => exact attempt_rewire (by simp [rewire])
  | jump label => exact attempt_rewire (by simp [rewire, target, goto])
  | unary | binary | setChar | typeOf => exact attempt_rewire (by simp only [map_bind, store_rewire]; rfl)
  | read v t => exact readInto_rewire v t (hread rfl)
  | write source =>
    cases hx : m.memory.value source with
    | error cause =>
      have hnone : m.writtenBy? (.write source) = none := by rw [writtenBy?, hx]; rfl
      simp only [execute, withValue, rewire, hx, hnone]
      rfl
    | ok x =>
      have hsome : m.writtenBy? (.write source) = some x := by rw [writtenBy?, hx]; rfl
      simp only [execute, withValue, rewire, hx, hsome]
      exact writeOutput_rewire (hwrite x hsome)
  | exit source => exact withValue_rewire fun x => by cases x.exitCode <;> rfl
  | dprint source => exact withValue_rewire fun x => writeDiagnostics_rewire _
  | dump => exact writeDiagnostics_rewire _

end

/-! ### One step -/

/-- The action that the next step carries out, if the instruction fits its signature. -/
def action? (p : Program) (m : Machine σ) : Option Action :=
  p[m.pc]?.bind fun i => i.action.toOption

/-- Whether the next step carries out a `READ`. -/
def reads (p : Program) (m : Machine σ) : Bool :=
  (m.action? p).any Action.isRead

/-- The value that the next step writes to the output. -/
def written? (p : Program) (m : Machine σ) : Option Value :=
  (m.action? p).bind m.writtenBy?

private theorem action?_eq_some_iff {p : Program} {m : Machine σ} {a : Action} :
    m.action? p = some a ↔ p[m.pc]? = some a.instruction := by
  unfold action?
  rw [Option.bind_eq_some_iff]
  constructor
  · rintro ⟨i, hi, ha⟩
    cases h : i.action with
    | error cause => rw [h] at ha; cases ha
    | ok b =>
      rw [h] at ha
      cases ha
      rw [hi, Instruction.action_eq_ok_iff.1 h]
  · intro hi
    refine ⟨a.instruction, hi, ?_⟩
    rw [Instruction.action_eq_ok_iff.2 rfl]
    rfl

theorem reads_eq_true_iff {p : Program} {m : Machine σ} :
    m.reads p = true ↔ ∃ v t, p[m.pc]? = some (Action.read v t).instruction := by
  simp only [← action?_eq_some_iff, reads, Option.any_eq_true]
  constructor
  · rintro ⟨a, ha, hread⟩
    cases a with
    | read v t => exact ⟨v, t, ha⟩
    | _ => cases hread
  · rintro ⟨v, t, ha⟩
    exact ⟨_, ha, rfl⟩

/-- A `READ` is carried out if it passes the check against its signature. -/
theorem reads_iff_checkSignature {p : Program} {m : Machine σ} {i : Instruction} (hi : p[m.pc]? = some i) :
    m.reads p = true ↔ i.opcode = .read ∧ i.checkSignature = .ok () := by
  rw [reads_eq_true_iff, hi]
  constructor
  · rintro ⟨v, t, h⟩
    cases h
    exact ⟨rfl, Instruction.exists_action_iff.1 ⟨.read v t, Instruction.action_eq_ok_iff.2 rfl⟩⟩
  · rintro ⟨hopcode, hcheck⟩
    obtain ⟨a, ha⟩ := Instruction.exists_action_iff.2 hcheck
    obtain rfl := Instruction.action_eq_ok_iff.1 ha
    cases a with
    | read v t => exact ⟨v, t, rfl⟩
    | _ => cases hopcode

theorem written?_eq_some_iff {p : Program} {m : Machine σ} {x : Value} :
    m.written? p = some x ↔
      ∃ source, p[m.pc]? = some (Action.write source).instruction ∧ m.memory.value source = .ok x := by
  simp only [← action?_eq_some_iff, written?, Option.bind_eq_some_iff]
  constructor
  · rintro ⟨a, ha, hx⟩
    cases a with
    | write source =>
      refine ⟨source, ha, ?_⟩
      cases hvalue : m.memory.value source with
      | error cause => rw [writtenBy?, hvalue] at hx; cases hx
      | ok y => rw [writtenBy?, hvalue] at hx; cases hx; rfl
    | _ => cases hx
  · rintro ⟨source, ha, hx⟩
    exact ⟨_, ha, by rw [writtenBy?, hx]; rfl⟩

variable [Input σ]

/-- A machine with other channels takes the same step if they answer alike. -/
theorem step_rewire [Input τ] {p : Program} {m : Machine σ} {input : τ} {output : Sink}
    (hread : m.reads p = true → Input.answer input = Input.answer m.input)
    (hwrite : ∀ x ∈ m.written? p, output.fits x.text = m.output.fits x.text)
    (hflush : output.refusesFlush = m.output.refusesFlush) :
    (m.rewire input output).step p =
      (m.step p).map
        (·.rewire (if m.reads p then Input.advance input else input) (output.putAll (m.written? p).toList)) := by
  cases ha : m.action? p with
  | none =>
    -- the program ends here, or the instruction is refused by the check
    have hquiet : m.reads p = false ∧ m.written? p = none := by simp [reads, written?, ha]
    rw [hquiet.1, hquiet.2]
    cases hi : p[m.pc]? with
    | none =>
      have hi' : p[(m.rewire input output).pc]? = none := hi
      simp only [step, hi, hi']
      exact finish_rewire hflush .atEnd
    | some i =>
      have hi' : p[(m.rewire input output).pc]? = some i := hi
      have herror : ∃ cause, i.action = .error cause := by
        cases h : i.action with
        | error cause => exact ⟨cause, rfl⟩
        | ok a => simp [action?, hi, h, Except.toOption] at ha
      obtain ⟨cause, hcause⟩ := herror
      simp only [step, hi, hi', perform, hcause]
      rfl
  | some a =>
    have hreads : m.reads p = a.isRead := by rw [reads, ha]; rfl
    have hwritten : m.written? p = m.enter.writtenBy? a := by rw [written?, ha]; cases a <;> rfl
    rw [hreads] at hread ⊢
    rw [hwritten] at hwrite ⊢
    have hi := action?_eq_some_iff.1 ha
    have hi' : p[(m.rewire input output).pc]? = some a.instruction := hi
    have hexecute := execute_rewire (m := m.enter) hread hwrite
    rw [step_of_action hi, step_of_action hi']
    have henter : (m.rewire input output).enter = m.enter.rewire input output := rfl
    rw [henter, hexecute]
    cases hresult : m.enter.execute a with
    | next m' => rfl
    | fail cause m' => rfl
    | exit code m' =>
      obtain ⟨source, x, rfl, _, _, rfl⟩ := execute_eq_exit_iff.1 hresult
      exact finish_rewire (m := m.enter) hflush (.exited code)

private theorem channels_step (p : Program) (m : Machine σ) :
    (m.step p).machine = (m.step p).machine.rewire (if m.reads p then Input.advance m.input else m.input)
      (m.output.putAll (m.written? p).toList) := by
  have h : (m.rewire m.input m.output).step p = _ := step_rewire (fun _ => rfl) (fun _ _ => rfl) rfl
  have hmachine := congrArg Progress.machine h
  rwa [Progress.machine_map] at hmachine

/-- Only a `READ` changes the input. -/
theorem input_step (p : Program) (m : Machine σ) :
    (m.step p).machine.input = if m.reads p then Input.advance m.input else m.input :=
  congrArg Machine.input (channels_step p m)

/-- Only a `WRITE` that has a value changes the output, also one that fails as it is written. -/
theorem output_step (p : Program) (m : Machine σ) :
    (m.step p).machine.output = m.output.putAll (m.written? p).toList :=
  congrArg Machine.output (channels_step p m)

end Machine

end IPPcode23
