import IPPcode23.Proofs.Machine.Effect

/-!
# Results of opcodes

An opcode that computes something stores the value in its destination or is refused, and nothing else changes
(`Machine.Answers`). What comes out depends on the values of the sources and on nothing else: not on the machine, not on
whether they are constants or variables, and not on the destination, which may be one of the sources. `UnaryOp.Gives` and
`BinaryOp.Gives` say what comes out on every machine, and that is what `eval` computes (`UnaryOp.gives_iff`,
`BinaryOp.gives_iff`).
-/

namespace IPPcode23

variable {σ : Type} [Input σ]

namespace Machine

/-- An action succeeds: its variable is given a value and has it from then on, and all else is as it was. -/
def Stores (m : Machine σ) (a : Action) (x : Value) : Prop :=
  ∃ v memory, a.assigned? = some v ∧ m.memory.assign v x = .ok memory ∧ memory.read v = .ok x ∧
    m.perform a.instruction = .next { m with memory }

/-- An action fails, and everything is as it was. -/
def Refuses (m : Machine σ) (a : Action) (cause : Fault) : Prop :=
  m.perform a.instruction = .fail cause m

/-- What an action leads to by the result of a computation. -/
def Answers (m : Machine σ) (a : Action) : Except Fault Value → Prop
  | .ok x => m.Stores a x
  | .error cause => m.Refuses a cause

theorem stores_iff_answers {m : Machine σ} {a : Action} {x : Value} : m.Stores a x ↔ m.Answers a (.ok x) :=
  Iff.rfl

theorem refuses_iff_answers {m : Machine σ} {a : Action} {cause : Fault} :
    m.Refuses a cause ↔ m.Answers a (.error cause) :=
  Iff.rfl

/-- An action that stores the result of a computation in a declared variable leads to that result and to no other. -/
private theorem answers_iff {m : Machine σ} {a : Action} {v : Variable} {result result' : Except Fault Value}
    (ha : a.assigned? = some v) (hv : m.memory.HasVariable v) (hexec : m.execute a = m.attempt (result >>= m.store v)) :
    m.Answers a result' ↔ result = result' := by
  rw [← perform_instruction] at hexec
  cases result with
  | error cause =>
    have hfail : m.perform a.instruction = .fail cause m := hexec
    cases result' <;> simp [Answers, Stores, Refuses, hfail]
  | ok x =>
    obtain ⟨memory, hmemory⟩ := Memory.exists_assign hv x
    have hnext : m.perform a.instruction = .next { m with memory } :=
      hexec.trans (attempt_eq_next.2 (store_eq_ok.2 ⟨memory, hmemory, rfl⟩))
    cases result' with
    | error cause => simp [Answers, Refuses, hnext]
    | ok y =>
      constructor
      · rintro ⟨w, memory', hw, hmemory', _, hnext'⟩
        cases ha.symm.trans hw
        cases hnext.symm.trans hnext'
        rw [Memory.assign_inj hmemory hmemory']
      · intro h
        cases h
        exact ⟨v, memory, ha, hmemory, Memory.read_of_assign hmemory, hnext⟩

variable {m : Machine σ} {v : Variable}

private theorem answers_unary {op : UnaryOp} {source : Symb} {x : Value} (hv : m.memory.HasVariable v)
    (hx : m.memory.value source = .ok x) {result : Except Fault Value} :
    m.Answers (.unary op v source) result ↔ op.eval x = result := by
  apply answers_iff rfl hv
  rw [execute, hx]
  rfl

theorem answers_binary {op : BinaryOp} {left right : Symb} {x y : Value} (hv : m.memory.HasVariable v)
    (hx : m.memory.value left = .ok x) (hy : m.memory.value right = .ok y) {result : Except Fault Value} :
    m.Answers (.binary op v left right) result ↔ op.eval x y = result := by
  apply answers_iff rfl hv
  rw [execute, hx, hy]
  rfl

theorem answers_setChar {index replacement : Symb} {s i r : Value} (hs : m.memory.read v = .ok s)
    (hi : m.memory.value index = .ok i) (hr : m.memory.value replacement = .ok r) {result : Except Fault Value} :
    m.Answers (.setChar v index replacement) result ↔ s.setChar i r = result := by
  apply answers_iff rfl (Memory.hasVariable_of_read hs)
  rw [execute, hs, hi, hr]
  rfl

/-- The step of an opcode with two sources that computes a value. -/
theorem step_binary {p : Program} {op : BinaryOp} {left right : Symb} {x y z : Value}
    (hi : p[m.pc]? = some (Action.binary op v left right).instruction) (hv : m.memory.HasVariable v)
    (hx : m.memory.value left = .ok x) (hy : m.memory.value right = .ok y) (hz : op.eval x y = .ok z) :
    ∃ memory, m.memory.assign v z = .ok memory ∧ m.step p = .running { m.enter with memory } := by
  obtain ⟨memory, hmemory⟩ := Memory.exists_assign hv z
  exact ⟨memory, hmemory, step_eq_running_iff.2 ⟨_, hi, .binary hx hy hz hmemory⟩⟩

private theorem exists_hasVariable : ∃ (m : Machine Source) (v : Variable), m.memory.HasVariable v := by
  obtain ⟨memory, hmemory⟩ : ∃ memory, Memory.init.declare ⟨.global, "x"⟩ = .ok memory := ⟨_, rfl⟩
  refine ⟨{ fresh (Source.lines []) {} {} with memory }, ⟨.global, "x"⟩, ?_⟩
  exact ((Memory.declare_eq_ok_iff.1 hmemory).hasVariable_iff _).2 (Or.inr ⟨rfl, rfl⟩)

end Machine

/-- On every machine an opcode with one source comes to a result: from whatever source has the value `x`, and for
whatever declared destination. -/
def UnaryOp.Gives (op : UnaryOp) (x : Value) (result : Except Fault Value) : Prop :=
  ∀ (σ : Type) [Input σ] (m : Machine σ) (v : Variable) (source : Symb), m.memory.HasVariable v →
    m.memory.value source = .ok x → m.Answers (.unary op v source) result

/-- On every machine an opcode with two sources comes to a result: from whatever sources have the values `x` and `y`, and
for whatever declared destination. -/
def BinaryOp.Gives (op : BinaryOp) (x y : Value) (result : Except Fault Value) : Prop :=
  ∀ (σ : Type) [Input σ] (m : Machine σ) (v : Variable) (left right : Symb), m.memory.HasVariable v →
    m.memory.value left = .ok x → m.memory.value right = .ok y → m.Answers (.binary op v left right) result

theorem UnaryOp.gives_iff {op : UnaryOp} {x : Value} {result : Except Fault Value} :
    op.Gives x result ↔ op.eval x = result := by
  constructor
  · intro h
    obtain ⟨m, v, hv⟩ := Machine.exists_hasVariable
    exact (Machine.answers_unary hv rfl).1 (h _ m v (.const x) hv rfl)
  · intro h σ _ m v source hv hx
    exact (Machine.answers_unary hv hx).2 h

theorem BinaryOp.gives_iff {op : BinaryOp} {x y : Value} {result : Except Fault Value} :
    op.Gives x y result ↔ op.eval x y = result := by
  constructor
  · intro h
    obtain ⟨m, v, hv⟩ := Machine.exists_hasVariable
    exact (Machine.answers_binary hv rfl rfl).1 (h _ m v (.const x) (.const y) hv rfl rfl)
  · intro h σ _ m v left right hv hx hy
    exact (Machine.answers_binary hv hx hy).2 h

end IPPcode23
