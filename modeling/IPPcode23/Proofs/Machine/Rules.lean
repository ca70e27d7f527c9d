import IPPcode23.Machine.Step
import IPPcode23.Proofs.Channel
import IPPcode23.Proofs.Memory

/-!
# The rules of actions

`Executes m a m'` says by one rule for each action when a machine can carry it out and go on, and what the machine is
then. The function that carries actions out follows the rules (`execute_eq_next_iff`), asks to end only at an `EXIT`
(`execute_eq_exit_iff`), and where it fails it has changed nothing but the channels (`leaves_of_execute_eq_fail`).
-/

namespace IPPcode23.Machine

variable {σ : Type}

/-! ### The parts of an action -/

theorem attempt_eq_next {m m' : Machine σ} {x : Except Fault (Machine σ)} : m.attempt x = .next m' ↔ x = .ok m' := by
  cases x <;> simp [attempt]

theorem attempt_eq_fail {m m' : Machine σ} {x : Except Fault (Machine σ)} {cause : Fault} :
    m.attempt x = .fail cause m' ↔ x = .error cause ∧ m = m' := by
  cases x <;> simp [attempt]

private theorem attempt_ne_exit {m m' : Machine σ} {x : Except Fault (Machine σ)} {code : Nat} :
    m.attempt x ≠ .exit code m' := by
  cases x <;> simp [attempt]

theorem target_eq_ok {m : Machine σ} {label : String} {n : Nat} :
    m.target label = .ok n ↔ m.labels.lookup label = some n := by
  unfold target
  cases m.labels.lookup label <;> simp

theorem store_eq_ok {m m' : Machine σ} {v : Variable} {x : Value} :
    m.store v x = .ok m' ↔ ∃ memory, m.memory.assign v x = .ok memory ∧ { m with memory } = m' := by
  unfold store
  rw [bind_eq_ok]
  simp only [pure_eq_ok]

private theorem withMemory_eq_next {m m' : Machine σ} {x : Except Fault Memory} :
    m.withMemory x = .next m' ↔ ∃ memory, x = .ok memory ∧ { m with memory } = m' := by
  unfold withMemory
  rw [attempt_eq_next, bind_eq_ok]
  simp only [pure_eq_ok]

private theorem withValue_eq_next {m m' : Machine σ} {source : Symb} {k : Value → Outcome σ} :
    m.withValue source k = .next m' ↔ ∃ x, m.memory.value source = .ok x ∧ k x = .next m' := by
  unfold withValue
  cases m.memory.value source <;> simp

private theorem writeOutput_eq_next {m m' : Machine σ} {text : String} :
    m.writeOutput text = .next m' ↔ m.output.fits text = true ∧ { m with output := m.output.put text } = m' := by
  unfold writeOutput
  cases m.output.fits text <;> simp

theorem writeDiagnostics_eq_next {m m' : Machine σ} {text : String} :
    m.writeDiagnostics text = .next m' ↔
      m.diagnostics.fits text = true ∧ { m with diagnostics := m.diagnostics.put text } = m' := by
  unfold writeDiagnostics
  cases m.diagnostics.fits text <;> simp

private theorem writeDiagnostics_eq_fail {m m' : Machine σ} {text : String} {cause : Fault}
    (h : m.writeDiagnostics text = .fail cause m') :
    m.diagnostics.fits text = false ∧ { m with diagnostics := m.diagnostics.put text } = m' := by
  unfold writeDiagnostics at h
  cases hfits : m.diagnostics.fits text <;> simp_all

private theorem popInto_eq_ok {m m' : Machine σ} {v : Variable} :
    m.popInto v = .ok m' ↔ ∃ x rest memory, m.data = x :: rest ∧ m.memory.assign v x = .ok memory ∧
      { m with memory, data := rest } = m' := by
  unfold popInto
  rw [bind_eq_ok]
  constructor
  · rintro ⟨y?, _, h⟩
    split at h
    · cases h
    · next x rest hdata =>
      obtain ⟨memory, hassign, rfl⟩ := store_eq_ok.1 h
      exact ⟨x, rest, memory, hdata, hassign, rfl⟩
  · rintro ⟨x, rest, memory, hdata, hassign, rfl⟩
    obtain ⟨y?, hcontent⟩ := Memory.content_of_assign hassign
    refine ⟨y?, hcontent, ?_⟩
    rw [hdata]
    exact store_eq_ok.2 ⟨memory, hassign, rfl⟩

private theorem jumpIf_eq_ok {m m' : Machine σ} {wanted : Bool} {label : String} {a b : Symb} :
    m.jumpIf wanted label a b = .ok m' ↔ ∃ n x y result, m.labels.lookup label = some n ∧
      m.memory.value a = .ok x ∧ m.memory.value b = .ok y ∧ x.same? y = some result ∧
      (if result = wanted then { m with pc := n } else m) = m' := by
  unfold jumpIf
  simp only [bind_eq_ok, target_eq_ok]
  constructor
  · rintro ⟨n, hn, x, hx, y, hy, h⟩
    split at h
    · cases h
    · next result hresult => exact ⟨n, x, y, result, hn, hx, hy, hresult, pure_eq_ok.1 h⟩
  · rintro ⟨n, x, y, result, hn, hx, hy, hresult, rfl⟩
    refine ⟨n, hn, x, hx, y, hy, ?_⟩
    rw [hresult]
    rfl

private theorem callLabel_eq_ok {m m' : Machine σ} {label : String} :
    m.callLabel label = .ok m' ↔
      ∃ n, m.labels.lookup label = some n ∧ { m with calls := m.pc :: m.calls, pc := n } = m' := by
  unfold callLabel
  simp only [bind_eq_ok, target_eq_ok, pure_eq_ok]

private theorem returnFromCall_eq_ok {m m' : Machine σ} :
    m.returnFromCall = .ok m' ↔ ∃ n rest, m.calls = n :: rest ∧ { m with calls := rest, pc := n } = m' := by
  unfold returnFromCall
  cases m.calls with
  | nil => simp
  | cons n rest =>
    simp only [Except.ok.injEq, List.cons.injEq]
    constructor
    · intro h
      exact ⟨n, rest, ⟨rfl, rfl⟩, h⟩
    · rintro ⟨_, _, ⟨rfl, rfl⟩, h⟩
      exact h

variable [Input σ]

theorem readInto_of_answer {m : Machine σ} {v : Variable} {t : TypeName} {line? : Option String}
    (h : Input.answer m.input = .ok line?) :
    m.readInto v t =
      attempt { m with input := Input.advance m.input }
        (store { m with input := Input.advance m.input } v (t.interpret line?)) := by
  have hread : Input.read m.input = (.ok line?, Input.advance m.input) := Prod.ext h rfl
  simp only [readInto, hread]

theorem readInto_of_failure {m : Machine σ} {v : Variable} {t : TypeName} {cause : ChannelFault}
    (h : Input.answer m.input = .error cause) :
    m.readInto v t = .fail (.channel cause) { m with input := Input.advance m.input } := by
  have hread : Input.read m.input = (.error cause, Input.advance m.input) := Prod.ext h rfl
  simp only [readInto, hread]

private theorem readInto_eq_next {m m' : Machine σ} {v : Variable} {t : TypeName} :
    m.readInto v t = .next m' ↔ ∃ line? memory, Input.answer m.input = .ok line? ∧
      m.memory.assign v (t.interpret line?) = .ok memory ∧
      { m with memory, input := Input.advance m.input } = m' := by
  cases hread : Input.answer m.input with
  | error cause => simp [readInto_of_failure hread]
  | ok line? =>
    rw [readInto_of_answer hread, attempt_eq_next, store_eq_ok]
    constructor
    · rintro ⟨memory, h, rfl⟩
      exact ⟨line?, memory, rfl, h, rfl⟩
    · rintro ⟨_, memory, hline, h, rfl⟩
      obtain rfl := Except.ok.inj hline
      exact ⟨memory, h, rfl⟩

/-! ### Rules -/

/-- The machine `m` carries an action out and goes on as `m'`. -/
inductive Executes (m : Machine σ) : Action → Machine σ → Prop where
  | createFrame : Executes m .createFrame { m with memory := m.memory.create }
  | pushFrame {memory : Memory} (h : m.memory.push = .ok memory) : Executes m .pushFrame { m with memory }
  | popFrame {memory : Memory} (h : m.memory.pop = .ok memory) : Executes m .popFrame { m with memory }
  | defVar {v : Variable} {memory : Memory} (h : m.memory.declare v = .ok memory) :
    Executes m (.defVar v) { m with memory }
  | call {label : String} {n : Nat} (h : m.labels.lookup label = some n) :
    Executes m (.call label) { m with calls := m.pc :: m.calls, pc := n }
  | ret {n : Nat} {rest : List Nat} (h : m.calls = n :: rest) : Executes m .ret { m with calls := rest, pc := n }
  | pushs {source : Symb} {x : Value} (h : m.memory.value source = .ok x) :
    Executes m (.pushs source) { m with data := x :: m.data }
  | pops {v : Variable} {x : Value} {rest : List Value} {memory : Memory} (hdata : m.data = x :: rest)
    (h : m.memory.assign v x = .ok memory) : Executes m (.pops v) { m with memory, data := rest }
  | unary {op : UnaryOp} {v : Variable} {source : Symb} {x y : Value} {memory : Memory}
    (hx : m.memory.value source = .ok x) (hy : op.eval x = .ok y) (h : m.memory.assign v y = .ok memory) :
    Executes m (.unary op v source) { m with memory }
  | binary {op : BinaryOp} {v : Variable} {left right : Symb} {x y z : Value} {memory : Memory}
    (hx : m.memory.value left = .ok x) (hy : m.memory.value right = .ok y) (hz : op.eval x y = .ok z)
    (h : m.memory.assign v z = .ok memory) : Executes m (.binary op v left right) { m with memory }
  | setChar {v : Variable} {index replacement : Symb} {s i r x : Value} {memory : Memory}
    (hs : m.memory.read v = .ok s) (hi : m.memory.value index = .ok i) (hr : m.memory.value replacement = .ok r)
    (hx : s.setChar i r = .ok x) (h : m.memory.assign v x = .ok memory) :
    Executes m (.setChar v index replacement) { m with memory }
  | typeOf {v : Variable} {source : Symb} {name : String} {memory : Memory}
    (hname : m.memory.typeName source = .ok name) (h : m.memory.assign v (.string name) = .ok memory) :
    Executes m (.typeOf v source) { m with memory }
  | read {v : Variable} {t : TypeName} {line? : Option String} {memory : Memory}
    (hread : Input.answer m.input = .ok line?) (h : m.memory.assign v (t.interpret line?) = .ok memory) :
    Executes m (.read v t) { m with memory, input := Input.advance m.input }
  | write {source : Symb} {x : Value} (hx : m.memory.value source = .ok x) (h : m.output.fits x.text = true) :
    Executes m (.write source) { m with output := m.output.put x.text }
  | label {name : String} : Executes m (.label name) m
  | jump {label : String} {n : Nat} (h : m.labels.lookup label = some n) : Executes m (.jump label) { m with pc := n }
  | jumpIf {wanted result : Bool} {label : String} {left right : Symb} {n : Nat} {x y : Value}
    (h : m.labels.lookup label = some n) (hx : m.memory.value left = .ok x) (hy : m.memory.value right = .ok y)
    (hresult : x.same? y = some result) :
    Executes m (.jumpIf wanted label left right) (if result = wanted then { m with pc := n } else m)
  | dprint {source : Symb} {x : Value} (hx : m.memory.value source = .ok x)
    (h : m.diagnostics.fits (x.text ++ "\n") = true) :
    Executes m (.dprint source) { m with diagnostics := m.diagnostics.put (x.text ++ "\n") }
  | dump (h : m.diagnostics.fits m.dump = true) :
    Executes m .dump { m with diagnostics := m.diagnostics.put m.dump }

/-! ### Actions -/

private theorem executes_of_execute {m m' : Machine σ} {a : Action} (hexec : m.execute a = .next m') :
    Executes m a m' := by
  cases a with
  | createFrame => cases hexec; exact .createFrame
  | pushFrame => obtain ⟨memory, h, rfl⟩ := withMemory_eq_next.1 hexec; exact .pushFrame h
  | popFrame => obtain ⟨memory, h, rfl⟩ := withMemory_eq_next.1 hexec; exact .popFrame h
  | defVar v => obtain ⟨memory, h, rfl⟩ := withMemory_eq_next.1 hexec; exact .defVar h
  | call label => obtain ⟨n, h, rfl⟩ := callLabel_eq_ok.1 (attempt_eq_next.1 hexec); exact .call h
  | ret => obtain ⟨n, rest, h, rfl⟩ := returnFromCall_eq_ok.1 (attempt_eq_next.1 hexec); exact .ret h
  | pushs source =>
    obtain ⟨x, hx, h⟩ := bind_eq_ok.1 (attempt_eq_next.1 hexec)
    rw [← pure_eq_ok.1 h]
    exact .pushs hx
  | pops v =>
    obtain ⟨x, rest, memory, hdata, h, rfl⟩ := popInto_eq_ok.1 (attempt_eq_next.1 hexec)
    exact .pops hdata h
  | unary op v source =>
    obtain ⟨x, hx, h⟩ := bind_eq_ok.1 (attempt_eq_next.1 hexec)
    obtain ⟨y, hy, h⟩ := bind_eq_ok.1 h
    obtain ⟨memory, hmemory, rfl⟩ := store_eq_ok.1 h
    exact .unary hx hy hmemory
  | binary op v left right =>
    obtain ⟨x, hx, h⟩ := bind_eq_ok.1 (attempt_eq_next.1 hexec)
    obtain ⟨y, hy, h⟩ := bind_eq_ok.1 h
    obtain ⟨z, hz, h⟩ := bind_eq_ok.1 h
    obtain ⟨memory, hmemory, rfl⟩ := store_eq_ok.1 h
    exact .binary hx hy hz hmemory
  | setChar v index replacement =>
    obtain ⟨s, hs, h⟩ := bind_eq_ok.1 (attempt_eq_next.1 hexec)
    obtain ⟨i, hi, h⟩ := bind_eq_ok.1 h
    obtain ⟨r, hr, h⟩ := bind_eq_ok.1 h
    obtain ⟨x, hx, h⟩ := bind_eq_ok.1 h
    obtain ⟨memory, hmemory, rfl⟩ := store_eq_ok.1 h
    exact .setChar hs hi hr hx hmemory
  | typeOf v source =>
    obtain ⟨name, hname, h⟩ := bind_eq_ok.1 (attempt_eq_next.1 hexec)
    obtain ⟨memory, hmemory, rfl⟩ := store_eq_ok.1 h
    exact .typeOf hname hmemory
  | read v t =>
    obtain ⟨line?, memory, hread, h, rfl⟩ := readInto_eq_next.1 hexec
    exact .read hread h
  | write source =>
    obtain ⟨x, hx, h⟩ := withValue_eq_next.1 hexec
    obtain ⟨hfits, rfl⟩ := writeOutput_eq_next.1 h
    exact .write hx hfits
  | label name => cases hexec; exact .label
  | jump label =>
    obtain ⟨n, hn, h⟩ := bind_eq_ok.1 (attempt_eq_next.1 hexec)
    rw [← pure_eq_ok.1 h]
    exact .jump (target_eq_ok.1 hn)
  | jumpIf wanted label left right =>
    obtain ⟨n, x, y, result, hn, hx, hy, hresult, rfl⟩ := jumpIf_eq_ok.1 (attempt_eq_next.1 hexec)
    exact .jumpIf hn hx hy hresult
  | exit source =>
    obtain ⟨x, hx, h⟩ := withValue_eq_next.1 hexec
    split at h <;> cases h
  | dprint source =>
    obtain ⟨x, hx, h⟩ := withValue_eq_next.1 hexec
    obtain ⟨hfits, rfl⟩ := writeDiagnostics_eq_next.1 h
    exact .dprint hx hfits
  | dump =>
    obtain ⟨h, rfl⟩ := writeDiagnostics_eq_next.1 hexec
    exact .dump h

private theorem execute_of_executes {m m' : Machine σ} {a : Action} (h : Executes m a m') : m.execute a = .next m' := by
  cases h with
  | createFrame => rfl
  | pushFrame h | popFrame h | defVar h => exact withMemory_eq_next.2 ⟨_, h, rfl⟩
  | call h => exact attempt_eq_next.2 (callLabel_eq_ok.2 ⟨_, h, rfl⟩)
  | ret h => exact attempt_eq_next.2 (returnFromCall_eq_ok.2 ⟨_, _, h, rfl⟩)
  | pushs h => exact attempt_eq_next.2 (bind_eq_ok.2 ⟨_, h, rfl⟩)
  | pops hdata h => exact attempt_eq_next.2 (popInto_eq_ok.2 ⟨_, _, _, hdata, h, rfl⟩)
  | unary hx hy h =>
    have hstore := store_eq_ok.2 ⟨_, h, rfl⟩
    exact attempt_eq_next.2 (bind_eq_ok.2 ⟨_, hx, bind_eq_ok.2 ⟨_, hy, hstore⟩⟩)
  | binary hx hy hz h =>
    have hstore := store_eq_ok.2 ⟨_, h, rfl⟩
    exact attempt_eq_next.2 (bind_eq_ok.2 ⟨_, hx, bind_eq_ok.2 ⟨_, hy, bind_eq_ok.2 ⟨_, hz, hstore⟩⟩⟩)
  | setChar hs hi hr hx h =>
    have hstore := bind_eq_ok.2 ⟨_, hx, store_eq_ok.2 ⟨_, h, rfl⟩⟩
    exact attempt_eq_next.2 (bind_eq_ok.2 ⟨_, hs, bind_eq_ok.2 ⟨_, hi, bind_eq_ok.2 ⟨_, hr, hstore⟩⟩⟩)
  | typeOf hname h =>
    have hstore := store_eq_ok.2 ⟨_, h, rfl⟩
    exact attempt_eq_next.2 (bind_eq_ok.2 ⟨_, hname, hstore⟩)
  | read hread h => exact readInto_eq_next.2 ⟨_, _, hread, h, rfl⟩
  | write hx h => exact withValue_eq_next.2 ⟨_, hx, writeOutput_eq_next.2 ⟨h, rfl⟩⟩
  | label => rfl
  | jump h => exact attempt_eq_next.2 (bind_eq_ok.2 ⟨_, target_eq_ok.2 h, rfl⟩)
  | jumpIf h hx hy hresult => exact attempt_eq_next.2 (jumpIf_eq_ok.2 ⟨_, _, _, _, h, hx, hy, hresult, rfl⟩)
  | dprint hx h => exact withValue_eq_next.2 ⟨_, hx, writeDiagnostics_eq_next.2 ⟨h, rfl⟩⟩
  | dump h => exact writeDiagnostics_eq_next.2 ⟨h, rfl⟩

/-- An action is carried out by the rules and in no other way. -/
theorem execute_eq_next_iff {m m' : Machine σ} {a : Action} : m.execute a = .next m' ↔ Executes m a m' :=
  ⟨executes_of_execute, execute_of_executes⟩

/-- Only an `EXIT` asks to end, and it leaves the machine as it is. -/
theorem execute_eq_exit_iff {m m' : Machine σ} {a : Action} {code : Nat} :
    m.execute a = .exit code m' ↔
      ∃ source x, a = .exit source ∧ m.memory.value source = .ok x ∧ x.exitCode = .ok code ∧ m = m' := by
  constructor
  · intro h
    cases a with
    | exit source =>
      simp only [execute, withValue] at h
      split at h
      case h_1 x hx =>
        split at h
        case h_1 code' hcode => cases h; exact ⟨source, x, rfl, hx, hcode, rfl⟩
        case h_2 => cases h
      case h_2 => cases h
    | createFrame | label => cases h
    | write source | dprint source =>
      simp only [execute, withValue] at h
      split at h
      · exact absurd h (by simp only [writeOutput, writeDiagnostics]; split <;> simp)
      · cases h
    | dump => exact absurd h (by simp only [execute, writeDiagnostics]; split <;> simp)
    | read v t =>
      rw [execute] at h
      cases hread : Input.answer m.input with
      | error cause => rw [readInto_of_failure hread] at h; cases h
      | ok line? => rw [readInto_of_answer hread] at h; exact absurd h attempt_ne_exit
    | pushFrame | popFrame | defVar | call | ret | pushs | pops | unary | binary | setChar | typeOf | jump | jumpIf =>
      exact absurd h attempt_ne_exit
  · rintro ⟨source, x, rfl, hx, hcode, rfl⟩
    simp only [execute, withValue, hx, hcode]

/-- What a failed action leaves behind. -/
inductive Leaves (m : Machine σ) : Action → Machine σ → Prop where
  | same {a : Action} : Leaves m a m
  | output {source : Symb} {x : Value} (hx : m.memory.value source = .ok x) (h : m.output.fits x.text = false) :
    Leaves m (.write source) { m with output := m.output.put x.text }
  | diagnostics {a : Action} {text : String} (h : m.diagnostics.fits text = false) :
    Leaves m a { m with diagnostics := m.diagnostics.put text }
  | input {v : Variable} {t : TypeName} : Leaves m (.read v t) { m with input := Input.advance m.input }

theorem leaves_of_execute_eq_fail {m m' : Machine σ} {a : Action} {cause : Fault} (h : m.execute a = .fail cause m') :
    Leaves m a m' := by
  cases a with
  | createFrame | label => cases h
  | pushFrame | popFrame | defVar | call | ret | pushs | pops | unary | binary | setChar | typeOf | jump | jumpIf =>
    rw [← (attempt_eq_fail.1 h).2]
    exact .same
  | exit source =>
    simp only [execute, withValue] at h
    split at h
    · split at h <;> cases h
      exact .same
    · cases h
      exact .same
  | write source =>
    simp only [execute, withValue, writeOutput] at h
    split at h
    case h_1 x hx =>
      split at h <;> cases h
      case isFalse hfits => exact .output hx (Bool.eq_false_iff.2 hfits)
    case h_2 => cases h; exact .same
  | dprint source =>
    simp only [execute, withValue] at h
    split at h
    · obtain ⟨hfits, rfl⟩ := writeDiagnostics_eq_fail h
      exact .diagnostics hfits
    · cases h
      exact .same
  | dump =>
    obtain ⟨hfits, rfl⟩ := writeDiagnostics_eq_fail h
    exact .diagnostics hfits
  | read v t =>
    rw [execute] at h
    cases hread : Input.answer m.input with
    | error cause => rw [readInto_of_failure hread] at h; cases h; exact .input
    | ok line? =>
      rw [readInto_of_answer hread] at h
      rw [← (attempt_eq_fail.1 h).2]
      exact .input

/-- What a failed action leaves behind: the machine as it is but for the sinks, or but for a read of the input. -/
theorem eq_of_execute_eq_fail {m m' : Machine σ} {a : Action} {cause : Fault} (h : m.execute a = .fail cause m') :
    (∃ output diagnostics, { m with output, diagnostics } = m') ∨
      ∃ v t, a = .read v t ∧ { m with input := Input.advance m.input } = m' := by
  cases leaves_of_execute_eq_fail h with
  | same => exact Or.inl ⟨m.output, m.diagnostics, rfl⟩
  | output => exact Or.inl ⟨_, m.diagnostics, rfl⟩
  | diagnostics => exact Or.inl ⟨m.output, _, rfl⟩
  | input => exact Or.inr ⟨_, _, rfl, rfl⟩

end IPPcode23.Machine
