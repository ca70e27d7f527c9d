import IPPcode23.Proofs.Channel
import IPPcode23.Proofs.Machine.Faults
import IPPcode23.Proofs.Rename.Memory

/-!
# Machines that correspond

Two machines correspond if they differ in the names of variables and in where the instructions of their programs stand.
Corresponding machines carry an action and the renamed one out alike, and come to corresponding machines again
(`Corresponds.execute`). So do programs, instruction by instruction, as long as no instruction depends on what the
machines do not share: label tables that differ elsewhere, how much has been executed, and what stands in the diagnostics
(`Aligned.step`).
-/

namespace IPPcode23

variable {σ : Type}

/-- The machines `m` and `m'` correspond: the variables of `m'` are those of `m` renamed, and an instruction that stands
at an index for `m` stands at its image for `m'`. -/
structure Corresponds (r : Renaming) (index : Nat → Nat) (m m' : Machine σ) : Prop where
  memory : m'.memory = m.memory.rename r
  data : m'.data = m.data
  calls : m'.calls = m.calls.map index
  pc : m'.pc = index m.pc
  input : m'.input = m.input
  output : m'.output = m.output

/-- The machines `m` and `m'` correspond and will go on to do so with the program `p` of `m`: labels that stand in `p` are
declared at corresponding indices, and neither the flush nor the diagnostics can make a difference. -/
structure Aligned (r : Renaming) (index : Nat → Nat) (p : Program) (m m' : Machine σ) : Prop
    extends Corresponds r index m m' where
  labels : ∀ i ∈ p, ∀ label, .label label ∈ i.operands →
    m'.labels.lookup (r.label label) = (m.labels.lookup label).map index
  flush : m.output.refusesFlush = false
  limit : m.diagnostics.limit = none
  limit' : m'.diagnostics.limit = none

private theorem Aligned.flush' {r : Renaming} {index : Nat → Nat} {p : Program} {m m' : Machine σ}
    (h : Aligned r index p m m') : m'.output.refusesFlush = false := by
  rw [h.output, h.flush]

/-- Outcomes that correspond. -/
inductive Outcome.Agrees (r : Renaming) (index : Nat → Nat) : Outcome σ → Outcome σ → Prop where
  | next {m m' : Machine σ} (h : Corresponds r index m m') : Agrees r index (.next m) (.next m')
  | exit {code : Nat} {m m' : Machine σ} (h : Corresponds r index m m') : Agrees r index (.exit code m) (.exit code m')
  | fail {cause cause' : Fault} {m m' : Machine σ} (hcause : cause' = cause.rename r) (h : Corresponds r index m m') :
    Agrees r index (.fail cause m) (.fail cause' m')

/-- The same error where instructions stand at other indices and have other names. -/
def RunError.translate (r : Renaming) (index : Nat → Nat) (e : RunError) : RunError :=
  ⟨index e.position, e.fault.rename r⟩

/-- Progress that corresponds. -/
inductive Progress.Agrees (r : Renaming) (index : Nat → Nat) (p : Program) : Progress σ → Progress σ → Prop where
  | running {m m' : Machine σ} (h : Aligned r index p m m') : Agrees r index p (.running m) (.running m')
  | halted {how : Halt} {m m' : Machine σ} (h : Corresponds r index m m') :
    Agrees r index p (.halted how m) (.halted how m')
  | failed {e : RunError} {m m' : Machine σ} (h : Corresponds r index m m') :
    Agrees r index p (.failed e m) (.failed (e.translate r index) m')

theorem Progress.Agrees.machine {r : Renaming} {index : Nat → Nat} {p : Program} {x y : Progress σ}
    (h : Agrees r index p x y) : Corresponds r index x.machine y.machine := by
  cases h with
  | running h => exact h.toCorresponds
  | halted h | failed h => exact h

private theorem rename_fault_of_mem_checks (r : Renaming) {opcode : Opcode} {sources : List Value} {c : Check}
    (h : c ∈ opcode.checks sources) : c.fault.rename r = c.fault := by
  cases c with
  | label | declared | undeclared | initialized =>
    exfalso
    unfold Opcode.checks at h
    split at h <;> simp at h
  | _ => rfl

/-- What depends on values alone fails with no names. -/
private theorem agree_of_checks (r : Renaming) {α : Type} {m : Machine σ} {x : Except Fault α} {opcode : Opcode}
    {sources : List Value} (h : cause? x = m.firstFault? (opcode.checks sources)) : Agree r Eq x x := by
  cases x with
  | ok a => exact .ok rfl
  | error cause =>
    obtain ⟨c, hc, rfl⟩ := Option.map_eq_some_iff.1 h.symm
    exact .error (rename_fault_of_mem_checks r (List.mem_of_find?_eq_some hc)).symm

namespace Corresponds

variable {r : Renaming} {index : Nat → Nat} {m m' : Machine σ}

/-! ### The parts of an action -/

theorem value (h : Corresponds r index m m') (source : Symb) :
    Agree r Eq (m.memory.value source) (m'.memory.value (source.rename r)) := by
  rw [h.memory]
  exact Memory.agree_value source

private theorem withMemory (h : Corresponds r index m m') (memory : Memory) :
    Corresponds r index { m with memory } { m' with memory := memory.rename r } :=
  ⟨rfl, h.data, h.calls, h.pc, h.input, h.output⟩

private theorem attempt (h : Corresponds r index m m') {x x' : Except Fault (Machine σ)}
    (hx : Agree r (Corresponds r index) x x') : Outcome.Agrees r index (m.attempt x) (m'.attempt x') := by
  cases hx with
  | ok h => exact .next h
  | error hcause => exact .fail hcause h

private theorem agrees_withMemory (h : Corresponds r index m m') {x x' : Except Fault Memory}
    (hx : Agree r (fun memory memory' => memory' = memory.rename r) x x') :
    Outcome.Agrees r index (m.withMemory x) (m'.withMemory x') := by
  refine h.attempt (hx.bind ?_)
  rintro memory _ rfl
  exact .ok (h.withMemory memory)

private theorem agrees_withValue (h : Corresponds r index m m') {source : Symb} {k k' : Value → Outcome σ}
    (hk : ∀ x, Outcome.Agrees r index (k x) (k' x)) :
    Outcome.Agrees r index (m.withValue source k) (m'.withValue (source.rename r) k') := by
  have hvalue := h.value source
  unfold Machine.withValue
  generalize m.memory.value source = x at hvalue ⊢
  generalize m'.memory.value (source.rename r) = x' at hvalue ⊢
  cases hvalue with
  | ok heq =>
    subst heq
    exact hk _
  | error hcause => exact .fail hcause h

private theorem store (h : Corresponds r index m m') (v : Variable) (x : Value) :
    Agree r (Corresponds r index) (m.store v x) (m'.store (v.rename r) x) := by
  unfold Machine.store
  rw [h.memory]
  refine (Memory.agree_assign v x).bind ?_
  rintro memory _ rfl
  exact .ok (h.withMemory memory)

private theorem target {label : String}
    (hlabel : m'.labels.lookup (r.label label) = (m.labels.lookup label).map index) :
    Agree r (fun n n' => n' = index n) (m.target label) (m'.target (r.label label)) := by
  unfold Machine.target
  rw [hlabel]
  cases m.labels.lookup label with
  | none => exact .error rfl
  | some n => exact .ok rfl

private theorem callLabel (h : Corresponds r index m m') {label : String}
    (hlabel : m'.labels.lookup (r.label label) = (m.labels.lookup label).map index) :
    Agree r (Corresponds r index) (m.callLabel label) (m'.callLabel (r.label label)) := by
  refine (target hlabel).bind ?_
  rintro n _ rfl
  have hcalls : m'.pc :: m'.calls = (m.pc :: m.calls).map index := by rw [h.pc, h.calls, List.map_cons]
  exact .ok ⟨h.memory, h.data, hcalls, rfl, h.input, h.output⟩

private theorem returnFromCall (h : Corresponds r index m m') :
    Agree r (Corresponds r index) m.returnFromCall m'.returnFromCall := by
  unfold Machine.returnFromCall
  rw [h.calls]
  cases m.calls with
  | nil => exact .error rfl
  | cons n rest => exact .ok ⟨h.memory, h.data, rfl, rfl, h.input, h.output⟩

private theorem popInto (h : Corresponds r index m m') (v : Variable) :
    Agree r (Corresponds r index) (m.popInto v) (m'.popInto (v.rename r)) := by
  have hcontent : Agree r Eq (m.memory.content v) (m'.memory.content (v.rename r)) := by
    rw [h.memory]
    exact Memory.agree_content v
  refine hcontent.bind fun _ _ _ => ?_
  rw [h.data]
  cases m.data with
  | nil => exact .error rfl
  | cons x rest =>
    have hrest : Corresponds r index { m with data := rest } { m' with data := rest } :=
      ⟨h.memory, rfl, h.calls, h.pc, h.input, h.output⟩
    exact hrest.store v x

private theorem jumpIf (h : Corresponds r index m m') {wanted : Bool} {label : String} (left right : Symb)
    (hlabel : m'.labels.lookup (r.label label) = (m.labels.lookup label).map index) :
    Agree r (Corresponds r index) (m.jumpIf wanted label left right)
      (m'.jumpIf wanted (r.label label) (left.rename r) (right.rename r)) := by
  refine (target hlabel).bind ?_
  rintro n _ rfl
  refine (h.value left).bind ?_
  rintro x _ rfl
  refine (h.value right).bind ?_
  rintro y _ rfl
  cases x.same? y with
  | none => exact .error rfl
  | some result =>
    refine .ok ?_
    split
    · exact ⟨h.memory, h.data, h.calls, rfl, h.input, h.output⟩
    · exact h

private theorem writeOutput (h : Corresponds r index m m') (text : String) :
    Outcome.Agrees r index (m.writeOutput text) (m'.writeOutput text) := by
  unfold Machine.writeOutput
  rw [h.output]
  have hput : Corresponds r index { m with output := m.output.put text } { m' with output := m.output.put text } :=
    ⟨h.memory, h.data, h.calls, h.pc, h.input, rfl⟩
  cases m.output.fits text with
  | true => exact .next hput
  | false => exact .fail rfl hput

/-- What is written to diagnostics without a limit makes no difference. -/
private theorem writeDiagnostics (h : Corresponds r index m m') (hlimit : m.diagnostics.limit = none)
    (hlimit' : m'.diagnostics.limit = none) (text text' : String) :
    Outcome.Agrees r index (m.writeDiagnostics text) (m'.writeDiagnostics text') := by
  have hnext := Machine.writeDiagnostics_eq_next.2 ⟨Sink.fits_of_limit hlimit text, rfl⟩
  have hnext' := Machine.writeDiagnostics_eq_next.2 ⟨Sink.fits_of_limit hlimit' text', rfl⟩
  rw [hnext, hnext']
  exact .next ⟨h.memory, h.data, h.calls, h.pc, h.input, h.output⟩

private theorem enter (h : Corresponds r index m m') (hnext : index (m.pc + 1) = index m.pc + 1) :
    Corresponds r index m.enter m'.enter := by
  have hpc : m'.pc + 1 = index (m.pc + 1) := by rw [hnext, h.pc]
  exact ⟨h.memory, h.data, h.calls, hpc, h.input, h.output⟩

variable [Input σ]

/-! ### One action -/

private theorem readInto (h : Corresponds r index m m') (v : Variable) (t : TypeName) :
    Outcome.Agrees r index (m.readInto v t) (m'.readInto (v.rename r) t) := by
  have hinput := h.input
  have hread : Corresponds r index { m with input := Input.advance m.input }
      { m' with input := Input.advance m'.input } :=
    ⟨h.memory, h.data, h.calls, h.pc, by rw [hinput], h.output⟩
  cases hanswer : Input.answer m.input with
  | error cause =>
    rw [Machine.readInto_of_failure hanswer, Machine.readInto_of_failure (by rw [hinput, hanswer])]
    exact .fail rfl hread
  | ok line? =>
    rw [Machine.readInto_of_answer hanswer, Machine.readInto_of_answer (by rw [hinput, hanswer])]
    exact hread.attempt (hread.store v _)

theorem execute (h : Corresponds r index m m') {a : Action} (hlimit : m.diagnostics.limit = none)
    (hlimit' : m'.diagnostics.limit = none)
    (hlabel : ∀ label, a.destination? = some label →
      m'.labels.lookup (r.label label) = (m.labels.lookup label).map index) :
    Outcome.Agrees r index (m.execute a) (m'.execute (a.rename r)) := by
  cases a with
  | createFrame =>
    have hmemory : m'.memory.create = m.memory.create.rename r := by rw [h.memory, Memory.create_rename]
    exact .next ⟨hmemory, h.data, h.calls, h.pc, h.input, h.output⟩
  | pushFrame => exact h.agrees_withMemory (by rw [h.memory]; exact Memory.agree_push)
  | popFrame => exact h.agrees_withMemory (by rw [h.memory]; exact Memory.agree_pop)
  | defVar v => exact h.agrees_withMemory (by rw [h.memory]; exact Memory.agree_declare v)
  | call label => exact h.attempt (h.callLabel (hlabel label rfl))
  | ret => exact h.attempt h.returnFromCall
  | pushs source =>
    refine h.attempt ((h.value source).bind ?_)
    rintro x _ rfl
    have hdata : x :: m'.data = x :: m.data := by rw [h.data]
    exact .ok ⟨h.memory, hdata, h.calls, h.pc, h.input, h.output⟩
  | pops v => exact h.attempt (h.popInto v)
  | unary op v source =>
    refine h.attempt ((h.value source).bind ?_)
    rintro x _ rfl
    refine (agree_of_checks r (Machine.cause?_unary m op x)).bind ?_
    rintro y _ rfl
    exact h.store v y
  | binary op v left right =>
    refine h.attempt ((h.value left).bind ?_)
    rintro x _ rfl
    refine (h.value right).bind ?_
    rintro y _ rfl
    refine (agree_of_checks r (Machine.cause?_binary m op x y)).bind ?_
    rintro z _ rfl
    exact h.store v z
  | setChar v position replacement =>
    refine h.attempt ((h.value (.var v)).bind ?_)
    rintro s _ rfl
    refine (h.value position).bind ?_
    rintro i _ rfl
    refine (h.value replacement).bind ?_
    rintro x _ rfl
    refine (agree_of_checks r (Machine.cause?_setChar m s i x)).bind ?_
    rintro y _ rfl
    exact h.store v y
  | typeOf v source =>
    refine h.attempt (Agree.bind (R := Eq) (by rw [h.memory]; exact Memory.agree_typeName source) ?_)
    rintro name _ rfl
    exact h.store v _
  | read v t => exact h.readInto v t
  | write source => exact h.agrees_withValue fun x => h.writeOutput x.text
  | label name => exact .next h
  | jump label =>
    refine h.attempt ((target (hlabel label rfl)).bind ?_)
    rintro n _ rfl
    exact .ok ⟨h.memory, h.data, h.calls, rfl, h.input, h.output⟩
  | jumpIf wanted label left right => exact h.attempt (h.jumpIf left right (hlabel label rfl))
  | exit source =>
    refine h.agrees_withValue fun x => ?_
    have hcode := agree_of_checks r (Machine.cause?_exitCode m x)
    generalize x.exitCode = code at hcode ⊢
    cases hcode with
    | ok => exact .exit h
    | error hcause => exact .fail hcause h
  | dprint source => exact h.agrees_withValue fun x => h.writeDiagnostics hlimit hlimit' _ _
  | dump => exact h.writeDiagnostics hlimit hlimit' _ _

/-! ### One instruction -/

private theorem perform (h : Corresponds r index m m') {i : Instruction} (hlimit : m.diagnostics.limit = none)
    (hlimit' : m'.diagnostics.limit = none)
    (hlabel : ∀ label, .label label ∈ i.operands →
      m'.labels.lookup (r.label label) = (m.labels.lookup label).map index) :
    Outcome.Agrees r index (m.perform i) (m'.perform (i.rename r)) := by
  unfold Machine.perform
  rw [Instruction.action_rename]
  cases ha : i.action with
  | error cause => exact .fail rfl h
  | ok a =>
    refine h.execute hlimit hlimit' fun label hdestination => hlabel label ?_
    rw [← Instruction.action_eq_ok_iff.1 ha]
    exact List.mem_of_head? (Action.head?_operands_of_destination? hdestination)

end Corresponds

variable [Input σ]

namespace Machine

private theorem perform_eq_next_iff {m m' : Machine σ} {i : Instruction} :
    m.perform i = .next m' ↔ ∃ a, a.instruction = i ∧ Executes m a m' := by
  unfold perform
  cases ha : i.action with
  | error cause =>
    simp only [reduceCtorEq, false_iff, not_exists, not_and]
    intro a hi _
    rw [Instruction.action_eq_ok_iff.2 hi] at ha
    cases ha
  | ok a =>
    simp only [execute_eq_next_iff]
    constructor
    · intro h
      exact ⟨a, Instruction.action_eq_ok_iff.1 ha, h⟩
    · rintro ⟨b, hb, h⟩
      cases ha.symm.trans (Instruction.action_eq_ok_iff.2 hb)
      exact h

private theorem current_of_perform_eq_fail {m m' : Machine σ} {i : Instruction} {cause : Fault}
    (h : m.perform i = .fail cause m') : m'.current = m.current := by
  unfold perform at h
  split at h
  · cases h
    rfl
  · exact (control_of_execute_eq_fail h).2.2.2

private theorem eq_of_perform_eq_exit {m m' : Machine σ} {i : Instruction} {code : Nat}
    (h : m.perform i = .exit code m') : m = m' := by
  unfold perform at h
  split at h
  · cases h
  · obtain ⟨_, _, _, _, _, hm'⟩ := execute_eq_exit_iff.1 h
    exact hm'

/-- No action changes what the sinks grant. -/
private theorem Executes.sinks_eq {m m' : Machine σ} {a : Action} (h : Executes m a m') :
    m'.output.refusesFlush = m.output.refusesFlush ∧ m'.diagnostics.limit = m.diagnostics.limit := by
  cases h with
  | jumpIf => split <;> exact ⟨rfl, rfl⟩
  | _ => exact ⟨rfl, rfl⟩

end Machine

namespace Aligned

variable {r : Renaming} {index : Nat → Nat} {p p' : Program} {m m' : Machine σ}

private theorem of_executes {m₁ m₁' : Machine σ} {a a' : Action} (h : Aligned r index p m m')
    (hm₁ : Machine.Executes m.enter a m₁) (hm₁' : Machine.Executes m'.enter a' m₁')
    (hcorresponds : Corresponds r index m₁ m₁') :
    Aligned r index p m₁ m₁' := by
  obtain ⟨hflush, hlimit⟩ := hm₁.sinks_eq
  obtain ⟨_, hlimit'⟩ := hm₁'.sinks_eq
  refine ⟨hcorresponds, ?_, hflush.trans h.flush, hlimit.trans h.limit, hlimit'.trans h.limit'⟩
  rw [hm₁.labels_eq, hm₁'.labels_eq]
  exact h.labels

/-- Where the next instructions are the same but for names, so is the step. -/
theorem step (h : Aligned r index p m m') {i : Instruction} (hi : p[m.pc]? = some i)
    (hi' : p'[m'.pc]? = some (i.rename r)) (hnext : index (m.pc + 1) = index m.pc + 1) :
    Progress.Agrees r index p (m.step p) (m'.step p') := by
  have hperform := (h.enter hnext).perform h.limit h.limit' (h.labels i (Array.mem_of_getElem? hi))
  simp only [Machine.step, hi, hi']
  generalize ho : m.enter.perform i = o at hperform ⊢
  generalize ho' : m'.enter.perform (i.rename r) = o' at hperform ⊢
  cases hperform with
  | next hm₁ =>
    obtain ⟨a, _, hexec⟩ := Machine.perform_eq_next_iff.1 ho
    obtain ⟨a', _, hexec'⟩ := Machine.perform_eq_next_iff.1 ho'
    exact .running (h.of_executes hexec hexec' hm₁)
  | exit hm₁ =>
    obtain rfl := Machine.eq_of_perform_eq_exit ho
    obtain rfl := Machine.eq_of_perform_eq_exit ho'
    simp only [Machine.finish_of_flush (m := m.enter) h.flush, Machine.finish_of_flush (m := m'.enter) h.flush']
    exact .halted hm₁
  | fail hcause hm₁ =>
    have hindex : m'.enter.current = index m.enter.current := h.pc
    simp only [Machine.current_of_perform_eq_fail ho, Machine.current_of_perform_eq_fail ho', hcause, hindex]
    exact .failed hm₁

/-- Where both programs end, so do both executions. -/
theorem step_atEnd (h : Aligned r index p m m') (hi : p[m.pc]? = none) (hi' : p'[m'.pc]? = none) :
    Progress.Agrees r index p (m.step p) (m'.step p') := by
  simp only [Machine.step, hi, hi', Machine.finish_of_flush h.flush, Machine.finish_of_flush h.flush']
  exact .halted h.toCorresponds

end Aligned

end IPPcode23
