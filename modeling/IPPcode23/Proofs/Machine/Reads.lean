import IPPcode23.Proofs.Input
import IPPcode23.Proofs.Machine.Channels

/-!
# Lines and the `READ`s that take them

On an input that supplies lines, the `READ`s of any number of executions get them one after another, whether or not they
can store them (`takesLines_executions`). What is stored is given by the rules of `ReadsAs`. Another input that answers
alike for a while makes no difference until more `READ`s than that have been carried out (`SharesAnswers.executions`).
-/

namespace IPPcode23

variable {σ τ : Type} [Input σ] [Input τ]

/-! ### What a line is read as -/

/-- What a line, or the end of the input, is read as, by the type that is asked for. -/
inductive ReadsAs : TypeName → Option String → Value → Prop where
  | atEnd {t : TypeName} : ReadsAs t none .nil
  | string {line : String} : ReadsAs .string (some line) (.string line)
  | int {line : String} {n : Int64} (h : Literal.parseInt? (Text.trim line) = some n) :
    ReadsAs .int (some line) (.int n)
  | noInt {line : String} (h : Literal.parseInt? (Text.trim line) = none) : ReadsAs .int (some line) .nil
  | bool {line : String} {b : Bool} (h : Text.equalFold (Text.trim line) (Value.bool b).text = true) :
    ReadsAs .bool (some line) (.bool b)
  | noBool {line : String} (h : ∀ b, Text.equalFold (Text.trim line) (Value.bool b).text = false) :
    ReadsAs .bool (some line) .nil

private theorem readsAs_interpret (t : TypeName) (line? : Option String) : ReadsAs t line? (t.interpret line?) := by
  cases line? with
  | none => cases t <;> exact .atEnd
  | some line =>
    cases t with
    | string => exact .string
    | int =>
      cases h : Literal.parseInt? (Text.trim line) with
      | none =>
        have hnil : TypeName.int.interpret (some line) = .nil := by simp [TypeName.interpret, h]
        rw [hnil]
        exact .noInt h
      | some n =>
        have hint : TypeName.int.interpret (some line) = .int n := by simp [TypeName.interpret, h]
        rw [hint]
        exact .int h
    | bool =>
      simp only [TypeName.interpret]
      split
      case isTrue htrue => exact .bool htrue
      case isFalse htrue =>
        split
        case isTrue hfalse => exact .bool hfalse
        case isFalse hfalse =>
          refine .noBool fun b => ?_
          cases b
          · exact Bool.eq_false_iff.2 hfalse
          · exact Bool.eq_false_iff.2 htrue

/-- A line is read as one value only. -/
theorem ReadsAs.unique {t : TypeName} {line? : Option String} {x y : Value} (hx : ReadsAs t line? x)
    (hy : ReadsAs t line? y) : x = y := by
  cases hx with
  | atEnd => cases hy; rfl
  | string => cases hy; rfl
  | int h =>
    cases hy with
    | int h' => cases h.symm.trans h'; rfl
    | noInt h' => cases h.symm.trans h'
  | noInt h =>
    cases hy with
    | int h' => cases h.symm.trans h'
    | noInt => rfl
  | @bool line b h =>
    cases hy with
    | @bool _ c h' =>
      -- no text is both words
      have hfold := (Text.equalFold_iff.1 h).symm.trans (Text.equalFold_iff.1 h')
      cases b <;> cases c <;> first | rfl | exact absurd hfold (by decide)
    | noBool h' => rw [h' b] at h; cases h
  | noBool h =>
    cases hy with
    | @bool _ b h' => rw [h b] at h'; cases h'
    | noBool => rfl

private theorem readsAs_iff {t : TypeName} {line? : Option String} {x : Value} :
    ReadsAs t line? x ↔ t.interpret line? = x := by
  constructor
  · intro h
    exact (readsAs_interpret t line?).unique h
  · rintro rfl
    exact readsAs_interpret t line?

namespace Machine

/-! ### The lines that `READ`s get -/

/-- A `READ` of a declared variable takes the next line and stores what it is read as. -/
theorem step_read {p : Program} {m : Machine σ} {v : Variable} {t : TypeName} {lines : List String}
    (hi : p[m.pc]? = some (Action.read v t).instruction) (hlines : Input.Supplies m.input lines)
    (hv : m.memory.HasVariable v) :
    ∃ memory x, ReadsAs t lines.head? x ∧ m.memory.assign v x = .ok memory ∧
      m.step p = .running { m.enter with memory, input := Input.advance m.input } := by
  have hreads := readsAs_interpret t lines.head?
  obtain ⟨memory, hmemory⟩ := Memory.exists_assign hv (t.interpret lines.head?)
  have hexec := Executes.read (m := m.enter) hlines.answer_eq hmemory
  exact ⟨memory, _, hreads, hmemory, step_eq_running_iff.2 ⟨_, hi, hexec⟩⟩

/-- Before each step of executions, as many lines are gone as `READ`s have been carried out. -/
structure TakesLines (p : Program) (lines : List String) (steps : List (Machine σ)) (m : Machine σ) : Prop where
  pending : Input.Supplies m.input (lines.drop (steps.filter (reads p)).length)
  earlier : ∀ k s, (steps.filter (reads p))[k]? = some s → Input.Supplies s.input (lines.drop k)

private theorem TakesLines.step {p : Program} {lines : List String} {steps : List (Machine σ)} {m : Machine σ}
    (h : TakesLines p lines steps m) : TakesLines p lines (steps ++ [m]) (m.step p).machine := by
  have hinput := input_step p m
  cases hreads : m.reads p with
  | false =>
    have hsteps : (steps ++ [m]).filter (reads p) = steps.filter (reads p) := by simp [hreads]
    rw [hreads] at hinput
    refine ⟨?_, ?_⟩
    · rw [hinput, hsteps]
      exact h.pending
    · rw [hsteps]
      exact h.earlier
  | true =>
    have hsteps : (steps ++ [m]).filter (reads p) = steps.filter (reads p) ++ [m] := by simp [hreads]
    rw [hreads] at hinput
    refine ⟨?_, ?_⟩
    · rw [hinput, hsteps, List.length_append, List.length_singleton, ← List.tail_drop]
      exact h.pending.advance
    · rw [hsteps]
      intro k s hs
      rcases Nat.lt_or_ge k (steps.filter (reads p)).length with hk | hk
      · rw [List.getElem?_append_left hk] at hs
        exact h.earlier k s hs
      · -- the step itself is the last `READ` so far
        rw [List.getElem?_append_right hk, List.getElem?_singleton] at hs
        split at hs
        case isTrue hzero =>
          have hlast : k = (steps.filter (reads p)).length := by omega
          obtain rfl := Option.some.inj hs
          rw [hlast]
          exact h.pending
        case isFalse => cases hs

theorem takesLines_executions {p : Program} {m : Machine σ} {lines : List String}
    (hlines : Input.Supplies m.input lines) (ns : List Nat) :
    TakesLines p lines (m.history p ns) (m.executions p ns) := by
  refine history_invariant (fun steps s h => h.step) ?_ ⟨hlines, by simp⟩ ns
  intro steps s labels pc h
  exact ⟨h.pending, h.earlier⟩

/-! ### Two inputs -/

/-- All of a machine but its input. -/
def withoutInput (m : Machine σ) : Machine Unit :=
  { m with input := () }

/-- Two machines that differ in their inputs, which give the next `k` reads the same answers. -/
structure SharesAnswers (k : Nat) (m : Machine σ) (m' : Machine τ) : Prop where
  machine : m'.withoutInput = m.withoutInput
  answers : ∀ n < k, Input.answer (Input.after n m'.input) = Input.answer (Input.after n m.input)

namespace SharesAnswers

variable {p : Program} {k : Nat} {m : Machine σ} {m' : Machine τ}

private theorem eq_rewire (h : SharesAnswers k m m') : m' = m.rewire m'.input m.output := by
  have hsame := congrArg (fun s : Machine Unit => s.rewire m'.input s.output) h.machine
  exact hsame

private theorem mono {j : Nat} (h : SharesAnswers k m m') (hle : j ≤ k) : SharesAnswers j m m' :=
  ⟨h.machine, fun n hn => h.answers n (by omega)⟩

/-- Inputs that supply lines answer alike as long as the lines are the same. -/
theorem of_supplies {lines lines' : List String} (hmachine : m'.withoutInput = m.withoutInput)
    (hlines : Input.Supplies m.input lines) (hlines' : Input.Supplies m'.input lines')
    (hshared : lines.take k = lines'.take k) : SharesAnswers k m m' := by
  refine ⟨hmachine, fun n hn => ?_⟩
  have hline := congrArg (·[n]?) hshared
  rw [List.getElem?_take_of_lt hn, List.getElem?_take_of_lt hn] at hline
  rw [hlines n, hlines' n, hline]

/-- A `READ` gets one of the shared answers, and no other step makes a difference. -/
private theorem step (h : SharesAnswers (k + if m.reads p then 1 else 0) m m') :
    (m'.step p).map withoutInput = (m.step p).map withoutInput ∧
      SharesAnswers k (m.step p).machine (m'.step p).machine := by
  have hreads' : m'.reads p = m.reads p := by
    rw [h.eq_rewire]
    rfl
  have hread : m.reads p = true → Input.answer m'.input = Input.answer m.input := by
    intro hreads
    rw [if_pos hreads] at h
    exact h.answers 0 (by omega)
  have hstep : (m.rewire m'.input m.output).step p = _ := step_rewire hread (fun _ _ => rfl) rfl
  rw [← h.eq_rewire, ← output_step] at hstep
  have hsame : (m'.step p).map withoutInput = (m.step p).map withoutInput := by
    rw [hstep]
    cases m.step p <;> rfl
  have hmachine := congrArg Progress.machine hsame
  rw [Progress.machine_map, Progress.machine_map] at hmachine
  refine ⟨hsame, hmachine, fun n hn => ?_⟩
  rw [input_step, input_step, hreads']
  by_cases hreads : m.reads p = true
  · rw [if_pos hreads] at h
    rw [if_pos hreads, if_pos hreads]
    exact h.answers (n + 1) (by omega)
  · rw [if_neg hreads, if_neg hreads]
    exact h.answers n (by omega)

/-- As long as there are enough shared answers for the `READ`s of a run, another input makes no difference to it. -/
private theorem run {n : Nat} (h : SharesAnswers (k + (m.runSteps p n).countP (reads p)) m m') :
    (m'.run p n).map withoutInput = (m.run p n).map withoutInput ∧
      (m'.runSteps p n).map withoutInput = (m.runSteps p n).map withoutInput ∧
      SharesAnswers k (m.run p n).machine (m'.run p n).machine := by
  induction n generalizing m m' with
  | zero =>
    have hmachine := h.machine
    exact ⟨by simp [Machine.run, Progress.map, hmachine], rfl, h⟩
  | succ n ih =>
    rw [runSteps, List.countP_cons, ← Nat.add_assoc] at h
    obtain ⟨hsame, hnext⟩ := h.step
    rw [Machine.run, Machine.run, runSteps, runSteps, List.map_cons, List.map_cons, h.machine]
    cases hstep : m.step p with
    | running m₁ =>
      rw [hstep] at hsame hnext
      cases hstep' : m'.step p with
      | running m₁' =>
        rw [hstep'] at hnext
        obtain ⟨hrun, hsteps, hrest⟩ := ih hnext
        exact ⟨hrun, congrArg (m.withoutInput :: ·) hsteps, hrest⟩
      | halted | failed => rw [hstep'] at hsame; cases hsame
    | halted | failed =>
      rw [hstep] at hsame hnext
      cases hstep' : m'.step p with
      | running m₁' => rw [hstep'] at hsame; cases hsame
      | halted | failed =>
        rw [hstep'] at hsame hnext
        exact ⟨hsame, rfl, hnext⟩

theorem executeFor {n : Nat} (h : SharesAnswers (k + (m.executionSteps p n).countP (reads p)) m m') :
    (m'.executeFor p n).map withoutInput = (m.executeFor p n).map withoutInput ∧
      (m'.executionSteps p n).map withoutInput = (m.executionSteps p n).map withoutInput ∧
      SharesAnswers k (m.executeFor p n).machine (m'.executeFor p n).machine := by
  unfold executionSteps at h ⊢
  unfold Machine.executeFor
  unfold start at h ⊢
  cases htable : LabelTable.ofProgram p with
  | error e =>
    rw [htable] at h
    let table := LabelTable.scanned [] 0 p.toList
    have hmachine : withoutInput { m' with labels := table } = withoutInput { m with labels := table } :=
      congrArg (fun s : Machine Unit => { s with labels := table }) h.machine
    exact ⟨congrArg (Progress.failed e) hmachine, rfl, hmachine, h.answers⟩
  | ok labels =>
    rw [htable] at h
    let m₁ : Machine σ := { m with labels, pc := 0 }
    let m₁' : Machine τ := { m' with labels, pc := 0 }
    have hmachine : m₁'.withoutInput = m₁.withoutInput :=
      congrArg (fun s : Machine Unit => { s with labels, pc := 0 }) h.machine
    have hstart : SharesAnswers (k + (m₁.runSteps p n).countP (reads p)) m₁ m₁' := ⟨hmachine, h.answers⟩
    exact hstart.run

end SharesAnswers

/-- How far executions of a program come, one after another and each for a number of steps. -/
def outcomes (p : Program) : Machine σ → List Nat → List (Progress σ)
  | _, [] => []
  | m, n :: ns => m.executeFor p n :: outcomes p (m.executeFor p n).machine ns

theorem SharesAnswers.executions {p : Program} {k : Nat} {m : Machine σ} {m' : Machine τ} {ns : List Nat}
    (h : SharesAnswers (k + (m.history p ns).countP (reads p)) m m') :
    (m'.outcomes p ns).map (·.map withoutInput) = (m.outcomes p ns).map (·.map withoutInput) ∧
      (m'.history p ns).map withoutInput = (m.history p ns).map withoutInput := by
  induction ns generalizing m m' with
  | nil => exact ⟨rfl, rfl⟩
  | cons n ns ih =>
    rw [history, List.countP_append, Nat.add_comm (List.countP _ _), ← Nat.add_assoc] at h
    obtain ⟨hexecute, hsteps, hrest⟩ := h.executeFor
    obtain ⟨houtcomes, hhistory⟩ := ih hrest
    rw [outcomes, outcomes, history, history, List.map_cons, List.map_cons, List.map_append, List.map_append, hexecute,
      hsteps, houtcomes, hhistory]
    exact ⟨rfl, rfl⟩

/-- Whatever executions of a program do on an input that supplies lines, the `READ`s that pass the check against their
signature get the lines in order, one each, also those that cannot store it, and from the end of the input on they get
nothing. No other instruction takes a line. A `READ` of a declared variable goes on whatever the line is, and the variable
has what the line is read as. So an input that shares the first `k` lines makes no difference to executions with at most
`k` such `READ`s. -/
theorem reads_take_lines_in_order (p : Program) (m : Machine σ) (lines : List String) (ns : List Nat)
    (hlines : Input.Supplies m.input lines) :
    (∀ (k : Nat) (s : Machine σ), ((m.history p ns).filter (reads p))[k]? = some s →
      ∃ v t, p[s.pc]? = some (Action.read v t).instruction ∧
        Input.read s.input = (.ok lines[k]?, (s.step p).machine.input) ∧
        (s.memory.HasVariable v → ∃ s' x, s.step p = .running s' ∧ ReadsAs t lines[k]? x ∧
          s.memory.assign v x = .ok s'.memory ∧ s'.memory.read v = .ok x)) ∧
    (∀ s : Machine σ, (∀ i, p[s.pc]? = some i → i.opcode = .read → i.checkSignature ≠ .ok ()) →
      (s.step p).machine.input = s.input) ∧
    ∀ (τ : Type) [Input τ] (input : τ) (lines' : List String) (k : Nat), Input.Supplies input lines' →
      lines.take k = lines'.take k → (m.history p ns).countP (reads p) ≤ k →
      let m' : Machine τ := { m with input }
      (m'.outcomes p ns).map (·.map withoutInput) = (m.outcomes p ns).map (·.map withoutInput) ∧
        (m'.history p ns).map withoutInput = (m.history p ns).map withoutInput := by
  refine ⟨?_, ?_, ?_⟩
  · intro k s hs
    have hpending := (takesLines_executions hlines ns).earlier k s hs
    have hreads : s.reads p = true := (List.mem_filter.1 (List.mem_of_getElem? hs)).2
    have hline : (lines.drop k).head? = lines[k]? := List.head?_drop
    obtain ⟨v, t, hi⟩ := reads_eq_true_iff.1 hreads
    refine ⟨v, t, hi, ?_, ?_⟩
    · rw [input_step, if_pos hreads, ← hline, ← hpending.answer_eq]
      rfl
    · intro hv
      obtain ⟨memory, x, hx, hmemory, hstep⟩ := step_read hi hpending hv
      rw [hline] at hx
      exact ⟨_, x, hstep, hx, hmemory, Memory.read_of_assign hmemory⟩
  · intro s hother
    rw [input_step, if_neg]
    intro hreads
    obtain ⟨v, t, hi⟩ := reads_eq_true_iff.1 hreads
    obtain ⟨hopcode, hcheck⟩ := (reads_iff_checkSignature hi).1 hreads
    exact hother _ hi hopcode hcheck
  · intro τ _ input lines' k hlines' hshared hcount m'
    have hshares : SharesAnswers k m m' := .of_supplies rfl hlines hlines' hshared
    exact SharesAnswers.executions (k := 0) (hshares.mono (by omega))

/-- Two executions of a program whose second `READ` has no frame to store to, so that the second line is lost. -/
theorem reads_take_lines_in_order_twice :
    let p : Program := #[⟨.createFrame, []⟩, ⟨.pushFrame, []⟩, ⟨.defVar, [.var ⟨.local, "x"⟩]⟩,
      ⟨.read, [.var ⟨.local, "x"⟩, .type .int]⟩, ⟨.read, [.var ⟨.temporary, "x"⟩, .type .bool]⟩]
    let m := fresh (Source.lines ["7", "x", "+0x10"]) {} {}
    let m' := fresh (Source.bytes [55, 10, 120, 13, 10, 43, 48, 120, 49, 48, 10, 55]) {} {}
    let s := ((m.executeFor p 5).machine.executeFor p 3).machine
    ((m.history p [5, 4]).filter (reads p))[2]? = some s ∧
      (∃ s', s.step p = .running s' ∧ s'.memory.read ⟨.local, "x"⟩ = .ok (.int 16)) ∧
      (m'.history p [5, 4]).map withoutInput = (m.history p [5, 4]).map withoutInput := by
  intro p m m' s
  obtain ⟨hreads, _, hshared⟩ := reads_take_lines_in_order p m _ [5, 4] (Source.supplies_lines _)
  have hs : ((m.history p [5, 4]).filter (reads p))[2]? = some s := rfl
  refine ⟨hs, ?_, (hshared Source _ _ 3 (Source.supplies_bytes _) (by decide) (by decide)).2⟩
  obtain ⟨v, t, hi, _, hstores⟩ := hreads 2 s hs
  have hread : p[s.pc]? = some (Action.read ⟨.local, "x"⟩ .int).instruction := rfl
  cases Option.some.inj (hi.symm.trans hread)
  obtain ⟨s', x, hstep, hx, _, hvalue⟩ := hstores ⟨_, rfl, by decide⟩
  have hsixteen : TypeName.int.interpret (some "+0x10") = .int 16 := by decide
  cases hsixteen.symm.trans (readsAs_iff.1 hx)
  exact ⟨s', hstep, hvalue⟩

end Machine

end IPPcode23
