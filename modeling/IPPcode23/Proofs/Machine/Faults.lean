import IPPcode23.Proofs.Machine.Checks

/-!
# Failing by the first check

Unless one of the channels fails, an instruction succeeds if all of its checks pass, and it fails with the fault of the
first one that does not (`step_fails_by_first_check`). The parts of an instruction do the same with checks of their own,
and one part after another has the checks of both, one after the other (`cause?_bind`).
-/

namespace IPPcode23

variable {σ : Type}

/-- What a computation fails with. -/
def cause? {α : Type} : Except Fault α → Option Fault
  | .ok _ => none
  | .error cause => some cause

/-- What an instruction fails with. -/
def Outcome.cause? : Outcome σ → Option Fault
  | .fail cause _ => some cause
  | _ => none

namespace Machine

/-- Checks follow each other as the computations that they belong to. -/
theorem cause?_bind {α β : Type} {m : Machine σ} {x : Except Fault α} {f : α → Except Fault β} {cs ds : List Check}
    (hx : cause? x = m.firstFault? cs) (hf : ∀ a, x = .ok a → cause? (f a) = m.firstFault? ds) :
    cause? (x >>= f) = m.firstFault? (cs ++ ds) := by
  rw [firstFault?_append, ← hx]
  cases x with
  | error cause => rfl
  | ok a => exact hf a rfl

private theorem cause?_map {α β : Type} (f : α → β) (x : Except Fault α) : cause? (f <$> x) = cause? x := by
  cases x <;> rfl

/-! ### Access to memory -/

private theorem cause?_frame (m : Machine σ) (tag : FrameTag) :
    cause? (m.memory.frame tag) = m.firstFault? [.frame tag] := by
  rw [firstFault?_singleton]
  unfold Memory.frame
  cases h : m.memory.frame? tag <;> simp [Check.holds, h, cause?, Check.fault]

private theorem cause?_content (m : Machine σ) (v : Variable) :
    cause? (m.memory.content v) = m.firstFault? v.checks := by
  show _ = m.firstFault? ([.frame v.frame] ++ [.declared v])
  refine cause?_bind (cause?_frame m v.frame) fun f hf => ?_
  have hslot : m.memory.slot? v = some (f.lookup v.name) := Memory.slot?_of_frame hf
  rw [firstFault?_singleton]
  cases h : f.lookup v.name <;> simp [Check.holds, hslot, h, cause?, Check.fault]

private theorem cause?_read (m : Machine σ) (v : Variable) :
    cause? (m.memory.read v) = m.firstFault? (v.checks ++ [.initialized v]) := by
  refine cause?_bind (cause?_content m v) fun x? hx => ?_
  rw [firstFault?_singleton]
  cases x? <;> simp [Check.holds, Memory.value?_of_content hx, cause?, Check.fault]

private theorem cause?_value (m : Machine σ) (source : Symb) :
    cause? (m.memory.value source) = m.firstFault? source.checks := by
  cases source with
  | var v => exact cause?_read m v
  | const x => rfl

private theorem cause?_typeName (m : Machine σ) (v : Variable) (source : Symb) :
    cause? (m.memory.typeName source) = m.firstFault? (Action.typeOf v source).accessChecks := by
  cases source with
  | const x => rfl
  | var w =>
    rw [Action.accessChecks, ← List.append_nil w.checks]
    refine cause?_bind (cause?_content m w) fun x? _ => ?_
    cases x? <;> rfl

private theorem holds_declared {m : Machine σ} {v : Variable} {f : Frame} (hf : m.memory.frame v.frame = .ok f) :
    (Check.declared v).holds m = decide (v.name ∈ f.names) := by
  have hslot : m.memory.slot? v = some (f.lookup v.name) := Memory.slot?_of_frame hf
  by_cases hmem : v.name ∈ f.names
  · have hdeclared : f.lookup v.name ≠ .undeclared := fun h => Frame.lookup_eq_undeclared_iff.1 h hmem
    simp [Check.holds, hslot, hdeclared, hmem]
  · have hundeclared : f.lookup v.name = .undeclared := Frame.lookup_eq_undeclared_iff.2 hmem
    simp [Check.holds, hslot, hundeclared, hmem]

/-- In a frame that exists, a variable is declared or undeclared. -/
private theorem holds_undeclared {m : Machine σ} {v : Variable} {f : Frame} (hf : m.memory.frame v.frame = .ok f) :
    (Check.undeclared v).holds m = !(Check.declared v).holds m := by
  have hslot : m.memory.slot? v = some (f.lookup v.name) := Memory.slot?_of_frame hf
  simp [Check.holds, hslot]

private theorem cause?_assign (m : Machine σ) (v : Variable) (x : Value) :
    cause? (m.memory.assign v x) = m.firstFault? v.checks := by
  show _ = m.firstFault? ([.frame v.frame] ++ [.declared v])
  refine cause?_bind (cause?_frame m v.frame) fun f hf => ?_
  rw [firstFault?_singleton, holds_declared hf]
  unfold Frame.assign?
  by_cases hmem : v.name ∈ f.names <;> simp [hmem, cause?, Check.fault]

private theorem cause?_declare (m : Machine σ) (v : Variable) :
    cause? (m.memory.declare v) = m.firstFault? [.frame v.frame, .undeclared v] := by
  show _ = m.firstFault? ([.frame v.frame] ++ [.undeclared v])
  refine cause?_bind (cause?_frame m v.frame) fun f hf => ?_
  rw [firstFault?_singleton, holds_undeclared hf, holds_declared hf]
  unfold Frame.declare?
  by_cases hmem : v.name ∈ f.names <;> simp [hmem, cause?, Check.fault]

private theorem cause?_push (m : Machine σ) : cause? m.memory.push = m.firstFault? [.frame .temporary] := by
  rw [firstFault?_singleton]
  unfold Memory.push
  cases h : m.memory.temporary <;> simp [Check.holds, Memory.frame?, h, cause?, Check.fault]

private theorem cause?_pop (m : Machine σ) : cause? m.memory.pop = m.firstFault? [.frame .local] := by
  rw [firstFault?_singleton]
  unfold Memory.pop
  cases h : m.memory.locals <;> simp [Check.holds, Memory.frame?, h, cause?, Check.fault]

/-! ### Operations -/

private theorem cause?_charOf (m : Machine σ) (n : Int64) : cause? (charOf n) = m.firstFault? [.codePoint n] := by
  have hrange : 0 ≤ n.toInt ∧ n.toInt.toNat.isValidChar ↔
      0 ≤ n.toInt ∧ n.toInt < 0xD800 ∨ 0xE000 ≤ n.toInt ∧ n.toInt ≤ 0x10FFFF := by
    unfold Nat.isValidChar
    omega
  rw [firstFault?_singleton, Check.holds]
  unfold charOf
  by_cases h : 0 ≤ n.toInt ∧ n.toInt.toNat.isValidChar
  · rw [if_pos h, decide_eq_true (hrange.1 h)]
    rfl
  · rw [if_neg h, decide_eq_false (mt hrange.2 h)]
    rfl

private theorem cause?_charAt (m : Machine σ) (s : String) (i : Int64) :
    cause? (charAt s i) = m.firstFault? [.index i s.length] := by
  rw [firstFault?_singleton, Check.holds]
  unfold charAt position?
  by_cases h : 0 ≤ i.toInt ∧ i.toInt < s.length
  · have hlength : i.toInt.toNat < s.toList.length := by
      rw [String.length_toList]
      omega
    rw [if_pos h, decide_eq_true h, Option.bind_some, List.getElem?_eq_getElem hlength]
    rfl
  · rw [if_neg h, decide_eq_false h]
    rfl

private theorem cause?_replaceAt (m : Machine σ) (s : String) (i : Int64) (r : String) :
    cause? (replaceAt s i r) = m.firstFault? [.index i s.length, .replacement r] := by
  rw [firstFault?_cons, firstFault?_singleton]
  unfold replaceAt position?
  by_cases h : 0 ≤ i.toInt ∧ i.toInt < s.length
  · cases hr : r.toList with
    | nil =>
      have hempty : r = "" := by simpa using hr
      simp [Check.holds, h, hempty, cause?, Check.fault]
    | cons c cs =>
      have hempty : r ≠ "" := by
        rintro rfl
        cases hr
      simp [Check.holds, h, hempty, cause?]
  · simp [Check.holds, h, cause?, Check.fault]

theorem cause?_unary (m : Machine σ) (op : UnaryOp) (x : Value) :
    cause? (op.eval x) = m.firstFault? (Opcode.checks (.unary op) [x]) := by
  cases op with
  | int2char =>
    cases x with
    | int n => exact (cause?_map _ _).trans (cause?_charOf m n)
    | _ => rfl
  | _ => cases x <;> rfl

theorem cause?_binary (m : Machine σ) (op : BinaryOp) (x y : Value) :
    cause? (op.eval x y) = m.firstFault? (Opcode.checks (.binary op) [x, y]) := by
  cases op with
  | idiv =>
    cases x <;> cases y <;> try rfl
    next a b =>
    show cause? (if b = 0 then _ else _) = m.firstFault? [.divisor b]
    rw [firstFault?_singleton]
    by_cases h : b = 0 <;> simp [Check.holds, h, cause?, Check.fault]
  | stri2int | getchar =>
    cases x <;> cases y <;> try rfl
    next s i => exact (cause?_map _ _).trans (cause?_charAt m s i)
  | _ => cases x <;> cases y <;> rfl

theorem cause?_setChar (m : Machine σ) (x y z : Value) :
    cause? (x.setChar y z) = m.firstFault? (Opcode.checks .setChar [x, y, z]) := by
  cases x <;> cases y <;> cases z <;> try rfl
  next s i r => exact (cause?_map _ _).trans (cause?_replaceAt m s i r)

theorem cause?_exitCode (m : Machine σ) (x : Value) : cause? x.exitCode = m.firstFault? (Opcode.checks .exit [x]) := by
  cases x with
  | int n =>
    show cause? (if 0 ≤ n.toInt ∧ n.toInt ≤ 49 then _ else _) = m.firstFault? [.exitCode n]
    rw [firstFault?_singleton]
    by_cases h : 0 ≤ n.toInt ∧ n.toInt ≤ 49 <;> simp [Check.holds, h, cause?, Check.fault]
  | _ => rfl

/-! ### Parts of an action -/

private theorem cause?_target (m : Machine σ) (label : String) :
    cause? (m.target label) = m.firstFault? [.label label] := by
  rw [firstFault?_singleton]
  unfold target
  cases h : m.labels.lookup label <;> simp [Check.holds, h, cause?, Check.fault]

private theorem cause?_store (m : Machine σ) (v : Variable) (x : Value) :
    cause? (m.store v x) = m.firstFault? v.checks := by
  rw [← cause?_assign m v x]
  unfold store
  cases m.memory.assign v x <;> rfl

private theorem cause?_popInto (m : Machine σ) (v : Variable) :
    cause? (m.popInto v) = m.firstFault? (v.checks ++ [.dataStack] ++ v.checks) := by
  rw [List.append_assoc]
  refine cause?_bind (cause?_content m v) fun _ _ => ?_
  rw [List.singleton_append, firstFault?_cons]
  cases h : m.data with
  | nil => simp [Check.holds, h, cause?, Check.fault]
  | cons x rest =>
    have hpass : Check.dataStack.holds m = true := by simp [Check.holds, h]
    rw [if_pos hpass]
    exact cause?_store { m with data := rest } v x

private theorem cause?_returnFromCall (m : Machine σ) : cause? m.returnFromCall = m.firstFault? [.callStack] := by
  rw [firstFault?_singleton]
  unfold returnFromCall
  cases h : m.calls <;> simp [Check.holds, h, cause?, Check.fault]

private theorem cause?_attempt (m : Machine σ) (x : Except Fault (Machine σ)) : (m.attempt x).cause? = cause? x := by
  cases x <;> rfl

/-! ### The checks of an action -/

private theorem valueChecks_of_source {m : Machine σ} {a : Action} {source : Symb} {x : Value}
    (ha : a.sources = [source]) (hx : m.memory.value source = .ok x) :
    m.valueChecks a = a.instruction.opcode.checks [x] := by
  have hvalues : a.sources.mapM m.memory.value? = some [x] := by simp [ha, Memory.value?_of_value hx]
  rw [valueChecks, hvalues]

private theorem valueChecks_of_sources {m : Machine σ} {a : Action} {left right : Symb} {x y : Value}
    (ha : a.sources = [left, right]) (hx : m.memory.value left = .ok x) (hy : m.memory.value right = .ok y) :
    m.valueChecks a = a.instruction.opcode.checks [x, y] := by
  have hvalues : a.sources.mapM m.memory.value? = some [x, y] := by
    simp [ha, Memory.value?_of_value hx, Memory.value?_of_value hy]
  rw [valueChecks, hvalues]

private theorem firstFault?_valueChecks_typeOf (m : Machine σ) (v : Variable) (source : Symb) :
    m.firstFault? (m.valueChecks (.typeOf v source)) = none := by
  unfold valueChecks
  split <;> rfl

/-- Starting an instruction changes nothing that is checked. -/
private theorem firstFault?_enter (m : Machine σ) (cs : List Check) : m.enter.firstFault? cs = m.firstFault? cs := by
  have hholds : (fun c : Check => !c.holds m.enter) = fun c => !c.holds m := by
    funext c
    cases c <;> rfl
  rw [firstFault?, hholds, firstFault?]

private theorem exists_check_of_firstFault? {m : Machine σ} {cs : List Check} {cause : Fault}
    (h : m.firstFault? cs = some cause) : ∃ c : Check, c.fault = cause := by
  obtain ⟨c, _, hc⟩ := Option.map_eq_some_iff.1 h
  exact ⟨c, hc⟩

/-! ### What follows the checks -/

variable [Input σ]

/-- The channels grant whatever an instruction asks of them. -/
structure Reliable (m : Machine σ) : Prop where
  input : ∃ line?, Input.answer m.input = .ok line?
  output : ∀ text, m.output.fits text = true
  flush : m.output.refusesFlush = false
  diagnostics : ∀ text, m.diagnostics.fits text = true

/-- An outcome is what a list of checks says, unless a channel has failed. -/
def Follows (m : Machine σ) (cs : List Check) (o : Outcome σ) : Prop :=
  o.cause? = m.firstFault? cs ∨ ¬ m.Reliable ∧ ∃ cause, o.cause? = some (.channel cause)

private theorem follows_attempt {m : Machine σ} {x : Except Fault (Machine σ)} {cs : List Check}
    (h : cause? x = m.firstFault? cs) : m.Follows cs (m.attempt x) :=
  Or.inl ((cause?_attempt m x).trans h)

private theorem follows_withMemory {m : Machine σ} {x : Except Fault Memory} {cs : List Check}
    (h : cause? x = m.firstFault? cs) : m.Follows cs (m.withMemory x) := by
  left
  rw [← h]
  cases x <;> rfl

private theorem follows_withValue {m : Machine σ} {source : Symb} {k : Value → Outcome σ} {cs : List Check}
    (h : ∀ x, m.memory.value source = .ok x → m.Follows cs (k x)) :
    m.Follows (source.checks ++ cs) (m.withValue source k) := by
  have hvalue := cause?_value m source
  unfold withValue Follows
  rw [firstFault?_append, ← hvalue]
  cases hx : m.memory.value source with
  | error cause => exact Or.inl rfl
  | ok x => exact h x hx

private theorem follows_writeOutput (m : Machine σ) (text : String) : m.Follows [] (m.writeOutput text) := by
  cases hfits : m.output.fits text with
  | true => left; simp only [writeOutput, hfits, if_true]; rfl
  | false =>
    right
    refine ⟨fun h => ?_, .sinkFull, by simp only [writeOutput, hfits]; rfl⟩
    rw [h.output text] at hfits
    cases hfits

private theorem follows_writeDiagnostics (m : Machine σ) (text : String) : m.Follows [] (m.writeDiagnostics text) := by
  cases hfits : m.diagnostics.fits text with
  | true => left; simp only [writeDiagnostics, hfits, if_true]; rfl
  | false =>
    right
    refine ⟨fun h => ?_, .sinkFull, by simp only [writeDiagnostics, hfits]; rfl⟩
    rw [h.diagnostics text] at hfits
    cases hfits

private theorem follows_readInto (m : Machine σ) (v : Variable) (t : TypeName) :
    m.Follows v.checks (m.readInto v t) := by
  cases hread : Input.answer m.input with
  | error cause =>
    rw [readInto_of_failure hread]
    refine Or.inr ⟨fun h => ?_, cause, rfl⟩
    obtain ⟨line?, hline⟩ := h.input
    cases hread.symm.trans hline
  | ok line? =>
    rw [readInto_of_answer hread]
    have hstore := cause?_store { m with input := Input.advance m.input } v (t.interpret line?)
    exact Or.inl ((cause?_attempt _ _).trans hstore)

/-! ### Actions and instructions -/

private theorem follows_execute (m : Machine σ) (a : Action) : m.Follows (m.actionChecks a) (m.execute a) := by
  -- Each case writes its checks out first. The check of types passes by itself where an opcode takes any types.
  cases a with
  | createFrame | label => exact Or.inl rfl
  | pushFrame =>
    show m.Follows ([.frame .temporary] ++ [.types .pushFrame []]) _
    exact follows_attempt (cause?_bind (cause?_push m) fun _ _ => rfl)
  | popFrame =>
    show m.Follows ([.frame .local] ++ [.types .popFrame []]) _
    exact follows_attempt (cause?_bind (cause?_pop m) fun _ _ => rfl)
  | defVar v =>
    show m.Follows ([.types .defVar []] ++ [.frame v.frame, .undeclared v]) _
    exact follows_withMemory (cause?_declare m v)
  | call label =>
    show m.Follows ([.label label] ++ [.types .call []]) _
    exact follows_attempt (cause?_bind (cause?_target m label) fun _ _ => rfl)
  | jump label =>
    show m.Follows ([.label label] ++ [.types .jump []]) _
    exact follows_attempt (cause?_bind (cause?_target m label) fun _ _ => rfl)
  | ret =>
    show m.Follows ([.callStack] ++ [.types .ret []]) _
    refine follows_attempt ?_
    rw [firstFault?_append, ← cause?_returnFromCall]
    exact Option.or_none.symm
  | pushs source =>
    show m.Follows (source.checks ++ [] ++ (m.valueChecks (.pushs source) ++ [])) _
    rw [List.append_nil, List.append_nil]
    refine follows_attempt (cause?_bind (cause?_value m source) fun x hx => ?_)
    rw [valueChecks_of_source rfl hx]
    rfl
  | unary op v source =>
    show m.Follows (source.checks ++ [] ++ (m.valueChecks (.unary op v source) ++ v.checks)) _
    rw [List.append_nil]
    refine follows_attempt (cause?_bind (cause?_value m source) fun x hx => ?_)
    rw [valueChecks_of_source rfl hx]
    exact cause?_bind (cause?_unary m op x) fun y _ => cause?_store m v y
  | binary op v left right =>
    show m.Follows (left.checks ++ (right.checks ++ []) ++
      (m.valueChecks (.binary op v left right) ++ v.checks)) _
    rw [List.append_nil, List.append_assoc]
    refine follows_attempt (cause?_bind (cause?_value m left) fun x hx => ?_)
    refine cause?_bind (cause?_value m right) fun y hy => ?_
    rw [valueChecks_of_sources rfl hx hy]
    exact cause?_bind (cause?_binary m op x y) fun z _ => cause?_store m v z
  | setChar v index replacement =>
    show m.Follows ((v.checks ++ [.initialized v]) ++ (index.checks ++ (replacement.checks ++ [])) ++
      (m.valueChecks (.setChar v index replacement) ++ v.checks)) _
    rw [List.append_nil, List.append_assoc, List.append_assoc index.checks]
    refine follows_attempt (cause?_bind (cause?_read m v) fun x hx => ?_)
    refine cause?_bind (cause?_value m index) fun y hy => ?_
    refine cause?_bind (cause?_value m replacement) fun z hz => ?_
    have hvalues : [.var v, index, replacement].mapM m.memory.value? = some [x, y, z] := by
      simp [Memory.value?_of_read hx, Memory.value?_of_value hy, Memory.value?_of_value hz]
    rw [valueChecks, Action.sources, hvalues]
    exact cause?_bind (cause?_setChar m x y z) fun w _ => cause?_store m v w
  | typeOf v source =>
    show m.Follows ((Action.typeOf v source).accessChecks ++ (m.valueChecks (.typeOf v source) ++ v.checks)) _
    refine follows_attempt (cause?_bind (cause?_typeName m v source) fun name _ => ?_)
    rw [firstFault?_append, firstFault?_valueChecks_typeOf, Option.none_or]
    exact cause?_store m v (.string name)
  | pops v =>
    show m.Follows ((v.checks ++ [.dataStack]) ++ ([.types .pops []] ++ v.checks)) _
    have htypes : m.firstFault? ([.types .pops []] ++ v.checks) = m.firstFault? v.checks := rfl
    refine follows_attempt ?_
    rw [firstFault?_append, htypes, ← firstFault?_append]
    exact cause?_popInto m v
  | read v t =>
    show m.Follows ([.types .read []] ++ v.checks) _
    exact follows_readInto m v t
  | write source =>
    show m.Follows (source.checks ++ [] ++ (m.valueChecks (.write source) ++ [])) _
    rw [List.append_nil, List.append_nil]
    refine follows_withValue fun x hx => ?_
    rw [valueChecks_of_source rfl hx]
    exact follows_writeOutput m x.text
  | dprint source =>
    show m.Follows (source.checks ++ [] ++ (m.valueChecks (.dprint source) ++ [])) _
    rw [List.append_nil, List.append_nil]
    refine follows_withValue fun x hx => ?_
    rw [valueChecks_of_source rfl hx]
    exact follows_writeDiagnostics m (x.text ++ "\n")
  | dump => exact follows_writeDiagnostics m m.dump
  | exit source =>
    show m.Follows (source.checks ++ [] ++ (m.valueChecks (.exit source) ++ [])) _
    rw [List.append_nil, List.append_nil]
    refine follows_withValue fun x hx => ?_
    rw [valueChecks_of_source rfl hx]
    have hcode := cause?_exitCode m x
    left
    cases hresult : x.exitCode <;> rw [hresult] at hcode <;> exact hcode
  | jumpIf wanted label left right =>
    show m.Follows ([.label label] ++ (left.checks ++ (right.checks ++ []) ++
      (m.valueChecks (.jumpIf wanted label left right) ++ []))) _
    rw [List.append_nil, List.append_nil, List.append_assoc]
    refine follows_attempt (cause?_bind (cause?_target m label) fun n _ => ?_)
    refine cause?_bind (cause?_value m left) fun x hx => ?_
    refine cause?_bind (cause?_value m right) fun y hy => ?_
    rw [valueChecks_of_sources rfl hx hy]
    cases x <;> cases y <;> rfl

private theorem follows_execute_enter (m : Machine σ) (a : Action) :
    m.Follows (m.actionChecks a) (m.enter.execute a) := by
  rcases follows_execute m.enter a with hcause | ⟨hunreliable, hchannel⟩
  · rw [firstFault?_enter] at hcause
    exact Or.inl hcause
  · exact Or.inr ⟨fun h => hunreliable ⟨h.input, h.output, h.flush, h.diagnostics⟩, hchannel⟩

private theorem step_eq_failed_of_cause? {p : Program} {m : Machine σ} {a : Action} {cause : Fault}
    (hi : p[m.pc]? = some a.instruction) (hcause : (m.enter.execute a).cause? = some cause) :
    ∃ m', m.step p = .failed ⟨m.pc, cause⟩ m' := by
  rw [step_of_action hi]
  cases hexec : m.enter.execute a with
  | next m' | exit code m' => rw [hexec] at hcause; cases hcause
  | fail cause' m' =>
    rw [hexec] at hcause
    cases hcause
    have hcurrent : m'.current = m.pc := (control_of_execute_eq_fail hexec).2.2.2
    rw [← hcurrent]
    exact ⟨m', rfl⟩

/-- A step fails as its action does, or at a flush that is refused. -/
private theorem cause?_of_step_eq_failed {p : Program} {m m' : Machine σ} {a : Action} {e : RunError}
    (hi : p[m.pc]? = some a.instruction) (hstep : m.step p = .failed e m') :
    (m.enter.execute a).cause? = some e.fault ∨ m.output.refusesFlush = true ∧ e = ⟨m.pc, .channel .flushRefused⟩ := by
  rw [step_of_action hi] at hstep
  cases hexec : m.enter.execute a with
  | next m₁ => rw [hexec] at hstep; cases hstep
  | exit code m₁ =>
    rw [hexec] at hstep
    obtain ⟨_, _, _, _, _, rfl⟩ := execute_eq_exit_iff.1 hexec
    obtain ⟨hflush, he, _⟩ := finish_eq_failed_iff.1 hstep
    exact Or.inr ⟨hflush, he.symm⟩
  | fail cause m₁ =>
    rw [hexec] at hstep
    cases hstep
    exact Or.inl rfl

/-- An action fails by one of its checks or by a channel. -/
theorem check_or_channel_of_execute {m m' : Machine σ} {a : Action} {cause : Fault} (h : m.execute a = .fail cause m') :
    (∃ c : Check, c.fault = cause) ∨ ∃ failure, cause = .channel failure := by
  have hcause : (m.execute a).cause? = some cause := by rw [h]; rfl
  rcases follows_execute m a with hfollows | ⟨_, failure, hchannel⟩
  · exact Or.inl (exists_check_of_firstFault? (hfollows.symm.trans hcause))
  · exact Or.inr ⟨failure, Option.some.inj (hcause.symm.trans hchannel)⟩

/-- Reliable channels do not fail. -/
private theorem step_ne_channel {p : Program} {m m' : Machine σ} {a : Action} {n : Nat} {cause : ChannelFault}
    (hi : p[m.pc]? = some a.instruction) (hreliable : m.Reliable) : m.step p ≠ .failed ⟨n, .channel cause⟩ m' := by
  intro hstep
  rcases cause?_of_step_eq_failed hi hstep with hcause | ⟨hflush, _⟩
  · rcases follows_execute_enter m a with hfollows | ⟨hunreliable, _⟩
    · obtain ⟨c, hc⟩ := exists_check_of_firstFault? (hfollows.symm.trans hcause)
      cases c <;> cases hc
    · exact hunreliable hreliable
  · rw [hreliable.flush] at hflush
    cases hflush

/-- An instruction that fits its signature, and at which no channel fails, succeeds if and only if all of its checks
pass. Otherwise it fails with the fault of the first one that does not, and with the exit code that this check is
reported by. Channels that grant whatever is asked of them do not fail. -/
theorem step_fails_by_first_check {p : Program} {m : Machine σ} {i : Instruction} (hi : p[m.pc]? = some i)
    (hsignature : i.checkSignature = .ok ()) :
    (m.Reliable → ∀ n cause m', m.step p ≠ .failed ⟨n, .channel cause⟩ m') ∧
    ((∀ n cause m', m.step p ≠ .failed ⟨n, .channel cause⟩ m') →
      ((∀ e m', m.step p ≠ .failed e m') ↔ ∀ c ∈ m.checks i, c.holds m = true) ∧
      ∀ c, (m.checks i).find? (fun c => !c.holds m) = some c →
        ∃ e m', m.step p = .failed e m' ∧ e = ⟨m.pc, c.fault⟩ ∧ e.exitCode = c.code) := by
  obtain ⟨a, ha⟩ := Instruction.exists_action_iff.2 hsignature
  have hchecks : m.checks i = m.actionChecks a := by rw [checks, ha]
  obtain rfl := Instruction.action_eq_ok_iff.1 ha
  rw [hchecks]
  refine ⟨fun hreliable n cause m' => step_ne_channel hi hreliable, fun hchannels => ?_⟩
  have hcause : (m.enter.execute a).cause? = m.firstFault? (m.actionChecks a) := by
    rcases follows_execute_enter m a with hcause | ⟨_, cause, hcause⟩
    · exact hcause
    · obtain ⟨m', hstep⟩ := step_eq_failed_of_cause? hi hcause
      exact absurd hstep (hchannels m.pc cause m')
  refine ⟨⟨?_, ?_⟩, ?_⟩
  · intro hsucceeds
    rw [← firstFault?_eq_none_iff, ← hcause]
    cases hfault : (m.enter.execute a).cause? with
    | none => rfl
    | some cause =>
      obtain ⟨m', hstep⟩ := step_eq_failed_of_cause? hi hfault
      exact absurd hstep (hsucceeds _ m')
  · intro hpass e m' hstep
    rw [← firstFault?_eq_none_iff, ← hcause] at hpass
    rcases cause?_of_step_eq_failed hi hstep with hfault | ⟨_, rfl⟩
    · exact absurd (hpass.symm.trans hfault) (by simp)
    · exact hchannels m.pc _ m' hstep
  · intro c hc
    rw [firstFault?, hc] at hcause
    obtain ⟨m', hstep⟩ := step_eq_failed_of_cause? hi hcause
    exact ⟨_, m', hstep, rfl, c.exitCode_fault⟩

/-- A division by a variable that is zero, with a destination whose frame is missing too. -/
theorem step_fails_by_first_check_idiv :
    let i : Instruction := ⟨.binary .idiv, [.var ⟨.temporary, "q"⟩, .const (.int 1), .var ⟨.global, "n"⟩]⟩
    let m (n : Int64) (temporary : Option Frame) : Machine Source :=
      { fresh (Source.lines []) {} {} with
        memory := ⟨⟨[("n", some (.int n))], List.pairwise_singleton _ _⟩, [], temporary⟩ }
    (∃ e m', (m 0 none).step #[i] = .failed e m' ∧ e = ⟨0, .divisionByZero⟩ ∧ e.exitCode = 57) ∧
      (∃ e m', (m 2 none).step #[i] = .failed e m' ∧ e = ⟨0, .missingFrame .temporary⟩ ∧ e.exitCode = 55) ∧
      ∀ e m', (m 2 (some ⟨[("q", none)], List.pairwise_singleton _ _⟩)).step #[i] ≠ .failed e m' := by
  intro i m
  have hreliable : ∀ n temporary, (m n temporary).Reliable := by
    intro n temporary
    exact ⟨⟨none, rfl⟩, fun _ => rfl, rfl, fun _ => rfl⟩
  have hfirst := fun n temporary => step_fails_by_first_check (p := #[i]) (m := m n temporary) rfl rfl
  have hchecked := fun n temporary => (hfirst n temporary).2 ((hfirst n temporary).1 (hreliable n temporary))
  refine ⟨?_, ?_, ?_⟩
  · exact (hchecked 0 none).2 (.divisor 0) rfl
  · exact (hchecked 2 none).2 (.frame .temporary) rfl
  · exact (hchecked 2 _).1.2 (by decide)

end Machine

end IPPcode23
