import IPPcode23.Proofs.Machine.Translation
import Mathlib.Logic.Equiv.Basic

/-!
# Renamed programs

Names matter only as far as they are equal or not: a renamed program runs in lock step with the program
(`rename_in_lock_step`).
-/

namespace IPPcode23

variable {σ : Type} [Input σ]

private theorem translates_rename (r : Renaming) (p : Program) : Translates r id p (p.rename r) := by
  refine ⟨rfl, ?_, ?_⟩
  · intro n i hi
    refine Or.inl ⟨?_, rfl⟩
    rw [id, Program.rename, Array.getElem?_map, hi]
    rfl
  · intro n hn
    rw [id, Program.rename, Array.getElem?_map, hn]
    rfl

namespace Machine

private theorem run_rename {r : Renaming} {p : Program} {m m' : Machine σ} (h : Aligned r id p m m') (n : Nat) :
    Progress.Agrees r id p (m.run p n) (m'.run (p.rename r) n) ∧
      (notes (p.rename r) (m'.runSteps (p.rename r) n)).map Note.dprint? =
        (notes p (m.runSteps p n)).map Note.dprint? := by
  induction n generalizing m m' with
  | zero => exact ⟨.running h, rfl⟩
  | succ n ih =>
    rcases (translates_rename r p).step h with ⟨hstep, hnote⟩ | ⟨hindex, _⟩
    · rw [run, run, runSteps, runSteps, notes_cons, notes_cons, List.map_append, List.map_append, ← Option.toList_map,
        ← Option.toList_map, hnote]
      generalize m.step p = x at hstep ⊢
      generalize m'.step (p.rename r) = y at hstep ⊢
      cases hstep with
      | running h₁ =>
        obtain ⟨hrun, hnotes⟩ := ih h₁
        exact ⟨hrun, by rw [hnotes]⟩
      | halted h₁ => exact ⟨.halted h₁, rfl⟩
      | failed h₁ => exact ⟨.failed h₁, rfl⟩
    · have hpc : m.pc + 1 = m.pc := hindex
      omega

private theorem executeFor_rename (r : Renaming) (p : Program) (input : σ) {output diagnostics : Sink}
    (hflush : output.refusesFlush = false) (hlimit : diagnostics.limit = none) (n : Nat) :
    Progress.Agrees r id p ((fresh input output diagnostics).executeFor p n)
        ((fresh input output diagnostics).executeFor (p.rename r) n) ∧
      (notes (p.rename r) ((fresh input output diagnostics).executionSteps (p.rename r) n)).map Note.dprint? =
        (notes p ((fresh input output diagnostics).executionSteps p n)).map Note.dprint? := by
  have hstart := (translates_rename r p).start_fresh input hflush hlimit
  unfold executeFor executionSteps
  generalize (fresh input output diagnostics).start p = x at hstart ⊢
  generalize (fresh input output diagnostics).start (p.rename r) = y at hstart ⊢
  cases hstart with
  | running h => exact run_rename h n
  | halted h => exact ⟨.halted h, rfl⟩
  | failed h => exact ⟨.failed h, rfl⟩

/-- After any number of steps, the renamed program has come to where the program has, with the same answer but for the
names in it, the same stacks, channels and `DPRINT`s, and the renamed frames. -/
theorem rename_in_lock_step (r : Renaming) (p : Program) (input : σ) (output diagnostics : Sink)
    (hflush : output.refusesFlush = false) (hlimit : diagnostics.limit = none) (n : Nat) :
    let start := fresh input output diagnostics
    let x := start.executeFor p n
    let y := start.executeFor (p.rename r) n
    y.answer? = x.answer?.map (Except.mapError fun e => ⟨e.position, e.fault.rename r⟩) ∧
      y.answer?.map (Except.mapError RunError.exitCode) = x.answer?.map (Except.mapError RunError.exitCode) ∧
      y.machine.pc = x.machine.pc ∧ y.machine.calls = x.machine.calls ∧ y.machine.data = x.machine.data ∧
      y.machine.memory = x.machine.memory.rename r ∧
      y.machine.input = x.machine.input ∧ y.machine.output = x.machine.output ∧
      x.machine.diagnostics.written = diagnostics.written ++ Note.bytes (notes p (start.executionSteps p n)) ∧
      y.machine.diagnostics.written =
        diagnostics.written ++ Note.bytes (notes (p.rename r) (start.executionSteps (p.rename r) n)) ∧
      (notes (p.rename r) (start.executionSteps (p.rename r) n)).map Note.dprint? =
        (notes p (start.executionSteps p n)).map Note.dprint? := by
  intro start x y
  obtain ⟨hagrees, hnotes⟩ := executeFor_rename r p input hflush hlimit n
  have hmachine : Corresponds r id x.machine y.machine := hagrees.machine
  have hcalls : y.machine.calls = x.machine.calls := by rw [hmachine.calls, List.map_id]
  refine ⟨hagrees.answer?, ?_, hmachine.pc, hcalls, hmachine.data, hmachine.memory, hmachine.input, hmachine.output,
    written_executeFor (m := start) hlimit n, written_executeFor (m := start) hlimit n, hnotes⟩
  have hanswer : y.answer? = x.answer?.map (Except.mapError (RunError.translate r id)) := hagrees.answer?
  rw [hanswer]
  cases x with
  | running m => rfl
  | halted how m => rfl
  | failed e m => exact congrArg (fun code => some (Except.error code)) (Fault.exitCode_rename r e.fault)

/-- Two variables and two labels that exchange their names, and with them their order in the frame. -/
theorem rename_in_lock_step_swap :
    let r : Renaming := ⟨(Equiv.swap "a" "b").toEmbedding, (Equiv.swap "start" "end").toEmbedding⟩
    let a : Variable := ⟨.temporary, "a"⟩
    let b : Variable := ⟨.temporary, "b"⟩
    let p : Program := #[⟨.createFrame, []⟩, ⟨.defVar, [.var a]⟩, ⟨.jump, [.label "end"]⟩, ⟨.label, [.label "start"]⟩,
      ⟨.dprint, [.var a]⟩, ⟨.dump, []⟩, ⟨.write, [.var b]⟩, ⟨.label, [.label "end"]⟩, ⟨.defVar, [.var b]⟩,
      ⟨.read, [.var a, .type .string]⟩, ⟨.jump, [.label "start"]⟩]
    let start := fresh (Source.lines ["x"]) {} {}
    let y := start.executeFor (p.rename r) 12
    y.answer? = some (.error ⟨6, .missingValue a⟩) ∧
      (notes (p.rename r) (start.executionSteps (p.rename r) 12)).map Note.dprint? = [some "x\n", none] := by
  intro r a b p start y
  obtain ⟨hanswer, _, _, _, _, _, _, _, _, _, hnotes⟩ := rename_in_lock_step r p (Source.lines ["x"]) {} {} rfl rfl 12
  have hx : (start.executeFor p 12).answer? = some (.error ⟨6, .missingValue b⟩) := by decide
  have hxnotes : (notes p (start.executionSteps p 12)).map Note.dprint? = [some "x\n", none] := by decide
  have ha : b.rename r = a := by simp [Variable.rename, r, a, b]
  constructor
  · exact hanswer.trans (by rw [hx, ← ha]; rfl)
  · exact hnotes.trans hxnotes

end Machine

end IPPcode23
