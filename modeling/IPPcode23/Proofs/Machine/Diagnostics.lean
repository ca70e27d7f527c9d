import IPPcode23.Proofs.Channel
import IPPcode23.Proofs.Machine.History

/-!
# Diagnostics

The diagnostics hold what `DPRINT` and `BREAK` write, and nothing else: without a limit, an execution adds to them the
texts of its notes in the order of the steps that write them (`written_executeFor`).
-/

namespace IPPcode23

variable {σ : Type}

/-- Something written to the diagnostics: the value of a `DPRINT` with a line feed, or the dump of a `BREAK`. -/
inductive Note where
  | dprint (text : String)
  | dump (text : String)
  deriving DecidableEq, Repr

namespace Note

def text : Note → String
  | dprint text => text
  | dump text => text

/-- The text of a note that is not a dump. -/
def dprint? : Note → Option String
  | dprint text => some text
  | dump _ => none

/-- The bytes of notes one after another. -/
def bytes (notes : List Note) : ByteArray :=
  (String.join (notes.map text)).toUTF8

private theorem bytes_append (ns ms : List Note) : bytes (ns ++ ms) = bytes ns ++ bytes ms := by
  unfold bytes
  rw [List.map_append, String.join_append]
  exact String.toByteArray_append

end Note

namespace Machine

/-- What the next step writes to the diagnostics if they take it. -/
def note? (p : Program) (m : Machine σ) : Option Note :=
  match p[m.pc]?.map Instruction.action with
  | some (.ok (.dprint source)) => (m.memory.value source).toOption.map fun x => .dprint (x.text ++ "\n")
  | some (.ok .dump) => some (.dump m.enter.dump)
  | _ => none

/-- What steps write to the diagnostics. -/
def notes (p : Program) (steps : List (Machine σ)) : List Note :=
  steps.filterMap (note? p)

theorem notes_cons (p : Program) (m : Machine σ) (steps : List (Machine σ)) :
    notes p (m :: steps) = (m.note? p).toList ++ notes p steps := by
  unfold notes
  cases hnote : m.note? p <;> simp [hnote]

/-- The texts of `DPRINT`s. -/
def dprints (p : Program) (steps : List (Machine σ)) : List String :=
  (notes p steps).filterMap Note.dprint?

theorem dprints_append (p : Program) (steps steps' : List (Machine σ)) :
    dprints p (steps ++ steps') = dprints p steps ++ dprints p steps' := by
  simp [dprints, notes, List.filterMap_append]

theorem dprints_cons (p : Program) (m : Machine σ) (steps : List (Machine σ)) :
    dprints p (m :: steps) = ((m.note? p).map Note.dprint?).join.toList ++ dprints p steps := by
  rw [dprints, notes_cons, List.filterMap_append]
  cases m.note? p with
  | none => rfl
  | some note => cases note <;> rfl

theorem note?_of_action {p : Program} {m : Machine σ} {a : Action} (hi : p[m.pc]? = some a.instruction)
    (hdprint : ∀ source, a ≠ .dprint source) (hdump : a ≠ .dump) : m.note? p = none := by
  have ha : a.instruction.action = .ok a := Instruction.action_eq_ok_iff.2 rfl
  simp only [note?, hi, Option.map_some, ha]
  cases a with
  | dprint source => exact absurd rfl (hdprint source)
  | dump => exact absurd rfl hdump
  | _ => rfl

theorem note?_of_dprint {p : Program} {m : Machine σ} {source : Symb}
    (hi : p[m.pc]? = some (Action.dprint source).instruction) :
    m.note? p = (m.memory.value source).toOption.map fun x => .dprint (x.text ++ "\n") := by
  have ha : (Action.dprint source).instruction.action = .ok (.dprint source) := Instruction.action_eq_ok_iff.2 rfl
  simp only [note?, hi, Option.map_some, ha]

theorem note?_of_dump {p : Program} {m : Machine σ} (hi : p[m.pc]? = some ⟨.dump, []⟩) :
    m.note? p = some (.dump m.enter.dump) := by
  rw [note?, hi]
  rfl

/-- The diagnostics after a note. -/
def noted (m : Machine σ) : Option Note → Sink
  | some note => m.diagnostics.put note.text
  | none => m.diagnostics

variable [Input σ]

private theorem diagnostics_of_executes {p : Program} {m m' : Machine σ} {a : Action}
    (hi : p[m.pc]? = some a.instruction) (h : Executes m.enter a m') : m'.diagnostics = m.noted (m.note? p) := by
  cases h with
  | @dprint source x hx =>
    have hx : m.memory.value source = .ok x := hx
    rw [note?_of_dprint hi, hx]
    rfl
  | dump =>
    rw [note?_of_dump hi]
    rfl
  | jumpIf =>
    rw [note?_of_action hi (by simp) (by simp)]
    split <;> rfl
  | _ =>
    rw [note?_of_action hi (by simp) (by simp)]
    rfl

private theorem diagnostics_of_fail {p : Program} {m m' : Machine σ} {a : Action} {cause : Fault}
    (hi : p[m.pc]? = some a.instruction) (hlimit : m.diagnostics.limit = none)
    (h : m.enter.execute a = .fail cause m') : m'.diagnostics = m.noted (m.note? p) := by
  have hfits : ∀ text, m.enter.diagnostics.fits text = true := Sink.fits_of_limit hlimit
  have hkept : m'.diagnostics = m.diagnostics := by
    cases leaves_of_execute_eq_fail h with
    | diagnostics hfull =>
      rw [hfits] at hfull
      cases hfull
    | same | output | input => rfl
  have hnone : m.note? p = none := by
    cases a with
    | dprint source =>
      -- it fails as it looks its source up, and not as it writes
      rw [note?_of_dprint hi]
      cases hx : m.memory.value source with
      | error cause => rfl
      | ok x =>
        have hnext := execute_eq_next_iff.2 (Executes.dprint (m := m.enter) hx (hfits _))
        rw [h] at hnext
        cases hnext
    | dump =>
      have hnext := execute_eq_next_iff.2 (Executes.dump (m := m.enter) (hfits _))
      rw [h] at hnext
      cases hnext
    | _ => exact note?_of_action hi (by simp) (by simp)
  rw [hnone, hkept]
  rfl

/-- A step adds its note to the diagnostics. -/
theorem diagnostics_step {p : Program} {m : Machine σ} (hlimit : m.diagnostics.limit = none) :
    (m.step p).machine.diagnostics = m.noted (m.note? p) := by
  have h := steps_step p m
  generalize m.step p = progress at h
  cases h with
  | atEnd hi =>
    rw [machine_finish, note?, hi]
    rfl
  | malformed hi hcause =>
    rw [note?, hi, Option.map_some, Instruction.action_eq_error_iff.2 hcause]
    rfl
  | next hi h => exact diagnostics_of_executes hi h
  | exit hi =>
    rw [machine_finish, note?_of_action hi (by simp) (by simp)]
    rfl
  | fail hi h => exact diagnostics_of_fail hi hlimit h

private theorem limit_diagnostics_step {p : Program} {m : Machine σ} (hlimit : m.diagnostics.limit = none) :
    (m.step p).machine.diagnostics.limit = none := by
  rw [diagnostics_step hlimit]
  cases m.note? p <;> exact hlimit

/-- An execution adds its notes to diagnostics without a limit. -/
theorem written_executeFor {p : Program} {m : Machine σ} (hlimit : m.diagnostics.limit = none) (n : Nat) :
    (m.executeFor p n).machine.diagnostics.written =
      m.diagnostics.written ++ Note.bytes (notes p (m.executionSteps p n)) := by
  let P (steps : List (Machine σ)) (s : Machine σ) : Prop :=
    s.diagnostics.limit = none ∧ s.diagnostics.written = m.diagnostics.written ++ Note.bytes (notes p steps)
  have hstep : ∀ steps s, P steps s → P (steps ++ [s]) (s.step p).machine := by
    rintro steps s ⟨hlimit, hwritten⟩
    refine ⟨limit_diagnostics_step hlimit, ?_⟩
    rw [diagnostics_step hlimit, notes, List.filterMap_append, Note.bytes_append]
    cases hnote : s.note? p with
    | none =>
      have hnone : [s].filterMap (note? p) = [] := by simp [hnote]
      rw [hnone, noted, hwritten, notes]
      simp [Note.bytes]
    | some note =>
      have hsome : [s].filterMap (note? p) = [note] := by simp [hnote]
      rw [hsome, noted, Sink.put, hlimit]
      simp [hwritten, notes, Note.bytes, ByteArray.append_assoc]
  have hnothing : P [] m := ⟨hlimit, by simp [notes, Note.bytes]⟩
  unfold executionSteps
  rcases executeFor_cases p m n with ⟨e, htable, hfailed⟩ | ⟨m₁, hm₁, hrun⟩
  · rw [hfailed, start_of_error htable]
    exact hnothing.2
  · obtain ⟨labels, _, rfl⟩ := start_eq_running_iff.1 hm₁
    rw [hrun, hm₁]
    exact (runSteps_invariant (m := { m with labels, pc := 0 }) hstep hnothing n).2

end Machine

end IPPcode23
