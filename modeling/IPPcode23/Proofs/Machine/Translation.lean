import IPPcode23.Proofs.Machine.Correspondence
import IPPcode23.Proofs.Machine.Diagnostics

/-!
# Translated programs

A translation of a program renames its instructions and may leave out some of its `BREAK`s, so that an instruction at an
index is found at another one. The labels of both programs are declared at corresponding indices
(`Translates.ofProgram`), and a step of the program is one of the translation, or one of a `BREAK` that is left out
(`Translates.step`).
-/

namespace IPPcode23

variable {σ : Type}

/-- The program `p'` is `p` with other names and maybe without some `BREAK`s, and an instruction of `p` stands in `p'` at
the image of its index. -/
structure Translates (r : Renaming) (index : Nat → Nat) (p p' : Program) : Prop where
  start : index 0 = 0
  instruction : ∀ {n i}, p[n]? = some i →
    (p'[index n]? = some (i.rename r) ∧ index (n + 1) = index n + 1) ∨ (i = ⟨.dump, []⟩ ∧ index (n + 1) = index n)
  atEnd : ∀ {n}, p[n]? = none → p'[index n]? = none

theorem Progress.Agrees.answer? {r : Renaming} {index : Nat → Nat} {p : Program} {x y : Progress σ}
    (h : Agrees r index p x y) : y.answer? = x.answer?.map (Except.mapError (RunError.translate r index)) := by
  cases h <;> rfl

/-! ### Labels -/

namespace LabelTable

/-- The table of a translation. -/
def translate (r : Renaming) (index : Nat → Nat) (table : LabelTable) : LabelTable :=
  table.map fun (label, n) => (r.label label, index n)

private theorem lookup_translate (r : Renaming) (index : Nat → Nat) (table : LabelTable) (label : String) :
    (table.translate r index).lookup (r.label label) = (table.lookup label).map index := by
  induction table with
  | nil => rfl
  | cons entry table ih =>
    obtain ⟨other, n⟩ := entry
    simp only [translate, List.map_cons, List.lookup_cons]
    by_cases heq : label = other
    · subst heq
      simp
    · have hne : r.label label ≠ r.label other := fun h => heq (r.label.injective h)
      rw [beq_eq_false_iff_ne.2 heq, beq_eq_false_iff_ne.2 hne]
      exact ih

end LabelTable

namespace Translates

variable {r : Renaming} {index : Nat → Nat} {p p' : Program}

/-- The scan of a translation goes on as that of the program, from corresponding indices on. -/
private theorem scan (ht : Translates r index p p') (table : LabelTable) (n : Nat) :
    LabelTable.scan (table.translate r index) (index n) (p'.toList.drop (index n)) =
      ((LabelTable.scan table n (p.toList.drop n)).map (LabelTable.translate r index)).mapError
        (RunError.translate r index) := by
  generalize hrest : p.toList.drop n = rest
  induction rest generalizing table n with
  | nil =>
    have hn : p[n]? = none := by
      have hlength := List.drop_eq_nil_iff.1 hrest
      simpa using hlength
    have hrest' : p'.toList.drop (index n) = [] := by
      have hn' := ht.atEnd hn
      rw [List.drop_eq_nil_iff]
      simpa using hn'
    rw [hrest']
    rfl
  | cons i rest ih =>
    have hi : p[n]? = some i := by
      have hhead : (p.toList.drop n)[0]? = some i := by rw [hrest, List.getElem?_cons_zero]
      simpa using hhead
    have hnext : p.toList.drop (n + 1) = rest := by rw [← List.tail_drop, hrest, List.tail_cons]
    rcases ht.instruction hi with ⟨hi', hindex⟩ | ⟨rfl, hindex⟩
    · have hrest' : p'.toList.drop (index n) = i.rename r :: p'.toList.drop (index (n + 1)) := by
        rw [List.drop_eq_getElem?_toList_append, Array.getElem?_toList, hi', hindex]
        rfl
      rw [hrest', LabelTable.scan, LabelTable.scan, Instruction.declaredLabel?_rename, ← hindex]
      cases i.declaredLabel? with
      | none => exact ih table (n + 1) hnext
      | some label =>
        simp only [Option.map_some, LabelTable.lookup_translate, Option.isSome_map]
        split
        · rfl
        · exact ih ((label, n) :: table) (n + 1) hnext
    · rw [← hindex]
      exact ih table (n + 1) hnext

/-- The labels of a translation are those of the program, and it declares one twice if the program does. -/
theorem ofProgram (ht : Translates r index p p') :
    LabelTable.ofProgram p' =
      ((LabelTable.ofProgram p).map (LabelTable.translate r index)).mapError (RunError.translate r index) := by
  have hscan := ht.scan [] 0
  rw [ht.start] at hscan
  exact hscan

/-- The first machine of a program and that of its translation are aligned. -/
theorem start_fresh (ht : Translates r index p p') (input : σ) {output diagnostics : Sink}
    (hflush : output.refusesFlush = false) (hlimit : diagnostics.limit = none) :
    Progress.Agrees r index p ((Machine.fresh input output diagnostics).start p)
      ((Machine.fresh input output diagnostics).start p') := by
  have hmemory : Memory.init = Memory.init.rename r := (Memory.rename_init r).symm
  unfold Machine.start
  rw [ht.ofProgram]
  cases LabelTable.ofProgram p with
  | error e => exact .failed ⟨hmemory, rfl, rfl, ht.start.symm, rfl, rfl⟩
  | ok labels =>
    refine .running ⟨⟨hmemory, rfl, rfl, ht.start.symm, rfl, rfl⟩, ?_, hflush, hlimit, hlimit⟩
    intro i _ label _
    exact LabelTable.lookup_translate r index labels label

/-! ### Steps -/

private theorem note?_of_instruction {m m' : Machine σ} {i : Instruction} (h : Corresponds r index m m')
    (hi : p[m.pc]? = some i) (hi' : p'[m'.pc]? = some (i.rename r)) :
    (m'.note? p').map Note.dprint? = (m.note? p).map Note.dprint? := by
  cases ha : i.action with
  | error cause =>
    have ha' : (i.rename r).action = .error cause := by
      rw [Instruction.action_rename, ha]
      rfl
    simp only [Machine.note?, hi, hi', Option.map_some, ha, ha']
  | ok a =>
    obtain rfl := Instruction.action_eq_ok_iff.1 ha
    rw [← Instruction.instruction_rename] at hi'
    cases a with
    | dprint source =>
      rw [Machine.note?_of_dprint hi, Machine.note?_of_dprint hi']
      have hvalue := h.value source
      generalize m.memory.value source = x at hvalue ⊢
      generalize m'.memory.value (source.rename r) = x' at hvalue ⊢
      cases hvalue with
      | ok heq =>
        subst heq
        rfl
      | error => rfl
    | dump =>
      rw [Machine.note?_of_dump hi, Machine.note?_of_dump hi']
      rfl
    | _ =>
      have hnone' := Machine.note?_of_action hi' (by simp [Action.rename]) (by simp [Action.rename])
      rw [Machine.note?_of_action hi (by simp) (by simp), hnone']

variable [Input σ]

/-- A step of a program is one of its translation, or one of a `BREAK` that is left out. -/
theorem step {m m' : Machine σ} (ht : Translates r index p p') (h : Aligned r index p m m') :
    (Progress.Agrees r index p (m.step p) (m'.step p') ∧
        (m'.note? p').map Note.dprint? = (m.note? p).map Note.dprint?) ∨
      (index (m.pc + 1) = index m.pc ∧ m.pc < p.size ∧ (m.note? p).map Note.dprint? = some none ∧
        ∃ m₁, m.step p = .running m₁ ∧ m₁.pc = m.pc + 1 ∧ Aligned r index p m₁ m') := by
  cases hi : p[m.pc]? with
  | none =>
    have hi' : p'[m'.pc]? = none := by rw [h.pc, ht.atEnd hi]
    refine Or.inl ⟨h.step_atEnd hi hi', ?_⟩
    simp only [Machine.note?, hi, hi']
    rfl
  | some i =>
    rcases ht.instruction hi with ⟨hi', hindex⟩ | ⟨rfl, hindex⟩
    · rw [← h.pc] at hi'
      exact Or.inl ⟨h.step hi hi' hindex, note?_of_instruction h.toCorresponds hi hi'⟩
    · have hlt : m.pc < p.size := (Array.getElem?_eq_some_iff.1 hi).1
      have hexec : Machine.Executes m.enter .dump { m.enter with diagnostics := m.diagnostics.put m.enter.dump } :=
        .dump (Sink.fits_of_limit (s := m.diagnostics) h.limit _)
      have hnote : (m.note? p).map Note.dprint? = some none := by
        rw [Machine.note?_of_dump hi]
        rfl
      refine Or.inr ⟨hindex, hlt, hnote, _, Machine.step_eq_running_iff.2 ⟨.dump, hi, hexec⟩, rfl, ?_⟩
      have hpc : m'.pc = index (m.pc + 1) := by rw [hindex, h.pc]
      exact ⟨⟨h.memory, h.data, h.calls, hpc, h.input, h.output⟩, h.labels, h.flush, h.limit, h.limit'⟩

end Translates

end IPPcode23
