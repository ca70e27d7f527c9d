import IPPcode23.Proofs.Literal.Integer
import IPPcode23.Proofs.Machine.Reads
import IPPcode23.Proofs.Text.Blank

/-!
# Reading back what was written

The text of a value is one line if the value is an integer, a truth value, or a string without a line feed and without a
carriage return at its end. Asked for by the type of the value, that line is read as the value (`FitsLine.readsAs`). So
values written one to a line are what `READ`s of their types store, one after another.
-/

namespace IPPcode23

variable {σ : Type} [Input σ]

namespace Value

/-- The values whose text is one line, with a line feed after it. -/
def FitsLine : Value → Prop
  | int _ => True
  | bool _ => True
  | string s => '\n' ∉ s.toList ∧ s.toList.getLast? ≠ some '\r'
  | nil => False

/-- The texts of values, each followed by a line feed. -/
def linesOf (xs : List Value) : String :=
  String.join (xs.map fun x => x.text ++ "\n")

private theorem isPrintable_repr (n : Int) : n.repr.toList.all Text.isPrintable = true := by
  refine List.all_eq_true.2 fun c hc => ?_
  rcases Literal.isDigit_of_mem_repr hc with hdigit | rfl
  · exact Text.isPrintable_of_isAlphanum (by simp [Char.isAlphanum, hdigit])
  · decide

namespace FitsLine

variable {x : Value}

private theorem text_eq_line (h : x.FitsLine) : '\n' ∉ x.text.toList ∧ x.text.toList.getLast? ≠ some '\r' := by
  cases x with
  | int n =>
    have hprintable := List.all_eq_true.1 (isPrintable_repr n.toInt)
    constructor
    · intro hc
      exact absurd (hprintable _ hc) (by decide)
    · intro hlast
      exact absurd (hprintable _ (List.mem_of_getLast? hlast)) (by decide)
  | bool b => cases b <;> decide
  | string s => exact h
  | nil => exact h.elim

/-- Asked for by the type of a value, the text of the value is read as the value. -/
theorem readsAs (h : x.FitsLine) {t : TypeName} (ht : t.word = x.typeName) : ReadsAs t (some x.text) x := by
  cases x with
  | int n =>
    cases t with
    | int =>
      refine .int ?_
      rw [Value.text, Text.trim_of_printable (isPrintable_repr n.toInt)]
      exact Literal.parseInt?_repr n
    | string | bool => exact absurd ht (by simp [TypeName.word, typeName])
  | bool b =>
    cases t with
    | bool => exact .bool (by cases b <;> decide)
    | string | int => exact absurd ht (by simp [TypeName.word, typeName])
  | string s =>
    cases t with
    | string => exact .string
    | int | bool => exact absurd ht (by simp [TypeName.word, typeName])
  | nil => exact h.elim

end FitsLine

private theorem lines_linesOf {xs : List Value} (h : ∀ x ∈ xs, x.FitsLine) : Text.lines (linesOf xs) = xs.map text := by
  have hlist : (linesOf xs).toList = (xs.map (·.text.toList)).flatMap fun line => line ++ ['\n'] := by
    simp [linesOf, List.flatMap_map]
  unfold Text.lines
  rw [hlist, Text.splitLines_flatMap]
  · simp [Function.comp_def]
  · intro line hline
    obtain ⟨x, hx, rfl⟩ := List.mem_map.1 hline
    exact (h x hx).text_eq_line.1
  · intro line hline
    obtain ⟨x, hx, rfl⟩ := List.mem_map.1 hline
    exact (h x hx).text_eq_line.2

/-- Each value is read from its line by the `READ` of its type, and `nil` from the end of the lines by the last one. -/
private theorem exists_readsAs {xs : List Value} {reads : List (Variable × TypeName)} (last : Variable × TypeName)
    (hxs : ∀ x ∈ xs, x.FitsLine) (htypes : reads.map (·.2.word) = xs.map typeName) {k : Nat} {x : Value}
    (hx : (xs ++ [nil])[k]? = some x) :
    ∃ r, (reads ++ [last])[k]? = some r ∧ ReadsAs r.2 (xs.map text)[k]? x := by
  have hlength : reads.length = xs.length := by
    have h := congrArg List.length htypes
    rwa [List.length_map, List.length_map] at h
  rcases Nat.lt_or_ge k xs.length with hlt | hge
  · rw [List.getElem?_append_left hlt] at hx
    have hword := congrArg (·[k]?) htypes
    simp only [List.getElem?_map, hx, Option.map_some] at hword
    obtain ⟨r, hr, hword⟩ := Option.map_eq_some_iff.1 hword
    refine ⟨r, ?_, ?_⟩
    · rw [List.getElem?_append_left (by omega)]
      exact hr
    · rw [List.getElem?_map, hx]
      exact (hxs x (List.mem_of_getElem? hx)).readsAs hword
  · have hk : k = xs.length := by
      have h := (List.getElem?_eq_some_iff.1 hx).1
      simp only [List.length_append, List.length_singleton] at h
      omega
    subst hk
    have hnil : nil = x := by simpa using hx
    refine ⟨last, ?_, ?_⟩
    · rw [← hlength, List.getElem?_concat_length]
    · rw [List.getElem?_eq_none (by simp), ← hnil]
      exact .atEnd

end Value

namespace Source

/-- The texts in which values are given to be read, as lines or as bytes. -/
private theorem supplies_linesOf {xs : List Value} (h : ∀ x ∈ xs, x.FitsLine) {source : Source}
    (hsource : source = .ofText (Value.linesOf xs) ∨ source = .bytes (Value.linesOf xs).toUTF8.toList) :
    Input.Supplies source (xs.map Value.text) := by
  rw [← Value.lines_linesOf h]
  rcases hsource with rfl | rfl
  · exact supplies_ofText _
  · exact supplies_bytes_toUTF8 _

end Source

namespace Machine

/-- The `READ`s that ask for types, each with the variable to store to. -/
def readAll (reads : List (Variable × TypeName)) : List Instruction :=
  reads.map fun r => (Action.read r.1 r.2).instruction

/-- `READ`s of declared variables that follow one another store what the lines are read as, one line each. -/
private theorem run_readAll {p : Program} {m : Machine σ} {reads : List (Variable × TypeName)} {lines : List String}
    (hlines : Input.Supplies m.input lines) (hp : readAll reads <+: p.toList.drop m.pc)
    (hv : ∀ r ∈ reads, m.memory.HasVariable r.1) {k : Nat} {r : Variable × TypeName} (hr : reads[k]? = some r) :
    ∃ m' x, m.run p (k + 1) = .running m' ∧ ReadsAs r.2 lines[k]? x ∧ m'.memory.read r.1 = .ok x := by
  induction reads generalizing m k lines with
  | nil => cases hr
  | cons first rest ih =>
    obtain ⟨is, his, hrest⟩ := List.cons_prefix_iff.1 hp
    have hi : p[m.pc]? = some (Action.read first.1 first.2).instruction := by
      rw [← Array.getElem?_toList, ← List.head?_drop, his]
      rfl
    have htail : readAll rest <+: p.toList.drop (m.pc + 1) := by
      rw [← List.tail_drop, his]
      exact hrest
    obtain ⟨memory, x, hx, hmemory, hstep⟩ := step_read hi hlines (hv first List.mem_cons_self)
    have hupdates := Memory.assign_eq_ok_iff.1 hmemory
    cases k with
    | zero =>
      cases hr
      refine ⟨_, x, run_succ_of_running hstep 0, ?_, ?_⟩
      · rw [← List.head?_eq_getElem?]
        exact hx
      · exact Memory.read_of_assign hmemory
    | succ k =>
      -- the machine after the first `READ` has all variables still, and all lines but the first
      let m₁ : Machine σ := { m.enter with memory, input := Input.advance m.input }
      have hv₁ : ∀ r ∈ rest, m₁.memory.HasVariable r.1 := by
        intro r hr
        exact (hupdates.hasVariable_iff r.1).2 (Or.inl (hv r (List.mem_cons_of_mem first hr)))
      obtain ⟨m', y, hrun, hy, hread⟩ := ih (m := m₁) hlines.advance htail hv₁ hr
      refine ⟨m', y, ?_, ?_, hread⟩
      · rw [run_succ_of_running hstep]
        exact hrun
      · rw [List.getElem?_tail] at hy
        exact hy

/-- Values are written one to a line, and the text is given as an input, by its lines or by its bytes. Then `READ`s that
ask for the types of the values store these values in declared variables, one after another, and one more `READ` of
whatever type stores `nil`. -/
theorem written_values_read_back (p : Program) (m : Machine Source) (xs : List Value) (reads : List (Variable × TypeName))
    (last : Variable × TypeName) (hxs : ∀ x ∈ xs, x.FitsLine)
    (htypes : reads.map (·.2.word) = xs.map Value.typeName)
    (hinput : m.input = .ofText (Value.linesOf xs) ∨ m.input = .bytes (Value.linesOf xs).toUTF8.toList)
    (hp : readAll (reads ++ [last]) <+: p.toList.drop m.pc) (hv : ∀ r ∈ reads ++ [last], m.memory.HasVariable r.1) :
    ∀ k x, (xs ++ [.nil])[k]? = some x →
      ∃ r m', (reads ++ [last])[k]? = some r ∧ m.run p (k + 1) = .running m' ∧ m'.memory.read r.1 = .ok x := by
  intro k x hx
  obtain ⟨r, hr, hreads⟩ := Value.exists_readsAs last hxs htypes hx
  obtain ⟨m', y, hrun, hy, hread⟩ := run_readAll (Source.supplies_linesOf hxs hinput) hp hv hr
  rw [hy.unique hreads] at hread
  exact ⟨r, m', hr, hrun, hread⟩

/-- A string of white space with a carriage return inside, the empty string and the least integer, given as bytes. -/
theorem written_values_read_back_by_bytes :
    let x : Variable := ⟨.global, "x"⟩
    let xs : List Value := [.string " \r\t", .int Int64.minValue, .string "", .bool false]
    let p : Program := #[⟨.defVar, [.var x]⟩] ++
      (readAll [(x, .string), (x, .int), (x, .string), (x, .bool), (x, .string)]).toArray
    let m := ((fresh (Source.bytes (Value.linesOf xs).toUTF8.toList) {} {}).executeFor p 1).machine
    (∃ m', m.run p 1 = .running m' ∧ m'.memory.read x = .ok (.string " \r\t")) ∧
      (∃ m', m.run p 2 = .running m' ∧ m'.memory.read x = .ok (.int Int64.minValue)) ∧
      ∃ m', m.run p 5 = .running m' ∧ m'.memory.read x = .ok .nil := by
  intro x xs p m
  have hx : m.memory.HasVariable x := ⟨_, rfl, by decide⟩
  have hall := written_values_read_back p m xs [(x, .string), (x, .int), (x, .string), (x, .bool)] (x, .string)
    (by simp [xs, Value.FitsLine]) rfl (Or.inr rfl) ⟨[], rfl⟩ (by simp [hx])
  refine ⟨?_, ?_, ?_⟩
  · obtain ⟨r, m', hr, hrun, hread⟩ := hall 0 _ rfl
    cases hr
    exact ⟨m', hrun, hread⟩
  · obtain ⟨r, m', hr, hrun, hread⟩ := hall 1 _ rfl
    cases hr
    exact ⟨m', hrun, hread⟩
  · obtain ⟨r, m', hr, hrun, hread⟩ := hall 4 _ rfl
    cases hr
    exact ⟨m', hrun, hread⟩

end Machine

end IPPcode23
