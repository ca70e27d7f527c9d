import IPPcode23.Machine.Basic

/-!
# Label tables

The table that is built before a program runs maps a label to an index exactly if the instruction there declares it
(`ofProgram_resolves`). The scan goes through the program from left to right, so all facts about it are about a table
for the instructions passed so far and the next one of them.
-/

namespace IPPcode23

/-- The instruction at an index declares a label. -/
def Declares (is : List Instruction) (n : Nat) (label : String) : Prop :=
  ∃ i, is[n]? = some i ∧ i.declaredLabel? = some label

private theorem declares_concat {is : List Instruction} {i : Instruction} {n : Nat} {label : String} :
    Declares (is ++ [i]) n label ↔ Declares is n label ∨ n = is.length ∧ i.declaredLabel? = some label := by
  unfold Declares
  rcases Nat.lt_trichotomy n is.length with hn | rfl | hn
  · have hne : n ≠ is.length := by omega
    rw [List.getElem?_append_left hn]
    simp [hne]
  · simp
  · have hne : n ≠ is.length := by omega
    have hlength : (is ++ [i]).length ≤ n := by simp; omega
    rw [List.getElem?_eq_none hlength, List.getElem?_eq_none (Nat.le_of_lt hn)]
    simp [hne]

namespace LabelTable

/-- A table of exactly the labels that instructions declare. -/
def Resolves (table : LabelTable) (is : List Instruction) : Prop :=
  ∀ label n, table.lookup label = some n ↔ Declares is n label

theorem resolves_nil : Resolves [] [] := by
  intro label n
  simp [Declares]

theorem Resolves.concat_of_none {table : LabelTable} {is : List Instruction} {i : Instruction} (h : table.Resolves is)
    (hi : i.declaredLabel? = none) : table.Resolves (is ++ [i]) := by
  intro label n
  rw [h, declares_concat, hi]
  simp

theorem Resolves.concat_of_some {table : LabelTable} {is : List Instruction} {i : Instruction} {label : String}
    (h : table.Resolves is) (hi : i.declaredLabel? = some label) (hnew : table.lookup label = none) :
    Resolves ((label, is.length) :: table) (is ++ [i]) := by
  intro other n
  rw [declares_concat, hi, ← h]
  by_cases heq : other = label
  · subst heq
    rw [List.lookup_cons_self, hnew]
    simp [eq_comm]
  · rw [List.lookup_cons, beq_eq_false_iff_ne.2 heq]
    simp [Ne.symm heq]

/-- The scan of further instructions adds their labels to a table. -/
private theorem scan_resolves {table table' : LabelTable} {is rest : List Instruction} (h : table.Resolves is)
    (hscan : scan table is.length rest = .ok table') : table'.Resolves (is ++ rest) := by
  induction rest generalizing is table with
  | nil =>
    cases hscan
    rwa [List.append_nil]
  | cons i rest ih =>
    -- the instruction just passed moves to the end of `is`, and the table is one for that
    have happend : is ++ i :: rest = (is ++ [i]) ++ rest := by simp
    have hlength : is.length + 1 = (is ++ [i]).length := by simp
    rw [happend]
    rw [scan, hlength] at hscan
    split at hscan
    case h_1 hi => exact ih (h.concat_of_none hi) hscan
    case h_2 label hi =>
      split at hscan
      case isTrue => cases hscan
      case isFalse hnew => exact ih (h.concat_of_some hi (Option.not_isSome_iff_eq_none.1 hnew)) hscan

/-- The table of a program has exactly the labels that the program declares. -/
theorem ofProgram_resolves {p : Program} {table : LabelTable} (h : ofProgram p = .ok table) :
    table.Resolves p.toList :=
  scan_resolves resolves_nil h

/-- A label with a table is declared once only. -/
theorem Resolves.index_unique {table : LabelTable} {is : List Instruction} (h : table.Resolves is) (label : String)
    (j k : Nat) (hj : Declares is j label) (hk : Declares is k label) : j = k := by
  have hj := (h label j).2 hj
  rw [(h label k).2 hk] at hj
  exact (Option.some.inj hj).symm

/-- Labels that are each declared once only can be scanned. -/
private theorem exists_scan {table : LabelTable} {is rest : List Instruction} (h : table.Resolves is)
    (honce : ∀ label j k, Declares (is ++ rest) j label → Declares (is ++ rest) k label → j = k) :
    ∃ table', scan table is.length rest = .ok table' := by
  induction rest generalizing is table with
  | nil => exact ⟨table, rfl⟩
  | cons i rest ih =>
    have happend : is ++ i :: rest = (is ++ [i]) ++ rest := by simp
    have hlength : is.length + 1 = (is ++ [i]).length := by simp
    have hat : (is ++ i :: rest)[is.length]? = some i := by simp
    rw [scan, hlength]
    cases hi : i.declaredLabel? with
    | none => exact ih (h.concat_of_none hi) (by rwa [happend] at honce)
    | some label =>
      have hnew : table.lookup label = none := by
        cases hlookup : table.lookup label with
        | none => rfl
        | some j =>
          obtain ⟨i', hi', hlabel⟩ := (h label j).1 hlookup
          have hj := (List.getElem?_eq_some_iff.1 hi').1
          have hearlier : (is ++ i :: rest)[j]? = some i' := by rw [List.getElem?_append_left hj, hi']
          have := honce label j is.length ⟨i', hearlier, hlabel⟩ ⟨i, hat, hi⟩
          omega
      simp only [hnew, Option.isSome_none, Bool.false_eq_true, if_false]
      exact ih (h.concat_of_some hi hnew) (by rwa [happend] at honce)

theorem exists_ofProgram {p : Program}
    (honce : ∀ label j k, Declares p.toList j label → Declares p.toList k label → j = k) :
    ∃ table, ofProgram p = .ok table :=
  exists_scan resolves_nil honce

theorem scan_eq_error {table : LabelTable} {n : Nat} {is : List Instruction} {e : RunError}
    (h : scan table n is = .error e) : ∃ label, e.fault = .duplicateLabel label := by
  induction is generalizing table n with
  | nil => cases h
  | cons i rest ih =>
    rw [scan] at h
    split at h
    case h_1 => exact ih h
    case h_2 label _ =>
      split at h
      case isTrue => cases h; exact ⟨label, rfl⟩
      case isFalse => exact ih h

end LabelTable

end IPPcode23
