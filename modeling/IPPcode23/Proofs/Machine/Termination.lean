import IPPcode23.Proofs.Machine.Control
import Mathlib.Data.Fintype.Basic
import Mathlib.Tactic.Ring

/-!
# Programs that jump forward only

A program in which no call or jump goes back ends, whatever machine it is executed on (`forward_jumps_terminate`).
A `RETURN` does go back, so the program counter alone says nothing. But a call replaces the index that it is at by two
later ones, where it goes on and where it will return to, and a return drops an index. So the indices that are still to
be run from, the program counter and those on the call stack, weigh less after every step if an index weighs more than
any two later ones together (`stepsFrom_add_lt`).
-/

namespace IPPcode23

variable {σ : Type}

/-- The label that an instruction may go to. One that does not fit its signature goes nowhere. -/
def Instruction.destination? (i : Instruction) : Option String :=
  match i.action with
  | .ok a => a.destination?
  | .error _ => none

private theorem Action.destination?_instruction (a : Action) : a.instruction.destination? = a.destination? := by
  have ha : a.instruction.action = .ok a := Instruction.action_eq_ok_iff.2 rfl
  rw [Instruction.destination?, ha]

namespace Program

/-- A program in which every call and jump to a declared label stands before the declaration. -/
def JumpsForward (p : Program) : Prop :=
  ∀ n k : Fin p.size, ∀ label ∈ p[n].destination?, label ∈ p[k].declaredLabel? → n < k

instance (p : Program) : Decidable p.JumpsForward :=
  inferInstanceAs (Decidable (∀ n k : Fin p.size, ∀ label ∈ p[n].destination?, label ∈ p[k].declaredLabel? → n < k))

private theorem JumpsForward.lt {p : Program} (h : p.JumpsForward) {a : Action} {n k : Nat} {label : String}
    (hn : p[n]? = some a.instruction) (ha : a.destination? = some label) (hk : Declares p.toList k label) :
    n < k := by
  obtain ⟨i, hi, hlabel⟩ := hk
  rw [Array.getElem?_toList] at hi
  obtain ⟨hnlt, hn⟩ := Array.getElem?_eq_some_iff.1 hn
  obtain ⟨hklt, hk⟩ := Array.getElem?_eq_some_iff.1 hi
  refine h ⟨n, hnlt⟩ ⟨k, hklt⟩ label ?_ ?_
  · show p[n].destination? = some label
    rw [hn, Action.destination?_instruction, ha]
  · show p[k].declaredLabel? = some label
    rw [hk, hlabel]

/-! ### The weight of an index -/

/-- How many steps are taken at most from an index on until the run returns from there or ends, if it never goes back:
the nodes of a binary tree as high as the rest of the program is long. -/
def stepsFrom (p : Program) (n : Nat) : Nat :=
  2 ^ (p.size - n + 1) - 1

private theorem stepsFrom_pos (p : Program) (n : Nat) : 0 < p.stepsFrom n := by
  have hpow : 2 ^ (p.size - n + 1) = 2 * 2 ^ (p.size - n) := by ring
  have hpos : 0 < 2 ^ (p.size - n) := Nat.two_pow_pos _
  unfold stepsFrom
  omega

/-- An index weighs more than any two later ones together. -/
theorem stepsFrom_add_lt {p : Program} {n j k : Nat} (hn : n < p.size) (hj : n < j) (hk : n < k) :
    p.stepsFrom j + p.stepsFrom k < p.stepsFrom n := by
  have hpow : 2 ^ (p.size - n + 1) = 2 ^ (p.size - n) + 2 ^ (p.size - n) := by ring
  have hpos : 0 < 2 ^ (p.size - n) := Nat.two_pow_pos _
  have hle : ∀ i, n < i → 2 ^ (p.size - i + 1) ≤ 2 ^ (p.size - n) := by
    intro i hi
    exact Nat.pow_le_pow_right (by decide) (by omega)
  have hj := hle j hj
  have hk := hle k hk
  unfold stepsFrom
  omega

private theorem stepsFrom_lt {p : Program} {n k : Nat} (hn : n < p.size) (hk : n < k) :
    p.stepsFrom k < p.stepsFrom n := by
  have hlt := stepsFrom_add_lt hn hk hk
  omega

end Program

namespace Machine

/-- How many steps a machine takes at most in a program that never goes back. -/
def stepsLeft (p : Program) (m : Machine σ) : Nat :=
  p.stepsFrom m.pc + (m.calls.map p.stepsFrom).sum

private theorem stepsLeft_pos (p : Program) (m : Machine σ) : 0 < m.stepsLeft p :=
  Nat.add_pos_left (p.stepsFrom_pos m.pc) _

variable [Input σ]

/-- A step that goes on leaves fewer steps to be taken. -/
private theorem stepsLeft_lt_of_executes {p : Program} (hp : p.JumpsForward) {m m' : Machine σ} {a : Action}
    (hlabels : m.labels.Resolves p.toList) (hi : p[m.pc]? = some a.instruction) (hexec : Executes m.enter a m') :
    m'.stepsLeft p < m.stepsLeft p := by
  have hlt : m.pc < p.size := (Array.getElem?_eq_some_iff.1 hi).1
  have hforward : ∀ {label}, a.destination? = some label → m.labels.lookup label = some m'.pc → m.pc < m'.pc := by
    intro label ha hlookup
    exact hp.lt hi ha ((hlabels label m'.pc).1 hlookup)
  unfold stepsLeft
  cases hexec.transfers with
  | next hpc hcalls =>
    have hpc : m'.pc = m.pc + 1 := hpc
    have hcalls : m'.calls = m.calls := hcalls
    rw [hcalls]
    exact Nat.add_lt_add_right (Program.stepsFrom_lt hlt (by omega)) _
  | jump ha hpc hcalls =>
    have hcalls : m'.calls = m.calls := hcalls
    rw [hcalls]
    exact Nat.add_lt_add_right (Program.stepsFrom_lt hlt (hforward ha hpc)) _
  | call hpc hcalls =>
    have hcalls : m'.calls = (m.pc + 1) :: m.calls := hcalls
    have hsum := Program.stepsFrom_add_lt hlt (hforward rfl hpc) (by omega : m.pc < m.pc + 1)
    rw [hcalls, List.map_cons, List.sum_cons]
    omega
  | ret hcalls =>
    have hcalls : m.calls = m'.pc :: m'.calls := hcalls
    have hpos := p.stepsFrom_pos m.pc
    rw [hcalls, List.map_cons, List.sum_cons]
    omega

/-- A run in a program that never goes back is over after that many steps. -/
private theorem run_stepsLeft_ne_running {p : Program} (hp : p.JumpsForward) {m : Machine σ}
    (hlabels : m.labels.Resolves p.toList) {n : Nat} (hn : m.stepsLeft p ≤ n) (m' : Machine σ) :
    m.run p n ≠ .running m' := by
  induction n generalizing m with
  | zero =>
    have hpos := m.stepsLeft_pos p
    omega
  | succ n ih =>
    rcases step_running_or_kept p m with ⟨a, m₁, hi, hexec, hstep⟩ | ⟨hover, _⟩
    · have hlt := stepsLeft_lt_of_executes hp hlabels hi hexec
      have hlabels₁ : m₁.labels.Resolves p.toList := by
        rw [hexec.labels_eq]
        exact hlabels
      rw [run_succ_of_running hstep]
      exact ih hlabels₁ (by omega)
    · rw [run]
      cases hstep : m.step p with
      | running m₁ => exact absurd hstep (hover m₁)
      | halted | failed => simp

/-- A program in which every `CALL`, `JUMP`, `JUMPIFEQ` and `JUMPIFNEQ` to a declared label stands before the
declaration ends by itself or fails, on whatever machine it is executed, and within a number of steps that depends on
the length of the program and the call stack found only. -/
theorem forward_jumps_terminate {p : Program} (hp : p.JumpsForward) (m : Machine σ) :
    ∃ n ≤ p.stepsFrom 0 + (m.calls.map p.stepsFrom).sum,
      (∃ how m', m.executeFor p n = .halted how m') ∨ ∃ e m', m.executeFor p n = .failed e m' := by
  refine ⟨p.stepsFrom 0 + (m.calls.map p.stepsFrom).sum, Nat.le_refl _, ?_⟩
  rcases executeFor_cases p m (p.stepsFrom 0 + (m.calls.map p.stepsFrom).sum) with ⟨e, _, hfailed⟩ | ⟨m₁, hstart, hrun⟩
  · exact Or.inr ⟨e, _, hfailed⟩
  · obtain ⟨labels, htable, rfl⟩ := start_eq_running_iff.1 hstart
    have hover := run_stepsLeft_ne_running hp (m := { m with labels, pc := 0 })
      (LabelTable.ofProgram_resolves htable) (Nat.le_refl _)
    rw [hrun]
    cases hend : run p (p.stepsFrom 0 + (m.calls.map p.stepsFrom).sum) { m with labels, pc := 0 } with
    | running m' => exact absurd hend (hover m')
    | halted how m' => exact Or.inl ⟨how, m', rfl⟩
    | failed e m' => exact Or.inr ⟨e, m', rfl⟩

/-- A subroutine that is called from three places, on a machine that has two returns pending already. -/
theorem forward_jumps_terminate_pending :
    let p : Program := #[⟨.call, [.label "f"]⟩, ⟨.call, [.label "f"]⟩, ⟨.label, [.label "f"]⟩, ⟨.call, [.label "g"]⟩,
      ⟨.label, [.label "g"]⟩, ⟨.ret, []⟩]
    let m : Machine Source := { fresh (Source.lines []) {} {} with calls := [1, 9] }
    p.JumpsForward ∧ ∃ n ≤ 191, (∃ how m', m.executeFor p n = .halted how m') ∨
      ∃ e m', m.executeFor p n = .failed e m' := by
  intro p m
  have hp : p.JumpsForward := by decide
  exact ⟨hp, forward_jumps_terminate hp m⟩

end Machine

end IPPcode23
