import IPPcode23.Proofs.Machine.Faults

/-!
# Labels declared again

The scan for labels stops at the first instruction that declares a label of an earlier one, and nothing else makes it
stop (`ofProgram_eq_error_iff`). It comes before the first step, so such a program is refused whatever its instructions
would do, and of the machine only the label table has changed. Every other program runs with a table of its own labels,
whatever an earlier scan has left behind (`labels_resolved_before_execution`).
-/

namespace IPPcode23

variable {σ : Type} [Input σ]

/-- The instruction at an index declares a label that an earlier one has declared. -/
def Redeclares (is : List Instruction) (n : Nat) (label : String) : Prop :=
  Declares is n label ∧ ∃ k < n, Declares is k label

/-- The first instruction that declares a label again. -/
structure FirstRedeclares (is : List Instruction) (n : Nat) (label : String) : Prop where
  again : Redeclares is n label
  least : ∀ k other, Redeclares is k other → n ≤ k

private theorem Declares.label_unique {is : List Instruction} {n : Nat} {label other : String} (h : Declares is n label)
    (h' : Declares is n other) : label = other := by
  obtain ⟨i, hi, hlabel⟩ := h
  obtain ⟨i', hi', hother⟩ := h'
  obtain rfl : i = i' := Option.some.inj (hi.symm.trans hi')
  exact Option.some.inj (hlabel.symm.trans hother)

private theorem declares_append_of_lt {before after : List Instruction} {n : Nat} {label : String}
    (hn : n < before.length) : Declares (before ++ after) n label ↔ Declares before n label := by
  unfold Declares
  rw [List.getElem?_append_left hn]

private theorem Declares.lt_length {is : List Instruction} {n : Nat} {label : String} (h : Declares is n label) :
    n < is.length := by
  obtain ⟨i, hi, _⟩ := h
  exact (List.getElem?_eq_some_iff.1 hi).1

private theorem FirstRedeclares.unique {is : List Instruction} {n k : Nat} {label other : String}
    (h : FirstRedeclares is n label) (h' : FirstRedeclares is k other) : n = k ∧ label = other := by
  have hle := h.least k other h'.again
  have hge := h'.least n label h.again
  obtain rfl : n = k := by omega
  exact ⟨rfl, h.again.1.label_unique h'.again.1⟩

namespace LabelTable

/-- A scan that stops has a table for the instructions passed, and the next one declares a label of that table. -/
private theorem exists_of_scan_eq_error {table : LabelTable} {is rest : List Instruction} {e : RunError}
    (h : table.Resolves is) (hscan : scan table is.length rest = .error e) :
    ∃ before i after passed label, is ++ rest = before ++ i :: after ∧ Resolves passed before ∧
      i.declaredLabel? = some label ∧ (passed.lookup label).isSome ∧ e = ⟨before.length, .duplicateLabel label⟩ ∧
      scanned table is.length rest = (label, before.length) :: passed := by
  induction rest generalizing is table with
  | nil => cases hscan
  | cons i rest ih =>
    have happend : is ++ i :: rest = (is ++ [i]) ++ rest := by simp
    have hlength : is.length + 1 = (is ++ [i]).length := by simp
    rw [scan, hlength] at hscan
    rw [scanned, hlength]
    cases hi : i.declaredLabel? with
    | none =>
      simp only [hi] at hscan ⊢
      rw [happend]
      exact ih (h.concat_of_none hi) hscan
    | some label =>
      simp only [hi] at hscan ⊢
      by_cases hknown : (table.lookup label).isSome
      · rw [if_pos hknown] at hscan ⊢
        cases hscan
        exact ⟨is, i, rest, table, label, rfl, h, hi, hknown, rfl, rfl⟩
      · rw [if_neg hknown] at hscan ⊢
        rw [happend]
        exact ih (h.concat_of_some hi (Option.not_isSome_iff_eq_none.1 hknown)) hscan

/-- Behind instructions with a table of their own, a label of that table is the first one to be declared again. -/
private theorem Resolves.firstRedeclares {passed : LabelTable} {before after : List Instruction} {i : Instruction}
    {label : String} (h : passed.Resolves before) (hi : i.declaredLabel? = some label)
    (hknown : (passed.lookup label).isSome) : FirstRedeclares (before ++ i :: after) before.length label := by
  obtain ⟨k, hk⟩ := Option.isSome_iff_exists.1 hknown
  have hearlier := (h label k).1 hk
  have hhere : Declares (before ++ i :: after) before.length label := ⟨i, by simp, hi⟩
  refine ⟨⟨hhere, k, hearlier.lt_length, (declares_append_of_lt hearlier.lt_length).2 hearlier⟩, ?_⟩
  rintro n other ⟨hn, j, hj, hagain⟩
  by_contra hlt
  -- both declarations are among the instructions passed, where no label is declared twice
  have hn' := (declares_append_of_lt (by omega)).1 hn
  have hj' := (declares_append_of_lt (by omega)).1 hagain
  have := h.index_unique other n j hn' hj'
  omega

/-- What a scan that stops reports and leaves behind. -/
private theorem exists_of_ofProgram_eq_error {p : Program} {e : RunError} (h : ofProgram p = .error e) :
    ∃ n label, e = ⟨n, .duplicateLabel label⟩ ∧ FirstRedeclares p.toList n label ∧
      ∀ name k, (scanned [] 0 p.toList).lookup name = some k ↔
        if name = label then k = n else k < n ∧ Declares p.toList k name := by
  obtain ⟨before, i, after, passed, label, hsplit, hpassed, hi, hknown, rfl, hleft⟩ :=
    exists_of_scan_eq_error resolves_nil h
  rw [List.nil_append] at hsplit
  rw [List.length_nil] at hleft
  rw [hleft, hsplit]
  refine ⟨before.length, label, rfl, hpassed.firstRedeclares hi hknown, ?_⟩
  intro name k
  by_cases hname : name = label
  · rw [hname, List.lookup_cons_self, if_pos rfl]
    simp [eq_comm]
  · rw [List.lookup_cons, beq_eq_false_iff_ne.2 hname, if_neg hname]
    show passed.lookup name = some k ↔ _
    rw [hpassed name k]
    constructor
    · intro hk
      exact ⟨hk.lt_length, (declares_append_of_lt hk.lt_length).2 hk⟩
    · rintro ⟨hlt, hk⟩
      exact (declares_append_of_lt hlt).1 hk

theorem ofProgram_eq_error_iff {p : Program} {n : Nat} {label : String} :
    ofProgram p = .error ⟨n, .duplicateLabel label⟩ ↔ FirstRedeclares p.toList n label := by
  constructor
  · intro h
    obtain ⟨n', label', he, hfirst, _⟩ := exists_of_ofProgram_eq_error h
    cases he
    exact hfirst
  · intro hfirst
    cases h : ofProgram p with
    | ok table =>
      -- with a table for the program, the two declarations would be one
      obtain ⟨⟨hn, k, hk, hearlier⟩, _⟩ := hfirst
      have := (ofProgram_resolves h).index_unique label n k hn hearlier
      omega
    | error e =>
      obtain ⟨n', label', rfl, hfirst', _⟩ := exists_of_ofProgram_eq_error h
      obtain ⟨rfl, rfl⟩ := hfirst.unique hfirst'
      rfl

end LabelTable

namespace Machine

/-! ### Failing at a label -/

/-- No check is one for labels declared again. -/
private theorem step_ne_duplicateLabel {p : Program} {m m' : Machine σ} {n : Nat} {label : String} :
    m.step p ≠ .failed ⟨n, .duplicateLabel label⟩ m' := by
  intro hstep
  have h := steps_step p m
  generalize m.step p = r at h hstep
  cases h with
  | atEnd | exit => obtain ⟨_, he, _⟩ := finish_eq_failed_iff.1 hstep; cases he
  | next | malformed => cases hstep
  | fail hi h =>
    cases hstep
    rcases check_or_channel_of_execute h with ⟨c, hc⟩ | ⟨_, hchannel⟩
    · cases c <;> cases hc
    · cases hchannel

private theorem executeFor_eq_duplicateLabel_iff {p : Program} {m : Machine σ} {j n : Nat} {label : String} :
    (∃ m', m.executeFor p n = .failed ⟨j, .duplicateLabel label⟩ m') ↔ FirstRedeclares p.toList j label := by
  rw [← LabelTable.ofProgram_eq_error_iff]
  rcases executeFor_cases p m n with ⟨e, htable, hfailed⟩ | ⟨m₁, hstart, hrun⟩
  · rw [htable, hfailed]
    simp
  · obtain ⟨labels, htable, _⟩ := start_eq_running_iff.1 hstart
    rw [htable, hrun]
    constructor
    · rintro ⟨m', hfailed⟩
      obtain ⟨_, m₂, _, hstep⟩ := exists_step_of_run_eq hfailed (by simp)
      exact absurd hstep step_ne_duplicateLabel
    · intro h
      cases h

/-! ### Going to a label -/

/-- A machine goes to the label that an action names. A conditional jump does so if its sources compare as wanted. -/
def Branches (m : Machine σ) : Action → Prop
  | .call _ | .jump _ => True
  | .jumpIf wanted _ left right =>
    ∃ x y, m.memory.value left = .ok x ∧ m.memory.value right = .ok y ∧ x.same? y = some wanted
  | _ => False

private theorem labels_step (p : Program) (m : Machine σ) : (m.step p).machine.labels = m.labels := by
  rcases step_running_or_over p m with ⟨a, m', _, hexec, hstep⟩ | ⟨hlabels, _, _⟩
  · rw [hstep]
    exact hexec.labels_eq
  · exact hlabels

private theorem labels_run {p : Program} {m s : Machine σ} {n : Nat} (h : m.run p n = .running s) :
    s.labels = m.labels := by
  have hlabels : (m.run p n).machine.labels = m.labels :=
    run_invariant (P := fun s => s.labels = m.labels) (fun s hs => (labels_step p s).trans hs) rfl n
  rwa [h] at hlabels

private theorem step_of_branches {p : Program} {m : Machine σ} {a : Action} {label : String} {k : Nat}
    (hi : p[m.pc]? = some a.instruction) (ha : a.destination? = some label) (hlabel : m.labels.lookup label = some k)
    (hbranches : m.Branches a) : ∃ m', m.step p = .running m' ∧ m'.pc = k := by
  cases a with
  | call name =>
    cases ha
    exact ⟨_, step_eq_running_iff.2 ⟨_, hi, .call hlabel⟩, rfl⟩
  | jump name =>
    cases ha
    exact ⟨_, step_eq_running_iff.2 ⟨_, hi, .jump hlabel⟩, rfl⟩
  | jumpIf wanted name left right =>
    cases ha
    obtain ⟨x, y, hx, hy, hsame⟩ := hbranches
    exact ⟨_, step_eq_running_iff.2 ⟨_, hi, .jumpIf hlabel hx hy hsame⟩, by rw [if_pos rfl]⟩
  | _ => cases ha

private theorem pc_of_not_branches {p : Program} {m m' : Machine σ} {a : Action} {label : String}
    (hi : p[m.pc]? = some a.instruction) (ha : a.destination? = some label) (hbranches : ¬ m.Branches a)
    (hstep : m.step p = .running m') : m'.pc = m.pc + 1 := by
  rw [step_of_action hi] at hstep
  cases a with
  | call name | jump name => exact absurd trivial hbranches
  | jumpIf wanted name left right =>
    cases hexec : m.enter.execute (.jumpIf wanted name left right) with
    | exit code m₁ => rw [hexec] at hstep; exact absurd hstep finish_ne_running
    | fail cause m₁ => rw [hexec] at hstep; cases hstep
    | next m₁ =>
      rw [hexec] at hstep
      cases hstep
      cases execute_eq_next_iff.1 hexec with
      | @jumpIf _ result _ _ _ n x y _ hx hy hsame =>
        have hother : result ≠ wanted := by
          rintro rfl
          exact hbranches ⟨x, y, hx, hy, hsame⟩
        rw [if_neg hother]
        rfl
  | _ => cases ha

private theorem step_of_undefined {p : Program} {m : Machine σ} {a : Action} {label : String}
    (hi : p[m.pc]? = some a.instruction) (ha : a.destination? = some label) (hlabel : m.labels.lookup label = none) :
    m.step p = .failed ⟨m.pc, .undefinedLabel label⟩ m.enter := by
  have hlookup : m.enter.labels.lookup label = none := hlabel
  have htarget : m.enter.target label = .error (.undefinedLabel label) := by rw [target, hlookup]
  rw [step_of_action hi]
  cases a with
  | call name | jump name | jumpIf wanted name left right =>
    cases ha
    simp only [execute, callLabel, jumpIf, htarget]
    rfl
  | _ => cases ha

/-- With the labels of a program resolved, an action that names a label goes to the one index that declares it. -/
private theorem step_of_resolves {p : Program} {m : Machine σ} {a : Action} {label : String}
    (hlabels : m.labels.Resolves p.toList) (hi : p[m.pc]? = some a.instruction) (ha : a.destination? = some label) :
    (∀ k, Declares p.toList k label → (∀ k', Declares p.toList k' label → k' = k) ∧
      (m.Branches a → ∃ m', m.step p = .running m' ∧ m'.pc = k) ∧
      (¬ m.Branches a → ∀ m', m.step p = .running m' → m'.pc = m.pc + 1)) ∧
    ((∀ k, ¬ Declares p.toList k label) → m.step p = .failed ⟨m.pc, .undefinedLabel label⟩ m.enter) := by
  constructor
  · intro k hk
    refine ⟨fun k' hk' => hlabels.index_unique label k' k hk' hk, ?_, ?_⟩
    · exact step_of_branches hi ha ((hlabels label k).2 hk)
    · exact fun hbranches m' hstep => pc_of_not_branches hi ha hbranches hstep
  · intro hundeclared
    refine step_of_undefined hi ha (Option.eq_none_iff_forall_ne_some.2 fun k hk => ?_)
    exact hundeclared k ((hlabels label k).1 hk)

/-- An execution fails at a label declared twice if and only if some instruction declares a label again, and then at the
first one that does. It fails before its first step, so whatever the instructions would have done, the machine is as it
was but for the label table, which holds the labels passed, the one at fault at its second place. In every other case
the labels are resolved, whatever table was there before: each `CALL` and each jump that is taken goes to the one index
that declares its label, a conditional jump that is not taken goes on with the next instruction, and a label that is
declared nowhere is refused. -/
theorem labels_resolved_before_execution (p : Program) (m : Machine σ) :
    (∀ j label n, (∃ m', m.executeFor p n = .failed ⟨j, .duplicateLabel label⟩ m') ↔
      FirstRedeclares p.toList j label) ∧
    (∀ j label, FirstRedeclares p.toList j label → ∀ n, ∃ labels,
      m.executeFor p n = .failed ⟨j, .duplicateLabel label⟩ { m with labels } ∧
      ∀ name k, labels.lookup name = some k ↔ if name = label then k = j else k < j ∧ Declares p.toList k name) ∧
    ((∀ j label, ¬ FirstRedeclares p.toList j label) →
      (∃ labels, m.start p = .running { m with labels, pc := 0 }) ∧
      ∀ n s a label, m.executeFor p n = .running s → p[s.pc]? = some a.instruction → a.destination? = some label →
        (∀ k, Declares p.toList k label → (∀ k', Declares p.toList k' label → k' = k) ∧
          (s.Branches a → ∃ s', s.step p = .running s' ∧ s'.pc = k) ∧
          (¬ s.Branches a → ∀ s', s.step p = .running s' → s'.pc = s.pc + 1)) ∧
        ((∀ k, ¬ Declares p.toList k label) → s.step p = .failed ⟨s.pc, .undefinedLabel label⟩ s.enter)) := by
  refine ⟨fun j label n => executeFor_eq_duplicateLabel_iff, ?_, ?_⟩
  · intro j label hfirst n
    have htable := LabelTable.ofProgram_eq_error_iff.2 hfirst
    obtain ⟨j', label', he, _, hleft⟩ := LabelTable.exists_of_ofProgram_eq_error htable
    cases he
    refine ⟨_, ?_, hleft⟩
    rw [executeFor, start_of_error htable]
  · intro hnone
    cases htable : LabelTable.ofProgram p with
    | error e =>
      obtain ⟨j, label, _, hfirst, _⟩ := LabelTable.exists_of_ofProgram_eq_error htable
      exact absurd hfirst (hnone j label)
    | ok labels =>
      have hstart : m.start p = .running { m with labels, pc := 0 } := start_eq_running_iff.2 ⟨labels, htable, rfl⟩
      refine ⟨⟨labels, hstart⟩, ?_⟩
      intro n s a label hs hi ha
      rw [executeFor, hstart] at hs
      have hresolves : s.labels.Resolves p.toList := by
        rw [labels_run hs]
        exact LabelTable.ofProgram_resolves htable
      exact step_of_resolves hresolves hi ha

/-- An `EXIT` before labels of which two are declared again, the first time with an operand too many; and a jump forward,
on a machine with a table of another program. -/
theorem labels_resolved_before_execution_stale :
    let p : Program := #[⟨.exit, [.const (.int 3)]⟩, ⟨.label, [.label "a"]⟩, ⟨.label, [.label "b"]⟩,
      ⟨.label, [.label "a", .const .nil]⟩, ⟨.label, [.label "b"]⟩]
    let q : Program := #[⟨.jump, [.label "b"]⟩, ⟨.label, [.label "a"]⟩, ⟨.label, [.label "b"]⟩]
    let m : Machine Source := { fresh (Source.lines ["x"]) {} {} with labels := [("b", 7)], data := [.nil], pc := 4, executed := 9 }
    (FirstRedeclares p.toList 3 "a" ∧ ∃ labels, m.executeFor p 5 = .failed ⟨3, .duplicateLabel "a"⟩ { m with labels } ∧
      labels.lookup "a" = some 3) ∧
    ∃ s s', m.executeFor q 0 = .running s ∧ s.step q = .running s' ∧ s'.pc = 2 := by
  intro p q m
  obtain ⟨hiff, hfailed, _⟩ := labels_resolved_before_execution p m
  have hfirst : FirstRedeclares p.toList 3 "a" := (hiff 3 "a" 0).1 ⟨_, rfl⟩
  obtain ⟨labels, hend, hlabels⟩ := hfailed 3 "a" hfirst 5
  have hplace : labels.lookup "a" = some 3 := (hlabels "a" 3).2 (by rw [if_pos rfl])
  refine ⟨⟨hfirst, labels, hend, hplace⟩, ?_⟩
  obtain ⟨hiff, _, hresolved⟩ := labels_resolved_before_execution q m
  have hstart : m.executeFor q 0 = .running { m with labels := [("b", 2), ("a", 1)], pc := 0 } := rfl
  have hnone : ∀ j label, ¬ FirstRedeclares q.toList j label := by
    intro j label h
    obtain ⟨m', hm'⟩ := (hiff j label 0).2 h
    rw [hstart] at hm'
    cases hm'
  obtain ⟨hdeclared, _⟩ := (hresolved hnone).2 0 _ (.jump "b") "b" hstart rfl rfl
  obtain ⟨s', hstep, hpc⟩ := (hdeclared 2 ⟨_, rfl, rfl⟩).2.1 trivial
  exact ⟨_, s', hstart, hstep, hpc⟩

end Machine

end IPPcode23
