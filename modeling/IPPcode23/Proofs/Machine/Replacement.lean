import IPPcode23.Proofs.Machine.Strings

/-!
# Replacing characters

`SETCHAR` works on the string that its destination holds, also when that is the replacement as well. It succeeds if the
index denotes a character and the replacement has a first one (`replaceAt_cases`), and obeys the laws of an array: the
character at the index is the new one and all others stay (`charAt_of_replaceAt`, `charAt_of_replaceAt_ne`), a later
replacement at an index takes the place of an earlier one (`replaceAt_replaceAt`), replacements at different indices can
be exchanged (`replaceAt_comm`), and a character put back where it was taken changes nothing (`replaceAt_charAt`).
-/

namespace IPPcode23

variable {σ : Type} [Input σ]

/-! ### Strings -/

section

variable {s t r r' : String} {i j : Int64}

/-- The index is looked at first, then the replacement. -/
theorem replaceAt_cases (s : String) (i : Int64) (r : String) :
    (¬ (0 ≤ i.toInt ∧ i.toInt < s.length) ∧ replaceAt s i r = .error (.indexOutOfRange i s.length)) ∨
    ((0 ≤ i.toInt ∧ i.toInt < s.length) ∧ r = "" ∧ replaceAt s i r = .error .emptyReplacement) ∨
    ((0 ≤ i.toInt ∧ i.toInt < s.length) ∧ r ≠ "" ∧ ∃ t, replaceAt s i r = .ok t) := by
  unfold replaceAt
  cases hn : position? i s.length with
  | none => exact Or.inl ⟨position?_eq_none_iff.1 hn, rfl⟩
  | some n =>
    have hrange : 0 ≤ i.toInt ∧ i.toInt < s.length := by
      have hn := position?_eq_some_iff.1 hn
      omega
    right
    cases hr : r.toList with
    | nil => exact Or.inl ⟨hrange, String.toList_eq_nil_iff.1 hr, rfl⟩
    | cons c rest =>
      refine Or.inr ⟨hrange, ?_, _, rfl⟩
      rintro rfl
      cases hr

private theorem replaceAt_eq_ok_iff :
    replaceAt s i r = .ok t ↔ ∃ (n : Nat) (c : Char) (rest : List Char), i.toInt = n ∧ n < s.length ∧
      r.toList = c :: rest ∧ t = String.ofList (s.toList.set n c) := by
  unfold replaceAt
  constructor
  · intro h
    split at h
    case h_1 | h_2 => cases h
    case h_3 n c rest hn hr =>
      cases h
      obtain ⟨hi, hlength⟩ := position?_eq_some_iff.1 hn
      exact ⟨n, c, rest, hi, hlength, hr, rfl⟩
  · rintro ⟨n, c, rest, hi, hlength, hr, rfl⟩
    rw [position?_eq_some_iff.2 ⟨hi, hlength⟩, hr]

private theorem length_of_replaceAt (h : replaceAt s i r = .ok t) : t.length = s.length := by
  obtain ⟨n, c, rest, _, _, _, rfl⟩ := replaceAt_eq_ok_iff.1 h
  rw [String.length_ofList, List.length_set, String.length_toList]

/-- The character at the index is the first one of the replacement. -/
theorem charAt_of_replaceAt (h : replaceAt s i r = .ok t) :
    ∃ c rest, r.toList = c :: rest ∧ charAt t i = .ok c := by
  obtain ⟨n, c, rest, hi, hlength, hr, rfl⟩ := replaceAt_eq_ok_iff.1 h
  refine ⟨c, rest, hr, charAt_eq_ok_iff.2 ⟨n, hi, ?_⟩⟩
  rw [← String.length_toList] at hlength
  rw [String.toList_ofList, List.getElem?_set_self hlength]

/-- The other characters stay. -/
theorem charAt_of_replaceAt_ne (h : replaceAt s i r = .ok t) (hne : j ≠ i) : charAt t j = charAt s j := by
  have hlength := length_of_replaceAt h
  obtain ⟨n, c, rest, hi, _, _, rfl⟩ := replaceAt_eq_ok_iff.1 h
  unfold charAt
  rw [hlength, String.toList_ofList]
  cases hk : position? j s.length with
  | none => rfl
  | some k =>
    have hkn : n ≠ k := by
      rintro rfl
      exact hne (Int64.toInt_inj.1 ((position?_eq_some_iff.1 hk).1.trans hi.symm))
    rw [Option.bind_some, Option.bind_some, List.getElem?_set_ne hkn]

theorem replaceAt_replaceAt (h : replaceAt s i r = .ok t) (r' : String) : replaceAt t i r' = replaceAt s i r' := by
  have hlength := length_of_replaceAt h
  obtain ⟨n, c, rest, hi, hn, _, rfl⟩ := replaceAt_eq_ok_iff.1 h
  unfold replaceAt
  rw [hlength, position?_eq_some_iff.2 ⟨hi, hn⟩, String.toList_ofList]
  cases r'.toList with
  | nil => rfl
  | cons c' rest' => simp only [List.set_set]

private theorem replaceAt_comm_of_ok {u : String} (hne : i ≠ j) (h : replaceAt s i r = .ok t)
    (h' : replaceAt t j r' = .ok u) : ∃ t', replaceAt s j r' = .ok t' ∧ replaceAt t' i r = .ok u := by
  have hlength := length_of_replaceAt h
  obtain ⟨n, c, rest, hi, hn, hr, rfl⟩ := replaceAt_eq_ok_iff.1 h
  obtain ⟨k, c', rest', hj, hk, hr', rfl⟩ := replaceAt_eq_ok_iff.1 h'
  have hnk : n ≠ k := by
    rintro rfl
    exact hne (Int64.toInt_inj.1 (hi.trans hj.symm))
  rw [hlength] at hk
  refine ⟨_, replaceAt_eq_ok_iff.2 ⟨k, c', rest', hj, hk, hr', rfl⟩, ?_⟩
  refine replaceAt_eq_ok_iff.2 ⟨n, c, rest, hi, ?_, hr, ?_⟩
  · rw [String.length_ofList, List.length_set, String.length_toList]
    exact hn
  · rw [String.toList_ofList, String.toList_ofList, List.set_comm _ _ hnk]

theorem replaceAt_comm {u : String} (hne : i ≠ j) :
    (∃ t, replaceAt s i r = .ok t ∧ replaceAt t j r' = .ok u) ↔
      ∃ t, replaceAt s j r' = .ok t ∧ replaceAt t i r = .ok u := by
  constructor
  · rintro ⟨t, h, h'⟩
    exact replaceAt_comm_of_ok hne h h'
  · rintro ⟨t, h, h'⟩
    exact replaceAt_comm_of_ok hne.symm h h'

theorem replaceAt_charAt {c : Char} (h : charAt s i = .ok c) : replaceAt s i (String.singleton c) = .ok s := by
  obtain ⟨n, hi, hc⟩ := charAt_eq_ok_iff.1 h
  obtain ⟨hn, hc⟩ := List.getElem?_eq_some_iff.1 hc
  refine replaceAt_eq_ok_iff.2 ⟨n, c, [], hi, ?_, String.toList_singleton c, ?_⟩
  · rw [← String.length_toList]
    exact hn
  · rw [← hc, List.set_getElem_self, String.ofList_toList]

end

/-! ### Instructions -/

namespace Machine

variable {m : Machine σ} {v : Variable} {s r r' : String} {i j : Int64} {index index' replacement replacement' : Symb}

section

variable (hs : m.memory.read v = .ok (.string s)) (hi : m.memory.value index = .ok (.int i))
  (hr : m.memory.value replacement = .ok (.string r))

include hs hi hr

private theorem perform_setChar_eq_next_iff {m' : Machine σ} :
    m.perform (Action.setChar v index replacement).instruction = .next m' ↔
      ∃ t memory, replaceAt s i r = .ok t ∧ m.memory.assign v (.string t) = .ok memory ∧ { m with memory } = m' := by
  have hexec : m.perform (Action.setChar v index replacement).instruction =
      m.attempt ((Value.string <$> replaceAt s i r) >>= m.store v) := by
    rw [perform_instruction, execute, hs, hi, hr]
    rfl
  rw [hexec, attempt_eq_next, bind_eq_ok]
  constructor
  · rintro ⟨x, hx, hstore⟩
    obtain ⟨t, ht, rfl⟩ := map_eq_ok.1 hx
    obtain ⟨memory, hmemory, hm'⟩ := store_eq_ok.1 hstore
    exact ⟨t, memory, ht, hmemory, hm'⟩
  · rintro ⟨t, memory, ht, hmemory, hm'⟩
    exact ⟨.string t, map_eq_ok.2 ⟨t, ht, rfl⟩, store_eq_ok.2 ⟨memory, hmemory, hm'⟩⟩

/-- When a `SETCHAR` succeeds, and which fault is reported otherwise. -/
private theorem setChar_answers :
    ((∃ x, m.Stores (.setChar v index replacement) x) ↔ (0 ≤ i.toInt ∧ i.toInt < s.length) ∧ r ≠ "") ∧
    (m.Refuses (.setChar v index replacement) (.indexOutOfRange i s.length) ↔
      ¬ (0 ≤ i.toInt ∧ i.toInt < s.length)) ∧
    (m.Refuses (.setChar v index replacement) .emptyReplacement ↔ (0 ≤ i.toInt ∧ i.toInt < s.length) ∧ r = "") := by
  have hstores : ∀ x, m.Stores (.setChar v index replacement) x ↔ Value.string <$> replaceAt s i r = .ok x :=
    fun _ => stores_iff_answers.trans (answers_setChar hs hi hr)
  have hrefuses : ∀ cause, m.Refuses (.setChar v index replacement) cause ↔ replaceAt s i r = .error cause :=
    fun _ => refuses_iff_answers.trans ((answers_setChar hs hi hr).trans map_eq_error)
  simp only [hstores, hrefuses, map_eq_ok]
  rcases replaceAt_cases s i r with ⟨hrange, h⟩ | ⟨hrange, hempty, h⟩ | ⟨hrange, hempty, t, h⟩
  · simp only [h]
    simp [hrange]
  · simp only [h]
    simp [hrange, hempty]
  · simp only [h]
    simp [hrange, hempty]

/-- What `GETCHAR` finds after a `SETCHAR`. -/
private theorem getchar_after_setChar {m' : Machine σ}
    (h : m.perform (Action.setChar v index replacement).instruction = .next m') :
    ∃ t c rest, m'.memory.read v = .ok (.string t) ∧ t.length = s.length ∧ r.toList = c :: rest ∧
      BinaryOp.getchar.Gives (.string t) (.int i) (.ok (.string (String.singleton c))) ∧
      ∀ j, j ≠ i → ∀ result, BinaryOp.getchar.Gives (.string t) (.int j) result ↔
        BinaryOp.getchar.Gives (.string s) (.int j) result := by
  obtain ⟨t, memory, ht, hmemory, rfl⟩ := (perform_setChar_eq_next_iff hs hi hr).1 h
  obtain ⟨c, rest, hr, hc⟩ := charAt_of_replaceAt ht
  refine ⟨t, c, rest, Memory.read_of_assign hmemory, length_of_replaceAt ht, hr, ?_, ?_⟩
  · exact BinaryOp.gives_iff.2 (map_eq_ok.2 ⟨c, hc, rfl⟩)
  · intro j hj result
    simp only [BinaryOp.gives_iff, BinaryOp.eval, charAt_of_replaceAt_ne ht hj]

variable (hi' : m.memory.value index' = .ok (.int j)) (hr' : m.memory.value replacement' = .ok (.string r'))
  (hne : replacement' ≠ .var v)

include hi' hr' hne

/-- A second `SETCHAR` finds what the first one has left, and its index and its replacement as they were. -/
private theorem perform_setChar_of_next {m₁ m₂ : Machine σ}
    (h : m.perform (Action.setChar v index replacement).instruction = .next m₁) :
    m₁.perform (Action.setChar v index' replacement').instruction = .next m₂ ↔
      ∃ t u memory, replaceAt s i r = .ok t ∧ replaceAt t j r' = .ok u ∧ m.memory.assign v (.string u) = .ok memory ∧
        { m with memory } = m₂ := by
  obtain ⟨t, memory, ht, hmemory, rfl⟩ := (perform_setChar_eq_next_iff hs hi hr).1 h
  -- a source of an integer is not the variable, which holds a string
  have hindex : index' ≠ .var v := by
    rintro rfl
    cases hs.symm.trans hi'
  have hs₁ := Memory.read_of_assign hmemory
  have hi₁ := Memory.value_of_assign hmemory hindex hi'
  have hr₁ := Memory.value_of_assign hmemory hne hr'
  rw [perform_setChar_eq_next_iff hs₁ hi₁ hr₁]
  simp only [Memory.assign_assign hmemory, ht, Except.ok.injEq, exists_and_left, exists_eq_left']

/-- The second of two `SETCHAR`s at one index does what it would do without the first. -/
private theorem setChar_setChar (hij : i = j) {m₁ m₂ : Machine σ}
    (h : m.perform (Action.setChar v index replacement).instruction = .next m₁) :
    m₁.perform (Action.setChar v index' replacement').instruction = .next m₂ ↔
      m.perform (Action.setChar v index' replacement').instruction = .next m₂ := by
  subst hij
  rw [perform_setChar_of_next hs hi hr hi' hr' hne h, perform_setChar_eq_next_iff hs hi' hr']
  obtain ⟨t, _, ht, _⟩ := (perform_setChar_eq_next_iff hs hi hr).1 h
  constructor
  · rintro ⟨t', u, memory, ht', hu, hmemory⟩
    rw [replaceAt_replaceAt ht'] at hu
    exact ⟨u, memory, hu, hmemory⟩
  · rintro ⟨u, memory, hu, hmemory⟩
    rw [← replaceAt_replaceAt ht] at hu
    exact ⟨t, u, memory, ht, hu, hmemory⟩

/-- Two `SETCHAR`s, one after the other, are two replacements in the string. -/
private theorem perform_setChar_twice_iff {m₂ : Machine σ} :
    (∃ m₁, m.perform (Action.setChar v index replacement).instruction = .next m₁ ∧
        m₁.perform (Action.setChar v index' replacement').instruction = .next m₂) ↔
      ∃ u memory, (∃ t, replaceAt s i r = .ok t ∧ replaceAt t j r' = .ok u) ∧
        m.memory.assign v (.string u) = .ok memory ∧ { m with memory } = m₂ := by
  constructor
  · rintro ⟨m₁, h, h'⟩
    obtain ⟨t, u, memory, ht, hu, hmemory⟩ := (perform_setChar_of_next hs hi hr hi' hr' hne h).1 h'
    exact ⟨u, memory, ⟨t, ht, hu⟩, hmemory⟩
  · rintro ⟨u, memory, ⟨t, ht, hu⟩, hmemory⟩
    obtain ⟨memory₁, hmemory₁⟩ := Memory.exists_assign (Memory.hasVariable_of_read hs) (.string t)
    have h := (perform_setChar_eq_next_iff hs hi hr).2 ⟨t, memory₁, ht, hmemory₁, rfl⟩
    exact ⟨_, h, (perform_setChar_of_next hs hi hr hi' hr' hne h).2 ⟨t, u, memory, ht, hu, hmemory⟩⟩

end

/-- Putting back what `GETCHAR` finds changes nothing. -/
private theorem setChar_getchar {x : Value} (hs : m.memory.read v = .ok (.string s))
    (hi : m.memory.value index = .ok (.int i)) (hx : m.memory.value replacement = .ok x)
    (hget : BinaryOp.getchar.Gives (.string s) (.int i) (.ok x)) :
    m.perform (Action.setChar v index replacement).instruction = .next m := by
  obtain ⟨c, hc, rfl⟩ := map_eq_ok.1 (BinaryOp.gives_iff.1 hget)
  exact (perform_setChar_eq_next_iff hs hi hx).2 ⟨s, m.memory, replaceAt_charAt hc, Memory.assign_self hs, rfl⟩

/-- Let a variable hold a string. A `SETCHAR` of it succeeds if the index denotes a character and the replacement, which may
be the variable itself, is not empty; an index out of range is reported before an empty replacement. The string is as long
as before then, `GETCHAR` finds the first character of the replacement at the index, and all else as before. Putting back
what `GETCHAR` finds at an index changes nothing. If the replacements are not the variable itself, the second of two
`SETCHAR`s at one index does what it would do without the first, and `SETCHAR`s at different indices can be exchanged.
`GETCHAR` and `STRI2INT` succeed at the same indices of any string. -/
theorem setChar_replaces_one_character (hs : m.memory.read v = .ok (.string s)) :
    (∀ index i replacement r, m.memory.value index = .ok (.int i) → m.memory.value replacement = .ok (.string r) →
      ((∃ x, m.Stores (.setChar v index replacement) x) ↔ (0 ≤ i.toInt ∧ i.toInt < s.length) ∧ r ≠ "") ∧
      (m.Refuses (.setChar v index replacement) (.indexOutOfRange i s.length) ↔
        ¬ (0 ≤ i.toInt ∧ i.toInt < s.length)) ∧
      (m.Refuses (.setChar v index replacement) .emptyReplacement ↔ (0 ≤ i.toInt ∧ i.toInt < s.length) ∧ r = "") ∧
      ∀ m', m.perform (Action.setChar v index replacement).instruction = .next m' →
        ∃ t c rest, m'.memory.read v = .ok (.string t) ∧ t.length = s.length ∧ r.toList = c :: rest ∧
          BinaryOp.getchar.Gives (.string t) (.int i) (.ok (.string (String.singleton c))) ∧
          ∀ j, j ≠ i → ∀ result, BinaryOp.getchar.Gives (.string t) (.int j) result ↔
            BinaryOp.getchar.Gives (.string s) (.int j) result) ∧
    (∀ index i replacement x, m.memory.value index = .ok (.int i) → m.memory.value replacement = .ok x →
      BinaryOp.getchar.Gives (.string s) (.int i) (.ok x) →
      m.perform (Action.setChar v index replacement).instruction = .next m) ∧
    (∀ index i replacement r index' j replacement' r',
      m.memory.value index = .ok (.int i) → m.memory.value replacement = .ok (.string r) →
      m.memory.value index' = .ok (.int j) → m.memory.value replacement' = .ok (.string r') →
      replacement ≠ .var v → replacement' ≠ .var v →
      (i = j → ∀ m₁ m₂, m.perform (Action.setChar v index replacement).instruction = .next m₁ →
        (m₁.perform (Action.setChar v index' replacement').instruction = .next m₂ ↔
          m.perform (Action.setChar v index' replacement').instruction = .next m₂)) ∧
      (i ≠ j → ∀ m₂,
        (∃ m₁, m.perform (Action.setChar v index replacement).instruction = .next m₁ ∧
          m₁.perform (Action.setChar v index' replacement').instruction = .next m₂) ↔
        ∃ m₁, m.perform (Action.setChar v index' replacement').instruction = .next m₁ ∧
          m₁.perform (Action.setChar v index replacement).instruction = .next m₂)) ∧
    ∀ (text : String) (i : Int64), (∃ x, BinaryOp.getchar.Gives (.string text) (.int i) (.ok x)) ↔
      ∃ x, BinaryOp.stri2int.Gives (.string text) (.int i) (.ok x) := by
  refine ⟨?_, ?_, ?_, ?_⟩
  · intro index i replacement r hi hr
    obtain ⟨hstores, hrange, hempty⟩ := setChar_answers hs hi hr
    exact ⟨hstores, hrange, hempty, fun m' h => getchar_after_setChar hs hi hr h⟩
  · intro index i replacement x hi hx hget
    exact setChar_getchar hs hi hx hget
  · intro index i replacement r index' j replacement' r' hi hr hi' hr' hne hne'
    refine ⟨?_, ?_⟩
    · intro hij m₁ m₂ h
      exact setChar_setChar hs hi hr hi' hr' hne' hij h
    · intro hij m₂
      simp only [perform_setChar_twice_iff hs hi hr hi' hr' hne', perform_setChar_twice_iff hs hi' hr' hi hr hne,
        replaceAt_comm hij]
  · intro text i
    rw [BinaryOp.exists_getchar_gives_iff, BinaryOp.exists_stri2int_gives_iff]

/-- A string is its own replacement, an index out of range with an empty replacement, and replacements at both ends. -/
theorem setChar_replaces_one_character_by_itself :
    let v : Variable := ⟨.global, "s"⟩
    let m : Machine Source :=
      { fresh (Source.lines []) {} {} with
        memory := ⟨⟨[("s", some (.string "aů"))], List.pairwise_singleton _ _⟩, [], none⟩ }
    let number (i : Int64) : Symb := .const (.int i)
    let text (s : String) : Symb := .const (.string s)
    (∃ m' t, m.perform (Action.setChar v (number 1) (.var v)).instruction = .next m' ∧
      m'.memory.read v = .ok (.string t) ∧ t.length = 2 ∧
      BinaryOp.getchar.Gives (.string t) (.int 1) (.ok (.string "a"))) ∧
    m.Refuses (.setChar v (number 2) (text "")) (.indexOutOfRange 2 2) ∧
    m.perform (Action.setChar v (number 1) (text "ů")).instruction = .next m ∧
    ∀ m₂, (∃ m₁, m.perform (Action.setChar v (number 0) (text "x")).instruction = .next m₁ ∧
        m₁.perform (Action.setChar v (number 1) (text "y")).instruction = .next m₂) ↔
      ∃ m₁, m.perform (Action.setChar v (number 1) (text "y")).instruction = .next m₁ ∧
        m₁.perform (Action.setChar v (number 0) (text "x")).instruction = .next m₂ := by
  intro v m number text
  have hs : m.memory.read v = .ok (.string "aů") := rfl
  obtain ⟨honce, hback, htwice, _⟩ := setChar_replaces_one_character hs
  refine ⟨?_, ?_, ?_, ?_⟩
  · obtain ⟨hstores, _, _, hnext⟩ := honce (number 1) 1 (.var v) "aů" rfl hs
    obtain ⟨x, _, memory, _, _, _, h⟩ := hstores.2 (by decide)
    obtain ⟨t, c, rest, hread, hlength, hc, hget, _⟩ := hnext _ h
    have hc : ['a', 'ů'] = c :: rest := hc
    cases hc
    exact ⟨_, t, h, hread, hlength, hget⟩
  · exact (honce (number 2) 2 (text "") "" rfl rfl).2.1.2 (by decide)
  · exact hback (number 1) 1 (text "ů") (.string "ů") rfl rfl
      (BinaryOp.getchar_gives_iff.2 ⟨1, by decide, 'ů', by decide, by decide⟩)
  · exact (htwice (number 0) 0 (text "x") "x" (number 1) 1 (text "y") "y" rfl rfl rfl rfl (by simp [text])
      (by simp [text])).2 (by decide)

end Machine

end IPPcode23
