import IPPcode23.Proofs.Machine.Results

/-!
# Comparisons

Equality is judged for values of one type and for `nil` against anything, order only for values of one type other than
`nil`. Where order is judged, it is a strict total order (`Value.less?_trans`, `Value.less?_total`): that of the integers,
`false` before `true`, and strings by the first code point that differs (`Value.Precedes`). The conditional jumps judge
equality as `EQ` does, and `GT` is `LT` with its sources exchanged (`comparisons_agree`).
-/

namespace IPPcode23

variable {σ : Type}

/-! ### Comparing values -/

namespace Value

/-- Values that may be compared for equality: they share a type, or one of them is `nil`. -/
def Comparable (x y : Value) : Prop :=
  x.typeName = y.typeName ∨ x = nil ∨ y = nil

/-- One value comes before another of its type. -/
inductive Precedes : Value → Value → Prop where
  | int {i j : Int64} (h : i.toInt < j.toInt) : Precedes (int i) (int j)
  | bool : Precedes (bool false) (bool true)
  /-- A string is a proper beginning of the other one. -/
  | shorter {s t : String} {rest : List Char} (h : t.toList = s.toList ++ rest) (hrest : rest ≠ []) :
    Precedes (string s) (string t)
  /-- Behind a common beginning a code point is less than the other one. -/
  | differs {s t : String} {common rest rest' : List Char} {c d : Char} (hs : s.toList = common ++ c :: rest)
    (ht : t.toList = common ++ d :: rest') (h : c.toNat < d.toNat) : Precedes (string s) (string t)

variable {x y z : Value}

private theorem same?_eq_none_iff : x.same? y = none ↔ ¬ x.Comparable y := by
  cases x <;> cases y <;> simp [same?, Comparable, typeName]

private theorem same?_eq_true_iff : x.same? y = some true ↔ x = y := by
  cases x <;> cases y <;> simp [same?]

private theorem same?_eq_false_iff : x.same? y = some false ↔ x ≠ y ∧ x.Comparable y := by
  cases x <;> cases y <;> simp [same?, Comparable, typeName]

private theorem less?_eq_none_iff : x.less? y = none ↔ x = nil ∨ y = nil ∨ x.same? y = none := by
  cases x <;> cases y <;> simp [less?, same?]

theorem less?_trans (hxy : x.less? y = some true) (hyz : y.less? z = some true) : x.less? z = some true := by
  cases x with
  | int i =>
    cases y with
    | int j =>
      cases z with
      | int k =>
        simp only [less?, Option.some.injEq, decide_eq_true_eq, Int64.lt_iff_toInt_lt] at hxy hyz ⊢
        omega
      | _ => cases hyz
    | _ => cases hxy
  | bool a =>
    cases y with
    | bool b =>
      cases z with
      | bool c => revert hxy hyz; cases a <;> cases b <;> cases c <;> decide
      | _ => cases hyz
    | _ => cases hxy
  | string s =>
    cases y with
    | string t =>
      cases z with
      | string u =>
        simp only [less?, Option.some.injEq, decide_eq_true_eq] at hxy hyz ⊢
        exact String.lt_trans hxy hyz
      | _ => cases hyz
    | _ => cases hxy
  | nil => cases hxy

/-- Of two values that are judged by order one comes before the other, or they are the same. -/
theorem less?_total (h : x.less? y ≠ none) :
    x.less? y = some true ∧ x ≠ y ∧ y.less? x = some false ∨ x.less? y = some false ∧ x = y ∧ y.less? x = some false ∨
      x.less? y = some false ∧ x ≠ y ∧ y.less? x = some true := by
  cases x with
  | int i =>
    cases y with
    | int j =>
      simp only [less?, Option.some.injEq, decide_eq_true_eq, decide_eq_false_iff_not, Int64.lt_iff_toInt_lt, int.injEq,
        ne_eq, ← Int64.toInt_inj]
      omega
    | _ => exact absurd rfl h
  | bool a =>
    cases y with
    | bool b => cases a <;> cases b <;> decide
    | _ => exact absurd rfl h
  | string s =>
    cases y with
    | string t =>
      simp only [less?, Option.some.injEq, decide_eq_true_eq, decide_eq_false_iff_not, string.injEq, ne_eq]
      by_cases hst : s < t
      · refine Or.inl ⟨hst, ?_, String.lt_asymm hst⟩
        rintro rfl
        exact String.lt_irrefl s hst
      · by_cases hts : t < s
        · refine Or.inr (Or.inr ⟨hst, ?_, hts⟩)
          rintro rfl
          exact hst hts
        · exact Or.inr (Or.inl ⟨hst, String.le_antisymm (String.not_lt.1 hts) (String.not_lt.1 hst), hts⟩)
    | _ => exact absurd rfl h
  | nil => exact absurd rfl h

/-- Lists of characters in order: the first one ends early, or has a lesser code point at the first difference. -/
private theorem lt_iff_split {cs ds : List Char} :
    cs < ds ↔ (∃ rest, ds = cs ++ rest ∧ rest ≠ []) ∨
      ∃ common c rest d rest', cs = common ++ c :: rest ∧ ds = common ++ d :: rest' ∧ c.toNat < d.toNat := by
  induction cs generalizing ds with
  | nil => cases ds <;> simp
  | cons a cs ih =>
    cases ds with
    | nil => simp
    | cons b ds =>
      rw [List.cons_lt_cons_iff, ih, Char.lt_def, UInt32.lt_iff_toNat_lt, Char.toNat_val, Char.toNat_val]
      constructor
      · rintro (hlt | ⟨rfl, ⟨rest, rfl, hrest⟩ | ⟨common, c, rest, d, rest', rfl, rfl, hlt⟩⟩)
        · exact Or.inr ⟨[], a, cs, b, ds, rfl, rfl, hlt⟩
        · exact Or.inl ⟨rest, rfl, hrest⟩
        · exact Or.inr ⟨a :: common, c, rest, d, rest', rfl, rfl, hlt⟩
      · rintro (⟨rest, hds, hrest⟩ | ⟨common, c, rest, d, rest', hcs, hds, hlt⟩)
        · obtain ⟨rfl, rfl⟩ := List.cons.inj hds
          exact Or.inr ⟨rfl, Or.inl ⟨rest, rfl, hrest⟩⟩
        · cases common with
          | nil =>
            obtain ⟨rfl, _⟩ := List.cons.inj hcs
            obtain ⟨rfl, _⟩ := List.cons.inj hds
            exact Or.inl hlt
          | cons e common =>
            obtain ⟨rfl, rfl⟩ := List.cons.inj hcs
            obtain ⟨rfl, rfl⟩ := List.cons.inj hds
            exact Or.inr ⟨rfl, Or.inr ⟨common, c, rest, d, rest', rfl, rfl, hlt⟩⟩

private theorem less?_eq_true_iff : x.less? y = some true ↔ x.Precedes y := by
  constructor
  · intro h
    cases x with
    | int i =>
      cases y with
      | int j => exact .int (Int64.lt_iff_toInt_lt.1 (of_decide_eq_true (Option.some.inj h)))
      | _ => cases h
    | bool a =>
      cases y with
      | bool b =>
        cases a <;> cases b <;> first | exact .bool | cases h
      | _ => cases h
    | string s =>
      cases y with
      | string t =>
        have hlt : s.toList < t.toList := of_decide_eq_true (Option.some.inj h)
        rcases lt_iff_split.1 hlt with ⟨rest, ht, hrest⟩ | ⟨common, c, rest, d, rest', hs, ht, hcd⟩
        · exact .shorter ht hrest
        · exact .differs hs ht hcd
      | _ => cases h
    | nil => cases h
  · intro h
    cases h with
    | int h => exact congrArg some (decide_eq_true (Int64.lt_iff_toInt_lt.2 h))
    | bool => rfl
    | @shorter s t rest ht hrest =>
      have hlt : s.toList < t.toList := lt_iff_split.2 (Or.inl ⟨rest, ht, hrest⟩)
      exact congrArg some (decide_eq_true hlt)
    | @differs s t common rest rest' c d hs ht hcd =>
      have hlt : s.toList < t.toList := lt_iff_split.2 (Or.inr ⟨common, c, rest, d, rest', hs, ht, hcd⟩)
      exact congrArg some (decide_eq_true hlt)

end Value

namespace BinaryOp

/-- The opcodes that compare two values. -/
def comparing : List BinaryOp :=
  [lt, gt, eq]

/-- The verdict of an opcode that compares two values. -/
def judge? (op : BinaryOp) (x y : Value) : Option Bool :=
  match op with
  | lt => x.less? y
  | gt => y.less? x
  | eq => x.same? y
  | _ => none

private theorem eval_of_comparing {op : BinaryOp} (h : op ∈ comparing) (x y : Value) :
    op.eval x y = op.verdict (op.judge? x y) := by
  simp only [comparing, List.mem_cons, List.not_mem_nil, or_false] at h
  rcases h with rfl | rfl | rfl <;> rfl

private theorem verdict_inj {op : BinaryOp} {a b : Option Bool} : op.verdict a = op.verdict b ↔ a = b := by
  cases a <;> cases b <;> simp [verdict]

private theorem judge?_eq_none_iff {op : BinaryOp} (h : op ∈ [lt, gt]) {x y : Value} :
    op.judge? x y = none ↔ x = .nil ∨ y = .nil ∨ x.same? y = none := by
  simp only [List.mem_cons, List.not_mem_nil, or_false] at h
  rcases h with rfl | rfl
  · exact Value.less?_eq_none_iff
  · cases x <;> cases y <;> simp [judge?, Value.less?, Value.same?]

/-- One and only one comparison of two values that are judged by order holds. -/
private theorem existsUnique_judge? {x y : Value} (h : lt.judge? x y ≠ none) :
    ∃! op, op ∈ comparing ∧ op.judge? x y = some true := by
  have hverdicts : ∀ op, op ∈ comparing ∧ op.judge? x y = some true ↔
      op = lt ∧ x.less? y = some true ∨ op = gt ∧ y.less? x = some true ∨ op = eq ∧ x = y := by
    intro op
    rw [← Value.same?_eq_true_iff]
    cases op <;> simp [comparing, judge?]
  simp only [hverdicts]
  rcases Value.less?_total h with ⟨hlt, hne, hgt⟩ | ⟨hlt, heq, hgt⟩ | ⟨hlt, hne, hgt⟩
  · exact ⟨lt, by simp [hlt], by simp [hgt, hne]⟩
  · exact ⟨eq, by simp [heq], by simp [hlt, hgt]⟩
  · exact ⟨gt, by simp [hgt], by simp [hlt, hne]⟩

end BinaryOp

/-! ### Comparing sources -/

namespace Machine

/-- The outcome of a conditional jump that is taken, not taken, or refused for the types of its sources. -/
def jumped (m : Machine σ) (wanted : Bool) (n : Nat) : Option Bool → Outcome σ
  | some true => .next (m.goto n)
  | some false => .next m
  | none => .fail (.typeMismatch (.jumpIf wanted)) m

private theorem jumped_eq_refused_iff {m : Machine σ} {wanted : Bool} {n : Nat} {result : Option Bool} :
    m.jumped wanted n result = m.jumped wanted n none ↔ result = none := by
  rcases result with _ | _ | _ <;> simp [jumped]

/-- A jump to another place than the next instruction shows that it is taken. -/
private theorem jumped_eq_taken_iff {m : Machine σ} {wanted : Bool} {n : Nat} (hn : n ≠ m.pc) {result : Option Bool} :
    m.jumped wanted n result = m.jumped wanted n (some true) ↔ result = some true := by
  have hgoto : m ≠ m.goto n := fun h => hn (congrArg Machine.pc h).symm
  rcases result with _ | _ | _ <;> simp [jumped, hgoto]

variable [Input σ]

/-- What a comparison leads to: a variable is given a truth value, which it has from then on, and all else is as it was, or
the comparison is refused for the types of its sources. -/
def Compares (m : Machine σ) (op : BinaryOp) (v : Variable) (left right : Symb) : Option Bool → Prop
  | some b => ∃ memory, m.memory.assign v (.bool b) = .ok memory ∧ memory.read v = .ok (.bool b) ∧
    m.perform (Action.binary op v left right).instruction = .next { m with memory }
  | none => m.perform (Action.binary op v left right).instruction = .fail (.typeMismatch (.binary op)) m

/-- What a conditional jump to an index leads to. -/
def Jumps (m : Machine σ) (wanted : Bool) (label : String) (left right : Symb) (n : Nat) (result : Option Bool) : Prop :=
  m.perform (Action.jumpIf wanted label left right).instruction = m.jumped wanted n result

/-- What a comparison leads to is its verdict, stored or refused. -/
private theorem compares_iff_answers {m : Machine σ} {op : BinaryOp} {v : Variable} {left right : Symb}
    {result : Option Bool} :
    m.Compares op v left right result ↔ m.Answers (.binary op v left right) (op.verdict result) := by
  cases result with
  | none => exact Iff.rfl
  | some b =>
    constructor
    · rintro ⟨memory, hstores⟩
      exact ⟨v, memory, rfl, hstores⟩
    · rintro ⟨w, memory, hw, hstores⟩
      cases hw
      exact ⟨memory, hstores⟩

/-- A comparison leads to its verdict on the values of its sources and to nothing else. -/
private theorem compares_iff {op : BinaryOp} (hop : op ∈ BinaryOp.comparing) {m : Machine σ} {v : Variable}
    {left right : Symb} {x y : Value} (hx : m.memory.value left = .ok x) (hy : m.memory.value right = .ok y)
    (hv : m.memory.HasVariable v) {result : Option Bool} :
    m.Compares op v left right result ↔ op.judge? x y = result := by
  rw [compares_iff_answers, answers_binary hv hx hy, BinaryOp.eval_of_comparing hop, BinaryOp.verdict_inj]

private theorem jumps_of_same? {m : Machine σ} {label : String} {n : Nat} {left right : Symb} {x y : Value}
    (hlabel : m.labels.lookup label = some n) (hx : m.memory.value left = .ok x) (hy : m.memory.value right = .ok y)
    (wanted : Bool) : m.Jumps wanted label left right n ((x.same? y).map (· == wanted)) := by
  rw [Jumps, perform_instruction, execute, jumpIf, target_eq_ok.2 hlabel, hx, hy]
  simp only [bind, Except.bind]
  cases x.same? y with
  | none => rfl
  | some result => cases result <;> cases wanted <;> rfl

/-- Let the sources of a comparison have values. `EQ` stores `true` for the same value, `false` for values that differ but
share a type or are compared with `nil`, and is refused otherwise. A conditional jump is taken if `EQ` would store what it
asks for, and refused if `EQ` is; it shows that it is taken unless it leads to the next instruction anyway. `LT` and `GT`
succeed if no source is `nil` and `EQ` is not refused. Then exactly one of the three stores `true`, and `LT` stores what
`GT` stores for the sources exchanged. `LT` is transitive, and stores `true` if one value precedes the other. -/
theorem comparisons_agree {m : Machine σ} {left right third : Symb} {a b c : Value} (ha : m.memory.value left = .ok a)
    (hb : m.memory.value right = .ok b) (hc : m.memory.value third = .ok c) :
    (∀ v, m.memory.HasVariable v →
      (m.Compares .eq v left right (some true) ↔ a = b) ∧
      (m.Compares .eq v left right (some false) ↔ a ≠ b ∧ a.Comparable b) ∧
      (m.Compares .eq v left right none ↔ ¬ a.Comparable b)) ∧
    (∀ wanted label n, m.labels.lookup label = some n →
      (a = b → m.Jumps wanted label left right n (some wanted)) ∧
      (a ≠ b → a.Comparable b → m.Jumps wanted label left right n (some !wanted)) ∧
      (¬ a.Comparable b → m.Jumps wanted label left right n none) ∧
      ∀ v, m.memory.HasVariable v →
        (n ≠ m.pc → (m.Jumps wanted label left right n (some true) ↔ m.Compares .eq v left right (some wanted))) ∧
        (m.Jumps wanted label left right n none ↔ m.Compares .eq v left right none)) ∧
    ∀ v, m.memory.HasVariable v →
      (∀ op ∈ [BinaryOp.lt, .gt],
        ((∃ result, m.Compares op v left right (some result)) ↔
          a ≠ .nil ∧ b ≠ .nil ∧ ¬ m.Compares .eq v left right none) ∧
        (m.Compares op v left right none ↔ a = .nil ∨ b = .nil ∨ m.Compares .eq v left right none)) ∧
      ((∃ result, m.Compares .lt v left right (some result)) →
        ∃! op, op ∈ BinaryOp.comparing ∧ m.Compares op v left right (some true)) ∧
      (∀ result, m.Compares .lt v left right result ↔ m.Compares .gt v right left result) ∧
      (m.Compares .lt v left right (some true) → m.Compares .lt v right third (some true) →
        m.Compares .lt v left third (some true)) ∧
      (m.Compares .lt v left right (some true) ↔ a.Precedes b) := by
  have hlt : BinaryOp.lt ∈ BinaryOp.comparing := by decide
  have hgt : BinaryOp.gt ∈ BinaryOp.comparing := by decide
  have heq : BinaryOp.eq ∈ BinaryOp.comparing := by decide
  refine ⟨?_, ?_, ?_⟩
  · intro v hv
    simp only [compares_iff heq ha hb hv]
    exact ⟨Value.same?_eq_true_iff, Value.same?_eq_false_iff, Value.same?_eq_none_iff⟩
  · intro wanted label n hlabel
    have hjumps := jumps_of_same? hlabel ha hb wanted
    refine ⟨?_, ?_, ?_, ?_⟩
    · intro hab
      rw [Value.same?_eq_true_iff.2 hab] at hjumps
      cases wanted <;> exact hjumps
    · intro hab hcomparable
      rw [Value.same?_eq_false_iff.2 ⟨hab, hcomparable⟩] at hjumps
      cases wanted <;> exact hjumps
    · intro hcomparable
      rw [Value.same?_eq_none_iff.2 hcomparable] at hjumps
      exact hjumps
    · intro v hv
      unfold Jumps at hjumps ⊢
      rw [hjumps, jumped_eq_refused_iff, compares_iff heq ha hb hv, compares_iff heq ha hb hv, BinaryOp.judge?]
      refine ⟨fun hn => ?_, Option.map_eq_none_iff⟩
      rw [jumped_eq_taken_iff hn]
      simp
  · intro v hv
    refine ⟨?_, ?_, ?_, ?_, ?_⟩
    · intro op hop
      have hop' : op ∈ BinaryOp.comparing := List.mem_of_mem_take (l := BinaryOp.comparing) (i := 2) hop
      simp only [compares_iff hop' ha hb hv, compares_iff heq ha hb hv, ← Option.ne_none_iff_exists', ne_eq,
        BinaryOp.judge?_eq_none_iff hop, not_or]
      exact ⟨Iff.rfl, Iff.rfl⟩
    · simp only [compares_iff hlt ha hb hv, ← Option.ne_none_iff_exists']
      intro hjudged
      refine (existsUnique_congr fun op => and_congr_right fun hop => ?_).2 (BinaryOp.existsUnique_judge? hjudged)
      exact compares_iff hop ha hb hv
    · intro result
      rw [compares_iff hlt ha hb hv, compares_iff hgt hb ha hv]
      exact Iff.rfl
    · rw [compares_iff hlt ha hb hv, compares_iff hlt hb hc hv, compares_iff hlt ha hc hv]
      exact Value.less?_trans
    · rw [compares_iff hlt ha hb hv]
      exact Value.less?_eq_true_iff

/-- A string before a longer one, and that one before another by the code points behind the common beginning. -/
theorem comparisons_agree_strings :
    let v : Variable := ⟨.global, "r"⟩
    let m : Machine Source :=
      { fresh (Source.lines []) {} {} with
        labels := [("l", 5)]
        memory := ⟨⟨[("r", none)], List.pairwise_singleton _ _⟩, [], none⟩
        pc := 1 }
    let s (text : String) : Symb := .const (.string text)
    m.Compares .lt v (s "a") (s "a\uffff") (some true) ∧ m.Compares .lt v (s "a\uffff") (s "a😀") (some true) ∧
      m.Compares .lt v (s "a") (s "a😀") (some true) ∧ m.Jumps false "l" (s "a") (s "a\uffff") 5 (some true) := by
  intro v m s
  have hv : m.memory.HasVariable v := ⟨_, rfl, by decide⟩
  have hlabel : m.labels.lookup "l" = some 5 := rfl
  have hvalue : ∀ text, m.memory.value (s text) = .ok (.string text) := fun _ => rfl
  obtain ⟨_, hjumps, horder⟩ := comparisons_agree (hvalue "a") (hvalue "a\uffff") (hvalue "a😀")
  obtain ⟨_, _, horder'⟩ := comparisons_agree (hvalue "a\uffff") (hvalue "a😀") (hvalue "a")
  obtain ⟨_, _, _, htrans, hprecedes⟩ := horder v hv
  obtain ⟨_, _, _, _, hprecedes'⟩ := horder' v hv
  have hfirst := hprecedes.2 (@Value.Precedes.shorter _ _ ['\uffff'] (by decide) (by decide))
  have hsecond := hprecedes'.2
    (@Value.Precedes.differs _ _ ['a'] [] [] '\uffff' '😀' (by decide) (by decide) (by decide))
  exact ⟨hfirst, hsecond, htrans hfirst hsecond, (hjumps false "l" 5 hlabel).2.1 (by decide) (Or.inl rfl)⟩

end Machine

end IPPcode23
