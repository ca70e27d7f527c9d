import IPPcode23.Format
import IPPcode23.Proofs.Signature

/-!
# Loaded programs are valid

Both representations read operands by the same rules, which refuse names that are no identifiers, and check every
instruction against its signature. So whatever they read is a valid program (`Format.load_valid`).
-/

namespace IPPcode23

private theorem name_of_ofText? {text : String} {v : Variable} (h : Variable.ofText? text = some v) :
    isIdentifier v.name = true := by
  simp only [Variable.ofText?, Option.bind_eq_bind, Option.bind_eq_some_iff] at h
  obtain ⟨⟨mark, name⟩, _, frame, _, h⟩ := h
  split at h
  case isTrue hname => rw [← Option.some.inj h]; exact hname
  case isFalse => cases h

theorem Operand.wellNamed_var {v : Variable} (h : isIdentifier v.name = true) : (Operand.var v).WellNamed := by
  intro name hname
  rw [← Option.some.inj hname]
  exact h

theorem Operand.wellNamed_label {name : String} (h : isIdentifier name = true) :
    (Operand.label name).WellNamed := by
  intro name' hname
  rw [← Option.some.inj hname]
  exact h

private theorem Operand.wellNamed_of_name? {o : Operand} (h : o.name? = none) : o.WellNamed := by
  intro name hname
  rw [h] at hname
  cases hname

/-- Whatever kind and text an operand is read from, the names in it are identifiers. -/
private theorem Operand.parse_wellNamed {kind text : String} {o : Operand} (h : Operand.parse kind text = .ok o) :
    o.WellNamed := by
  unfold Operand.parse at h
  split at h
  · obtain ⟨v, hv, rfl⟩ := map_eq_ok.1 h
    unfold Variable.parse at hv
    split at hv
    case h_1 v' hv' => cases hv; exact wellNamed_var (name_of_ofText? hv')
    case h_2 => cases hv
  · unfold parseInt at h
    split at h <;> cases h
    exact wellNamed_of_name? rfl
  · unfold parseBool at h
    split at h <;> cases h <;> exact wellNamed_of_name? rfl
  · obtain ⟨s, _, rfl⟩ := map_eq_ok.1 h
    exact wellNamed_of_name? rfl
  · unfold parseNil at h
    split at h <;> cases h
    exact wellNamed_of_name? rfl
  · unfold parseLabel at h
    split at h
    case isTrue hname => cases h; exact wellNamed_label hname
    case isFalse => cases h
  · obtain ⟨t, _, rfl⟩ := map_eq_ok.1 h
    exact wellNamed_of_name? rfl
  · cases h

/-! ### Assembly text -/

namespace Assembly

private theorem operand_wellNamed {k : OperandKind} {t : Token} {o : Operand} (h : operand k t = .ok o) :
    o.WellNamed := by
  unfold operand at h
  split at h
  · split at h <;> exact Operand.parse_wellNamed h
  · split at h <;> first | exact Operand.parse_wellNamed h | cases h
  · split at h <;> cases h

private theorem operands_wellNamed {ks : List OperandKind} {ts : List Token} {os : List Operand}
    (h : operands ks ts = .ok os) : ∀ o ∈ os, o.WellNamed := by
  induction ks generalizing ts os with
  | nil => cases h; simp
  | cons k ks ih =>
    cases ts with
    | nil => cases h; simp
    | cons t ts =>
      obtain ⟨o, ho, h⟩ := bind_eq_ok.1 h
      obtain ⟨os', hos, h⟩ := bind_eq_ok.1 h
      cases h
      intro o' ho'
      rcases List.mem_cons.1 ho' with rfl | ho'
      · exact operand_wellNamed ho
      · exact ih hos o' ho'

theorem checked_eq_ok {i j : Instruction} (h : checked i = .ok j) : j = i ∧ i.checkSignature = .ok () := by
  unfold checked at h
  split at h
  case h_1 hcheck => cases h; exact ⟨rfl, hcheck⟩
  case h_2 => cases h

private theorem instruction_valid {head : Token} {tail : List Token} {i : Instruction}
    (h : instruction head tail = .ok i) : i.Valid := by
  unfold instruction at h
  split at h
  · split at h
    case h_1 opcode _ =>
      simp only [instructionOf] at h
      split at h
      · split at h
        case h_1 os hos =>
          obtain ⟨rfl, hcheck⟩ := checked_eq_ok h
          exact ⟨hcheck, operands_wellNamed hos⟩
        case h_2 => cases h
      · cases h
    case h_2 => cases h
  · cases h

private theorem instructions_valid {ss : List Statement} {is : List Instruction} (h : instructions ss = .ok is) :
    ∀ i ∈ is, i.Valid := by
  induction ss generalizing is with
  | nil => cases h; simp
  | cons s ss ih =>
    unfold instructions at h
    split at h
    case h_1 => cases h
    case h_2 i hi =>
      obtain ⟨is', his, rfl⟩ := map_eq_ok.1 h
      intro j hj
      rcases List.mem_cons.1 hj with rfl | hj
      · exact instruction_valid hi
      · exact ih his j hj

theorem assemble_valid {text : String} {p : Program} (h : assemble text = .ok p) : p.Valid := by
  unfold assemble programOf at h
  split at h
  · cases h
  · split at h
    · obtain ⟨is, his, rfl⟩ := map_eq_ok.1 h
      intro i hi
      exact instructions_valid his i (List.mem_toArray.1 hi)
    · cases h

end Assembly

/-! ### XML -/

namespace Xml

private theorem operand_wellNamed {e : Element} {o : Operand} (h : operand e = .ok o) : o.WellNamed := by
  unfold operand at h
  split at h
  · cases h
  · split at h
    case h_1 hparse => cases h; exact Operand.parse_wellNamed hparse
    case h_2 => cases h

private theorem operands_wellNamed {es : List Element} {os : List Operand} (h : operands es = .ok os) :
    ∀ o ∈ os, o.WellNamed := by
  induction es generalizing os with
  | nil => cases h; simp
  | cons e es ih =>
    obtain ⟨o, ho, h⟩ := bind_eq_ok.1 h
    obtain ⟨os', hos, h⟩ := bind_eq_ok.1 h
    cases h
    intro o' ho'
    rcases List.mem_cons.1 ho' with rfl | ho'
    · exact operand_wellNamed ho
    · exact ih hos o' ho'

private theorem operandsOf_wellNamed {e : Element} {os : List Operand} (h : operandsOf e = .ok os) :
    ∀ o ∈ os, o.WellNamed := by
  obtain ⟨_, _, h⟩ := bind_eq_ok.1 h
  dsimp only at h
  split at h
  · exact operands_wellNamed h
  · cases h

private theorem instructionOf_valid {word : String} {e : Element} {i : Instruction} (h : instructionOf word e = .ok i) :
    i.Valid := by
  unfold instructionOf at h
  split at h
  · cases h
  · obtain ⟨os, hos, h⟩ := bind_eq_ok.1 h
    dsimp only at h
    split at h
    case h_1 hcheck => cases h; exact ⟨hcheck, operandsOf_wellNamed hos⟩
    case h_2 => cases h

private theorem entry_valid {e : Element} {x : Entry} (h : entry e = .ok x) : x.instruction.Valid := by
  unfold entry at h
  dsimp only at h
  split at h
  · cases h
  · obtain ⟨text, _, h⟩ := bind_eq_ok.1 h
    split at h
    · cases h
    · obtain ⟨word, _, h⟩ := bind_eq_ok.1 h
      split at h
      case h_1 hi => cases h; exact instructionOf_valid hi
      case h_2 => cases h

theorem mem_insert? {x y : Entry} {ys zs : List Entry} (h : insert? x ys = some zs) :
    y ∈ zs ↔ y = x ∨ y ∈ ys := by
  induction ys generalizing zs with
  | nil => cases h; simp
  | cons y' ys ih =>
    unfold insert? at h
    split at h
    · cases h; simp
    · split at h
      · cases h
      · obtain ⟨zs', hzs, rfl⟩ := Option.map_eq_some_iff.1 h
        simp only [List.mem_cons, ih hzs]
        exact or_left_comm

private theorem entries_valid {es : List Element} {sorted xs : List Entry} (h : entries sorted es = .ok xs)
    (hsorted : ∀ x ∈ sorted, x.instruction.Valid) : ∀ x ∈ xs, x.instruction.Valid := by
  induction es generalizing sorted with
  | nil => cases h; exact hsorted
  | cons e es ih =>
    obtain ⟨x, hx, h⟩ := bind_eq_ok.1 h
    split at h
    case h_1 sorted' hinsert =>
      refine ih h ?_
      intro y hy
      rcases (mem_insert? hinsert).1 hy with rfl | hy
      · exact entry_valid hx
      · exact hsorted y hy
    case h_2 => cases h

private theorem load_valid {text : String} {p : Program} (h : load text = .ok p) : p.Valid := by
  unfold load at h
  split at h
  · cases h
  · unfold programOf at h
    dsimp only at h
    split at h
    · cases h
    · obtain ⟨found, _, h⟩ := bind_eq_ok.1 h
      split at h
      · obtain ⟨xs, hxs, h⟩ := bind_eq_ok.1 h
        cases h
        intro i hi
        obtain ⟨x, hx, rfl⟩ := List.mem_map.1 (List.mem_toArray.1 hi)
        exact entries_valid hxs (by simp) x hx
      · cases h

end Xml

/-- A program that was loaded from either representation is valid. -/
theorem Format.load_valid {f : Format} {source : String} {p : Program} (h : f.load source = .ok p) : p.Valid := by
  cases f with
  | xml => exact Xml.load_valid h
  | text => exact Assembly.assemble_valid h

end IPPcode23
