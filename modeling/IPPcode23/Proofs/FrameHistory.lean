import IPPcode23.Proofs.Frame
import Mathlib.Data.List.Dedup

/-!
# Histories of frames

A frame is what the calls made on it have made of it. A call of a name changes what the frame knows of that name and of
no other (`lookup_call`), so the calls of one name decide what is known of it (`lookup_after`): nothing before its first
declaration, and afterwards the value that it was given last (`lookup_after_iff`). Equal calls of each name lead to equal
frames, in whatever order the calls of different names are made.
-/

namespace IPPcode23

/-- What is known of a name after a call of it: only the first declaration does something, and a value is taken only after
that. -/
def Lookup.update : Lookup → Update → Lookup
  | .undeclared, .declare => .uninitialized
  | .undeclared, .assign _ => .undeclared
  | known, .declare => known
  | _, .assign x => .initialized x

section

variable {known : Lookup} (h : known ≠ .undeclared)

include h

private theorem Lookup.update_declare : known.update .declare = known := by
  cases known with
  | undeclared => exact absurd rfl h
  | uninitialized | initialized => rfl

private theorem Lookup.update_assign (x : Value) : known.update (.assign x) = .initialized x := by
  cases known with
  | undeclared => exact absurd rfl h
  | uninitialized | initialized => rfl

private theorem Lookup.update_ne_undeclared (u : Update) : known.update u ≠ .undeclared := by
  cases u with
  | declare => rw [update_declare h]; exact h
  | assign x => rw [update_assign h]; simp

end

namespace Frame

/-- A call on a frame: a name, and what is to be done with it. -/
abbrev Call := String × Update

/-- Carries a call out and says whether it has succeeded. A call that fails leaves the frame as it is. -/
def call (f : Frame) (c : Call) : Frame × Bool :=
  match f.update? c.1 c.2 with
  | some f' => (f', true)
  | none => (f, false)

/-- The frame after calls, one after another. -/
def after (f : Frame) (calls : List Call) : Frame :=
  calls.foldl (fun f c => (f.call c).1) f

/-- Which of the calls, one after another, succeed. -/
def answers (f : Frame) : List Call → List Bool
  | [] => []
  | c :: rest => (f.call c).2 :: (f.call c).1.answers rest

/-- What calls on an empty frame tell of a name. -/
inductive Tells (name : String) (calls : List Call) : Lookup → Prop where
  /-- The name is not declared. -/
  | undeclared (h : (name, .declare) ∉ calls) : Tells name calls .undeclared
  /-- No value is given to the name after its first declaration. -/
  | uninitialized {before behind : List Call} (hcalls : calls = before ++ (name, .declare) :: behind)
    (hfirst : (name, .declare) ∉ before) (hnone : ∀ x, (name, .assign x) ∉ behind) : Tells name calls .uninitialized
  /-- A value is given to the name after its first declaration, and none later. -/
  | initialized {before between behind : List Call} {x : Value}
    (hcalls : calls = before ++ (name, .declare) :: between ++ (name, .assign x) :: behind)
    (hfirst : (name, .declare) ∉ before) (hlast : ∀ y, (name, .assign y) ∉ behind) : Tells name calls (.initialized x)

/-! ### One call -/

private theorem update?_declare_eq_none_iff {f : Frame} {name : String} :
    f.update? name .declare = none ↔ f.lookup name ≠ .undeclared := by
  rw [ne_eq, lookup_eq_undeclared_iff, Decidable.not_not, update?, declare?]
  by_cases h : name ∈ f.names <;> simp [h]

private theorem update?_assign_eq_none_iff {f : Frame} {name : String} {x : Value} :
    f.update? name (.assign x) = none ↔ f.lookup name = .undeclared := by
  rw [lookup_eq_undeclared_iff, update?, assign?]
  by_cases h : name ∈ f.names <;> simp [h]

theorem lookup_call (f : Frame) (c : Call) (name : String) :
    (f.call c).1.lookup name = if name = c.1 then (f.lookup name).update c.2 else f.lookup name := by
  obtain ⟨other, u⟩ := c
  unfold call
  cases hupdate : f.update? other u with
  | none =>
    by_cases hname : name = other
    · subst hname
      rw [if_pos rfl]
      cases u with
      | declare => rw [Lookup.update_declare (update?_declare_eq_none_iff.1 hupdate)]
      | assign x =>
        rw [update?_assign_eq_none_iff.1 hupdate]
        rfl
    · rw [if_neg hname]
  | some f' =>
    show f'.lookup name = _
    rw [lookup_of_update? hupdate]
    by_cases hname : name = other
    · subst hname
      rw [if_pos rfl, if_pos rfl]
      cases u with
      | declare =>
        rw [lookup_of_declare? hupdate]
        rfl
      | assign x =>
        have hdeclared : f.lookup name ≠ .undeclared := by
          intro hundeclared
          rw [update?_assign_eq_none_iff.2 hundeclared] at hupdate
          cases hupdate
        rw [Lookup.update_assign hdeclared]
        rfl
    · rw [if_neg hname, if_neg hname]

private theorem call_snd (f : Frame) (c : Call) : (f.call c).2 = (f.update? c.1 c.2).isSome := by
  unfold call
  cases f.update? c.1 c.2 <;> rfl

private theorem call_fst_of_eq_false {f : Frame} {c : Call} (h : (f.call c).2 = false) : (f.call c).1 = f := by
  unfold call at h ⊢
  cases hupdate : f.update? c.1 c.2 with
  | none => rfl
  | some f' =>
    rw [hupdate] at h
    cases h

private theorem call_declare_eq_true_iff {f : Frame} {name : String} :
    (f.call (name, .declare)).2 = true ↔ f.lookup name = .undeclared := by
  rw [call_snd, Option.isSome_iff_ne_none, ne_eq, update?_declare_eq_none_iff, Decidable.not_not]

private theorem call_assign_eq_true_iff {f : Frame} {name : String} {x : Value} :
    (f.call (name, .assign x)).2 = true ↔ f.lookup name ≠ .undeclared := by
  rw [call_snd, Option.isSome_iff_ne_none, ne_eq, update?_assign_eq_none_iff]

/-! ### Calls one after another -/

private theorem after_append (f : Frame) (calls calls' : List Call) :
    f.after (calls ++ calls') = (f.after calls).after calls' :=
  List.foldl_append

private theorem after_cons (f : Frame) (c : Call) (calls : List Call) :
    f.after (c :: calls) = (f.call c).1.after calls :=
  rfl

/-- The calls of a name decide what is known of it. -/
theorem lookup_after (f : Frame) (calls : List Call) (name : String) :
    (f.after calls).lookup name =
      ((calls.filter fun c => c.1 = name).map Prod.snd).foldl Lookup.update (f.lookup name) := by
  induction calls generalizing f with
  | nil => rfl
  | cons c calls ih =>
    rw [after_cons, ih, lookup_call]
    by_cases hname : c.1 = name
    · simp [hname]
    · simp [hname, Ne.symm hname]

/-- What every call keeps holds in the end. -/
private theorem after_invariant {P : Frame → Prop} {f : Frame} {calls : List Call} (h : P f)
    (hcall : ∀ f, P f → ∀ c ∈ calls, P (f.call c).1) : P (f.after calls) :=
  List.foldlRecOn (motive := P) calls _ h hcall

/-- What no call of a name changes is known of it in the end. -/
private theorem lookup_after_of_kept {f : Frame} {calls : List Call} {name : String} {known : Lookup}
    (h : f.lookup name = known) (hkept : ∀ u, (name, u) ∈ calls → known.update u = known) :
    (f.after calls).lookup name = known := by
  refine after_invariant (P := fun f => f.lookup name = known) h ?_
  rintro f hf ⟨other, u⟩ hc
  rw [lookup_call]
  by_cases hname : name = other
  · subst hname
    rw [if_pos rfl, hf, hkept u hc]
  · rw [if_neg hname, hf]

private theorem lookup_after_of_not_assigned {f : Frame} {calls : List Call} {name : String}
    (h : f.lookup name ≠ .undeclared) (hnone : ∀ x, (name, .assign x) ∉ calls) :
    (f.after calls).lookup name = f.lookup name := by
  apply lookup_after_of_kept rfl
  intro u hu
  cases u with
  | declare => exact Lookup.update_declare h
  | assign x => exact absurd hu (hnone x)

/-- A name that is declared remains so. -/
private theorem lookup_after_ne_undeclared {f : Frame} {name : String} (h : f.lookup name ≠ .undeclared)
    (calls : List Call) : (f.after calls).lookup name ≠ .undeclared := by
  refine after_invariant (P := fun f => f.lookup name ≠ .undeclared) h ?_
  rintro f hf ⟨other, u⟩ _
  rw [lookup_call]
  by_cases hname : name = other
  · rw [if_pos hname]
    exact Lookup.update_ne_undeclared hf u
  · rw [if_neg hname]
    exact hf

/-! ### What calls tell -/

private theorem lookup_call_of_declare {f : Frame} {name : String} (h : f.lookup name = .undeclared) :
    (f.call (name, .declare)).1.lookup name = .uninitialized := by
  rw [lookup_call, if_pos rfl, h]
  rfl

private theorem lookup_call_of_assign {f : Frame} {name : String} (h : f.lookup name ≠ .undeclared) (x : Value) :
    (f.call (name, .assign x)).1.lookup name = .initialized x := by
  rw [lookup_call, if_pos rfl, Lookup.update_assign h]

private theorem lookup_after_of_not_declared {calls : List Call} {name : String} (h : (name, .declare) ∉ calls) :
    (empty.after calls).lookup name = .undeclared := by
  apply lookup_after_of_kept rfl
  intro u hu
  cases u with
  | declare => exact absurd hu h
  | assign x => rfl

theorem Tells.lookup_after {name : String} {calls : List Call} {known : Lookup} (h : Tells name calls known) :
    (empty.after calls).lookup name = known := by
  cases h with
  | undeclared h => exact lookup_after_of_not_declared h
  | @uninitialized before behind hcalls hfirst hnone =>
    have hdeclared := lookup_call_of_declare (lookup_after_of_not_declared hfirst)
    rw [hcalls, after_append, after_cons, lookup_after_of_not_assigned (by rw [hdeclared]; simp) hnone, hdeclared]
  | @initialized before between behind x hcalls hfirst hlast =>
    have hdeclared := lookup_call_of_declare (lookup_after_of_not_declared hfirst)
    -- the calls between the declaration and the value may give other values, but they leave the name declared
    have hbetween := lookup_after_ne_undeclared (by rw [hdeclared]; simp) between
    have hassigned := lookup_call_of_assign hbetween x
    rw [hcalls, after_append, after_append, after_cons, after_cons,
      lookup_after_of_not_assigned (by rw [hassigned]; simp) hlast, hassigned]

/-- The last of the entries that have a property. -/
private theorem exists_last {α : Type} {P : α → Prop} {xs : List α} (h : ∃ x ∈ xs, P x) :
    ∃ before x behind, xs = before ++ x :: behind ∧ P x ∧ ∀ y ∈ behind, ¬ P y := by
  induction xs with
  | nil =>
    obtain ⟨x, hx, _⟩ := h
    cases hx
  | cons x xs ih =>
    by_cases hlater : ∃ y ∈ xs, P y
    · obtain ⟨before, y, behind, rfl, hy, hbehind⟩ := ih hlater
      exact ⟨x :: before, y, behind, rfl, hy, hbehind⟩
    · obtain ⟨y, hy, hP⟩ := h
      rcases List.mem_cons.1 hy with rfl | hy
      · exact ⟨[], y, xs, rfl, hP, fun z hz hPz => hlater ⟨z, hz, hPz⟩⟩
      · exact absurd ⟨y, hy, hP⟩ hlater

private theorem exists_tells (name : String) (calls : List Call) : ∃ known, Tells name calls known := by
  by_cases hdeclared : (name, .declare) ∈ calls
  · obtain ⟨before, behind, rfl, hfirst⟩ := List.eq_append_cons_of_mem hdeclared
    by_cases hassigned : ∃ c ∈ behind, ∃ x, c = (name, .assign x)
    · obtain ⟨between, c, behind, rfl, ⟨x, rfl⟩, hlast⟩ := exists_last hassigned
      have hcalls : before ++ (name, .declare) :: (between ++ (name, .assign x) :: behind) =
          before ++ (name, .declare) :: between ++ (name, .assign x) :: behind := by simp
      exact ⟨_, .initialized hcalls hfirst fun y hy => hlast _ hy ⟨y, rfl⟩⟩
    · exact ⟨_, .uninitialized rfl hfirst fun x hx => hassigned ⟨_, hx, x, rfl⟩⟩
  · exact ⟨_, .undeclared hdeclared⟩

theorem lookup_after_iff {name : String} {calls : List Call} {known : Lookup} :
    (empty.after calls).lookup name = known ↔ Tells name calls known := by
  constructor
  · rintro rfl
    obtain ⟨known, h⟩ := exists_tells name calls
    rw [h.lookup_after]
    exact h
  · intro h
    exact h.lookup_after

private theorem lookup_after_eq_undeclared_iff {name : String} {calls : List Call} :
    (empty.after calls).lookup name = .undeclared ↔ (name, .declare) ∉ calls := by
  rw [lookup_after_iff]
  constructor
  · rintro ⟨h⟩
    exact h
  · exact .undeclared

private theorem getElem?_answers (f : Frame) (calls : List Call) (k : Nat) :
    (f.answers calls)[k]? = calls[k]?.map fun c => ((f.after (calls.take k)).call c).2 := by
  induction calls generalizing f k with
  | nil => rfl
  | cons c calls ih =>
    cases k with
    | zero => rfl
    | succ k =>
      rw [answers, List.getElem?_cons_succ, List.getElem?_cons_succ, List.take_succ_cons, after_cons, ih]

/-! ### The slots of a frame -/

/-- Strings are in the order of their code points. -/
private theorem lt_iff_map_toNat_lt {s t : String} : s < t ↔ s.toList.map Char.toNat < t.toList.map Char.toNat := by
  suffices h : ∀ cs ds : List Char, cs < ds ↔ cs.map Char.toNat < ds.map Char.toNat from h s.toList t.toList
  intro cs
  induction cs with
  | nil => intro ds; cases ds <;> simp
  | cons c cs ih =>
    intro ds
    cases ds with
    | nil => simp
    | cons d ds =>
      rw [List.map_cons, List.map_cons, List.cons_lt_cons_iff, List.cons_lt_cons_iff, ih, Char.lt_def,
        UInt32.lt_iff_toNat_lt, Char.toNat_val, Char.toNat_val, Char.toNat_inj]

private theorem mem_slots_iff {f : Frame} {name : String} {x? : Option Value} :
    (name, x?) ∈ f.slots ↔ f.lookup name = x?.elim .uninitialized .initialized := by
  rw [← lookup_eq_some_iff_mem f.sorted, lookup]
  cases f.slots.lookup name with
  | none => cases x? <;> simp
  | some y? => cases x? <;> cases y? <;> simp

private theorem nodup_names (f : Frame) : f.names.Nodup := by
  unfold names
  rw [List.Nodup, List.pairwise_map]
  refine f.sorted.imp ?_
  intro s t hlt heq
  rw [heq] at hlt
  exact String.lt_irrefl _ hlt

private theorem mem_names_after_iff {name : String} {calls : List Call} :
    name ∈ (empty.after calls).names ↔ (name, .declare) ∈ calls := by
  rw [← not_iff_not, ← lookup_eq_undeclared_iff, lookup_after_eq_undeclared_iff]

/-- A frame has as many slots as names were declared. -/
private theorem size_after (calls : List Call) :
    (empty.after calls).size = ((calls.filter fun c => c.2 = .declare).map Prod.fst).dedup.length := by
  have hmem : ∀ name, name ∈ (empty.after calls).names ↔
      name ∈ ((calls.filter fun c => c.2 = .declare).map Prod.fst).dedup := by
    intro name
    simp [mem_names_after_iff]
  have hperm := (List.perm_ext_iff_of_nodup (nodup_names _) (List.nodup_dedup _)).2 hmem
  rw [← hperm.length_eq, names, List.length_map, size]

/-- Let calls be made on an empty frame. What it knows of a name then is what the calls tell. A declaration succeeds if it
is the first one of its name, and a name takes a value if it was declared before; a call that fails changes nothing. The
slots have the declared names, each of them once and in the order of code points, with what is known of them, and there are
as many slots as declared names. Calls that agree for each name lead to the same frame. -/
theorem frame_records_calls (calls : List Call) :
    (∀ name known, (empty.after calls).lookup name = known ↔ Tells name calls known) ∧
    (∀ k name u, calls[k]? = some (name, u) → ∃ answer, (empty.answers calls)[k]? = some answer ∧
      (u = .declare → (answer = true ↔ (name, .declare) ∉ calls.take k)) ∧
      (∀ x, u = .assign x → (answer = true ↔ (name, .declare) ∈ calls.take k)) ∧
      (answer = false → empty.after (calls.take (k + 1)) = empty.after (calls.take k))) ∧
    ((empty.after calls).slots.Pairwise fun s t => s.1.toList.map Char.toNat < t.1.toList.map Char.toNat) ∧
    (∀ name x?, (name, x?) ∈ (empty.after calls).slots ↔ Tells name calls (x?.elim .uninitialized .initialized)) ∧
    (empty.after calls).size = ((calls.filter fun c => c.2 = .declare).map Prod.fst).dedup.length ∧
    ∀ calls' : List Call, (∀ name, (calls.filter fun c => c.1 = name) = calls'.filter fun c => c.1 = name) →
      empty.after calls = empty.after calls' := by
  refine ⟨fun name known => lookup_after_iff, ?_, ?_, ?_, size_after calls, ?_⟩
  · intro k name u hk
    refine ⟨((empty.after (calls.take k)).call (name, u)).2, ?_, ?_, ?_, ?_⟩
    · rw [getElem?_answers, hk]
      rfl
    · rintro rfl
      rw [call_declare_eq_true_iff, lookup_after_eq_undeclared_iff]
    · rintro x rfl
      rw [call_assign_eq_true_iff, ne_eq, lookup_after_eq_undeclared_iff, Decidable.not_not]
    · intro hfalse
      rw [List.take_add_one, hk, after_append]
      exact call_fst_of_eq_false hfalse
  · refine (empty.after calls).sorted.imp ?_
    intro s t hlt
    exact lt_iff_map_toNat_lt.1 hlt
  · intro name x?
    rw [mem_slots_iff, lookup_after_iff]
  · intro calls' hsame
    apply eq_of_lookup
    intro name
    rw [lookup_after, lookup_after, hsame]

/-- A value before the declaration and a second declaration, both in vain, and another name declared between them or
first. -/
theorem frame_records_calls_interleaved :
    let calls : List Call :=
      [("b", .assign (.int 1)), ("b", .declare), ("a", .declare), ("b", .declare), ("b", .assign .nil)]
    let calls' : List Call :=
      [("a", .declare), ("b", .assign (.int 1)), ("b", .declare), ("b", .declare), ("b", .assign .nil)]
    (empty.after calls).lookup "b" = .initialized .nil ∧ (empty.answers calls)[0]? = some false ∧
      (empty.answers calls)[3]? = some false ∧ ("a", none) ∈ (empty.after calls).slots ∧
      (empty.after calls).size = 2 ∧ empty.after calls = empty.after calls' := by
  intro calls calls'
  obtain ⟨hlookup, hanswers, _, hslots, hsize, hsame⟩ := frame_records_calls calls
  refine ⟨?_, ?_, ?_, ?_, hsize, ?_⟩
  · refine (hlookup "b" _).2 (@Tells.initialized _ _ [("b", .assign (.int 1))] [("a", .declare), ("b", .declare)] [] _ rfl
      (by decide) (by simp))
  · obtain ⟨answer, hanswer, _, hassign, _⟩ := hanswers 0 "b" (.assign (.int 1)) rfl
    rw [hanswer, Option.some.injEq, ← Bool.not_eq_true, hassign _ rfl]
    decide
  · obtain ⟨answer, hanswer, hdeclare, _⟩ := hanswers 3 "b" .declare rfl
    rw [hanswer, Option.some.injEq, ← Bool.not_eq_true, hdeclare rfl]
    decide
  · exact (hslots "a" none).2 (@Tells.uninitialized _ _ [("b", .assign (.int 1)), ("b", .declare)]
      [("b", .declare), ("b", .assign .nil)] rfl (by decide) (by simp))
  · apply hsame
    intro name
    by_cases hb : "b" = name
    · subst hb
      rfl
    · by_cases ha : "a" = name
      · subst ha
        rfl
      · simp [calls, calls', ha, hb]

end Frame

end IPPcode23
