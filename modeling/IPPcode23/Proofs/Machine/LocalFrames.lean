import IPPcode23.Proofs.Machine.Effect

/-!
# Local frames

The local frames below the innermost one are out of reach. A run from a machine with a frame `f` above frames `rest`, for
as long as it does not pop `f`, leaves `rest` alone and changes `f` only by the updates made through `LF` while `f` is
the innermost frame (`run_above`). So `PUSHFRAME` and the `POPFRAME` that belongs to it lead back to the same local
frames, and to the temporary frame with just those updates (`local_frames_isolated`).
-/

namespace IPPcode23

variable {σ : Type} [Input σ]

/-- A frame after updates of names, one after another. -/
def Frame.updates? (f : Frame) (us : List (String × Update)) : Option Frame :=
  us.foldlM (fun f u => f.update? u.1 u.2) f

private theorem Frame.updates?_append (f : Frame) (us vs : List (String × Update)) :
    f.updates? (us ++ vs) = (f.updates? us).bind fun f' => f'.updates? vs :=
  List.foldlM_append

namespace Machine

/-- The update of a local variable that the next step makes, if it makes one. -/
def localUpdate? (p : Program) (m : Machine σ) : Option (String × Update) :=
  match m.step p with
  | .running _ => do
    let i ← p[m.pc]?
    let a ← i.action.toOption
    let (v, u) ← m.enter.update? a
    if v.frame = .local then some (v.name, u) else none
  | _ => none

/-- The updates of local variables that the first `n` steps make while there are `height` local frames. -/
def localUpdates (p : Program) (height : Nat) (m : Machine σ) (n : Nat) : List (String × Update) :=
  (List.range n).filterMap fun k =>
    match m.run p k with
    | .running s => if s.memory.locals.length = height then s.localUpdate? p else none
    | _ => none

/-! ### One step -/

private theorem localUpdate?_of_step {p : Program} {m m' : Machine σ} {a : Action} (hi : p[m.pc]? = some a.instruction)
    (hstep : m.step p = .running m') :
    m.localUpdate? p = (m.enter.update? a).bind fun w => if w.1.frame = .local then some (w.1.name, w.2) else none := by
  have ha : a.instruction.action = .ok a := Instruction.action_eq_ok_iff.2 rfl
  simp only [localUpdate?, hstep, hi, ha, Option.bind_eq_bind, Option.bind_some, Except.toOption]

/-- One step from a machine with a frame above others: the others stay, and the frame itself stays or takes the update
that the step makes if it is the innermost one, or it is popped. -/
private theorem step_above {p : Program} {m m' : Machine σ} {f : Frame} {rest : List Frame}
    (h : f :: rest <:+ m.memory.locals) (hstep : m.step p = .running m') :
    (∃ f', f.updates? (if m.memory.locals.length = rest.length + 1 then m.localUpdate? p else none).toList = some f' ∧
      f' :: rest <:+ m'.memory.locals) ∨
    (p[m.pc]? = some ⟨.popFrame, []⟩ ∧ m'.memory.locals = rest ∧ m'.memory.temporary = some f) := by
  obtain ⟨a, hi, hexec⟩ := step_eq_running_iff.1 hstep
  have hlocal := localUpdate?_of_step hi hstep
  -- without an update through `LF` it is enough that the frame and those below it are still there
  have hnone : m.localUpdate? p = none → f :: rest <:+ m'.memory.locals → ∃ f',
      f.updates? (if m.memory.locals.length = rest.length + 1 then m.localUpdate? p else none).toList = some f' ∧
        f' :: rest <:+ m'.memory.locals := by
    intro hnone hsuffix
    refine ⟨f, ?_, hsuffix⟩
    rw [hnone, ite_self]
    rfl
  cases hexec.effect with
  | keep ha hmemory =>
    left
    rw [ha] at hlocal
    exact hnone hlocal (by rw [hmemory]; exact h)
  | create hmemory => exact Or.inl (hnone hlocal (by rw [hmemory]; exact h))
  | push hpush =>
    left
    obtain ⟨top, _, hmemory⟩ := Memory.push_eq_ok_iff.1 hpush
    have hlocals' : m'.memory.locals = top :: m.memory.locals := by rw [← hmemory]; rfl
    refine hnone hlocal ?_
    rw [hlocals']
    exact h.trans (List.suffix_cons _ _)
  | pop hpop =>
    obtain ⟨top, others, hlocals, hmemory⟩ := Memory.pop_eq_ok_iff.1 hpop
    have hlocals : m.memory.locals = top :: others := hlocals
    have hlocals' : m'.memory.locals = others := by rw [← hmemory]
    rw [hlocals] at h
    rcases List.suffix_cons_iff.1 h with heq | hothers
    · cases heq
      exact Or.inr ⟨hi, hlocals', by rw [← hmemory]⟩
    · left
      refine hnone hlocal ?_
      rw [hlocals']
      exact hothers
  | @update _ v u hu hmemory =>
    left
    rw [hu] at hlocal
    by_cases hv : v.frame = .local
    · obtain ⟨top, top', others, hlocals, htop, hlocals'⟩ := hmemory.locals_of_eq hv
      have hlocals : m.memory.locals = top :: others := hlocals
      rw [hlocals] at h ⊢
      rw [hlocals']
      rcases List.suffix_cons_iff.1 h with heq | hothers
      · cases heq
        refine ⟨top', ?_, List.suffix_refl _⟩
        simp [hlocal, hv, Frame.updates?, htop]
      · -- there is a frame above `f`, and that is the one that is updated
        have hlength := hothers.length_le
        have hne : (top :: others).length ≠ rest.length + 1 := by
          simp only [List.length_cons] at hlength ⊢
          omega
        refine ⟨f, ?_, hothers.trans (List.suffix_cons _ _)⟩
        rw [if_neg hne]
        rfl
    · have hlocal : m.localUpdate? p = none := by simpa [hv] using hlocal
      refine hnone hlocal ?_
      rw [hmemory.locals_of_ne hv]
      exact h

/-! ### Runs -/

private theorem localUpdates_succ_of_running {p : Program} {m s : Machine σ} {n : Nat} (height : Nat)
    (hrun : m.run p n = .running s) :
    m.localUpdates p height (n + 1) =
      m.localUpdates p height n ++ (if s.memory.locals.length = height then s.localUpdate? p else none).toList := by
  unfold localUpdates
  rw [List.range_succ, List.filterMap_append]
  cases hupdate : (if s.memory.locals.length = height then s.localUpdate? p else none) <;> simp [hrun, hupdate]

private theorem localUpdates_succ_of_over {p : Program} {m : Machine σ} {n : Nat} (height : Nat)
    (hover : ∀ s, m.run p n ≠ .running s) : m.localUpdates p height (n + 1) = m.localUpdates p height n := by
  unfold localUpdates
  rw [List.range_succ, List.filterMap_append]
  cases hrun : m.run p n with
  | running s => exact absurd hrun (hover s)
  | halted | failed => simp [hrun]

/-- A run that does not pop a frame leaves those below it alone, and makes no updates of it but those through `LF` while
it is the innermost one. -/
theorem run_above {p : Program} {m : Machine σ} {f : Frame} {rest : List Frame} {n : Nat} (h : f :: rest <:+ m.memory.locals)
    (hheight : ∀ j ≤ n, rest.length < (m.run p j).machine.memory.locals.length) :
    ∃ f', f.updates? (m.localUpdates p (rest.length + 1) n) = some f' ∧
      f' :: rest <:+ (m.run p n).machine.memory.locals := by
  induction n with
  | zero => exact ⟨f, rfl, h⟩
  | succ n ih =>
    obtain ⟨f₁, hf₁, hsuffix⟩ := ih fun j hj => hheight j (by omega)
    rcases run_succ_cases p m n with ⟨s, hrun, hsucc⟩ | ⟨hover, hsucc⟩
    · have hheight := hheight (n + 1) (Nat.le_refl _)
      rw [hrun] at hsuffix
      rw [localUpdates_succ_of_running _ hrun, Frame.updates?_append, hf₁, hsucc]
      rw [hsucc] at hheight
      cases hstep : s.step p with
      | running s' =>
        rw [hstep] at hheight
        rcases step_above hsuffix hstep with habove | ⟨_, hpopped, _⟩
        · exact habove
        · -- a pop would leave as many frames as are excluded
          have hlength : s'.memory.locals.length = rest.length := by rw [hpopped]
          have hheight : rest.length < s'.memory.locals.length := hheight
          omega
      | halted | failed =>
        rcases step_running_or_kept p s with ⟨_, _, _, _, hrunning⟩ | ⟨_, hmemory, _⟩
        · rw [hstep] at hrunning
          cases hrunning
        · rw [hstep] at hmemory
          refine ⟨f₁, ?_, by rw [hmemory]; exact hsuffix⟩
          have hnone : s.localUpdate? p = none := by rw [localUpdate?, hstep]
          rw [hnone, ite_self]
          rfl
    · rw [localUpdates_succ_of_over _ hover, hsucc]
      exact ⟨f₁, hf₁, hsuffix⟩

/-- A run with at least `k` local frames all the time keeps all but the uppermost one of the lowest `k`. -/
private theorem lowest_frames_kept {p : Program} {m : Machine σ} {k n : Nat} (hk : 1 ≤ k)
    (hheight : ∀ j ≤ n, k ≤ (m.run p j).machine.memory.locals.length) :
    (m.run p n).machine.memory.locals.reverse.take (k - 1) = m.memory.locals.reverse.take (k - 1) := by
  have hstart : k ≤ m.memory.locals.length := hheight 0 (Nat.zero_le _)
  have hsuffix : m.memory.locals.drop (m.memory.locals.length - k) <:+ m.memory.locals := List.drop_suffix _ _
  cases hlowest : m.memory.locals.drop (m.memory.locals.length - k) with
  | nil =>
    have hlength := congrArg List.length hlowest
    simp only [List.length_drop, List.length_nil] at hlength
    omega
  | cons f rest =>
    have hlength : rest.length = k - 1 := by
      have hlength := congrArg List.length hlowest
      simp only [List.length_drop, List.length_cons] at hlength
      omega
    rw [hlowest] at hsuffix
    have habove : ∀ j ≤ n, rest.length < (m.run p j).machine.memory.locals.length := by
      intro j hj
      have := hheight j hj
      omega
    obtain ⟨f', _, hsuffix'⟩ := run_above hsuffix habove
    -- both times the lowest frames are `rest`
    have hrest : ∀ {g : Frame} {l : List Frame}, g :: rest <:+ l → l.reverse.take (k - 1) = rest.reverse := by
      intro g l hl
      have hprefix := List.reverse_prefix.2 ((List.suffix_cons g rest).trans hl)
      rw [← hlength, ← List.length_reverse, ← List.prefix_iff_eq_take.1 hprefix]
    rw [hrest hsuffix', hrest hsuffix]

/-- `PUSHFRAME` puts the temporary frame on top of the local ones. -/
private theorem locals_of_pushFrame {p : Program} {m m₁ : Machine σ} {i : Instruction} {f : Frame}
    (hi : p[m.pc]? = some i) (hpush : i.opcode = .pushFrame) (hf : m.memory.temporary = some f)
    (hstep : m.step p = .running m₁) :
    m₁.memory.locals = f :: m.memory.locals := by
  obtain ⟨a, ha, hexec⟩ := step_eq_running_iff.1 hstep
  obtain rfl : a.instruction = i := Option.some.inj (ha.symm.trans hi)
  cases a with
  | pushFrame =>
    cases hexec with
    | pushFrame h =>
      obtain ⟨top, htop, rfl⟩ := Memory.push_eq_ok_iff.1 h
      cases hf.symm.trans htop
      rfl
  | _ => cases hpush

/-- The step that brings the local frames back to the number below a pushed one is a `POPFRAME`, and it makes that one
the temporary frame. -/
private theorem popped_frame {p : Program} {m₁ m₂ m₃ : Machine σ} {f : Frame} {rest : List Frame} {n : Nat}
    (hlocals : m₁.memory.locals = f :: rest)
    (hheight : ∀ j ≤ n, rest.length < (m₁.run p j).machine.memory.locals.length) (hrun : m₁.run p n = .running m₂)
    (hstep : m₂.step p = .running m₃) (hback : m₃.memory.locals.length = rest.length) :
    p[m₂.pc]? = some ⟨.popFrame, []⟩ ∧ m₃.memory.locals = rest ∧
      ∃ f', f.updates? (m₁.localUpdates p (rest.length + 1) n) = some f' ∧ m₃.memory.temporary = some f' := by
  have habove : f :: rest <:+ m₁.memory.locals := ⟨[], hlocals.symm⟩
  obtain ⟨f', hf', hsuffix⟩ := run_above habove hheight
  rw [hrun] at hsuffix
  rcases step_above hsuffix hstep with ⟨_, _, hlonger⟩ | ⟨hpop, hrest, htemporary⟩
  · have hlength := hlonger.length_le
    rw [hback, List.length_cons] at hlength
    omega
  · exact ⟨hpop, hrest, f', hf', htemporary⟩

/-- `PUSHFRAME` and an immediate `POPFRAME` succeed and leave all frames as they were. -/
private theorem memory_of_push_pop {p : Program} {m : Machine σ} {f : Frame} (hpush : p[m.pc]? = some ⟨.pushFrame, []⟩)
    (hpop : p[m.pc + 1]? = some ⟨.popFrame, []⟩) (hf : m.memory.temporary = some f) :
    ∃ m₂, m.run p 2 = .running m₂ ∧ m₂.memory = m.memory := by
  let pushed : Memory := { m.memory with locals := f :: m.memory.locals, temporary := none }
  have hfirst : m.step p = .running { m.enter with memory := pushed } :=
    step_eq_running_iff.2 ⟨.pushFrame, hpush, .pushFrame (Memory.push_eq_ok_iff.2 ⟨f, hf, rfl⟩)⟩
  let popped : Memory := { pushed with locals := m.memory.locals, temporary := some f }
  have hsecond : ({ m.enter with memory := pushed } : Machine σ).step p =
      .running { ({ m.enter with memory := pushed } : Machine σ).enter with memory := popped } :=
    step_eq_running_iff.2 ⟨.popFrame, hpop, .popFrame (Memory.pop_eq_ok_iff.2 ⟨f, m.memory.locals, rfl, rfl⟩)⟩
  refine ⟨_, by rw [run_succ_of_running hfirst, run_succ_of_running hsecond, run], ?_⟩
  show popped = m.memory
  simp only [popped, pushed, ← hf]

/-- While there are at least `k` local frames, the `k - 1` lowest of them stay as they are. After a `PUSHFRAME` of a
temporary frame and a run that stays above the local frames of before, only a `POPFRAME` leads back to their number. It
ends with exactly those local frames, and with the temporary frame after just the declarations and assignments that were
made through `LF` while it was the innermost local frame. With nothing in between both are as they were. -/
theorem local_frames_isolated :
    (∀ (p : Program) (m : Machine σ) (k n : Nat), 1 ≤ k →
      (∀ j ≤ n, k ≤ (m.run p j).machine.memory.locals.length) →
      (m.run p n).machine.memory.locals.reverse.take (k - 1) = m.memory.locals.reverse.take (k - 1)) ∧
    (∀ (p : Program) (m m₁ m₂ m₃ : Machine σ) (i : Instruction) (f : Frame) (n : Nat),
      p[m.pc]? = some i → i.opcode = .pushFrame → m.memory.temporary = some f → m.step p = .running m₁ →
      (∀ j ≤ n, m.memory.locals.length < (m₁.run p j).machine.memory.locals.length) → m₁.run p n = .running m₂ →
      m₂.step p = .running m₃ → m₃.memory.locals.length = m.memory.locals.length →
      p[m₂.pc]? = some ⟨.popFrame, []⟩ ∧ m₃.memory.locals = m.memory.locals ∧
        ∃ f', f.updates? (m₁.localUpdates p (m.memory.locals.length + 1) n) = some f' ∧
          m₃.memory.temporary = some f') ∧
    (∀ (p : Program) (m : Machine σ) (f : Frame), p[m.pc]? = some ⟨.pushFrame, []⟩ →
      p[m.pc + 1]? = some ⟨.popFrame, []⟩ → m.memory.temporary = some f →
      ∃ m₂, m.run p 2 = .running m₂ ∧ m₂.memory.locals = m.memory.locals ∧ m₂.memory.temporary = some f) := by
  refine ⟨?_, ?_, ?_⟩
  · intro p m k n hk hheight
    exact lowest_frames_kept hk hheight
  · intro p m m₁ m₂ m₃ i f n hi hpush hf hstep hheight hrun hpop hback
    exact popped_frame (locals_of_pushFrame hi hpush hf hstep) hheight hrun hpop hback
  · intro p m f hpush hpop hf
    obtain ⟨m₂, hrun, hmemory⟩ := memory_of_push_pop hpush hpop hf
    exact ⟨m₂, hrun, by rw [hmemory], by rw [hmemory, hf]⟩

/-- A frame that is pushed, assigned to, hidden by another one for a while, popped, and pushed and popped again. -/
theorem local_frames_isolated_nested :
    let p : Program := #[⟨.pushFrame, []⟩, ⟨.unary .move, [.var ⟨.local, "x"⟩, .const (.int 1)]⟩, ⟨.createFrame, []⟩,
      ⟨.pushFrame, []⟩, ⟨.defVar, [.var ⟨.local, "y"⟩]⟩, ⟨.popFrame, []⟩, ⟨.popFrame, []⟩, ⟨.pushFrame, []⟩,
      ⟨.popFrame, []⟩]
    let f : Frame := ⟨[("x", none)], List.pairwise_singleton _ _⟩
    let f' : Frame := ⟨[("x", some (.int 1))], List.pairwise_singleton _ _⟩
    let sink : Sink := ⟨⟨#[]⟩, none, false⟩
    let m : Machine Source := { fresh (Source.lines []) sink sink with memory := ⟨Frame.empty, [], some f⟩ }
    let m₁ := (m.step p).machine
    let hidden := (m₁.run p 3).machine
    let m₃ := (m₁.run p 6).machine
    (hidden.run p 1).machine.memory.locals.reverse.take 1 = hidden.memory.locals.reverse.take 1 ∧
      m₁.localUpdates p 1 5 = [("x", .assign (.int 1))] ∧ f.updates? [("x", .assign (.int 1))] = some f' ∧
      m₃.memory.locals = [] ∧ m₃.memory.temporary = some f' ∧
      ∃ m₄, m₃.run p 2 = .running m₄ ∧ m₄.memory.temporary = some f' := by
  intro p f f' sink m m₁ hidden m₃
  obtain ⟨hlowest, hpopped, himmediate⟩ := @local_frames_isolated Source _
  have hlowest := hlowest p hidden 2 1 (by decide) (by decide)
  have hupdates : m₁.localUpdates p 1 5 = [("x", .assign (.int 1))] := by cbv
  have hf' : f.updates? [("x", .assign (.int 1))] = some f' := rfl
  have hi : p[m.pc]? = some ⟨.pushFrame, []⟩ := rfl
  have hstep : m.step p = .running m₁ := rfl
  have hheight : ∀ j ≤ 5, m.memory.locals.length < (m₁.run p j).machine.memory.locals.length := by decide
  have hrun : m₁.run p 5 = .running (m₁.run p 5).machine := by cbv
  have hpop : (m₁.run p 5).machine.step p = .running m₃ := by cbv
  have hback : m₃.memory.locals.length = m.memory.locals.length := by cbv
  obtain ⟨_, hlocals, f₃, hf₃, htemporary⟩ := hpopped p m m₁ _ m₃ _ f 5 hi rfl rfl hstep hheight hrun hpop hback
  change f.updates? (m₁.localUpdates p 1 5) = some f₃ at hf₃
  rw [hupdates, hf'] at hf₃
  cases hf₃
  have hi₃ : p[m₃.pc]? = some ⟨.pushFrame, []⟩ := by cbv
  have hi₄ : p[m₃.pc + 1]? = some ⟨.popFrame, []⟩ := by cbv
  obtain ⟨m₄, hrun, _, htemporary₄⟩ := himmediate p m₃ f' hi₃ hi₄ htemporary
  exact ⟨hlowest, hupdates, hf', hlocals, htemporary, m₄, hrun, htemporary₄⟩

end Machine

end IPPcode23
