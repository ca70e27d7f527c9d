import IPPcode23.Command.Session
import IPPcode23.Proofs.Assembly.RoundTrip
import IPPcode23.Proofs.Load
import IPPcode23.Proofs.Machine.Reads

/-!
# Routes to the same report

The command takes its source and its input each from a file or from the standard input. Whichever of them it is, the
report is that of the execution of the program on the lines of the input text (`ends_of_gives`). The text that the
command prints for a program stands for that program, so that it can be run in place of the source.
-/

namespace IPPcode23.Command

/-! ### Arguments -/

namespace Options

/-- An argument of two hyphens and a name without an equals sign is an option of that name, with no value in it. -/
private theorem splitValue_of_argument {argument name : String} (hargument : argument = "--" ++ name)
    (hne : name.toList ≠ []) (heq : '=' ∉ name.toList) :
    ∃ c cs, argument.toList = '-' :: '-' :: c :: cs ∧ splitValue (c :: cs) = (name, none) := by
  obtain ⟨c, cs, hcs⟩ := List.exists_cons_of_ne_nil hne
  have hdrop : name.toList.dropWhile (· != '=') = [] := by
    rw [List.dropWhile_eq_nil_iff]
    intro x hx
    have hx' : x ≠ '=' := fun h => heq (h ▸ hx)
    simp [hx']
  refine ⟨c, cs, ?_, ?_⟩
  · rw [hargument, String.toList_append, hcs]
    rfl
  · rw [← hcs, splitValue, hdrop, String.ofList_toList]

private theorem read_option {o o' : Options} {argument value : String} (name : String)
    (hargument : argument = "--" ++ name) (hname : takesValue name = true) (hvalue : isValue value = true)
    (hset : o.set? name value = some o') (rest : List String) :
    o.read (argument :: value :: rest) = o'.read rest := by
  have hplain : name.toList ≠ [] ∧ '=' ∉ name.toList ∧ name ≠ "version" := by
    simp only [takesValue, Bool.or_eq_true, beq_iff_eq] at hname
    rcases hname with (rfl | rfl) | rfl <;> decide
  obtain ⟨c, cs, hlist, hsplit⟩ := splitValue_of_argument hargument hplain.1 hplain.2.1
  rw [read, hlist]
  simp only [hsplit, if_neg hplain.2.2, if_pos hname, if_pos hvalue, hset]

private theorem isEmpty_of_isValue {text : String} (h : isValue text = true) : text.isEmpty = false := by
  rw [String.isEmpty_eq_false_iff]
  rintro rfl
  cases h

private theorem read_source {o : Options} {file : String} (hfile : isValue file = true) (hfree : o.source = none)
    (rest : List String) : o.read ("--source" :: file :: rest) = { o with source := some file }.read rest :=
  read_option "source" rfl rfl hfile (by simp [set?, isEmpty_of_isValue hfile, hfree]) rest

private theorem read_input {o : Options} {file : String} (hfile : isValue file = true) (hfree : o.input = none)
    (rest : List String) : o.read ("--input" :: file :: rest) = { o with input := some file }.read rest :=
  read_option "input" rfl rfl hfile (by simp [set?, isEmpty_of_isValue hfile, hfree]) rest

private theorem read_format {o : Options} {word : String} {f : Format} (hword : Format.ofWord? word = some f)
    (hfree : o.format = none) (rest : List String) :
    o.read ("--format" :: word :: rest) = { o with format := some f }.read rest := by
  have hvalue : isValue word = true := by
    unfold Format.ofWord? at hword
    split at hword
    case h_1 => decide
    case h_2 => decide
    case h_3 => cases hword
  exact read_option "format" rfl rfl hvalue (by simp [set?, isEmpty_of_isValue hvalue, hfree, hword]) rest

private theorem read_disassemble {o : Options} (hfree : o.disassemble = false) (rest : List String) :
    o.read ("--disassemble" :: rest) = { o with disassemble := true }.read rest := by
  have hargument : "--disassemble" = "--" ++ "disassemble" := rfl
  obtain ⟨c, cs, hlist, hsplit⟩ := splitValue_of_argument hargument (by decide) (by decide)
  have hflag : o.flag? "disassemble" = some { o with disassemble := true } := by simp [flag?, hfree]
  have htakes : takesValue "disassemble" = false := by decide
  rw [read, hlist]
  simp [hsplit, hflag, htakes]

end Options

/-! ### Sources and inputs -/

/-- A host has a text in the file that an option names, or on the standard input if there is no such option. -/
def Host.Gives (host : Host Id) (name? : Option String) (text : String) : Prop :=
  match name? with
  | some name => host.file name = .ok text.toUTF8
  | none => host.standardInput = text.toUTF8

private theorem decodeText_toUTF8 (text : String) : decodeText text.toUTF8 = .ok text := by
  have h : String.fromUTF8? text.toUTF8 = some text := by
    simp only [String.fromUTF8?, String.toUTF8_eq_toByteArray, dif_pos text.isValidUTF8]
    rfl
  rw [decodeText, h]

section

variable {host : Host Id} {o : Options} {text : String}

private theorem readText_of_file {name : String} (h : host.file name = .ok text.toUTF8) :
    Id.run (readText host name) = .ok text := by
  have hread : Id.run (readText host name) = (Id.run (host.file name)).bind decodeText := rfl
  have hfile : Id.run (host.file name) = .ok text.toUTF8 := h
  rw [hread, hfile]
  exact decodeText_toUTF8 text

private theorem readSource_of_gives (h : host.Gives o.source text) : Id.run (readSource host o) = .ok text := by
  unfold readSource
  cases hsource : o.source with
  | some name =>
    rw [hsource] at h
    show (Id.run (readText host name)).mapError _ = _
    rw [readText_of_file h]
    rfl
  | none =>
    rw [hsource] at h
    show (decodeText (Id.run host.standardInput)).mapError _ = _
    have hinput : Id.run host.standardInput = text.toUTF8 := h
    rw [hinput, decodeText_toUTF8]
    rfl

/-- The input that is opened holds the lines of the text, wherever the text comes from. -/
private theorem openInput_of_gives (h : host.Gives o.input text) :
    ∃ source, Id.run (openInput host o) = .ok source ∧ Input.Supplies source (Text.lines text) := by
  unfold openInput
  cases hinput : o.input with
  | some name =>
    rw [hinput] at h
    refine ⟨.ofText text, ?_, Source.supplies_ofText text⟩
    show ((Id.run (readText host name)).map Source.ofText).mapError _ = _
    rw [readText_of_file h]
    rfl
  | none =>
    rw [hinput] at h
    have hbytes : Id.run host.standardInput = text.toUTF8 := h
    refine ⟨.bytes text.toUTF8.toList, ?_, Source.supplies_bytes_toUTF8 text⟩
    show Except.ok (Source.bytes (Id.run host.standardInput).toList) = _
    rw [hbytes]

private theorem loadProgram_of_gives {p : Program} (h : host.Gives o.source text)
    (hload : (o.format.getD .xml).load text = .ok p) : Id.run (loadProgram host o) = .ok p := by
  show (Id.run (readSource host o)).bind _ = _
  rw [readSource_of_gives h]
  show ((o.format.getD .xml).load text).mapError _ = _
  rw [hload]
  rfl

end

/-! ### Reports -/

/-- Given enough steps, the command is over and leaves a report behind. -/
def Ends (host : Host Id) (arguments : List String) (r : Report) : Prop :=
  ∃ n, ∀ k, n ≤ k → report? host arguments k = some r

/-- What an execution leaves behind depends on the lines of its input, not on the form that it has them in. -/
private theorem ofProgress?_of_supplies {p : Program} {n : Nat} {source source' : Source} {lines : List String}
    (h : Input.Supplies source lines) (h' : Input.Supplies source' lines) :
    Report.ofProgress? (Machine.executeFor p n { input := source' }) =
      Report.ofProgress? (Machine.executeFor p n { input := source }) := by
  have hreport : ∀ progress : Progress Source,
      Report.ofProgress? (progress.map Machine.withoutInput) = Report.ofProgress? progress := by
    intro progress
    cases progress <;> rfl
  let m : Machine Source := { input := source }
  let m' : Machine Source := { input := source' }
  have hshares : Machine.SharesAnswers (0 + (m.executionSteps p n).countP (Machine.reads p)) m m' :=
    .of_supplies rfl h h' rfl
  have hexecute := hshares.executeFor.1
  rw [← hreport, ← hreport (Machine.executeFor p n m), ← hexecute]

private theorem ofProgress?_of_le {p : Program} {m : Machine Source} {n k : Nat} {r : Report}
    (h : Report.ofProgress? (m.executeFor p n) = some r) (hle : n ≤ k) :
    Report.ofProgress? (m.executeFor p k) = some r := by
  have hanswer : (m.executeFor p n).answer?.isSome := by
    cases hprogress : m.executeFor p n with
    | running => rw [hprogress] at h; cases h
    | halted | failed => rfl
  rw [(Machine.executeFor_of_answer hanswer hle).1]
  exact h

private theorem prepare_of_disassemble {host : Host Id} {o : Options} {p : Program}
    (hload : Id.run (loadProgram host o) = .ok p) (h : o.disassemble = true) :
    Id.run (prepare host o) = .finished (.printed (Assembly.disassemble p)) := by
  unfold prepare
  simp only [Id.run_bind, hload, h]
  rfl

private theorem prepare_of_openInput {host : Host Id} {o : Options} {p : Program} {source : Source}
    (hload : Id.run (loadProgram host o) = .ok p) (h : o.disassemble = false)
    (hopen : Id.run (openInput host o) = .ok source) :
    Id.run (prepare host o) = .ready p { input := source } := by
  unfold prepare
  simp only [Id.run_bind, hload, h, Bool.false_eq_true, if_false, hopen]
  rfl

/-- Wherever the source and the input come from, the command leaves behind what the execution of the program does. -/
theorem ends_of_gives {host : Host Id} {arguments : List String} {o : Options} {S I : String} {p : Program} {n : Nat}
    {r : Report} (hrequest : Request.ofArguments arguments = .program o) (hrun : o.disassemble = false)
    (hsource : host.Gives o.source S) (hinput : host.Gives o.input I)
    (hload : (o.format.getD .xml).load S = .ok p)
    (hstop : Report.ofProgress? (Machine.executeFor p n { input := Source.ofText I }) = some r) :
    Ends host arguments r := by
  obtain ⟨source, hopen, hlines⟩ := openInput_of_gives hinput
  have hprepare := prepare_of_openInput (loadProgram_of_gives hsource hload) hrun hopen
  refine ⟨n, fun k hle => ?_⟩
  have hreport : report? host arguments k =
      Report.ofProgress? (Machine.executeFor p k { input := source }) := by
    unfold report? plan
    rw [hrequest]
    simp only [hprepare]
  rw [hreport, ofProgress?_of_supplies (Source.supplies_ofText I) hlines]
  exact ofProgress?_of_le hstop hle

/-- A program is printed without an input being opened. -/
private theorem ends_of_disassemble {host : Host Id} {arguments : List String} {o : Options} {S : String} {p : Program}
    (hrequest : Request.ofArguments arguments = .program o) (h : o.disassemble = true)
    (hsource : host.Gives o.source S) (hload : (o.format.getD .xml).load S = .ok p) :
    Ends host arguments (.printed (Assembly.disassemble p)) := by
  have hprepare := prepare_of_disassemble (loadProgram_of_gives hsource hload) h
  refine ⟨0, fun k _ => ?_⟩
  unfold report? plan
  rw [hrequest]
  simp only [hprepare]

/-- A source that loads is run on an input text on which its program comes to an end. The report is the same whether
both come from files, or one of them from the standard input, or the source is first printed as assembly text and that
text is run in its place. -/
theorem routes_leave_same_report (f : Format) (word S I : String) (p : Program) (n : Nat) (r : Report)
    (hword : Format.ofWord? word = some f) (hload : f.load S = .ok p)
    (hstop : Report.ofProgress? (Machine.executeFor p n { input := Source.ofText I }) = some r) (s i d : String)
    (hs : Options.isValue s = true) (hi : Options.isValue i = true) (hd : Options.isValue d = true) :
    (∀ host : Host Id, host.file s = .ok S.toUTF8 → host.file i = .ok I.toUTF8 →
      Ends host ["--source", s, "--format", word, "--input", i] r) ∧
    (∀ host : Host Id, host.file s = .ok S.toUTF8 → host.standardInput = I.toUTF8 →
      Ends host ["--source", s, "--format", word] r) ∧
    (∀ host : Host Id, host.file i = .ok I.toUTF8 → host.standardInput = S.toUTF8 →
      Ends host ["--input", i, "--format", word] r) ∧
    ∃ D : Report, D.exitCode = 0 ∧
      (∀ host : Host Id, host.file s = .ok S.toUTF8 →
        Ends host ["--source", s, "--format", word, "--disassemble"] D) ∧
      ∀ host : Host Id, host.file d = .ok D.output → host.file i = .ok I.toUTF8 →
        Ends host ["--source", d, "--format", "text", "--input", i] r := by
  refine ⟨?_, ?_, ?_, .printed (Assembly.disassemble p), rfl, ?_, ?_⟩
  · intro host hsource hinput
    have hrequest : Request.ofArguments ["--source", s, "--format", word, "--input", i] =
        .program { source := some s, format := some f, input := some i } := by
      rw [Request.ofArguments, Options.read_source hs rfl, Options.read_format hword rfl, Options.read_input hi rfl]
      rfl
    exact ends_of_gives hrequest rfl hsource hinput hload hstop
  · intro host hsource hinput
    have hrequest : Request.ofArguments ["--source", s, "--format", word] =
        .program { source := some s, format := some f } := by
      rw [Request.ofArguments, Options.read_source hs rfl, Options.read_format hword rfl]
      rfl
    exact ends_of_gives hrequest rfl hsource hinput hload hstop
  · intro host hinput hsource
    have hrequest : Request.ofArguments ["--input", i, "--format", word] =
        .program { input := some i, format := some f } := by
      rw [Request.ofArguments, Options.read_input hi rfl, Options.read_format hword rfl]
      rfl
    exact ends_of_gives hrequest rfl hsource hinput hload hstop
  · intro host hsource
    have hrequest : Request.ofArguments ["--source", s, "--format", word, "--disassemble"] =
        .program { source := some s, format := some f, disassemble := true } := by
      rw [Request.ofArguments, Options.read_source hs rfl, Options.read_format hword rfl, Options.read_disassemble rfl]
      rfl
    exact ends_of_disassemble hrequest rfl hsource hload
  · intro host hsource hinput
    have hrequest : Request.ofArguments ["--source", d, "--format", "text", "--input", i] =
        .program { source := some d, format := some .text, input := some i } := by
      rw [Request.ofArguments, Options.read_source hd rfl, Options.read_format rfl rfl, Options.read_input hi rfl]
      rfl
    -- what was printed stands for the program, since every program that loads is valid
    have hprinted : Format.text.load (Assembly.disassemble p) = .ok p :=
      Assembly.assemble_disassemble (Format.load_valid hload)
    exact ends_of_gives hrequest rfl hsource hinput hprinted hstop

/-- A program that ends with an error, whose position is that of the instruction whatever lines stand between. -/
theorem routes_leave_same_report_of_error :
    let S := ".ippcode23 # echo\ndefvar GF@x\n\nREAD GF@x string\nWRITE GF@x\r\nEXIT GF@x"
    let I := "é\r\n1"
    let r : Report := ⟨"é".toUTF8, .empty, .error (.run ⟨3, .typeMismatch .exit⟩)⟩
    let host (source input : ByteArray) : Host Id := ⟨fun name => .ok (if name = "i" then I.toUTF8 else source), input⟩
    Ends (host S.toUTF8 .empty) ["--source", "s", "--format", "text", "--input", "i"] r ∧
      Ends (host S.toUTF8 I.toUTF8) ["--source", "s", "--format", "text"] r ∧
      Ends (host .empty S.toUTF8) ["--input", "i", "--format", "text"] r ∧
      ∃ D, Ends (host S.toUTF8 .empty) ["--source", "s", "--format", "text", "--disassemble"] D ∧
        Ends (host D.output .empty) ["--source", "d", "--format", "text", "--input", "i"] r := by
  intro S I r host
  let x : Variable := ⟨.global, "x"⟩
  let p : Program := #[⟨.defVar, [.var x]⟩, ⟨.read, [.var x, .type .string]⟩, ⟨.write, [.var x]⟩, ⟨.exit, [.var x]⟩]
  have hload : Format.text.load S = .ok p := by decide
  have hstop : Report.ofProgress? (Machine.executeFor p 4 { input := Source.ofText I }) = some r := by
    simp only [p, x, I, r]
    rfl
  obtain ⟨hfiles, hinput, hsource, D, _, hprinted, hback⟩ :=
    routes_leave_same_report .text "text" S I p 4 r rfl hload hstop "s" "i" "d" rfl rfl rfl
  exact ⟨hfiles _ rfl rfl, hinput _ rfl rfl, hsource _ rfl rfl, D, hprinted _ rfl, hback _ rfl rfl⟩

end IPPcode23.Command
