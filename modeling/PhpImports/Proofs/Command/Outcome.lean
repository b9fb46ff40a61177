import PhpImports.Proofs.Command.Output
import PhpImports.Proofs.Lexeme.Fault
import PhpImports.Proofs.Text.Utf8
import PhpImports.Proofs.Text.WholeEnding

/-!
# Outcomes of runs

A run is refused, with exit code 2, for its words or for what is found at the one path among them
(`run_cases`). As long as a text has fewer than 2 ^ 32 bytes, only a check of it can fail otherwise,
and what it fails for is an error of the text: all that is reported of statements are warnings. So
the exit code is a matter of the command, the path, the text at it and whether short tags count, and
the clock has no say but in the times that are printed (`run_outcome`). In a longer text a check can
meet a fault, which has an exit code of its own (`not_run_outcome`).
-/

namespace PhpImports

/-- The words that are no flags. -/
def fileWords (ws : List Text) : List Text :=
  ws.filter (!Flags.words.contains ·)

/-- Why the words of a run, or the file they name, are not accepted. -/
inductive Refused (fs : FileSystem) : List Text → Prop
  | empty : Refused fs []
  | option {word w : Text} {ws : List Text} (among : w ∈ ws) (dashes : "--".toList <+: w) :
    Refused fs (word :: ws)
  | command {word : Text} {ws : List Text}
      (unknown : word ∉ ["tokens".toList, "uses".toList, "check".toList]) : Refused fs (word :: ws)
  | files {word : Text} {ws : List Text} (count : (fileWords ws).length ≠ 1) :
    Refused fs (word :: ws)
  | reading {word path : Text} {ws : List Text} (file : fileWords ws = [path])
      (fails : ∀ bytes, fs path ≠ .file bytes) : Refused fs (word :: ws)

/-- The words ask to check a file whose text is at fault, its statements aside. -/
inductive ChecksFault (fs : FileSystem) : List Text → Prop
  | intro {path : Text} {ws : List Text} {bytes : List UInt8} (file : fileWords ws = [path])
      (found : fs path = .file bytes)
      (fault : ((Text.decode bytes).unifyLineEndings.lex
        (ws.contains "short-tags".toList)).diagnostics ≠ []) :
    ChecksFault fs ("check".toList :: ws)

/-- The words are accepted: they ask for this invocation, and its file holds these bytes. -/
inductive Accepted (fs : FileSystem) : List Text → Invocation → List UInt8 → Prop
  | intro {word path : Text} {ws : List Text} {command : Command} {bytes : List UInt8}
      (options : ∀ w ∈ ws, ¬ "--".toList <+: w) (known : Command.ofWord? word = some command)
      (file : fileWords ws = [path]) (found : fs path = .file bytes) :
    Accepted fs (word :: ws) ⟨command, .ofWords ws, path⟩ bytes

/-- If the words are accepted, no offset into the text of their file wraps around. -/
def ReadsShort (fs : FileSystem) (args : List Text) : Prop :=
  ∀ i bytes, Accepted fs args i bytes →
    (Text.decode bytes).unifyLineEndings.size < UInt32.size

section Words

variable {word : Text} {ws ws' : List Text}

theorem isOption_iff : isOption word = true ↔ "--".toList <+: word :=
  List.isPrefixOf_iff_prefix

theorem isOption_of_mem_words (h : word ∈ Flags.words) : isOption word = false := by
  have hall : ∀ w ∈ Flags.words, isOption w = false := by decide
  exact hall word h

theorem mem_fileWords {w : Text} : w ∈ fileWords ws ↔ w ∈ ws ∧ w ∉ Flags.words := by
  simp [fileWords]

theorem Command.ofWord?_eq_none_iff :
    ofWord? word = none ↔ word ∉ ["tokens".toList, "uses".toList, "check".toList] := by
  rw [ofWord?]
  split_ifs with htokens huses hcheck
  · simp [htokens]
  · simp [huses]
  · simp [hcheck]
  · exact iff_of_true rfl (by simpa using ⟨htokens, huses, hcheck⟩)

/-- The word that a command is called by. -/
def Command.name : Command → Text
  | .tokens => "tokens".toList
  | .uses => "uses".toList
  | .check => "check".toList

theorem Command.ofWord?_eq_some_iff {command : Command} :
    ofWord? word = some command ↔ word = command.name := by
  constructor
  · intro h
    rw [ofWord?] at h
    split_ifs at h <;> cases h <;> assumption
  · rintro rfl
    cases command <;> rfl

/-- Options are no flags, so they are among the words that are none. -/
theorem find?_isOption_fileWords (ws : List Text) :
    (fileWords ws).find? isOption = ws.find? isOption := by
  rw [fileWords, List.find?_filter]
  congr 1
  funext w
  cases hw : Flags.words.contains w with
  | false => simp
  | true => simp [isOption_of_mem_words (List.contains_iff_mem.1 hw)]

theorem Flags.ofWords_congr (h : ∀ w ∈ Flags.words, w ∈ ws ↔ w ∈ ws') :
    ofWords ws = ofWords ws' := by
  have hcontains : ∀ w ∈ Flags.words, ws.contains w = ws'.contains w := by
    intro w hw
    rw [Bool.eq_iff_iff, List.contains_iff_mem, List.contains_iff_mem]
    exact h w hw
  simp only [words, List.forall_mem_cons] at hcontains
  obtain ⟨hjson, hshort, hdiags, htiming, -⟩ := hcontains
  rw [ofWords, ofWords, hjson, hshort, hdiags, htiming]

end Words

namespace Invocation

variable {word : Text} {ws : List Text} {command : Command}

theorem parse_of_file {path : Text} (hoptions : ws.find? isOption = none)
    (hcommand : Command.ofWord? word = some command) (hfile : fileWords ws = [path]) :
    parse (word :: ws) = .ok ⟨command, .ofWords ws, path⟩ := by
  rw [fileWords] at hfile
  simp only [parse, hoptions, hcommand, hfile]

theorem parse_of_files (hoptions : ws.find? isOption = none)
    (hcommand : Command.ofWord? word = some command) (hcount : (fileWords ws).length ≠ 1) :
    parse (word :: ws) = .error .missingFile := by
  simp only [parse, hoptions, hcommand]
  split
  · next path hfile =>
    rw [fileWords, hfile] at hcount
    exact absurd rfl hcount
  · rfl

end Invocation

/-- Flags and a path that is like none of them, behind the name of a command. -/
theorem accepted_of_path {fs : FileSystem} {path : Text} {bytes : List UInt8} (command : Command)
    (hflag : path ∉ Flags.words) (hdashes : ¬ "--".toList <+: path) {ws : List Text}
    (hws : ws ⊆ Flags.words) (found : fs path = .file bytes) :
    Accepted fs (command.name :: (ws ++ [path])) ⟨command, .ofWords ws, path⟩ bytes := by
  have hflags : Flags.ofWords ws = .ofWords (ws ++ [path]) := by
    refine Flags.ofWords_congr fun w hw => ?_
    have hne : w ≠ path := fun h => hflag (h ▸ hw)
    simp [hne]
  have hfile : fileWords (ws ++ [path]) = [path] := by
    have hnone : fileWords ws = [] := by
      refine List.eq_nil_iff_forall_not_mem.2 fun w hw => ?_
      exact (mem_fileWords.1 hw).2 (hws (mem_fileWords.1 hw).1)
    rw [fileWords, List.filter_append, ← fileWords, hnone]
    simpa using hflag
  rw [hflags]
  refine .intro (fun w hw => ?_) (Command.ofWord?_eq_some_iff.2 rfl) hfile found
  rcases List.mem_append.1 hw with hw | hw
  · rw [← isOption_iff, isOption_of_mem_words (hws hw)]
    exact Bool.false_ne_true
  · rwa [List.mem_singleton.1 hw]

theorem UsageError.lines_ne_nil (e : UsageError) : e.lines ≠ [] := by
  cases e <;> exact List.cons_ne_nil _ _

section Run

variable {fs : FileSystem} {args : List Text} {i : Invocation} {bytes : List UInt8}

theorem Accepted.run_eq (h : Accepted fs args i bytes) (clock : Clock) :
    run fs args clock = i.report clock (.ofText i.path (Text.decode bytes)) := by
  obtain ⟨options, known, file, found⟩ := h
  have hoptions := List.find?_eq_none.2 fun w hw => mt isOption_iff.1 (options w hw)
  rw [run, Invocation.parse_of_file hoptions known file]
  simp only [Invocation.outcome, found, Source.ofFound]

theorem Accepted.not_refused (h : Accepted fs args i bytes) : ¬ Refused fs args := by
  obtain ⟨options, known, file, found⟩ := h
  rintro (_ | @⟨_, w, _, among, dashes⟩ | unknown | count | ⟨file', fails⟩)
  · exact options w among dashes
  · rw [Command.ofWord?_eq_none_iff.2 unknown] at known
    cases known
  · exact count (by rw [file]; rfl)
  · rw [file] at file'
    cases file'
    exact fails _ found

theorem Accepted.checksFault_iff (h : Accepted fs args i bytes) :
    ChecksFault fs args ↔ i.command = .check ∧
      ((Text.decode bytes).unifyLineEndings.lex i.flags.shortTags).diagnostics ≠ [] := by
  obtain @⟨word, path, ws, command, bytes, options, known, file, found⟩ := h
  constructor
  · rintro @⟨path', _, bytes', file', found', fault⟩
    have hcheck : command = .check :=
      Option.some.inj (known.symm.trans (Command.ofWord?_eq_some_iff.2 rfl))
    obtain rfl : path = path' := List.head_eq_of_cons_eq (file.symm.trans file')
    obtain rfl : bytes = bytes' := Found.file.inj (found.symm.trans found')
    exact ⟨hcheck, fault⟩
  · rintro ⟨hcheck, fault⟩
    obtain rfl : command = .check := hcheck
    obtain rfl : word = "check".toList := Command.ofWord?_eq_some_iff.1 known
    exact .intro file found fault

theorem run_of_parse_error {e : UsageError} (h : Invocation.parse args = .error e) :
    ∃ ls, ls ≠ [] ∧ ∀ clock, run fs args clock = .refused ls := by
  refine ⟨e.lines, e.lines_ne_nil, fun clock => ?_⟩
  rw [run, h]

/-- A run is refused, whatever its clock, or its words are accepted. -/
theorem run_cases (fs : FileSystem) (args : List Text) :
    (Refused fs args ∧ ∃ ls, ls ≠ [] ∧ ∀ clock, run fs args clock = .refused ls) ∨
      ∃ i bytes, Accepted fs args i bytes := by
  cases args with
  | nil => exact Or.inl ⟨.empty, run_of_parse_error rfl⟩
  | cons word ws =>
    cases hoptions : ws.find? isOption with
    | some option =>
      have hparse : Invocation.parse (word :: ws) = .error (.unknownOption option) := by
        simp only [Invocation.parse, hoptions]
      exact Or.inl ⟨.option (List.mem_of_find?_eq_some hoptions)
        (isOption_iff.1 (List.find?_some hoptions)), run_of_parse_error hparse⟩
    | none =>
      cases hcommand : Command.ofWord? word with
      | none =>
        have hparse : Invocation.parse (word :: ws) = .error (.unknownCommand word) := by
          simp only [Invocation.parse, hoptions, hcommand]
        exact Or.inl ⟨.command (Command.ofWord?_eq_none_iff.1 hcommand), run_of_parse_error hparse⟩
      | some command =>
        by_cases hcount : (fileWords ws).length = 1
        · obtain ⟨path, hfile⟩ := List.length_eq_one_iff.1 hcount
          have hparse := Invocation.parse_of_file hoptions hcommand hfile
          have hrun (clock : Clock) : run fs (word :: ws) clock =
              Invocation.outcome ⟨command, .ofWords ws, path⟩ clock (fs path) := by
            rw [run, hparse]
          cases hfound : fs path with
          | file bytes =>
            have hwords : ∀ w ∈ ws, ¬ "--".toList <+: w := fun w hw =>
              mt isOption_iff.2 (List.find?_eq_none.1 hoptions w hw)
            exact Or.inr ⟨_, bytes, .intro hwords hcommand hfile hfound⟩
          | directory | unreadable reason =>
            rw [hfound] at hrun
            exact Or.inl ⟨.reading hfile (by simp [hfound]), _, List.cons_ne_nil _ _, hrun⟩
        · exact Or.inl ⟨.files hcount,
            run_of_parse_error (Invocation.parse_of_files hoptions hcommand hcount)⟩

end Run

/-! What is printed has no say in the exit code, and what is reported of statements neither. -/

theorem ImportReport.any_isError_iff (shortTags : Bool) (source : Source) :
    (ofSource shortTags source).diagnostics.any (·.isError) = true ↔
      (source.text.lex shortTags).diagnostics ≠ [] := by
  rw [List.any_eq_true]
  constructor
  · rintro ⟨d, hd, herror⟩ hnone
    rcases List.mem_append.1 hd with hd | hd
    · rw [hnone] at hd
      cases hd
    · rw [Diagnostic.isError, FileImports.warns_ofPieces _ d hd] at herror
      cases herror
  · intro hsome
    obtain ⟨d, hd⟩ := List.exists_mem_of_ne_nil _ hsome
    exact ⟨d, List.mem_append_left _ hd, decide_eq_true (severity_of_mem_diagnostics_lex hd)⟩

theorem Flags.exitCode_printUses (f : Flags) (clock : Clock) {r : ImportReport}
    (hsize : r.source.text.size < UInt32.size) : (f.printUses clock r).exitCode = 0 := by
  cases hjson : f.json with
  | true =>
    obtain ⟨items, -, hvalue⟩ := ImportReport.exists_json (!f.noDiags) f.timing hsize
    rw [f.printUses_of_json clock r hjson, hvalue]
    rfl
  | false =>
    have hprinted := Source.exitCode_printDiagnostics hsize false
      (if f.noDiags then [] else r.diagnostics)
    rw [f.printUses_of_plain clock r hjson, Outcome.exitCode_andThen_of_zero]
    rw [Outcome.exitCode_andThen_of_zero rfl, hprinted]

theorem Invocation.exitCode_report (i : Invocation) (clock : Clock) {source : Source}
    (hsize : source.text.size < UInt32.size) :
    (i.report clock source).exitCode =
      if i.command = .check ∧ (source.text.lex i.flags.shortTags).diagnostics ≠ [] then 1
      else 0 := by
  have hprinted := Source.exitCode_printDiagnostics hsize
  rw [report]
  cases hcommand : i.command with
  | tokens => exact (Outcome.exitCode_andThen_of_zero rfl).trans (hprinted _ _)
  | uses => exact i.flags.exitCode_printUses clock hsize
  | check =>
    simp only [true_and, ← ImportReport.any_isError_iff i.flags.shortTags source]
    exact Outcome.exitCode_andThen_of_zero (hprinted _ _)

/-- Whatever the size of the source, the exit code is not that of a refused run. -/
theorem Invocation.exitCode_report_ne (i : Invocation) (clock : Clock) (source : Source) :
    (i.report clock source).exitCode ≠ 2 := by
  rw [report]
  cases i.command with
  | tokens => exact Outcome.exitCode_andThen_ne (source.exitCode_printDiagnostics_ne _ _)
  | uses =>
    simp only [Flags.printUses]
    split
    · cases ImportReport.json _ _ _ clock with
      | ok v => exact (by decide : (0 : UInt32) ≠ 2)
      | error e => exact (by decide : Outcome.faultCode ≠ 2)
    · exact Outcome.exitCode_andThen_ne (by decide : (0 : UInt32) ≠ 2)
  | check =>
    refine Outcome.exitCode_andThen_ne ?_
    dsimp only
    split <;> decide

section Codes

variable {fs : FileSystem} {args : List Text} (clock : Clock)

theorem exitCode_run_eq_two_iff : (run fs args clock).exitCode = 2 ↔ Refused fs args := by
  rcases run_cases fs args with ⟨hrefused, ls, -, hrun⟩ | ⟨i, bytes, haccepted⟩
  · rw [hrun]
    exact iff_of_true rfl hrefused
  · rw [haccepted.run_eq clock]
    exact iff_of_false (i.exitCode_report_ne clock _) haccepted.not_refused

open Classical in
theorem exitCode_run (hshort : ReadsShort fs args) :
    (run fs args clock).exitCode =
      if Refused fs args then 2 else if ChecksFault fs args then 1 else 0 := by
  rcases run_cases fs args with ⟨hrefused, ls, -, hrun⟩ | ⟨i, bytes, haccepted⟩
  · rw [hrun, if_pos hrefused]
    rfl
  · have hsize := hshort i bytes haccepted
    rw [haccepted.run_eq clock, if_neg haccepted.not_refused, i.exitCode_report clock hsize]
    simp only [haccepted.checksFault_iff]
    rfl

end Codes

section Flags

variable {fs : FileSystem} {word : Text} {ws ws' : List Text}

/-- Options are told by the words that are no flags. -/
theorem mem_of_dashes {w : Text} (hfiles : fileWords ws = fileWords ws') (hw : w ∈ ws)
    (dashes : "--".toList <+: w) : w ∈ ws' := by
  have hflag : w ∉ Flags.words := by
    intro hflag
    have hoption := isOption_iff.2 dashes
    rw [isOption_of_mem_words hflag] at hoption
    cases hoption
  have hmem : w ∈ fileWords ws' := hfiles ▸ mem_fileWords.2 ⟨hw, hflag⟩
  exact (mem_fileWords.1 hmem).1

theorem Refused.congr (h : Refused fs (word :: ws)) (hfiles : fileWords ws = fileWords ws') :
    Refused fs (word :: ws') := by
  rcases h with _ | ⟨among, dashes⟩ | unknown | count | ⟨file, fails⟩
  · exact .option (mem_of_dashes hfiles among dashes) dashes
  · exact .command unknown
  · exact .files (hfiles ▸ count)
  · exact .reading (hfiles ▸ file) fails

theorem ChecksFault.congr (h : ChecksFault fs (word :: ws)) (hfiles : fileWords ws = fileWords ws')
    (hshort : "short-tags".toList ∈ ws ↔ "short-tags".toList ∈ ws') :
    ChecksFault fs (word :: ws') := by
  obtain ⟨file, found, fault⟩ := h
  have hcontains : ws.contains "short-tags".toList = ws'.contains "short-tags".toList := by
    rw [Bool.eq_iff_iff, List.contains_iff_mem, List.contains_iff_mem]
    exact hshort
  exact .intro (hfiles ▸ file) found (hcontains ▸ fault)

theorem ReadsShort.congr (h : ReadsShort fs (word :: ws)) (hfiles : fileWords ws = fileWords ws') :
    ReadsShort fs (word :: ws') := by
  rintro i bytes ⟨options, known, file, found⟩
  refine h _ bytes (.intro (fun w hw dashes => ?_) known (hfiles ▸ file) found)
  exact options w (mem_of_dashes hfiles hw dashes) dashes

/-- The flags that only bear on what is printed. -/
def Flags.printing : List Text :=
  ["json".toList, "no-diags".toList, "timing".toList]

theorem fileWords_filter_printing (ws : List Text) :
    fileWords (ws.filter (· ∉ Flags.printing)) = fileWords ws := by
  have hsubset : ∀ w ∈ Flags.printing, w ∈ Flags.words := by decide
  rw [fileWords, fileWords, List.filter_filter]
  congr 1
  funext w
  by_cases hw : w ∈ Flags.printing
  · simp [hsubset w hw]
  · simp [hw]

theorem exitCode_run_congr (hread : ReadsShort fs (word :: ws))
    (hfiles : fileWords ws = fileWords ws')
    (hshort : "short-tags".toList ∈ ws ↔ "short-tags".toList ∈ ws') (clock clock' : Clock) :
    (run fs (word :: ws) clock).exitCode = (run fs (word :: ws') clock').exitCode := by
  have hrefused : Refused fs (word :: ws) ↔ Refused fs (word :: ws') :=
    ⟨fun h => h.congr hfiles, fun h => h.congr hfiles.symm⟩
  have hfault : ChecksFault fs (word :: ws) ↔ ChecksFault fs (word :: ws') :=
    ⟨fun h => h.congr hfiles hshort, fun h => h.congr hfiles.symm hshort.symm⟩
  classical
  rw [exitCode_run clock hread, exitCode_run clock' (hread.congr hfiles)]
  exact if_congr hrefused rfl (if_congr hfault rfl rfl)

theorem parse_congr (hfiles : fileWords ws = fileWords ws')
    (hflags : ∀ w ∈ Flags.words, w ∈ ws ↔ w ∈ ws') :
    Invocation.parse (word :: ws) = Invocation.parse (word :: ws') := by
  have hoptions : ws.find? isOption = ws'.find? isOption := by
    rw [← find?_isOption_fileWords ws, hfiles, find?_isOption_fileWords ws']
  rw [fileWords, fileWords] at hfiles
  simp only [Invocation.parse, hoptions, hfiles, Flags.ofWords_congr hflags]

end Flags

/-- The command prints the times on standard output, where they are wanted. -/
def PrintsTimes (word : Text) (ws : List Text) : Prop :=
  word = "uses".toList ∧ "json".toList ∈ ws ∧ "timing".toList ∈ ws

section Clocks

variable (clock clock' : Clock)

theorem Invocation.sameButTimes_report (i : Invocation) (source : Source) :
    (i.report clock source).SameButTimes (i.report clock' source) ∧
      ((i.command = .uses → i.flags.json = false ∨ i.flags.timing = false) →
        (i.report clock source).stdout = (i.report clock' source).stdout) := by
  have hprinted := i.flags.sameButTimes_printUses clock clock'
  rw [report, report]
  cases i.command with
  | tokens | check => exact ⟨.refl _, fun _ => rfl⟩
  | uses => exact ⟨(hprinted _).1, fun h => (hprinted _).2 (h rfl)⟩

/-- Two runs of the same words are the same but for the times. -/
theorem sameButTimes_run (fs : FileSystem) (word : Text) (ws : List Text) :
    (run fs (word :: ws) clock).SameButTimes (run fs (word :: ws) clock') ∧
      (¬ PrintsTimes word ws →
        (run fs (word :: ws) clock).stdout = (run fs (word :: ws) clock').stdout) := by
  rcases run_cases fs (word :: ws) with ⟨-, ls, -, hrun⟩ | ⟨i, bytes, haccepted⟩
  · rw [hrun, hrun]
    exact ⟨.refl _, fun _ => rfl⟩
  · obtain ⟨hsame, hstdout⟩ := i.sameButTimes_report clock clock'
      (.ofText i.path (Text.decode bytes))
    rw [haccepted.run_eq clock, haccepted.run_eq clock']
    refine ⟨hsame, fun hnone => hstdout fun huses => ?_⟩
    obtain ⟨-, known, -, -⟩ := haccepted
    obtain rfl : _ = Command.uses := huses
    by_contra htimed
    simp only [Flags.ofWords, not_or, Bool.not_eq_false, List.contains_iff_mem] at htimed
    exact hnone ⟨Command.ofWord?_eq_some_iff.1 known, htimed⟩

end Clocks

/-- A run is refused with exit code 2, with nothing on standard output and something on standard
error; otherwise, if the text is not too long, it ends with 1 if it checks a text that is at fault,
and with 0 if not. The flags for printing have no say in that. The place and the number of the flags
have none in anything, and neither has the clock, the times aside. -/
theorem run_outcome (fs : FileSystem) (clock : Clock) :
    (∀ args,
      ((run fs args clock).exitCode = 2 ↔ Refused fs args) ∧
      (Refused fs args → (run fs args clock).stdout = [] ∧ (run fs args clock).stderr ≠ []) ∧
      (ReadsShort fs args →
        ((run fs args clock).exitCode = 1 ↔ ¬ Refused fs args ∧ ChecksFault fs args) ∧
        ((run fs args clock).exitCode = 0 ↔ ¬ Refused fs args ∧ ¬ ChecksFault fs args))) ∧
    ∀ word ws ws' clock',
      (ReadsShort fs (word :: ws) →
        ws.filter (· ∉ Flags.printing) = ws'.filter (· ∉ Flags.printing) →
        (run fs (word :: ws) clock).exitCode = (run fs (word :: ws') clock').exitCode) ∧
      (fileWords ws = fileWords ws' → (∀ w ∈ Flags.words, w ∈ ws ↔ w ∈ ws') →
        run fs (word :: ws) clock = run fs (word :: ws') clock ∧
        (run fs (word :: ws) clock).SameButTimes (run fs (word :: ws') clock') ∧
        (¬ PrintsTimes word ws →
          (run fs (word :: ws) clock).stdout = (run fs (word :: ws') clock').stdout)) := by
  constructor
  · intro args
    refine ⟨exitCode_run_eq_two_iff clock, fun hrefused => ?_, fun hread => ?_⟩
    · rcases run_cases fs args with ⟨-, ls, hne, hrun⟩ | ⟨i, bytes, haccepted⟩
      · obtain ⟨l, ls, rfl⟩ := List.exists_cons_of_ne_nil hne
        rw [hrun]
        exact ⟨rfl, by simp [Outcome.refused, Text.endLines]⟩
      · exact absurd hrefused haccepted.not_refused
    · rw [exitCode_run clock hread]
      constructor <;> split_ifs <;> simp [*]
  · intro word ws ws' clock'
    refine ⟨fun hread hsame => ?_, fun hfiles hflags => ?_⟩
    · have hfiles : fileWords ws = fileWords ws' := by
        rw [← fileWords_filter_printing ws, hsame, fileWords_filter_printing ws']
      have hshort : ∀ vs : List Text, "short-tags".toList ∈ vs.filter (· ∉ Flags.printing) ↔
          "short-tags".toList ∈ vs := by
        intro vs
        have hnot : "short-tags".toList ∉ Flags.printing := by decide
        rw [List.mem_filter, decide_eq_true_iff, and_iff_left hnot]
      exact exitCode_run_congr hread hfiles ((hshort ws).symm.trans (hsame ▸ hshort ws')) clock
        clock'
    · have hrun (clock : Clock) : run fs (word :: ws) clock = run fs (word :: ws') clock := by
        rw [run, run, parse_congr hfiles hflags]
      obtain ⟨hsame, hstdout⟩ := sameButTimes_run clock clock' fs word ws
      rw [← hrun, ← hrun]
      exact ⟨rfl, hsame, hstdout⟩

/-- A string that nothing closes, in the one file there is. -/
theorem run_outcome_open_string :
    let fs : FileSystem := fun path =>
      if path = "a.php".toList then .file [60, 63, 112, 104, 112, 32, 34] else .directory
    let ws := ["json".toList, "a.php".toList]
    let ws' := ["a.php".toList, "json".toList, "json".toList]
    let clock := Clock.measured 7 1
    ReadsShort fs ("check".toList :: ws) ∧ ¬ Refused fs ("check".toList :: ws) ∧
      ChecksFault fs ("check".toList :: ws) ∧
      run fs ("check".toList :: ws) clock = run fs ("check".toList :: ws') clock ∧
      (run fs ("check".toList :: ws) clock).exitCode =
        (run fs ["check".toList, "a.php".toList]).exitCode ∧
      Refused fs ["check".toList, "b.php".toList] := by
  intro fs ws ws' clock
  obtain ⟨hcodes, hflags⟩ := run_outcome fs clock
  have hread : ∀ args, ReadsShort fs args := by
    rintro args i bytes ⟨-, -, -, found⟩
    simp only [fs] at found
    split at found
    · cases found
      decide
    · cases found
  have hfault := ((hcodes ("check".toList :: ws)).2.2 (hread _)).1.1 (by decide +kernel)
  have hmissing := (hcodes ["check".toList, "b.php".toList]).1.1 (by decide +kernel)
  obtain ⟨hsame, -, -⟩ := (hflags "check".toList ws ws' .masked).2 (by decide) (by decide)
  have hcode := (hflags "check".toList ws ["a.php".toList] .masked).1 (hread _) (by decide)
  exact ⟨hread _, hfault.1, hfault.2, hsame, hcode, hmissing⟩

/-! In a text of more than 2 ^ 32 bytes the lines are not where the line table has them. -/

/-- A file in UTF-8 with no carriage return is read as it is. -/
theorem Text.unifyLineEndings_decode_bytes {s : Text} (h : '\r' ∉ s) :
    (decode s.bytes).unifyLineEndings = s := by
  rw [decode_bytes, unifyLineEndings_of_notMem h]

namespace Cursor.LineTable

/-- Behind 2 ^ 32 + 8 bytes a line feed counts as the ninth byte, and the line in front of it is cut
inside a character. -/
theorem lineText_wrapped {s r : Text} (hs : s = "<?php \x01é".toList ++ r ++ ['\n'])
    (hlf : '\n' ∉ r) (hsize : s.size = 4294967305) :
    (ofText s).lineCol 6 = .ok (0, 6) ∧ (ofText s).lineText 6 = .error .splitCharacter := by
  have hnone : '\n' ∉ "<?php \x01é".toList ++ r := by
    rw [List.mem_append, not_or]
    exact ⟨by decide, hlf⟩
  have hbefore : Text.size ("<?php \x01é".toList ++ r) = 4294967304 := by
    rw [hs, Text.size_append] at hsize
    exact Nat.add_right_cancel hsize
  have hstarts : (ofText s).starts = [0, 9] := by
    rw [starts_ofText, hs, lineOffsets_append, lineOffsets_of_notMem hnone, Nat.zero_add, hbefore]
    rfl
  have hclamp : min 6 s.size.toUInt32 = 6 := by
    rw [hsize]
    rfl
  have hlineOf : (ofText s).lineOf 6 = 0 := by
    simp only [lineOf, hstarts]
    simp [search]
  have hstart : (ofText s).start 0 = .ok 0 := by
    rw [start, hstarts]
    rfl
  have hstop : (ofText s).stop 0 = 8 := by
    rw [stop, hstarts]
    rfl
  have hfloor : floor s 0 6 = 6 := by
    rw [hs]
    rfl
  have hcolumn : textBetween s 0 6 = .ok "<?php ".toList := by
    rw [textBetween, hsize, hs]
    rfl
  have hcut : textBetween s 0 8 = .error .splitCharacter := by
    rw [textBetween, hsize, hs]
    rfl
  have htext : (ofText s).text = s := rfl
  have hzero : (0 : UInt32).toNat = 0 := rfl
  have hsix : (6 : UInt32).toNat = 6 := rfl
  have hlineCol : (ofText s).lineCol 6 = .ok (0, 6) := by
    simp only [lineCol, htext, hclamp, hlineOf, hstart, hzero, hsix, hfloor, hcolumn, bind,
      Except.bind]
    rfl
  refine ⟨hlineCol, ?_⟩
  simp only [lineText, htext, hlineCol, hzero, hstart, hstop, hcut, bind, Except.bind]

end Cursor.LineTable

/-- A stray character behind an open tag. -/
theorem exists_diagnostics_lex_stray (shortTags : Bool) (r : Text) :
    ∃ ds, (Text.lex shortTags ("<?php \x01".toList ++ r)).diagnostics =
      (Cause.unexpectedChar '\x01').report ⟨6, 7⟩ :: ds := by
  have hcons : "<?php \x01".toList ++ r = '<' :: ("?php \x01".toList ++ r) := rfl
  have htag : Mode.html.lexeme shortTags '<' ("?php \x01".toList ++ r) =
      ({ kind := .openTag, text := "<?php ".toList }, '\x01' :: r) := rfl
  have hcode : Mode.html.after .openTag = .code false := rfl
  have hstray : (Mode.code false).lexeme shortTags '\x01' r =
      ({ kind := .unknown, text := ['\x01'], fault := some (.unexpectedChar '\x01') }, r) := rfl
  have hlexemes : Text.lexemes shortTags ("<?php \x01".toList ++ r) =
      { kind := .openTag, text := "<?php ".toList } ::
      { kind := .unknown, text := ['\x01'], fault := some (.unexpectedChar '\x01') } ::
      Lexeme.readAll shortTags (.code false) r := by
    rw [Text.lexemes, hcons, Lexeme.readAll]
    simp only [htag, hcode]
    rw [Lexeme.readAll]
    simp only [hstray]
    rfl
  rw [Text.lex, hlexemes]
  exact ⟨_, rfl⟩

section Wrapped

variable (name : Text) {s r : Text} (hs : s = "<?php \x01é".toList ++ r ++ ['\n']) (hlf : '\n' ∉ r)
  (hsize : s.size = 4294967305)

include hs hlf hsize

/-- The stray character of such a text is found, but the report on it is not printed. -/
theorem Source.printDiagnostic_wrapped :
    Source.printDiagnostic ⟨name, s⟩ false ((Cause.unexpectedChar '\x01').report ⟨6, 7⟩) =
      .faulted := by
  have htable : Source.lineTable ⟨name, s⟩ = .ofText s := rfl
  obtain ⟨hlineCol, hlineText⟩ := Cursor.LineTable.lineText_wrapped hs hlf hsize
  rw [← htable] at hlineCol hlineText
  have hplace : Source.place ⟨name, s⟩ 6 = .ok (name ++ ":1".toList ++ ":7".toList) := by
    rw [Source.place, hlineCol]
    rfl
  have hquote (gutter : Text) : Source.quote ⟨name, s⟩ gutter 6 = .error .splitCharacter := by
    rw [Source.quote, hlineCol, hlineText]
    rfl
  rw [Source.printDiagnostic, if_neg (by decide), Diagnostic.rendered, Notice.render,
    Notice.renderLines]
  simp only [Diagnostic.notice, Cause.report, Notice.headline, Notice.placeText,
    Notice.spanLines, hplace, hquote, bind, Except.bind]
  rfl

theorem Flags.printCheck_wrapped {f : Flags} (hplain : f.json = false) :
    (s.lex f.shortTags).diagnostics ≠ [] ∧
      f.printCheck (.ofSource f.shortTags ⟨name, s⟩) = .faulted := by
  have hstray : s = "<?php \x01".toList ++ ('é' :: r ++ ['\n']) := hs
  obtain ⟨ds, hds⟩ := exists_diagnostics_lex_stray f.shortTags ('é' :: r ++ ['\n'])
  rw [← hstray] at hds
  refine ⟨by rw [hds]; exact List.cons_ne_nil _ _, ?_⟩
  have hfirst (ds : List Diagnostic) : Source.printDiagnostics ⟨name, s⟩ false
      ((Cause.unexpectedChar '\x01').report ⟨6, 7⟩ :: ds) = .faulted := by
    have hprinted := Source.printDiagnostic_wrapped name hs hlf hsize
    rw [Source.printDiagnostics, List.map_cons, List.foldr_cons, hprinted,
      Outcome.faulted_andThen]
  simp only [Flags.printCheck, hplain, ImportReport.ofSource, hds, List.cons_append, hfirst,
    Outcome.faulted_andThen]

theorem run_wrapped (fs : FileSystem) (found : fs "a.php".toList = .file (Text.bytes s))
    (hcr : '\r' ∉ s) :
    let args := ["check".toList, "a.php".toList]
    ¬ Refused fs args ∧ ChecksFault fs args ∧ ∀ clock, run fs args clock = .faulted := by
  intro args
  have htext := Text.unifyLineEndings_decode_bytes hcr
  have hsource : Source.ofText "a.php".toList (Text.decode (Text.bytes s)) =
      ⟨"a.php".toList, s⟩ := congrArg (Source.mk _) htext
  have haccepted : Accepted fs args ⟨.check, {}, "a.php".toList⟩ (Text.bytes s) :=
    .intro (by decide) rfl rfl found
  obtain ⟨hdiagnostics, hfaulted⟩ :=
    Flags.printCheck_wrapped (f := {}) "a.php".toList hs hlf hsize rfl
  refine ⟨haccepted.not_refused, haccepted.checksFault_iff.2 ⟨rfl, ?_⟩, fun clock => ?_⟩
  · rw [htext]
    exact hdiagnostics
  · rw [haccepted.run_eq clock, hsource]
    exact hfaulted

end Wrapped

/-- The times of two runs on standard output, and a text of more than 2 ^ 32 bytes that is at
fault. -/
theorem not_run_outcome :
    (let fs : FileSystem := fun _ => .file (Text.bytes "<?php use A;".toList)
      let ws := ["json".toList, "timing".toList, "a.php".toList]
      let ws' := ["timing".toList, "json".toList, "a.php".toList]
      fileWords ws = fileWords ws' ∧ (∀ w ∈ Flags.words, w ∈ ws ↔ w ∈ ws') ∧
        (run fs ("uses".toList :: ws) (.measured 1 0)).stdout ≠
          (run fs ("uses".toList :: ws') (.measured 0 0)).stdout) ∧
    let fs : FileSystem := fun _ =>
      .file (Text.bytes ("<?php \x01é".toList ++ List.replicate 4294967295 'a' ++ ['\n']))
    let args := ["check".toList, "a.php".toList]
    ¬ Refused fs args ∧ ChecksFault fs args ∧ ∀ clock, (run fs args clock).exitCode ≠ 1 := by
  refine ⟨by decide +kernel, ?_⟩
  intro fs args
  have hlf : '\n' ∉ List.replicate 4294967295 'a' := fun h =>
    absurd (List.eq_of_mem_replicate h) (by decide)
  have hsize : Text.size ("<?php \x01é".toList ++ List.replicate 4294967295 'a' ++ ['\n']) =
      4294967305 := by
    rw [Text.size_append, Text.size_append, Text.size_replicate _ (by decide)]
    rfl
  have hcr : '\r' ∉ "<?php \x01é".toList ++ List.replicate 4294967295 'a' ++ ['\n'] := by
    simp only [List.mem_append, not_or]
    exact ⟨⟨by decide, fun h => absurd (List.eq_of_mem_replicate h) (by decide)⟩, by decide⟩
  obtain ⟨hrefused, hfault, hrun⟩ := run_wrapped rfl hlf hsize fs rfl hcr
  refine ⟨hrefused, hfault, fun clock => ?_⟩
  rw [hrun]
  decide

end PhpImports
