import Throng.Lib.Words

/-!
# Arguments on a Windows command line

A process there gets one line and splits it itself, by the rules of the C runtime: `n`
backslashes before a quote stand for half as many, and an odd one makes the quote literal;
elsewhere a backslash is itself; a blank ends an argument outside quotes. Newer runtimes
also read a quote right after a closing one as a literal quote, in quotes that go on.
-/

namespace Throng

namespace WindowsArgs

/-! ## Quoting -/

/-- The quoted text so far, but for a run of backslashes at its end. -/
structure Quoting where
  out : List Char
  backslashes : Nat

def quoteStep (q : Quoting) (c : Char) : Quoting :=
  if c = '\\' then { q with backslashes := q.backslashes + 1 }
  else if c = '"' then
    -- backslashes before a quote are escapes: double them, then escape the quote
    ⟨q.out ++ List.replicate (q.backslashes * 2 + 1) '\\' ++ ['"'], 0⟩
  else ⟨q.out ++ List.replicate q.backslashes '\\' ++ [c], 0⟩

/-- One argument, quoted for the command line. -/
def quoteWindowsArg (arg : List Char) : List Char :=
  if arg ≠ [] ∧ arg.all (fun c => !([' ', '\t', '\n', '\x0b', '"'].contains c)) then arg
  else
    let q := arg.foldl quoteStep ⟨['"'], 0⟩
    -- before the closing quote backslashes would escape it, so they are doubled too
    q.out ++ List.replicate (q.backslashes * 2) '\\' ++ ['"']

/-- The line a program is started by: the program, and its arguments. -/
def commandLine (program : String) (args : List String) : String :=
  .ofList (args.foldl (fun line arg => line ++ ' ' :: quoteWindowsArg arg.toList)
    (quoteWindowsArg program.toList))

/-! ## The C runtime -/

/-- What the runtime holds: the arguments that are over, the one being read, whether it has
begun, the backslashes at its end, and whether a quote is open or was closed just now. -/
structure Reading where
  out : List (List Char)
  current : List Char
  started : Bool
  backslashes : Nat
  inQuotes : Bool
  closed : Bool

/-- What the run of backslashes stands for where no quote follows. -/
def Reading.text (r : Reading) : List Char := r.current ++ List.replicate r.backslashes '\\'

/-- One character of the line. -/
def readStep (doubled : Bool) (r : Reading) (c : Char) : Reading :=
  if c = '\\' then { r with started := true, backslashes := r.backslashes + 1, closed := false }
  else if c = '"' then
    let current := r.current ++ List.replicate (r.backslashes / 2) '\\'
    if r.backslashes % 2 = 1 then
      { r with current := current ++ ['"'], started := true, backslashes := 0, closed := false }
    else if doubled && r.closed && r.backslashes == 0 then
      { r with current := current ++ ['"'], inQuotes := true, closed := false }
    else
      { r with
        current := current, started := true, backslashes := 0
        inQuotes := !r.inQuotes, closed := r.inQuotes }
  else if !r.inQuotes && [' ', '\t'].contains c then
    ⟨if r.started then r.out ++ [r.text] else r.out, [], false, 0, false, false⟩
  else { r with current := r.text ++ [c], started := true, backslashes := 0, closed := false }

def Reading.finish (r : Reading) : List (List Char) :=
  if r.started then r.out ++ [r.text] else r.out

/-- Between two arguments. -/
def between (out : List (List Char)) : Reading := ⟨out, [], false, 0, false, false⟩

/-- The line's arguments. `doubled` is the newer runtimes' rule for a quote after a closing
one. -/
def splitLine (doubled : Bool) (line : String) : List String :=
  (line.toList.foldl (readStep doubled) (between [])).finish.map .ofList

/-- The runtime reads words: outside quotes, a blank ends the argument. -/
def splitter (doubled : Bool) : Words.Splitter Reading Char where
  step := readStep doubled
  finish := Reading.finish
  blank := ' '
  between := between
  Ended r done word := r.started = true ∧ r.inQuotes = false ∧ r.out = done ∧ r.text = word
  step_blank := by
    rintro r done word ⟨hstarted, hquotes, rfl, rfl⟩
    simp [readStep, between, hstarted, hquotes]
  finish_between _ := rfl
  finish_ended := by
    rintro r done word ⟨hstarted, -, rfl, rfl⟩
    rw [Reading.finish, if_pos hstarted]

/-! ## What a quoted argument is read as -/

variable {doubled : Bool} {out : List (List Char)} {arg : List Char} {q : Quoting}

/-- In an argument, in open quotes. -/
def inside (out : List (List Char)) (current : List Char) (backslashes : Nat) : Reading :=
  ⟨out, current, true, backslashes, true, false⟩

theorem foldl_backslashes (current : List Char) (m n : Nat) :
    (List.replicate n '\\').foldl (readStep doubled) (inside out current m) =
      inside out current (m + n) := by
  induction n generalizing m with
  | zero => rfl
  | succ n ih =>
      have hstep : readStep doubled (inside out current m) '\\' = inside out current (m + 1) := by
        simp [readStep, inside]
      rw [List.replicate_succ, List.foldl_cons, hstep, ih, Nat.add_right_comm, Nat.add_assoc]

/-- Twice as many backslashes and one more, before a quote: the quote is literal. -/
theorem readStep_escaped (current : List Char) (n : Nat) :
    readStep doubled (inside out current (n * 2 + 1)) '"' =
      inside out (current ++ List.replicate n '\\' ++ ['"']) 0 := by
  have hhalf : (n * 2 + 1) / 2 = n := by omega
  have hodd : (n * 2 + 1) % 2 = 1 := by omega
  simp [readStep, inside, hhalf, hodd]

/-- Twice as many backslashes before a quote: the quote closes. -/
theorem readStep_closing (current : List Char) (n : Nat) :
    readStep doubled (inside out current (n * 2)) '"' =
      ⟨out, current ++ List.replicate n '\\', true, 0, false, true⟩ := by
  simp [readStep, inside]

theorem readStep_inside {c : Char} (hescape : c ≠ '\\') (hquote : c ≠ '"') (current : List Char)
    (n : Nat) :
    readStep doubled (inside out current n) c =
      inside out (current ++ List.replicate n '\\' ++ [c]) 0 := by
  simp [readStep, inside, Reading.text, hescape, hquote]

/-- The quoted text so far is read as the argument so far, but for the backslashes at its end,
which are not written yet. -/
def Follows (doubled : Bool) (done : List (List Char)) (q : Quoting) (read : List Char) : Prop :=
  ∃ current, read = current ++ List.replicate q.backslashes '\\' ∧
    q.out.foldl (readStep doubled) (between done) = inside done current 0

theorem Follows.step {read : List Char} (h : Follows doubled out q read) (c : Char) :
    Follows doubled out (quoteStep q c) (read ++ [c]) := by
  obtain ⟨current, rfl, hread⟩ := h
  by_cases hescape : c = '\\'
  · refine ⟨current, ?_, ?_⟩
    · rw [quoteStep, if_pos hescape, hescape, List.append_assoc, ← List.replicate_succ']
    · rw [quoteStep, if_pos hescape]
      exact hread
  · by_cases hquote : c = '"'
    · subst hquote
      refine ⟨current ++ List.replicate q.backslashes '\\' ++ ['"'], ?_, ?_⟩
      · rw [quoteStep, if_neg hescape, if_pos rfl, List.replicate_zero, List.append_nil]
      · rw [quoteStep, if_neg hescape, if_pos rfl, List.foldl_append, List.foldl_append, hread,
          foldl_backslashes, Nat.zero_add, List.foldl_cons, readStep_escaped, List.foldl_nil]
    · refine ⟨current ++ List.replicate q.backslashes '\\' ++ [c], ?_, ?_⟩
      · rw [quoteStep, if_neg hescape, if_neg hquote, List.replicate_zero, List.append_nil]
      · rw [quoteStep, if_neg hescape, if_neg hquote, List.foldl_append, List.foldl_append, hread,
          foldl_backslashes, Nat.zero_add, List.foldl_cons, readStep_inside hescape hquote,
          List.foldl_nil]

theorem Follows.foldl {read : List Char} (h : Follows doubled out q read) (arg : List Char) :
    Follows doubled out (arg.foldl quoteStep q) (read ++ arg) := by
  induction arg generalizing q read with
  | nil =>
      rw [List.append_nil]
      exact h
  | cons c arg ih =>
      have hrest := ih (h.step c)
      rw [List.append_assoc, List.singleton_append] at hrest
      exact hrest

theorem follows_open (doubled : Bool) (done : List (List Char)) :
    Follows doubled done ⟨['"'], 0⟩ [] := by
  refine ⟨[], rfl, ?_⟩
  simp [readStep, between, inside]

/-- What is neither blank nor quote is read as it is. -/
theorem readStep_plain {r : Reading} {c : Char} (hquotes : r.inQuotes = false)
    (hblank : [' ', '\t'].contains c = false) (hquote : c ≠ '"') :
    (readStep doubled r c).started = true ∧ (readStep doubled r c).inQuotes = false ∧
      (readStep doubled r c).out = r.out ∧ (readStep doubled r c).text = r.text ++ [c] := by
  by_cases hescape : c = '\\'
  · subst hescape
    have hstep : readStep doubled r '\\' =
        { r with started := true, backslashes := r.backslashes + 1, closed := false } := by
      rw [readStep, if_pos rfl]
    rw [hstep]
    refine ⟨rfl, hquotes, rfl, ?_⟩
    rw [Reading.text, Reading.text, List.append_assoc, ← List.replicate_succ']
  · have hstep : readStep doubled r c =
        { r with
          current := r.text ++ [c], started := true, backslashes := 0, closed := false } := by
      rw [readStep, if_neg hescape, if_neg hquote, hblank, Bool.and_false]
      rfl
    rw [hstep]
    exact ⟨rfl, hquotes, rfl, List.append_nil _⟩

theorem foldl_plain (h : ∀ c ∈ arg, [' ', '\t'].contains c = false ∧ c ≠ '"') {r : Reading}
    (hquotes : r.inQuotes = false) (hstarted : r.started = true ∨ arg ≠ []) :
    (splitter doubled).Ended (arg.foldl (readStep doubled) r) r.out (r.text ++ arg) := by
  induction arg generalizing r with
  | nil =>
      rw [List.foldl_nil, List.append_nil]
      exact ⟨hstarted.resolve_right fun hne => hne rfl, hquotes, rfl, rfl⟩
  | cons c arg ih =>
      obtain ⟨hblank, hquote⟩ := h c List.mem_cons_self
      obtain ⟨hbegun, hopen, hout, htext⟩ :=
        @readStep_plain doubled r c hquotes hblank hquote
      have hrest := ih (fun d hd => h d (List.mem_cons_of_mem c hd)) hopen (.inl hbegun)
      rw [hout, htext, List.append_assoc, List.singleton_append] at hrest
      exact hrest

/-- A quoted argument is read as the argument, with either rule for doubled quotes. -/
theorem reads_quoteWindowsArg (doubled : Bool) (arg : List Char) :
    (splitter doubled).Reads (quoteWindowsArg arg) arg := by
  intro done
  rw [quoteWindowsArg]
  split
  · next hbare =>
    obtain ⟨hne, hall⟩ := hbare
    have hplain : ∀ c ∈ arg, [' ', '\t'].contains c = false ∧ c ≠ '"' := by
      intro c hc
      have hsafe := List.all_eq_true.mp hall c hc
      simp only [List.contains_cons, List.contains_nil, Bool.or_false, Bool.not_eq_true',
        Bool.or_eq_false_iff, beq_eq_false_iff_ne] at hsafe ⊢
      exact ⟨⟨hsafe.1, hsafe.2.1⟩, hsafe.2.2.2.2⟩
    exact @foldl_plain doubled arg hplain (between done) rfl (.inr hne)
  · obtain ⟨current, harg, hread⟩ := (follows_open doubled done).foldl arg
    change (splitter doubled).Ended (List.foldl (readStep doubled) (between done) _) done arg
    rw [List.foldl_append, List.foldl_append, hread, foldl_backslashes, Nat.zero_add,
      List.foldl_cons, readStep_closing, List.foldl_nil]
    refine ⟨rfl, rfl, rfl, ?_⟩
    rw [Reading.text, List.replicate_zero, List.append_nil]
    exact harg.symm

/-- Quoted arguments with single spaces between them are split as they were, by the rules of
older and newer runtimes. -/
theorem splitLine_quoted (doubled : Bool) (args : List String) :
    splitLine doubled
      (.ofList ([' '].intercalate (args.map fun arg => quoteWindowsArg arg.toList))) = args :=
  Words.Splitter.wordsOf_spelled (reads_quoteWindowsArg doubled) args

/-! ## The program in front of its arguments -/

/-- The runtime reads the program by rules of its own: a quote only opens and closes, and a
backslash is itself. -/
def splitProgram (inQuotes : Bool) : List Char → List Char × List Char
  | [] => ([], [])
  | c :: rest =>
      if c = '"' then splitProgram (!inQuotes) rest
      else if !inQuotes && [' ', '\t'].contains c then ([], rest)
      else (c :: (splitProgram inQuotes rest).1, (splitProgram inQuotes rest).2)

/-- The program and the arguments a process finds on its line. -/
def splitCommandLine (doubled : Bool) (line : String) : List String :=
  let split := splitProgram false line.toList
  .ofList split.1 :: splitLine doubled (.ofList split.2)

theorem splitProgram_append {inQuotes : Bool} {name : List Char} (rest : List Char)
    (hquote : '"' ∉ name)
    (hblank : inQuotes = true ∨ ∀ c ∈ name, [' ', '\t'].contains c = false) :
    splitProgram inQuotes (name ++ rest) =
      (name ++ (splitProgram inQuotes rest).1, (splitProgram inQuotes rest).2) := by
  induction name with
  | nil => rfl
  | cons c name ih =>
      have hc : c ≠ '"' := fun hc => hquote (hc ▸ List.mem_cons_self)
      have hkeep : (!inQuotes && [' ', '\t'].contains c) = false := by
        rcases hblank with hopen | hnone
        · rw [hopen, Bool.not_true, Bool.false_and]
        · rw [hnone c List.mem_cons_self, Bool.and_false]
      have hrest := ih (fun hmem => hquote (List.mem_cons_of_mem c hmem))
        (hblank.imp_right fun hnone d hd => hnone d (List.mem_cons_of_mem c hd))
      rw [List.cons_append, splitProgram, if_neg hc, hkeep, if_neg Bool.false_ne_true, hrest,
        List.cons_append]

/-- Without quotes in it, only the backslashes at the end of an argument are doubled. -/
theorem foldl_quoteStep (hquote : '"' ∉ arg) (q : Quoting) :
    (arg.foldl quoteStep q).out ++ List.replicate (arg.foldl quoteStep q).backslashes '\\' =
      q.out ++ List.replicate q.backslashes '\\' ++ arg := by
  induction arg generalizing q with
  | nil => rw [List.foldl_nil, List.append_nil]
  | cons c arg ih =>
      have hc : c ≠ '"' := fun hc => hquote (hc ▸ List.mem_cons_self)
      have hstep : (quoteStep q c).out ++ List.replicate (quoteStep q c).backslashes '\\' =
          q.out ++ List.replicate q.backslashes '\\' ++ [c] := by
        by_cases hescape : c = '\\'
        · rw [quoteStep, if_pos hescape, hescape, List.append_assoc, ← List.replicate_succ']
        · rw [quoteStep, if_neg hescape, if_neg hc, List.replicate_zero, List.append_nil]
      rw [List.foldl_cons, ih (fun hmem => hquote (List.mem_cons_of_mem c hmem)), hstep,
        List.append_assoc, List.singleton_append]

theorem backslashes_foldl (arg : List Char) (hlast : arg.getLast? ≠ some '\\') :
    (arg.foldl quoteStep ⟨['"'], 0⟩).backslashes = 0 := by
  rcases List.eq_nil_or_concat' arg with rfl | ⟨front, c, rfl⟩
  · rfl
  · rw [List.getLast?_concat, ne_eq, Option.some.injEq] at hlast
    rw [List.foldl_concat, quoteStep, if_neg hlast]
    split <;> rfl

/-- A program that holds no quote and ends in no backslash is read as it is. -/
theorem splitProgram_quoteWindowsArg {program : List Char} (hquote : '"' ∉ program)
    (hlast : program.getLast? ≠ some '\\') (rest : List Char)
    (hrest : rest = [] ∨ ∃ line, rest = ' ' :: line) :
    splitProgram false (quoteWindowsArg program ++ rest) = (program, rest.drop 1) := by
  have hend : splitProgram false rest = ([], rest.drop 1) := by
    rcases hrest with rfl | ⟨line, rfl⟩
    · rfl
    · rfl
  rw [quoteWindowsArg]
  split
  · next hbare =>
    have hblank : ∀ c ∈ program, [' ', '\t'].contains c = false := by
      intro c hc
      have hsafe := List.all_eq_true.mp hbare.2 c hc
      simp only [List.contains_cons, List.contains_nil, Bool.or_false, Bool.not_eq_true',
        Bool.or_eq_false_iff] at hsafe ⊢
      exact ⟨hsafe.1, hsafe.2.1⟩
    rw [splitProgram_append rest hquote (.inr hblank), hend, List.append_nil]
  · have hzero := backslashes_foldl program hlast
    have hbody := foldl_quoteStep hquote ⟨['"'], 0⟩
    rw [hzero, List.replicate_zero, List.append_nil, List.append_nil] at hbody
    have hclose : splitProgram true ('"' :: rest) = ([], rest.drop 1) := by
      rw [splitProgram, if_pos rfl, Bool.not_true, hend]
    change splitProgram false ((program.foldl quoteStep ⟨['"'], 0⟩).out ++
      List.replicate ((program.foldl quoteStep ⟨['"'], 0⟩).backslashes * 2) '\\' ++ ['"'] ++
        rest) = _
    rw [hzero, hbody, Nat.zero_mul, List.replicate_zero, List.append_nil, List.append_assoc,
      List.append_assoc, List.singleton_append, splitProgram, if_pos rfl, Bool.not_false,
      List.singleton_append, splitProgram_append _ hquote (.inl rfl), hclose, List.append_nil]

theorem foldl_commandLine (args : List String) (line : List Char) :
    args.foldl (fun line arg => line ++ ' ' :: quoteWindowsArg arg.toList) line =
      line ++ args.flatMap fun arg => ' ' :: quoteWindowsArg arg.toList := by
  induction args generalizing line with
  | nil => rw [List.foldl_nil, List.flatMap_nil, List.append_nil]
  | cons arg args ih => rw [List.foldl_cons, ih, List.flatMap_cons, List.append_assoc]

theorem drop_flatMap_arguments (args : List String) :
    (args.flatMap fun arg => ' ' :: quoteWindowsArg arg.toList).drop 1 =
      [' '].intercalate (args.map fun arg => quoteWindowsArg arg.toList) := by
  induction args with
  | nil => rfl
  | cons arg args ih =>
      cases args with
      | nil =>
          rw [List.flatMap_cons, List.flatMap_nil, List.append_nil, List.map_singleton,
            List.intercalate_singleton]
          rfl
      | cons other args =>
          rw [List.map_cons] at ih
          rw [List.map_cons, List.map_cons, List.intercalate_cons_cons, ← ih, List.flatMap_cons,
            List.flatMap_cons, List.cons_append, List.drop_one, List.tail_cons,
            List.cons_append, List.drop_one, List.tail_cons, List.append_assoc,
            List.singleton_append]

/-- What a process is started with reaches it: the program, and every argument. -/
theorem splitCommandLine_commandLine (doubled : Bool) {program : String} (args : List String)
    (hquote : '"' ∉ program.toList) (hlast : program.toList.getLast? ≠ some '\\') :
    splitCommandLine doubled (commandLine program args) = program :: args := by
  have hrest : (args.flatMap fun arg => ' ' :: quoteWindowsArg arg.toList) = [] ∨
      ∃ line, (args.flatMap fun arg => ' ' :: quoteWindowsArg arg.toList) = ' ' :: line := by
    cases args with
    | nil => exact .inl rfl
    | cons arg args => exact .inr ⟨_, List.flatMap_cons⟩
  rw [splitCommandLine, commandLine, String.toList_ofList, foldl_commandLine,
    splitProgram_quoteWindowsArg hquote hlast _ hrest, drop_flatMap_arguments, String.ofList_toList,
    splitLine_quoted]

end WindowsArgs

end Throng
