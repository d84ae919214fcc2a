import Throng.Core.Links
import Throng.Core.Terminal
import Throng.Lib.Words

/-!
# Shell arguments in one line

Arguments as the user typed them are split on white space, with `'…'` and `"…"` quoting and
`\` escaping. Two quoters write such lines: one for the arguments of a shell, and one for a
command that is remembered and typed back later. They quote different words, and write a
single quote differently.
-/

namespace Throng

namespace ShellWords

/-! ## Splitting -/

/-- What the splitter holds: the arguments that are over, the one being read, whether it has
begun, the quote it is in, and whether the character before escaped the next. -/
structure Splitting where
  out : List (List Char)
  current : List Char
  started : Bool
  quote : Option Char
  escaped : Bool

def Splitting.start : Splitting := ⟨[], [], false, none, false⟩

/-- One character of the line. What comes after an escape is taken as it is. -/
def splitStep (s : Splitting) (c : Char) : Splitting :=
  if s.escaped then { s with current := s.current ++ [c], escaped := false }
  else if s.quote = some c then { s with quote := none }
  else if (s.quote = some '"' ∨ s.quote = none) ∧ c = '\\' then
    { s with started := true, escaped := true }
  else if s.quote.isSome then { s with current := s.current ++ [c] }
  else if c = '\'' ∨ c = '"' then { s with started := true, quote := some c }
  else if isWhitespace c then
    if s.started then { s with out := s.out ++ [s.current], current := [], started := false }
    else s
  else { s with current := s.current ++ [c], started := true }

/-- The end of the line ends an argument. -/
def Splitting.finish (s : Splitting) : List (List Char) :=
  if s.started then s.out ++ [s.current] else s.out

/-- Shell arguments as the user typed them. -/
def splitArgs (text : String) : List String :=
  (text.toList.foldl splitStep .start).finish.map .ofList

/-! ## Joining -/

/-- A quote in front and behind, and each single quote in between replaced. -/
def inQuotes (replacement word : List Char) : List Char :=
  '\'' :: word.flatMap (fun c => if c = '\'' then replacement else [c]) ++ ['\'']

/-- An argument of the shell, quoted where `splitArgs` needs it. -/
def joinArg (arg : List Char) : List Char :=
  if arg ≠ [] ∧ arg.all (fun c => !(isWhitespace c || ['\'', '"', '\\'].contains c)) then arg
  else inQuotes ['\'', '"', '\'', '"', '\''] arg

/-- Arguments back into one line. -/
def joinArgs (args : List String) : String :=
  .ofList ([' '].intercalate (args.map fun arg => joinArg arg.toList))

/-- What a shell does not interpret. -/
def plain (c : Char) : Bool := c.isAlphanum || "_@%+=:,./-".toList.contains c

/-- One word as a POSIX shell reads it back. -/
def shellQuote (word : List Char) : List Char :=
  if word ≠ [] ∧ word.all plain then word else inQuotes ['\'', '\\', '\'', '\''] word

/-! ## The command a shell is running -/

/-- A direct child of a shell, as a process snapshot shows it. -/
structure ShellChild where
  pid : Nat
  started : Nat
  argv : List String

/-- The longest command memory keeps. -/
def maxRememberedCommand : Nat := 2048

/-- `sort_by_key` by when a child started, the latest first; a tie goes to the higher pid. -/
def laterChild (a b : ShellChild) : Bool :=
  b.started < a.started ∨ (a.started = b.started ∧ b.pid ≤ a.pid)

/-- The most recently started child that is no copy of the shell. -/
def newestCommand (shell : List String) (children : List ShellChild) : Option ShellChild :=
  (children.mergeSort laterChild).find? fun child => child.argv ≠ [] ∧ child.argv ≠ shell

/-- A command memory can keep: one line, not empty, no control characters, not too long. -/
def memorable (command : String) : Option String :=
  if trim command ≠ "" ∧ command.toList.length ≤ maxRememberedCommand ∧
      command.toList.all (fun c => !isControl c) then
    some command
  else none

/-- The words of a command in one line. -/
def quotedWords (words : List String) : String :=
  .ofList ([' '].intercalate (words.map fun word => shellQuote word.toList))

/-- What a shell is running, as a startup command. -/
def runningCommand (shellArgv : List String) (children : List ShellChild) : Option String :=
  (newestCommand shellArgv children).bind fun child => memorable (quotedWords child.argv)

/-! ## What a quoted argument is read as -/

/-- Between two arguments. -/
def between (out : List (List Char)) : Splitting := ⟨out, [], false, none, false⟩

/-- In an argument, outside its quotes. -/
def within (out : List (List Char)) (current : List Char) : Splitting :=
  ⟨out, current, true, none, false⟩

/-- In an argument, after a single quote that is still open. -/
def quoted (out : List (List Char)) (current : List Char) : Splitting :=
  ⟨out, current, true, some '\'', false⟩

/-- The splitter reads words: outside quotes, a blank ends the argument. -/
def splitter : Words.Splitter Splitting Char where
  step := splitStep
  finish := Splitting.finish
  blank := ' '
  between := between
  Ended s done word := s = within done word
  step_blank := by
    rintro _ done word rfl
    rfl
  finish_between _ := rfl
  finish_ended := by
    rintro _ done word rfl
    rfl

variable {out : List (List Char)} {current : List Char} {c : Char}

/-- Characters that stand for themselves outside quotes. -/
def Bare (c : Char) : Prop :=
  isWhitespace c = false ∧ c ≠ '\'' ∧ c ≠ '"' ∧ c ≠ '\\'

theorem splitStep_between_of_bare (h : Bare c) : splitStep (between out) c = within out [c] := by
  obtain ⟨hblank, hsingle, hdouble, hescape⟩ := h
  simp [splitStep, between, within, hblank, hsingle, hdouble, hescape]

theorem splitStep_within_of_bare (h : Bare c) :
    splitStep (within out current) c = within out (current ++ [c]) := by
  obtain ⟨hblank, hsingle, hdouble, hescape⟩ := h
  simp [splitStep, within, hblank, hsingle, hdouble, hescape]

theorem splitStep_quoted (h : c ≠ '\'') :
    splitStep (quoted out current) c = quoted out (current ++ [c]) := by
  simp [splitStep, quoted, h.symm]

theorem foldl_within_of_bare {word : List Char} (h : ∀ c ∈ word, Bare c) (current : List Char) :
    word.foldl splitStep (within out current) = within out (current ++ word) := by
  induction word generalizing current with
  | nil => rw [List.foldl_nil, List.append_nil]
  | cons c word ih =>
      rw [List.foldl_cons, splitStep_within_of_bare (h c List.mem_cons_self),
        ih (fun d hd => h d (List.mem_cons_of_mem _ hd)), List.append_assoc,
        List.singleton_append]

/-- A word of bare characters is read as it is. -/
theorem reads_of_bare {word : List Char} (hne : word ≠ []) (h : ∀ c ∈ word, Bare c) :
    splitter.Reads word word := by
  intro done
  obtain ⟨c, rest, rfl⟩ := List.exists_cons_of_ne_nil hne
  have hfirst := @splitStep_between_of_bare done c (h c List.mem_cons_self)
  have hrest := @foldl_within_of_bare done rest
    (fun d hd => h d (List.mem_cons_of_mem c hd)) [c]
  change (c :: rest).foldl splitStep (between done) = within done (c :: rest)
  rw [List.foldl_cons, hfirst, hrest, List.singleton_append]

/-- A replacement is read as the single quote it stands for. -/
def StandsForQuote (replacement : List Char) : Prop :=
  ∀ out current, replacement.foldl splitStep (quoted out current) = quoted out (current ++ ['\''])

theorem standsForQuote_double : StandsForQuote ['\'', '"', '\'', '"', '\''] := by
  intro out current
  simp [splitStep, quoted]

theorem standsForQuote_escape : StandsForQuote ['\'', '\\', '\'', '\''] := by
  intro out current
  simp [splitStep, quoted]

theorem foldl_quoted {replacement : List Char} (h : StandsForQuote replacement)
    (word current : List Char) :
    (word.flatMap fun c => if c = '\'' then replacement else [c]).foldl splitStep
      (quoted out current) = quoted out (current ++ word) := by
  induction word generalizing current with
  | nil => rw [List.flatMap_nil, List.foldl_nil, List.append_nil]
  | cons c word ih =>
      have hc : (if c = '\'' then replacement else [c]).foldl splitStep (quoted out current) =
          quoted out (current ++ [c]) := by
        by_cases hquote : c = '\''
        · rw [if_pos hquote, hquote]
          exact h out current
        · rw [if_neg hquote]
          exact splitStep_quoted hquote
      rw [List.flatMap_cons, List.foldl_append, hc, ih, List.append_assoc,
        List.singleton_append]

/-- A word in quotes is read as the word, whatever it holds. -/
theorem reads_inQuotes {replacement : List Char} (h : StandsForQuote replacement)
    (word : List Char) : splitter.Reads (inQuotes replacement word) word := by
  intro done
  have hopen : splitStep (between done) '\'' = quoted done [] := by
    simp [splitStep, between, quoted]
  have hclose : splitStep (quoted done word) '\'' = within done word := by
    simp [splitStep, quoted, within]
  change (inQuotes replacement word).foldl splitStep (between done) = within done word
  rw [inQuotes, List.cons_append, List.foldl_cons, hopen, List.foldl_append, foldl_quoted h,
    List.nil_append, List.foldl_cons, hclose, List.foldl_nil]

/-! ## The two quoters -/

theorem reads_joinArg (arg : List Char) : splitter.Reads (joinArg arg) arg := by
  rw [joinArg]
  split
  · next hbare =>
    obtain ⟨hne, hall⟩ := hbare
    refine reads_of_bare hne fun c hc => ?_
    have hsafe := List.all_eq_true.mp hall c hc
    simpa [Bare] using hsafe
  · exact reads_inQuotes standsForQuote_double arg

/-- What a shell does not interpret is no blank, quote or backslash. -/
theorem bare_of_plain (h : plain c = true) : Bare c := by
  rw [plain, Bool.or_eq_true] at h
  rcases h with halnum | hmark
  · have hrange := toNat_of_isAlphanum halnum
    refine ⟨?_, ?_, ?_, ?_⟩
    · simp [isWhitespace]
      omega
    · rintro rfl
      exact absurd halnum (by decide)
    · rintro rfl
      exact absurd halnum (by decide)
    · rintro rfl
      exact absurd halnum (by decide)
  · have hall : ("_@%+=:,./-".toList.all fun c =>
        !isWhitespace c && c ≠ '\'' && c ≠ '"' && c ≠ '\\') = true := by decide
    have hc := List.all_eq_true.mp hall c (List.contains_iff_mem.mp hmark)
    simpa [Bare, and_assoc] using hc

theorem reads_shellQuote (word : List Char) : splitter.Reads (shellQuote word) word := by
  rw [shellQuote]
  split
  · next hplain =>
    obtain ⟨hne, hall⟩ := hplain
    exact reads_of_bare hne fun c hc => bare_of_plain (List.all_eq_true.mp hall c hc)
  · exact reads_inQuotes standsForQuote_escape word

/-- Splitting undoes both quoters, for any strings. -/
theorem splitArgs_quoted (args : List String) :
    splitArgs (joinArgs args) = args ∧ splitArgs (quotedWords args) = args :=
  ⟨Words.Splitter.wordsOf_spelled reads_joinArg args,
    Words.Splitter.wordsOf_spelled reads_shellQuote args⟩

/-- A remembered command splits into the words of the process it was seen as. -/
theorem splitArgs_runningCommand {shell : List String} {children : List ShellChild}
    {command : String} (h : runningCommand shell children = some command) :
    ∃ child ∈ children, child.argv ≠ shell ∧ splitArgs command = child.argv := by
  obtain ⟨child, hnewest, hcommand⟩ := Option.bind_eq_some_iff.mp h
  have hmem := List.mem_of_find?_eq_some hnewest
  have hother := List.find?_some hnewest
  obtain ⟨-, rfl⟩ : _ ∧ quotedWords child.argv = command := by
    simpa only [memorable, Option.ite_none_right_eq_some, Option.some.injEq] using hcommand
  refine ⟨child, List.mem_mergeSort.mp hmem, ?_, (splitArgs_quoted child.argv).2⟩
  simp only [decide_eq_true_eq] at hother
  exact hother.2

end ShellWords

end Throng
