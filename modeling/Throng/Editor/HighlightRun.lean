import Throng.Editor.Highlight
import Throng.Lib.Machine

/-!
# The highlighter's cache over whole runs

`stateAt` and `spansAt` are what parsing the whole text from line 0 gives. The cache is
good when every checkpoint and every cached line holds just that. A request that is
over its deadline leaves lines out without parsing them; a line after those whose
checkpoint is due then gets the state of the line it stopped at. So requests keep the
cache good as long as no checkpoint is due after a line left out.
-/

namespace Throng.Editor

namespace Highlighter

variable {S T σ : Type} (syntect : Syntect S T σ)

/-- The parser's state on reaching a line. -/
def stateAt (language : S) (theme : T) (rope : Rope) : Nat → σ
  | 0 => syntect.initial language theme
  | line + 1 => (parse syntect theme rope line (stateAt language theme rope line)).2

/-- The spans of a line when the whole text is parsed. -/
def spansAt (language : S) (theme : T) (rope : Rope) (line : Nat) : List Span :=
  (parse syntect theme rope line (stateAt syntect language theme rope line)).1

/-- What is parsed of a line depends on that line alone. -/
theorem parse_congr (theme : T) {rope rope' : Rope} {line : Nat}
    (h : (Rope.lines rope)[line]? = (Rope.lines rope')[line]?) (state : σ) :
    parse syntect theme rope line state = parse syntect theme rope' line state := by
  rw [parse, parse, h]

theorem stateAt_congr (language : S) (theme : T) {rope rope' : Rope} {line : Nat}
    (h : ∀ l < line, (Rope.lines rope)[l]? = (Rope.lines rope')[l]?) :
    stateAt syntect language theme rope line = stateAt syntect language theme rope' line := by
  induction line with
  | zero => rfl
  | succ line ih =>
      rw [stateAt, stateAt, ih fun l hl => h l (Nat.lt_succ_of_lt hl),
        parse_congr syntect theme (h line (Nat.lt_succ_self line))]

/-- Every checkpoint holds the state on reaching its line. -/
def GoodStates (language : S) (theme : T) (rope : Rope) (checkpoints : Checkpoints σ) : Prop :=
  ∀ k state, checkpoints.val[k]? = some state →
    state = stateAt syntect language theme rope (stride * k)

/-- Every cached line holds its spans. -/
def GoodLines (language : S) (theme : T) (rope : Rope)
    (cache : Std.ExtTreeMap Nat (List Span)) : Prop :=
  ∀ line spans, cache[line]? = some spans → spans = spansAt syntect language theme rope line

/-- Every line drawn holds its spans, the first of them those of line `start`. -/
def GoodOut (language : S) (theme : T) (rope : Rope) (start : Nat)
    (out : List (Option (List Span))) : Prop :=
  ∀ i spans, out[i]? = some (some spans) →
    spans = spansAt syntect language theme rope (start + i)

/-- The cache tells what parsing the whole text would. -/
structure Good (highlighter : Highlighter S T σ) (rope : Rope) : Prop where
  states : GoodStates syntect highlighter.language highlighter.theme rope highlighter.checkpoints
  lines : GoodLines syntect highlighter.language highlighter.theme rope highlighter.cache

section

variable {syntect} {language : S} {theme : T} {rope : Rope} {checkpoints : Checkpoints σ}
  {cache : Std.ExtTreeMap Nat (List Span)} {drawn : List (Option (List Span))} {start : Nat}

theorem GoodStates.initial :
    GoodStates syntect language theme rope ⟨[syntect.initial language theme], by simp⟩ := by
  intro k state h
  cases k with
  | zero => exact (Option.some.inj h).symm
  | succ k => simp at h

theorem GoodStates.push (h : GoodStates syntect language theme rope checkpoints) {state : σ}
    (hstate : state = stateAt syntect language theme rope (stride * checkpoints.length)) :
    GoodStates syntect language theme rope (checkpoints.push state) := by
  intro k kept hkept
  rw [Checkpoints.push] at hkept
  by_cases hk : k < checkpoints.val.length
  · rw [List.getElem?_append_left hk] at hkept
    exact h k kept hkept
  · have hlast : k = checkpoints.val.length := by
      have hlt := (List.getElem?_eq_some_iff.1 hkept).1
      rw [List.length_append, List.length_singleton] at hlt
      omega
    rw [hlast, List.getElem?_concat_length, Option.some.injEq] at hkept
    rw [← hkept, hstate, hlast]
    rfl

theorem GoodStates.last (h : GoodStates syntect language theme rope checkpoints) :
    checkpoints.last = stateAt syntect language theme rope (stride * (checkpoints.length - 1)) := by
  apply h
  rw [Checkpoints.last, Checkpoints.length, ← List.getLast?_eq_getElem?,
    List.getLast?_eq_getLast_of_ne_nil checkpoints.property]

theorem GoodLines.empty : GoodLines syntect language theme rope ∅ := by
  intro line spans h
  simp at h

theorem GoodLines.insert (h : GoodLines syntect language theme rope cache) (line : Nat) :
    GoodLines syntect language theme rope
      (cache.insert line (spansAt syntect language theme rope line)) := by
  intro l spans hl
  rw [Std.ExtTreeMap.getElem?_insert] at hl
  split at hl
  · rename_i heq
    rw [Std.LawfulEqCmp.compare_eq_iff_eq] at heq
    rw [← heq]
    exact (Option.some.inj hl).symm
  · exact h l spans hl

theorem GoodOut.append (h : GoodOut syntect language theme rope start drawn)
    {line : Nat} (hline : line = start + drawn.length) {next : Option (List Span)}
    (hnext : ∀ spans ∈ next, spans = spansAt syntect language theme rope line) :
    GoodOut syntect language theme rope start (drawn ++ [next]) := by
  intro i spans hi
  by_cases hlt : i < drawn.length
  · rw [List.getElem?_append_left hlt] at hi
    exact h i spans hi
  · have hlast : i = drawn.length := by
      have hsize := (List.getElem?_eq_some_iff.1 hi).1
      rw [List.length_append, List.length_singleton] at hsize
      omega
    rw [hlast, List.getElem?_concat_length, Option.some.injEq] at hi
    rw [hlast, ← hline]
    exact hnext spans (hi ▸ rfl)

theorem GoodLines.goodOut (h : GoodLines syntect language theme rope cache) (size : Nat) :
    GoodOut syntect language theme rope start
      ((List.range' start size).map fun line => cache[line]?) := by
  intro i spans hi
  rw [List.getElem?_map] at hi
  obtain ⟨line, hline, hspans⟩ := Option.map_eq_some_iff.1 hi
  have hstart : line = start + i := by
    obtain ⟨hsize, hget⟩ := List.getElem?_eq_some_iff.1 hline
    rw [List.getElem_range', Nat.one_mul] at hget
    exact hget.symm
  rw [← hstart]
  exact h line spans hspans

end

section

variable (language : S) (theme : T) (rope : Rope) {checkpoints : Checkpoints σ}

/-- Parsing `n` lines on takes the state from one line to the one `n` further, with a
look at the clock for each. -/
theorem parseLines_eq (line left n : Nat) :
    parseLines syntect theme rope (stateAt syntect language theme rope line) left
        (List.range' line n) =
      if left < n then none
      else some (stateAt syntect language theme rope (line + n), left - n) := by
  induction n generalizing line left with
  | zero => rw [List.range'_zero, parseLines, if_neg (Nat.not_lt_zero left)]; rfl
  | succ n ih =>
      rw [List.range'_succ]
      cases left with
      | zero => rw [parseLines, if_pos (Nat.succ_pos n)]
      | succ left =>
          have hstep := ih (line + 1) left
          rw [stateAt] at hstep
          rw [parseLines, hstep, Nat.add_right_comm line 1 n, Nat.add_sub_add_right]
          by_cases hlt : left < n
          · rw [if_pos hlt, if_pos (Nat.succ_lt_succ hlt)]
          · rw [if_neg hlt, if_neg (fun h => hlt (Nat.lt_of_succ_lt_succ h))]
            rfl

/-- Filling in checkpoints keeps them good, whether the time is enough or not. -/
theorem reach_spec (missing left : Nat) (h : GoodStates syntect language theme rope checkpoints) :
    ∃ checkpoints', GoodStates syntect language theme rope checkpoints' ∧
      ((reach syntect theme rope missing checkpoints left = (checkpoints', none) ∧
          left < stride * missing) ∨
        (reach syntect theme rope missing checkpoints left =
            (checkpoints', some (left - stride * missing)) ∧
          stride * missing ≤ left ∧
          checkpoints'.length = checkpoints.length + missing)) := by
  induction missing generalizing checkpoints left with
  | zero => exact ⟨checkpoints, h, .inr ⟨rfl, Nat.zero_le _, rfl⟩⟩
  | succ missing ih =>
      have hpos : 0 < checkpoints.length := List.length_pos_iff.2 checkpoints.property
      have hlines := parseLines_eq syntect language theme rope
        (stride * (checkpoints.length - 1)) left stride
      rw [← h.last, Nat.mul_comm] at hlines
      by_cases hlt : left < stride
      · rw [if_pos hlt] at hlines
        refine ⟨checkpoints, h, .inl ⟨?_, ?_⟩⟩
        · simp only [reach, hlines]
        · rw [Nat.mul_succ]
          omega
      · rw [if_neg hlt] at hlines
        have hnext : (checkpoints.length - 1) * stride + stride = stride * checkpoints.length := by
          rw [Nat.mul_comm stride, ← Nat.succ_mul]
          congr 1
          omega
        rw [hnext] at hlines
        have hpush := h.push rfl
        obtain ⟨checkpoints', hgood, hcases⟩ := ih (left - stride) hpush
        refine ⟨checkpoints', hgood, ?_⟩
        have hlen : (checkpoints.push (stateAt syntect language theme rope
            (stride * checkpoints.length))).length = checkpoints.length + 1 := by
          simp [Checkpoints.push, Checkpoints.length]
        rcases hcases with ⟨hreach, hleft⟩ | ⟨hreach, hleft, hsize⟩
        · refine .inl ⟨?_, ?_⟩
          · simp only [reach, hlines, hreach]
          · rw [Nat.mul_succ]
            omega
        · refine .inr ⟨?_, ?_, ?_⟩
          · simp only [reach, hlines, hreach, Nat.mul_succ]
            rw [Nat.sub_sub, Nat.add_comm stride]
          · rw [Nat.mul_succ]
            omega
          · rw [hsize, hlen]
            omega

/-! ## One request -/

/-- How many lines from `start` on and before `line` are not in the cache: each of them
takes a look at the clock. -/
def undrawn (cache : Std.ExtTreeMap Nat (List Span)) (start line : Nat) : Nat :=
  (List.range' start (line - start)).countP fun l => !cache.contains l

theorem undrawn_of_lt (cache : Std.ExtTreeMap Nat (List Span)) {start line : Nat}
    (h : line < start) : undrawn cache start (line + 1) = undrawn cache start line := by
  rw [undrawn, undrawn, Nat.sub_eq_zero_of_le h, Nat.sub_eq_zero_of_le (Nat.le_of_lt h)]

theorem undrawn_succ (cache : Std.ExtTreeMap Nat (List Span)) {start line : Nat}
    (h : start ≤ line) : undrawn cache start (line + 1) =
      undrawn cache start line + if cache.contains line then 0 else 1 := by
  have hsize : line + 1 - start = line - start + 1 := by omega
  have hlast : start + (line - start) = line := by omega
  rw [undrawn, undrawn, hsize, List.range'_concat, Nat.one_mul, hlast, List.countP_append,
    List.countP_singleton]
  cases cache.contains line <;> rfl

/-- The line is drawn in time: it is cached, or the clock has been looked at fewer than
`left` times when it comes up. -/
def DrawsLine (start left : Nat) (cache : Std.ExtTreeMap Nat (List Span)) (line : Nat) : Prop :=
  start ≤ line → cache.contains line = false → undrawn cache start line < left

instance (start left : Nat) (cache : Std.ExtTreeMap Nat (List Span)) (line : Nat) :
    Decidable (DrawsLine start left cache line) :=
  inferInstanceAs (Decidable (_ → _ → _))

/-- Every line before one whose checkpoint is due is drawn in time. -/
def Timely (known start stop left : Nat) (cache : Std.ExtTreeMap Nat (List Span)) : Prop :=
  ∀ due < stop, due % stride = 0 → known ≤ due / stride →
    ∀ line < due, DrawsLine start left cache line

instance (known start stop left : Nat) (cache : Std.ExtTreeMap Nat (List Span)) :
    Decidable (Timely known start stop left cache) :=
  inferInstanceAs (Decidable (∀ due < stop, _ → _ → ∀ line < due, DrawsLine start left cache line))

/-- Where the loop over the lines stands before `line`. The loop is in step with the
text, or past the deadline; then, if the request is `Timely`, no checkpoint is due in
what is left of its range. -/
structure Passing (known start stop left : Nat) (cache : Std.ExtTreeMap Nat (List Span))
    (line : Nat) (pass : Pass σ) : Prop where
  states : Timely known start stop left cache →
    GoodStates syntect language theme rope pass.checkpoints
  lines : GoodLines syntect language theme rope pass.cache
  out : GoodOut syntect language theme rope start pass.out
  size : pass.out.length = line - start
  ahead : ∀ l, line ≤ l → pass.cache[l]? = cache[l]?
  known_le : known ≤ pass.checkpoints.length
  state : (pass.state = stateAt syntect language theme rope line ∧
      pass.left + undrawn cache start line = left) ∨
    (pass.left = 0 ∧ (Timely known start stop left cache →
      ∀ due, line ≤ due → due < stop → due % stride = 0 →
        due / stride ≠ pass.checkpoints.length))

variable {language theme rope} {known start stop left line : Nat}
  {cache : Std.ExtTreeMap Nat (List Span)} {pass : Pass σ}

theorem Passing.keep
    (h : Passing syntect language theme rope known start stop left cache line pass)
    (hline : line < stop) :
    Passing syntect language theme rope known start stop left cache line (pass.keep line) := by
  rw [Pass.keep]
  by_cases hdue : line % stride = 0 ∧ line / stride = pass.checkpoints.length
  · have hat : stride * pass.checkpoints.length = line := by
      rw [← hdue.2, Nat.mul_div_cancel' (Nat.dvd_of_mod_eq_zero hdue.1)]
    have hlength : (pass.checkpoints.push pass.state).length = pass.checkpoints.length + 1 := by
      simp [Checkpoints.push, Checkpoints.length]
    rw [if_pos hdue]
    refine ⟨?_, h.lines, h.out, h.size, h.ahead, ?_, ?_⟩
    · intro htimely
      rcases h.state with ⟨hstate, -⟩ | ⟨-, hbehind⟩
      · apply (h.states htimely).push
        rw [hat]
        exact hstate
      · exact absurd hdue.2 (hbehind htimely line (Nat.le_refl line) hline hdue.1)
    · rw [hlength]
      exact Nat.le_succ_of_le h.known_le
    · rcases h.state with hstate | ⟨hleft, hbehind⟩
      · exact .inl hstate
      · exact .inr ⟨hleft, fun htimely =>
          absurd hdue.2 (hbehind htimely line (Nat.le_refl line) hline hdue.1)⟩
  · rw [if_neg hdue]
    exact h

theorem Passing.visit
    (h : Passing syntect language theme rope known start stop left cache line pass)
    (hline : line < stop) :
    Passing syntect language theme rope known start stop left cache (line + 1)
      (visit syntect theme rope start pass line) := by
  have hkeep := h.keep syntect hline
  have hnext : (parse syntect theme rope line (stateAt syntect language theme rope line)).2 =
      stateAt syntect language theme rope (line + 1) := rfl
  have hbehind {states : Checkpoints σ} (hb : Timely known start stop left cache →
      ∀ due, line ≤ due → due < stop → due % stride = 0 → due / stride ≠ states.length)
      (htimely : Timely known start stop left cache) (due : Nat) (hdue : line + 1 ≤ due) :
      due < stop → due % stride = 0 → due / stride ≠ states.length :=
    hb htimely due (Nat.le_of_succ_le hdue)
  rw [Highlighter.visit]
  generalize pass.keep line = pass at hkeep ⊢
  have hahead (l : Nat) (hl : line + 1 ≤ l) : pass.cache[l]? = cache[l]? :=
    hkeep.ahead l (Nat.le_of_succ_le hl)
  by_cases hstart : line < start
  · rw [if_pos hstart]
    refine ⟨hkeep.states, hkeep.lines, hkeep.out, ?_, hahead, hkeep.known_le, ?_⟩
    · have hsize := hkeep.size
      dsimp only
      omega
    · rcases hkeep.state with ⟨hstate, hleft⟩ | ⟨hleft, hb⟩
      · refine .inl ⟨?_, ?_⟩
        · dsimp only
          rw [hstate, hnext]
        · rw [undrawn_of_lt cache hstart]
          exact hleft
      · exact .inr ⟨hleft, hbehind hb⟩
  · have hle : start ≤ line := Nat.le_of_not_lt hstart
    have hdrawn : line = start + pass.out.length := by
      rw [hkeep.size]
      omega
    have hsize (next : Option (List Span)) :
        (pass.out ++ [next]).length = line + 1 - start := by
      rw [List.length_append, List.length_singleton, hkeep.size]
      omega
    have hcontains : cache.contains line = pass.cache[line]?.isSome := by
      rw [hkeep.ahead line (Nat.le_refl line), Std.ExtTreeMap.isSome_getElem?_eq_contains]
    rw [if_neg hstart]
    cases hcached : pass.cache[line]? with
    | some cached =>
        rw [hcached, Option.isSome_some] at hcontains
        refine ⟨hkeep.states, hkeep.lines, ?_, hsize _, hahead, hkeep.known_le, ?_⟩
        · apply hkeep.out.append hdrawn
          intro spans hspans
          obtain rfl := Option.mem_some_iff.1 hspans
          exact hkeep.lines line _ hcached
        · rcases hkeep.state with ⟨hstate, hleft⟩ | ⟨hleft, hb⟩
          · refine .inl ⟨?_, ?_⟩
            · dsimp only
              rw [hstate, hnext]
            · rw [undrawn_succ cache hle, if_pos hcontains]
              exact hleft
          · exact .inr ⟨hleft, hbehind hb⟩
    | none =>
        rw [hcached, Option.isSome_none] at hcontains
        dsimp only
        by_cases hout : pass.left = 0
        · -- the first line out of time: what comes after it stays behind
          rw [if_pos hout]
          refine ⟨hkeep.states, hkeep.lines, ?_, hsize _, hahead, hkeep.known_le, ?_⟩
          · apply hkeep.out.append hdrawn
            intro spans hspans
            exact absurd hspans (Option.not_mem_none _)
          · refine .inr ⟨hout, ?_⟩
            rcases hkeep.state with ⟨-, hleft⟩ | ⟨-, hb⟩
            · intro htimely due hdue hstop hmod heq
              have hlt := htimely due hstop hmod (heq ▸ hkeep.known_le) line hdue hle hcontains
              omega
            · exact hbehind hb
        · rw [if_neg hout]
          rcases hkeep.state with ⟨hstate, hleft⟩ | ⟨hleft, -⟩
          · have hspans : (parse syntect theme rope line pass.state).1 =
                spansAt syntect language theme rope line := by
              rw [hstate]
              rfl
            refine ⟨hkeep.states, ?_, ?_, hsize _, ?_, hkeep.known_le, .inl ⟨?_, ?_⟩⟩
            · dsimp only
              rw [hspans]
              exact hkeep.lines.insert line
            · apply hkeep.out.append hdrawn
              intro spans hmem
              obtain rfl := Option.mem_some_iff.1 hmem
              exact hspans
            · intro l hl
              dsimp only
              rw [Std.ExtTreeMap.getElem?_insert, if_neg, hahead l hl]
              rw [Std.LawfulEqCmp.compare_eq_iff_eq]
              omega
            · dsimp only
              rw [hstate, hnext]
            · rw [undrawn_succ cache hle, hcontains, if_neg Bool.false_ne_true]
              dsimp only
              omega
          · exact absurd hleft hout

theorem Passing.foldl (n : Nat)
    (h : Passing syntect language theme rope known start stop left cache line pass)
    (hline : line + n ≤ stop) :
    Passing syntect language theme rope known start stop left cache (line + n)
      ((List.range' line n).foldl (Highlighter.visit syntect theme rope start) pass) := by
  induction n generalizing line pass with
  | zero => exact h
  | succ n ih =>
      have hsum : line + (n + 1) = line + 1 + n := by omega
      rw [List.range'_succ, List.foldl_cons, hsum]
      exact ih (h.visit syntect (by omega)) (by omega)

/-- Drawing the lines from `start` to `stop` is in time: once the checkpoint before them
is reached, every line of them before a due checkpoint is drawn in time. -/
def DrawnInTime (highlighter : Highlighter S T σ) (start stop budget : Nat) : Prop :=
  (List.range' start (stop - start)).all (fun line => highlighter.cache.contains line) = false →
    stride * (start / stride + 1 - highlighter.checkpoints.length) ≤ budget →
      Timely highlighter.checkpoints.length start stop
        (budget - stride * (start / stride + 1 - highlighter.checkpoints.length)) highlighter.kept

instance (highlighter : Highlighter S T σ) (start stop budget : Nat) :
    Decidable (DrawnInTime highlighter start stop budget) :=
  inferInstanceAs (Decidable (_ → _ → Timely _ _ _ _ _))

/-- No checkpoint of the request's range is due after a line it leaves out. -/
def InTime (highlighter : Highlighter S T σ) (rope : Rope) (start stop budget : Nat) : Prop :=
  DrawnInTime highlighter (min start (Rope.lenLines rope)) (min stop (Rope.lenLines rope)) budget

instance (highlighter : Highlighter S T σ) (rope : Rope) (start stop budget : Nat) :
    Decidable (InTime highlighter rope start stop budget) :=
  inferInstanceAs (Decidable (DrawnInTime _ _ _ _))

/-- What a request draws is right, and if it is in time the cache stays good. -/
theorem Good.spans {highlighter : Highlighter S T σ} (h : Good syntect highlighter rope)
    (start stop budget : Nat) :
    ∃ highlighter' out,
      highlighter.spans syntect rope start stop budget = some (highlighter', out) ∧
      out.length = min stop (Rope.lenLines rope) - min start (Rope.lenLines rope) ∧
      GoodOut syntect highlighter.language highlighter.theme rope
        (min start (Rope.lenLines rope)) out ∧
      (InTime highlighter rope start stop budget → Good syntect highlighter' rope) := by
  have hkept : GoodLines syntect highlighter.language highlighter.theme rope highlighter.kept := by
    rw [kept]
    by_cases hsize : highlighter.cache.size > cacheLines
    · rw [if_pos hsize]
      exact GoodLines.empty
    · rw [if_neg hsize]
      exact h.lines
  rw [Highlighter.spans, InTime]
  generalize hfirst : min start (Rope.lenLines rope) = first
  generalize hlast : min stop (Rope.lenLines rope) = last
  have hlength (cache : Std.ExtTreeMap Nat (List Span)) :
      ((List.range' first (last - first)).map fun line => cache[line]?).length = last - first := by
    rw [List.length_map, List.length_range']
  cases hall : (List.range' first (last - first)).all
      fun line => highlighter.cache.contains line with
  | true =>
      rw [if_pos rfl]
      exact ⟨_, _, rfl, hlength _, h.lines.goodOut _, fun _ => h⟩
  | false =>
      rw [if_neg Bool.false_ne_true]
      obtain ⟨checkpoints, hstates, hreach⟩ := reach_spec syntect highlighter.language
        highlighter.theme rope (first / stride + 1 - highlighter.checkpoints.length) budget h.states
      rcases hreach with ⟨hreach, -⟩ | ⟨hreach, hcost, hsize⟩
      · rw [hreach, draw]
        exact ⟨_, _, rfl, hlength _, hkept.goodOut _, fun _ => ⟨hstates, hkept⟩⟩
      · have hnonempty : first < last := by
          by_contra hle
          rw [Nat.sub_eq_zero_of_le (Nat.le_of_not_lt hle)] at hall
          cases hall
        have hbase : first / stride * stride ≤ first := Nat.div_mul_le_self first stride
        have hwanted : first / stride < checkpoints.val.length := by
          rw [Checkpoints.length] at hsize
          omega
        obtain ⟨state, hstate⟩ : ∃ state, checkpoints.val[first / stride]? = some state :=
          ⟨_, List.getElem?_eq_getElem hwanted⟩
        have hbegin : Passing syntect highlighter.language highlighter.theme rope
            highlighter.checkpoints.length first last
            (budget - stride * (first / stride + 1 - highlighter.checkpoints.length))
            highlighter.kept (first / stride * stride)
            ⟨checkpoints, highlighter.kept, state,
              budget - stride * (first / stride + 1 - highlighter.checkpoints.length), []⟩ := by
          refine ⟨fun _ => hstates, hkept, fun i spans hi => by simp at hi, ?_, fun _ _ => rfl,
            by dsimp only; omega, .inl ⟨?_, ?_⟩⟩
          · rw [Nat.sub_eq_zero_of_le hbase]
            rfl
          · exact (hstates _ _ hstate).trans (congrArg _ (Nat.mul_comm _ _))
          · rw [undrawn, Nat.sub_eq_zero_of_le hbase]
            rfl
        have hend := hbegin.foldl syntect (last - first / stride * stride) (by omega)
        rw [Nat.add_sub_cancel' (by omega)] at hend
        rw [hreach, draw, hstate, Option.map_some]
        exact ⟨_, _, rfl, hend.size, hend.out, fun hintime =>
          ⟨hend.states (hintime hall hcost), hend.lines⟩⟩

end

/-! ## The machine -/

variable {syntect}

theorem good_reset (highlighter : Highlighter S T σ) (rope : Rope) :
    Good syntect (highlighter.reset syntect) rope :=
  ⟨GoodStates.initial, GoodLines.empty⟩

/-- What is kept when the text changes from `line` on does not depend on the change. -/
theorem Good.invalidateFrom {highlighter : Highlighter S T σ} {rope rope' : Rope} {line : Nat}
    (h : Good syntect highlighter rope)
    (hsame : (Rope.lines rope).take line = (Rope.lines rope').take line) :
    Good syntect (highlighter.invalidateFrom line) rope' := by
  have hlines (l : Nat) (hl : l < line) : (Rope.lines rope)[l]? = (Rope.lines rope')[l]? := by
    rw [← List.getElem?_take_of_lt hl, hsame, List.getElem?_take_of_lt hl]
  constructor
  · intro k state hk
    have hlt : k < line / stride + 1 := by
      have hlen := (List.getElem?_eq_some_iff.1 hk).1
      exact Nat.lt_of_lt_of_le hlen (List.length_take_le _ _)
    have hkept : highlighter.checkpoints.val[k]? = some state := by
      rwa [Highlighter.invalidateFrom, Checkpoints.truncate, List.getElem?_take_of_lt hlt] at hk
    have hbound : stride * k ≤ line := by
      have hdiv := Nat.mul_div_le line stride
      exact Nat.le_trans (Nat.mul_le_mul_left stride (Nat.le_of_lt_succ hlt)) hdiv
    rw [h.states k state hkept]
    exact stateAt_congr syntect _ _ fun l hl => hlines l (Nat.lt_of_lt_of_le hl hbound)
  · intro l spans hl
    rw [Highlighter.invalidateFrom] at hl
    dsimp only at hl
    rw [Std.ExtTreeMap.getElem?_filter'] at hl
    obtain ⟨hcached, hlt⟩ := Option.filter_eq_some_iff.1 hl
    have hline := of_decide_eq_true hlt
    rw [h.lines l spans hcached, spansAt, spansAt, parse_congr syntect _ (hlines l hline),
      stateAt_congr syntect _ _ fun l' hl' => hlines l' (Nat.lt_trans hl' hline)]
    rfl

end Highlighter

namespace HighlightRun

variable {S T σ : Type} [DecidableEq S]

structure Sys (S T σ : Type) where
  highlighter : Highlighter S T σ
  rope : Rope

/-- What happens: a request with the number of times it may look at the clock; an edit
to a new text, with the first line it touched; a new theme or language; a whole-text
replacement. -/
inductive Act (S T : Type)
  | spans (start stop budget : Nat)
  | edit (rope : Rope) (line : Nat)
  | setTheme (theme : T)
  | setSyntax (language : S)
  | reset (rope : Rope)

variable (syntect : Syntect S T σ)

/-- The highlighter after a request and what it drew. -/
def asked (s : Sys S T σ) (start stop budget : Nat) :
    Option (Highlighter S T σ × List (Option (List Span))) :=
  s.highlighter.spans syntect s.rope start stop budget

def machine : Machine (Sys S T σ) (Act S T) where
  init s := ∃ language theme rope, s = ⟨.new syntect language theme, rope⟩
  step s
    | .spans start stop budget => (asked syntect s start stop budget).map fun result =>
        { s with highlighter := result.1 }
    | .edit rope line =>
        if (Rope.lines s.rope).take line = (Rope.lines rope).take line then
          some ⟨s.highlighter.invalidateFrom line, rope⟩
        else none
    | .setTheme theme => some { s with highlighter := s.highlighter.setTheme syntect theme }
    | .setSyntax language => some { s with highlighter := s.highlighter.setSyntax syntect language }
    | .reset rope => some ⟨s.highlighter.reset syntect, rope⟩

/-- Requests are in time. -/
def InTime (s : Sys S T σ) : Act S T → Prop
  | .spans start stop budget => s.highlighter.InTime s.rope start stop budget
  | _ => True

instance : DecidableRel (InTime : Sys S T σ → Act S T → Prop) := fun _ a =>
  match a with
  | .spans _ _ _ => inferInstanceAs (Decidable (Highlighter.InTime _ _ _ _ _))
  | .edit _ _ | .setTheme _ | .setSyntax _ | .reset _ => isTrue trivial

/-- The cache cannot be told from parsing the whole text anew. -/
structure Transparent (s : Sys S T σ) : Prop where
  checkpoints : ∀ k state, s.highlighter.checkpoints.val[k]? = some state →
    state = Highlighter.stateAt syntect s.highlighter.language s.highlighter.theme s.rope (32 * k)
  answers : ∀ start stop budget, ∃ highlighter out,
    asked syntect s start stop budget = some (highlighter, out) ∧
      out.length = min stop (Rope.lenLines s.rope) - min start (Rope.lenLines s.rope) ∧
        ∀ i spans, out[i]? = some (some spans) →
          spans = Highlighter.spansAt syntect s.highlighter.language s.highlighter.theme s.rope
            (min start (Rope.lenLines s.rope) + i)

variable {syntect}

theorem good_step {s s' : Sys S T σ} {a : Act S T} (h : s.highlighter.Good syntect s.rope)
    (hok : InTime s a) (hstep : (machine syntect).step s a = some s') :
    s'.highlighter.Good syntect s'.rope := by
  cases a with
  | spans start stop budget =>
      obtain ⟨highlighter, out, hspans, -, -, hgood⟩ := h.spans syntect start stop budget
      simp only [machine, asked, hspans, Option.map_some, Option.some.injEq] at hstep
      subst hstep
      exact hgood hok
  | edit rope line =>
      obtain ⟨hsame, hstep⟩ := Option.ite_none_right_eq_some.1 hstep
      rw [Option.some.injEq] at hstep
      subst hstep
      exact h.invalidateFrom hsame
  | setTheme theme =>
      cases hstep
      exact Highlighter.good_reset _ _
  | setSyntax language =>
      cases hstep
      dsimp only
      rw [Highlighter.setSyntax]
      by_cases hlanguage : s.highlighter.language ≠ language
      · rw [if_pos hlanguage]
        exact Highlighter.good_reset _ _
      · rw [if_neg hlanguage]
        exact h
  | reset rope =>
      cases hstep
      exact Highlighter.good_reset _ _

/-- In every run whose requests are in time, the cache is transparent. -/
theorem transparent_of_reach {s : Sys S T σ} (h : (machine syntect).Reach InTime s) :
    Transparent syntect s := by
  have hgood : s.highlighter.Good syntect s.rope := by
    refine h.invariant ?_ fun s a s' hs hok hstep => good_step hs hok hstep
    rintro s ⟨language, theme, rope, rfl⟩
    exact ⟨Highlighter.GoodStates.initial, Highlighter.GoodLines.empty⟩
  refine ⟨hgood.states, ?_⟩
  intro start stop budget
  obtain ⟨highlighter, out, hspans, hlength, hout, -⟩ := hgood.spans syntect start stop budget
  exact ⟨highlighter, out, hspans, hlength, hout⟩

/-- A parser that numbers the lines. -/
def numbering : Syntect Unit Unit Nat where
  initial _ _ := 0
  parseLine _ state _ := (some [], state + 1)

def blank (n : Nat) : Sys Unit Unit Nat :=
  ⟨.new numbering () (), List.replicate n '\n'⟩

set_option maxRecDepth 2000 in
/-- A request that fills in a checkpoint in time, one that gives up with no checkpoint
due, and an edit. -/
theorem transparent_scrolled : ∃ s, (machine numbering).Reach InTime s ∧
    s.highlighter.checkpoints.length = 2 ∧ Transparent numbering s := by
  have hinit : (machine numbering).Reach InTime (blank 40) := .init ⟨(), (), _, rfl⟩
  obtain ⟨s, h, hs⟩ := hinit.exists_of_exec
    [.spans 30 40 100, .spans 0 40 2, .edit (List.replicate 36 '\n') 35]
    (fun s => s.highlighter.checkpoints.length = 2) (by decide)
  exact ⟨s, h, of_decide_eq_true hs, transparent_of_reach h⟩

set_option maxRecDepth 2000 in
/-- A request over the deadline from its first line on still stores the checkpoint of
line 32, with the state of line 0. -/
theorem not_transparent :
    ¬ ∀ s, (machine numbering).Reach Machine.anyStep s → Transparent numbering s := by
  intro h
  have hinit : (machine numbering).Reach Machine.anyStep (blank 40) := .init ⟨(), (), _, rfl⟩
  obtain ⟨s, hreach, hs⟩ := hinit.exists_of_exec [.spans 0 40 0]
    (fun s => s.highlighter.checkpoints.val[1]? = some 0 &&
      Highlighter.stateAt numbering s.highlighter.language s.highlighter.theme s.rope 32 = 32)
    (by decide)
  simp only [Bool.and_eq_true, decide_eq_true_eq] at hs
  have hstate := (h s hreach).checkpoints 1 0 hs.1
  rw [hs.2] at hstate
  cases hstate

end HighlightRun

end Throng.Editor
