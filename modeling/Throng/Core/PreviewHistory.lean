import Throng.Core.Panel
import Throng.Lib.Zipper

/-!
# Where a preview has been

A preview keeps the places it has shown in one vector, and the number of the one it shows.
What was stored may not fit together: the number may be past the end, or name another file.
Then the history starts again from the file shown, at the first step and not before, and
until then there is nowhere to go. So every stored config stands for a zipper of places, and
each operation for one on zippers.
-/

namespace Throng

/-- `==` of `Path`, which compares components: one path may be spelled in several ways. -/
structure PathEq where
  eq : PathBuf → PathBuf → Bool
  refl : ∀ path, eq path path = true

namespace PreviewPanelConfig

variable (paths : PathEq)

/-- A preview that has shown one file. -/
def new (path : PathBuf) : PreviewPanelConfig := { path := path, history := [], at_ := 0 }

/-- The entry at `at_` names the file shown. -/
def current (config : PreviewPanelConfig) : Bool :=
  config.history[config.at_]?.any fun entry => paths.eq entry.path config.path

/-- The history as it stands, started when there is none or it no longer matches. -/
def started (config : PreviewPanelConfig) : PreviewPanelConfig :=
  if config.current paths then config
  else { config with history := [{ path := config.path, scroll := 0 }], at_ := 0 }

/-- `self.history[self.at].scroll = scroll`; `none` where the index panics. -/
def leave (config : PreviewPanelConfig) (scroll : Nat) : Option PreviewPanelConfig :=
  config.history[config.at_]?.map fun entry =>
    { config with history := config.history.set config.at_ { entry with scroll := scroll } }

/-- Keep at most `cap` entries, dropping the oldest and never the current one. A `u64` index
at its limit only ever stands where nothing is dropped, so that `at + 1` may be taken as it
is. -/
def cap (config : PreviewPanelConfig) (cap : Nat) : PreviewPanelConfig :=
  let excess := config.history.length - max cap 1
  let drop := min excess config.at_
  let at' := config.at_ - drop
  { config with
    history := (config.history.drop drop).take (max (max cap 1) (at' + 1))
    at_ := at' }

/-- `PreviewPanelConfig::open`: show `path` next. -/
def openPath (config : PreviewPanelConfig) (path : PathBuf) (scroll cap : Nat) :
    Option PreviewPanelConfig :=
  ((config.started paths).leave scroll).map fun config =>
    let history := config.history.take (config.at_ + 1) ++ [{ path := path, scroll := 0 }]
    PreviewPanelConfig.cap { path := path, history := history, at_ := history.length - 1 } cap

def step (config : PreviewPanelConfig) (scroll dest : Nat) :
    Option (PreviewPanelConfig × Option HistoryEntry) :=
  (config.leave scroll).bind fun config =>
    config.history[dest]?.map fun entry =>
      ({ config with at_ := dest, path := entry.path }, some entry)

/-- Step to the entry before this one. -/
def back (config : PreviewPanelConfig) (scroll : Nat) :
    Option (PreviewPanelConfig × Option HistoryEntry) :=
  let config := config.started paths
  if config.at_ = 0 then some (config, none) else config.step scroll (config.at_ - 1)

/-- Step to the entry after this one. -/
def forward (config : PreviewPanelConfig) (scroll : Nat) :
    Option (PreviewPanelConfig × Option HistoryEntry) :=
  let config := config.started paths
  let next := config.at_ + 1
  if next < config.history.length then config.step scroll next else some (config, none)

def canBack (config : PreviewPanelConfig) : Bool :=
  decide (0 < config.at_) && config.current paths

def canForward (config : PreviewPanelConfig) : Bool :=
  decide (config.at_ + 1 < config.history.length) && config.current paths

/-- The places the config stands for. -/
structure Visits (config : PreviewPanelConfig) (places : Zipper HistoryEntry) : Prop where
  started : Zipper.Shows (config.started paths).history (config.started paths).at_ places
  path : paths.eq places.current.path config.path = true

variable {paths} {config : PreviewPanelConfig} {places : Zipper HistoryEntry}

theorem current_eq_true : config.current paths = true ↔
    ∃ entry, config.history[config.at_]? = some entry ∧ paths.eq entry.path config.path = true := by
  rw [current, Option.any_eq_true]

theorem started_of_current (h : config.current paths = true) : config.started paths = config :=
  if_pos h

theorem started_of_not_current (h : ¬ config.current paths = true) : config.started paths =
    { config with history := [{ path := config.path, scroll := 0 }], at_ := 0 } := if_neg h

theorem started_path (config : PreviewPanelConfig) : (config.started paths).path = config.path := by
  rw [started]
  split <;> rfl

theorem current_started (config : PreviewPanelConfig) :
    (config.started paths).current paths = true := by
  by_cases h : config.current paths = true
  · rwa [started_of_current h]
  · rw [started_of_not_current h, current_eq_true]
    exact ⟨_, rfl, paths.refl _⟩

/-- A config that fits together is seen from the entry it shows. -/
theorem Visits.shows (h : Visits paths config places) (hcurrent : config.current paths = true) :
    Zipper.Shows config.history config.at_ places := by
  have hshows := h.started
  rwa [started_of_current hcurrent] at hshows

theorem visits_of_shows (h : Zipper.Shows config.history config.at_ places)
    (hpath : paths.eq places.current.path config.path = true) :
    config.current paths = true ∧ Visits paths config places := by
  have hcurrent : config.current paths = true := current_eq_true.2 ⟨_, h.getElem?, hpath⟩
  exact ⟨hcurrent, by rwa [started_of_current hcurrent], hpath⟩

theorem Visits.of_started (h : Visits paths config places) :
    Visits paths (config.started paths) places where
  started := by
    rw [started_of_current (current_started config)]
    exact h.started
  path := by
    rw [started_path]
    exact h.path

/-- Every stored config stands for a zipper of places. -/
theorem exists_visits (paths : PathEq) (config : PreviewPanelConfig) :
    ∃ places, Visits paths config places := by
  obtain ⟨entry, hentry, hpath⟩ := current_eq_true.1 (@current_started paths config)
  obtain ⟨places, hshows, rfl⟩ := Zipper.exists_shows hentry
  rw [started_path] at hpath
  exact ⟨places, hshows, hpath⟩

/-- A config that does not fit together stands for the file it shows. -/
theorem Visits.eq_single (h : Visits paths config places)
    (hcurrent : ¬ config.current paths = true) :
    places = Zipper.single { path := config.path, scroll := 0 } := by
  have hshows := h.started
  rw [started_of_not_current hcurrent] at hshows
  exact hshows.unique (Zipper.shows_single _)

/-! ## One call -/

theorem leave_of_shows (h : Zipper.Shows config.history config.at_ places) (scroll : Nat) :
    ∃ config', config.leave scroll = some config' ∧ config'.path = config.path ∧
      config'.at_ = config.at_ ∧ Zipper.Shows config'.history config'.at_
        (places.put { places.current with scroll := scroll }) := by
  rw [leave, h.getElem?, Option.map_some]
  exact ⟨_, rfl, rfl, rfl, h.put _⟩

theorem getElem?_cap (config : PreviewPanelConfig) (n : Nat) :
    (config.cap n).history[(config.cap n).at_]? = config.history[config.at_]? := by
  simp only [cap]
  rw [List.getElem?_take_of_lt (by omega), List.getElem?_drop]
  congr 1
  omega

theorem current_cap (config : PreviewPanelConfig) (n : Nat) :
    (config.cap n).current paths = config.current paths := by
  rw [current, current, getElem?_cap]
  rfl

theorem Visits.cap (h : Visits paths config places) (n : Nat) :
    Visits paths (config.cap n) (places.keep (max n 1)) := by
  by_cases hcurrent : config.current paths = true
  · have hpos : 0 < max n 1 := Nat.lt_of_lt_of_le Nat.one_pos (Nat.le_max_right n 1)
    exact (@visits_of_shows paths (config.cap n) _ ((h.shows hcurrent).keep hpos) h.path).2
  · rw [h.eq_single hcurrent, Zipper.keep_single]
    refine ⟨?_, paths.refl _⟩
    rw [started_of_not_current (by rwa [current_cap])]
    exact Zipper.shows_single _

theorem length_cap (config : PreviewPanelConfig) (n : Nat) :
    (config.cap n).history.length ≤ max n 1 := by
  simp only [PreviewPanelConfig.cap, List.length_take, List.length_drop]
  omega

/-- The places after `openPath`. -/
def visited (places : Zipper HistoryEntry) (path : PathBuf) (scroll cap : Nat) :
    Zipper HistoryEntry :=
  ((places.put { places.current with scroll := scroll }).visit
    { path := path, scroll := 0 }).keep (max cap 1)

theorem Visits.openPath (h : Visits paths config places) (path : PathBuf) (scroll cap : Nat) :
    ∃ config', config.openPath paths path scroll cap = some config' ∧
      config'.current paths = true ∧ config'.history.length ≤ max cap 1 ∧
        Visits paths config' (visited places path scroll cap) := by
  obtain ⟨left, hleft, -, -, hshows⟩ := leave_of_shows h.started scroll
  have hvisit := hshows.visit { path := path, scroll := 0 }
  have hlast : (left.history.take (left.at_ + 1) ++
      [({ path := path, scroll := 0 } : HistoryEntry)]).length - 1 = left.at_ + 1 := by
    rw [List.length_append, List.length_take_of_le hshows.lt, List.length_singleton,
      Nat.add_sub_cancel]
  obtain ⟨hcurrent, hvisits⟩ := @visits_of_shows paths
    { path := path
      history := left.history.take (left.at_ + 1) ++ [{ path := path, scroll := 0 }]
      at_ := left.at_ + 1 } _ hvisit (paths.refl _)
  rw [PreviewPanelConfig.openPath, hleft, Option.map_some]
  dsimp only
  rw [hlast]
  exact ⟨_, rfl, by rwa [current_cap], length_cap _ _, hvisits.cap cap⟩

theorem Visits.step {places' : Zipper HistoryEntry} (h : Visits paths config places)
    (hcurrent : config.current paths = true) (scroll dest : Nat)
    (hdest : ∀ history, Zipper.Shows history config.at_
        (places.put { places.current with scroll := scroll }) →
      Zipper.Shows history dest places') :
    ∃ config', config.step scroll dest = some (config', some places'.current) ∧
      config'.current paths = true ∧ Visits paths config' places' := by
  obtain ⟨left, hleft, -, hat, hshows⟩ := leave_of_shows (h.shows hcurrent) scroll
  rw [hat] at hshows
  have hnext := hdest _ hshows
  obtain ⟨hcurrent', hvisits⟩ := @visits_of_shows paths
    { path := places'.current.path, history := left.history, at_ := dest } _ hnext (paths.refl _)
  rw [PreviewPanelConfig.step, hleft, Option.bind_some, hnext.getElem?, Option.map_some]
  exact ⟨_, rfl, hcurrent', hvisits⟩

/-- The places after `back`, and the one it returns. -/
def wentBack (places : Zipper HistoryEntry) (scroll : Nat) :
    Zipper HistoryEntry × Option HistoryEntry :=
  (places.put { places.current with scroll := scroll }).back.elim (places, none)
    fun next => (next, some next.current)

/-- The places after `forward`, and the one it returns. -/
def wentForward (places : Zipper HistoryEntry) (scroll : Nat) :
    Zipper HistoryEntry × Option HistoryEntry :=
  (places.put { places.current with scroll := scroll }).forward.elim (places, none)
    fun next => (next, some next.current)

theorem Visits.back (h : Visits paths config places) (scroll : Nat) :
    ∃ config', config.back paths scroll = some (config', (wentBack places scroll).2) ∧
      config'.current paths = true ∧ Visits paths config' (wentBack places scroll).1 := by
  have hput := h.started.put { places.current with scroll := scroll }
  rw [PreviewPanelConfig.back, wentBack]
  cases hback : (places.put { places.current with scroll := scroll }).back with
  | none =>
      rw [if_pos (hput.back_eq_none.1 hback)]
      exact ⟨_, rfl, current_started config, h.of_started⟩
  | some next =>
      have hpos := (hput.back hback).1
      rw [if_neg (Nat.ne_of_gt hpos)]
      exact h.of_started.step (current_started config) scroll _ fun _ hshows =>
        (hshows.back hback).2

theorem Visits.forward (h : Visits paths config places) (scroll : Nat) :
    ∃ config', config.forward paths scroll = some (config', (wentForward places scroll).2) ∧
      config'.current paths = true ∧ Visits paths config' (wentForward places scroll).1 := by
  have hput := h.started.put { places.current with scroll := scroll }
  rw [PreviewPanelConfig.forward, wentForward]
  cases hforward : (places.put { places.current with scroll := scroll }).forward with
  | none =>
      have hlast := hput.forward_eq_none.1 hforward
      rw [List.length_set] at hlast
      rw [if_neg (Nat.not_lt.2 hlast)]
      exact ⟨_, rfl, current_started config, h.of_started⟩
  | some next =>
      have hlt := (hput.forward hforward).1
      rw [List.length_set] at hlt
      rw [if_pos hlt]
      exact h.of_started.step (current_started config) scroll _ fun _ hshows =>
        (hshows.forward hforward).2

/-! ## Runs -/

end PreviewPanelConfig

/-- What is called on a preview's config. -/
inductive PreviewCall
  | openPath (path : PathBuf) (scroll cap : Nat)
  | back (scroll : Nat)
  | forward (scroll : Nat)
  | cap (cap : Nat)
deriving DecidableEq, Repr

namespace PreviewPanelConfig

/-- Whether the call starts the history. -/
def starts : PreviewCall → Bool
  | .cap _ => false
  | _ => true

/-- One call, with the entry it returns. -/
def call (paths : PathEq) (config : PreviewPanelConfig) :
    PreviewCall → Option (PreviewPanelConfig × Option HistoryEntry)
  | .openPath path scroll cap =>
      (config.openPath paths path scroll cap).map fun next => (next, none)
  | .back scroll => config.back paths scroll
  | .forward scroll => config.forward paths scroll
  | .cap cap => some (config.cap cap, none)

/-- The calls one after the other, with the entries they return. -/
def run (paths : PathEq) : PreviewPanelConfig → List PreviewCall →
    Option (PreviewPanelConfig × List (Option HistoryEntry))
  | config, [] => some (config, [])
  | config, call :: calls =>
      (config.call paths call).bind fun result =>
        (run paths result.1 calls).map fun last => (last.1, result.2 :: last.2)

/-- The same call on the places. -/
def visit (places : Zipper HistoryEntry) : PreviewCall → Zipper HistoryEntry × Option HistoryEntry
  | .openPath path scroll cap => (visited places path scroll cap, none)
  | .back scroll => wentBack places scroll
  | .forward scroll => wentForward places scroll
  | .cap cap => (places.keep (max cap 1), none)

def visitAll : Zipper HistoryEntry → List PreviewCall →
    Zipper HistoryEntry × List (Option HistoryEntry)
  | places, [] => (places, [])
  | places, call :: calls =>
      ((visitAll (visit places call).1 calls).1,
        (visit places call).2 :: (visitAll (visit places call).1 calls).2)

theorem Visits.call (h : Visits paths config places) (call : PreviewCall) :
    ∃ config', config.call paths call = some (config', (visit places call).2) ∧
      Visits paths config' (visit places call).1 ∧
        (starts call = true ∨ config.current paths = true → config'.current paths = true) := by
  cases call with
  | openPath path scroll cap =>
      obtain ⟨config', hopen, hcurrent, -, hvisits⟩ := h.openPath path scroll cap
      exact ⟨config', by rw [PreviewPanelConfig.call, hopen]; rfl, hvisits, fun _ => hcurrent⟩
  | back scroll =>
      obtain ⟨config', hback, hcurrent, hvisits⟩ := h.back scroll
      exact ⟨config', hback, hvisits, fun _ => hcurrent⟩
  | forward scroll =>
      obtain ⟨config', hforward, hcurrent, hvisits⟩ := h.forward scroll
      exact ⟨config', hforward, hvisits, fun _ => hcurrent⟩
  | cap cap =>
      refine ⟨config.cap cap, rfl, h.cap cap, ?_⟩
      rintro (hstarts | hcurrent)
      · cases hstarts
      · rwa [current_cap]

theorem Visits.run (h : Visits paths config places) (calls : List PreviewCall) :
    ∃ config', config.run paths calls = some (config', (visitAll places calls).2) ∧
      Visits paths config' (visitAll places calls).1 ∧
        (calls.any starts = true ∨ config.current paths = true →
          config'.current paths = true) := by
  induction calls generalizing config places with
  | nil => exact ⟨config, rfl, h, fun hstarted => hstarted.resolve_left Bool.false_ne_true⟩
  | cons call calls ih =>
      obtain ⟨next, hcall, hnext, hcurrent⟩ := h.call call
      obtain ⟨config', hrun, hvisits, hstarted⟩ := ih hnext
      refine ⟨config', ?_, hvisits, ?_⟩
      · rw [PreviewPanelConfig.run, hcall, Option.bind_some, hrun]
        rfl
      · intro hany
        rw [List.any_cons, Bool.or_eq_true, or_assoc, or_left_comm] at hany
        rcases hany with hany | hany
        · exact hstarted (.inl hany)
        · exact hstarted (.inr (hcurrent hany))

/-- What a browser's history promises of a config that stands for `places`. -/
structure Browses (paths : PathEq) (config : PreviewPanelConfig) (places : Zipper HistoryEntry) :
    Prop where
  visits : Visits paths config places
  canBack : ∀ scroll, ∃ next entry, config.back paths scroll = some (next, entry) ∧
    (config.canBack paths = true ↔ entry.isSome = true)
  canForward : ∀ scroll, ∃ next entry, config.forward paths scroll = some (next, entry) ∧
    (config.canForward paths = true ↔ entry.isSome = true)
  return_ : ∀ scroll scroll' next entry, config.back paths scroll = some (next, some entry) →
    ∃ last, next.forward paths scroll' =
      some (last, some { places.current with scroll := scroll })
  opened : ∀ path scroll cap, ∃ next dropped, config.openPath paths path scroll cap = some next ∧
    dropped ++ next.history = places.past.reverse ++
      [{ places.current with scroll := scroll }, { path := path, scroll := 0 }] ∧
    (dropped ≠ [] → next.history.length = max cap 1) ∧ next.history.length ≤ max cap 1
  capped : ∀ cap, (config.cap cap).history.length ≤ max cap 1

theorem isSome_wentBack (places : Zipper HistoryEntry) (scroll : Nat) :
    (wentBack places scroll).2.isSome = true ↔ places.back ≠ none := by
  rw [wentBack, Zipper.back, Zipper.back, Zipper.put]
  cases places.past <;> simp

theorem isSome_wentForward (places : Zipper HistoryEntry) (scroll : Nat) :
    (wentForward places scroll).2.isSome = true ↔ places.forward ≠ none := by
  rw [wentForward, Zipper.forward, Zipper.forward, Zipper.put]
  cases places.future <;> simp

theorem Visits.canBack_iff (h : Visits paths config places) :
    config.canBack paths = true ↔ places.back ≠ none := by
  rw [ne_eq, h.started.back_eq_none, canBack, Bool.and_eq_true, decide_eq_true_eq]
  by_cases hcurrent : config.current paths = true
  · rw [started_of_current hcurrent, and_iff_left hcurrent, Nat.pos_iff_ne_zero]
  · rw [started_of_not_current hcurrent]
    simp [hcurrent]

theorem Visits.canForward_iff (h : Visits paths config places) :
    config.canForward paths = true ↔ places.forward ≠ none := by
  rw [ne_eq, h.started.forward_eq_none, canForward, Bool.and_eq_true, decide_eq_true_eq, Nat.not_le]
  by_cases hcurrent : config.current paths = true
  · rw [started_of_current hcurrent, and_iff_left hcurrent]
  · rw [started_of_not_current hcurrent]
    simp [hcurrent]

theorem Visits.browses (h : Visits paths config places) : Browses paths config places where
  visits := h
  canBack := by
    intro scroll
    obtain ⟨next, hback, -⟩ := h.back scroll
    exact ⟨next, _, hback, by rw [isSome_wentBack, h.canBack_iff]⟩
  canForward := by
    intro scroll
    obtain ⟨next, hforward, -⟩ := h.forward scroll
    exact ⟨next, _, hforward, by rw [isSome_wentForward, h.canForward_iff]⟩
  return_ := by
    intro scroll scroll' next entry hback
    obtain ⟨next', hback', -, hvisits⟩ := h.back scroll
    rw [hback, Option.some.injEq, Prod.mk.injEq] at hback'
    obtain ⟨rfl, hentry⟩ := hback'
    obtain ⟨last, hforward, -⟩ := hvisits.forward scroll'
    rw [wentBack] at hentry hforward
    cases hput : (places.put { places.current with scroll := scroll }).back with
    | none =>
        rw [hput] at hentry
        cases hentry
    | some back =>
        rw [hput, wentForward] at hforward
        dsimp only [Option.elim] at hforward
        rw [Zipper.forward_of_back hput] at hforward
        exact ⟨last, hforward⟩
  opened := by
    intro path scroll cap
    obtain ⟨next, hopen, hcurrent, hlength, hvisits⟩ := h.openPath path scroll cap
    obtain ⟨dropped, hdropped, hfull⟩ := Zipper.exists_toList_keep
      (Nat.lt_of_lt_of_le Nat.one_pos (Nat.le_max_right cap 1))
      (z := (places.put { places.current with scroll := scroll }).visit
        { path := path, scroll := 0 }) rfl
    have hlist := (hvisits.shows hcurrent).list
    rw [visited] at hlist
    rw [← hlist] at hdropped hfull
    refine ⟨next, dropped, hopen, hdropped.trans ?_, hfull, hlength⟩
    rw [Zipper.toList, Zipper.visit, List.reverse_cons, List.append_assoc]
    rfl
  capped := length_cap config

/-- The history of a preview is that of a browser: after any calls, from any stored config,
the calls have done and returned what they do on the zipper of places, and the file shown is
the current one once a call has started the history. -/
theorem run_browses (paths : PathEq) (config : PreviewPanelConfig) (calls : List PreviewCall) :
    ∃ places config', Visits paths config places ∧
      config.run paths calls = some (config', (visitAll places calls).2) ∧
        Browses paths config' (visitAll places calls).1 ∧
          (calls.any starts = true → config'.current paths = true) := by
  obtain ⟨places, hvisits⟩ := exists_visits paths config
  obtain ⟨config', hrun, hlast, hcurrent⟩ := hvisits.run calls
  exact ⟨places, config', hvisits, hrun, hlast.browses, fun hany => hcurrent (.inl hany)⟩

end PreviewPanelConfig

end Throng
