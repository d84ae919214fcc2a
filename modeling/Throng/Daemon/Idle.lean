import Throng.Daemon.Places

/-!
# The idle watcher

The watcher counts the sessions that run: those in `ending`, then, with that lock still
held, those in `sessions`, each asked on its own whether it has exited. It then takes both
locks back, takes `sessions` once more for its length, and subtracts. Client threads and
exits come in between wherever no lock keeps them out.
-/

namespace Throng.Daemon.Idle

open Server (Sys Sid Act Tid)

/-- How far the watcher is in a check. -/
inductive WatchPc
  | sleeping
  /-- It has counted the clients. -/
  | woken (clients : Nat)
  /-- It holds `ending`, and keeps the sessions there that have not exited. -/
  | retaining (clients : Nat) (kept left : List Sid)
  /-- It holds `sessions` too, and adds those that have not exited. -/
  | counting (clients : Nat) (counted left : List Sid)
  /-- It knows the number of live sessions, and holds nothing. -/
  | counted (clients : Nat) (counted : List Sid)
  /-- It has both numbers. -/
  | subtracting (clients : Nat) (counted : List Sid) (entered : Nat)
  | gone
deriving DecidableEq

/-- The request's step takes the lock of `sessions`. -/
def takesSessions : Act → Bool
  | .spawnLookup _ _ | .spawnInsert _ | .killRemove _ _ | .closeLookup _ _ | .forget _ _
  | .sessionEnded _ | .collectSessions => true
  | _ => false

/-- The request's step takes the lock of `ending`. -/
def takesEnding : Act → Bool
  | .killPush _ | .liveSessions | .collectEnding => true
  | _ => false

namespace WatchPc

/-- The locks the watcher holds leave room for the step. -/
def allows : WatchPc → Act → Bool
  | .retaining _ _ _, act => !takesEnding act
  | .counting _ _ _, act => !takesEnding act && !takesSessions act
  | _, _ => true

/-- The sessions that are counted so far. -/
def seen : WatchPc → List Sid
  | .retaining _ kept _ => kept
  | .counting _ seen _ | .counted _ seen | .subtracting _ seen _ => seen
  | _ => []

/-- It has begun to count, and has not decided yet. -/
def counts : WatchPc → Bool
  | .counting _ _ _ | .counted _ _ | .subtracting _ _ _ => true
  | _ => false

end WatchPc

/-- How the daemon runs: the size of the tails, and after how long it goes, in milliseconds. -/
structure Config where
  tailBytes : Nat
  idleExit : Nat
  unreadExit : Nat

structure Watched where
  sys : Sys
  watch : WatchPc
  idleSince : Option Nat

inductive Action
  /-- A client's thread, an exit or the accept loop takes a step. -/
  | server (act : Act)
  /-- Another thread that counts takes a session that has exited out of `ending`. -/
  | purge (sid : Sid)
  | wake (clients : Nat)
  /-- The daemon is stopping. -/
  | leave
  /-- The socket is gone. -/
  | unreachable
  | lockEnding
  | retain
  /-- The map lists the sessions in some order. -/
  | lockSessions (order : List Sid)
  | count
  | unlock
  | subtract
  | settle (now : Nat)
deriving DecidableEq

/-- What the watcher makes of the numbers. -/
def settle (config : Config) (s : Watched) (clients live entered now : Nat) : Watched :=
  if 0 < clients ∨ 0 < live then { s with watch := .sleeping, idleSince := none }
  else
    let since := s.idleSince.getD now
    let limit := if 0 < entered - live then config.unreadExit else config.idleExit
    if limit ≤ now - since then
      { sys := { s.sys with stopping := true }, watch := .gone, idleSince := some since }
    else { s with watch := .sleeping, idleSince := some since }

def step (config : Config) (s : Watched) : Action → Option Watched
  | .server act =>
      if s.watch.allows act && act != .liveSessions then
        (Server.step config.tailBytes s.sys act).map fun sys => { s with sys }
      else none
  | .purge sid =>
      if s.watch.allows .liveSessions && s.sys.isExited sid then
        some { s with sys := { s.sys with ending := s.sys.ending.erase sid } }
      else none
  | .wake clients =>
      match s.watch with
      | .sleeping => some { s with watch := .woken clients }
      | _ => none
  | .leave =>
      match s.watch with
      | .sleeping => if s.sys.stopping then some { s with watch := .gone } else none
      | _ => none
  | .unreachable =>
      match s.watch with
      | .sleeping => some { s with sys := { s.sys with stopping := true }, watch := .gone }
      | _ => none
  | .lockEnding =>
      match s.watch with
      | .woken clients => some { s with watch := .retaining clients [] s.sys.ending }
      | _ => none
  | .retain =>
      match s.watch with
      | .retaining clients kept (sid :: left) =>
          let kept := if s.sys.isExited sid then kept else kept ++ [sid]
          some { s with watch := .retaining clients kept left }
      | _ => none
  | .lockSessions order =>
      match s.watch with
      | .retaining clients kept [] =>
          if order.isPerm s.sys.entered then
            some { s with
              sys := { s.sys with ending := kept }
              watch := .counting clients kept order }
          else none
      | _ => none
  | .count =>
      match s.watch with
      | .counting clients counted (sid :: left) =>
          let counted := if s.sys.isExited sid then counted else counted ++ [sid]
          some { s with watch := .counting clients counted left }
      | _ => none
  | .unlock =>
      match s.watch with
      | .counting clients counted [] => some { s with watch := .counted clients counted }
      | _ => none
  | .subtract =>
      match s.watch with
      | .counted clients counted =>
          some { s with watch := .subtracting clients counted s.sys.sessions.size }
      | _ => none
  | .settle now =>
      match s.watch with
      | .subtracting clients counted entered =>
          some (settle config s clients counted.length entered now)
      | _ => none

def machine (config : Config) : Machine Watched Action where
  init s := (Server.machine config.tailBytes).init s.sys ∧ s.watch = .sleeping ∧ s.idleSince = none
  step := step config

/-- No session exits between the look at it and the end of the check, none starts after the
check has turned to `sessions`, all those that run are in `ending` or `sessions` when it does,
and when it subtracts, no more killed sessions still run than exited ones wait to be read. -/
def Calm (s : Watched) : Action → Prop
  | .server (.finish sid _) => sid ∉ s.watch.seen
  | .server (.spawnStart _ _ _) | .server (.spawnLose _ _ _) => s.watch.counts = false
  | .lockSessions _ => ∀ sid ∈ s.sys.running, sid ∈ s.sys.ending ∨ sid ∈ s.sys.entered
  | .subtract => s.sys.unentered.length ≤ s.sys.unread.length
  | _ => True

instance : DecidableRel Calm := fun s action => by
  unfold Calm
  split <;> exact inferInstance

/-! ## What is to hold -/

/-- The live sessions are counted, each once, the subtraction does not underflow, and what
the watcher decides is about the sessions that run. -/
structure Exact (config : Config) (s : Watched) : Prop where
  counted : ∀ clients counted, s.watch = .counted clients counted → counted.Perm s.sys.running
  operands : ∀ clients counted entered, s.watch = .subtracting clients counted entered →
    counted.length = s.sys.running.length ∧ counted.length ≤ entered
  stays : ∀ now s', step config s (.settle now) = some s' → s'.watch = .gone → s.sys.running = []
  leaves : ∀ now s' counted entered since, step config s (.settle now) = some s' →
    s.watch = .subtracting 0 counted entered → s.sys.running = [] → s.idleSince = some since →
    (if 0 < entered then config.unreadExit else config.idleExit) ≤ now - since →
    s'.watch = .gone
  idles : ∀ now s' counted entered, step config s (.settle now) = some s' →
    s.watch = .subtracting 0 counted entered → s.sys.running = [] →
    s'.idleSince = some (s.idleSince.getD now)

/-! ## The invariant -/

/-- What the watcher knows in the middle of a check. -/
def Knows (sys : Sys) : WatchPc → Prop
  | .retaining _ kept left =>
      ∃ done, sys.ending = done ++ left ∧ kept.Sublist done ∧ (∀ sid ∈ kept, sys.live sid = true) ∧
        ∀ sid ∈ done, sys.live sid = true → sid ∈ kept
  | .counting _ counted left =>
      (counted ++ left).Nodup ∧ (∀ sid ∈ counted, sys.live sid = true) ∧
        ∀ sid, sys.live sid = true → sid ∈ counted ∨ sid ∈ left
  | .counted _ counted => counted.Nodup ∧ ∀ sid, sid ∈ counted ↔ sys.live sid = true
  | .subtracting _ counted entered =>
      counted.Nodup ∧ (∀ sid, sid ∈ counted ↔ sys.live sid = true) ∧ counted.length ≤ entered
  | _ => True

structure Inv (s : Watched) : Prop where
  placed : s.sys.Placed
  knows : Knows s.sys s.watch

variable {config : Config} {s s' : Watched}

/-- The sessions that run, counted each once, are as many as run. -/
theorem perm_running {sys : Sys} {counted : List Sid} (hnodup : counted.Nodup)
    (hlive : ∀ sid, sid ∈ counted ↔ sys.live sid = true) : counted.Perm sys.running :=
  (List.perm_ext_iff_of_nodup hnodup Sys.running_nodup).mpr fun sid => by
    rw [hlive, Sys.mem_running]

/-- While the watcher counts, no process starts and none that it has counted ends. -/
theorem live_calm {act : Act} {sys : Sys} (hs : Server.step config.tailBytes s.sys act = some sys)
    (hcalm : Calm s (.server act)) (hcounts : s.watch.counts = true) (sid : Sid) :
    (sys.live sid = true → s.sys.live sid = true) ∧
      (sid ∈ s.watch.seen → s.sys.live sid = true → sys.live sid = true) := by
  rcases Sys.live_step hs sid with heq | ⟨tid, elevated, hstart, -, -⟩ | ⟨code, rfl, hdead⟩
  · rw [heq]
    exact ⟨id, fun _ => id⟩
  · rcases hstart with rfl | rfl
    all_goals
      rw [Calm, hcounts] at hcalm
      cases hcalm
  · exact ⟨fun hlive => absurd (hlive.symm.trans hdead) (by decide),
      fun hseen => absurd hseen hcalm⟩

theorem knows_server {s : Watched} {act : Act} {sys : Sys} (hi : Inv s)
    (hs : Server.step config.tailBytes s.sys act = some sys) (hallows : s.watch.allows act = true)
    (hcount : act ≠ .liveSessions) (hcalm : Calm s (.server act)) : Knows sys s.watch := by
  have hknows := hi.knows
  cases hwatch : s.watch with
  | sleeping | woken clients | gone => trivial
  | retaining clients kept left =>
      rw [hwatch] at hknows hallows
      obtain ⟨done, hending, hsub, hkept, hdone⟩ := hknows
      have hsame : sys.ending = s.sys.ending := by
        refine Sys.ending_step hs ?_ hcount
        rintro tid rfl
        cases hallows
      refine ⟨done, hsame.trans hending, hsub, fun sid hin => ?_, fun sid hin hlive => ?_⟩
      · rcases Sys.live_step hs sid with heq | ⟨_, _, -, -, hlive⟩ | ⟨code, rfl, -⟩
        · rw [heq]
          exact hkept sid hin
        · exact hlive
        · rw [Calm, hwatch] at hcalm
          exact absurd hin hcalm
      · refine hdone sid hin ?_
        rcases Sys.live_step hs sid with heq | ⟨_, _, -, hnew, -⟩ | ⟨code, -, hdead⟩
        · rwa [← heq]
        · have hold := hi.placed.ended sid (hending ▸ List.mem_append_left _ hin)
          exact absurd hnew hold.1
        · rw [hdead] at hlive
          cases hlive
  | counting clients counted left =>
      have hlive := live_calm hs hcalm (by rw [hwatch]; rfl)
      rw [hwatch] at hknows hlive
      obtain ⟨hnodup, hcounted, hall⟩ := hknows
      exact ⟨hnodup, fun sid hin => (hlive sid).2 hin (hcounted sid hin),
        fun sid h => hall sid ((hlive sid).1 h)⟩
  | counted clients counted =>
      have hlive := live_calm hs hcalm (by rw [hwatch]; rfl)
      rw [hwatch] at hknows hlive
      obtain ⟨hnodup, hcounted⟩ := hknows
      exact ⟨hnodup, fun sid => ⟨fun hin => (hlive sid).2 hin ((hcounted sid).mp hin),
        fun h => (hcounted sid).mpr ((hlive sid).1 h)⟩⟩
  | subtracting clients counted entered =>
      have hlive := live_calm hs hcalm (by rw [hwatch]; rfl)
      rw [hwatch] at hknows hlive
      obtain ⟨hnodup, hcounted, hle⟩ := hknows
      exact ⟨hnodup, fun sid => ⟨fun hin => (hlive sid).2 hin ((hcounted sid).mp hin),
        fun h => (hcounted sid).mpr ((hlive sid).1 h)⟩, hle⟩

/-- What stands in `ending` may be fewer, and the daemon may be stopping. -/
theorem placed_of_sublist {sys : Sys} (h : sys.Placed) {ending : List Sid} (stopping : Bool)
    (hsub : ending.Sublist sys.ending) : Sys.Placed { sys with ending, stopping } :=
  h.frame (fun _ => rfl) (fun _ _ hin => hin) hsub fun _ => rfl

theorem inv_step {action : Action} (hi : Inv s) (hcalm : Calm s action)
    (hs : step config s action = some s') : Inv s' := by
  have hknows := hi.knows
  cases action with
  | server act =>
      rw [step] at hs
      split_ifs at hs with hfree
      rw [Bool.and_eq_true, bne_iff_ne] at hfree
      obtain ⟨sys, hsys, rfl⟩ := Option.map_eq_some_iff.mp hs
      have hserver := knows_server hi hsys hfree.1 hfree.2 hcalm
      exact ⟨hi.placed.step hsys, hserver⟩
  | purge sid =>
      rw [step] at hs
      split_ifs at hs with hfree
      rw [Bool.and_eq_true] at hfree
      rw [← Option.some.inj hs]
      refine ⟨placed_of_sublist hi.placed _ List.erase_sublist, ?_⟩
      cases hwatch : s.watch with
      | retaining clients kept left =>
          rw [hwatch] at hfree
          cases hfree.1
      | sleeping | woken clients | gone => trivial
      | counting clients counted left | counted clients counted
      | subtracting clients counted entered =>
          rw [hwatch] at hknows
          exact hknows
  | wake clients =>
      rw [step] at hs
      split at hs
      · rw [← Option.some.inj hs]
        exact ⟨hi.placed, trivial⟩
      · cases hs
  | leave =>
      rw [step] at hs
      split at hs
      · split_ifs at hs
        rw [← Option.some.inj hs]
        exact ⟨hi.placed, trivial⟩
      · cases hs
  | unreachable =>
      rw [step] at hs
      split at hs
      · rw [← Option.some.inj hs]
        exact ⟨placed_of_sublist hi.placed _ (List.Sublist.refl _), trivial⟩
      · cases hs
  | lockEnding =>
      rw [step] at hs
      split at hs
      · rw [← Option.some.inj hs]
        refine ⟨hi.placed, [], rfl, List.Sublist.refl _, ?_, ?_⟩
        · exact fun _ h => nomatch h
        · exact fun _ h => nomatch h
      · cases hs
  | retain =>
      rw [step] at hs
      split at hs
      next clients kept sid left hwatch =>
        rw [hwatch] at hknows
        obtain ⟨done, hending, hsub, hkept, hdone⟩ := hknows
        rw [← Option.some.inj hs]
        refine ⟨hi.placed, done ++ [sid], ?_, ?_, ?_, ?_⟩
        · rw [hending, List.append_assoc]
          rfl
        · split_ifs
          · exact hsub.trans (List.sublist_append_left _ _)
          · exact hsub.append (List.Sublist.refl _)
        · split_ifs with hexited
          · exact hkept
          · intro other hin
            rcases List.mem_append.mp hin with hin | hin
            · exact hkept other hin
            · rw [List.mem_singleton.mp hin, Sys.live, Bool.not_eq_true']
              exact Bool.eq_false_iff.mpr hexited
        · intro other hin hlive
          rcases List.mem_append.mp hin with hin | hin
          · have hmem := hdone other hin hlive
            split_ifs
            · exact hmem
            · exact List.mem_append_left _ hmem
          · rw [List.mem_singleton] at hin
            subst hin
            rw [if_neg (by simpa [Sys.live] using hlive)]
            exact List.mem_append_right _ (List.mem_singleton_self _)
      · cases hs
  | lockSessions order =>
      rw [step] at hs
      split at hs
      next clients kept hwatch =>
        split_ifs at hs with hperm
        rw [List.isPerm_iff] at hperm
        rw [hwatch] at hknows
        obtain ⟨done, hending, hsub, hkept, hdone⟩ := hknows
        rw [List.append_nil] at hending
        subst hending
        rw [← Option.some.inj hs]
        refine ⟨placed_of_sublist hi.placed _ hsub, ?_, hkept, fun sid hlive => ?_⟩
        · refine List.Nodup.append (hsub.nodup hi.placed.nodup)
            (hperm.nodup_iff.mpr hi.placed.entered_nodup) fun sid hin hin' => ?_
          exact hi.placed.not_entered (hsub.mem hin) (hperm.mem_iff.mp hin')
        · rcases hcalm sid (Sys.mem_running.mpr hlive) with hin | hin
          · exact .inl (hdone sid hin hlive)
          · exact .inr (hperm.mem_iff.mpr hin)
      · cases hs
  | count =>
      rw [step] at hs
      split at hs
      next clients counted sid left hwatch =>
        rw [hwatch] at hknows
        obtain ⟨hnodup, hcounted, hall⟩ := hknows
        rw [← Option.some.inj hs]
        refine ⟨hi.placed, ?_, ?_, ?_⟩
        · split_ifs
          · exact hnodup.sublist ((List.Sublist.refl _).append (List.sublist_cons_self _ _))
          · rwa [List.append_assoc]
        · split_ifs with hexited
          · exact hcounted
          · intro other hin
            rcases List.mem_append.mp hin with hin | hin
            · exact hcounted other hin
            · rw [List.mem_singleton.mp hin, Sys.live, Bool.not_eq_true']
              exact Bool.eq_false_iff.mpr hexited
        · intro other hlive
          rcases hall other hlive with hin | hin
          · left
            split_ifs
            · exact hin
            · exact List.mem_append_left _ hin
          · rcases List.mem_cons.mp hin with rfl | hin
            · left
              rw [if_neg (by simpa [Sys.live] using hlive)]
              exact List.mem_append_right _ (List.mem_singleton_self _)
            · exact .inr hin
      · cases hs
  | unlock =>
      rw [step] at hs
      split at hs
      next clients counted hwatch =>
        rw [hwatch] at hknows
        obtain ⟨hnodup, hcounted, hall⟩ := hknows
        rw [List.append_nil] at hnodup
        rw [← Option.some.inj hs]
        refine ⟨hi.placed, hnodup, fun sid => ⟨hcounted sid, fun hlive => ?_⟩⟩
        exact (hall sid hlive).resolve_right (List.not_mem_nil)
      · cases hs
  | subtract =>
      rw [step] at hs
      split at hs
      next clients counted hwatch =>
        rw [hwatch] at hknows
        obtain ⟨hnodup, hcounted⟩ := hknows
        rw [← Option.some.inj hs]
        refine ⟨hi.placed, hnodup, hcounted, ?_⟩
        rw [(perm_running hnodup hcounted).length_eq]
        exact hi.placed.length_running_le hcalm
      · cases hs
  | settle now =>
      rw [step] at hs
      split at hs
      next clients counted entered hwatch =>
        rw [← Option.some.inj hs, settle]
        split_ifs
        · exact ⟨hi.placed, trivial⟩
        all_goals
          dsimp only
          split_ifs
          · exact ⟨placed_of_sublist hi.placed _ (List.Sublist.refl _), trivial⟩
          · exact ⟨hi.placed, trivial⟩
      · cases hs

theorem inv_of_reach (h : (machine config).Reach Calm s) : Inv s := by
  refine h.invariant (fun s hs => ?_) fun s action s' hi hcalm hstep => inv_step hi hcalm hstep
  obtain ⟨hsys, hwatch, -⟩ := hs
  refine ⟨?_, by rw [hwatch]; trivial⟩
  rw [Server.machine] at hsys
  rw [hsys]
  refine ⟨?_, ?_, ?_, fun sid hin => (nomatch hin), List.nodup_nil⟩
  · intro t sid hin
    simp at hin
  · intro tid spec sid hpc
    simp [Sys.pc] at hpc
  · intro tid sid hpc
    simp [Sys.pc, Server.Pc.ending] at hpc

/-- Only the numbers decide. -/
theorem settle_cases {now : Nat} (hs : step config s (.settle now) = some s') :
    ∃ clients counted entered, s.watch = .subtracting clients counted entered ∧
      s' = settle config s clients counted.length entered now := by
  rw [step] at hs
  split at hs
  next clients counted entered hwatch =>
    exact ⟨clients, counted, entered, hwatch, (Option.some.inj hs).symm⟩
  · cases hs

theorem settle_gone {clients live entered now : Nat}
    (h : (settle config s clients live entered now).watch = .gone) : live = 0 := by
  rw [settle] at h
  by_cases hbusy : 0 < clients ∨ 0 < live
  · rw [if_pos hbusy] at h
    cases h
  · omega

theorem settle_idle {entered now : Nat} :
    settle config s 0 0 entered now =
      if (if 0 < entered then config.unreadExit else config.idleExit) ≤
          now - s.idleSince.getD now then
        { sys := { s.sys with stopping := true }
          watch := .gone
          idleSince := some (s.idleSince.getD now) }
      else { s with watch := .sleeping, idleSince := some (s.idleSince.getD now) } := by
  rw [settle, if_neg (by omega), Nat.sub_zero]

/-- In every run of the daemon with its watcher in which the checks are calm, a check counts
the sessions that run, each once, its subtraction does not underflow, the daemon does not
leave while a session runs, and sessions that have ended do not keep it. -/
theorem exact_of_calm (config : Config) (s : Watched) (h : (machine config).Reach Calm s) :
    Exact config s := by
  have hi := inv_of_reach h
  have hknows := hi.knows
  have hnone : ∀ clients counted entered, s.watch = .subtracting clients counted entered →
      s.sys.running = [] → counted = [] := by
    intro clients counted entered hwatch hrunning
    rw [hwatch] at hknows
    have hperm := perm_running hknows.1 hknows.2.1
    rw [hrunning] at hperm
    exact hperm.eq_nil
  refine ⟨?_, ?_, ?_, ?_, ?_⟩
  · intro clients counted hwatch
    rw [hwatch] at hknows
    exact perm_running hknows.1 hknows.2
  · intro clients counted entered hwatch
    rw [hwatch] at hknows
    exact ⟨(perm_running hknows.1 hknows.2.1).length_eq, hknows.2.2⟩
  · intro now s' hs hgone
    obtain ⟨clients, counted, entered, hwatch, rfl⟩ := settle_cases hs
    have hzero := settle_gone hgone
    rw [hwatch] at hknows
    have hperm := perm_running hknows.1 hknows.2.1
    rw [List.length_eq_zero_iff.mp hzero] at hperm
    exact hperm.symm.eq_nil
  · intro now s' counted entered since hs hwatch hrunning hsince hlimit
    obtain ⟨_, _, _, hwatch', rfl⟩ := settle_cases hs
    cases hwatch.symm.trans hwatch'
    rw [hnone _ _ _ hwatch hrunning, List.length_nil, settle_idle, if_pos]
    rwa [hsince]
  · intro now s' counted entered hs hwatch hrunning
    obtain ⟨_, _, _, hwatch', rfl⟩ := settle_cases hs
    cases hwatch.symm.trans hwatch'
    rw [hnone _ _ _ hwatch hrunning, List.length_nil, settle_idle]
    split_ifs <;> rfl

/-- A client spawns a terminal, and the watcher counts it. -/
theorem exact_of_calm_spawned :
    ∃ s : Watched, Exact ⟨4096, 10000, 3600000⟩ s ∧ s.watch = .subtracting 1 [0] 1 := by
  obtain ⟨s, hreach, hs⟩ := (Machine.Reach.init ⟨rfl, rfl, rfl⟩ :
    (machine ⟨4096, 10000, 3600000⟩).Reach Calm
      ⟨⟨∅, [], ∅, [], [], ∅, .accepting, false⟩, .sleeping, none⟩).exists_of_exec
      [.server (.spawnLookup 0 Server.shell), .server (.spawnCheck 0),
        .server (.spawnStart 0 0 false), .server (.spawnInsert 0), .wake 1, .lockEnding,
        .server (.spawnAttach 0 1), .lockSessions [0], .count, .unlock, .subtract]
      (fun s => decide (s.watch = .subtracting 1 [0] 1)) (by decide +kernel)
  exact ⟨s, exact_of_calm _ _ hreach, of_decide_eq_true hs⟩

/-- A client kills its only terminal, whose process takes its time: one session is counted
and none is entered. -/
theorem not_exact :
    ¬ ∀ (config : Config) (s : Watched), (machine config).Reach Machine.anyStep s →
      Exact config s := by
  intro h
  obtain ⟨s, hreach, hs⟩ := (Machine.Reach.init ⟨rfl, rfl, rfl⟩ :
    (machine ⟨4096, 10000, 3600000⟩).Reach Machine.anyStep
      ⟨⟨∅, [], ∅, [], [], ∅, .accepting, false⟩, .sleeping, none⟩).exists_of_exec
      [.server (.spawnLookup 0 Server.shell), .server (.spawnCheck 0),
        .server (.spawnStart 0 0 false), .server (.spawnInsert 0), .server (.spawnAttach 0 1),
        .server (.killRemove 0 ⟨1⟩), .server (.killTell 0), .server (.killMark 0),
        .server (.killPush 0), .wake 1, .lockEnding, .retain, .lockSessions [], .unlock, .subtract]
      (fun s => decide (s.watch = .subtracting 1 [0] 0)) (by decide +kernel)
  have hle := ((h _ _ hreach).operands 1 [0] 0 (of_decide_eq_true hs)).2
  exact absurd hle (by decide)

end Throng.Daemon.Idle
