import Throng.App.HubLink

/-!
# Requests and replies match

A reply is applied to the panel its request was sent for, and directory polls keep
being sent. What carries this is that the numbers of the unanswered requests
increase from the oldest to the newest, that each of them about a panel is in the
pending map, and that the listing id is the number of an unanswered `List`.

The last of these does not survive a lost connection: nothing clears the listing id
then, and the next connection numbers its requests from the start again. So the
results are about runs in which no `List` was left unanswered by a connection when
the next one is made.
-/

namespace Throng.HubLink

open Daemon (Client ClientEvent ClientId Session)
open TerminalHub

variable {E : Type} (platform : Platform E) (tailBytes : Nat)

/-- The hub once a request is no longer pending. -/
def settled (hub : TerminalHub E) (id : Nat) : TerminalHub E :=
  { hub with pending := hub.pending.erase id }

/-- The next message, when it answers an `Attach` or a `Spawn`, is applied to the
panel the request was sent for if that panel still has a view; and a poll that is due
while a terminal runs goes out unless a `List` of this connection is unanswered. -/
structure RepliesMatch (s : Sys E) : Prop where
  applied : ∀ id request result rest panel kind view live s',
    s.arriving = .reply id request result :: rest → id ≠ noReply →
    request.asks = some (panel, kind) → s.hub.views[panel]? = some view →
    step platform tailBytes s (.deliver live) = some s' →
    s'.hub = (flush ((settled s.hub id).applyReply platform panel view kind result (s.link live))).1
  polled : ∀ now s', s.client.isSome → s.hub.running → s.hub.due now →
    (∀ message ∈ asked s.client s.arriving, message.2 ≠ .list) →
    step platform tailBytes s (.pollDirectories now true) = some s' →
    ∃ id, asked s'.client s'.arriving = asked s.client s.arriving ++ [(id, .list)]

/-- No directory poll was left unanswered by the connection before. -/
def nothingListed (s : Sys E) : Act → Bool
  | .connected => s.hub.listing == none
  | _ => true

/-! ## The invariant -/

def waiters (client : Option Client) : List Nat := (client.map Client.waiters).getD []

/-- The hub's books agree with what is unanswered on this connection. -/
structure Matched (b : Books) (client : Option Client) (arriving : List Arriving) : Prop where
  offline : client = none → arriving = []
  positive : 0 < nextId client
  ordered : (asked client arriving).Pairwise fun x y => x.1 < y.1
  below : ∀ x ∈ asked client arriving, x.1 < nextId client
  waiting : ∀ id ∈ waiters client, id < nextId client
  entered : ∀ x ∈ asked client arriving, ∀ entry, x.2.asks = some entry →
    b.pending[x.1]? = some entry ∧ x.1 ∉ waiters client
  listed : client.isSome → ∀ id, b.listing = some id →
    (id, Request.list) ∈ asked client arriving ∧ id ∉ waiters client

namespace Matched

variable {b b' : Books} {client client' : Option Client} {c c' : Client} {arriving : List Arriving}

/-- Without a connection nothing is unanswered. -/
theorem disconnected : Matched b none [] where
  offline _ := rfl
  positive := Nat.one_pos
  ordered := .nil
  below _ hx := by cases hx
  waiting _ hx := by cases hx
  entered _ hx := by cases hx
  listed h := by cases h

/-- On a new connection nothing is unanswered, and nothing is to be listed. -/
theorem connected (hlisting : b.listing = none) : Matched b (some .connected) [] where
  offline h := by cases h
  positive := Nat.one_pos
  ordered := .nil
  below _ hx := by cases hx
  waiting _ hx := by cases hx
  entered _ hx := by cases hx
  listed _ id hid := by
    rw [hlisting] at hid
    cases hid

/-- Two unanswered requests do not share a number. -/
theorem unique (h : Matched b client arriving) {x y : Nat × Request}
    (hx : x ∈ asked client arriving) (hy : y ∈ asked client arriving) (heq : x.1 = y.1) :
      x = y := by
  by_contra hne
  have hord := h.ordered
  rw [List.pairwise_iff_getElem] at hord
  obtain ⟨i, hi, rfl⟩ := List.mem_iff_getElem.mp hx
  obtain ⟨j, hj, rfl⟩ := List.mem_iff_getElem.mp hy
  rcases Nat.lt_trichotomy i j with hij | rfl | hij
  · exact Nat.ne_of_lt (hord i j hi hj hij) heq
  · exact hne rfl
  · exact Nat.ne_of_gt (hord j i hj hi hij) heq

/-- A request that is made gets a number above all others. -/
theorem fresh (h : Matched b (some c) arriving) {request : Request}
    (hasked : asked (some c') arriving = asked (some c) arriving ++ [(c.nextId, request)])
    (hnext : c'.nextId = c.nextId + 1)
    (hwaiters : ∀ id ∈ c'.waiters, id ∈ c.waiters ∨ id = c.nextId ∧ request.asks = none)
    (hpending : ∀ id : Nat, id ≠ c.nextId → b'.pending[id]? = b.pending[id]?)
    (hentered : ∀ entry, request.asks = some entry → b'.pending[c.nextId]? = some entry)
    (hlisted : b'.listing = b.listing ∨
      b'.listing = some c.nextId ∧ request = .list ∧ c'.waiters = c.waiters) :
    Matched b' (some c') arriving := by
  have hbelow : ∀ x ∈ asked (some c) arriving, x.1 < c.nextId := h.below
  have hwaiting : ∀ id ∈ c.waiters, id < c.nextId := h.waiting
  constructor
  · intro hnone
    cases hnone
  · show 0 < c'.nextId
    rw [hnext]
    exact Nat.succ_pos _
  · rw [hasked, List.pairwise_append]
    refine ⟨h.ordered, List.pairwise_singleton _ _, ?_⟩
    intro x hx y hy
    rw [List.mem_singleton] at hy
    exact hy ▸ hbelow x hx
  · intro x hx
    rw [hasked, List.mem_append, List.mem_singleton] at hx
    show x.1 < c'.nextId
    rw [hnext]
    rcases hx with hx | rfl
    · exact Nat.lt_succ_of_lt (hbelow x hx)
    · exact Nat.lt_succ_self _
  · intro id hid
    show id < c'.nextId
    rw [hnext]
    rcases hwaiters id hid with hid | ⟨rfl, -⟩
    · exact Nat.lt_succ_of_lt (hwaiting id hid)
    · exact Nat.lt_succ_self _
  · intro x hx entry hentry
    rw [hasked, List.mem_append, List.mem_singleton] at hx
    rcases hx with hx | rfl
    · obtain ⟨hp, hw⟩ := h.entered x hx entry hentry
      have hlt := hbelow x hx
      refine ⟨(hpending x.1 (Nat.ne_of_lt hlt)).trans hp, ?_⟩
      intro hmem
      rcases hwaiters x.1 hmem with hmem | ⟨heq, -⟩
      · exact hw hmem
      · exact Nat.ne_of_lt hlt heq
    · refine ⟨hentered entry hentry, ?_⟩
      intro hmem
      rcases hwaiters _ hmem with hmem | ⟨-, hnone⟩
      · exact Nat.lt_irrefl _ (hwaiting _ hmem)
      · rw [hentry] at hnone
        cases hnone
  · intro _ id hid
    rw [hasked, List.mem_append, List.mem_singleton]
    rcases hlisted with hsame | ⟨hnew, rfl, hw⟩
    · obtain ⟨hmem, hw⟩ := h.listed rfl id (hsame ▸ hid)
      refine ⟨.inl hmem, ?_⟩
      intro hmem'
      rcases hwaiters id hmem' with hmem' | ⟨rfl, -⟩
      · exact hw hmem'
      · exact Nat.lt_irrefl _ (hbelow _ hmem)
    · rw [hnew, Option.some.injEq] at hid
      subst hid
      refine ⟨.inr rfl, ?_⟩
      show c.nextId ∉ c'.waiters
      rw [hw]
      exact fun hmem => Nat.lt_irrefl _ (hwaiting _ hmem)

theorem post (h : Matched b (some c) arriving) (request : Request) :
    Matched b (some (c.post request)) arriving := by
  obtain ⟨-, hpos, hord, hbelow, hwait, hent, hlist⟩ := h
  rw [← asked_post c arriving request] at hord hbelow hent hlist
  exact ⟨online, hpos, hord, hbelow, hwait, hent, hlist⟩

theorem ask (h : Matched b (some c) arriving) {request : Request} {entry : PanelId × Pending}
    (hasks : request.asks = some entry) :
    Matched { b with pending := b.pending.insert c.nextId entry } (some (c.send request).2)
      arriving := by
  apply h.fresh (asked_send c arriving request h.positive) rfl
  · exact fun id hid => .inl hid
  · intro id hne
    rw [Std.ExtTreeMap.getElem?_insert, if_neg]
    simpa using Ne.symm hne
  · intro entry' hentry'
    rw [hasks] at hentry'
    rw [Std.ExtTreeMap.getElem?_insert_self, hentry']
  · exact .inl rfl

/-- A conversation keeps the books and the connection in agreement. -/
theorem talk (h : Matched b client arriving) (t : Talk b client b' client') :
    Matched b' client' arriving := by
  induction t with
  | silent => exact h
  | post _ _ _ ih => exact ih.post _
  | ask _ hasks ih => exact ih.ask hasks

/-- An answer arrives: what the books hold about other requests is unchanged. -/
theorem answered {id : Nat} {request : Request} {result : Except String Reply}
    (h : Matched b (some c) (.reply id request result :: arriving))
    (hpending : ∀ id' : Nat, id ≠ id' → b'.pending[id']? = b.pending[id']?)
    (hlisting : ∀ id' : Nat, b'.listing = some id' → b.listing = some id' ∧ id ≠ id') :
    Matched b' (some c) arriving := by
  -- none of the requests that stay unanswered has this number
  have hrest : (∀ x ∈ asked (some c) arriving, id ≠ x.1) ∧
      (asked (some c) arriving).Pairwise (fun x y => x.1 < y.1) ∧
      (∀ x ∈ asked (some c) arriving, x ∈ asked (some c) (.reply id request result :: arriving)) ∧
      ∀ x ∈ asked (some c) (.reply id request result :: arriving), id ≠ x.1 →
        x ∈ asked (some c) arriving := by
    have hord := h.ordered
    by_cases hid : id = noReply
    · have hasked : asked (some c) (.reply id request result :: arriving) =
          asked (some c) arriving := by
        simp [asked, Arriving.answers, hid]
      rw [hasked] at hord ⊢
      refine ⟨fun x hx => ?_, hord, fun _ hx => hx, fun _ hx _ => hx⟩
      rw [hid]
      exact Nat.ne_of_lt (mem_asked_pos hx)
    · have hasked : asked (some c) (.reply id request result :: arriving) =
          (id, request) :: asked (some c) arriving := by
        simp [asked, Arriving.answers, hid]
      rw [hasked] at hord ⊢
      obtain ⟨hfirst, hord⟩ := List.pairwise_cons.mp hord
      refine ⟨fun x hx => Nat.ne_of_lt (hfirst x hx), hord, fun _ => .tail _, ?_⟩
      intro x hx hne
      rcases List.mem_cons.mp hx with rfl | hx
      · exact absurd rfl hne
      · exact hx
  obtain ⟨hne, hord, hsub, hkeep⟩ := hrest
  refine ⟨online, h.positive, hord, fun x hx => h.below x (hsub x hx), h.waiting, ?_, ?_⟩
  · intro x hx entry hentry
    obtain ⟨hp, hw⟩ := h.entered x (hsub x hx) entry hentry
    exact ⟨(hpending x.1 (hne x hx)).trans hp, hw⟩
  · intro _ id' hid'
    obtain ⟨hid', hne'⟩ := hlisting id' hid'
    obtain ⟨hmem, hw⟩ := h.listed rfl id' hid'
    exact ⟨hkeep _ hmem hne', hw⟩

/-- Killed panels are no part of what is matched. -/
theorem killed (h : Matched b client arriving) (killed : Std.ExtTreeSet PanelId) :
    Matched { b with killed } client arriving :=
  ⟨h.offline, h.positive, h.ordered, h.below, h.waiting, h.entered, h.listed⟩

/-- A wait that ends does no harm. -/
theorem unwaited (h : Matched b (some c) arriving) (id : Nat) :
    Matched b (some (c.giveUp id)) arriving := by
  have hsub : ∀ id' ∈ (c.giveUp id).waiters, id' ∈ c.waiters := fun _ => List.mem_of_mem_erase
  obtain ⟨-, hpos, hord, hbelow, hwait, hent, hlist⟩ := h
  refine ⟨online, hpos, hord, hbelow, fun id' hid' => hwait id' (hsub id' hid'), ?_, ?_⟩
  · intro x hx entry hentry
    obtain ⟨hp, hw⟩ := hent x hx entry hentry
    exact ⟨hp, fun hmem => hw (hsub _ hmem)⟩
  · intro _ id' hid'
    obtain ⟨hmem, hw⟩ := hlist rfl id' hid'
    exact ⟨hmem, fun hmem => hw (hsub _ hmem)⟩

/-- A message that answers nothing may arrive. -/
theorem unasked (h : Matched b (some c) (a :: arriving)) (ha : a.answers = none) :
    Matched b (some c) arriving := by
  have hasked : asked (some c) (a :: arriving) = asked (some c) arriving := by
    simp [asked, ha]
  obtain ⟨-, hpos, hord, hbelow, hwait, hent, hlist⟩ := h
  rw [hasked] at hord hbelow hent hlist
  exact ⟨online, hpos, hord, hbelow, hwait, hent, hlist⟩

end Matched

/-! ## The daemon's part -/

section daemon

variable (number : ClientId) (id : Nat) (request : Request)

theorem answers_replyTo (result : Except String Reply) :
    (heard number (some (id, request)) (replyTo number id result)).filterMap Arriving.answers =
      if id = noReply then [] else [(id, request)] := by
  rw [heard_replyTo]
  by_cases h : id = noReply
  · rw [if_pos h, if_pos h]
    rfl
  · rw [if_neg h, if_neg h]
    simp [Arriving.answers, h]

theorem answers_attach (session : Session) (cols rows : Nat) :
    (heard number (some (id, request)) (session.attach number id cols rows).2.2).filterMap
      Arriving.answers = if id = noReply then [] else [(id, request)] := by
  unfold heard Session.attach
  by_cases h : id = noReply <;> simp [Arriving.of, Arriving.answers, h]

theorem answers_endViews (session : Session) :
    (heard number (some (id, request)) session.endViews.2).filterMap Arriving.answers = [] := by
  unfold Session.endViews
  split
  · dsimp only
    rw [heard_exitedTo]
    split <;> rfl
  · rfl

/-- The daemon answers every numbered request, once. -/
theorem answers_handle (sessions : Std.ExtTreeMap TerminalId Session)
    (answer : Except String Reply) (elevated : Bool) :
    (heard number (some (id, request))
      (handle tailBytes sessions number id request answer elevated).2).filterMap Arriving.answers =
      if id = noReply then [] else [(id, request)] := by
  unfold handle
  cases request with
  | spawn spec =>
      dsimp only
      split
      · exact answers_replyTo _ _ _ _
      · split
        · exact answers_replyTo _ _ _ _
        · exact answers_attach _ _ _ _ spec.cols spec.rows
  | attach terminal cols rows =>
      dsimp only
      split
      · exact answers_attach _ _ _ _ cols rows
      · exact answers_replyTo _ _ _ _
  | kill terminal =>
      dsimp only
      split
      · rw [heard_append, List.filterMap_append, answers_endViews, List.nil_append]
        exact answers_replyTo _ _ _ _
      · exact answers_replyTo _ _ _ _
  | detach | write | resize | forget | list | closeIdle | shutdown | ping =>
      exact answers_replyTo _ _ _ _

end daemon

/-- A request the daemon takes is as unanswered as before: its reply is under way. -/
theorem asked_handled {c : Client} {id : Nat} {request : Request}
    {outgoing : List (Nat × Request)} (arriving : List Arriving) (number : ClientId)
    (hout : c.outgoing = (id, request) :: outgoing)
    (sessions : Std.ExtTreeMap TerminalId Session) (answer : Except String Reply)
    (elevated : Bool) :
    asked (some { c with outgoing })
      (arriving ++ heard number (some (id, request))
        (handle tailBytes sessions number id request answer elevated).2) =
      asked (some c) arriving := by
  unfold asked
  rw [List.filterMap_append, answers_handle, List.append_assoc]
  congr 1
  by_cases h : id = noReply <;> simp [HubLink.outgoing, hout, h]

/-! ## Runs -/

namespace Matched

variable {s s' : Sys E}

/-- What a call does to the hub and to the client it is handed, it does to the system. -/
theorem put (h : Matched s.hub.books s.client s.arriving) {live : Bool} {hub : TerminalHub E}
    {client : Option Client} (t : Talk s.hub.books (s.link live) hub.books client) :
    Matched (s.put live hub client).hub.books (s.put live hub client).client
      (s.put live hub client).arriving := by
  cases live with
  | false =>
      have hbooks := (t.eq_of_none rfl).1
      show Matched hub.books s.client s.arriving
      rwa [hbooks]
  | true => exact h.talk t

theorem poll (h : Matched s.hub.books s.client s.arriving) (now : Nat) (live : Bool) :
    Matched (s.hub.pollDirectories now (s.link live)).1.books
      (s.put live (s.hub.pollDirectories now (s.link live)).1
        (s.hub.pollDirectories now (s.link live)).2.1).client s.arriving := by
  rcases pollDirectories_cases s.hub now (s.link live) with
    ⟨c, hc, hlisting, hbooks, hclient⟩ | ⟨hbooks, hclient⟩
  · rw [hbooks]
    cases live with
    | false => cases hc
    | true =>
        have hs : s.client = some c := hc
        rw [hs] at h
        show Matched _ (s.hub.pollDirectories now (s.link true)).2.1 _
        rw [hclient]
        apply h.fresh (asked_send c s.arriving .list h.positive) rfl
        · exact fun id hid => .inl hid
        · exact fun _ _ => rfl
        · exact fun _ hentry => by cases hentry
        · exact .inr ⟨rfl, rfl, rfl⟩
  · rw [hbooks]
    have hsame : (s.put live (s.hub.pollDirectories now (s.link live)).1
        (s.hub.pollDirectories now (s.link live)).2.1).client = s.client := by
      rw [hclient]
      cases live <;> rfl
    rw [hsame]
    exact h

theorem kill (h : Matched s.hub.books s.client s.arriving) (panel : PanelId) (live : Bool) :
    Matched (s.hub.kill panel (s.link live)).1.books
      (s.put live (s.hub.kill panel (s.link live)).1 (s.hub.kill panel (s.link live)).2).client
      s.arriving := by
  cases live with
  | false => exact h.killed _
  | true =>
      show Matched _ (s.client.map _) _
      cases hclient : s.client with
      | none =>
          rw [hclient] at h
          exact h.killed _
      | some c =>
          rw [hclient] at h
          exact (h.post _).killed _

/-- What the daemon sends on its own answers no request. -/
theorem hear (h : Matched s.hub.books s.client s.arriving) (sends : Session.Sends) :
    Matched (s.hear none sends).hub.books (s.hear none sends).client
      (s.hear none sends).arriving := by
  unfold Sys.hear
  split
  · next hsome =>
      have hasked : asked s.client (s.arriving ++ heard s.number none sends) =
          asked s.client s.arriving := by
        unfold asked
        rw [List.filterMap_append, (heard_none _ _).1, List.append_nil]
      obtain ⟨-, hpos, hord, hbelow, hwait, hent, hlist⟩ := h
      rw [← hasked] at hord hbelow hent hlist
      refine ⟨fun hnone => ?_, hpos, hord, hbelow, hwait, hent, hlist⟩
      rw [show s.client = none from hnone] at hsome
      cases hsome
  · exact h

/-- A reply somebody waits for is none of the hub's business. -/
theorem waited {b : Books} {c : Client} {first : Arriving} {rest : List Arriving}
    (h : Matched b (some c) (first :: rest)) (hnone : (c.receive first.message).2 = none) :
    Matched b (some (c.receive first.message).1) rest := by
  cases first with
  | reply id request result =>
      simp only [Arriving.message, Client.receive] at hnone ⊢
      split at hnone
      · next hmem =>
          rw [if_pos hmem]
          have hrest : Matched b (some c) rest := by
            apply h.answered
            · exact fun _ _ => rfl
            · rintro id' hid'
              refine ⟨hid', ?_⟩
              rintro rfl
              exact (h.listed rfl id hid').2 hmem
          exact hrest.unwaited id
      · cases hnone
  | exited | output | resync => cases hnone

/-- An event is taken from the books, and then talked about. -/
theorem event {hub : TerminalHub E} {c : Client} {first : Arriving} {rest : List Arriving}
    {event : ClientEvent} (h : Matched hub.books (some c) (first :: rest))
    (hevent : (c.receive first.message).2 = some event) (client : Option Client) :
    (c.receive first.message).1 = c ∧
      ∃ b, Matched b (some c) rest ∧
        Talk b client (hub.onDaemonEvent platform event client).1.books
          (hub.onDaemonEvent platform event client).2.1 := by
  cases first with
  | reply id request result =>
      simp only [Arriving.message, Client.receive] at hevent ⊢
      split at hevent
      · cases hevent
      · next hmem =>
          cases hevent
          rw [if_neg hmem]
          refine ⟨rfl, ?_⟩
          rcases onReply_cases platform hub id result client with
            ⟨hlisting, hbooks, hclient⟩ | ⟨hlisting, htalk⟩
          · refine ⟨{ hub.books with listing := none }, ?_, ?_⟩
            · exact h.answered (fun _ _ => rfl) fun _ hid => absurd hid.symm (Option.some_ne_none _)
            · show Talk _ client (hub.onReply platform id result client).1.books
                (hub.onReply platform id result client).2.1
              rw [hbooks, hclient]
              exact .silent
          · refine ⟨_, ?_, htalk⟩
            apply h.answered
            · intro id' hne
              rw [Std.ExtTreeMap.getElem?_erase, if_neg]
              · rfl
              · simpa using hne
            · rintro id' hid'
              refine ⟨hid', ?_⟩
              rintro rfl
              exact hlisting hid'
  | exited terminal status byHub =>
      cases hevent
      have hrest : ∀ killed, Matched { hub.books with killed } (some c) rest := fun killed =>
        (h.unasked rfl).killed killed
      refine ⟨rfl, ?_⟩
      simp only [onDaemonEvent, flush_books, flush_client, onExited]
      split
      · exact ⟨_, hrest _, .silent⟩
      · exact ⟨_, hrest hub.killed, talk_exited hub _ rfl _ _⟩
  | output terminal offset data =>
      cases hevent
      exact ⟨rfl, _, h.unasked rfl, talk_onOutput platform hub _ _ _ _⟩
  | resync terminal =>
      cases hevent
      exact ⟨rfl, _, h.unasked rfl, talk_onResync hub _ _⟩

/-- A message is delivered. -/
theorem arrive {c : Client} {first : Arriving} {rest : List Arriving}
    (h : Matched s.hub.books (some c) (first :: rest)) (live : Bool) :
    Matched (HubLink.arrive platform s c first rest live).hub.books
      (HubLink.arrive platform s c first rest live).client
      (HubLink.arrive platform s c first rest live).arriving := by
  cases hevent : (c.receive first.message).2 with
  | none =>
      have hrest := h.waited hevent
      unfold HubLink.arrive
      dsimp only
      rw [hevent]
      exact hrest
  | some event =>
      obtain ⟨hsame, b, hb, htalk⟩ := h.event platform hevent (if live then some c else none)
      unfold HubLink.arrive
      dsimp only
      rw [hevent, hsame]
      cases live with
      | false =>
          have hbooks := (htalk.eq_of_none rfl).1
          rw [← hbooks] at hb
          exact hb
      | true => exact hb.talk htalk

/-- What one step preserves. -/
theorem step {a : Act} (h : Matched s.hub.books s.client s.arriving)
    (hok : nothingListed s a) (hs : HubLink.step platform tailBytes s a = some s') :
    Matched s'.hub.books s'.client s'.arriving := by
  cases a with
  | prepare | keepDormant | takeQueued | quit =>
      cases hs
      exact h
  | connect panel live =>
      cases hs
      exact h.put (talk_connect _ _ _)
  | forgetView panel live =>
      cases hs
      exact h.put (talk_forgetView _ _ _)
  | kill panel live =>
      cases hs
      exact h.kill panel live
  | restart panel live =>
      cases hs
      exact h.put (talk_restart _ _ _ _)
  | pollDirectories now live =>
      cases hs
      exact h.poll now live
  | await request =>
      simp only [HubLink.step] at hs
      split at hs
      · next c hclient =>
          split at hs
          · cases hs
          · next hasks =>
              cases hs
              rw [Option.not_isSome_iff_eq_none] at hasks
              rw [hclient] at h
              apply h.fresh (asked_request c s.arriving request h.positive) rfl
              · intro id hid
                rcases List.mem_cons.mp hid with rfl | hid
                · exact .inr ⟨rfl, hasks⟩
                · exact .inl hid
              · exact fun _ _ => rfl
              · exact fun _ hentry => by rw [hasks] at hentry; cases hentry
              · exact .inl rfl
      · cases hs
  | giveUp id =>
      cases hs
      show Matched _ (s.client.map _) _
      cases hclient : s.client with
      | none =>
          rw [hclient] at h
          exact h
      | some c =>
          rw [hclient] at h
          exact h.unwaited id
  | handle answer elevated =>
      simp only [HubLink.step] at hs
      split at hs
      · next c hclient =>
          split at hs
          · cases hs
          · next id request outgoing hout =>
              cases hs
              rw [hclient] at h
              have hasked :=
                asked_handled tailBytes s.arriving s.number hout s.sessions answer elevated
              obtain ⟨-, hpos, hord, hbelow, hwait, hent, hlist⟩ := h
              rw [← hasked] at hord hbelow hent hlist
              exact ⟨online, hpos, hord, hbelow, hwait, hent, hlist⟩
      · cases hs
  | other client id request answer elevated =>
      simp only [HubLink.step, Option.ite_none_left_eq_some, Option.some.injEq] at hs
      obtain ⟨-, rfl⟩ := hs
      apply hear
      exact h
  | finish terminal code =>
      simp only [HubLink.step] at hs
      split at hs
      · rw [Option.ite_none_left_eq_some, Option.some.injEq] at hs
        obtain ⟨-, rfl⟩ := hs
        apply hear
        exact h
      · cases hs
  | sessionEnded terminal =>
      simp only [HubLink.step, Option.ite_none_right_eq_some, Option.some.injEq] at hs
      obtain ⟨-, rfl⟩ := hs
      exact h
  | send message =>
      cases hs
      exact h.hear _
  | deliver live =>
      simp only [HubLink.step] at hs
      split at hs
      · next c first rest hclient harriving =>
          rw [hclient, harriving] at h
          cases hs
          exact h.arrive platform live
      · cases hs
  | connected =>
      simp only [HubLink.step, Option.ite_none_left_eq_some, Option.some.injEq] at hs
      obtain ⟨-, rfl⟩ := hs
      have hlisting : s.hub.listing = none := by simpa [nothingListed] using hok
      exact .connected hlisting
  | lost =>
      simp only [HubLink.step, Option.ite_none_left_eq_some, Option.some.injEq] at hs
      obtain ⟨-, rfl⟩ := hs
      exact .disconnected

end Matched

theorem matched_of_reach {s : Sys E}
    (h : (machine platform tailBytes).Reach (fun s a => nothingListed s a) s) :
    Matched s.hub.books s.client s.arriving := by
  apply h.invariant
  · rintro s ⟨⟨shells, defaultShell, scrollback, hhub⟩, hclient, harriving, -⟩
    rw [hclient, harriving]
    exact .disconnected
  · exact fun s a s' h hok hs => h.step platform tailBytes hok hs

/-- The reply to a request about a panel finds its entry. -/
theorem Matched.onReply {s : Sys E} {c : Client} {id : Nat} {request : Request}
    {result : Except String Reply} {rest : List Arriving} {panel : PanelId} {kind : Pending}
    {view : TerminalView E}
    (h : Matched s.hub.books (some c) (.reply id request result :: rest)) (hid : id ≠ noReply)
    (hasks : request.asks = some (panel, kind)) (hview : s.hub.views[panel]? = some view)
    (client : Option Client) :
    id ∉ c.waiters ∧
      s.hub.onReply platform id result client =
        flush ((settled s.hub id).applyReply platform panel view kind result client) := by
  have hmem : (id, request) ∈ asked (some c) (.reply id request result :: rest) := by
    simp [asked, Arriving.answers, hid]
  obtain ⟨hpending, hwaiters⟩ := h.entered _ hmem _ hasks
  have hlisting : s.hub.listing ≠ some id := by
    intro hlisting
    have heq := h.unique hmem (h.listed rfl id hlisting).1 rfl
    cases heq
    cases hasks
  refine ⟨hwaiters, ?_⟩
  unfold TerminalHub.onReply
  rw [if_neg hlisting, show s.hub.pending[id]? = some (panel, kind) from hpending]
  dsimp only
  rw [hview]
  rfl

/-- In every run in which no directory poll was left unanswered by the connection
before, replies match their requests and polls keep being sent. -/
theorem repliesMatch_of_reach {s : Sys E}
    (h : (machine platform tailBytes).Reach (fun s a => nothingListed s a) s) :
    RepliesMatch platform tailBytes s := by
  have hm := matched_of_reach platform tailBytes h
  constructor
  · intro id request result rest panel kind view live s' harriving hid hasks hview hs
    simp only [step] at hs
    split at hs
    · next c first rest' hclient harriving' =>
        rw [harriving, List.cons.injEq] at harriving'
        obtain ⟨rfl, rfl⟩ := harriving'
        rw [hclient, harriving] at hm
        obtain ⟨hwaiters, hreply⟩ := hm.onReply platform hid hasks hview (s.link live)
        have hreceive : c.receive (ServerMsg.reply id result) = (c, some (.reply id result)) := by
          simp [Client.receive, hwaiters]
        simp only [arrive, Arriving.message, hreceive, ← hclient, Option.some.injEq] at hs
        subst hs
        exact congrArg Prod.fst hreply
    · cases hs
  · intro now s' hsome hrunning hdue hlist hs
    obtain ⟨c, hclient⟩ := Option.isSome_iff_exists.mp hsome
    rw [hclient] at hlist ⊢
    rw [hclient] at hm
    have hlisting : s.hub.listing = none := by
      cases hid : s.hub.listing with
      | none => rfl
      | some id => exact absurd rfl (hlist _ (hm.listed rfl id hid).1)
    cases hs
    refine ⟨c.nextId, ?_⟩
    have hfilter : ((s.link true).filter fun _ => s.hub.running) = some c := by
      show (s.client.filter fun _ => s.hub.running) = some c
      rw [hclient]
      exact Option.filter_some_pos hrunning
    have hpoll : (s.hub.pollDirectories now (s.link true)).2.1 = some (c.send .list).2 := by
      unfold pollDirectories
      rw [hfilter]
      simp [hdue, hlisting]
    show asked (s.hub.pollDirectories now (s.link true)).2.1 s.arriving = _
    rw [hpoll, asked_send c s.arriving .list hm.positive]

/-! ## Two runs -/

/-- The daemon's terminal for panel 1. -/
def shell : Session :=
  Session.spawn ⟨⟨1⟩, ⟨1⟩, "panel", "sh", [], "/", [], 80, 24, none, false⟩ 4096 false

/-- The app has started without a shell to offer, and the daemon holds the terminal of
panel 1. -/
def started : Sys Unit :=
  { hub := .new [] none 1000
    client := none
    number := 0
    sessions := (∅ : Std.ExtTreeMap TerminalId Session).insert ⟨1⟩ shell
    arriving := [] }

theorem started_init : (machine blank 4096).init started := by
  refine ⟨⟨[], none, 1000, rfl⟩, rfl, rfl, ?_⟩
  intro terminal session hsession
  simp only [started, Std.ExtTreeMap.getElem?_insert] at hsession
  split at hsession
  · next heq =>
      rw [Std.LawfulEqCmp.compare_eq_iff_eq] at heq
      cases hsession
      exact heq
  · simp at hsession

/-- Panel 1 attaches and runs. -/
def attachFirst : List Act :=
  [.prepare ⟨1⟩ plainPlan, .connected, .connect ⟨1⟩ true, .handle (.ok .ok) false, .deliver true]

/-- A poll that is answered, a lost connection, and then the attaches of both panels. -/
theorem repliesMatch_reconnect :
    ∃ s, RepliesMatch blank 4096 s ∧ s.hub.listing = none ∧ s.arriving.length = 2 := by
  have hinit : (machine blank 4096).Reach (fun s a => nothingListed s a) started :=
    .init started_init
  obtain ⟨s, hreach, hs⟩ := hinit.exists_of_exec
    (attachFirst ++
      [.pollDirectories 0 true, .handle (.ok (.terminals [])) false, .deliver true,
        .lost, .connected, .connect ⟨1⟩ true, .prepare ⟨2⟩ plainPlan, .connect ⟨2⟩ true,
        .handle (.ok .ok) false, .handle (.ok .ok) false])
    (fun s => s.hub.listing == none && s.arriving.length == 2) (by decide)
  simp only [Bool.and_eq_true, beq_iff_eq] at hs
  exact ⟨s, repliesMatch_of_reach blank 4096 hreach, hs⟩

/-- Panel 2 waits for a reply. -/
def waits (hub : TerminalHub Unit) : Bool :=
  hub.views[(⟨2⟩ : PanelId)]?.any fun view => view.status == .connecting

/-- The next message is the daemon's refusal to attach panel 2; applied to the panel it
shows that there is no shell, but once it is delivered panel 2 still waits. -/
def stillWaits (s : Sys Unit) : Bool :=
  match s.arriving, s.hub.views[(⟨2⟩ : PanelId)]?, step blank 4096 s (.deliver true) with
  | .reply 2 (.attach ⟨2⟩ _ _) (.error message) :: _, some view, some s' =>
      waits s'.hub &&
        !waits (flush ((settled s.hub 2).applyReply blank ⟨2⟩ view .attach (.error message)
          (s.link true))).1
  | _, _, _ => false

/-- Without the condition, the number of a poll that the lost connection left
unanswered swallows the reply to an attach on the next one. -/
theorem not_repliesMatch :
    ¬ ∀ s, (machine blank 4096).Reach Machine.anyStep s → RepliesMatch blank 4096 s := by
  intro h
  have hinit : (machine blank 4096).Reach Machine.anyStep started := .init started_init
  obtain ⟨s, hreach, hs⟩ := hinit.exists_of_exec
    (attachFirst ++
      [.pollDirectories 0 true, .lost, .connected, .connect ⟨1⟩ true, .prepare ⟨2⟩ plainPlan,
        .connect ⟨2⟩ true, .handle (.ok .ok) false, .handle (.ok .ok) false, .deliver true])
    stillWaits (by decide)
  unfold stillWaits at hs
  split at hs
  · next cols rows message rest view s' harriving hview hstep =>
      have happlied := (h s hreach).applied 2 _ _ _ ⟨2⟩ .attach view true s' harriving
        (by decide) rfl hview hstep
      rw [happlied] at hs
      simp at hs
  · cases hs

end Throng.HubLink
