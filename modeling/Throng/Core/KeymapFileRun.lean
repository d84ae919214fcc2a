import Throng.Core.ChordText
import Throng.Core.KeymapFile

/-!
# Key bindings over writing and reading

A keymap that was read and edited holds chords for exactly the commands, without
repetition and none of them refused. Each of them is read back from its text. So a command
that is written takes its chords again, and one that is left out its defaults.
-/

namespace Throng

namespace Keymap

variable {upper : Char → List Char} {keys keys' : Keymap} {id other : String} {chord : Chord}
  {mac : Bool}

/-! ## Keymaps in order -/

/-- A keymap for the platform: chords for exactly the commands, none twice, none refused. -/
structure InOrder (mac : Bool) (keys : Keymap) : Prop where
  mac : keys.mac = mac
  keyed : ∀ id, (keys.bindings[id]?).isSome = (command id).isSome
  nodup : ∀ id, (keys.chords id).Nodup
  accepted : ∀ id, ∀ chord ∈ keys.chords id, keys.refusal id chord = none

/-- A refusal goes by the platform alone. -/
theorem refusal_congr (h : keys.mac = keys'.mac) (id : String) (chord : Chord) :
    keys.refusal id chord = keys'.refusal id chord := by
  rw [refusal, refusal, h]

def isReserved : TerminalTier → Bool
  | .reserved _ => true
  | _ => false

theorem refusal_eq_none {c : Command} (hc : c ∈ commands) (hbindable : chord.bindable = true)
    (htier : (c.liveIn .terminal && isReserved (terminalTier chord keys.mac)) = false) :
    keys.refusal c.id chord = none := by
  rw [refusal, hbindable, command_eq_some.2 ⟨hc, rfl⟩]
  dsimp only [Bool.not_true, Bool.false_eq_true, if_false]
  cases hkind : terminalTier chord keys.mac with
  | reserved what =>
      rw [hkind, isReserved, Bool.and_true] at htier
      simp [htier]
  | _ => rfl

/-- No default chord is given twice or refused. -/
theorem defaults_accepted : ∀ mac : Bool, ∀ c ∈ commands,
    (c.defaults (fun _ => []) mac).Nodup ∧ ∀ chord ∈ c.defaults (fun _ => []) mac,
      chord.bindable = true ∧
        (c.liveIn .terminal && isReserved (terminalTier chord mac)) = false := by
  have hall : ([false, true].all fun mac => commands.all fun c =>
      decide (c.defaults (fun _ => []) mac).Nodup && (c.defaults (fun _ => []) mac).all fun chord =>
        chord.bindable && !(c.liveIn .terminal && isReserved (terminalTier chord mac))) = true := by
    decide +kernel
  intro mac c hc
  have hmac : mac ∈ [false, true] := by cases mac <;> decide
  have hone := List.all_eq_true.mp (List.all_eq_true.mp hall mac hmac) c hc
  rw [Bool.and_eq_true, decide_eq_true_eq] at hone
  refine ⟨hone.1, fun chord hchord => ?_⟩
  have hchord' := List.all_eq_true.mp hone.2 chord hchord
  rwa [Bool.and_eq_true, Bool.not_eq_true'] at hchord'

theorem nodup_defaults {c : Command} (hc : c ∈ commands) (mac : Bool) :
    (c.defaults upper mac).Nodup := by
  rw [defaults_eq hc]
  exact (defaults_accepted mac c hc).1

theorem refusal_of_mem_defaults {c : Command} (hc : c ∈ commands)
    (h : chord ∈ c.defaults upper keys.mac) : keys.refusal c.id chord = none := by
  rw [defaults_eq hc] at h
  obtain ⟨hbindable, htier⟩ := (defaults_accepted keys.mac c hc).2 chord h
  exact refusal_eq_none hc hbindable htier

theorem chords_of_command_eq_none (h : InOrder mac keys) (hid : command id = none) :
    keys.chords id = [] := by
  have hkeyed := h.keyed id
  rw [hid, Option.isSome_none, Option.isSome_eq_false_iff, Option.isNone_iff_eq_none] at hkeyed
  rw [chords, Std.ExtTreeMap.getD_eq_getD_getElem?, hkeyed]
  rfl

theorem chords_insert (keys : Keymap) (id other : String) (chords : List Chord) :
    ({ keys with bindings := keys.bindings.insert id chords } : Keymap).chords other =
      if id = other then chords else keys.chords other := by
  rw [Keymap.chords, Std.ExtTreeMap.getD_insert]
  simp only [Std.LawfulEqCmp.compare_eq_iff_eq]
  rfl

/-- A command takes chords that are in order. -/
theorem InOrder.insert (h : InOrder mac keys) {c : Command} (hc : c ∈ commands)
    {chords : List Chord} (hnodup : chords.Nodup)
    (haccepted : ∀ chord ∈ chords, keys.refusal c.id chord = none) :
    InOrder mac { keys with bindings := keys.bindings.insert c.id chords } := by
  refine ⟨h.mac, fun id => ?_, fun id => ?_, fun id chord hchord => ?_⟩
  · rw [Std.ExtTreeMap.getElem?_insert]
    simp only [Std.LawfulEqCmp.compare_eq_iff_eq]
    split
    · next heq => rw [command_eq_some.2 ⟨hc, heq⟩]; rfl
    · exact h.keyed id
  · rw [chords_insert]
    split
    · exact hnodup
    · exact h.nodup id
  · rw [chords_insert] at hchord
    refine (refusal_congr rfl id chord).trans (?_ : keys.refusal id chord = none)
    split at hchord
    · next heq => exact heq ▸ haccepted chord hchord
    · exact h.accepted id chord hchord

theorem InOrder.unbind (h : InOrder mac keys) (id : String) (chord : Chord) :
    InOrder mac (keys.unbind id chord) := by
  refine ⟨h.mac, fun other => ?_, fun other => ?_, fun other chord' hchord => ?_⟩
  · rw [Keymap.unbind, Std.ExtTreeMap.getElem?_modify]
    split
    · next heq =>
        rw [Std.LawfulEqCmp.compare_eq_iff_eq] at heq
        rw [Option.isSome_map, heq]
        exact h.keyed other
    · exact h.keyed other
  · rw [chords_unbind]
    split
    · exact (h.nodup id).filter _
    · exact h.nodup other
  · rw [chords_unbind] at hchord
    refine (refusal_congr rfl other chord').trans (?_ : keys.refusal other chord' = none)
    split at hchord
    · next heq => exact heq ▸ h.accepted id chord' (List.mem_of_mem_filter hchord)
    · exact h.accepted other chord' hchord

theorem isSome_command (id : String) :
    (command id).isSome = (commands.map Command.id).contains id := by
  rw [Bool.eq_iff_iff, Option.isSome_iff_exists, List.contains_iff_mem, List.mem_map]
  simp only [command_eq_some]

theorem inOrder_defaults (mac : Bool) : InOrder mac (defaults upper mac) := by
  have hkeyed : ∀ id, ((defaults upper mac).bindings[id]?).isSome = (command id).isSome := by
    intro id
    rw [Std.ExtTreeMap.isSome_getElem?_eq_contains, defaults, Std.ExtTreeMap.contains_ofList,
      List.map_map, isSome_command]
    rfl
  have hchords : ∀ id, (defaults upper mac).chords id = [] ∨
      ∃ c ∈ commands, c.id = id ∧ (defaults upper mac).chords id = c.defaults upper mac := by
    intro id
    cases hid : command id with
    | none =>
        have hnone := hkeyed id
        rw [hid, Option.isSome_none, Option.isSome_eq_false_iff, Option.isNone_iff_eq_none] at hnone
        rw [chords, Std.ExtTreeMap.getD_eq_getD_getElem?, hnone]
        exact .inl rfl
    | some c =>
        obtain ⟨hc, rfl⟩ := command_eq_some.1 hid
        exact .inr ⟨c, hc, rfl, chords_defaults hc⟩
  refine ⟨rfl, hkeyed, fun id => ?_, fun id chord hchord => ?_⟩
  · rcases hchords id with hnil | ⟨c, hc, -, hdefaults⟩
    · rw [hnil]
      exact List.nodup_nil
    · rw [hdefaults]
      exact nodup_defaults hc mac
  · rcases hchords id with hnil | ⟨c, hc, rfl, hdefaults⟩
    · rw [hnil] at hchord
      cases hchord
    · rw [hdefaults] at hchord
      exact refusal_of_mem_defaults hc hchord

theorem InOrder.reset (h : InOrder mac keys) (id : String) : InOrder mac (keys.reset upper id) := by
  rw [Keymap.reset]
  cases hid : command id with
  | none => exact h
  | some c =>
      obtain ⟨hc, rfl⟩ := command_eq_some.1 hid
      exact h.insert hc (nodup_defaults hc _) fun chord hchord => refusal_of_mem_defaults hc hchord

theorem InOrder.taken (h : InOrder mac keys) (ids : List String) (chord : Chord) :
    InOrder mac (ids.foldl (fun keys other => keys.unbind other chord) keys) := by
  induction ids generalizing keys with
  | nil => exact h
  | cons id ids ih => exact ih (h.unbind id chord)

theorem InOrder.bind (h : InOrder mac keys) (haccepted : keys.refusal id chord = none) :
    InOrder mac (keys.bind id chord) := by
  rw [Keymap.bind]
  cases hid : command id with
  | none => exact h
  | some c =>
      obtain ⟨hc, rfl⟩ := command_eq_some.1 hid
      have htaken := h.taken (keys.conflicts c.id chord) chord
      have hmac := htaken.mac.trans h.mac.symm
      refine htaken.insert hc ?_ fun bound hbound => ?_
      · split
        · exact htaken.nodup c.id
        · next hnot =>
            rw [List.contains_iff_mem] at hnot
            exact List.concat_eq_append ▸ (htaken.nodup c.id).concat hnot
      · split at hbound
        · exact htaken.accepted c.id bound hbound
        · rcases List.mem_append.1 hbound with hbound | hbound
          · exact htaken.accepted c.id bound hbound
          · rw [List.mem_singleton.1 hbound, refusal_congr hmac]
            exact haccepted

/-! ## Reading -/

variable {display : Json → String}

theorem readToken_cases (keys : Keymap) (id : String) (state : List Chord × List String)
    (token : Json) : (readToken upper display keys id state token).1 = state.1 ∨
      ∃ chord, chord ∉ state.1 ∧ keys.refusal id chord = none ∧
        (readToken upper display keys id state token).1 = state.1 ++ [chord] := by
  rw [readToken]
  cases token.asStr.bind (Chord.parse upper) with
  | none => exact .inl rfl
  | some chord =>
      rw [Option.elim]
      split
      · exact .inl rfl
      · next hnot =>
          rw [List.contains_iff_mem] at hnot
          cases hrefusal : keys.refusal id chord with
          | some reason => exact .inl rfl
          | none => exact .inr ⟨chord, hnot, hrefusal, rfl⟩

/-- What is read from a command's list. -/
theorem foldl_readToken (tokens : List Json) {state : List Chord × List String}
    (hnodup : state.1.Nodup) (haccepted : ∀ chord ∈ state.1, keys.refusal id chord = none) :
    (tokens.foldl (readToken upper display keys id) state).1.Nodup ∧
      ∀ chord ∈ (tokens.foldl (readToken upper display keys id) state).1,
        keys.refusal id chord = none := by
  induction tokens generalizing state with
  | nil => exact ⟨hnodup, haccepted⟩
  | cons token tokens ih =>
      rw [List.foldl_cons]
      rcases readToken_cases keys id state token with heq | ⟨chord, hnot, hrefusal, heq⟩
      · exact ih (by rwa [heq]) (by rwa [heq])
      · refine ih (by rw [heq]; exact List.concat_eq_append ▸ hnodup.concat hnot) ?_
        intro bound hbound
        rw [heq] at hbound
        rcases List.mem_append.1 hbound with hbound | hbound
        · exact haccepted bound hbound
        · rw [List.mem_singleton.1 hbound]
          exact hrefusal

/-- What one member of the file does to the keymap. -/
theorem readBinding_cases (state : Keymap × List String) (member : String × Json) :
    (readBinding upper display state member).1 = state.1 ∨
      ∃ c ∈ commands, ∃ tokens, c.id = member.1 ∧ member.2 = .arr tokens ∧
        (readBinding upper display state member).1 = { state.1 with
          bindings := state.1.bindings.insert c.id
            (tokens.foldl (readToken upper display state.1 member.1) ([], state.2)).1 } := by
  rw [readBinding]
  cases hid : command member.1 with
  | none => exact .inl rfl
  | some c =>
      obtain ⟨hc, hname⟩ := command_eq_some.1 hid
      rw [Option.elim]
      cases hvalue : member.2 with
      | arr tokens => exact .inr ⟨c, hc, tokens, hname, rfl, rfl⟩
      | _ => exact .inl rfl

theorem InOrder.readBinding {state : Keymap × List String} (h : InOrder mac state.1)
    (member : String × Json) : InOrder mac (readBinding upper display state member).1 := by
  rcases @readBinding_cases upper display state member with
    heq | ⟨c, hc, tokens, hname, -, heq⟩
  · rwa [heq]
  · rw [heq, ← hname]
    obtain ⟨hnodup, haccepted⟩ := @foldl_readToken upper state.1 c.id display tokens ([], state.2)
      List.nodup_nil (fun _ hmem => absurd hmem List.not_mem_nil)
    exact h.insert hc hnodup haccepted

theorem InOrder.readBindings {state : Keymap × List String} (h : InOrder mac state.1)
    (members : Json.Members) :
    InOrder mac (members.foldl (Keymap.readBinding upper display) state).1 := by
  induction members generalizing state with
  | nil => exact h
  | cons member members ih => exact ih (h.readBinding member)

variable {Text : Type} {serde : SerdeJson Text}

theorem inOrder_parse (text : Text) (mac : Bool) :
    InOrder mac (parse serde upper display text mac).1 := by
  rw [parse]
  split
  · exact inOrder_defaults mac
  · next value _ =>
      rw [readValue]
      cases bindingsOf value with
      | none => exact inOrder_defaults mac
      | some bindings => exact InOrder.readBindings (inOrder_defaults mac) bindings

/-! ## Reading what was written -/

/-- The list of a command as it is written. -/
def tokens (chords : List Chord) : Json := .arr (chords.map fun chord => .str chord.text)

/-- Chords that are read from their texts are read from their list. -/
theorem foldl_readToken_text {done chords : List Chord} (hnodup : (done ++ chords).Nodup)
    (haccepted : ∀ chord ∈ chords, keys.refusal id chord = none)
    (hread : ∀ chord ∈ chords, Chord.parse upper chord.text = some chord)
    (problems : List String) :
    (chords.map fun chord => Json.str chord.text).foldl (readToken upper display keys id)
      (done, problems) = (done ++ chords, problems) := by
  induction chords generalizing done with
  | nil => rw [List.append_nil]; rfl
  | cons chord chords ih =>
      have hnot : ¬ done.contains chord = true := by
        rw [List.contains_iff_mem]
        exact fun hmem => List.disjoint_of_nodup_append hnodup hmem List.mem_cons_self
      have hstep : readToken upper display keys id (done, problems) (.str chord.text) =
          (done ++ [chord], problems) := by
        rw [readToken, Json.asStr, Option.bind_some, hread chord List.mem_cons_self, Option.elim,
          if_neg hnot, haccepted chord List.mem_cons_self]
        rfl
      rw [List.append_cons] at hnodup
      rw [List.map_cons, List.foldl_cons, hstep,
        ih hnodup (fun c hc => haccepted c (List.mem_cons_of_mem _ hc))
          (fun c hc => hread c (List.mem_cons_of_mem _ hc)), ← List.append_cons]

theorem chords_readBinding_of_ne {state : Keymap × List String} {member : String × Json}
    (h : id ≠ member.1) :
    (readBinding upper display state member).1.chords id = state.1.chords id := by
  rcases @readBinding_cases upper display state member with heq | ⟨c, -, tokens, hname, -, heq⟩
  · rw [heq]
  · rw [heq, chords_insert, if_neg (hname ▸ h.symm)]

/-- Bindings of other commands leave a command as it is. -/
theorem chords_readBindings_of_ne {members : Json.Members} (h : ∀ member ∈ members, id ≠ member.1)
    (state : Keymap × List String) :
    (members.foldl (readBinding upper display) state).1.chords id = state.1.chords id := by
  induction members generalizing state with
  | nil => rfl
  | cons member members ih =>
      rw [List.foldl_cons, ih (fun m hm => h m (List.mem_cons_of_mem _ hm)),
        chords_readBinding_of_ne (h member List.mem_cons_self)]

variable {c : Command} {bound : List Chord}

theorem chords_readBinding_tokens (hc : c ∈ commands) (hnodup : bound.Nodup)
    (hread : ∀ chord ∈ bound, Chord.parse upper chord.text = some chord)
    {state : Keymap × List String}
    (haccepted : ∀ chord ∈ bound, state.1.refusal c.id chord = none) :
    (readBinding upper display state (c.id, tokens bound)).1.chords c.id = bound := by
  have hlist := @foldl_readToken_text upper state.1 c.id display [] bound
    (by rwa [List.nil_append]) haccepted hread state.2
  rw [readBinding, command_eq_some.2 ⟨hc, rfl⟩]
  dsimp only [Option.elim, tokens, Json.asArray]
  rw [chords_insert, if_pos rfl, hlist, List.nil_append]

/-- A command that is listed with the chords `bound` only has them in the end. -/
theorem chords_readBindings (hc : c ∈ commands) (hnodup : bound.Nodup)
    (hread : ∀ chord ∈ bound, Chord.parse upper chord.text = some chord)
    {members : Json.Members} (hmembers : ∀ member ∈ members, member.1 = c.id →
      member = (c.id, tokens bound)) (hlisted : (c.id, tokens bound) ∈ members)
    {state : Keymap × List String} (h : InOrder mac state.1)
    (haccepted : ∀ chord ∈ bound, state.1.refusal c.id chord = none) :
    (members.foldl (readBinding upper display) state).1.chords c.id = bound := by
  induction members generalizing state with
  | nil => cases hlisted
  | cons member members ih =>
      have hnext := @InOrder.readBinding upper mac display state h member
      have hplatform := hnext.mac.trans h.mac.symm
      rw [List.foldl_cons]
      by_cases hlater : (c.id, tokens bound) ∈ members
      · refine ih (fun m hm => hmembers m (List.mem_cons_of_mem _ hm)) hlater hnext ?_
        intro chord hchord
        rw [refusal_congr hplatform]
        exact haccepted chord hchord
      · obtain rfl := (List.mem_cons.1 hlisted).resolve_right hlater
        rw [chords_readBindings_of_ne, chords_readBinding_tokens hc hnodup hread haccepted]
        intro m hm heq
        exact hlater (hmembers m (List.mem_cons_of_mem _ hm) heq.symm ▸ hm)

/-! ## Writing -/

theorem mem_writeBinding {bindings : Json.Members} {member : String × Json} :
    member ∈ writeBinding upper keys bindings c ↔
      (keys.chords c.id ≠ c.defaults upper keys.mac ∧ member = (c.id, tokens (keys.chords c.id))) ∨
        member ∈ bindings ∧ member.1 ≠ c.id := by
  rw [writeBinding]
  split
  · next heq =>
      rw [Json.mem_erase]
      exact (or_iff_right fun h => h.1 heq).symm
  · next hne =>
      rw [Json.mem_insert, tokens]
      exact or_congr_left (and_iff_right hne).symm

/-- What the written bindings hold: the commands that are not at their defaults, and what
the file held of others. -/
theorem mem_foldl_writeBinding (cs : List Command) {bindings : Json.Members}
    {member : String × Json} (hnodup : (cs.map Command.id).Nodup) :
    member ∈ cs.foldl (writeBinding upper keys) bindings ↔
      (∃ c ∈ cs, keys.chords c.id ≠ c.defaults upper keys.mac ∧
        member = (c.id, tokens (keys.chords c.id))) ∨
        member ∈ bindings ∧ ∀ c ∈ cs, member.1 ≠ c.id := by
  induction cs generalizing bindings with
  | nil => simp
  | cons c cs ih =>
      obtain ⟨hnot, hrest⟩ := List.nodup_cons.1 hnodup
      rw [List.foldl_cons, ih hrest, mem_writeBinding]
      simp only [List.mem_cons, exists_eq_or_imp, forall_eq_or_imp]
      constructor
      · rintro (h | ⟨h | h, hne⟩)
        · exact .inl (.inr h)
        · exact .inl (.inl h)
        · exact .inr ⟨h.1, h.2, hne⟩
      · rintro ((h | h) | ⟨h, hc, hne⟩)
        · refine .inr ⟨.inl h, fun d hd heq => hnot ?_⟩
          rw [h.2] at heq
          exact List.mem_map.2 ⟨d, hd, heq.symm⟩
        · exact .inl h
        · exact .inr ⟨.inr ⟨h, hc⟩, hne⟩

/-- The bindings of commands throng does not know stay. -/
theorem get_foldl_writeBinding {cs : List Command} (h : ∀ c ∈ cs, id ≠ c.id)
    (bindings : Json.Members) :
    Json.get (cs.foldl (writeBinding upper keys) bindings) id = Json.get bindings id := by
  induction cs generalizing bindings with
  | nil => rfl
  | cons c cs ih =>
      rw [List.foldl_cons, ih fun d hd => h d (List.mem_cons_of_mem _ hd), writeBinding]
      split
      · exact Json.get_erase_of_ne (h c List.mem_cons_self)
      · exact Json.get_insert_of_ne (h c List.mem_cons_self)

/-! ## Writing and reading -/

/-- Keymaps in order with the same chords are the same. -/
theorem InOrder.eq (h : InOrder mac keys) (h' : InOrder mac keys')
    (hchords : ∀ c ∈ commands, keys.chords c.id = keys'.chords c.id) : keys = keys' := by
  have hbindings : keys.bindings = keys'.bindings := by
    refine Std.ExtTreeMap.ext_getElem? fun id => ?_
    have hkeyed := h.keyed id
    have hkeyed' := h'.keyed id
    cases hid : command id with
    | none =>
        rw [hid, Option.isSome_none, Option.isSome_eq_false_iff, Option.isNone_iff_eq_none]
          at hkeyed hkeyed'
        rw [hkeyed, hkeyed']
    | some c =>
        obtain ⟨hc, rfl⟩ := command_eq_some.1 hid
        rw [hid, Option.isSome_some, Option.isSome_iff_exists] at hkeyed hkeyed'
        obtain ⟨chords, hsome⟩ := hkeyed
        obtain ⟨chords', hsome'⟩ := hkeyed'
        have hsame := hchords c hc
        rw [Keymap.chords, Keymap.chords, Std.ExtTreeMap.getD_eq_getD_getElem?, hsome,
          Std.ExtTreeMap.getD_eq_getD_getElem?, hsome'] at hsame
        rw [hsome, hsome']
        exact congrArg some hsame
  have hmac := h.mac.trans h'.mac.symm
  cases keys
  cases keys'
  rw [Keymap.mk.injEq]
  exact ⟨hmac, hbindings⟩

theorem bindingsOf_written (keys : Keymap) (doc : Json.Members) :
    ∃ bindings, bindingsOf (.obj (written upper keys doc)) =
      some (writtenBindings upper keys bindings) ∧
        bindings = (bindingsOf (.obj doc)).getD [] := by
  refine ⟨_, ?_, rfl⟩
  rw [bindingsOf, Json.asObject, Option.bind_some, written, Json.get_insert_self, Option.bind_some,
    Json.asObject]
  split
  · rfl
  · rw [bindingsOf, Json.asObject, Option.bind_some,
      Json.get_insert_of_ne (by decide : "bindings" ≠ "version")]
    rfl

/-- What is written over a document is read as the keymap it was. -/
theorem readValue_written (h : InOrder mac keys)
    (hread : ∀ id, ∀ chord ∈ keys.chords id, Chord.parse upper chord.text = some chord)
    (doc : Json.Members) :
    (readValue upper display mac (.obj (written upper keys doc))).1 = keys := by
  obtain ⟨bindings, hbindings, -⟩ := @bindingsOf_written upper keys doc
  rw [readValue, hbindings, Option.elim]
  have hdefaults := @inOrder_defaults upper mac
  refine InOrder.eq (InOrder.readBindings hdefaults _) h fun c hc => ?_
  have hmem := fun member =>
    @mem_foldl_writeBinding upper keys commands bindings member commands_nodup
  by_cases heq : keys.chords c.id = c.defaults upper keys.mac
  · rw [chords_readBindings_of_ne, chords_defaults hc, heq, h.mac]
    rintro member hmember hname
    rcases (hmem member).1 hmember with ⟨d, hd, hne, rfl⟩ | ⟨-, hnone⟩
    · obtain rfl := eq_of_id hc hd hname
      exact hne heq
    · exact hnone c hc hname.symm
  · refine chords_readBindings hc (h.nodup c.id) (hread c.id) (fun member hmember hname => ?_)
      ((hmem _).2 (.inl ⟨c, hc, heq, rfl⟩)) hdefaults fun chord hchord => ?_
    · rcases (hmem member).1 hmember with ⟨d, hd, -, rfl⟩ | ⟨-, hnone⟩
      · obtain rfl := eq_of_id hd hc hname
        rfl
      · exact absurd hname (hnone c hc)
    · rw [refusal_congr (hdefaults.mac.trans h.mac.symm)]
      exact h.accepted c.id chord hchord

/-- The keymaps the settings screen makes of what a file holds. -/
def fileMachine {Text : Type} (serde : SerdeJson Text) (upper : Char → List Char)
    (display : Json → String) (mac : Bool) : Machine Keymap Action :=
  { machine upper mac with
    init := fun keys => ∃ text, keys = (parse serde upper display text mac).1 }

theorem inOrder_of_reach
    (h : (fileMachine serde upper display mac).Reach Machine.anyStep keys) : InOrder mac keys := by
  refine h.invariant ?_ fun s action s' hi _ hstep => ?_
  · rintro s ⟨text, rfl⟩
    exact inOrder_parse text mac
  · rw [fileMachine, machine] at hstep
    cases action with
    | bind id chord =>
        dsimp only at hstep
        split_ifs at hstep with hnone
        rw [← Option.some.inj hstep]
        exact hi.bind (Option.isNone_iff_eq_none.1 hnone)
    | unbind id chord =>
        rw [← Option.some.inj hstep]
        exact hi.unbind id chord
    | reset id =>
        rw [← Option.some.inj hstep]
        exact hi.reset id

/-- The chord was read from an ASCII token. -/
def ReadFromAscii (upper : Char → List Char) (chord : Chord) : Prop :=
  ∃ token : String, (∀ c ∈ token.toList, c.toNat < 128) ∧ Chord.parse upper token = some chord

theorem ReadFromAscii.parse_text (h : ReadFromAscii upper chord) :
    Chord.parse upper chord.text = some chord := by
  obtain ⟨token, hascii, hparse⟩ := h
  exact Chord.parse_text (Chord.keyForm_of_parse hascii hparse)

/-- `keys` is read from `after`, which holds what the document `before` held besides
`bindings`, and its bindings of commands throng does not know. -/
structure WrittenOver {Text : Type} (serde : SerdeJson Text) (upper : Char → List Char)
    (display : Json → String) (mac : Bool) (keys : Keymap) (before : Option Text) (text : Text)
    (after : Json.Members) : Prop where
  read : (parse serde upper display text mac).1 = keys
  holds : serde.fromStr text = .ok (.obj after)
  members : ∀ file doc, before = some file → serde.fromStr file = .ok (.obj doc) →
    ∀ name value, name ≠ "bindings" → Json.get doc name = some value →
      Json.get after name = some value
  unknown : ∀ file doc, before = some file → serde.fromStr file = .ok (.obj doc) →
    ∀ id, command id = none →
      ((bindingsOf (.obj after)).bind fun bindings => Json.get bindings id) =
        (bindingsOf (.obj doc)).bind fun bindings => Json.get bindings id

/-- Key bindings survive writing and reading, if what is written is read again unchanged. -/
theorem writeInto_survives
    (h : (fileMachine serde upper display mac).Reach Machine.anyStep keys)
    (hascii : ∀ id, ∀ chord ∈ keys.chords id, ReadFromAscii upper chord)
    (existing : Option Text)
    (hwrite : serde.fromStr (writeInto serde upper keys existing) =
      .ok (.obj (written upper keys (existingDoc serde existing)))) :
    WrittenOver serde upper display mac keys existing (writeInto serde upper keys existing)
      (written upper keys (existingDoc serde existing)) := by
  have hexisting : ∀ file doc, existing = some file → serde.fromStr file = .ok (.obj doc) →
      existingDoc serde existing = doc := by
    rintro file doc rfl hdoc
    rw [existingDoc, Option.bind_some, hdoc]
    rfl
  refine ⟨?_, hwrite, ?_, ?_⟩
  · rw [parse, hwrite]
    exact readValue_written (inOrder_of_reach h)
      (fun id chord hchord => (hascii id chord hchord).parse_text) _
  · intro file doc hfile hdoc name value hname hvalue
    rw [hexisting file doc hfile hdoc, written, Json.get_insert_of_ne hname]
    split
    · exact hvalue
    · next hversion =>
        rw [Json.get_insert_of_ne, hvalue]
        rintro rfl
        rw [hvalue] at hversion
        exact hversion rfl
  · intro file doc hfile hdoc id hid
    rw [hexisting file doc hfile hdoc]
    obtain ⟨bindings, hbindings, rfl⟩ := @bindingsOf_written upper keys doc
    rw [hbindings, Option.bind_some, writtenBindings, get_foldl_writeBinding]
    · cases bindingsOf (.obj doc) <;> rfl
    · intro c hc heq
      rw [heq, command_eq_some.2 ⟨hc, rfl⟩] at hid
      cases hid

theorem readFromAscii_of_mem_defaults {c : Command} (hc : c ∈ commands)
    (h : chord ∈ c.defaults upper mac) : ReadFromAscii upper chord := by
  rw [Command.defaults] at h
  obtain ⟨token, htoken, hparse⟩ := List.mem_filterMap.1 h
  refine ⟨token, fun char hchar => defaultTokens_ascii c hc token ?_ char hchar, hparse⟩
  split_ifs at htoken
  · cases hmac : c.macDefaults with
    | none =>
        rw [hmac] at htoken
        exact List.mem_append_left _ htoken
    | some tokens =>
        rw [hmac] at htoken
        exact List.mem_append_right _ htoken
  · exact List.mem_append_left _ htoken

/-- The defaults with the full screen's chord taken away. -/
def fullscreenUnbound : Keymap :=
  (defaults (fun _ => []) false).unbind "view.fullscreen" ⟨false, false, false, "F11"⟩

/-- A file with a comment and a binding of another program. -/
def anothersFile : Json :=
  .obj [("comment", .str "mine"), ("bindings", .obj [("someone.elses", .arr [.str "Ctrl+Q"])])]

theorem writeInto_survives_unbound :
    WrittenOver .plain (fun _ => []) (fun _ => "") false fullscreenUnbound (some anothersFile)
      (writeInto .plain (fun _ => []) fullscreenUnbound (some anothersFile))
      (written (fun _ => []) fullscreenUnbound (existingDoc .plain (some anothersFile))) := by
  have hinit : (fileMachine .plain (fun _ => []) (fun _ => "") false).Reach Machine.anyStep
      (defaults (fun _ => []) false) := .init ⟨.obj [], rfl⟩
  have hreach : (fileMachine .plain (fun _ => []) (fun _ => "") false).Reach Machine.anyStep
      fullscreenUnbound :=
        .step (a := .unbind "view.fullscreen" ⟨false, false, false, "F11"⟩) hinit trivial rfl
  refine writeInto_survives hreach (fun id chord hchord => ?_) (some anothersFile) rfl
  have hdefault : chord ∈ (defaults (fun _ => []) false).chords id := by
    rw [fullscreenUnbound, chords_unbind] at hchord
    split at hchord
    · next heq => exact heq ▸ List.mem_of_mem_filter hchord
    · exact hchord
  cases hid : command id with
  | none =>
      rw [chords_of_command_eq_none (inOrder_defaults false) hid] at hdefault
      cases hdefault
  | some c =>
      obtain ⟨hc, rfl⟩ := command_eq_some.1 hid
      rw [chords_defaults hc] at hdefault
      exact readFromAscii_of_mem_defaults hc hdefault

end Keymap

end Throng
