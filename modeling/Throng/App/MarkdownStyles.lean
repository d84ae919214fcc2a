import Throng.App.MarkdownHtml
import Throng.Core.LinkSafety

/-!
# Styles and the elements around a text

The builder keeps one stack of styles for Markdown's own elements and for HTML tags, and any end
takes the innermost style off. Next to it stand the elements that do enclose what is read: an
HTML element is over with the Markdown element it was opened in, and at the latest with its block
of the document; raw HTML blocks are part of what they stand in. The stack is that of the
elements just while each end meets its own element.
-/

namespace Throng

namespace Markdown

variable {letters : Links.Letters} {opened opened' : List Opened} {b : Builder} {r : Reading}

/-! ## Elements -/

inductive Element
  | markdown (tag : Tag)
  | html (name : List Char)
deriving DecidableEq, Repr

def Element.isHtml : Element → Bool
  | .html _ => true
  | .markdown _ => false

/-- The style that an HTML element sets. -/
def htmlChange (name : List Char) : Option (Style → Style) :=
  if name = "kbd".toList then some fun s => { s with kbd := true }
  else if name = "sub".toList then some fun s => { s with sub := true }
  else if name = "sup".toList then some fun s => { s with sup := true }
  else if name = "summary".toList then some fun s => { s with strong := true }
  else none

def Element.change : Element → Option (Style → Style)
  | .markdown tag => tag.change
  | .html name => htmlChange name

/-- The style of a text inside elements, given from the innermost on. -/
def styleOf : List Element → Style
  | [] => {}
  | element :: elements => (element.change.getD id) (styleOf elements)

/-- The styles of the elements that set one. -/
def stylesOf : List Element → List Style
  | [] => []
  | element :: elements =>
      match element.change with
      | some change => change (styleOf elements) :: stylesOf elements
      | none => stylesOf elements

theorem head_stylesOf (elements : List Element) :
    (stylesOf elements).head?.getD {} = styleOf elements := by
  induction elements with
  | nil => rfl
  | cons element elements ih =>
      rw [stylesOf, styleOf]
      cases element.change with
      | none => exact ih
      | some change => rfl

/-! ## What encloses a text -/

/-- The elements around what is read, innermost first, and how many of the parser's are open. -/
structure Enclosing where
  elements : List Element
  depth : Nat
deriving DecidableEq, Repr

/-- An HTML end closes its element, where that was opened in the same Markdown element, and what
was opened inside it. -/
def closeHtml (name : List Char) (elements : List Element) : List Element :=
  if .html name ∈ elements.takeWhile Element.isHtml then
    (elements.dropWhile fun element => element ≠ .html name).tail
  else elements

/-- The elements behind an HTML tag. -/
def tagged (elements : List Element) (source : List Char) : List Element :=
  let name := tagName source
  if (htmlChange name).isNone then elements
  else if source.head? = some '/' then closeHtml name elements
  else .html name :: elements

def Atom.enclose (s : Enclosing) : Atom → Enclosing
  | .event (.start tag) _ =>
      ⟨if tag = .htmlBlock then s.elements else .markdown tag :: s.elements, s.depth + 1⟩
  | .event (.finish tag) _ =>
      -- nothing goes on behind a block of the document
      ⟨if s.depth = 1 then []
        else if tag = .htmlBlock then s.elements
        else (s.elements.dropWhile Element.isHtml).tail, s.depth - 1⟩
  | .piece (.tag source) => ⟨tagged s.elements source, s.depth⟩
  | _ => s

/-- An end meets its own element: an HTML end the innermost one, unless no style is set there
at all, a Markdown element's end no HTML element that is still open in it, and the end of an
HTML block none if the block is one of the document's. -/
def Atom.Tidy (s : Enclosing) : Atom → Prop
  | .event (.finish tag) _ =>
      (tag = .htmlBlock ∧ s.depth ≠ 1) ∨ ∀ name, s.elements.head? ≠ some (.html name)
  | .piece (.tag source) =>
      (htmlChange (tagName source)).isSome = true → source.head? = some '/' →
        s.elements.head? = some (.html (tagName source)) ∨ stylesOf s.elements = []
  | _ => True

/-- Every end meets its own element. -/
def TidyFrom : Enclosing → List Atom → Prop
  | _, [] => True
  | s, atom :: rest => atom.Tidy s ∧ TidyFrom (atom.enclose s) rest

/-- In every state that is reached the stack is that of the enclosing elements. -/
def EnclosedFrom (letters : Links.Letters) : Reading → Enclosing → List Atom → Prop
  | r, s, [] => r.builder.style = stylesOf s.elements
  | r, s, atom :: rest =>
      r.builder.style = stylesOf s.elements ∧
        EnclosedFrom letters (readAtom letters r atom) (atom.enclose s) rest

/-- Read an atom with the style that the enclosing elements give. -/
def readEnclosed (letters : Links.Letters) (state : Reading × Enclosing) (atom : Atom) :
    Reading × Enclosing :=
  (readAtom letters { state.1 with builder := { state.1.builder with
    style := stylesOf state.2.elements } } atom, atom.enclose state.2)

/-- Parse a text, the style of each run of it that of the elements around it. -/
def parseEnclosed (letters : Links.Letters) (text : List Char) (events : List (Event × Nat)) :
    Option Document :=
  let r := ((atoms none events).foldl (readEnclosed letters) (⟨.start, 0⟩, ⟨[], 0⟩)).1
  document letters text (r.builder.flush letters)

/-! ## The elements follow the parser -/

/-- The Markdown elements are those that are open but for HTML blocks, and HTML stands inside
one that is open. -/
inductive Encloses : List Tag → List Element → Prop
  | start : Encloses [] []
  | element {tags : List Tag} {elements : List Element} (tag : Tag) : tag ≠ .htmlBlock →
      Encloses tags elements → Encloses (tag :: tags) (.markdown tag :: elements)
  | block {tags : List Tag} {elements : List Element} : Encloses tags elements →
      Encloses (.htmlBlock :: tags) elements
  | html {tag : Tag} {tags : List Tag} {elements : List Element} (name : List Char) :
      (htmlChange name).isSome = true → Encloses (tag :: tags) elements →
      Encloses (tag :: tags) (.html name :: elements)

theorem Encloses.tail {tags : List Tag} {name : List Char} {elements : List Element}
    (h : Encloses tags (.html name :: elements)) :
    Encloses tags elements ∧ (htmlChange name).isSome = true := by
  generalize hall : Element.html name :: elements = all at h
  induction h with
  | start => cases hall
  | element tag hne hrest => cases hall
  | block hrest ih => exact ⟨.block (ih hall).1, (ih hall).2⟩
  | html name' hstyled hrest =>
      obtain ⟨heq, rfl⟩ := List.cons.inj hall
      obtain rfl := Element.html.inj heq
      exact ⟨hrest, hstyled⟩

/-- An HTML element that is open in the innermost Markdown element, and those around it. -/
theorem Encloses.dropTo {tags : List Tag} {elements : List Element} (h : Encloses tags elements)
    {name : List Char} (hmem : .html name ∈ elements.takeWhile Element.isHtml) :
    ∃ rest, (elements.dropWhile fun element => element ≠ .html name) = .html name :: rest ∧
      Encloses tags (.html name :: rest) := by
  induction elements with
  | nil => cases hmem
  | cons element elements ih =>
      cases element with
      | markdown tag => cases hmem
      | html other =>
          by_cases hname : other = name
          · subst hname
            rw [List.dropWhile_cons_of_neg (by simp)]
            exact ⟨elements, rfl, h⟩
          · rw [List.dropWhile_cons_of_pos (by simpa using hname)]
            refine ih h.tail.1 ?_
            rw [List.takeWhile_cons_of_pos rfl] at hmem
            rcases List.mem_cons.1 hmem with heq | hmem
            · exact absurd (Element.html.inj heq).symm hname
            · exact hmem

/-- Closing an element leaves those around it, and takes it away with all that is in it. -/
theorem Encloses.close {tags : List Tag} {elements : List Element} (h : Encloses tags elements)
    (name : List Char) : Encloses tags (closeHtml name elements) := by
  rw [closeHtml]
  split
  · next hmem =>
      obtain ⟨rest, hdrop, hrest⟩ := h.dropTo hmem
      rw [hdrop]
      exact hrest.tail.1
  · exact h

theorem Encloses.tagged {tag : Tag} {tags : List Tag} {elements : List Element}
    (h : Encloses (tag :: tags) elements) (source : List Char) :
    Encloses (tag :: tags) (tagged elements source) := by
  rw [Markdown.tagged]
  split
  · exact h
  · next hstyled =>
      split
      · exact h.close _
      · refine .html _ ?_ h
        cases hchange : htmlChange (tagName source) with
        | none => exact absurd (by rw [hchange]; rfl) hstyled
        | some change => rfl

/-- An element that is over, with the HTML that was left open in it. -/
theorem Encloses.finish {tag : Tag} {tags : List Tag} {elements : List Element}
    (h : Encloses (tag :: tags) elements) (hne : tag ≠ .htmlBlock) :
    ∃ rest, elements.dropWhile Element.isHtml = .markdown tag :: rest ∧ Encloses tags rest := by
  generalize hall : tag :: tags = all at h
  induction h with
  | start => cases hall
  | element tag' hne' hrest =>
      obtain ⟨rfl, rfl⟩ := List.cons.inj hall
      exact ⟨_, rfl, hrest⟩
  | block hrest ih => exact absurd (List.cons.inj hall).1 hne
  | html name hstyled hrest ih => exact ih hall

theorem Encloses.finishBlock {tag : Tag} {tags : List Tag} {elements : List Element}
    (h : Encloses (.htmlBlock :: tag :: tags) elements) : Encloses (tag :: tags) elements := by
  generalize hall : Tag.htmlBlock :: tag :: tags = all at h
  induction h with
  | start => cases hall
  | element tag' hne hrest => exact absurd (List.cons.inj hall).1.symm hne
  | block hrest ih =>
      obtain ⟨-, rfl⟩ := List.cons.inj hall
      exact hrest
  | html name hstyled hrest ih => exact .html name hstyled (ih hall)

/-- The only element is over. -/
theorem Encloses.last {tag : Tag} {elements : List Element} (h : Encloses [tag] elements)
    (hhead : ∀ name, elements.head? ≠ some (.html name)) :
    elements = if tag = .htmlBlock then [] else [.markdown tag] := by
  cases h with
  | element _ hne hrest =>
      cases hrest
      rw [if_neg hne]
  | block hrest => cases hrest; rfl
  | html name => exact absurd rfl (hhead name)

/-! ## One atom -/

theorem stylesOf_html {name : List Char} (hstyled : (htmlChange name).isSome = true)
    (elements : List Element) :
    ∃ style, stylesOf (.html name :: elements) = style :: stylesOf elements := by
  obtain ⟨change, hchange⟩ := Option.isSome_iff_exists.1 hstyled
  refine ⟨change (styleOf elements), ?_⟩
  rw [stylesOf, Element.change, hchange]

/-- Fewer elements set no more styles. -/
theorem length_stylesOf_dropWhile (p : Element → Bool) (elements : List Element) :
    (stylesOf (elements.dropWhile p)).length ≤ (stylesOf elements).length := by
  induction elements with
  | nil => exact Nat.le_refl _
  | cons element elements ih =>
      have hcons : (stylesOf elements).length ≤ (stylesOf (element :: elements)).length := by
        rw [stylesOf]
        split
        · exact Nat.le_succ _
        · exact Nat.le_refl _
      cases hp : p element with
      | true =>
          rw [List.dropWhile_cons_of_pos hp]
          exact Nat.le_trans ih hcons
      | false =>
          rw [List.dropWhile_cons_of_neg (by simp [hp])]

theorem style_tag (b : Builder) (source : List Char) : (b.tag source).style =
    match htmlChange (tagName source) with
    | none => b.style
    | some change =>
        if source.head? = some '/' then b.style.tail else change b.currentStyle :: b.style := by
  rw [Builder.tag]
  by_cases hclosing : source.head? = some '/'
  · simp only [hclosing, not_true, and_false, if_false, and_true, if_true]
    split
    · next hname =>
        rw [hname]
        rfl
    split
    · next hname =>
        rcases hname with hname | hname | hname <;> rw [hname] <;> rfl
    split
    · next hname =>
        rw [hname]
        rfl
    · next hbr hother hsummary =>
        rw [htmlChange, if_neg fun hkbd => hother (.inl hkbd),
          if_neg fun hsub => hother (.inr (.inl hsub)),
          if_neg fun hsup => hother (.inr (.inr hsup)), if_neg hsummary]
  · simp only [hclosing, not_false_eq_true, and_true, and_false, if_false]
    split
    · next hname =>
        rw [hname]
        rfl
    split
    · next hname =>
        rw [hname]
        rfl
    split
    · next hname =>
        rw [hname]
        rfl
    split
    · next hname =>
        rw [hname]
        rfl
    split
    · next hname =>
        rw [hname]
        rfl
    split
    · next hname =>
        rw [hname]
        rfl
    split
    · next hname =>
        rw [hname]
        rfl
    · next hkbd hsub hsup hsummary =>
        rw [htmlChange, if_neg hkbd, if_neg hsub, if_neg hsup, if_neg hsummary]
        split <;> rfl

/-- The end of a Markdown element takes off the style of what it ends, or of an HTML element
that is still open in it. -/
theorem finish_enclosed {s : Enclosing} {tag : Tag} {tags : List Tag}
    (h : Encloses (tag :: tags) s.elements) (hdepth : s.depth = (tag :: tags).length) (i : Nat) :
    (Event.finish tag).restyle (stylesOf s.elements) =
        stylesOf ((Atom.event (.finish tag) i).enclose s).elements ↔
      (Atom.event (.finish tag) i).Tidy s := by
  obtain ⟨elements, depth⟩ := s
  dsimp only at h hdepth
  rw [Atom.enclose, Atom.Tidy]
  dsimp only
  by_cases hblock : tag = .htmlBlock
  · subst hblock
    by_cases hlast : depth = 1
    · have hnil : tags = [] := by
        rw [hlast, List.length_cons] at hdepth
        exact List.length_eq_zero_iff.1 (Nat.succ.inj hdepth).symm
      subst hnil
      rw [if_pos hlast]
      constructor
      · rintro hstyles
        refine .inr fun name hhead => ?_
        obtain ⟨rest, rfl⟩ := List.head?_eq_some_iff.1 hhead
        obtain ⟨style, hstyle⟩ := stylesOf_html h.tail.2 rest
        change stylesOf (.html name :: rest) = [] at hstyles
        rw [hstyle] at hstyles
        cases hstyles
      · rintro (⟨-, hdepth'⟩ | hhead)
        · exact absurd hlast hdepth'
        · rw [h.last hhead]
          rfl
    · rw [if_neg hlast, if_pos rfl]
      exact ⟨fun _ => .inl ⟨rfl, hlast⟩, fun _ => rfl⟩
  · obtain ⟨rest, hdrop, hrest⟩ := h.finish hblock
    have helements : (if depth = 1 then [] else if tag = .htmlBlock then elements
        else (elements.dropWhile Element.isHtml).tail) = rest := by
      rw [if_neg hblock, hdrop]
      split
      · next hlast =>
          rw [hlast, List.length_cons] at hdepth
          rw [List.length_eq_zero_iff.1 (Nat.succ.inj hdepth).symm] at hrest
          cases hrest
          rfl
      · rfl
    rw [helements]
    have hstyles : (Event.finish tag).restyle (stylesOf (.markdown tag :: rest)) =
        stylesOf rest := by
      rw [Event.restyle, stylesOf, Element.change]
      cases tag.change <;> rfl
    constructor
    · intro heq
      refine .inr fun name hhead => ?_
      obtain ⟨inner, rfl⟩ := List.head?_eq_some_iff.1 hhead
      obtain ⟨style, hstyle⟩ := stylesOf_html h.tail.2 inner
      have hlength := length_stylesOf_dropWhile Element.isHtml inner
      rw [List.dropWhile_cons_of_pos rfl] at hdrop
      rw [hdrop] at hlength
      rw [hstyle, ← hstyles] at heq
      have hlengths := congrArg List.length heq
      rw [Event.restyle, Event.restyle] at hlengths
      cases hchange : tag.change with
      | none =>
          rw [hchange] at hlengths
          simp only [Option.isSome_none, Bool.false_eq_true, if_false, List.length_cons] at hlengths
          omega
      | some change =>
          rw [stylesOf, Element.change, hchange, List.length_cons] at hlength
          rw [hchange, stylesOf, Element.change, hchange] at hlengths
          simp only [Option.isSome_some, if_true, List.tail_cons] at hlengths
          omega
    · rintro (⟨hblock', -⟩ | hhead)
      · exact absurd hblock' hblock
      · cases helements' : elements with
        | nil =>
            rw [helements'] at hdrop
            cases hdrop
        | cons element inner =>
            rw [helements'] at hdrop hhead
            cases element with
            | html name => exact absurd rfl (hhead name)
            | markdown tag' =>
                rw [List.dropWhile_cons_of_neg (by simp [Element.isHtml])] at hdrop
                rw [hdrop, hstyles]

/-- An HTML end takes the innermost style off. -/
theorem close_enclosed {tag : Tag} {tags : List Tag} {elements : List Element}
    (h : Encloses (tag :: tags) elements) {name : List Char} :
    (stylesOf elements).tail = stylesOf (closeHtml name elements) ↔
      elements.head? = some (.html name) ∨ stylesOf elements = [] := by
  by_cases hmem : .html name ∈ elements.takeWhile Element.isHtml
  · rw [closeHtml, if_pos hmem]
    cases elements with
    | nil => cases hmem
    | cons element rest =>
        cases element with
        | markdown tag' => cases hmem
        | html other =>
            obtain ⟨style, hstyle⟩ := stylesOf_html h.tail.2 rest
            rw [hstyle]
            by_cases hname : other = name
            · subst hname
              rw [List.dropWhile_cons_of_neg (by simp)]
              exact ⟨fun _ => .inl rfl, fun _ => rfl⟩
            · rw [List.dropWhile_cons_of_pos (by simpa using hname)]
              constructor
              · intro heq
                have hmem' : .html name ∈ rest.takeWhile Element.isHtml := by
                  rw [List.takeWhile_cons_of_pos rfl] at hmem
                  rcases List.mem_cons.1 hmem with heq' | hmem
                  · exact absurd (Element.html.inj heq').symm hname
                  · exact hmem
                obtain ⟨around, hdrop, haround⟩ := h.tail.1.dropTo hmem'
                obtain ⟨style', hstyle'⟩ := stylesOf_html haround.tail.2 around
                have hlength :=
                  length_stylesOf_dropWhile (fun element => element ≠ .html name) rest
                rw [hdrop] at heq hlength
                rw [hstyle', List.length_cons] at hlength
                have hlengths := congrArg List.length heq
                rw [List.tail_cons, List.tail_cons] at hlengths
                omega
              · rintro (hhead | hnil)
                · exact absurd (Element.html.inj (Option.some.inj hhead)) hname
                · cases hnil
  · rw [closeHtml, if_neg hmem]
    constructor
    · intro heq
      cases hstyles : stylesOf elements with
      | nil => exact .inr rfl
      | cons style styles =>
          rw [hstyles] at heq
          exact absurd heq (List.ne_cons_self)
    · rintro (hhead | hnil)
      · obtain ⟨rest, rfl⟩ := List.head?_eq_some_iff.1 hhead
        exact absurd List.mem_cons_self hmem
      · rw [hnil]
        rfl

theorem tag_enclosed {s : Enclosing} {tag : Tag} {tags : List Tag}
    (h : Encloses (tag :: tags) s.elements) (hstyle : b.style = stylesOf s.elements)
    (source : List Char) :
    (b.tag source).style = stylesOf ((Atom.piece (.tag source)).enclose s).elements ↔
      (Atom.piece (.tag source)).Tidy s := by
  rw [style_tag, Atom.enclose, Atom.Tidy, tagged, hstyle]
  dsimp only
  cases hchange : htmlChange (tagName source) with
  | none => exact ⟨fun _ hsome => absurd hsome Bool.false_ne_true, fun _ => rfl⟩
  | some change =>
      simp only [Option.isNone_some, Bool.false_eq_true, if_false]
      by_cases hclosing : source.head? = some '/'
      · rw [if_pos hclosing, if_pos hclosing]
        exact ⟨fun heq _ _ => (close_enclosed h).1 heq,
          fun htidy => (close_enclosed h).2 (htidy rfl hclosing)⟩
      · have hcurrent : b.currentStyle = styleOf s.elements := by
          rw [Builder.currentStyle, hstyle, head_stylesOf]
        have hopened : stylesOf (.html (tagName source) :: s.elements) =
            change (styleOf s.elements) :: stylesOf s.elements := by
          rw [stylesOf, Element.change, hchange]
        rw [if_neg hclosing, if_neg hclosing, hcurrent, hopened]
        exact ⟨fun _ _ hclosing' => absurd hclosing' hclosing, fun _ => rfl⟩

/-- A piece of raw HTML, which stands inside an element. -/
theorem piece_enclosed {s : Enclosing} {tag : Tag} {tags : List Tag}
    (h : Encloses (tag :: tags) s.elements) (hstyle : b.style = stylesOf s.elements)
    (piece : Piece) :
    ((b.piece piece).style = stylesOf ((Atom.piece piece).enclose s).elements ↔
        (Atom.piece piece).Tidy s) ∧
      Encloses (tag :: tags) ((Atom.piece piece).enclose s).elements := by
  cases piece with
  | text text => exact ⟨⟨fun _ => trivial, fun _ => (unstyled_addText b _).style.trans hstyle⟩, h⟩
  | tag source => exact ⟨tag_enclosed h hstyle source, h.tagged source⟩
  | resume => exact ⟨⟨fun _ => trivial, fun _ => hstyle⟩, h⟩

/-! ## A run of atoms -/

theorem EnclosedFrom.head {s : Enclosing} {run : List Atom}
    (h : EnclosedFrom letters r s run) : r.builder.style = stylesOf s.elements := by
  cases run with
  | nil => exact h
  | cons atom run => exact h.1

theorem enclosedFrom_append (r : Reading) (s : Enclosing) (run run' : List Atom) :
    EnclosedFrom letters r s (run ++ run') ↔ EnclosedFrom letters r s run ∧
      EnclosedFrom letters (run.foldl (readAtom letters) r) (run.foldl Atom.enclose s) run' := by
  induction run generalizing r s with
  | nil => exact ⟨fun h => ⟨h.head, h⟩, fun h => h.2⟩
  | cons atom run ih =>
      rw [List.cons_append, EnclosedFrom, EnclosedFrom, ih, and_assoc]
      rfl

theorem tidyFrom_append (s : Enclosing) (run run' : List Atom) :
    TidyFrom s (run ++ run') ↔ TidyFrom s run ∧ TidyFrom (run.foldl Atom.enclose s) run' := by
  induction run generalizing s with
  | nil => exact ⟨fun h => ⟨trivial, h⟩, fun h => h.2⟩
  | cons atom run ih =>
      rw [List.cons_append, TidyFrom, TidyFrom, ih, and_assoc]
      rfl

theorem EnclosedFrom.last {s : Enclosing} {run : List Atom} (h : EnclosedFrom letters r s run) :
    (run.foldl (readAtom letters) r).builder.style =
      stylesOf (run.foldl Atom.enclose s).elements := by
  have happend := (enclosedFrom_append r s run []).1 (by rwa [List.append_nil])
  exact happend.2

theorem pieces_enclosed {s : Enclosing} {tag : Tag} {tags : List Tag}
    (h : Encloses (tag :: tags) s.elements) (hstyle : r.builder.style = stylesOf s.elements)
    (found : List Piece) :
    EnclosedFrom letters r s (found.map .piece) ↔ TidyFrom s (found.map .piece) := by
  induction found generalizing r s with
  | nil => exact ⟨fun _ => trivial, fun _ => hstyle⟩
  | cons piece found ih =>
      obtain ⟨hiff, hnext⟩ := piece_enclosed h hstyle piece
      have hread (hright : (r.builder.piece piece).style =
          stylesOf ((Atom.piece piece).enclose s).elements) :=
        @ih (readAtom letters r (.piece piece)) _ hnext hright
      constructor
      · rintro ⟨-, hrest⟩
        exact ⟨hiff.1 hrest.head, (hread hrest.head).1 hrest⟩
      · rintro ⟨htidy, hrest⟩
        exact ⟨hstyle, (hread (hiff.2 htidy)).2 hrest⟩

theorem encloses_pieces {s : Enclosing} {tag : Tag} {tags : List Tag}
    (h : Encloses (tag :: tags) s.elements) (found : List Piece) :
    Encloses (tag :: tags) ((found.map Atom.piece).foldl Atom.enclose s).elements ∧
      ((found.map Atom.piece).foldl Atom.enclose s).depth = s.depth := by
  induction found generalizing s with
  | nil => exact ⟨h, rfl⟩
  | cons piece found ih =>
      cases piece with
      | text text => exact ih h
      | tag source => exact @ih ⟨tagged s.elements source, s.depth⟩ (h.tagged source)
      | resume => exact ih h

/-! ## A run of events -/

/-- The elements around are those that the parser has open. -/
structure Around (opened : List Opened) (s : Enclosing) : Prop where
  elements : Encloses (opened.map Opened.tag) s.elements
  depth : s.depth = opened.length

theorem map_tag_closing (tag : Tag) (rest : List Opened) :
    (closing tag rest).map Opened.tag = rest.map Opened.tag := by
  cases rest with
  | nil => rfl
  | cons element rest =>
      rw [closing]
      split <;> rfl

theorem atomsOf_of_raw (skip : Option (List Char)) {event : Event × Nat}
    (hraw : event.1.isRaw = true) : ∃ (found : List Piece) (first : Event),
      atomsOf skip event = .event first event.2 :: found.map .piece ∧
      (first = .html [] ∨ first = .inlineHtml []) := by
  obtain ⟨event, i⟩ := event
  cases event with
  | html source => exact ⟨pieces skip source, .html [], rfl, .inl rfl⟩
  | inlineHtml source => exact ⟨pieces skip source, .inlineHtml [], rfl, .inr rfl⟩
  | _ => cases hraw

theorem style_readEvent (r : Reading) {event : Event × Nat} (hraw : event.1.isRaw = false) :
    (readEvent letters r event).builder.style = event.1.restyle r.builder.style := by
  obtain ⟨topStart, hbegun⟩ := exists_begun r event
  rw [readEvent_eq, (event_restyled _ _ hraw).2, hbegun]

theorem start_enclosed {s : Enclosing} {tags : List Tag} (h : Encloses tags s.elements)
    (tag : Tag) (i : Nat) :
    (Event.start tag).restyle (stylesOf s.elements) =
        stylesOf ((Atom.event (.start tag) i).enclose s).elements ∧
      Encloses (tag :: tags) ((Atom.event (.start tag) i).enclose s).elements := by
  rw [Atom.enclose]
  dsimp only
  split
  · next hblock =>
      subst hblock
      exact ⟨rfl, .block h⟩
  · next hblock =>
      refine ⟨?_, .element tag hblock h⟩
      rw [Event.restyle, stylesOf, Element.change]
      cases tag.change with
      | none => rfl
      | some change =>
          dsimp only
          rw [head_stylesOf]

theorem Around.finish {s : Enclosing} {element : Opened} {rest : List Opened}
    (h : Around (element :: rest) s) (i : Nat) :
    Around (closing element.tag rest) ((Atom.event (.finish element.tag) i).enclose s) := by
  have hdepth := h.depth
  have helements := h.elements
  refine ⟨?_, ?_⟩
  · rw [map_tag_closing, Atom.enclose]
    dsimp only
    cases rest with
    | nil =>
        rw [if_pos (show s.depth = 1 from hdepth)]
        exact .start
    | cons outer rest =>
        rw [if_neg (by rw [hdepth]; simp)]
        by_cases hblock : element.tag = .htmlBlock
        · rw [if_pos hblock]
          rw [List.map_cons, hblock] at helements
          exact helements.finishBlock
        · rw [if_neg hblock]
          obtain ⟨elements, hdrop, hrest⟩ := helements.finish hblock
          rw [hdrop]
          exact hrest
  · rw [length_closing]
    change s.depth - 1 = rest.length
    rw [hdepth]
    rfl

/-- An event that is not raw HTML. -/
theorem event_enclosed {s : Enclosing} (h : Around opened s)
    (hstyle : r.builder.style = stylesOf s.elements) {event : Event × Nat}
    (hraw : event.1.isRaw = false) (hnest : nest opened event = some opened') :
    ((readEvent letters r event).builder.style =
        stylesOf ((Atom.event event.1 event.2).enclose s).elements ↔
      (Atom.event event.1 event.2).Tidy s) ∧
      Around opened' ((Atom.event event.1 event.2).enclose s) := by
  obtain ⟨event, i⟩ := event
  rw [style_readEvent r hraw, hstyle]
  rcases nest_cases hnest with ⟨tag, rfl, hadmits, rfl⟩ | ⟨element, rest, rfl, rfl, rfl⟩ |
    ⟨hleaf, hadmits, rfl⟩
  · obtain ⟨hstyles, helements⟩ := start_enclosed h.elements tag i
    exact ⟨⟨fun _ => trivial, fun _ => hstyles⟩, helements, congrArg Nat.succ h.depth⟩
  · refine ⟨finish_enclosed h.elements ?_ i, h.finish i⟩
    rw [h.depth, List.length_cons, List.length_cons, List.length_map]
  · have hsame : (Atom.event event i).enclose s = s ∧ (Atom.event event i).Tidy s ∧
        event.restyle (stylesOf s.elements) = stylesOf s.elements := by
      cases event with
      | start tag => exact absurd rfl (hleaf tag)
      | finish tag => cases hplace : placeOf opened' <;> rw [hplace] at hadmits <;> cases hadmits
      | _ => exact ⟨rfl, trivial, rfl⟩
    rw [hsame.1]
    exact ⟨⟨fun _ => hsame.2.1, fun _ => hsame.2.2⟩, h⟩

/-- Any event, atom by atom. -/
theorem atomsOf_enclosed {s : Enclosing} (h : Around opened s)
    (hstyle : r.builder.style = stylesOf s.elements) (skip : Option (List Char))
    {event : Event × Nat} (hnest : nest opened event = some opened') :
    (EnclosedFrom letters r s (atomsOf skip event) ↔ TidyFrom s (atomsOf skip event)) ∧
      Around opened' ((atomsOf skip event).foldl Atom.enclose s) := by
  cases hraw : event.1.isRaw with
  | false =>
      obtain ⟨hiff, haround⟩ := @event_enclosed letters _ _ r s h hstyle event hraw hnest
      rw [atomsOf_of_not_raw skip hraw]
      exact ⟨⟨fun hright => ⟨hiff.1 hright.2, trivial⟩, fun htidy => ⟨hstyle, hiff.2 htidy.1⟩⟩,
        haround⟩
  | true =>
      obtain ⟨found, first, hatoms, hfirst⟩ := atomsOf_of_raw skip hraw
      obtain ⟨rfl, element, rest, rfl⟩ := exists_opened_of_raw hraw hnest
      rw [hatoms]
      have hnext : (Atom.event first event.2).enclose s = s ∧ (Atom.event first event.2).Tidy s ∧
          (readAtom letters r (.event first event.2)).builder.style = r.builder.style := by
        obtain ⟨topStart, hbegun⟩ := exists_begun r (first, event.2)
        rw [readAtom, readEvent_eq, hbegun]
        rcases hfirst with rfl | rfl
        · exact ⟨rfl, trivial, rfl⟩
        · exact ⟨rfl, trivial, rfl⟩
      obtain ⟨helements, hdepth⟩ := encloses_pieces h.elements found
      have hpieces := @pieces_enclosed letters (readAtom letters r (.event first event.2)) s _ _
        h.elements (hnext.2.2.trans hstyle) found
      rw [EnclosedFrom, TidyFrom, List.foldl_cons, hnext.1]
      exact ⟨⟨fun hright => ⟨hnext.2.1, hpieces.1 hright.2⟩,
        fun htidy => ⟨hstyle, hpieces.2 htidy.2⟩⟩, helements, hdepth.trans h.depth⟩

/-- A run of a well-nested stream. -/
theorem atoms_enclosed {s : Enclosing} (h : Around opened s)
    (hstyle : r.builder.style = stylesOf s.elements) (skip : Option (List Char))
    {events : List (Event × Nat)} (hnest : events.foldlM nest opened = some opened') :
    EnclosedFrom letters r s (atoms skip events) ↔ TidyFrom s (atoms skip events) := by
  induction events generalizing opened r s skip with
  | nil => exact ⟨fun _ => trivial, fun _ => hstyle⟩
  | cons event events ih =>
      rw [List.foldlM_cons] at hnest
      obtain ⟨between, hbetween, hrest⟩ := Option.bind_eq_some_iff.1 hnest
      obtain ⟨hiff, haround⟩ := @atomsOf_enclosed letters _ _ r s h hstyle skip _ hbetween
      rw [atoms, enclosedFrom_append, tidyFrom_append]
      constructor
      · rintro ⟨hfirst, hlater⟩
        exact ⟨hiff.1 hfirst, (ih haround hfirst.last _ hrest).1 hlater⟩
      · rintro ⟨hfirst, hlater⟩
        exact ⟨hiff.2 hfirst, (ih haround (hiff.2 hfirst).last _ hrest).2 hlater⟩

/-! ## Documents -/

/-- Where the stack is that of the elements, nothing else sets the style of a text. -/
theorem EnclosedFrom.read {s : Enclosing} {run : List Atom} (h : EnclosedFrom letters r s run) :
    run.foldl (readEnclosed letters) (r, s) =
      (run.foldl (readAtom letters) r, run.foldl Atom.enclose s) := by
  induction run generalizing r s with
  | nil => rfl
  | cons atom run ih =>
      obtain ⟨hstyle, hrest⟩ := h
      rw [List.foldl_cons, readEnclosed, ← hstyle]
      exact ih hrest

/-- Every end of a document meets its own element. -/
def Tidy (events : List (Event × Nat)) : Prop := TidyFrom ⟨[], 0⟩ (atoms none events)

/-- In every state that reading a document reaches, the stack of styles is that of the
elements around. -/
def StylesEnclosed (letters : Links.Letters) (events : List (Event × Nat)) : Prop :=
  EnclosedFrom letters ⟨.start, 0⟩ ⟨[], 0⟩ (atoms none events)

/-- Styles are those of the enclosing elements, in every state and so in the document, just
when each end meets its own element. -/
theorem stylesEnclosed_iff (letters : Links.Letters) (text : List Char)
    (events : List (Event × Nat)) (hnest : WellNested events) :
    (StylesEnclosed letters events ↔ Tidy events) ∧
      (Tidy events → parse letters text events = parseEnclosed letters text events) := by
  have hiff : StylesEnclosed letters events ↔ Tidy events :=
    @atoms_enclosed letters [] [] ⟨.start, 0⟩ ⟨[], 0⟩ ⟨.start, rfl⟩ rfl none events hnest
  refine ⟨hiff, fun htidy => ?_⟩
  have hread : (atoms none events).foldl (readEnclosed letters) (⟨.start, 0⟩, ⟨[], 0⟩) =
      ((atoms none events).foldl (readAtom letters) ⟨.start, 0⟩,
        (atoms none events).foldl Atom.enclose ⟨[], 0⟩) := (hiff.2 htidy).read
  have hevents : events.foldl (readEvent letters) ⟨.start, 0⟩ =
      (atoms none events).foldl (readAtom letters) ⟨.start, 0⟩ := foldl_readEvent ⟨.start, 0⟩ events
  rw [parse, parseEnclosed, hread, hevents]

/-- A key in a paragraph, its own end behind it. -/
def oneKey : List (Event × Nat) :=
  [(.start .paragraph, 0), (.start .strong, 0), (.inlineHtml "<kbd>".toList, 2),
    (.text "a".toList, 7), (.inlineHtml "</kbd>".toList, 8), (.text "b".toList, 14),
    (.finish .strong, 0), (.finish .paragraph, 0)]

theorem stylesEnclosed_oneKey :
    (StylesEnclosed Links.asciiLetters oneKey ↔ Tidy oneKey) ∧
      (Tidy oneKey → parse Links.asciiLetters "**<kbd>a</kbd>b**\n".toList oneKey =
        parseEnclosed Links.asciiLetters "**<kbd>a</kbd>b**\n".toList oneKey) :=
  stylesEnclosed_iff Links.asciiLetters _ oneKey (by decide)

/-- An end without its key in strong text, and a key without its end behind it. -/
def strayKeys : List (Event × Nat) :=
  [(.start .paragraph, 0), (.start .strong, 0), (.text "a".toList, 2),
    (.inlineHtml "</kbd>".toList, 3), (.code "b".toList, 9), (.finish .strong, 0),
    (.text " ".toList, 14), (.inlineHtml "<kbd>".toList, 15), (.text "c".toList, 20),
    (.finish .paragraph, 0), (.start .paragraph, 23), (.code "d".toList, 23),
    (.finish .paragraph, 23)]

def strayKeysText : List Char := "**a</kbd>`b`** <kbd>c\n\n`d`\n".toList

/-- What a document ends with. -/
def Document.lastLeaf (document : Document) : Option Leaf :=
  (leavesOfBlocks document.blocks).getLast?

/-- The `d` of the next paragraph is a key. -/
theorem not_stylesEnclosed : WellNested strayKeys ∧
    ¬StylesEnclosed Links.asciiLetters strayKeys ∧
    parse Links.asciiLetters strayKeysText strayKeys ≠
      parseEnclosed Links.asciiLetters strayKeysText strayKeys := by
  refine ⟨by decide, fun h => absurd h.last (by decide), fun heq => ?_⟩
  exact absurd (congrArg (Option.map Document.lastLeaf) heq) (by decide)

end Markdown

end Throng
