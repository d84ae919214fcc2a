import Mathlib.Logic.Basic
import Std.Data.ExtTreeMap

/-!
# Stable identities

Every id is a v4 UUID wrapped in its own type, so a panel id can never be passed
where a project id is expected. The source stamps the four types out of one
macro; here they are one type family over the kind of id. A terminal is named by
the panel that asked for it.
-/

namespace Throng

/-- What an id names. -/
inductive IdKind
  | project
  | tab
  | panel
  | terminal

/-- An identity of one kind: a UUID, read as a number. -/
structure Id (kind : IdKind) where
  uuid : Nat
deriving DecidableEq, Repr

abbrev ProjectId := Id .project
abbrev TabId := Id .tab
abbrev PanelId := Id .panel
abbrev TerminalId := Id .terminal

namespace Id

variable {kind : IdKind}

instance : Ord (Id kind) := ⟨compareOn uuid⟩

instance : Std.TransOrd (Id kind) := inferInstanceAs (Std.TransCmp (compareOn uuid))

instance : Std.LawfulEqOrd (Id kind) where
  compare_self := by
    intro a
    exact Std.ReflCmp.compare_self
  eq_of_compare := by
    intro a b h
    have hab : a.uuid = b.uuid := Nat.compare_eq_eq.mp h
    cases a
    cases b
    exact congrArg _ hab

end Id

/-- `TerminalId::from(panel)`. -/
def PanelId.toTerminal (panel : PanelId) : TerminalId := ⟨panel.uuid⟩

/-- `PanelId::from(terminal)`. -/
def TerminalId.toPanel (terminal : TerminalId) : PanelId := ⟨terminal.uuid⟩

@[simp] theorem TerminalId.toPanel_toTerminal (terminal : TerminalId) :
    terminal.toPanel.toTerminal = terminal := rfl

@[simp] theorem PanelId.toTerminal_toPanel (panel : PanelId) :
    panel.toTerminal.toPanel = panel := rfl

end Throng
