import Throng.Lib.Utf8
import Throng.Protocol.Frames

/-!
# Pasting into a terminal

A paste's newlines become carriage returns. When the program asked for it the paste stands between
brackets, and escapes inside are left out, so that what is pasted cannot end the bracket.
-/

namespace Throng

/-- `replace("\r\n", "\r")`. -/
def replaceCrlf : List Char → List Char
  | '\r' :: '\n' :: text => '\r' :: replaceCrlf text
  | c :: text => c :: replaceCrlf text
  | [] => []

def pasteStart : List Char := ['\x1b', '[', '2', '0', '0', '~']

def pasteEnd : List Char := ['\x1b', '[', '2', '0', '1', '~']

/-- Text to send for a paste. -/
def paste (text : List Char) (bracketed : Bool) : Bytes :=
  let normalised := (replaceCrlf text).map fun c => if c = '\n' then '\r' else c
  if bracketed then
    let cleaned := normalised.filter fun c => c ≠ '\x1b'
    Utf8.encode (pasteStart ++ cleaned ++ pasteEnd)
  else Utf8.encode normalised

/-- The byte that brackets begin with. -/
def escape : UInt8 := 0x1b

theorem escape_notMem_encode {cs : List Char} (h : '\x1b' ∉ cs) : escape ∉ Utf8.encode cs := by
  intro hmem
  obtain ⟨c, hc, hbyte⟩ := List.mem_flatMap.1 hmem
  rcases Utf8.mem_utf8EncodeChar hbyte with heq | hle
  · obtain rfl : c = '\x1b' := Char.toNat_inj.1 heq.symm
    exact h hc
  · exact absurd hle (by decide)

theorem encode_append (cs cs' : List Char) :
    Utf8.encode (cs ++ cs') = Utf8.encode cs ++ Utf8.encode cs' := List.flatMap_append

/-- A bracketed paste is the two brackets and, between them, bytes that are no escape. -/
theorem paste_bracketed (text : List Char) :
    ∃ body, escape ∉ body ∧
      paste text true = Utf8.encode pasteStart ++ body ++ Utf8.encode pasteEnd := by
  refine ⟨_, ?_, by rw [paste, if_pos rfl, encode_append, encode_append]⟩
  refine escape_notMem_encode fun hmem => ?_
  exact absurd rfl (of_decide_eq_true (List.mem_filter.1 hmem).2)

/-- What a bracket holds behind its escape. -/
def startTail : Bytes := [0x5b, 0x32, 0x30, 0x30, 0x7e]

def endTail : Bytes := [0x5b, 0x32, 0x30, 0x31, 0x7e]

theorem encode_pasteStart : Utf8.encode pasteStart = escape :: startTail := by decide

theorem encode_pasteEnd : Utf8.encode pasteEnd = escape :: endTail := by decide

theorem eq_zero_of_escape {i : Nat} {tail : Bytes} (htail : escape ∉ tail)
    (h : (escape :: tail)[i]? = some escape) : i = 0 := by
  cases i with
  | zero => rfl
  | succ i =>
      rw [List.getElem?_cons_succ] at h
      exact absurd (List.mem_of_getElem? h) htail

/-- The closing bracket stands nowhere in a bracketed paste but at its end. -/
theorem eq_nil_of_pasteEnd {text : List Char} {before after : Bytes}
    (h : paste text true = before ++ Utf8.encode pasteEnd ++ after) : after = [] := by
  obtain ⟨body, hbody, hpaste⟩ := paste_bracketed text
  rw [hpaste, encode_pasteStart, encode_pasteEnd, List.append_assoc, List.append_assoc] at h
  have hescape : (escape :: startTail ++ (body ++ escape :: endTail))[before.length]? =
      some escape := by
    rw [h, List.getElem?_append_right (Nat.le_refl _), Nat.sub_self]
    rfl
  have hlength := congrArg List.length h
  rw [List.getElem?_append] at hescape
  split at hescape
  · -- at the opening bracket, whose fifth byte is another
    have hzero := eq_zero_of_escape (by decide) hescape
    rw [List.eq_nil_of_length_eq_zero hzero] at h
    have hfifth := congrArg (fun bytes : Bytes => bytes[4]?) h
    cases hfifth
  · rw [List.getElem?_append] at hescape
    split at hescape
    · exact absurd (List.mem_of_getElem? hescape) hbody
    · have hzero := eq_zero_of_escape (by decide) hescape
      refine List.eq_nil_of_length_eq_zero ?_
      simp only [List.length_append, List.length_cons, startTail, endTail, List.length_nil] at *
      omega

/-- However the connection is cut, the program gets the front of a bracketed paste; and when it
gets a closing bracket it has got the whole of the paste, and nothing behind that bracket. -/
theorem paste_of_cut {codec : Codec ClientMsg} (hcodec : codec.Lawful) (failure : Option String)
    (terminal : TerminalId) (text : List Char) (k : Nat) :
    let stream := (writeFrames codec (posted terminal (paste text true))).take k
    let input := (readFrames codec failure stream).1.flatMap (inputOf terminal)
    input <+: paste text true ∧
      ∀ before after, input = before ++ Utf8.encode pasteEnd ++ after →
        after = [] ∧ input = paste text true := by
  intro stream input
  have hfront : input <+: paste text true := inputOf_readFrames hcodec failure _ k
  refine ⟨hfront, fun before after hinput => ?_⟩
  obtain ⟨rest, hrest⟩ := hfront
  have hnil : after ++ rest = [] := by
    refine @eq_nil_of_pasteEnd text before (after ++ rest) ?_
    rw [← hrest, hinput, List.append_assoc]
  obtain ⟨hafter, hnone⟩ := List.append_eq_nil_iff.1 hnil
  rw [hnone, List.append_nil] at hrest
  exact ⟨hafter, hrest⟩

/-- A paste that holds a closing bracket of its own. -/
def breakingOut : List Char := ['x'] ++ pasteEnd ++ ['r', 'm', '\n']

theorem paste_of_cut_breakingOut :
    let stream := (writeFrames shortWrites (posted ⟨5⟩ (paste breakingOut true))).take 40
    let input := (readFrames shortWrites none stream).1.flatMap (inputOf ⟨5⟩)
    input <+: paste breakingOut true ∧
      ∀ before after, input = before ++ Utf8.encode pasteEnd ++ after →
        after = [] ∧ input = paste breakingOut true :=
  paste_of_cut shortWrites_lawful none ⟨5⟩ breakingOut 40

end Throng
