import ContractCalls.Proofs.Dot.Quoted
import Mathlib.Data.Set.Function

/-!
# Escapes

What `Dot.escape` writes can be read back from left to right, without looking for an end:
`Dot.unescape` takes a backslash together with the character behind it, and refuses a backslash that
has nothing behind it or nothing that it could protect.

Whether a character is protected depends on all that stands before it, since backslashes protect
each other: `opensEscape` says whether a backslash is still open at the end of a text.  A text is
`Contained` if it leaves no backslash open, protects its quotes and angle brackets, and has no line
breaks.  As it leaves nothing open, contained texts can be put one behind the other
(`Contained.append`), and a text that is escaped is nothing but its escaped characters in a row.

`escaping_is_decodable` says both of every text, and what follows from it.
-/

namespace ContractCalls
namespace Dot

/-- What a backslash and the character behind it stand for. -/
def escaped? : Char → Option Char
  | '\\' => some '\\'
  | '"' => some '"'
  | '<' => some '<'
  | '>' => some '>'
  | 'n' => some '\n'
  | _ => none

/-- What an escaped text stands for, read from left to right. -/
def unescape : List Char → Option (List Char)
  | [] => some []
  | ['\\'] => none
  | '\\' :: c :: rest => (escaped? c).bind fun c => (unescape rest).map (c :: ·)
  | c :: rest => (unescape rest).map (c :: ·)

/-- The text ends on a backslash that would protect what comes next. -/
def opensEscape (cs : List Char) : Bool := cs.foldl (fun isOpen c => !isOpen && c == '\\') false

/-- The text neither ends a quoted string that it is put into nor breaks its line. -/
structure Contained (cs : List Char) : Prop where
  lineFeed : '\n' ∉ cs
  carriageReturn : '\r' ∉ cs
  /-- Every quote and every angle bracket has a backslash that protects it. -/
  escaped : ∀ before c after, cs = before ++ c :: after → c ∈ ['"', '<', '>'] →
    opensEscape before = true
  /-- No backslash is left that would protect what comes next. -/
  closed : opensEscape cs = false

variable {cs rest first second : List Char} {c : Char}

/-! ### Reading back -/

theorem unescape_cons (h : c ≠ '\\') : unescape (c :: rest) = (unescape rest).map (c :: ·) := by
  rw [unescape.eq_def]
  split <;> simp_all

/-- One character is read back at a time; a carriage return was not written. -/
theorem unescape_escapeChar (c : Char) (rest : List Char) :
    unescape (escapeChar c ++ rest) = (unescape rest).map ([c].filter (· != '\r') ++ ·) := by
  fun_cases escapeChar c with
  | case1 => rfl
  | case2 => rfl
  | case3 => rfl
  | case4 => rfl
  | case5 => rfl
  | case6 => exact Option.map_id'.symm
  | case7 c hbackslash _ _ _ _ hreturn =>
    rw [List.filter_cons_of_pos (by simpa using hreturn)]
    exact unescape_cons hbackslash

theorem unescape_escapeChars (cs : List Char) :
    unescape (escapeChars cs) = some (cs.filter (· != '\r')) := by
  induction cs with
  | nil => rfl
  | cons c cs ih =>
    rw [escapeChars, List.flatMap_cons, unescape_escapeChar, ← escapeChars, ih, Option.map_some,
      ← List.filter_append, List.singleton_append]

/-- **What was escaped is read back**, to the end of the text. -/
theorem unescape_escape (s : String) :
    unescape (escape s).toList = some (withoutReturns s).toList := by
  rw [escape, String.toList_ofList, unescape_escapeChars, withoutReturns, String.toList_ofList]

theorem withoutReturns_eq_self {s : String} (h : '\r' ∉ s.toList) : withoutReturns s = s := by
  have hall : s.toList.filter (· != '\r') = s.toList := by
    refine List.filter_eq_self.2 fun c hc => ?_
    have hne : c ≠ '\r' := fun heq => h (heq ▸ hc)
    simpa using hne
  rw [withoutReturns, hall, String.ofList_toList]

/-! ### Contained texts -/

/-- A text that leaves nothing open has no part in what is protected behind it. -/
theorem opensEscape_append (h : opensEscape first = false) (second : List Char) :
    opensEscape (first ++ second) = opensEscape second := by
  rw [opensEscape] at h
  rw [opensEscape, List.foldl_append, h, opensEscape]

theorem contained_nil : Contained [] where
  lineFeed := List.not_mem_nil
  carriageReturn := List.not_mem_nil
  escaped := by
    intro before c after h
    simp at h
  closed := rfl

/-- **Contained texts can be put one behind the other.** -/
theorem Contained.append (h : Contained first) (h' : Contained second) :
    Contained (first ++ second) where
  lineFeed := by
    rw [List.mem_append, not_or]
    exact ⟨h.lineFeed, h'.lineFeed⟩
  carriageReturn := by
    rw [List.mem_append, not_or]
    exact ⟨h.carriageReturn, h'.carriageReturn⟩
  escaped := by
    intro before c after heq hc
    rcases List.append_eq_append_iff.1 heq with ⟨before', rfl, hsecond⟩ | ⟨rest, hfirst, hrest⟩
    · rw [opensEscape_append h.closed]
      exact h'.escaped before' c after hsecond hc
    · cases rest with
      | nil =>
        -- The character is the first one of the second text, where nothing can protect it.
        exact absurd (h'.escaped [] c after hrest.symm hc) (by decide)
      | cons d rest =>
        obtain ⟨rfl, _⟩ := List.cons.inj hrest
        exact h.escaped before c rest hfirst hc
  closed := by rw [opensEscape_append h.closed, h'.closed]

theorem contained_pair (hfeed : c ≠ '\n') (hreturn : c ≠ '\r') : Contained ['\\', c] where
  lineFeed := by simp [hfeed.symm]
  carriageReturn := by simp [hreturn.symm]
  escaped := by
    intro before d after heq hd
    rcases before with _ | ⟨b, _ | ⟨b', before⟩⟩
    · obtain ⟨rfl, _⟩ := List.cons.inj heq
      exact absurd hd (by decide)
    · obtain ⟨rfl, _⟩ := List.cons.inj heq
      rfl
    · simp at heq
  closed := rfl

theorem contained_singleton (hfeed : c ≠ '\n') (hreturn : c ≠ '\r') (hbackslash : c ≠ '\\')
    (hplain : c ∉ ['"', '<', '>']) : Contained [c] where
  lineFeed := by simp [hfeed.symm]
  carriageReturn := by simp [hreturn.symm]
  escaped := by
    intro before d after heq hd
    rcases before with _ | ⟨b, before⟩
    · obtain ⟨rfl, _⟩ := List.cons.inj heq
      exact absurd hd hplain
    · simp at heq
  closed := by simp [opensEscape, hbackslash]

theorem contained_escapeChar (c : Char) : Contained (escapeChar c) := by
  fun_cases escapeChar c with
  | case1 => exact contained_pair (by decide) (by decide)
  | case2 => exact contained_pair (by decide) (by decide)
  | case3 => exact contained_pair (by decide) (by decide)
  | case4 => exact contained_pair (by decide) (by decide)
  | case5 => exact contained_pair (by decide) (by decide)
  | case6 => exact contained_nil
  | case7 c hbackslash hquote hless hgreater hfeed hreturn =>
    have hplain : c ∉ ['"', '<', '>'] := by
      simp only [List.mem_cons, List.not_mem_nil, or_false, not_or]
      exact ⟨hquote, hless, hgreater⟩
    exact contained_singleton hfeed hreturn hbackslash hplain

/-- **What was escaped is contained.** -/
theorem contained_escape (s : String) : Contained (escape s).toList := by
  rw [escape, String.toList_ofList]
  induction s.toList with
  | nil => exact contained_nil
  | cons c cs ih => exact (contained_escapeChar c).append ih

/-- **Escaping can be undone**, whatever the text is.  What was escaped is read back from left to
right but for its carriage returns, and it is contained in any quoted string.  So texts without
carriage returns are never escaped alike, and pieces of a text may be escaped one by one. -/
theorem escaping_is_decodable :
    (∀ s, unescape (escape s).toList = some (withoutReturns s).toList ∧
      Contained (escape s).toList) ∧
    Set.InjOn escape {s | '\r' ∉ s.toList} ∧
    ∀ s t, escape (s ++ t) = escape s ++ escape t := by
  refine ⟨fun s => ⟨unescape_escape s, contained_escape s⟩, ?_, escape_append⟩
  intro s hs t ht heq
  have hread : some (withoutReturns s).toList = some (withoutReturns t).toList := by
    rw [← unescape_escape, heq, unescape_escape]
  rw [withoutReturns_eq_self hs, withoutReturns_eq_self ht] at hread
  exact String.toList_inj.1 (Option.some.inj hread)

/-- A backslash before the letter `n`, a line feed, and a backslash before one, all escaped. -/
theorem breaks_escaping_is_decodable :
    escape "\\n" ≠ escape "\n" ∧ escape "\\\n" ≠ escape "\\\\n" ∧
      opensEscape (escape "<\\\r").toList = false ∧
      unescape (escape "<\\\r").toList = some ['<', '\\'] := by
  obtain ⟨hdecoded, hinjective, _⟩ := escaping_is_decodable
  refine ⟨fun h => ?_, fun h => ?_, (hdecoded _).2.closed, (hdecoded _).1.trans (by decide)⟩
  · exact absurd (hinjective (by decide) (by decide) h) (by decide)
  · exact absurd (hinjective (by decide) (by decide) h) (by decide)

end Dot
end ContractCalls
