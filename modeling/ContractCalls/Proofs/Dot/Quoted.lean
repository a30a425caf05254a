import ContractCalls.Dot.Quoted
import Mathlib.Data.List.Basic

/-!
# Reading quoted text

`Dot.readQuoted` reads the inside of a quoted string, up to the first quote that no backslash
protects.  `readQuoted_escape` says that it gets back what was escaped, whatever text this was, and
that it ends at the quote which was put behind it: nothing in the text ends the string early, not
even a backslash at the end of the text, which is doubled and so can not protect that quote.  Only
the carriage returns are gone (`withoutReturns`).

Escaping goes character by character, so a text may be escaped in pieces (`escape_append`,
`escape_join`), and it leaves no line feed (`not_mem_escape`).
-/

namespace ContractCalls
namespace Dot

/-- A text without its carriage returns. -/
def withoutReturns (s : String) : String := .ofList (s.toList.filter (· != '\r'))

/-- What a character stands for behind a backslash. -/
def protectedChar : Char → Char
  | 'n' => '\n'
  | c => c

/-- The inside of a quoted string and what follows the quote that ends it, if one does. -/
def readQuoted : List Char → Option (List Char × List Char)
  | [] => none
  | '"' :: rest => some ([], rest)
  | ['\\'] => none
  | '\\' :: c :: rest => (readQuoted rest).map fun read => (protectedChar c :: read.1, read.2)
  | c :: rest => (readQuoted rest).map fun read => (c :: read.1, read.2)

variable {cs rest : List Char} {c : Char}

theorem readQuoted_cons (hquote : c ≠ '"') (hbackslash : c ≠ '\\') : readQuoted (c :: rest) =
    (readQuoted rest).map fun read => (c :: read.1, read.2) := by
  rw [readQuoted.eq_def]
  split <;> simp_all

/-! ### Escaping -/

theorem escape_append (s s' : String) : escape (s ++ s') = escape s ++ escape s' := by
  rw [← String.toList_inj]
  simp only [escape, escapeChars, String.toList_ofList, String.toList_append, List.flatMap_append]

theorem escape_join (pieces : List String) :
    escape (String.join pieces) = String.join (pieces.map escape) := by
  induction pieces with
  | nil => rfl
  | cons s pieces ih =>
    rw [String.join_cons, escape_append, ih, List.map_cons, String.join_cons]

theorem not_mem_escape (s : String) : '\n' ∉ (escape s).toList := by
  rw [escape, String.toList_ofList, escapeChars, List.mem_flatMap]
  rintro ⟨c, _, hc⟩
  revert hc
  fun_cases escapeChar c <;> simp_all [eq_comm]

/-! ### Reading back -/

/-- One character is read back at a time. -/
theorem readQuoted_escapeChar (c : Char) (rest : List Char) :
    readQuoted (escapeChar c ++ rest) =
      (readQuoted rest).map fun read => ([c].filter (· != '\r') ++ read.1, read.2) := by
  fun_cases escapeChar c with
  | case1 => rfl
  | case2 => rfl
  | case3 => rfl
  | case4 => rfl
  | case5 => rfl
  | case6 =>
    -- A carriage return is not written at all.
    exact Option.map_id'.symm
  | case7 c hbackslash hquote _ _ _ hreturn =>
    rw [List.filter_cons_of_pos (by simpa using hreturn)]
    exact readQuoted_cons hquote hbackslash

theorem readQuoted_escapeChars (cs rest : List Char) :
    readQuoted (escapeChars cs ++ '"' :: rest) = some (cs.filter (· != '\r'), rest) := by
  induction cs with
  | nil => rfl
  | cons c cs ih =>
    rw [escapeChars, List.flatMap_cons, List.append_assoc, readQuoted_escapeChar, ← escapeChars,
      ih, Option.map_some, ← List.filter_append, List.singleton_append]

/-- **What was escaped is read back**, up to the quote that was put behind it. -/
theorem readQuoted_escape (s : String) (rest : List Char) :
    readQuoted ((escape s).toList ++ '"' :: rest) = some ((withoutReturns s).toList, rest) := by
  rw [escape, String.toList_ofList, readQuoted_escapeChars, withoutReturns, String.toList_ofList]

theorem readQuoted_append (h : ∀ c ∈ cs, c ≠ '"' ∧ c ≠ '\\') (rest : List Char) :
    readQuoted (cs ++ '"' :: rest) = some (cs, rest) := by
  induction cs with
  | nil => rfl
  | cons c cs ih =>
    obtain ⟨⟨hquote, hbackslash⟩, h⟩ := List.forall_mem_cons.1 h
    rw [List.cons_append, readQuoted_cons hquote hbackslash, ih h, Option.map_some]

end Dot
end ContractCalls
