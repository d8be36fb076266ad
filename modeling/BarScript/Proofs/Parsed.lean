import BarScript.Proofs.Gives
import BarScript.Script.Parser

/-!
# Fixed texts

A text is stored as bytes. Where a fixed one is read by evaluation, its characters are
handed to the parser as they are, so that the bytes need not be decoded one by one.
-/

namespace BarScript

/-- The tree of a script from its characters. -/
def parseChars (cs : List Char) : Except CompileError Program := do
  let tokens ← tokensFrom (cs.length + 1) ⟨cs, .start⟩
  let (p, _) ← Parser.run (Parser.grammar (tokens.length + 1)).program tokens
  return p

theorem parse_of_toList {s : String} (h : s.toList = cs) : parse s = parseChars cs := by
  subst h
  unfold parse tokenize parseChars Reader.ofString
  rw [String.length_toList]

theorem toList_append_of {s t : String} (hs : s.toList = cs)
    (ht : t.toList = ds) : (s ++ t).toList = cs ++ ds := by
  rw [String.toList_append, hs, ht]

theorem gives_parse {test : Program → Bool} {s : String} (hs : s.toList = cs)
    (h : Except.gives test (parseChars cs) = true) : Except.gives test (parse s) = true := by
  rw [parse_of_toList hs]
  exact h

end BarScript
