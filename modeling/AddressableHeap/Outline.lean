/-!
# Outlines

An outline is the skeleton of a value as it is shown to a person who debugs a program: a bare word,
a list, a named wrapper around one value, or a named record. It has two written forms, one on a
single line and one that puts every part on a line of its own, four columns deeper than the whole.
-/

namespace AddressableHeap

/-- The skeleton of a value. -/
inductive Outline where
  /-- A word that is shown as it stands. -/
  | word (text : String)
  /-- A sequence of values. -/
  | list (items : List Outline)
  /-- A value inside a named wrapper. -/
  | wrapped (name : String) (inner : Outline)
  /-- Named fields under a common name. -/
  | record (name : String) (fields : List (String × Outline))

namespace Outline

/-- A natural number as an outline. -/
def nat (n : Nat) : Outline := .word (toString n)

/-! ## On one line -/

mutual

/-- The one-line form: `[a, b]`, `Name(inner)`, `Name {` fields `}`. -/
def compact : Outline → String
  | .word text => text
  | .list items => "[" ++ ", ".intercalate (compactItems items) ++ "]"
  | .wrapped name inner => name ++ "(" ++ compact inner ++ ")"
  | .record name fields => name ++ " \x7b " ++ ", ".intercalate (compactFields fields) ++ " \x7d"

/-- The one-line forms of the items of a list. -/
def compactItems : List Outline → List String
  | [] => []
  | item :: items => compact item :: compactItems items

/-- The one-line forms of the fields of a record, each behind its name. -/
def compactFields : List (String × Outline) → List String
  | [] => []
  | (name, value) :: fields => (name ++ ": " ++ compact value) :: compactFields fields

end

/-! ## On many lines -/

/-- Put a label in front of the first line. -/
def labelled (label : String) : List String → List String
  | [] => []
  | line :: lines => (label ++ line) :: lines

/-- Put a comma behind the last line. -/
def closed : List String → List String
  | [] => []
  | [line] => [line ++ ","]
  | line :: lines => line :: closed lines

/-- The lines of a part inside a whole: labelled, closed, and four columns to the right. -/
def part (label : String) (lines : List String) : List String :=
  (closed (labelled label lines)).map ("    " ++ ·)

mutual

/-- The lines of the indented form. A list without items stays on one line. -/
def lines : Outline → List String
  | .word text => [text]
  | .list [] => ["[]"]
  | .list (item :: items) => "[" :: part "" (lines item) ++ itemLines items ++ ["]"]
  | .wrapped name inner => (name ++ "(") :: part "" (lines inner) ++ [")"]
  | .record name fields => (name ++ " \x7b") :: fieldLines fields ++ ["\x7d"]

/-- The lines of the items of a list. -/
def itemLines : List Outline → List String
  | [] => []
  | item :: items => part "" (lines item) ++ itemLines items

/-- The lines of the fields of a record. -/
def fieldLines : List (String × Outline) → List String
  | [] => []
  | (name, value) :: fields => part (name ++ ": ") (lines value) ++ fieldLines fields

end

/-- The indented form, without a line break at its end. -/
def indented (o : Outline) : String := "\n".intercalate o.lines

end Outline

end AddressableHeap
