import CatalogQuery.Text.Blank

/-!
# Templates with named slots

A template is text in which `{name}` stands for a value. Braces that do not enclose a name are
text like any other.
-/

namespace CatalogQuery.Text

/-- A character of the text, or the name between two braces. -/
inductive TemplatePart where
  | char (c : Char)
  | slot (name : List Char)

namespace TemplatePart

/-- Reads on; `pending` is what followed a brace that may still open a slot. -/
def read : Option (List Char) → List Char → List TemplatePart
  | none, [] => []
  | some held, [] => (.char '{') :: held.map .char
  | none, c :: rest =>
    if c = '{' then read (some []) rest else .char c :: read none rest
  | some held, c :: rest =>
    -- A second brace makes the first one text.
    if c = '{' then (.char '{' :: held.map .char) ++ read (some []) rest
    else if c = '}' then
      match held with
      | [] => .char '{' :: .char '}' :: read none rest
      | _ => .slot held :: read none rest
    else read (some (held ++ [c])) rest

/-- The text a part was read from. -/
def source : TemplatePart → List Char
  | char c => [c]
  | slot name => '{' :: name ++ ['}']

theorem flatMap_source_char (s : List Char) :
    (s.map TemplatePart.char).flatMap source = s := by
  induction s with
  | nil => rfl
  | cons c rest ih => simp [source, ih]

/-- Nothing of the template is lost. -/
theorem flatMap_source_read (pending : Option (List Char)) (s : List Char) :
    (read pending s).flatMap source =
      (match pending with | none => [] | some held => '{' :: held) ++ s := by
  induction s generalizing pending with
  | nil =>
    cases pending with
    | none => rfl
    | some held => simp [read, source, flatMap_source_char]
  | cons c rest ih =>
    cases pending with
    | none =>
      by_cases h : c = '{'
      · simp [read, h, ih]
      · simp [read, h, source, ih]
    | some held =>
      by_cases h : c = '{'
      · simp [read, h, source, flatMap_source_char, ih]
      · by_cases h' : c = '}'
        · cases held <;> simp [read, h', source, ih]
        · simp [read, h, h', ih]

end TemplatePart

/-- The parts of a template, from left to right. -/
def templateParts (template : String) : List TemplatePart :=
  TemplatePart.read none template.toList

/-- The names of the slots, without the blanks around them. -/
def slotNames (template : String) : List String :=
  (templateParts template).filterMap fun
    | .slot name => some (String.ofList (trim name))
    | .char _ => none

end CatalogQuery.Text
