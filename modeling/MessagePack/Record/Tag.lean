import MessagePack.Text.Blank
/-!
# Field tags

A field may carry a tag.  The tag `-` alone leaves the field out.  In any other tag the text before
the first comma renames the field, unless it is empty, and the option `omitempty` among the parts
after it leaves zeros out of maps.
-/

namespace MessagePack

/-- What a tag says about its field. -/
structure FieldTag where
  /-- The wire name, where the tag gives one. -/
  name : Option String
  /-- Whether the field is left out altogether. -/
  ignored : Bool
  /-- Whether the field is left out of maps while it is zero. -/
  omitEmpty : Bool
  deriving DecidableEq, Repr

namespace FieldTag

/-- A field without a tag keeps its name and is always written. -/
def absent : FieldTag := ⟨none, false, false⟩

/-- The parts of a text between its commas; there is always at least one. -/
def parts : List Char → List (List Char)
  | [] => [[]]
  | c :: cs =>
    if c = ',' then [] :: parts cs
    else
      match parts cs with
      | [] => [[c]]
      | p :: ps => (c :: p) :: ps

/-- What a tag's text says. -/
def parse (tag : String) : FieldTag :=
  if tag = "-" then ⟨none, true, false⟩
  else
    let ps := parts tag.toList
    let name := String.ofList (ps.headD [])
    ⟨if name = "" then none else some name, false,
      ps.tail.any fun p => String.ofList (trimBlank p) == "omitempty"⟩

end FieldTag

end MessagePack
