import AngleSeries.Double.Shortest
import AngleSeries.Json.Basic
import AngleSeries.Text.Quoted

/-!
# Writing JSON

One printer serves the compact and the indented form. A `Style` fixes how numbers are written and
what one level of indentation looks like; without an indentation everything stands on one line.
An empty array or object is always written as a bare pair of brackets.
-/

namespace AngleSeries.Json

structure Style where
  number : Double → Text
  /-- One level of indentation; `none` for a single line. -/
  indent : Option Text

def indentation (unit : Text) (depth : Nat) : Text :=
  .concat (List.replicate depth unit)

def bracket (style : Style) (opening closing : Text) (depth : Nat) (parts : List Text) :
    Text :=
  if parts.isEmpty then opening ++ closing
  else
    match style.indent with
    | none => opening ++ Text.join "," parts ++ closing
    | some unit =>
      let inner := indentation unit (depth + 1)
      opening ++ "\n" ++ Text.join ",\n" (parts.map (inner ++ ·)) ++ "\n"
        ++ indentation unit depth ++ closing

mutual

def write (style : Style) (depth : Nat) : Json → Text
  | .null => "null"
  | .bool value => if value then "true" else "false"
  | .number value => style.number value
  | .string value => Text.quote value
  | .array items => bracket style "[" "]" depth (writeItems style (depth + 1) items)
  | .object members => bracket style "\x7b" "\x7d" depth (writeMembers style (depth + 1) members)

def writeItems (style : Style) (depth : Nat) : List Json → List Text
  | [] => []
  | item :: items => write style depth item :: writeItems style depth items

def writeMembers (style : Style) (depth : Nat) : List (Text × Json) → List Text
  | [] => []
  | (key, value) :: members =>
    (Text.quote key ++ (if style.indent.isSome then ": " else ":") ++ write style depth value)
      :: writeMembers style depth members

end

def style (indent : Option Text) : Style := ⟨fun x => x.text, indent⟩

def compact (document : Json) : Text :=
  write (style none) 0 document

def pretty (document : Json) : Text :=
  write (style (some "  ")) 0 document

end AngleSeries.Json
