/-!
The text of a labelled value, with each part of it on an indented line of its own.
-/

namespace PdfGraphics.Text

-- A label with named fields; a label alone when there are none.
def record (label : String) (fields : List (String × String)) : String :=
  if fields.isEmpty then
    label
  else
    let lines := fields.map fun (name, value) => "    " ++ name ++ ": " ++ value ++ ",\n"
    label ++ " \x7b\n" ++ String.join lines ++ "\x7d"

-- A label with a single unnamed part.
def tagged (label value : String) : String :=
  label ++ "(\n    " ++ value ++ ",\n)"

end PdfGraphics.Text
