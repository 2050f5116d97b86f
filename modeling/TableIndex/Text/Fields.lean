/-!
# Named fields

One line of text for a record: its name, and its fields by name in braces.
-/

namespace TableIndex.Text

def fields (name : String) (values : List (String × String)) : String :=
  name ++ " \x7b " ++ ", ".intercalate (values.map fun f => f.1 ++ ": " ++ f.2) ++ " \x7d"

end TableIndex.Text
