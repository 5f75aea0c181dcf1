/-!
# Texts of values

Values are shown as records: a name and its fields between braces, lists between brackets, an
absent value as `None` and a present one as `Some(..)`. A record that keeps some of its fields to
itself ends in two dots. Numbers are decimal; addresses that a reader compares with a disassembly
are lower-case hexadecimal.
-/

namespace JitIndex.Text

def hex (n : Nat) : String := "0x" ++ String.ofList (Nat.toDigits 16 n)

/-- Items between brackets. -/
def list (items : List String) : String := "[" ++ ", ".intercalate items ++ "]"

def numbers (ns : List Nat) : String := list (ns.map toString)

def optional : Option String → String
  | none => "None"
  | some s => "Some(" ++ s ++ ")"

/-- The fields of a record, each named. -/
def fields (fs : List (String × String)) : String :=
  ", ".intercalate (fs.map fun (name, value) => name ++ ": " ++ value)

/-- A record that shows all its fields. -/
def record (name : String) (fs : List (String × String)) : String :=
  name ++ " \x7b " ++ fields fs ++ " \x7d"

/-- A record that keeps some of its fields to itself. -/
def partialRecord (name : String) (fs : List (String × String)) : String :=
  name ++ " \x7b " ++ fields fs ++ ", .. \x7d"

end JitIndex.Text
