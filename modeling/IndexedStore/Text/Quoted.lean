import IndexedStore.Text.Unprinted

/-! # Quoted text

Names and paths appear in descriptions between double quotes. Quotes and backslashes are escaped,
line ends, tabs and NUL have short escapes, and other characters without a printed form are written
by their code point.
-/
namespace IndexedStore.Text

/-- A left brace, which opens the fields of a described value. -/
def opening : String := "\x7b"

def closing : String := "\x7d"

/-- How one character stands inside quoted text. -/
def quotedChar (c : Char) : String :=
  if c == '"' then "\\\""
  else if c == '\\' then "\\\\"
  else if c == '\n' then "\\n"
  else if c == '\r' then "\\r"
  else if c == '\t' then "\\t"
  else if c.toNat == 0 then "\\0"
  else if isUnprinted c then
    "\\u" ++ opening ++ String.ofList (Nat.toDigits 16 c.toNat) ++ closing
  else String.singleton c

def quoted (s : String) : String :=
  "\"" ++ String.join (s.toList.map quotedChar) ++ "\""

def bracketed (items : List String) : String := "[" ++ ", ".intercalate items ++ "]"

/-- A value described by its kind and its fields in order. -/
def described (kind : String) (fields : List (String × String)) : String :=
  kind ++ " " ++ opening ++ " " ++
    ", ".intercalate (fields.map fun f => f.1 ++ ": " ++ f.2) ++ " " ++ closing

end IndexedStore.Text
