/-! # Cutting text to a byte limit

Error records bound their texts in UTF-8 bytes. A text that is too long loses whole characters at
its end, as few as the limit allows.
-/
namespace IndexedStore.Text

/-- The longest run of leading characters that fits into `limit` bytes. -/
def cutChars : Nat → List Char → List Char
  | _, [] => []
  | limit, c :: rest =>
    if c.utf8Size ≤ limit then c :: cutChars (limit - c.utf8Size) rest else []

/-- A text cut after the last whole character within `limit` bytes. -/
def cut (limit : Nat) (s : String) : String :=
  if s.utf8ByteSize ≤ limit then s else String.ofList (cutChars limit s.toList)

end IndexedStore.Text
