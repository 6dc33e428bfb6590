/-!
# Listings

How names are listed: `a`, `a or b` and `a, b, and c` in a sentence, or with
commas only between brackets.
-/

namespace Tokenwise.Listing

/-- Names with commas between them. -/
def commas (names : List String) : String := String.intercalate ", " names

/-- Names in a sentence, or `empty` if there are none. -/
def alternatives (empty : String) : List String → String
  | [] => empty
  | [name] => name
  | [first, second] => first ++ " or " ++ second
  | first :: second :: third :: more =>
      commas (first :: second :: (third :: more).dropLast)
        ++ ", and " ++ (third :: more).getLast (List.cons_ne_nil _ _)

end Tokenwise.Listing
