/-!
# Character classes

The ASCII characters that texts are most often made of, and the names under
which white space is reported, since a line break or a space by itself cannot
be seen in a message.
-/

namespace Tokenwise.CharClass

/-- White space: space, tab, carriage return and line break. -/
def whitespace : String := " \t\r\n"

def digits : String := "0123456789"

def lowercase : String := "abcdefghijklmnopqrstuvwxyz"

def uppercase : String := "ABCDEFGHIJKLMNOPQRSTUVWXYZ"

/-- The name of each white space character. -/
def whitespaceNames : List (String × String) :=
  [(" ", "space"), ("\t", "tab"), ("\n", "line break"), ("\r", "carriage return")]

/-- How a token of text is shown: white space by name, anything else as it is. -/
def shown (token : String) : String := (whitespaceNames.lookup token).getD token

end Tokenwise.CharClass
