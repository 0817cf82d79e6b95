/-!
# Places of a string in markup

A string lands in markup as an attribute name, as an attribute value or as text. Each place has
characters that may not stand there literally: those that would end the string or start
something else, those that are a parse error, and those that some readers take for quotes.
-/

namespace HtmlPrinter

/-- Names a place in markup where a string can stand. -/
inductive Context where
  | attributeName
  | unquoted
  | singleQuoted
  | doubleQuoted
  | text
deriving DecidableEq, Repr

namespace Context

def all : List Context := [attributeName, unquoted, singleQuoted, doubleQuoted, text]

/-- Lists the characters that change how the markup reads; the ampersand is one everywhere. -/
def required : Context → List Char
  | attributeName => ['&', ' ', '\t', '\n', '\r', '\x0c', '/', '>', '=']
  | unquoted => ['&', ' ', '\t', '\n', '\r', '\x0c', '>']
  | singleQuoted => ['&', '\x27']
  | doubleQuoted => ['&', '"']
  | text => ['&', '<']

/-- Lists the characters that are a parse error. -/
def erroneous : Context → List Char
  | attributeName => ['\x00', '"', '\x27', '<']
  | unquoted => ['\x00', '"', '\x27', '<', '=', '\x60']
  | singleQuoted | doubleQuoted | text => ['\x00']

/-- Lists the characters that some readers mishandle: NUL, and in attributes all quotes. -/
def dangerous : Context → List Char
  | text => ['\x00']
  | _ => ['\x00', '"', '\x27', '\x60']

def forbidden (place : Context) (allowParseErrors allowDangerous : Bool) : List Char :=
  (place.required ++ (if allowParseErrors then [] else place.erroneous) ++
    (if allowDangerous then [] else place.dangerous)).eraseDups

theorem mem_all (place : Context) : place ∈ all := by
  cases place <;> simp [all]

theorem mem_forbidden {place : Context} {allowParseErrors allowDangerous : Bool} {c : Char} :
    c ∈ place.forbidden allowParseErrors allowDangerous ↔
      c ∈ place.required ∨ (allowParseErrors = false ∧ c ∈ place.erroneous) ∨
        (allowDangerous = false ∧ c ∈ place.dangerous) := by
  cases allowParseErrors <;> cases allowDangerous <;> simp [forbidden]

theorem ampersand_mem_forbidden (place : Context) (allowParseErrors allowDangerous : Bool) :
    '&' ∈ place.forbidden allowParseErrors allowDangerous :=
  mem_forbidden.2 (.inl (by cases place <;> decide))

end Context

end HtmlPrinter
