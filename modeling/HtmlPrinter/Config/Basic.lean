import HtmlPrinter.Config.Style
import HtmlPrinter.Escape.Escaping
import HtmlPrinter.Text.Caseless
import HtmlPrinter.Vocabulary

/-!
# Configurations

A configuration is what a tree is printed with: the choices of style, a legal quote, and the
lists of void elements and boolean attributes.
-/

namespace HtmlPrinter

/-- Tells how a tree is printed. -/
structure Config extends Style where
  quote : Quote := .double
  voids : List String := standardVoids
  booleanAttributes : List String := standardBooleanAttributes
deriving DecidableEq, Repr

instance : Inhabited Config := ⟨{}⟩

namespace Config

def forbidden (cfg : Config) (place : Context) : List Char :=
  place.forbidden cfg.allowParseErrors cfg.allowDangerousCharacters

def escaping (cfg : Config) (place : Context) : Escaping :=
  { forbidden := cfg.forbidden place, entities := cfg.entities }

def escape (cfg : Config) (place : Context) (s : String) : Escaped :=
  (cfg.escaping place).escape s

def isVoid (cfg : Config) (tag : String) : Bool := nameIn tag cfg.voids

def isBooleanAttribute (cfg : Config) (name : String) : Bool := nameIn name cfg.booleanAttributes

/-- Gives the rest of a name that starts with a boolean mark. -/
def unmarked? (cfg : Config) (name : String) : Option String :=
  match name.toList with
  | [] => none
  | c :: rest => if cfg.booleanMarks.contains c then some (String.ofList rest) else none

def listSeparator (cfg : Config) : String := if cfg.tightCommaSeparatedLists then "," else ", "

theorem text_escape (cfg : Config) (place : Context) (s : String) :
    (cfg.escape place s).text = (cfg.escaping place).escaped s :=
  (cfg.escaping place).text_escape s

end Config

end HtmlPrinter
