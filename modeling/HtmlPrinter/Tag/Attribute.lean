import HtmlPrinter.Config.Basic
import HtmlPrinter.Tree.Basic

/-!
# Attributes in a start tag

Each attribute is written as a bare name, or as a name with a value, which is quoted unless it
reads the same without quotes. How an attribute ends decides what may stand right behind it.
-/

namespace HtmlPrinter

/-- Names the sets of rules that elements follow: documents, and the drawings within. -/
inductive Dialect where
  | html
  | svg
deriving DecidableEq, Repr

/-- Gives the dialect of an element below another: a drawing starts at `svg` and has no end. -/
def Dialect.enter (outer : Dialect) (tag : String) : Dialect :=
  if sameName tag "svg" then .svg else outer

inductive Ending where
  | name
  /-- With a value without quotes, which a slash behind it would join. -/
  | unquoted
  | quoted
deriving DecidableEq, Repr

structure AttributeText where
  text : String
  ending : Ending
deriving DecidableEq, Repr

def joinTokens (separator : String) : List String → String
  | [] => ""
  | [token] => token
  | token :: rest => token ++ separator ++ joinTokens separator rest

namespace Config

def bareName (cfg : Config) (name : String) : AttributeText :=
  ⟨(cfg.escape .attributeName name).text, .name⟩

/-- Decides whether a value is written without quotes: it is not empty, does not start with a
quote, and has nothing to escape. -/
def leavesUnquoted (cfg : Config) (value : String) : Bool :=
  cfg.preferUnquoted && value.toList.head?.any (fun c => c != '"' && c != '\x27') &&
    !(cfg.escaping .unquoted).needsEscape value

def valueText (cfg : Config) (value : String) : AttributeText :=
  if cfg.leavesUnquoted value then ⟨value, .unquoted⟩
  else
    let quote := String.ofList [cfg.quote.char]
    ⟨quote ++ (cfg.escape cfg.quote.context value).text ++ quote, .quoted⟩

def assignment (cfg : Config) (name value : String) : AttributeText :=
  ⟨(cfg.escape .attributeName name).text ++ "=" ++ (cfg.valueText value).text,
    (cfg.valueText value).ending⟩

/-- Writes a flag that is on: bare when its name is marked, or boolean in a document. Otherwise
it has an empty value in a document, and its own name as its value in a drawing. -/
def flagText (cfg : Config) (dialect : Dialect) (name : String) : AttributeText :=
  match cfg.unmarked? name with
  | some rest => cfg.bareName rest
  | none =>
      match dialect with
      | .html =>
          if cfg.isBooleanAttribute name then cfg.bareName name else cfg.assignment name ""
      | .svg => cfg.assignment name name

def attributeText? (cfg : Config) (dialect : Dialect) (name : String) :
    Value → Option AttributeText
  | .flag false => none
  | .flag true => some (cfg.flagText dialect name)
  | .text content => some (cfg.assignment name content)
  | .spaceList tokens => some (cfg.assignment name (joinTokens " " tokens))
  | .commaList tokens => some (cfg.assignment name (joinTokens cfg.listSeparator tokens))

def attributeTexts (cfg : Config) (dialect : Dialect) (e : Element) : List AttributeText :=
  e.attrs.entries.filterMap fun entry => cfg.attributeText? dialect entry.1 entry.2

end Config

end HtmlPrinter
