import HtmlPrinter.Omission.StartTag
import HtmlPrinter.Tag.Attribute

/-!
# Tags

The text of start tags and end tags, and the decision which of them are left out. Elements of a
drawing keep all their tags, and an element with a written attribute keeps its start tag.
-/

namespace HtmlPrinter

/-- Puts attributes behind each other, each after a space; a space behind a closing quote is
dropped when `tight`. -/
def spaceOut (tight : Bool) (previous : Option Ending) : List AttributeText → String
  | [] => ""
  | attr :: rest =>
      (if tight && previous == some .quoted then "" else " ") ++ attr.text ++
        spaceOut tight (some attr.ending) rest

def stackUp (indent : String) : List AttributeText → String
  | [] => ""
  | attr :: rest => "\n" ++ indent ++ attr.text ++ stackUp indent rest

def endTag (tag : String) : String := "</" ++ tag ++ ">"

def printEndTag (tag : String) : Printer Unit := do
  write "</"
  write tag
  write ">"

theorem printEndTag_eq_write (tag : String) : printEndTag tag = write (endTag tag) := by
  simp [printEndTag, endTag, write_append]

namespace Config

/-- Lays out the attributes of a start tag: on lines of their own when a custom element has more
than one. -/
def layOut (cfg : Config) (custom : Bool) (attrs : List AttributeText) : String :=
  if custom && decide (1 < attrs.length) then stackUp cfg.customElementIndent attrs
  else spaceOut cfg.tightAttributes none attrs

theorem layOut_eq_empty_iff {cfg : Config} {custom : Bool} {attrs : List AttributeText} :
    cfg.layOut custom attrs = "" ↔ attrs = [] := by
  constructor
  · intro hempty
    cases attrs with
    | nil => rfl
    | cons attr rest =>
        have nothing := congrArg String.toList hempty
        unfold layOut at nothing
        split at nothing <;> simp [stackUp, spaceOut] at nothing
  · rintro rfl
    simp [layOut, spaceOut]

/-- Nothing is laid out exactly when there is no attribute. -/
theorem isEmpty_layOut (cfg : Config) (custom : Bool) (attrs : List AttributeText) :
    (cfg.layOut custom attrs).isEmpty = attrs.isEmpty := by
  rw [Bool.eq_iff_iff, String.isEmpty_iff, layOut_eq_empty_iff, List.isEmpty_iff]

def selfCloses (cfg : Config) (dialect : Dialect) (e : Element) : Bool :=
  match dialect with
  | .html => cfg.isVoid e.tag && cfg.closeSelfClosing
  | .svg => e.children.isEmpty && cfg.closeEmptyElements

def isLeaf (cfg : Config) (dialect : Dialect) (e : Element) : Bool :=
  match dialect with
  | .html => cfg.isVoid e.tag
  | .svg => cfg.selfCloses .svg e

/-- Writes the slash of a closed start tag, off a value without quotes in any case. -/
def slash (cfg : Config) (last : Option Ending) : String :=
  if cfg.tightSelfClosing && last != some .unquoted then "/" else " /"

def startTag (cfg : Config) (dialect : Dialect) (e : Element) : String :=
  let attrs := cfg.attributeTexts dialect e
  "<" ++ e.tag ++ cfg.layOut e.isCustom attrs ++
    (if cfg.selfCloses dialect e then cfg.slash (attrs.getLast?.map (·.ending)) else "") ++ ">"

def printSlash (cfg : Config) (last : Option Ending) : Printer Unit := do
  if !cfg.tightSelfClosing || last == some .unquoted then
    write " "
  write "/"

def printStartTag (cfg : Config) (dialect : Dialect) (e : Element) : Printer Unit := do
  let attrs := cfg.attributeTexts dialect e
  write "<"
  write e.tag
  write (cfg.layOut e.isCustom attrs)
  if cfg.selfCloses dialect e then
    cfg.printSlash (attrs.getLast?.map (·.ending))
  write ">"

theorem printSlash_eq_write (cfg : Config) (last : Option Ending) :
    cfg.printSlash last = write (cfg.slash last) := by
  have parts : write " /" = (do write " "; write "/") := by
    rw [← write_append]
    rfl
  cases htight : cfg.tightSelfClosing with
  | false => simp [printSlash, slash, htight, parts]
  | true =>
      by_cases hlast : last = some .unquoted <;> simp [printSlash, slash, htight, hlast, parts]

theorem printStartTag_eq_write (cfg : Config) (dialect : Dialect) (e : Element) :
    cfg.printStartTag dialect e = write (cfg.startTag dialect e) := by
  cases hclosed : cfg.selfCloses dialect e with
  | false => simp [printStartTag, startTag, hclosed, write_append]
  | true => simp [printStartTag, startTag, hclosed, write_append, printSlash_eq_write]

def omits (cfg : Config) (dialect : Dialect) : Bool :=
  cfg.omitOptionalTags && dialect == .html

def omitsStartTag (cfg : Config) (dialect : Dialect) (e : Element) (place : Place) : Bool :=
  cfg.omits dialect && (cfg.layOut e.isCustom (cfg.attributeTexts dialect e)).isEmpty &&
    e.startTagImplied place

def omitsEndTag (cfg : Config) (dialect : Dialect) (e : Element) (place : Place) : Bool :=
  cfg.omits dialect && e.endTagImplied place

@[simp] theorem omits_svg (cfg : Config) : cfg.omits .svg = false := by
  simp [omits]

end Config

end HtmlPrinter
