import HtmlPrinter.OrderedMap

/-!
# Attributes

Attribute values and the ordered attributes of an element. Attribute names are compared exactly,
and a name occurs once. A history of edits is a list of `Edit`s, applied from left to right.
-/

namespace HtmlPrinter

inductive Value where
  /-- A flag: present without a value when on, absent when off. -/
  | flag (on : Bool)
  | text (content : String)
  | spaceList (tokens : List String)
  | commaList (tokens : List String)
deriving DecidableEq, Repr

def Value.text? : Value → Option String
  | .text content => some content
  | _ => none

abbrev Attributes := OrderedMap String Value

namespace Attributes

inductive Edit where
  | clear
  /-- Starts over from pairs, of which the first value of each name stays. -/
  | collect (pairs : List (String × Value))
  | set (name : String) (value : Value)
  /-- Gives a name a value only when it is new. -/
  | setIfMissing (name : String) (value : Value)
deriving DecidableEq, Repr

def edit (attrs : Attributes) : Edit → Attributes
  | .clear => ∅
  | .collect pairs => OrderedMap.collect pairs
  | .set name value => attrs.insert name value
  | .setIfMissing name value => attrs.insertIfNew name value

def editAll (attrs : Attributes) (edits : List Edit) : Attributes := edits.foldl edit attrs

theorem editAll_append (attrs : Attributes) (first second : List Edit) :
    attrs.editAll (first ++ second) = (attrs.editAll first).editAll second := by
  simp [editAll]

end Attributes

end HtmlPrinter
